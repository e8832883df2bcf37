import Mathlib.Data.List.Induction

/-!
# Painting

Operations are painted onto a canvas one after the other.  Each of them covers some of the points
and gives those its colour; so a point shows the last operation that covers it.
-/

namespace Irata2.Library.Painting

universe u v w

variable {Op : Type u} {Point : Type v} {Colour : Type w} (covers : Op → Point → Bool)
  (colour : Op → Colour)

def paint (canvas : Point → Colour) (op : Op) : Point → Colour := fun p =>
  if covers op p then colour op else canvas p

/-- What shows at a point: the last operation that covers it, or else the canvas. -/
def shown (ops : List Op) (canvas : Point → Colour) (p : Point) : Colour :=
  ((ops.filter fun op => covers op p).getLast?).elim (canvas p) colour

variable {covers colour} {canvas : Point → Colour}

theorem shown_concat_of_covers {ops : List Op} {op : Op} {p : Point} (h : covers op p = true) :
    shown covers colour (ops ++ [op]) canvas p = colour op := by
  unfold shown
  rw [List.filter_append, List.filter_cons, if_pos h, List.filter_nil, List.getLast?_concat]
  rfl

theorem shown_concat_of_not_covers {ops : List Op} {op : Op} {p : Point}
    (h : ¬covers op p = true) :
    shown covers colour (ops ++ [op]) canvas p = shown covers colour ops canvas p := by
  unfold shown
  rw [List.filter_append, List.filter_cons, if_neg h, List.filter_nil, List.append_nil]

/-- The last operation that covers a point decides its colour. -/
theorem foldl_paint (ops : List Op) (canvas : Point → Colour) :
    ops.foldl (paint covers colour) canvas = shown covers colour ops canvas := by
  induction ops using List.reverseRecOn with
  | nil => rfl
  | append_singleton ops op ih =>
      rw [List.foldl_append, ih]
      funext p
      show (if covers op p then colour op else _) = _
      by_cases h : covers op p = true
      · rw [if_pos h, shown_concat_of_covers h]
      · rw [if_neg h, shown_concat_of_not_covers h]

/-- A property of all the colours that are painted, and of the canvas, holds of what shows. -/
theorem shown_of_forall {P : Colour → Prop} {ops : List Op} (hops : ∀ op ∈ ops, P (colour op))
    (hcanvas : ∀ p, P (canvas p)) (p : Point) : P (shown covers colour ops canvas p) := by
  unfold shown
  cases hlast : (ops.filter fun op => covers op p).getLast? with
  | none => exact hcanvas p
  | some op => exact hops op (List.mem_filter.mp (List.mem_of_getLast? hlast)).1

end Irata2.Library.Painting
