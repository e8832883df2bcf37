import Irata2.Base.Types
import Irata2.Library.DigitalLine
import Mathlib.Data.Fin.Basic
import Mathlib.Data.List.Chain
import Mathlib.Logic.Function.Basic
import Mathlib.Tactic.SplitIfs

/-!
# The image backend

The backend of the vector graphics coprocessor that draws into a framebuffer.  A line is drawn by
a loop that follows an error term and stops when it hits the target.
-/

namespace Irata2.Sim

open Library

namespace ImageBackend

def kWidth : Nat := 256

def kHeight : Nat := 256

end ImageBackend

structure ImageBackend where
  framebuffer : Fin (ImageBackend.kWidth * ImageBackend.kHeight) → Byte

namespace ImageBackend

def new : ImageBackend := ⟨fun _ => 0⟩

def clear (_ : ImageBackend) (intensity : Byte) : ImageBackend := ⟨fun _ => intensity⟩

def drawPoint (backend : ImageBackend) (x y intensity : Byte) : ImageBackend :=
  let px := x.toNat
  let py := y.toNat
  if h : px ≥ kWidth ∨ py ≥ kHeight then backend
  else
    ⟨Function.update backend.framebuffer ⟨py * kWidth + px, by
      unfold kWidth kHeight at *
      omega⟩ intensity⟩

/-! ## Drawing a line -/

/-- The local constants of `draw_line`. -/
structure Line where
  targetX : Int
  targetY : Int
  dx : Int
  dy : Int
  stepX : Int
  stepY : Int
  deriving DecidableEq, Repr

/-- Its local variables. -/
structure LineState where
  x : Int
  y : Int
  error : Int
  deriving DecidableEq, Repr

namespace Line

def new (x y targetX targetY : Int) : Line where
  targetX := targetX
  targetY := targetY
  dx := |targetX - x|
  dy := -|targetY - y|
  stepX := if x < targetX then 1 else -1
  stepY := if y < targetY then 1 else -1

/-- The rest of the loop's body, after the test. -/
def next (l : Line) (s : LineState) : LineState :=
  let error2 := 2 * s.error
  let s := if error2 ≥ l.dy then { s with error := s.error + l.dy, x := s.x + l.stepX } else s
  if error2 ≤ l.dx then { s with error := s.error + l.dx, y := s.y + l.stepY } else s

/-- The arguments of the call of `draw_point`. -/
def point (s : LineState) : Byte × Byte := (BitVec.ofInt 8 s.x, BitVec.ofInt 8 s.y)

/-- The loop, for at most `fuel` points: the points drawn, in order, and the backend after them. -/
def loop (l : Line) (intensity : Byte) :
    Nat → LineState → ImageBackend → Option (List (Byte × Byte) × ImageBackend)
  | 0, _, _ => none
  | fuel + 1, s, backend =>
      let p := point s
      let backend := backend.drawPoint p.1 p.2 intensity
      if s.x = l.targetX ∧ s.y = l.targetY then some ([p], backend)
      else
        match l.loop intensity fuel (l.next s) backend with
        | some (points, backend) => some (p :: points, backend)
        | none => none

end Line

/-- `draw_line`, for at most `fuel` rounds of its loop. -/
def drawLine (backend : ImageBackend) (fuel : Nat) (x0 y0 x1 y1 intensity : Byte) :
    Option (List (Byte × Byte) × ImageBackend) :=
  let l := Line.new x0.toNat y0.toNat x1.toNat y1.toNat
  l.loop intensity fuel ⟨x0.toNat, y0.toNat, l.dx + l.dy⟩ backend

example : ((new.drawLine 4 1 2 4 1 3).map Prod.fst) = some [(1, 2), (2, 2), (3, 1), (4, 1)] := by
  decide

/-! ## The line is followed -/

namespace Line

variable {x0 y0 x1 y1 : Int}

/-- `u` steps along and `v` steps up from the first endpoint. -/
structure Steps (x0 y0 x1 y1 : Int) (u v : Int) (s : LineState) : Prop where
  x : s.x = x0 + (new x0 y0 x1 y1).stepX * u
  y : s.y = y0 + (new x0 y0 x1 y1).stepY * v
  error : s.error = v * |x1 - x0| + |x1 - x0| - (u * |y1 - y0| + |y1 - y0|)

/-- After `k` rounds the longer axis has made `k` steps, and the shorter one has kept up with it. -/
def Follows (x0 y0 x1 y1 : Int) (k : Int) (s : LineState) : Prop :=
  ∃ u v, Steps x0 y0 x1 y1 u v s ∧
    ((|y1 - y0| ≤ |x1 - x0| ∧ u = k ∧ Rounded |x1 - x0| |y1 - y0| u v) ∨
      (|x1 - x0| < |y1 - y0| ∧ v = k ∧ Rounded |y1 - y0| |x1 - x0| v u))

/-- The number of rounds before the last one. -/
def length (x0 y0 x1 y1 : Int) : Int := max |x1 - x0| |y1 - y0|

/-- The coordinate after `u` of the `|t - c|` steps from `c` to `t`. -/
theorem step_between {c t u : Int} (h0 : 0 ≤ u) (hle : u ≤ |t - c|) :
    min c t ≤ c + (if c < t then 1 else -1) * u ∧ c + (if c < t then 1 else -1) * u ≤ max c t ∧
      (c + (if c < t then 1 else -1) * u = t ↔ u = |t - c|) := by
  by_cases h : c < t
  · rw [abs_of_pos (by omega)] at hle ⊢
    rw [if_pos h]
    omega
  · rw [abs_of_nonpos (by omega)] at hle ⊢
    rw [if_neg h]
    omega

theorem follows_start (hne : 0 < length x0 y0 x1 y1) :
    Follows x0 y0 x1 y1 0 ⟨x0, y0, (new x0 y0 x1 y1).dx + (new x0 y0 x1 y1).dy⟩ := by
  have hsteps : Steps x0 y0 x1 y1 0 0
      ⟨x0, y0, (new x0 y0 x1 y1).dx + (new x0 y0 x1 y1).dy⟩ := by
    constructor
    · show x0 = _
      rw [Int.mul_zero, Int.add_zero]
    · show y0 = _
      rw [Int.mul_zero, Int.add_zero]
    · show |x1 - x0| + -|y1 - y0| = _
      rw [Int.zero_mul, Int.zero_mul]
      omega
  unfold length at hne
  refine ⟨0, 0, hsteps, ?_⟩
  by_cases hlong : |y1 - y0| ≤ |x1 - x0|
  · exact .inl ⟨hlong, rfl, .start (by omega)⟩
  · exact .inr ⟨by omega, rfl, .start (by omega)⟩

theorem next_x (l : Line) (s : LineState) :
    (l.next s).x = if 2 * s.error ≥ l.dy then s.x + l.stepX else s.x := by
  simp only [next]
  split_ifs <;> rfl

theorem next_y (l : Line) (s : LineState) :
    (l.next s).y = if 2 * s.error ≤ l.dx then s.y + l.stepY else s.y := by
  simp only [next]
  split_ifs <;> rfl

theorem next_error (l : Line) (s : LineState) :
    (l.next s).error = s.error + (if 2 * s.error ≥ l.dy then l.dy else 0) +
      (if 2 * s.error ≤ l.dx then l.dx else 0) := by
  simp only [next]
  split_ifs
  all_goals simp only [Int.add_zero]

/-- What a round does to the two counts of steps, by its two tests. -/
theorem Steps.next {u v : Int} {s : LineState} (h : Steps x0 y0 x1 y1 u v s) :
    Steps x0 y0 x1 y1 (if 2 * s.error ≥ -|y1 - y0| then u + 1 else u)
      (if 2 * s.error ≤ |x1 - x0| then v + 1 else v) ((new x0 y0 x1 y1).next s) := by
  have hdx : (new x0 y0 x1 y1).dx = |x1 - x0| := rfl
  have hdy : (new x0 y0 x1 y1).dy = -|y1 - y0| := rfl
  constructor
  · rw [next_x, hdy, h.x]
    split_ifs
    · rw [Int.mul_add, Int.mul_one, Int.add_assoc]
    · rfl
  · rw [next_y, hdx, h.y]
    split_ifs
    · rw [Int.mul_add, Int.mul_one, Int.add_assoc]
    · rfl
  · rw [next_error, hdx, hdy]
    have herror := h.error
    have hu : (u + 1) * |y1 - y0| = u * |y1 - y0| + |y1 - y0| := by
      rw [Int.add_mul, Int.one_mul]
    have hv : (v + 1) * |x1 - x0| = v * |x1 - x0| + |x1 - x0| := by
      rw [Int.add_mul, Int.one_mul]
    split_ifs
    all_goals omega

/-- Every round steps along the longer axis, and along the shorter one where the rounded height
changes. -/
theorem follows_next {k : Int} {s : LineState} (h : Follows x0 y0 x1 y1 k s) :
    Follows x0 y0 x1 y1 (k + 1) ((new x0 y0 x1 y1).next s) := by
  obtain ⟨u, v, hs, hcase⟩ := h
  have hnext := hs.next
  have herror := hs.error
  have ha : 0 ≤ |x1 - x0| := abs_nonneg _
  have hb : 0 ≤ |y1 - y0| := abs_nonneg _
  rcases hcase with ⟨hlong, rfl, hround⟩ | ⟨hlong, rfl, hround⟩
  · have hlower := hround.lower
    have hupper := hround.upper
    have hc1 : 2 * s.error ≥ -|y1 - y0| := by omega
    rw [if_pos hc1] at hnext
    by_cases hc2 : 2 * s.error ≤ |x1 - x0|
    · rw [if_pos hc2] at hnext
      exact ⟨u + 1, v + 1, hnext, .inl ⟨hlong, rfl, hround.rise hlong (by omega)⟩⟩
    · rw [if_neg hc2] at hnext
      exact ⟨u + 1, v, hnext, .inl ⟨hlong, rfl, hround.stay hb (by omega)⟩⟩
  · have hlower := hround.lower
    have hupper := hround.upper
    have hc2 : 2 * s.error ≤ |x1 - x0| := by omega
    rw [if_pos hc2] at hnext
    by_cases hc1 : 2 * s.error ≥ -|y1 - y0|
    · rw [if_pos hc1] at hnext
      exact ⟨u + 1, v + 1, hnext, .inr ⟨hlong, rfl, hround.rise (by omega) (by omega)⟩⟩
    · rw [if_neg hc1] at hnext
      exact ⟨u, v + 1, hnext, .inr ⟨hlong, rfl, hround.stay ha (by omega)⟩⟩

/-- A state inside the bounding box of the endpoints, which is the target exactly at the end. -/
structure OnLine (x0 y0 x1 y1 k : Int) (s : LineState) : Prop where
  left : min x0 x1 ≤ s.x
  right : s.x ≤ max x0 x1
  bottom : min y0 y1 ≤ s.y
  top : s.y ≤ max y0 y1
  atTarget : (s.x = x1 ∧ s.y = y1) ↔ k = length x0 y0 x1 y1

theorem Follows.onLine {k : Int} {s : LineState} (h : Follows x0 y0 x1 y1 k s) (h0 : 0 ≤ k)
    (hk : k ≤ length x0 y0 x1 y1) (hpos : 0 < length x0 y0 x1 y1) :
    OnLine x0 y0 x1 y1 k s := by
  obtain ⟨u, v, hs, hcase⟩ := h
  have ha : 0 ≤ |x1 - x0| := abs_nonneg _
  have hb : 0 ≤ |y1 - y0| := abs_nonneg _
  unfold length at hk hpos
  -- both counts stay inside the line's extent and are complete exactly together
  have hcounts : (0 ≤ u ∧ u ≤ |x1 - x0|) ∧ (0 ≤ v ∧ v ≤ |y1 - y0|) ∧
      ((u = |x1 - x0| ∧ v = |y1 - y0|) ↔ k = max |x1 - x0| |y1 - y0|) := by
    rcases hcase with ⟨hlong, rfl, hround⟩ | ⟨hlong, rfl, hround⟩
    · rw [max_eq_left hlong] at hk hpos ⊢
      refine ⟨⟨h0, hk⟩, ⟨hround.nonneg ha hb h0, hround.le hpos hb hk⟩, fun h => h.1, ?_⟩
      intro hend
      rw [hend] at hround
      exact ⟨hend, hround.eq_of_end hpos hb⟩
    · rw [max_eq_right (by omega)] at hk hpos ⊢
      refine ⟨⟨hround.nonneg hb ha h0, hround.le hpos ha hk⟩, ⟨h0, hk⟩, fun h => h.2, ?_⟩
      intro hend
      rw [hend] at hround
      exact ⟨hround.eq_of_end hpos ha, hend⟩
  obtain ⟨⟨hu0, hu⟩, ⟨hv0, hv⟩, hend⟩ := hcounts
  obtain ⟨hleft, hright, hxend⟩ := step_between hu0 hu
  obtain ⟨hbottom, htop, hyend⟩ := step_between hv0 hv
  have hx : s.x = x0 + (if x0 < x1 then 1 else -1) * u := hs.x
  have hy : s.y = y0 + (if y0 < y1 then 1 else -1) * v := hs.y
  rw [← hx] at hleft hright hxend
  rw [← hy] at hbottom htop hyend
  exact ⟨hleft, hright, hbottom, htop, (and_congr hxend hyend).trans hend⟩

/-- A round moves each coordinate by at most one. -/
theorem next_near (l : Line) (hx : l.stepX = 1 ∨ l.stepX = -1) (hy : l.stepY = 1 ∨ l.stepY = -1)
    (s : LineState) : |(l.next s).x - s.x| ≤ 1 ∧ |(l.next s).y - s.y| ≤ 1 := by
  rw [next_x, next_y]
  split_ifs
  all_goals
    simp only [abs_le]
    omega

/-- The error term stays within three times the line's length: no `int` overflows. -/
theorem Follows.error_le {k : Int} {s : LineState} (h : Follows x0 y0 x1 y1 k s) :
    |2 * s.error| ≤ 3 * length x0 y0 x1 y1 := by
  obtain ⟨u, v, hs, hcase⟩ := h
  have herror := hs.error
  have ha : 0 ≤ |x1 - x0| := abs_nonneg _
  have hb : 0 ≤ |y1 - y0| := abs_nonneg _
  unfold length
  rw [abs_le]
  rcases hcase with ⟨hlong, -, hround⟩ | ⟨hlong, -, hround⟩
  · have hlower := hround.lower
    have hupper := hround.upper
    rw [max_eq_left hlong]
    omega
  · have hlower := hround.lower
    have hupper := hround.upper
    rw [max_eq_right (by omega)]
    omega

/-! ## The run -/

/-- Neighbours in the framebuffer, or the same point. -/
def Adjacent (p q : Byte × Byte) : Prop :=
  |(p.1.toNat : Int) - q.1.toNat| ≤ 1 ∧ |(p.2.toNat : Int) - q.2.toNat| ≤ 1

/-- A point of the bounding box of two points. -/
def InBox (p0 p1 p : Byte × Byte) : Prop :=
  min p0.1.toNat p1.1.toNat ≤ p.1.toNat ∧ p.1.toNat ≤ max p0.1.toNat p1.1.toNat ∧
    min p0.2.toNat p1.2.toNat ≤ p.2.toNat ∧ p.2.toNat ≤ max p0.2.toNat p1.2.toNat

theorem toNat_ofInt_byte {i : Int} (h0 : 0 ≤ i) (hlt : i < 256) :
    ((BitVec.ofInt 8 i).toNat : Int) = i := by
  rw [BitVec.toNat_ofInt, Int.toNat_of_nonneg (Int.emod_nonneg _ (by decide))]
  exact Int.emod_eq_of_lt h0 hlt

/-- The casts of a point's own coordinates. -/
theorem point_cast (p : Byte × Byte) (error : Int) :
    point ⟨p.1.toNat, p.2.toNat, error⟩ = p := by
  have hx := p.1.isLt
  have hy := p.2.isLt
  have hx' : ((BitVec.ofInt 8 (p.1.toNat : Int)).toNat : Int) = p.1.toNat :=
    toNat_ofInt_byte (by omega) (by omega)
  have hy' : ((BitVec.ofInt 8 (p.2.toNat : Int)).toNat : Int) = p.2.toNat :=
    toNat_ofInt_byte (by omega) (by omega)
  apply Prod.ext
  · exact BitVec.eq_of_toNat_eq (Int.ofNat.inj hx')
  · exact BitVec.eq_of_toNat_eq (Int.ofNat.inj hy')

section Run

variable {p0 p1 : Byte × Byte}

/-- The state on a line between two points of the framebuffer casts to a point of their box. -/
theorem OnLine.point_toNat {k : Int} {s : LineState}
    (h : OnLine p0.1.toNat p0.2.toNat p1.1.toNat p1.2.toNat k s) :
    ((point s).1.toNat : Int) = s.x ∧ ((point s).2.toNat : Int) = s.y := by
  obtain ⟨hleft, hright, hbottom, htop, -⟩ := h
  have hx0 := p0.1.isLt
  have hx1 := p1.1.isLt
  have hy0 := p0.2.isLt
  have hy1 := p1.2.isLt
  constructor
  · exact toNat_ofInt_byte (by omega) (by omega)
  · exact toNat_ofInt_byte (by omega) (by omega)

theorem OnLine.inBox {k : Int} {s : LineState}
    (h : OnLine p0.1.toNat p0.2.toNat p1.1.toNat p1.2.toNat k s) : InBox p0 p1 (point s) := by
  obtain ⟨hx, hy⟩ := h.point_toNat
  obtain ⟨hleft, hright, hbottom, htop, -⟩ := h
  unfold InBox
  omega

/-- The points a loop draws from a state on, when it is `m` rounds from the target. -/
structure Draws (p0 p1 : Byte × Byte) (m : Nat) (s : LineState) (points : List (Byte × Byte)) :
    Prop where
  length : points.length = m + 1
  first : points.head? = some (point s)
  last : points.getLast? = some p1
  adjacent : points.IsChain Adjacent
  inBox : ∀ p ∈ points, InBox p0 p1 p

/-- The pixels of some points, set one after the other. -/
def drawPoints (intensity : Byte) (points : List (Byte × Byte)) (backend : ImageBackend) :
    ImageBackend :=
  points.foldl (fun b p => b.drawPoint p.1 p.2 intensity) backend

variable (p0 p1) in
/-- The line between two points, and the number of rounds before its last one. -/
def between : Line := new p0.1.toNat p0.2.toNat p1.1.toNat p1.2.toNat

variable (p0 p1) in
def rounds : Nat := (length p0.1.toNat p0.2.toNat p1.1.toNat p1.2.toNat).toNat

theorem rounds_eq : (rounds p0 p1 : Int) = length p0.1.toNat p0.2.toNat p1.1.toNat p1.2.toNat := by
  have hnonneg : 0 ≤ length p0.1.toNat p0.2.toNat p1.1.toNat p1.2.toNat :=
    le_max_of_le_left (abs_nonneg _)
  exact Int.toNat_of_nonneg hnonneg

theorem adjacent_next {k : Int} {s : LineState}
    (h : OnLine p0.1.toNat p0.2.toNat p1.1.toNat p1.2.toNat k s)
    (hnext : OnLine p0.1.toNat p0.2.toNat p1.1.toNat p1.2.toNat (k + 1)
      ((between p0 p1).next s)) :
    Adjacent (point s) (point ((between p0 p1).next s)) := by
  have hstep : ∀ c t : Int, (if c < t then (1 : Int) else -1) = 1 ∨
      (if c < t then (1 : Int) else -1) = -1 := by
    intro c t
    split_ifs
    · exact .inl rfl
    · exact .inr rfl
  have hnear := next_near (between p0 p1) (hstep _ _) (hstep _ _) s
  obtain ⟨hx, hy⟩ := h.point_toNat
  obtain ⟨hx', hy'⟩ := hnext.point_toNat
  unfold Adjacent
  rw [hx, hy, hx', hy', abs_sub_comm, abs_sub_comm s.y]
  exact hnear

/-- The last round. -/
theorem loop_target {l : Line} {s : LineState} (h : s.x = l.targetX ∧ s.y = l.targetY)
    (intensity : Byte) (fuel : Nat) (backend : ImageBackend) :
    l.loop intensity (fuel + 1) s backend =
      some ([point s], backend.drawPoint (point s).1 (point s).2 intensity) :=
  if_pos h

/-- A round that goes on. -/
theorem loop_next {l : Line} {s : LineState} (h : ¬(s.x = l.targetX ∧ s.y = l.targetY))
    (intensity : Byte) (fuel : Nat) (backend : ImageBackend) :
    l.loop intensity (fuel + 1) s backend =
      (l.loop intensity fuel (l.next s) (backend.drawPoint (point s).1 (point s).2 intensity)).map
        fun r => (point s :: r.1, r.2) := by
  show (if _ then _ else _) = _
  rw [if_neg h]
  cases l.loop intensity fuel (l.next s) (backend.drawPoint (point s).1 (point s).2 intensity) with
  | none => rfl
  | some r => rfl

/-- From `m` rounds before the target the loop needs one round more than that. -/
theorem loop_spec {m : Nat} {s : LineState} (hpos : 0 < rounds p0 p1) (hm : m ≤ rounds p0 p1)
    (h : Follows p0.1.toNat p0.2.toNat p1.1.toNat p1.2.toNat ((rounds p0 p1 : Int) - m) s)
    (intensity : Byte) (backend : ImageBackend) :
    (∀ fuel ≤ m, (between p0 p1).loop intensity fuel s backend = none) ∧
      ∃ points, Draws p0 p1 m s points ∧ ∀ fuel, m < fuel →
        (between p0 p1).loop intensity fuel s backend =
          some (points, drawPoints intensity points backend) := by
  have hlength := @rounds_eq p0 p1
  induction m generalizing s backend with
  | zero =>
      -- after the last round the state is at the end point
      have hon := h.onLine (by omega) (by omega) (by omega)
      have htarget : s.x = p1.1.toNat ∧ s.y = p1.2.toNat := by
        apply hon.atTarget.mpr
        omega
      have hpoint : point s = p1 := by
        obtain ⟨hx, hy⟩ := hon.point_toNat
        apply Prod.ext
        · apply BitVec.eq_of_toNat_eq
          omega
        · apply BitVec.eq_of_toNat_eq
          omega
      refine ⟨?_, [point s], ?_, ?_⟩
      · intro fuel hfuel
        rw [Nat.le_zero.mp hfuel]
        rfl
      · exact ⟨rfl, rfl, congrArg some hpoint, .singleton _, fun p hp => by
          rw [List.mem_singleton.mp hp]
          exact hon.inBox⟩
      · intro fuel hfuel
        obtain ⟨rest, rfl⟩ := Nat.exists_eq_succ_of_ne_zero (by omega : fuel ≠ 0)
        exact loop_target htarget intensity rest backend
  | succ m ih =>
      -- before it the state is elsewhere on the line, and a round leads to the next point
      have hon := h.onLine (by omega) (by omega) (by omega)
      have haway : ¬(s.x = p1.1.toNat ∧ s.y = p1.2.toNat) := by
        intro htarget
        have hend := hon.atTarget.mp htarget
        omega
      have hcast : (rounds p0 p1 : Int) - ((m + 1 : Nat) : Int) + 1 = (rounds p0 p1 : Int) - m := by
        omega
      have hfollows : Follows p0.1.toNat p0.2.toNat p1.1.toNat p1.2.toNat
          ((rounds p0 p1 : Int) - m) ((between p0 p1).next s) := hcast ▸ follows_next h
      have hon' := hfollows.onLine (by omega) (by omega) (by omega)
      have hadjacent := adjacent_next hon (hcast.symm ▸ hon')
      -- the rest of the line is drawn over the point
      obtain ⟨hnone, points, hdraws, hsome⟩ := ih (by omega) hfollows
        (backend.drawPoint (point s).1 (point s).2 intensity)
      refine ⟨?_, point s :: points, ?_, ?_⟩
      · intro fuel hfuel
        cases fuel with
        | zero => rfl
        | succ fuel =>
            rw [loop_next (l := between p0 p1) haway, hnone fuel (by omega)]
            rfl
      · obtain ⟨hlen, hfirst, hlast, hchain, hbox⟩ := hdraws
        cases points with
        | nil => cases hfirst
        | cons q points =>
            cases hfirst
            refine ⟨congrArg (· + 1) hlen, rfl, ?_, .cons_cons hadjacent hchain, ?_⟩
            · rw [List.getLast?_cons_cons]
              exact hlast
            · intro p hp
              rcases List.mem_cons.mp hp with rfl | hp
              · exact hon.inBox
              · exact hbox p hp
      · intro fuel hfuel
        obtain ⟨rest, rfl⟩ := Nat.exists_eq_succ_of_ne_zero (by omega : fuel ≠ 0)
        show (between p0 p1).loop intensity (rest + 1) s backend = _
        rw [loop_next (l := between p0 p1) haway, hsome rest (by omega)]
        rfl

variable (p0 p1) in
/-- The state before the first round. -/
def start : LineState := ⟨p0.1.toNat, p0.2.toNat, (between p0 p1).dx + (between p0 p1).dy⟩

/-- A line of one point is drawn in one round. -/
theorem loop_single (hzero : rounds p0 p1 = 0) (intensity : Byte) (backend : ImageBackend) :
    (∀ fuel ≤ 0, (between p0 p1).loop intensity fuel (start p0 p1) backend = none) ∧
      ∃ points, Draws p0 p1 0 (start p0 p1) points ∧ ∀ fuel, 0 < fuel →
        (between p0 p1).loop intensity fuel (start p0 p1) backend =
          some (points, drawPoints intensity points backend) := by
  have hlength := @rounds_eq p0 p1
  unfold length at hlength
  rw [hzero] at hlength
  have hx : (p1.1.toNat : Int) - p0.1.toNat = 0 := by
    apply abs_nonpos_iff.mp
    have hle := le_max_left |(p1.1.toNat : Int) - p0.1.toNat| |(p1.2.toNat : Int) - p0.2.toNat|
    omega
  have hy : (p1.2.toNat : Int) - p0.2.toNat = 0 := by
    apply abs_nonpos_iff.mp
    have hle := le_max_right |(p1.1.toNat : Int) - p0.1.toNat| |(p1.2.toNat : Int) - p0.2.toNat|
    omega
  have hsame : p1 = p0 := by
    apply Prod.ext
    · apply BitVec.eq_of_toNat_eq
      omega
    · apply BitVec.eq_of_toNat_eq
      omega
  subst hsame
  have hpoint : point (start p1 p1) = p1 := point_cast p1 _
  refine ⟨?_, [point (start p1 p1)], ?_, ?_⟩
  · intro fuel hfuel
    rw [Nat.le_zero.mp hfuel]
    rfl
  · exact ⟨rfl, rfl, congrArg some hpoint, .singleton _, fun p hp => by
      rw [List.mem_singleton.mp hp, hpoint]
      unfold InBox
      omega⟩
  · intro fuel hfuel
    obtain ⟨rest, rfl⟩ := Nat.exists_eq_succ_of_ne_zero (by omega : fuel ≠ 0)
    exact loop_target ⟨rfl, rfl⟩ intensity rest backend

/-- The whole loop: one round for each point. -/
theorem loop_start (intensity : Byte) (backend : ImageBackend) :
    (∀ fuel ≤ rounds p0 p1, (between p0 p1).loop intensity fuel (start p0 p1) backend = none) ∧
      ∃ points, Draws p0 p1 (rounds p0 p1) (start p0 p1) points ∧ ∀ fuel, rounds p0 p1 < fuel →
        (between p0 p1).loop intensity fuel (start p0 p1) backend =
          some (points, drawPoints intensity points backend) := by
  by_cases hpos : 0 < rounds p0 p1
  · have hlength := @rounds_eq p0 p1
    -- all the rounds before the target are still to come
    have hfollows : Follows p0.1.toNat p0.2.toNat p1.1.toNat p1.2.toNat
        ((rounds p0 p1 : Int) - (rounds p0 p1 : Nat)) (start p0 p1) := by
      rw [Int.sub_self]
      apply follows_start
      rw [← hlength]
      omega
    exact loop_spec hpos (Nat.le_refl _) hfollows intensity backend
  · have hzero : rounds p0 p1 = 0 := by omega
    rw [hzero]
    exact loop_single hzero intensity backend

end Run

end Line

/-! ## The pixels -/

/-- The pixel of a point. -/
def pixel (p : Byte × Byte) : Fin (kWidth * kHeight) :=
  ⟨p.2.toNat * kWidth + p.1.toNat, by
    have hx := p.1.isLt
    have hy := p.2.isLt
    unfold kWidth kHeight
    omega⟩

theorem drawPoint_eq (backend : ImageBackend) (x y intensity : Byte) :
    backend.drawPoint x y intensity =
      ⟨Function.update backend.framebuffer (pixel (x, y)) intensity⟩ := by
  have hx := x.isLt
  have hy := y.isLt
  unfold drawPoint
  rw [dif_neg (by unfold kWidth kHeight; omega)]
  rfl

/-- Drawing points sets their pixels and no others. -/
theorem framebuffer_drawPoints (intensity : Byte) (points : List (Byte × Byte))
    (backend : ImageBackend) (i : Fin (kWidth * kHeight)) :
    (Line.drawPoints intensity points backend).framebuffer i =
      if ∃ p ∈ points, pixel p = i then intensity else backend.framebuffer i := by
  induction points generalizing backend with
  | nil =>
      rw [if_neg (by simp)]
      rfl
  | cons p points ih =>
      show (Line.drawPoints intensity points (backend.drawPoint p.1 p.2 intensity)).framebuffer i =
        _
      rw [ih, drawPoint_eq]
      by_cases hlater : ∃ q ∈ points, pixel q = i
      · rw [if_pos hlater, if_pos (hlater.imp fun q hq => ⟨List.mem_cons_of_mem _ hq.1, hq.2⟩)]
      · rw [if_neg hlater]
        by_cases hp : pixel p = i
        · rw [if_pos ⟨p, List.mem_cons_self, hp⟩, ← hp]
          exact Function.update_self ..
        · have hnone : ¬∃ q ∈ p :: points, pixel q = i := by
            intro h
            obtain ⟨q, hq, hqi⟩ := h
            rcases List.mem_cons.mp hq with rfl | hq
            · exact hp hqi
            · exact hlater ⟨q, hq, hqi⟩
          rw [if_neg hnone]
          exact Function.update_of_ne (Ne.symm hp) ..

/-- `draw_line` needs one round for each point; its points run from one endpoint to the other in
steps to a neighbour, inside the bounding box, and only their pixels change. -/
theorem drawLine_spec (backend : ImageBackend) (x0 y0 x1 y1 intensity : Byte) :
    ∃ points after,
      (∀ fuel, points.length ≤ fuel →
        backend.drawLine fuel x0 y0 x1 y1 intensity = some (points, after)) ∧
      (∀ fuel < points.length, backend.drawLine fuel x0 y0 x1 y1 intensity = none) ∧
      (points.length : Int) =
        max |(x1.toNat : Int) - x0.toNat| |(y1.toNat : Int) - y0.toNat| + 1 ∧
      points.head? = some (x0, y0) ∧ points.getLast? = some (x1, y1) ∧
      points.IsChain Line.Adjacent ∧
      (∀ p ∈ points, Line.InBox (x0, y0) (x1, y1) p) ∧
      (∀ p ∈ points, after.framebuffer (pixel p) = intensity) ∧
      ∀ i, (∀ p ∈ points, pixel p ≠ i) → after.framebuffer i = backend.framebuffer i := by
  have hdraw : ∀ fuel, backend.drawLine fuel x0 y0 x1 y1 intensity =
      (Line.between (x0, y0) (x1, y1)).loop intensity fuel (Line.start (x0, y0) (x1, y1)) backend :=
    fun _ => rfl
  obtain ⟨hnone, points, hdraws, hsome⟩ :=
    @Line.loop_start (x0, y0) (x1, y1) intensity backend
  have hlength := @Line.rounds_eq (x0, y0) (x1, y1)
  have hpoints := hdraws.length
  refine ⟨points, Line.drawPoints intensity points backend, ?_, ?_, ?_, ?_, hdraws.last,
    hdraws.adjacent, hdraws.inBox, ?_, ?_⟩
  · intro fuel hfuel
    rw [hdraw, hsome fuel (by omega)]
  · intro fuel hfuel
    rw [hdraw, hnone fuel (by omega)]
  · rw [hpoints]
    push_cast
    rw [hlength]
    rfl
  · rw [hdraws.first]
    exact congrArg some (Line.point_cast (x0, y0) _)
  · intro p hp
    rw [framebuffer_drawPoints, if_pos ⟨p, hp, rfl⟩]
  · intro i hi
    rw [framebuffer_drawPoints, if_neg]
    intro h
    obtain ⟨p, hp, hpi⟩ := h
    exact hi p hp hpi

end ImageBackend

end Irata2.Sim
