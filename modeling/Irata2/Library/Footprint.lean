import Mathlib.Data.List.Basic
import Mathlib.Data.List.Perm.Basic

/-!
# Footprints

A state is seen through its cells.  The footprint of a function says which cells it changes, and
on which cells the values it leaves there depend.  Functions with independent footprints commute,
and a function that reads no cell it changes is idempotent.
-/

namespace Irata2.Library

universe u v w

variable {S : Type u} {κ : Type v} {V : κ → Type w} (get : ∀ k, S → V k)

/-- Outside of the cells `W` nothing changes, and the values left in `W` depend on the cells `R`. -/
structure Footprint (R W : List κ) (f : S → S) : Prop where
  frame : ∀ s k, k ∉ W → get k (f s) = get k s
  local_reads : ∀ s t, (∀ k ∈ R, get k s = get k t) → ∀ k ∈ W, get k (f s) = get k (f t)

/-- Neither of two footprints changes what the other one reads or changes. -/
def Independent (R W R' W' : List κ) : Prop :=
  (∀ k ∈ W, k ∉ W') ∧ (∀ k ∈ W, k ∉ R') ∧ ∀ k ∈ W', k ∉ R

instance [DecidableEq κ] (R W R' W' : List κ) : Decidable (Independent R W R' W') :=
  inferInstanceAs (Decidable (_ ∧ _ ∧ _))

theorem Independent.symm {R W R' W' : List κ} (h : Independent R W R' W') :
    Independent R' W' R W :=
  ⟨fun k hk' hk => h.1 k hk hk', h.2.2, h.2.1⟩

/-- The cells determine the state. -/
def Separates : Prop := ∀ s t : S, (∀ k, get k s = get k t) → s = t

variable {get} {R W R' W' : List κ} {f g : S → S}

namespace Footprint

/-- A function that changes nothing has the empty footprint, and only such a function has it. -/
theorem nil_iff (hget : Separates get) : Footprint get [] [] f ↔ ∀ s, f s = s := by
  constructor
  · exact fun h s => hget _ _ fun k => h.frame s k List.not_mem_nil
  · intro h
    exact ⟨fun s k _ => by rw [h], fun s t _ k hk => (by cases hk)⟩

/-- More cells may be read. -/
theorem mono (h : Footprint get R W f) (hR : ∀ k ∈ R, k ∈ R') : Footprint get R' W f :=
  ⟨h.frame, fun s t heq k hk => h.local_reads s t (fun j hj => heq j (hR j hj)) k hk⟩

/-- Functions with independent footprints commute. -/
theorem commute (hget : Separates get) (hf : Footprint get R W f) (hg : Footprint get R' W' g)
    (h : Independent R W R' W') (s : S) : f (g s) = g (f s) := by
  rcases h with ⟨hww, hwr, hrw⟩
  apply hget
  intro k
  by_cases hk : k ∈ W
  · -- what `f` leaves in the cell does not depend on what `g` has changed
    have hread : get k (f (g s)) = get k (f s) :=
      hf.local_reads _ _ (fun j hj => hg.frame s j fun hj' => hrw j hj' hj) k hk
    rw [hread, hg.frame (f s) k (hww k hk)]
  · rw [hf.frame (g s) k hk]
    by_cases hk' : k ∈ W'
    · exact hg.local_reads _ _ (fun j hj => (hf.frame s j fun hj' => hwr j hj' hj).symm) k hk'
    · rw [hg.frame s k hk', hg.frame (f s) k hk', hf.frame s k hk]

/-- After `f`, the function `g` reads from the state before only the cells that `f` has not
changed. -/
theorem comp [DecidableEq κ] (hf : Footprint get R W f) (hg : Footprint get R' W' g) :
    Footprint get (R ++ R'.filter (· ∉ W)) (W ++ W') fun s => g (f s) where
  frame := by
    intro s k hk
    rw [List.mem_append, not_or] at hk
    rw [hg.frame _ k hk.2, hf.frame s k hk.1]
  local_reads := by
    intro s t h k hk
    -- the two states agree on what `g` reads, because `f` has written the same there
    have hf' : ∀ j ∈ W, get j (f s) = get j (f t) := fun j hj =>
      hf.local_reads s t (fun i hi => h i (List.mem_append_left _ hi)) j hj
    have hg' : ∀ j ∈ R', get j (f s) = get j (f t) := by
      intro j hj
      by_cases hjW : j ∈ W
      · exact hf' j hjW
      · rw [hf.frame s j hjW, hf.frame t j hjW]
        exact h j (List.mem_append_right _ (List.mem_filter.mpr ⟨hj, decide_eq_true hjW⟩))
    by_cases hkW : k ∈ W'
    · exact hg.local_reads _ _ hg' k hkW
    · rw [hg.frame _ k hkW, hg.frame _ k hkW]
      exact hf' k ((List.mem_append.mp hk).resolve_right hkW)

end Footprint

/-! ## Folds -/

section Folds

variable {ι : Type*} {act : S → ι → S} {reads writes : ι → List κ}

/-- Steps with pairwise independent footprints can be taken in any order; those that change nothing
do not count. -/
theorem foldl_perm (hget : Separates get)
    (hact : ∀ i, Footprint get (reads i) (writes i) fun s => act s i) {l l' : List ι}
    (hperm : l.Perm l')
    (h : ∀ i ∈ l, ∀ j ∈ l, i ≠ j → writes i ≠ [] → writes j ≠ [] →
      Independent (reads i) (writes i) (reads j) (writes j)) (s : S) :
    l.foldl act s = l'.foldl act s := by
  have hidle : ∀ i, writes i = [] → ∀ s, act s i = s := by
    intro i hi s
    refine hget _ _ fun k => (hact i).frame s k ?_
    rw [hi]
    exact List.not_mem_nil
  refine hperm.foldl_eq' (fun i hi j hj s => ?_) s
  by_cases hij : i = j
  · rw [hij]
  · by_cases hwi : writes i = []
    · rw [hidle i hwi, hidle i hwi]
    · by_cases hwj : writes j = []
      · rw [hidle j hwj, hidle j hwj]
      · exact (hact j).commute hget (hact i) (h j hj i hi (Ne.symm hij) hwj hwi) s

/-- The footprint of a fold. -/
def foldReads [DecidableEq κ] (reads writes : ι → List κ) : List ι → List κ
  | [] => []
  | i :: l => reads i ++ (foldReads reads writes l).filter (· ∉ writes i)

theorem footprint_foldl [DecidableEq κ]
    (hact : ∀ i, Footprint get (reads i) (writes i) fun s => act s i) (l : List ι) :
    Footprint get (foldReads reads writes l) (l.flatMap writes) fun s => l.foldl act s := by
  induction l with
  | nil => exact ⟨fun _ _ _ => rfl, fun _ _ _ _ hk => (by cases hk)⟩
  | cons i l ih => exact (hact i).comp ih

end Folds

end Irata2.Library
