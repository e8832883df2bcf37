import Mathlib.Data.Nat.Bitwise
import Mathlib.Data.List.Enum
import Mathlib.Data.BitVec

/-!
# Enumerating the completions of a partial bit vector

Given the bits that are set for certain and a list of free bit positions, `completions` lists one
bit vector for every choice of the free bits, in the order of a binary counter.
-/

namespace Irata2.Library

variable {w : Nat}

/-- `base` with the `i`-th free bit set for every bit `i` of `mask`. -/
def completion (base : BitVec w) (free : List Nat) (mask : Nat) : BitVec w :=
  free.zipIdx.foldl (fun v p => if mask.testBit p.2 then v ||| (1#w <<< p.1) else v) base

def completions (base : BitVec w) (free : List Nat) : List (BitVec w) :=
  (List.range (2 ^ free.length)).map (completion base free)

theorem getLsbD_one_shiftLeft (i j : Nat) :
    (1#w <<< i).getLsbD j = (decide (j < w) && decide (i = j)) := by
  rw [BitVec.getLsbD_shiftLeft]
  by_cases hij : i = j
  · subst hij
    by_cases hw : i < w
    · simp [hw, show 0 < w by omega]
    · simp [hw]
  · by_cases hlt : j < i
    · simp [hlt, hij]
    · have hne : j - i ≠ 0 := by omega
      simp [hij, hlt, BitVec.getLsbD_one, hne]

private theorem getLsbD_foldl (l : List (Nat × Nat)) (v : BitVec w) (mask j : Nat) :
    (l.foldl (fun v p => if mask.testBit p.2 then v ||| (1#w <<< p.1) else v) v).getLsbD j = true ↔
      v.getLsbD j = true ∨ (j < w ∧ ∃ i, (j, i) ∈ l ∧ mask.testBit i = true) := by
  induction l generalizing v with
  | nil => simp
  | cons p l ih =>
      rw [List.foldl_cons, ih]
      by_cases hp : mask.testBit p.2 = true
      · rw [if_pos hp, BitVec.getLsbD_or, getLsbD_one_shiftLeft, Bool.or_eq_true, Bool.and_eq_true,
          decide_eq_true_eq, decide_eq_true_eq, or_assoc]
        refine or_congr_right ?_
        constructor
        · rintro (⟨hw, rfl⟩ | ⟨hw, i, hi, hm⟩)
          · exact ⟨hw, p.2, List.mem_cons_self, hp⟩
          · exact ⟨hw, i, List.mem_cons_of_mem _ hi, hm⟩
        · rintro ⟨hw, i, hi, hm⟩
          rcases List.mem_cons.mp hi with rfl | hi
          · exact .inl ⟨hw, rfl⟩
          · exact .inr ⟨hw, i, hi, hm⟩
      · rw [if_neg hp]
        refine or_congr_right (and_congr_right fun _ => ?_)
        constructor
        · rintro ⟨i, hi, hm⟩
          exact ⟨i, List.mem_cons_of_mem _ hi, hm⟩
        · rintro ⟨i, hi, hm⟩
          rcases List.mem_cons.mp hi with rfl | hi
          · exact absurd hm hp
          · exact ⟨i, hi, hm⟩

theorem getLsbD_completion (base : BitVec w) (free : List Nat) (mask j : Nat) :
    (completion base free mask).getLsbD j = true ↔
      base.getLsbD j = true ∨ (j < w ∧ ∃ i, free[i]? = some j ∧ mask.testBit i = true) := by
  unfold completion
  rw [getLsbD_foldl]
  simp only [List.mem_zipIdx_iff_getElem?]

theorem completions_length (base : BitVec w) (free : List Nat) :
    (completions base free).length = 2 ^ free.length := by
  unfold completions
  rw [List.length_map, List.length_range]

/-- The completions are the bit vectors between `base` and `base` with every free bit set. -/
theorem mem_completions {base : BitVec w} {free : List Nat} {v : BitVec w} :
    v ∈ completions base free ↔
      (∀ j, base.getLsbD j = true → v.getLsbD j = true) ∧
        (∀ j, v.getLsbD j = true → base.getLsbD j = true ∨ j ∈ free) := by
  unfold completions
  rw [List.mem_map]
  constructor
  · rintro ⟨mask, -, rfl⟩
    constructor
    · intro j hj
      exact (getLsbD_completion base free mask j).mpr (.inl hj)
    · intro j hj
      rcases (getLsbD_completion base free mask j).mp hj with hb | ⟨-, i, hi, -⟩
      · exact .inl hb
      · exact .inr (List.mem_of_getElem? hi)
  · rintro ⟨hbase, hfree⟩
    -- the counter value whose bit `i` is the value of the `i`-th free bit
    let choice : Fin free.length → Bool := fun i => v.getLsbD free[i]
    refine ⟨Nat.ofBits choice, List.mem_range.mpr (Nat.ofBits_lt_two_pow choice), ?_⟩
    apply BitVec.eq_of_getLsbD_eq
    intro j hjw
    rw [Bool.eq_iff_iff, getLsbD_completion]
    constructor
    · rintro (hb | ⟨-, i, hi, hm⟩)
      · exact hbase j hb
      · rcases List.getElem?_eq_some_iff.mp hi with ⟨hlt, rfl⟩
        rw [Nat.testBit_ofBits_lt choice i hlt] at hm
        exact hm
    · intro hv
      rcases hfree j hv with hb | hmem
      · exact .inl hb
      · rcases List.getElem_of_mem hmem with ⟨i, hlt, rfl⟩
        refine .inr ⟨hjw, i, List.getElem?_eq_getElem hlt, ?_⟩
        rw [Nat.testBit_ofBits_lt choice i hlt]
        exact hv

/-- Distinct choices of free bits that the base leaves clear give distinct completions. -/
theorem completions_nodup {base : BitVec w} {free : List Nat} (hfree : free.Nodup)
    (hlt : ∀ j ∈ free, j < w) (hbase : ∀ j ∈ free, base.getLsbD j = false) :
    (completions base free).Nodup := by
  have hbit : ∀ mask i (hi : i < free.length),
      (completion base free mask).getLsbD free[i] = mask.testBit i := by
    intro mask i hi
    rw [Bool.eq_iff_iff, getLsbD_completion]
    have hmem : free[i] ∈ free := List.getElem_mem hi
    constructor
    · rintro (hb | ⟨-, j, hj, hm⟩)
      · rw [hbase _ hmem] at hb
        cases hb
      · rcases List.getElem?_eq_some_iff.mp hj with ⟨hj', heq⟩
        rw [← (List.Nodup.getElem_inj_iff hfree).mp heq]
        exact hm
    · intro hm
      exact .inr ⟨hlt _ hmem, i, List.getElem?_eq_getElem hi, hm⟩
  refine List.Nodup.map_on ?_ List.nodup_range
  intro m hm n hn heq
  apply Nat.eq_of_testBit_eq
  intro i
  by_cases hi : i < free.length
  · rw [← hbit m i hi, ← hbit n i hi, heq]
  · have hle : 2 ^ free.length ≤ 2 ^ i := Nat.pow_le_pow_right (by decide) (by omega)
    rw [Nat.testBit_lt_two_pow (lt_of_lt_of_le (List.mem_range.mp hm) hle),
      Nat.testBit_lt_two_pow (lt_of_lt_of_le (List.mem_range.mp hn) hle)]

end Irata2.Library
