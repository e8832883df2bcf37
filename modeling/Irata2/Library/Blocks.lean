import Mathlib.Logic.Basic

/-!
# Runs in blocks

A machine works in small ticks and can fail or halt.  Its ticks come in blocks, and an abstract
machine takes a whole block at once and knows how many ticks it costs.  Where every block does what
the abstract machine says, and the machine never halts where the abstract one has no next block, the
two halt together: after the same number of ticks, with the same verdict.
-/

namespace Irata2.Library.Blocks

universe u v w

variable {σ : Type u} {τ : Type v} {ρ : Type w}

/-- The state after a number of ticks, if none of them fails. -/
def iter (tick : σ → Option σ) : Nat → σ → Option σ
  | 0, s => some s
  | n + 1, s => (tick s).bind (iter tick n)

/-- The machine halts for the first time after `n` ticks. -/
structure HaltsAfter (tick : σ → Option σ) (halted : σ → Bool) (n : Nat) (s t : σ) : Prop where
  reaches : iter tick n s = some t
  stopped : halted t = true
  running : ∀ m < n, ∀ u, iter tick m s = some u → halted u = false

/-- One block of the abstract machine: its number of ticks, the verdict if it is the last one, and
the state behind it. -/
structure Block (τ : Type v) (ρ : Type w) where
  ticks : Nat
  verdict : Option ρ
  state : τ

/-- The abstract machine takes at most `fuel` blocks.  The result is the number of ticks, the
verdict and the last state. -/
def interpret (next : τ → Option (Block τ ρ)) : Nat → τ → Option (Nat × ρ × τ)
  | 0, _ => none
  | fuel + 1, x =>
      (next x).bind fun b =>
        -- without a verdict the run goes on behind the block
        b.verdict.elim ((interpret next fuel b.state).map fun y => (b.ticks + y.1, y.2))
          fun r => some (b.ticks, r, b.state)

/-- The ticks between two boundaries are what the abstract machine says of a block. -/
structure Refines (tick : σ → Option σ) (halted : σ → Bool) (verdict : σ → ρ) (boundary : σ → Prop)
    (abs : σ → τ) (next : τ → Option (Block τ ρ)) : Prop where
  pos : ∀ {x b}, next x = some b → 0 < b.ticks
  block : ∀ {s b}, boundary s → next (abs s) = some b →
    ∃ t, iter tick b.ticks s = some t ∧ abs t = b.state ∧
      (b.verdict = none → boundary t) ∧ ∀ r, b.verdict = some r → halted t = true ∧ verdict t = r
  running : ∀ {s b}, boundary s → next (abs s) = some b → ∀ m < b.ticks, ∀ u,
    iter tick m s = some u → halted u = false
  stuck : ∀ {s}, boundary s → next (abs s) = none → ∀ n u, iter tick n s = some u → halted u = false

section Iter

variable {tick : σ → Option σ} {halted : σ → Bool} {s t : σ} {m n : Nat}

theorem iter_add (h : iter tick m s = some t) (n : Nat) : iter tick (m + n) s = iter tick n t := by
  induction m generalizing s with
  | zero =>
      cases h
      rw [Nat.zero_add]
  | succ m ih =>
      rw [Nat.add_right_comm]
      show (tick s).bind (iter tick (m + n)) = _
      change (tick s).bind (iter tick m) = some t at h
      cases hs : tick s with
      | none =>
          rw [hs] at h
          cases h
      | some u =>
          rw [hs] at h
          exact ih h

/-- The ticks behind a state that has not halted are those of the rest of the run. -/
theorem HaltsAfter.of_add (h : HaltsAfter tick halted (m + n) s t) {u : σ}
    (hu : iter tick m s = some u) : HaltsAfter tick halted n u t where
  reaches := by
    rw [← iter_add hu]
    exact h.reaches
  stopped := h.stopped
  running := by
    intro k hk v hv
    rw [← iter_add hu] at hv
    exact h.running (m + k) (by omega) v hv

theorem HaltsAfter.add {u : σ} (hu : iter tick m s = some u)
    (hrunning : ∀ k < m, ∀ v, iter tick k s = some v → halted v = false)
    (h : HaltsAfter tick halted n u t) : HaltsAfter tick halted (m + n) s t where
  reaches := (iter_add hu n).trans h.reaches
  stopped := h.stopped
  running := by
    intro k hk v hv
    by_cases hkm : k < m
    · exact hrunning k hkm v hv
    · -- the tick is one of the rest
      obtain ⟨j, rfl⟩ := Nat.exists_eq_add_of_le (Nat.le_of_not_lt hkm)
      rw [iter_add hu] at hv
      exact h.running j (by omega) v hv

/-- A machine halts for the first time at one number of ticks only. -/
theorem HaltsAfter.unique {t' : σ} (h : HaltsAfter tick halted m s t)
    (h' : HaltsAfter tick halted n s t') : m = n ∧ t = t' := by
  have hmn : m = n := by
    rcases Nat.lt_trichotomy m n with hlt | heq | hgt
    · have hno := h'.running m hlt t h.reaches
      rw [h.stopped] at hno
      cases hno
    · exact heq
    · have hno := h.running n hgt t' h'.reaches
      rw [h'.stopped] at hno
      cases hno
  subst hmn
  exact ⟨rfl, Option.some.inj (h.reaches.symm.trans h'.reaches)⟩

/-- A machine halts within a number of ticks, or it is running all the while. -/
theorem exists_haltsAfter (tick : σ → Option σ) (halted : σ → Bool) (s : σ) (n : Nat) :
    (∃ m ≤ n, ∃ t, HaltsAfter tick halted m s t) ∨
      ∀ m ≤ n, ∀ t, iter tick m s = some t → halted t = false := by
  induction n with
  | zero =>
      cases hs : halted s with
      | true => exact .inl ⟨0, Nat.le_refl 0, s, rfl, hs, fun m hm => absurd hm m.not_lt_zero⟩
      | false =>
          right
          intro m hm t ht
          cases Nat.le_zero.mp hm
          cases ht
          exact hs
  | succ n ih =>
      obtain ⟨m, hm, t, ht⟩ | hrunning := ih
      · exact .inl ⟨m, Nat.le_succ_of_le hm, t, ht⟩
      · by_cases hlast : ∃ t, iter tick (n + 1) s = some t ∧ halted t = true
        · obtain ⟨t, ht, hhalted⟩ := hlast
          exact .inl ⟨n + 1, Nat.le_refl _, t, ht, hhalted,
            fun m hm => hrunning m (Nat.le_of_lt_succ hm)⟩
        · right
          intro m hm t ht
          obtain heq | hlt := Nat.eq_or_lt_of_le hm
          · subst heq
            rw [← Bool.not_eq_true]
            exact fun hhalted => hlast ⟨t, ht, hhalted⟩
          · exact hrunning m (Nat.le_of_lt_succ hlt) t ht

end Iter

section Run

variable {tick : σ → Option σ} {halted : σ → Bool} {verdict : σ → ρ} {boundary : σ → Prop}
  {abs : σ → τ} {next : τ → Option (Block τ ρ)} {s : σ} {n : Nat} {r : ρ} {x : τ}

/-- What the abstract machine says of a run holds of the ticks. -/
theorem Refines.haltsAfter (h : Refines tick halted verdict boundary abs next) (hs : boundary s)
    {fuel : Nat} (hrun : interpret next fuel (abs s) = some (n, r, x)) :
    ∃ t, HaltsAfter tick halted n s t ∧ verdict t = r ∧ abs t = x := by
  induction fuel generalizing s n with
  | zero => cases hrun
  | succ fuel ih =>
      unfold interpret at hrun
      obtain ⟨b, hb, hrun⟩ := Option.bind_eq_some_iff.mp hrun
      obtain ⟨t, ht, habs, hgo, hstop⟩ := h.block hs hb
      have hrunning := h.running hs hb
      cases hv : b.verdict with
      | some v =>
          obtain ⟨hhalted, hverdict⟩ := hstop v hv
          rw [hv] at hrun
          cases hrun
          exact ⟨t, ⟨ht, hhalted, hrunning⟩, hverdict, habs⟩
      | none =>
          rw [hv] at hrun
          obtain ⟨⟨k, y⟩, hk, heq⟩ := Option.map_eq_some_iff.mp hrun
          cases heq
          rw [← habs] at hk
          obtain ⟨t', hhalts, hverdict, hx⟩ := ih (hgo hv) hk
          exact ⟨t', HaltsAfter.add ht hrunning hhalts, hverdict, hx⟩

/-- A halt of the machine ends a run of the abstract one. -/
theorem Refines.interpret_of_haltsAfter (h : Refines tick halted verdict boundary abs next)
    (hs : boundary s) {t : σ} (hhalts : HaltsAfter tick halted n s t) :
    ∃ fuel, interpret next fuel (abs s) = some (n, verdict t, abs t) := by
  induction n using Nat.strongRecOn generalizing s with
  | ind n ih =>
      cases hb : next (abs s) with
      | none =>
          have hno := h.stuck hs hb n t hhalts.reaches
          rw [hhalts.stopped] at hno
          cases hno
      | some b =>
          obtain ⟨u, hu, habs, hgo, hstop⟩ := h.block hs hb
          -- inside a block the machine does not halt
          have hle : b.ticks ≤ n := by
            apply Nat.le_of_not_lt
            intro hlt
            have hno := h.running hs hb n hlt t hhalts.reaches
            rw [hhalts.stopped] at hno
            cases hno
          obtain ⟨k, rfl⟩ := Nat.exists_eq_add_of_le hle
          have hpos := h.pos hb
          cases hv : b.verdict with
          | some v =>
              obtain ⟨hhalted, hverdict⟩ := hstop v hv
              have hfirst : HaltsAfter tick halted b.ticks s u := ⟨hu, hhalted, h.running hs hb⟩
              obtain ⟨hticks, rfl⟩ := hfirst.unique hhalts
              refine ⟨1, ?_⟩
              unfold interpret
              rw [hb, ← hticks, hverdict, habs]
              show b.verdict.elim _ _ = _
              rw [hv]
              rfl
          | none =>
              obtain ⟨fuel, hfuel⟩ := ih k (by omega) (hgo hv) (hhalts.of_add hu)
              refine ⟨fuel + 1, ?_⟩
              unfold interpret
              rw [hb]
              show b.verdict.elim _ _ = _
              rw [hv, ← habs, hfuel]
              rfl

/-- The machine and the abstract machine halt together. -/
theorem Refines.haltsAfter_iff (h : Refines tick halted verdict boundary abs next)
    (hs : boundary s) :
    (∃ t, HaltsAfter tick halted n s t ∧ verdict t = r ∧ abs t = x) ↔
      ∃ fuel, interpret next fuel (abs s) = some (n, r, x) := by
  constructor
  · rintro ⟨t, hhalts, rfl, rfl⟩
    exact h.interpret_of_haltsAfter hs hhalts
  · rintro ⟨fuel, hrun⟩
    exact h.haltsAfter hs hrun

end Run

end Irata2.Library.Blocks
