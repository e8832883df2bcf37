import Mathlib.Data.List.Basic
import Mathlib.Logic.Basic

/-!
# Checks that stop at the first error

Sequencing and looping in `Except`, characterised by when the result is a success.
-/

namespace Irata2.Library

universe u v

variable {ε : Type u} {α β σ : Type v}

theorem bind_eq_ok {x : Except ε α} {f : α → Except ε β} {b : β} :
    (x >>= f) = .ok b ↔ ∃ a, x = .ok a ∧ f a = .ok b := by
  cases x with
  | error e =>
      constructor
      · intro h
        cases h
      · rintro ⟨a, ha, -⟩
        cases ha
  | ok a =>
      constructor
      · intro h
        exact ⟨a, rfl, h⟩
      · rintro ⟨a', ha, h⟩
        cases ha
        exact h

theorem seq_eq_ok {x : Except ε PUnit} {y : Except ε β} {b : β} :
    (x >>= fun _ => y) = .ok b ↔ x = .ok ⟨⟩ ∧ y = .ok b := by
  rw [bind_eq_ok]
  constructor
  · rintro ⟨⟨⟩, hx, hy⟩
    exact ⟨hx, hy⟩
  · rintro ⟨hx, hy⟩
    exact ⟨⟨⟩, hx, hy⟩

theorem bind_eq_error {x : Except ε α} {f : α → Except ε β} {e : ε}
    (h : (x >>= f) = .error e) : x = .error e ∨ ∃ a, x = .ok a ∧ f a = .error e := by
  cases x with
  | error e' =>
      cases h
      exact .inl rfl
  | ok a => exact .inr ⟨a, rfl, h⟩

theorem toOption_bind (x : Except ε α) (f : α → Except ε β) :
    (x >>= f).toOption = x.toOption.bind fun a => (f a).toOption := by
  cases x with
  | error e => rfl
  | ok a => rfl

theorem toOption_eq_some {x : Except ε α} {a : α} : x.toOption = some a ↔ x = .ok a := by
  cases x with
  | error e =>
      constructor
      · intro h
        cases h
      · intro h
        cases h
  | ok b =>
      constructor
      · intro h
        cases h
        rfl
      · intro h
        cases h
        rfl

theorem mapM_eq_error {l : List α} {f : α → Except ε β} {e : ε} (h : l.mapM f = .error e) :
    ∃ x ∈ l, f x = .error e := by
  induction l with
  | nil => cases h
  | cons x l ih =>
      rw [List.mapM_cons] at h
      rcases bind_eq_error h with hx | ⟨b, -, h⟩
      · exact ⟨x, List.mem_cons_self, hx⟩
      · rcases bind_eq_error h with hl | ⟨bs, -, h⟩
        · rcases ih hl with ⟨y, hy, he⟩
          exact ⟨y, List.mem_cons_of_mem _ hy, he⟩
        · cases h

theorem mapM_eq_ok_of {l : List α} {f : α → Except ε β} {g : α → β}
    (h : ∀ x ∈ l, f x = .ok (g x)) : l.mapM f = .ok (l.map g) := by
  induction l with
  | nil => rfl
  | cons x l ih =>
      rw [List.mapM_cons, h x List.mem_cons_self, ih fun y hy => h y (List.mem_cons_of_mem _ hy)]
      rfl

theorem exists_of_mapM_eq_ok {l : List α} {f : α → Except ε β} {bs : List β}
    (h : l.mapM f = .ok bs) {x : α} (hx : x ∈ l) : ∃ b, f x = .ok b := by
  induction l generalizing bs with
  | nil => cases hx
  | cons y l ih =>
      rw [List.mapM_cons, bind_eq_ok] at h
      rcases h with ⟨b, hb, h⟩
      rcases bind_eq_ok.mp h with ⟨rest, hrest, -⟩
      rcases List.mem_cons.mp hx with rfl | hx
      · exact ⟨b, hb⟩
      · exact ih hrest hx

theorem forall₂_of_mapM_eq_ok {l : List α} {f : α → Except ε β} {bs : List β}
    (h : l.mapM f = .ok bs) : List.Forall₂ (fun x b => f x = .ok b) l bs := by
  induction l generalizing bs with
  | nil =>
      cases h
      exact List.Forall₂.nil
  | cons x l ih =>
      rw [List.mapM_cons, bind_eq_ok] at h
      rcases h with ⟨b, hb, h⟩
      rcases bind_eq_ok.mp h with ⟨rest, hrest, h⟩
      cases h
      exact List.Forall₂.cons hb (ih hrest)

theorem exists_forall₂_iff {l : List α} {R : α → β → Prop} :
    (∃ bs, List.Forall₂ R l bs) ↔ ∀ x ∈ l, ∃ b, R x b := by
  induction l with
  | nil => exact ⟨fun _ x hx => (by cases hx), fun _ => ⟨[], List.Forall₂.nil⟩⟩
  | cons x l ih =>
      rw [List.forall_mem_cons, ← ih]
      constructor
      · rintro ⟨bs, hbs⟩
        cases hbs with
        | cons hx hl => exact ⟨⟨_, hx⟩, ⟨_, hl⟩⟩
      · rintro ⟨⟨b, hx⟩, ⟨bs, hl⟩⟩
        exact ⟨b :: bs, List.Forall₂.cons hx hl⟩

/-- Of two lists in step, a second relation holds where a condition on the first list does. -/
theorem forall₂_iff_of_forall₂ {l : List α} {bs : List β} {R Q : α → β → Prop} {S : α → Prop}
    (h : List.Forall₂ R l bs) (hQ : ∀ x b, R x b → (Q x b ↔ S x)) :
    List.Forall₂ Q l bs ↔ ∀ x ∈ l, S x := by
  induction h with
  | nil => exact ⟨fun _ x hx => (by cases hx), fun _ => List.Forall₂.nil⟩
  | cons hx _ ih => rw [List.forall₂_cons, List.forall_mem_cons, ih, hQ _ _ hx]

theorem mapM_eq_ok_iff_forall₂ {l : List α} {f : α → Except ε β} {bs : List β} :
    l.mapM f = .ok bs ↔ List.Forall₂ (fun x b => f x = .ok b) l bs := by
  constructor
  · exact forall₂_of_mapM_eq_ok
  · intro h
    induction h with
    | nil => rfl
    | cons hx _ ih =>
        rw [List.mapM_cons, hx, ih]
        rfl

/-- A single check: `e` is thrown when `p` holds. -/
def throwIf (p : Prop) [Decidable p] (e : ε) : Except ε Unit := if p then .error e else .ok ()

theorem throwIf_eq_ok {p : Prop} [Decidable p] {e : ε} : throwIf p e = .ok () ↔ ¬p := by
  unfold throwIf
  by_cases hp : p
  · rw [if_pos hp]
    exact ⟨(fun h => by cases h), fun h => absurd hp h⟩
  · rw [if_neg hp]
    exact ⟨fun _ => hp, fun _ => rfl⟩

theorem toOption_throwIf {p : Prop} [Decidable p] {e : ε} :
    (throwIf p e).toOption = if p then none else some () := by
  unfold throwIf
  split
  · rfl
  · rfl

theorem forM_eq_ok {l : List α} {f : α → Except ε Unit} :
    l.forM f = .ok () ↔ ∀ x ∈ l, f x = .ok () := by
  induction l with
  | nil => exact ⟨fun _ x hx => (by cases hx), fun _ => rfl⟩
  | cons x l ih =>
      show (f x >>= fun _ => l.forM f) = _ ↔ _
      rw [bind_eq_ok, List.forall_mem_cons]
      constructor
      · rintro ⟨u, hx, hl⟩
        exact ⟨hx, ih.mp hl⟩
      · rintro ⟨hx, hl⟩
        exact ⟨(), hx, ih.mpr hl⟩

theorem foldlM_cons_eq_ok {γ : Type*} {f : σ → γ → Except ε σ} {s s' : σ} {x : γ}
    {l : List γ} :
    (x :: l).foldlM f s = .ok s' ↔ ∃ s₁, f s x = .ok s₁ ∧ l.foldlM f s₁ = .ok s' := by
  rw [List.foldlM_cons, bind_eq_ok]

/-- Every step of a loop that succeeds succeeds. -/
theorem exists_of_foldlM_eq_ok {γ : Type*} {f : σ → γ → Except ε σ} {l : List γ} {s s' : σ}
    (h : l.foldlM f s = .ok s') {x : γ} (hx : x ∈ l) : ∃ t t', f t x = .ok t' := by
  induction l generalizing s with
  | nil => cases hx
  | cons y l ih =>
      obtain ⟨s₁, h₁, hl⟩ := foldlM_cons_eq_ok.mp h
      obtain rfl | hx := List.mem_cons.mp hx
      · exact ⟨s, s₁, h₁⟩
      · exact ih hl hx

/-- A property of the state that every step keeps holds after the loop. -/
theorem foldlM_invariant {f : σ → α → Except ε σ} {P : σ → Prop} {l : List α}
    (hstep : ∀ s x s', x ∈ l → P s → f s x = .ok s' → P s') {s s' : σ} (hs : P s)
    (h : l.foldlM f s = .ok s') : P s' := by
  induction l generalizing s with
  | nil =>
      cases h
      exact hs
  | cons x l ih =>
      rcases foldlM_cons_eq_ok.mp h with ⟨s₁, h₁, hl⟩
      exact ih (fun s y s' hy => hstep s y s' (List.mem_cons_of_mem _ hy))
        (hstep s x s₁ List.mem_cons_self hs h₁) hl

end Irata2.Library
