import Irata2.Library.Checks
import Mathlib.Data.List.Nodup
import Mathlib.Data.List.Lookmap
import Mathlib.Logic.Function.Basic

/-!
# Insert-only tables

A table is a list of key-value pairs that grows at its end.  `emplace` adds a new key, accepts a
key that is bound to the same value already, and refuses a key that is bound to another value.
-/

namespace Irata2.Library.Table

universe u v

variable {α : Type u} {β : Type v} [DecidableEq α]

theorem lookup_cons_self (t : List (α × β)) (e : α × β) : (e :: t).lookup e.1 = some e.2 := by
  rw [List.lookup_cons, beq_self_eq_true]

theorem lookup_cons_ne {t : List (α × β)} {e : α × β} {k : α} (h : k ≠ e.1) :
    (e :: t).lookup k = t.lookup k := by
  have hb : (k == e.1) = false := beq_eq_false_iff_ne.mpr h
  rw [List.lookup_cons, hb]

/-- Changing the values of a table changes what is looked up. -/
theorem lookup_map_value {γ : Type*} (f : β → γ) (t : List (α × β)) (k : α) :
    (t.map fun e => (e.1, f e.2)).lookup k = (t.lookup k).map f := by
  induction t with
  | nil => rfl
  | cons e t ih =>
      by_cases hk : k = e.1
      · subst hk
        have hnew := lookup_cons_self (t.map fun e => (e.1, f e.2)) (e.1, f e.2)
        exact hnew.trans (congrArg (Option.map f) (lookup_cons_self t e).symm)
      · have hnew : ((e.1, f e.2) :: t.map fun e => (e.1, f e.2)).lookup k = _ := lookup_cons_ne hk
        rw [List.map_cons, hnew, ih, lookup_cons_ne hk]

theorem lookup_eq_none_iff_notMem {t : List (α × β)} {k : α} :
    t.lookup k = none ↔ k ∉ t.map Prod.fst := by
  induction t with
  | nil => simp
  | cons e t ih =>
      by_cases hk : k = e.1
      · subst hk
        rw [lookup_cons_self]
        simp
      · rw [lookup_cons_ne hk, ih, List.map_cons, List.mem_cons, not_or]
        exact ⟨fun h => ⟨hk, h⟩, fun h => h.2⟩

/-! ## Lookups -/

/-- No key is bound to two values. -/
def Consistent (t : List (α × β)) : Prop := ∀ k v w, (k, v) ∈ t → (k, w) ∈ t → v = w

theorem mem_of_lookup {t : List (α × β)} {k : α} {v : β} (h : t.lookup k = some v) :
    (k, v) ∈ t := by
  rw [List.lookup_eq_some_iff] at h
  rcases h with ⟨l₁, l₂, rfl, -⟩
  exact List.mem_append_right _ List.mem_cons_self

theorem lookup_of_mem {t : List (α × β)} (hc : Consistent t) {k : α} {v : β} (h : (k, v) ∈ t) :
    t.lookup k = some v := by
  cases hl : t.lookup k with
  | some w => rw [hc k w v (mem_of_lookup hl) h]
  | none => exact absurd (List.mem_map_of_mem h) (lookup_eq_none_iff_notMem.mp hl)

/-- Writing the entries of a table with distinct keys into a memory, one after the other, leaves
the table's value at every key and the old content elsewhere. -/
theorem foldl_update_eq (t : List (α × β)) (f : α → β) (ht : (t.map Prod.fst).Nodup) (k : α) :
    t.foldl (fun g e => Function.update g e.1 e.2) f k = (t.lookup k).getD (f k) := by
  induction t generalizing f with
  | nil => rfl
  | cons e t ih =>
      rw [List.map_cons, List.nodup_cons] at ht
      rw [List.foldl_cons, ih _ ht.2]
      by_cases hk : k = e.1
      · subst hk
        rw [lookup_eq_none_iff_notMem.mpr ht.1, Function.update_self, lookup_cons_self]
        rfl
      · rw [Function.update_of_ne hk, lookup_cons_ne hk]

/-! ## Insertion -/

variable [DecidableEq β]

def emplace (t : List (α × β)) (k : α) (v : β) : Option (List (α × β)) :=
  match t.lookup k with
  | none => some (t ++ [(k, v)])
  | some w => if w = v then some t else none

def emplaceAll (t : List (α × β)) : List (α × β) → Option (List (α × β))
  | [] => some t
  | e :: es => (emplace t e.1 e.2).bind fun t' => emplaceAll t' es

theorem emplaceAll_append (t es fs : List (α × β)) :
    emplaceAll t (es ++ fs) = (emplaceAll t es).bind fun t' => emplaceAll t' fs := by
  induction es generalizing t with
  | nil => rfl
  | cons e es ih =>
      show (emplace t e.1 e.2).bind (fun t' => emplaceAll t' (es ++ fs)) = _
      simp only [ih]
      exact (Option.bind_assoc _ _ _).symm

theorem emplaceAll_singleton (t : List (α × β)) (k : α) (v : β) :
    emplaceAll t [(k, v)] = emplace t k v := by
  unfold emplaceAll emplaceAll
  cases emplace t k v with
  | none => rfl
  | some t' => rfl

/-- What one insertion does to every lookup. -/
theorem lookup_emplace {t t' : List (α × β)} {k : α} {v : β} (h : emplace t k v = some t')
    (j : α) : t'.lookup j = (t ++ [(k, v)]).lookup j := by
  unfold emplace at h
  split at h
  · cases h
    rfl
  · rename_i w hw
    split at h
    · rename_i hv
      cases h
      rw [List.lookup_append]
      by_cases hj : j = k
      · rw [hj, hw, Option.some_or]
      · have hnone : [(k, v)].lookup j = none := lookup_cons_ne hj
        rw [hnone, Option.or_none]
    · cases h

theorem lookup_emplaceAll {t t' es : List (α × β)} (h : emplaceAll t es = some t') (j : α) :
    t'.lookup j = (t ++ es).lookup j := by
  induction es generalizing t with
  | nil =>
      cases h
      rw [List.append_nil]
  | cons e es ih =>
      rcases Option.bind_eq_some_iff.mp h with ⟨s, hs, hes⟩
      rw [ih hes, List.lookup_append, lookup_emplace hs, ← List.lookup_append, List.append_assoc]
      rfl

/-- A successful run of insertions binds every inserted key to its value. -/
theorem lookup_of_emplaceAll {t t' es : List (α × β)} (h : emplaceAll t es = some t') {k : α}
    {v : β} (hm : (k, v) ∈ es) : t'.lookup k = some v := by
  induction es generalizing t with
  | nil => cases hm
  | cons e es ih =>
      rcases Option.bind_eq_some_iff.mp h with ⟨s, hs, hes⟩
      rcases List.mem_cons.mp hm with rfl | hm
      · -- the head stays bound to its value, whatever is inserted after it
        have hhead : s.lookup k = some v := by
          unfold emplace at hs
          split at hs
          · rename_i hnone
            cases hs
            rw [List.lookup_append, hnone, Option.none_or]
            exact lookup_cons_self [] (k, v)
          · rename_i w hw
            split at hs
            · rename_i hv
              cases hs
              rw [hw, hv]
            · cases hs
        rw [lookup_emplaceAll hes, List.lookup_append, hhead]
        rfl
      · exact ih hes hm

/-- Consistent insertions never fail. -/
theorem emplaceAll_isSome {t es : List (α × β)} (h : Consistent (t ++ es)) :
    ∃ t', emplaceAll t es = some t' := by
  induction es generalizing t with
  | nil => exact ⟨t, rfl⟩
  | cons e es ih =>
      have hins : ∃ s, emplace t e.1 e.2 = some s ∧ ∀ p ∈ s ++ es, p ∈ t ++ e :: es := by
        unfold emplace
        cases hl : t.lookup e.1 with
        | none =>
            refine ⟨t ++ [(e.1, e.2)], rfl, ?_⟩
            intro p hp
            rw [List.append_assoc] at hp
            exact hp
        | some w =>
            have hw : w = e.2 := h e.1 w e.2 (List.mem_append_left _ (mem_of_lookup hl))
              (List.mem_append_right _ List.mem_cons_self)
            refine ⟨t, if_pos hw, ?_⟩
            intro p hp
            rcases List.mem_append.mp hp with hp | hp
            · exact List.mem_append_left _ hp
            · exact List.mem_append_right _ (List.mem_cons_of_mem _ hp)
      rcases hins with ⟨s, hs, hsub⟩
      rcases ih (fun k v w hv hw => h k v w (hsub _ hv) (hsub _ hw)) with ⟨t', ht'⟩
      refine ⟨t', ?_⟩
      show (emplace t e.1 e.2).bind _ = _
      rw [hs]
      exact ht'

theorem nodup_emplace {t t' : List (α × β)} {k : α} {v : β} (h : emplace t k v = some t')
    (ht : (t.map Prod.fst).Nodup) : (t'.map Prod.fst).Nodup := by
  unfold emplace at h
  split at h
  · rename_i hnone
    cases h
    rw [List.map_append, List.map_singleton, List.nodup_append]
    refine ⟨ht, List.nodup_singleton k, ?_⟩
    intro a ha b hb heq
    rw [List.mem_singleton] at hb
    rw [heq, hb] at ha
    exact lookup_eq_none_iff_notMem.mp hnone ha
  · split at h
    · cases h
      exact ht
    · cases h

theorem nodup_emplaceAll {t t' es : List (α × β)} (h : emplaceAll t es = some t')
    (ht : (t.map Prod.fst).Nodup) : (t'.map Prod.fst).Nodup := by
  induction es generalizing t with
  | nil =>
      cases h
      exact ht
  | cons e es ih =>
      rcases Option.bind_eq_some_iff.mp h with ⟨s, hs, hes⟩
      exact ih hes (nodup_emplace hs ht)

/-! ## Loops that insert -/

/-- A loop whose every iteration inserts a list of entries, or fails for a reason `P` of its own,
inserts the concatenation of these lists. -/
theorem foldlM_eq_ok_iff {ε γ : Type*} {f : List (α × β) → γ → Except ε (List (α × β))}
    {g : γ → List (α × β)} {P : γ → Prop}
    (hf : ∀ t x t', f t x = .ok t' ↔ P x ∧ emplaceAll t (g x) = some t') (l : List γ)
    (t t' : List (α × β)) :
    l.foldlM f t = .ok t' ↔ (∀ x ∈ l, P x) ∧ emplaceAll t (l.flatMap g) = some t' := by
  induction l generalizing t with
  | nil =>
      rw [List.foldlM_nil, List.flatMap_nil]
      constructor
      · intro h
        cases h
        exact ⟨fun x hx => (by cases hx), rfl⟩
      · rintro ⟨-, h⟩
        cases h
        rfl
  | cons x l ih =>
      rw [foldlM_cons_eq_ok, List.flatMap_cons, emplaceAll_append, List.forall_mem_cons,
        Option.bind_eq_some_iff]
      constructor
      · rintro ⟨s, hs, hl⟩
        have h₁ := (hf t x s).mp hs
        have h₂ := (ih s).mp hl
        exact ⟨⟨h₁.1, h₂.1⟩, s, h₁.2, h₂.2⟩
      · rintro ⟨⟨hx, hl⟩, s, hs, ht⟩
        exact ⟨s, (hf t x s).mpr ⟨hx, hs⟩, (ih s).mpr ⟨hl, ht⟩⟩

omit [DecidableEq β] in
/-- A loop that appends a new entry for every element appends them all. -/
theorem foldlM_append {ε γ : Type*} {f : List (α × β) → γ → Except ε (List (α × β))}
    {g : γ → α × β} {l : List γ}
    (hf : ∀ t, ∀ x ∈ l, t.lookup (g x).1 = none → f t x = .ok (t ++ [g x]))
    (hl : ((l.map g).map Prod.fst).Nodup) {t : List (α × β)}
    (ht : ∀ x ∈ l, t.lookup (g x).1 = none) : l.foldlM f t = .ok (t ++ l.map g) := by
  induction l generalizing t with
  | nil =>
      rw [List.map_nil, List.append_nil]
      rfl
  | cons x l ih =>
      rw [List.map_cons, List.map_cons, List.nodup_cons] at hl
      have hx := hf t x List.mem_cons_self (ht x List.mem_cons_self)
      rw [List.foldlM_cons, hx]
      show l.foldlM f (t ++ [g x]) = _
      rw [ih (fun t y hy => hf t y (List.mem_cons_of_mem _ hy)) hl.2, List.append_assoc]
      · rfl
      · -- the new entry has another key than those that follow
        intro y hy
        have hne : (g y).1 ≠ (g x).1 := by
          intro heq
          apply hl.1
          rw [← heq]
          exact List.mem_map_of_mem (List.mem_map_of_mem hy)
        have hnone : [g x].lookup (g y).1 = none := lookup_cons_ne hne
        rw [List.lookup_append, ht y (List.mem_cons_of_mem _ hy), hnone]
        rfl

omit [DecidableEq β] in
/-- A loop that appends to a table, for every element, an entry that `R` allows and whose key is
new. -/
theorem foldlM_new_iff {ε γ : Type*} {f : List (α × β) → γ → Except ε (List (α × β))}
    {R : γ → α × β → Prop}
    (hf : ∀ t x t', f t x = .ok t' ↔ ∃ e, R x e ∧ t.lookup e.1 = none ∧ t' = t ++ [e])
    (l : List γ) {t : List (α × β)} (t' : List (α × β)) (ht : (t.map Prod.fst).Nodup) :
    l.foldlM f t = .ok t' ↔
      ∃ es, List.Forall₂ R l es ∧ t' = t ++ es ∧ (t'.map Prod.fst).Nodup := by
  induction l generalizing t with
  | nil =>
      constructor
      · intro h
        cases h
        exact ⟨[], List.Forall₂.nil, (List.append_nil _).symm, ht⟩
      · rintro ⟨es, hes, rfl, -⟩
        cases hes
        rw [List.append_nil]
        rfl
  | cons x l ih =>
      -- a key is new where the keys with it are still distinct
      have hnew : ∀ e : α × β, t.lookup e.1 = none ↔ ((t ++ [e]).map Prod.fst).Nodup := by
        intro e
        rw [lookup_eq_none_iff_notMem, List.map_append, List.nodup_append]
        constructor
        · intro hnone
          refine ⟨ht, List.nodup_singleton _, ?_⟩
          intro a ha b hb heq
          rw [heq, List.mem_singleton.mp hb] at ha
          exact hnone ha
        · rintro ⟨-, -, hne⟩ hmem
          exact hne e.1 hmem e.1 (List.mem_singleton_self _) rfl
      rw [foldlM_cons_eq_ok]
      constructor
      · rintro ⟨s, hs, hl⟩
        rcases (hf t x s).mp hs with ⟨e, hR, hnone, rfl⟩
        rcases (ih ((hnew e).mp hnone)).mp hl with ⟨es, hes, rfl, hnodup⟩
        exact ⟨e :: es, List.Forall₂.cons hR hes, List.append_assoc t [e] es, hnodup⟩
      · rintro ⟨es, hes, rfl, hnodup⟩
        cases hes with
        | @cons _ e _ es hR hes =>
            have happend := List.append_cons t e es
            have hprefix : ((t ++ [e]).map Prod.fst).Nodup := by
              rw [happend, List.map_append] at hnodup
              exact (List.nodup_append.mp hnodup).1
            refine ⟨t ++ [e], (hf t x _).mpr ⟨e, hR, (hnew e).mpr hprefix, rfl⟩, ?_⟩
            exact (ih hprefix).mpr ⟨es, hes, happend, hnodup⟩

end Irata2.Library.Table
