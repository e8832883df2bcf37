import Irata2.Library.Table

/-!
# Ordered maps

A map is a list of pairs in the order of its keys.  `emplace` adds a new key at its place and leaves
a key that is there already with its first value.
-/

namespace Irata2.Library.OrderedMap

universe u v

/-- The order of texts: by the first character in which they differ. -/
def textBefore (a b : List Char) : Bool := decide (a < b)

variable {α : Type u} {β : Type v} (lt : α → α → Bool)

def insert (k : α) (v : β) : List (α × β) → List (α × β)
  | [] => [(k, v)]
  | e :: t => if lt k e.1 then (k, v) :: e :: t else e :: insert k v t

theorem perm_insert (k : α) (v : β) (t : List (α × β)) :
    (insert lt k v t).Perm ((k, v) :: t) := by
  induction t with
  | nil => exact .refl _
  | cons e t ih =>
      unfold insert
      split
      · exact .refl _
      · exact (ih.cons e).trans (.swap _ _ _)

variable [DecidableEq α]

/-- The value of a key. -/
def find (t : List (α × β)) (k : α) : Option β := t.lookup k

def emplace (t : List (α × β)) (k : α) (v : β) : List (α × β) :=
  if (find t k).isSome then t else insert lt k v t

/-- One insertion after the other. -/
def emplaceAll (t es : List (α × β)) : List (α × β) :=
  es.foldl (fun t e => emplace lt t e.1 e.2) t

theorem find_append (t u : List (α × β)) (k : α) :
    find (t ++ u) k = (find t k).or (find u k) := List.lookup_append

theorem find_append_eq_none {t u : List (α × β)} {k : α} (h : find (t ++ u) k = none) :
    find t k = none ∧ find u k = none := by
  rw [find_append] at h
  exact Option.or_eq_none_iff.mp h

theorem find_singleton_self (k : α) (v : β) : find [(k, v)] k = some v :=
  Table.lookup_cons_self [] (k, v)

theorem find_append_of_ne {t : List (α × β)} {k j : α} {v : β} (h : find t j = none) (hne : j ≠ k) :
    find (t ++ [(k, v)]) j = none := by
  unfold find at *
  rw [List.lookup_append, h, Option.none_or]
  exact Table.lookup_cons_ne hne

/-- A key that is there with one value only, or not at all. -/
theorem find_eq_of_mem_iff {t : List (α × β)} {k : α} {v : β} {c : Prop} [Decidable c]
    (h : ∀ w, (k, w) ∈ t ↔ w = v ∧ c) : find t k = if c then some v else none := by
  unfold find
  cases hk : t.lookup k with
  | some w =>
      obtain ⟨rfl, hc⟩ := (h w).mp (Table.mem_of_lookup hk)
      exact (if_pos hc).symm
  | none =>
      refine (if_neg fun hc => ?_).symm
      exact Table.lookup_eq_none_iff_notMem.mp hk (List.mem_map_of_mem ((h v).mpr ⟨rfl, hc⟩))

/-- The order of the entries does not matter where every key is there once. -/
theorem find_perm {t u : List (α × β)} (h : t.Perm u) (ht : (t.map Prod.fst).Nodup) (k : α) :
    find t k = find u k := by
  have hu : (u.map Prod.fst).Nodup := (h.map Prod.fst).nodup_iff.mp ht
  have hconsistent : Table.Consistent u := fun _ _ _ hv hw =>
    congrArg Prod.snd (List.inj_on_of_nodup_map hu hv hw rfl)
  unfold find
  cases hk : t.lookup k with
  | some v => exact (Table.lookup_of_mem hconsistent (h.mem_iff.mp (Table.mem_of_lookup hk))).symm
  | none =>
      rw [Table.lookup_eq_none_iff_notMem, (h.map Prod.fst).mem_iff] at hk
      exact (Table.lookup_eq_none_iff_notMem.mpr hk).symm

theorem lookup_insert {k : α} {v : β} {t : List (α × β)} (hk : t.lookup k = none) (j : α) :
    (insert lt k v t).lookup j = if j = k then some v else t.lookup j := by
  induction t with
  | nil =>
      by_cases hj : j = k
      · subst hj
        rw [if_pos rfl]
        exact Table.lookup_cons_self [] (j, v)
      · rw [if_neg hj]
        exact Table.lookup_cons_ne hj
  | cons e t ih =>
      have hne : k ≠ e.1 := by
        rintro rfl
        rw [Table.lookup_cons_self] at hk
        cases hk
      rw [Table.lookup_cons_ne hne] at hk
      unfold insert
      split
      · by_cases hj : j = k
        · subst hj
          rw [if_pos rfl]
          exact Table.lookup_cons_self _ (j, v)
        · rw [if_neg hj]
          exact Table.lookup_cons_ne hj
      · by_cases hje : j = e.1
        · subst hje
          rw [Table.lookup_cons_self, if_neg hne.symm, Table.lookup_cons_self]
        · rw [Table.lookup_cons_ne hje, Table.lookup_cons_ne hje, ih hk]

theorem lookup_emplace (t : List (α × β)) (k : α) (v : β) (j : α) :
    (emplace lt t k v).lookup j = (t.lookup j).or (if j = k then some v else none) := by
  unfold emplace find
  cases hk : t.lookup k with
  | some w =>
      rw [if_pos (show (some w).isSome = true from rfl)]
      by_cases hj : j = k
      · rw [hj, hk, Option.some_or]
      · rw [if_neg hj, Option.or_none]
  | none =>
      rw [if_neg (show ¬(none : Option β).isSome = true from Bool.false_ne_true),
        lookup_insert lt hk]
      by_cases hj : j = k
      · rw [if_pos hj, if_pos hj, hj, hk, Option.none_or]
      · rw [if_neg hj, if_neg hj, Option.or_none]

/-- The first value of a key stays. -/
theorem lookup_emplaceAll (t es : List (α × β)) (j : α) :
    (emplaceAll lt t es).lookup j = (t.lookup j).or (es.lookup j) := by
  induction es generalizing t with
  | nil => exact (Option.or_none).symm
  | cons e es ih =>
      show (emplaceAll lt (emplace lt t e.1 e.2) es).lookup j = _
      rw [ih, lookup_emplace, Option.or_assoc]
      congr 1
      by_cases hj : j = e.1
      · rw [if_pos hj, hj, Table.lookup_cons_self, Option.some_or]
      · rw [if_neg hj, Table.lookup_cons_ne hj, Option.none_or]

theorem nodup_emplace {t : List (α × β)} (ht : (t.map Prod.fst).Nodup) (k : α) (v : β) :
    ((emplace lt t k v).map Prod.fst).Nodup := by
  unfold emplace
  split
  · exact ht
  · rename_i hk
    have hnone : t.lookup k = none := by
      cases hl : t.lookup k with
      | none => rfl
      | some w => exact absurd (by unfold find; rw [hl]; rfl) hk
    rw [((perm_insert lt k v t).map Prod.fst).nodup_iff]
    exact List.nodup_cons.mpr ⟨Table.lookup_eq_none_iff_notMem.mp hnone, ht⟩

theorem find_emplaceAll (es : List (α × β)) (j : α) :
    find (emplaceAll lt [] es) j = find es j := by
  unfold find
  rw [lookup_emplaceAll]
  rfl

/-- A map has every key once. -/
theorem nodup_emplaceAll {t : List (α × β)} (ht : (t.map Prod.fst).Nodup) (es : List (α × β)) :
    ((emplaceAll lt t es).map Prod.fst).Nodup := by
  induction es generalizing t with
  | nil => exact ht
  | cons e es ih => exact ih (nodup_emplace lt ht e.1 e.2)

theorem mem_of_mem_emplaceAll {es : List (α × β)} {e : α × β}
    (h : e ∈ emplaceAll lt [] es) : e ∈ es := by
  have hnodup : ((emplaceAll lt [] es).map Prod.fst).Nodup :=
    nodup_emplaceAll lt (t := []) List.nodup_nil es
  have hlookup : (emplaceAll lt [] es).lookup e.1 = some e.2 := by
    apply Table.lookup_of_mem _ h
    intro k v w hv hw
    exact List.inj_on_of_nodup_map hnodup hv hw rfl |> congrArg Prod.snd
  rw [lookup_emplaceAll] at hlookup
  exact Table.mem_of_lookup hlookup

/-! ## Renamed keys -/

section Map

variable {γ : Type u} {δ : Type v} (before : γ → γ → Bool) {κ : α → γ} (f : β → δ)

theorem lookup_map_key [DecidableEq γ] (hκ : Function.Injective κ) (t : List (α × β)) (k : α) :
    (t.map fun e => (κ e.1, f e.2)).lookup (κ k) = (t.lookup k).map f := by
  induction t with
  | nil => rfl
  | cons e t ih =>
      by_cases hk : k = e.1
      · subst hk
        rw [Table.lookup_cons_self]
        exact Table.lookup_cons_self _ (κ e.1, f e.2)
      · rw [Table.lookup_cons_ne hk, ← ih]
        exact Table.lookup_cons_ne fun h => hk (hκ h)

omit [DecidableEq α] in
theorem insert_map (k : α) (v : β) (t : List (α × β)) :
    insert before (κ k) (f v) (t.map fun e => (κ e.1, f e.2)) =
      (insert (fun a b => before (κ a) (κ b)) k v t).map fun e => (κ e.1, f e.2) := by
  induction t with
  | nil => rfl
  | cons e t ih =>
      show (if before (κ k) (κ e.1) then _ else (κ e.1, f e.2) :: insert before (κ k) (f v) _) =
        (if before (κ k) (κ e.1) then _ else e :: insert _ k v t).map _
      by_cases h : before (κ k) (κ e.1)
      · rw [if_pos h, if_pos h]
        rfl
      · rw [if_neg h, if_neg h, ih]
        rfl

theorem emplace_map [DecidableEq γ] (hκ : Function.Injective κ) (t : List (α × β)) (k : α)
    (v : β) :
    emplace before (t.map fun e => (κ e.1, f e.2)) (κ k) (f v) =
      (emplace (fun a b => before (κ a) (κ b)) t k v).map fun e => (κ e.1, f e.2) := by
  unfold emplace find
  rw [lookup_map_key f hκ t k, Option.isSome_map]
  split
  · rfl
  · exact insert_map before f k v t

/-- Renaming the keys, without confusing two of them, renames the keys of the map. -/
theorem emplaceAll_map [DecidableEq γ] (hκ : Function.Injective κ) (t es : List (α × β)) :
    emplaceAll before (t.map fun e => (κ e.1, f e.2)) (es.map fun e => (κ e.1, f e.2)) =
      (emplaceAll (fun a b => before (κ a) (κ b)) t es).map fun e => (κ e.1, f e.2) := by
  induction es generalizing t with
  | nil => rfl
  | cons e es ih =>
      show emplaceAll before (emplace before _ (κ e.1) (f e.2)) _ = (emplaceAll _ _ es).map _
      rw [emplace_map before f hκ, ih]

end Map

end Irata2.Library.OrderedMap
