import Mathlib.Data.List.Basic

/-!
# Joined texts

Parts joined by a separator, and lines that end in a separator, can be taken apart again when no
part contains the character that begins the separator.
-/

namespace Irata2.Library

universe u v

section Separators

variable {α : Type u} {c : α}

/-- The first occurrence of a separator splits a text in one way. -/
theorem append_cons_inj {front front' back back' : List α} (h : c ∉ front) (h' : c ∉ front')
    (heq : front ++ c :: back = front' ++ c :: back') : front = front' ∧ back = back' := by
  induction front generalizing front' with
  | nil =>
      cases front' with
      | nil => exact ⟨rfl, (List.cons.inj heq).2⟩
      | cons a l =>
          rw [List.nil_append, List.cons_append] at heq
          exact absurd ((List.cons.inj heq).1 ▸ List.mem_cons_self) h'
  | cons a l ih =>
      cases front' with
      | nil =>
          rw [List.nil_append, List.cons_append] at heq
          exact absurd ((List.cons.inj heq).1 ▸ List.mem_cons_self) h
      | cons b l' =>
          rw [List.cons_append, List.cons_append] at heq
          rw [List.mem_cons, not_or] at h h'
          rcases ih h.2 h'.2 (List.cons.inj heq).2 with ⟨hl, hback⟩
          exact ⟨by rw [(List.cons.inj heq).1, hl], hback⟩

/-- The parts of a joined text, of which there is at least one, are determined. -/
theorem intercalate_inj {sep : List α} {l l' : List (List α)} (hl : l ≠ []) (hl' : l' ≠ [])
    (h : ∀ t ∈ l, c ∉ t) (h' : ∀ t ∈ l', c ∉ t)
    (heq : (c :: sep).intercalate l = (c :: sep).intercalate l') : l = l' := by
  induction l generalizing l' with
  | nil => exact absurd rfl hl
  | cons t l ih =>
      cases l' with
      | nil => exact absurd rfl hl'
      | cons t' l' =>
          rw [List.forall_mem_cons] at h h'
          cases l with
          | nil =>
              cases l' with
              | nil => simpa using heq
              | cons u' l' =>
                  -- a single part has no separator in it
                  rw [List.intercalate_singleton, List.intercalate_cons_cons] at heq
                  exact absurd (by rw [heq]; simp) h.1
          | cons u l =>
              cases l' with
              | nil =>
                  rw [List.intercalate_singleton, List.intercalate_cons_cons] at heq
                  exact absurd (by rw [← heq]; simp) h'.1
              | cons u' l' =>
                  rw [List.intercalate_cons_cons, List.intercalate_cons_cons, List.append_assoc,
                    List.append_assoc, List.cons_append, List.cons_append] at heq
                  rcases append_cons_inj h.1 h'.1 heq with ⟨rfl, hrest⟩
                  rw [ih (by simp) (by simp) h.2 h'.2 (List.append_cancel_left hrest)]

/-- Lines that end in a character which they do not contain are determined by their text. -/
theorem flatMap_line_inj {l l' : List (List α)} (h : ∀ t ∈ l, c ∉ t) (h' : ∀ t ∈ l', c ∉ t)
    (heq : l.flatMap (· ++ [c]) = l'.flatMap (· ++ [c])) : l = l' := by
  induction l generalizing l' with
  | nil =>
      cases l' with
      | nil => rfl
      | cons t' l' => simp at heq
  | cons t l ih =>
      cases l' with
      | nil => simp at heq
      | cons t' l' =>
          rw [List.forall_mem_cons] at h h'
          rw [List.flatMap_cons, List.flatMap_cons, List.append_assoc, List.append_assoc] at heq
          rcases append_cons_inj h.1 h'.1 heq with ⟨rfl, hrest⟩
          rw [ih h.2 h'.2 hrest]

end Separators

/-! ## Blocks -/

section Blocks

variable {α : Type u} {β : Type v}

theorem takeWhile_block {isHead : β → Bool} {body rest : List β}
    (hbody : ∀ x ∈ body, isHead x = false) (hrest : ∀ x ∈ rest.head?, isHead x = true) :
    (body ++ rest).takeWhile (fun x => !isHead x) = body := by
  induction body with
  | nil =>
      cases rest with
      | nil => rfl
      | cons x rest =>
          rw [List.nil_append, List.takeWhile_cons, hrest x rfl]
          rfl
  | cons x body ih =>
      rw [List.forall_mem_cons] at hbody
      rw [List.cons_append, List.takeWhile_cons, hbody.1, ih hbody.2]
      rfl

/-- Blocks, each of which begins with the only line of its kind, are determined by their lines when
each is by its own. -/
theorem flatMap_block_inj {f : α → List β} (isHead : β → Bool) (P : α → Prop)
    (hblock : ∀ a, P a → ∃ head body, f a = head :: body ∧ isHead head = true ∧
      ∀ x ∈ body, isHead x = false)
    (hinj : ∀ a b, P a → P b → f a = f b → a = b) {l l' : List α} (h : ∀ a ∈ l, P a)
    (h' : ∀ a ∈ l', P a) (heq : l.flatMap f = l'.flatMap f) : l = l' := by
  -- what follows a block begins with a head
  have hhead : ∀ l : List α, (∀ a ∈ l, P a) → ∀ x ∈ (l.flatMap f).head?, isHead x = true := by
    intro l hl x hx
    cases l with
    | nil => cases hx
    | cons a l =>
        rcases hblock a (hl a List.mem_cons_self) with ⟨head, body, hf, hhead, -⟩
        rw [List.flatMap_cons, hf] at hx
        cases hx
        exact hhead
  induction l generalizing l' with
  | nil =>
      cases l' with
      | nil => rfl
      | cons b l' =>
          rcases hblock b (h' b List.mem_cons_self) with ⟨head, body, hf, -⟩
          rw [List.flatMap_cons, hf] at heq
          cases heq
  | cons a l ih =>
      cases l' with
      | nil =>
          rcases hblock a (h a List.mem_cons_self) with ⟨head, body, hf, -⟩
          rw [List.flatMap_cons, hf] at heq
          cases heq
      | cons b l' =>
          rw [List.forall_mem_cons] at h h'
          rcases hblock a h.1 with ⟨head, body, hf, -, hbody⟩
          rcases hblock b h'.1 with ⟨head', body', hf', -, hbody'⟩
          rw [List.flatMap_cons, List.flatMap_cons, hf, hf', List.cons_append,
            List.cons_append] at heq
          have htail := (List.cons.inj heq).2
          have hsame : body = body' := by
            rw [← takeWhile_block hbody (hhead l h.2), htail,
              takeWhile_block hbody' (hhead l' h'.2)]
          have hab : a = b := hinj a b h.1 h'.1 (by rw [hf, hf', (List.cons.inj heq).1, hsame])
          rw [hsame] at htail
          rw [hab, ih h.2 h'.2 (List.append_cancel_left htail)]

end Blocks

end Irata2.Library
