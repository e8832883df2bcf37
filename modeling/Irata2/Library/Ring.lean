import Mathlib.Algebra.GroupWithZero.Nat
import Mathlib.Data.Fin.Basic
import Mathlib.Data.List.Basic

/-!
# Bounded queues, buffers and rings

A bounded queue drops what is offered to it while it is full, and the end of a list is what a buffer
keeps that makes room instead.  A ring is a fixed number of places
that are used in turn, and a window of them, which may run over the end, holds a queue.
-/

namespace Irata2.Library

universe u

/-- A queue of at most `capacity` items, the oldest first. -/
structure BoundedQueue (α : Type u) (capacity : Nat) where
  items : List α
  length_le : items.length ≤ capacity

namespace BoundedQueue

variable {α : Type u} {capacity : Nat}

def empty : BoundedQueue α capacity := ⟨[], Nat.zero_le _⟩

/-- The queue with one more item, unless it is full. -/
def offer (q : BoundedQueue α capacity) (a : α) : BoundedQueue α capacity :=
  if h : q.items.length = capacity then q
  else
    ⟨q.items ++ [a], by
      have := q.length_le
      rw [List.length_append, List.length_singleton]
      omega⟩

/-- The queue without its oldest item. -/
def rest (q : BoundedQueue α capacity) : BoundedQueue α capacity :=
  ⟨q.items.tail, by
    have := q.length_le
    rw [List.length_tail]
    omega⟩

theorem offer_of_full {q : BoundedQueue α capacity} (h : q.items.length = capacity) (a : α) :
    q.offer a = q :=
  dif_pos h

theorem items_offer {q : BoundedQueue α capacity} (h : q.items.length ≠ capacity) (a : α) :
    (q.offer a).items = q.items ++ [a] := by
  unfold offer
  rw [dif_neg h]

end BoundedQueue

section LastN

variable {α β : Type u}

/-- The last `n` items of a list. -/
def lastN (n : Nat) (l : List α) : List α := l.drop (l.length - n)

theorem length_lastN (n : Nat) (l : List α) : (lastN n l).length = min n l.length := by
  unfold lastN
  rw [List.length_drop]
  omega

theorem map_lastN (f : α → β) (n : Nat) (l : List α) : (lastN n l).map f = lastN n (l.map f) := by
  unfold lastN
  rw [List.map_drop, List.length_map]

/-- A short list is its own end. -/
theorem lastN_of_le {n : Nat} {l : List α} (h : l.length ≤ n) : lastN n l = l := by
  unfold lastN
  rw [Nat.sub_eq_zero_of_le h, List.drop_zero]

/-- One item more at the end pushes one out at the front. -/
theorem lastN_append_singleton {n : Nat} {l : List α} (hn : 0 < n) (h : n ≤ l.length) (a : α) :
    lastN n (l ++ [a]) = (lastN n l).tail ++ [a] := by
  unfold lastN
  rw [List.length_append, List.length_singleton, List.tail_drop,
    List.drop_append_of_le_length (by omega)]
  congr 2
  omega

end LastN

namespace Ring

variable {α : Type u} {n : Nat} [NeZero n]

/-- What the `count` places from `start` on hold, round the ring. -/
def contents (cells : Fin n → α) : Fin n → Nat → List α
  | _, 0 => []
  | start, count + 1 => cells start :: contents cells (start + 1) count

theorem length_contents (cells : Fin n → α) (start : Fin n) (count : Nat) :
    (contents cells start count).length = count := by
  induction count generalizing start with
  | zero => rfl
  | succ count ih => exact congrArg (· + 1) (ih (start + 1))

theorem next_add_mod (start : Fin n) (k : Nat) :
    ((start + 1).val + k) % n = (start.val + (k + 1)) % n := by
  have hone : (start + 1).val = (start.val + 1) % n := by
    rw [Fin.val_add, Fin.val_one', Nat.add_mod_mod]
  rw [hone, Nat.mod_add_mod, Nat.add_assoc, Nat.add_comm 1 k]

omit [NeZero n] in
/-- Two places less than a whole turn apart are different. -/
theorem add_mod_injective {start k m : Nat} (hk : k < m) (hm : m < n) :
    (start + k) % n ≠ (start + m) % n := by
  intro h
  have hzero : (m - k) % n = 0 := by
    have hsub := Nat.sub_mod_eq_zero_of_mod_eq h.symm
    rwa [Nat.add_sub_add_left] at hsub
  rw [Nat.mod_eq_of_lt (by omega)] at hzero
  omega

/-- A place outside the window may change. -/
theorem contents_update {cells : Fin n → α} {start i : Fin n} {count : Nat} (a : α)
    (hfar : ∀ k < count, (start.val + k) % n ≠ i.val) :
    contents (Function.update cells i a) start count = contents cells start count := by
  induction count generalizing start with
  | zero => rfl
  | succ count ih =>
      have hstart : start ≠ i := by
        intro h
        apply hfar 0 (Nat.succ_pos count)
        rw [Nat.add_zero, Nat.mod_eq_of_lt start.isLt, h]
      -- the window of the next place is the same one, a place shorter
      have hnext : ∀ k < count, ((start + 1).val + k) % n ≠ i.val := by
        intro k hk
        have h := hfar (k + 1) (Nat.succ_lt_succ hk)
        rw [next_add_mod]
        exact h
      show Function.update cells i a start :: _ = cells start :: _
      rw [Function.update_of_ne hstart, ih hnext]

theorem contents_snoc (cells : Fin n → α) (start i : Fin n) (count : Nat)
    (hi : i.val = (start.val + count) % n) :
    contents cells start (count + 1) = contents cells start count ++ [cells i] := by
  induction count generalizing start with
  | zero =>
      have hstart : start = i := by
        apply Fin.eq_of_val_eq
        rw [hi, Nat.add_zero, Nat.mod_eq_of_lt start.isLt]
      rw [hstart]
      rfl
  | succ count ih =>
      have hnext : i.val = ((start + 1).val + count) % n := by
        rw [hi, next_add_mod]
      show cells start :: contents cells (start + 1) (count + 1) = _
      rw [ih (start + 1) hnext]
      rfl

/-- Storing at the place after the window, which is not in it, adds an item at the end. -/
theorem contents_push {cells : Fin n → α} {start i : Fin n} {count : Nat} (a : α)
    (hcount : count < n) (hi : i.val = (start.val + count) % n) :
    contents (Function.update cells i a) start (count + 1) = contents cells start count ++ [a] := by
  rw [contents_snoc _ start i count hi, Function.update_self]
  rw [contents_update]
  intro k hk heq
  rw [hi] at heq
  exact add_mod_injective hk hcount heq

end Ring

end Irata2.Library
