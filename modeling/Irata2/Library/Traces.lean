import Mathlib.Data.List.Basic

/-!
# Machines and the systems they are part of

A machine answers inputs one after the other.  A log of inputs with answers is a run of it, and a
machine that simulates it answers the same.  In a system whose steps carry events, a machine has run
through the events that concern it if every step lets it do so.
-/

namespace Irata2.Library.Traces

universe u v w x y

section Machines

variable {S : Type u} {I : Type v} {O : Type w} (step : S → I → O × S)

/-- The machine gets from one state to another, and its answers are those of the log. -/
inductive Logs : S → List (I × O) → S → Prop
  | nil (s : S) : Logs s [] s
  | cons {s s' t : S} {i : I} {o : O} {log : List (I × O)} (h : step s i = (o, t))
      (hrest : Logs t log s') : Logs s ((i, o) :: log) s'

variable {step} {s s' s'' : S} {log log' : List (I × O)}

theorem Logs.single {i : I} {o : O} (h : step s i = (o, s')) : Logs step s [(i, o)] s' :=
  .cons h (.nil s')

theorem Logs.append (h : Logs step s log s') (h' : Logs step s' log' s'') :
    Logs step s (log ++ log') s'' := by
  induction h with
  | nil s => exact h'
  | cons hstep _ ih => exact .cons hstep (ih h')

/-- What every input keeps, in terms of the log so far, holds at the end. -/
theorem Logs.invariant (P : List (I × O) → S → Prop)
    (hstep : ∀ {log s i o t}, P log s → step s i = (o, t) → P (log ++ [(i, o)]) t)
    {before : List (I × O)} (h : Logs step s log s') (hs : P before s) : P (before ++ log) s' := by
  induction h generalizing before with
  | nil s =>
      rw [List.append_nil]
      exact hs
  | cons hi _ ih =>
      rw [List.append_cons]
      exact ih (hstep hs hi)

/-- Related machines that answer every input alike have the same logs. -/
theorem Logs.simulate {T : Type x} {step' : T → I → O × T} {R : S → T → Prop}
    (hstep : ∀ {s t}, R s t → ∀ i, (step s i).1 = (step' t i).1 ∧ R (step s i).2 (step' t i).2)
    (h : Logs step s log s') {t : T} (hr : R s t) : ∃ t', Logs step' t log t' ∧ R s' t' := by
  induction h generalizing t with
  | nil s => exact ⟨t, .nil t, hr⟩
  | @cons s s' u i o log hi _ ih =>
      obtain ⟨hanswer, hnext⟩ := hstep hr i
      rw [hi] at hanswer hnext
      obtain ⟨t', hlog, hend⟩ := ih hnext
      exact ⟨t', .cons (Prod.ext hanswer.symm rfl) hlog, hend⟩

end Machines

section Systems

variable {X : Type u} {E : Type v} (Step : X → List E → X → Prop)

/-- A run of a system with the events of its steps. -/
inductive Trace (start : X) : List E → X → Prop
  | refl : Trace start [] start
  | tail {log events : List E} {s t : X} (hrun : Trace start log s) (h : Step s events t) :
      Trace start (log ++ events) t

variable {Step} {S : Type w} {I : Type x} {O : Type y}

theorem Trace.single {start t : X} {events : List E} (h : Step start events t) :
    Trace Step start events t := by
  have htail := Trace.refl.tail h
  rw [List.nil_append] at htail
  exact htail

theorem Trace.trans {start s t : X} {log log' : List E} (h : Trace Step start log s)
    (h' : Trace Step s log' t) : Trace Step start (log ++ log') t := by
  induction h' with
  | refl =>
      rw [List.append_nil]
      exact h
  | tail _ hstep ih =>
      rw [← List.append_assoc]
      exact ih.tail hstep

/-- A part of the system that answers the events of every step has answered those of the run. -/
theorem Trace.logs (step : S → I → O × S) (pick : E → Option (I × O)) (view : X → S → Prop)
    (hstep : ∀ {s events t m}, Step s events t → view s m →
      ∃ m', view t m' ∧ Logs step m (events.filterMap pick) m')
    {start t : X} {log : List E} (h : Trace Step start log t) {m : S} (hm : view start m) :
    ∃ m', view t m' ∧ Logs step m (log.filterMap pick) m' := by
  induction h with
  | refl => exact ⟨m, hm, .nil m⟩
  | tail _ hs ih =>
      obtain ⟨m₁, hview, hlog⟩ := ih
      obtain ⟨m₂, hview', hlog'⟩ := hstep hs hview
      refine ⟨m₂, hview', ?_⟩
      rw [List.filterMap_append]
      exact hlog.append hlog'

end Systems

end Irata2.Library.Traces
