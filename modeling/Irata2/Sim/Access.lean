import Irata2.Sim.Microstep
import Irata2.Sim.Run

/-!
# Accesses to the memory

A tick reads the memory when the memory drives the data bus, and writes it when the memory loads
from the data bus, in both cases at the address in the memory address register.  `Datapath.Runs`
says what the steps of a list leave behind together with the accesses they make on the way.
-/

namespace Irata2.Sim

open Hdl Library Library.StateRun

inductive Access
  | read (address : Word)
  | write (address : Word)
  deriving DecidableEq, Repr

namespace Datapath

/-- The accesses of a tick: a read in the Write phase and a write in the Read phase. -/
def accesses (cs : Control → Bool) (d : Datapath) : List Access :=
  (if cs .memoryWrite then [.read d.mar] else []) ++
    if cs .memoryRead then [.write (d.untilStore cs).1.mar] else []

/-- The accesses of the steps of a list, up to the first store that fails. -/
def trace : List (List Control) → Datapath → List Access
  | [], _ => []
  | l :: steps, d =>
      d.accesses (on l) ++
        match d.step (on l) with
        | .ok d' => trace steps d'
        | .error _ => []

/-- The accesses of a step when the memory address register holds the given address. -/
def accessesAt (l : List Control) (mar : Word) : List Access :=
  (if Control.memoryWrite ∈ l then [.read mar] else []) ++
    if Control.memoryRead ∈ l then [.write mar] else []

/-- The steps make the accesses of the log and end in the result. -/
def Runs (steps : List (List Control)) (d : Datapath) (log : List Access)
    (r : Except SimError Datapath) : Prop :=
  trace steps d = log ∧ run steps d = r

/-! ## The address does not move before the access -/

theorem mar_drive (cs : Control → Bool) (d : Datapath) : (d.drive cs).1.mar = d.mar := by
  have hwrite : ∀ (w : Datapath × Buses) (c : Component), (c.write cs w).1.mar = w.1.mar := by
    intro w c
    cases c with
    | byteRegister r =>
        simp only [Component.write]
        split <;> rfl
    | wordRegister r =>
        simp only [Component.write]
        split <;> rfl
    | memory =>
        simp only [Component.write]
        split <;> rfl
    | _ => rfl
  have hfold : ∀ (l : List Component) (w : Datapath × Buses),
      (l.foldl (fun w c => c.write cs w) w).1.mar = w.1.mar := by
    intro l
    induction l with
    | nil => exact fun _ => rfl
    | cons c l ih => exact fun w => (ih _).trans (hwrite w c)
  exact hfold components (d, Buses.empty)

/-- The memory address register loads only after the memory has been visited. -/
theorem mar_untilStore (cs : Control → Bool) (d : Datapath) :
    (d.untilStore cs).1.mar = d.mar := by
  have hread : ∀ c ∈ Component.front, ∀ b d, (c.read cs b d).mar = d.mar := by
    intro c hc b d
    have hne : c ≠ .wordRegister .mar ∧ c ≠ .byteRegister .marLow ∧ c ≠ .byteRegister .marHigh := by
      have hall : ∀ c ∈ Component.front,
          c ≠ .wordRegister .mar ∧ c ≠ .byteRegister .marLow ∧ c ≠ .byteRegister .marHigh := by
        decide +kernel
      exact hall c hc
    cases c with
    | byteRegister r =>
        simp only [Component.read]
        split
        · cases r <;> first | rfl | simp at hne
        · rfl
    | wordRegister r =>
        simp only [Component.read]
        split
        · cases r <;> first | rfl | simp at hne
        · rfl
    | _ => rfl
  have hfold : ∀ (l : List Component), (∀ c ∈ l, c ∈ Component.front) → ∀ b d,
      (l.foldl (Component.read cs b) d).mar = d.mar := by
    intro l
    induction l with
    | nil => exact fun _ _ _ => rfl
    | cons c l ih =>
        intro hl b d
        rw [List.forall_mem_cons] at hl
        exact (ih hl.2 b _).trans (hread c hl.1 b d)
  exact (hfold Component.front (fun _ hc => hc) _ _).trans (mar_drive cs d)

theorem accesses_on (l : List Control) (d : Datapath) :
    d.accesses (on l) = accessesAt l d.mar := by
  unfold accesses accessesAt on
  rw [mar_untilStore]
  simp only [decide_eq_true_eq]

theorem accesses_congr {cs cs' : Control → Bool}
    (hw : cs .memoryWrite = cs' .memoryWrite) (hr : cs .memoryRead = cs' .memoryRead)
    (d : Datapath) : d.accesses cs = d.accesses cs' := by
  unfold accesses
  rw [mar_untilStore, mar_untilStore, hw, hr]

/-! ## Composing runs -/

namespace Runs

variable {l : List Control} {steps more : List (List Control)} {d d' : Datapath}
  {log log' : List Access} {r : Except SimError Datapath}

theorem trace_cons (h : d.step (on l) = .ok d') (steps : List (List Control)) :
    trace (l :: steps) d = accessesAt l d.mar ++ trace steps d' := by
  conv_lhs => unfold trace
  rw [h, accesses_on]

theorem nil (d : Datapath) : Runs [] d [] (.ok d) := ⟨rfl, rfl⟩

theorem step (h : d.step (on l) = .ok d') (hrest : Runs steps d' log r) :
    Runs (l :: steps) d (accessesAt l d.mar ++ log) r :=
  ⟨(trace_cons h steps).trans (congrArg _ hrest.1), (run_cons h).trans hrest.2⟩

/-- The first store that fails ends the run. -/
theorem of_error {e : SimError} (h : d.step (on l) = .error e) (steps : List (List Control)) :
    Runs (l :: steps) d (accessesAt l d.mar) (.error e) := by
  have htrace : trace (l :: steps) d = accessesAt l d.mar := by
    conv_lhs => unfold trace
    rw [h, accesses_on]
    exact List.append_nil _
  refine ⟨htrace, ?_⟩
  show d.step (on l) >>= run steps = _
  rw [h]
  rfl

theorem last (l : List Control) (d : Datapath) : Runs [l] d (accessesAt l d.mar) (d.step (on l)) := by
  have htrace : trace [l] d = accessesAt l d.mar := by
    rw [← accesses_on]
    unfold trace
    cases d.step (on l) <;> exact List.append_nil _
  have hrun : run [l] d = d.step (on l) := by
    show d.step (on l) >>= Except.ok = _
    cases d.step (on l) <;> rfl
  exact ⟨htrace, hrun⟩

theorem append (h : Runs steps d log (.ok d')) (h' : Runs more d' log' r) :
    Runs (steps ++ more) d (log ++ log') r := by
  induction steps generalizing d log with
  | nil =>
      rcases h with ⟨rfl, hrun⟩
      cases hrun
      exact h'
  | cons l steps ih =>
      rcases h with ⟨rfl, hrun⟩
      rcases bind_eq_ok.mp hrun with ⟨d₁, hd₁, hrun₁⟩
      have hrest := step hd₁ (ih ⟨rfl, hrun₁⟩)
      rw [← List.append_assoc, ← trace_cons hd₁] at hrest
      exact hrest

end Runs

end Datapath

/-! ## The accesses of the CPU -/

namespace Cpu

/-- The accesses of the next tick of a CPU between ticks. -/
def accesses (cpu : Cpu) : List Access :=
  if cpu.halted then []
  else
    match cpu.lookup with
    | .ok controls => cpu.datapath.accesses (cpu.assertedBy controls)
    | .error _ => []

/-- The accesses of the next ticks, up to the first one that throws. -/
def accessLog : Nat → Cpu → List Access
  | 0, _ => []
  | n + 1, cpu =>
      cpu.accesses ++
        match tick cpu with
        | .ok _ t => accessLog n t
        | .error _ _ => []

theorem accesses_of_lookup {cpu : Cpu} (hh : cpu.halted = false) {controls : List Control}
    (hl : cpu.lookup = .ok controls) :
    cpu.accesses = cpu.datapath.accesses (cpu.assertedBy controls) := by
  unfold accesses
  rw [hh, hl]
  rfl

theorem accessLog_succ {cpu t : Cpu} (h : tick cpu = .ok () t) (n : Nat) :
    accessLog (n + 1) cpu = cpu.accesses ++ accessLog n t := by
  conv_lhs => unfold accessLog
  rw [h]

theorem accessLog_of_error {cpu t : Cpu} {e : SimError} (h : tick cpu = .error e t) (n : Nat) :
    accessLog (n + 1) cpu = cpu.accesses := by
  conv_lhs => unfold accessLog
  rw [h]
  exact List.append_nil _

theorem accessLog_add {m : Nat} {cpu t : Cpu} (h : ticks m cpu = .ok () t) (n : Nat) :
    accessLog (m + n) cpu = accessLog m cpu ++ accessLog n t := by
  induction m generalizing cpu with
  | zero =>
      cases h
      rw [Nat.zero_add]
      rfl
  | succ m ih =>
      change (tick >>= fun _ => ticks m) cpu = _ at h
      rw [Nat.add_right_comm]
      cases ht : tick cpu with
      | ok u s =>
          rw [bind_of_ok ht] at h
          rw [accessLog_succ ht, accessLog_succ ht, ih h, List.append_assoc]
      | error e s =>
          rw [bind_of_error ht] at h
          cases h

end Cpu

end Irata2.Sim
