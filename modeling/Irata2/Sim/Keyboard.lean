import Irata2.Library.Ring
import Irata2.Sim.Io

/-!
# The input device as a queue

A keyboard is a queue of at most sixteen keys, an enable bit and the keys held down.  The input
device keeps that queue in a ring, and no run of its operations can tell the two apart.
-/

namespace Irata2.Sim

open Library

/-- What the frontend and the processor do with an input device. -/
inductive InputEvent
  | injectKey (keyCode : Byte)
  | setKeyDown (bit : Byte)
  | setKeyUp (bit : Byte)
  | read (offset : Word)
  | write (offset : Word) (value : Byte)
  deriving DecidableEq, Repr

/-- The operations on the keys held down, which are no part of the queue. -/
def InputEvent.isKeyState : InputEvent → Bool
  | .setKeyDown _ => true
  | .setKeyUp _ => true
  | _ => false

/-- All the others. -/
def InputEvent.isQueue (e : InputEvent) : Bool := !e.isKeyState

/-! ## The abstract keyboard -/

structure Keyboard where
  pending : BoundedQueue Byte 16
  irqEnabled : Bool
  held : Byte

namespace Keyboard

def new : Keyboard := ⟨.empty, false, 0⟩

/-- The oldest key, or zero. -/
def front (k : Keyboard) : Byte := k.pending.items.headD 0

def interrupts (k : Keyboard) : Bool := k.irqEnabled && !k.pending.items.isEmpty

def status (k : Keyboard) : Byte :=
  (if k.pending.items.isEmpty then 0 else InputStatus.notEmpty) |||
    (if k.pending.items.length = 16 then InputStatus.full else 0) |||
      (if k.interrupts then InputStatus.irqPending else 0)

def register (k : Keyboard) (offset : Word) : Byte :=
  if offset = InputReg.status then k.status
  else if offset = InputReg.data then k.front
  else if offset = InputReg.peek then k.front
  else if offset = InputReg.count then BitVec.ofNat 8 k.pending.items.length
  else if offset = InputReg.keyState then k.held
  else 0

/-- What an event returns, if it is a read, and the keyboard after it. -/
def step (k : Keyboard) : InputEvent → Option Byte × Keyboard
  | .injectKey keyCode => (none, { k with pending := k.pending.offer keyCode })
  | .setKeyDown bit => (none, { k with held := k.held ||| bit })
  | .setKeyUp bit => (none, { k with held := k.held &&& ~~~bit })
  | .read offset =>
      (some (k.register offset),
        if offset = InputReg.data then { k with pending := k.pending.rest } else k)
  | .write offset value =>
      (none, if offset = InputReg.control then { k with irqEnabled := value.getLsbD 0 } else k)

def run (k : Keyboard) (events : List InputEvent) : Keyboard :=
  events.foldl (fun k e => (k.step e).2) k

def answers : Keyboard → List InputEvent → List (Option Byte)
  | _, [] => []
  | k, e :: events => (k.step e).1 :: answers (k.step e).2 events

theorem held_step {k : Keyboard} {e : InputEvent} (he : e.isKeyState = false) :
    (k.step e).2.held = k.held := by
  cases e with
  | injectKey keyCode => rfl
  | read offset =>
      show (if _ then _ else _ : Keyboard).held = _
      split <;> rfl
  | write offset value =>
      show (if _ then _ else _ : Keyboard).held = _
      split <;> rfl
  | setKeyDown | setKeyUp => cases he

theorem queue_step {k : Keyboard} {e : InputEvent} (he : e.isKeyState = true) :
    (k.step e).2.pending = k.pending ∧ (k.step e).2.irqEnabled = k.irqEnabled := by
  cases e with
  | injectKey | read | write => cases he
  | setKeyDown | setKeyUp => exact ⟨rfl, rfl⟩

end Keyboard

/-! ## The device -/

namespace InputDevice

def step (d : InputDevice) : InputEvent → Option Byte × InputDevice
  | .injectKey keyCode => (none, d.injectKey keyCode)
  | .setKeyDown bit => (none, d.setKeyDown bit)
  | .setKeyUp bit => (none, d.setKeyUp bit)
  | .read offset => (some (d.read offset).1, (d.read offset).2)
  | .write offset value => (none, d.write offset value)

def run (d : InputDevice) (events : List InputEvent) : InputDevice :=
  events.foldl (fun d e => (d.step e).2) d

/-- What the reads of a run return. -/
def answers : InputDevice → List InputEvent → List (Option Byte)
  | _, [] => []
  | d, e :: events => (d.step e).1 :: answers (d.step e).2 events

/-- The keys in the ring, the oldest first. -/
def pending (d : InputDevice) : List Byte := Ring.contents d.queue d.readIdx d.count

/-- The key an event puts into the queue: an injected one, while the queue has room. -/
def accepts (d : InputDevice) : InputEvent → List Byte
  | .injectKey keyCode => if d.count < 16 then [keyCode] else []
  | _ => []

/-- The key an event takes out of the queue: what a read of the data register returns, while there
is one. -/
def delivers (d : InputDevice) : InputEvent → List Byte
  | .read offset => if offset = InputReg.data ∧ d.count ≠ 0 then [(d.read offset).1] else []
  | _ => []

def accepted : InputDevice → List InputEvent → List Byte
  | _, [] => []
  | d, e :: events => d.accepts e ++ accepted (d.step e).2 events

def delivered : InputDevice → List InputEvent → List Byte
  | _, [] => []
  | d, e :: events => d.delivers e ++ delivered (d.step e).2 events

theorem length_pending (d : InputDevice) : d.pending.length = d.count :=
  Ring.length_contents d.queue d.readIdx d.count

theorem pending_injectKey {d : InputDevice} (h : d.count ≠ 16) (keyCode : Byte) :
    (d.injectKey keyCode).pending = d.pending ++ [keyCode] := by
  have hlt : d.count < 16 := lt_of_le_of_ne d.count_le h
  unfold injectKey
  rw [dif_neg h]
  exact Ring.contents_push keyCode hlt d.writeIdx_eq

theorem injectKey_of_full {d : InputDevice} (h : d.count = 16) (keyCode : Byte) :
    d.injectKey keyCode = d :=
  dif_pos h

/-- The first key of the ring is the one under the read index. -/
theorem pending_of_ne_zero {d : InputDevice} (h : d.count ≠ 0) :
    d.pending = d.queue d.readIdx :: d.pop.2.pending := by
  obtain ⟨count, hcount⟩ := Nat.exists_eq_succ_of_ne_zero h
  have hpop : d.pop.2.pending = Ring.contents d.queue (d.readIdx + 1) (d.count - 1) := by
    unfold pop
    rw [dif_neg h]
    rfl
  rw [hpop]
  unfold pending
  rw [hcount]
  rfl

theorem pending_eq_nil {d : InputDevice} (h : d.count = 0) : d.pending = [] := by
  unfold pending
  rw [h]
  rfl

theorem peek_eq (d : InputDevice) : d.peek = d.pending.headD 0 := by
  unfold peek isEmpty
  by_cases h : d.count = 0
  · rw [pending_eq_nil h, h]
    rfl
  · rw [if_neg (by simpa using h), pending_of_ne_zero h]
    rfl

theorem pop_eq (d : InputDevice) :
    d.pop.1 = d.pending.headD 0 ∧ d.pop.2.pending = d.pending.tail := by
  by_cases h : d.count = 0
  · have hpop : d.pop = (0x00, d) := dif_pos h
    rw [hpop, pending_eq_nil h]
    exact ⟨rfl, rfl⟩
  · rw [pending_of_ne_zero h]
    refine ⟨?_, rfl⟩
    unfold pop
    rw [dif_neg h]
    rfl

theorem pop_frame (d : InputDevice) :
    d.pop.2.irqEnabled = d.irqEnabled ∧ d.pop.2.keyState = d.keyState := by
  unfold pop
  split <;> exact ⟨rfl, rfl⟩

theorem isEmpty_eq (d : InputDevice) : d.isEmpty = d.pending.isEmpty := by
  unfold isEmpty
  by_cases h : d.count = 0
  · rw [pending_eq_nil h, h]
    rfl
  · rw [pending_of_ne_zero h]
    simpa using h

end InputDevice

/-! ## Refinement -/

/-- The ring holds the keyboard's queue, and the other fields are its own. -/
structure Refines (d : InputDevice) (k : Keyboard) : Prop where
  pending : d.pending = k.pending.items
  irqEnabled : d.irqEnabled = k.irqEnabled
  held : d.keyState = k.held

namespace Refines

variable {d : InputDevice} {k : Keyboard}

theorem new : Refines .new .new := ⟨rfl, rfl, rfl⟩

theorem count (h : Refines d k) : d.count = k.pending.items.length := by
  rw [← d.length_pending, h.pending]

theorem irqPending (h : Refines d k) : d.irqPending = k.interrupts := by
  unfold InputDevice.irqPending Keyboard.interrupts
  rw [h.irqEnabled, d.isEmpty_eq, h.pending]

theorem statusByte (h : Refines d k) : d.statusByte = k.status := by
  unfold InputDevice.statusByte Keyboard.status InputDevice.isFull
  rw [h.irqPending, d.isEmpty_eq, h.pending, h.count]
  -- three independent bits: every combination is a closed sum
  generalize k.pending.items.isEmpty = empty
  generalize k.interrupts = interrupts
  by_cases hfull : k.pending.items.length = 16
  · rw [hfull]
    revert empty interrupts
    decide
  · rw [beq_eq_false_iff_ne.mpr hfull, if_neg hfull]
    revert empty interrupts
    decide

/-- A register reads alike in both. -/
theorem read_fst (h : Refines d k) (offset : Word) : (d.read offset).1 = k.register offset := by
  have hpeek : d.pending.headD 0 = k.front := congrArg (List.headD · 0) h.pending
  unfold InputDevice.read Keyboard.register
  split_ifs with h1 h2 h3 h4 h5
  · exact h.statusByte
  · exact d.pop_eq.1.trans hpeek
  · exact d.peek_eq.trans hpeek
  · exact congrArg (BitVec.ofNat 8) h.count
  · exact h.held
  · rfl

theorem read_snd (h : Refines d k) (offset : Word) :
    Refines (d.read offset).2 (k.step (.read offset)).2 := by
  by_cases hdata : offset = InputReg.data
  · subst hdata
    -- the pop: the window loses its first place
    obtain ⟨hirq, hheld⟩ := d.pop_frame
    have hread : (d.read InputReg.data).2 = d.pop.2 := rfl
    rw [hread]
    exact ⟨d.pop_eq.2.trans (congrArg List.tail h.pending), hirq.trans h.irqEnabled,
      hheld.trans h.held⟩
  · have hread : (d.read offset).2 = d := by
      unfold InputDevice.read
      split_ifs <;> rfl
    show Refines (d.read offset).2 (if offset = InputReg.data then _ else k)
    rw [hread, if_neg hdata]
    exact h

theorem injectKey (h : Refines d k) (keyCode : Byte) :
    Refines (d.injectKey keyCode) (k.step (.injectKey keyCode)).2 := by
  show Refines _ { k with pending := k.pending.offer keyCode }
  by_cases hfull : d.count = 16
  · -- both drop the key
    rw [InputDevice.injectKey_of_full hfull, BoundedQueue.offer_of_full (h.count ▸ hfull)]
    exact h
  · have hroom : k.pending.items.length ≠ 16 := h.count ▸ hfull
    have hframe : (d.injectKey keyCode).irqEnabled = d.irqEnabled ∧
        (d.injectKey keyCode).keyState = d.keyState := by
      unfold InputDevice.injectKey
      rw [dif_neg hfull]
      exact ⟨rfl, rfl⟩
    refine ⟨?_, hframe.1.trans h.irqEnabled, hframe.2.trans h.held⟩
    rw [InputDevice.pending_injectKey hfull, h.pending]
    exact (BoundedQueue.items_offer hroom keyCode).symm

theorem irqEnable_eq (value : Byte) : (value &&& inputIrqEnable != 0) = value.getLsbD 0 := by
  revert value
  decide +kernel

theorem write (h : Refines d k) (offset : Word) (value : Byte) :
    Refines (d.write offset value) (k.step (.write offset value)).2 := by
  show Refines (if _ then _ else _) (if _ then _ else _)
  split_ifs with hcontrol
  · exact ⟨h.pending, irqEnable_eq value, h.held⟩
  · exact h

/-- One event returns the same and leaves the two related. -/
theorem step (h : Refines d k) (e : InputEvent) :
    (d.step e).1 = (k.step e).1 ∧ Refines (d.step e).2 (k.step e).2 := by
  cases e with
  | injectKey keyCode => exact ⟨rfl, h.injectKey keyCode⟩
  | setKeyDown bit => exact ⟨rfl, h.pending, h.irqEnabled, congrArg (· ||| bit) h.held⟩
  | setKeyUp bit => exact ⟨rfl, h.pending, h.irqEnabled, congrArg (· &&& ~~~bit) h.held⟩
  | read offset => exact ⟨congrArg some (h.read_fst offset), h.read_snd offset⟩
  | write offset value => exact ⟨rfl, h.write offset value⟩

theorem run (h : Refines d k) (events : List InputEvent) :
    d.answers events = k.answers events ∧ Refines (d.run events) (k.run events) := by
  induction events generalizing d k with
  | nil => exact ⟨rfl, h⟩
  | cons e events ih =>
      obtain ⟨hanswer, hstep⟩ := h.step e
      obtain ⟨hanswers, hrun⟩ := ih hstep
      refine ⟨?_, hrun⟩
      show (d.step e).1 :: _ = (k.step e).1 :: _
      rw [hanswer, hanswers]

end Refines

/-! ## Runs from a fresh device -/

namespace Keyboard

/-- The events that leave the keys held down alone can be left out for them. -/
theorem held_run {k k' : Keyboard} (h : k.held = k'.held) (events : List InputEvent) :
    (k.run events).held = (k'.run (events.filter InputEvent.isKeyState)).held := by
  induction events generalizing k k' with
  | nil => exact h
  | cons e events ih =>
      by_cases he : e.isKeyState = true
      · rw [List.filter_cons_of_pos he]
        apply ih
        cases e with
        | injectKey | read | write => cases he
        | setKeyDown bit => exact congrArg (· ||| bit) h
        | setKeyUp bit => exact congrArg (· &&& ~~~bit) h
      · rw [List.filter_cons_of_neg he]
        exact ih ((held_step (Bool.eq_false_iff.mpr he)).trans h)

/-- And the operations on those keys can be left out for the queue and the enable bit. -/
theorem queue_run {k k' : Keyboard} (hp : k.pending = k'.pending)
    (hi : k.irqEnabled = k'.irqEnabled) (events : List InputEvent) :
    (k.run events).pending = (k'.run (events.filter InputEvent.isQueue)).pending ∧
      (k.run events).irqEnabled = (k'.run (events.filter InputEvent.isQueue)).irqEnabled := by
  induction events generalizing k k' with
  | nil => exact ⟨hp, hi⟩
  | cons e events ih =>
      by_cases he : e.isKeyState = true
      · have hout : ¬e.isQueue = true := by simp [InputEvent.isQueue, he]
        rw [List.filter_cons_of_neg hout]
        obtain ⟨hqueue, hbit⟩ := queue_step (k := k) he
        exact ih (hqueue.trans hp) (hbit.trans hi)
      · have hin : e.isQueue = true := by simp [InputEvent.isQueue, he]
        rw [List.filter_cons_of_pos hin]
        apply ih
        · cases e with
          | injectKey keyCode => exact congrArg (·.offer keyCode) hp
          | setKeyDown | setKeyUp => exact hp
          | read offset =>
              show (if _ then _ else _ : Keyboard).pending = (if _ then _ else _ : Keyboard).pending
              split_ifs
              · exact congrArg BoundedQueue.rest hp
              · exact hp
          | write offset value =>
              show (if _ then _ else _ : Keyboard).pending = (if _ then _ else _ : Keyboard).pending
              split_ifs <;> exact hp
        · cases e with
          | injectKey | setKeyDown | setKeyUp => exact hi
          | read offset =>
              show (if _ then _ else _ : Keyboard).irqEnabled =
                (if _ then _ else _ : Keyboard).irqEnabled
              split_ifs <;> exact hi
          | write offset value =>
              show (if _ then _ else _ : Keyboard).irqEnabled =
                (if _ then _ else _ : Keyboard).irqEnabled
              split_ifs
              · rfl
              · exact hi

end Keyboard

namespace InputDevice

/-- One event moves a key into the queue at its end, or out of it at its front. -/
theorem pending_step (d : InputDevice) (e : InputEvent) :
    d.pending ++ d.accepts e = d.delivers e ++ (d.step e).2.pending := by
  have hnil : ∀ keys : List Byte, keys ++ [] = [] ++ keys := fun keys => by simp
  cases e with
  | injectKey keyCode =>
      show d.pending ++ (if d.count < 16 then [keyCode] else []) =
        [] ++ (d.injectKey keyCode).pending
      -- a full queue drops the key
      by_cases hfull : d.count = 16
      · rw [if_neg (by omega), injectKey_of_full hfull]
        exact hnil _
      · rw [if_pos (lt_of_le_of_ne d.count_le hfull), pending_injectKey hfull]
        rfl
  | setKeyDown bit => exact hnil d.pending
  | setKeyUp bit => exact hnil d.pending
  | read offset =>
      show d.pending ++ [] =
        (if offset = InputReg.data ∧ d.count ≠ 0 then [(d.read offset).1] else []) ++
          (d.read offset).2.pending
      -- only DATA takes a key, if there is one
      by_cases hdata : offset = InputReg.data
      · subst hdata
        have hread : d.read InputReg.data = d.pop := rfl
        rw [hread, d.pop_eq.1, d.pop_eq.2, List.append_nil]
        by_cases hcount : d.count = 0
        · rw [if_neg (fun h => h.2 hcount), pending_eq_nil hcount]
          rfl
        · rw [if_pos ⟨rfl, hcount⟩, pending_of_ne_zero hcount]
          rfl
      · have hread : (d.read offset).2 = d := by
          unfold read
          split_ifs <;> rfl
        rw [if_neg (fun h => hdata h.1), hread]
        exact hnil _
  | write offset value =>
      have hwrite : (d.write offset value).pending = d.pending := by
        unfold write
        split_ifs <;> rfl
      show d.pending ++ [] = [] ++ (d.write offset value).pending
      rw [hwrite]
      exact hnil _

/-- What is pending at first and what a run accepts is what it delivers and leaves pending. -/
theorem pending_run (d : InputDevice) (events : List InputEvent) :
    d.pending ++ d.accepted events = d.delivered events ++ (d.run events).pending := by
  induction events generalizing d with
  | nil => simp [accepted, delivered, run]
  | cons e events ih =>
      calc d.pending ++ (d.accepts e ++ (d.step e).2.accepted events)
          = d.delivers e ++ ((d.step e).2.pending ++ (d.step e).2.accepted events) := by
            rw [← List.append_assoc, d.pending_step e, List.append_assoc]
        _ = d.delivers e ++ (d.step e).2.delivered events ++ ((d.step e).2.run events).pending := by
            rw [ih, List.append_assoc]

end InputDevice

/-- What the registers and the interrupt show of a keyboard. -/
structure Shows (d : InputDevice) (k : Keyboard) : Prop where
  pending : d.pending = k.pending.items
  registers : ∀ offset, (d.read offset).1 = k.register offset
  count : d.count = k.pending.items.length
  countRegister : (d.read InputReg.count).1.toNat = k.pending.items.length
  irqPending : d.irqPending = (k.irqEnabled && !k.pending.items.isEmpty)
  keyState : d.keyState = k.held

theorem Refines.shows {d : InputDevice} {k : Keyboard} (h : Refines d k) : Shows d k where
  pending := h.pending
  registers := h.read_fst
  count := h.count
  countRegister := by
    have hle := k.pending.length_le
    show (BitVec.ofNat 8 d.count).toNat = _
    rw [h.count, BitVec.toNat_ofNat]
    exact Nat.mod_eq_of_lt (by omega)
  irqPending := h.irqPending
  keyState := h.held

/-- Every run from a fresh device answers as the keyboard does and ends in a state that shows it;
the keys accepted are those delivered and those still pending, in order; a key is dropped when
sixteen are pending and only then; and the queue and the keys held down do not touch each other. -/
theorem inputDevice_refines (events : List InputEvent) :
    InputDevice.new.answers events = Keyboard.new.answers events ∧
      Shows (InputDevice.new.run events) (Keyboard.new.run events) ∧
      InputDevice.new.accepted events =
        InputDevice.new.delivered events ++ (InputDevice.new.run events).pending ∧
      (∀ keyCode, ((InputDevice.new.run events).pending.length = 16 →
          (InputDevice.new.run events).injectKey keyCode = InputDevice.new.run events) ∧
        ((InputDevice.new.run events).pending.length ≠ 16 →
          ((InputDevice.new.run events).injectKey keyCode).pending =
            (InputDevice.new.run events).pending ++ [keyCode])) ∧
      (InputDevice.new.run events).keyState =
        (InputDevice.new.run (events.filter InputEvent.isKeyState)).keyState ∧
      (InputDevice.new.run events).pending =
        (InputDevice.new.run (events.filter InputEvent.isQueue)).pending ∧
      (InputDevice.new.run events).irqEnabled =
        (InputDevice.new.run (events.filter InputEvent.isQueue)).irqEnabled := by
  have hall := fun events => Refines.new.run events
  obtain ⟨hanswers, hrun⟩ := hall events
  obtain ⟨hqueue, hbit⟩ := @Keyboard.queue_run .new .new rfl rfl events
  refine ⟨hanswers, hrun.shows, ?_, ?_, ?_, ?_, ?_⟩
  · exact InputDevice.new.pending_run events
  · intro keyCode
    rw [InputDevice.length_pending]
    exact ⟨fun h => InputDevice.injectKey_of_full h keyCode,
      fun h => InputDevice.pending_injectKey h keyCode⟩
  · rw [hrun.held, (hall _).2.held]
    exact Keyboard.held_run rfl events
  · rw [hrun.pending, (hall _).2.pending, hqueue]
  · rw [hrun.irqEnabled, (hall _).2.irqEnabled, hbit]

end Irata2.Sim
