import Irata2.Library.Painting
import Irata2.Sim.Devices
import Irata2.Sim.InterruptRuns
import Irata2.Sim.VgcBackend

/-!
# The screen

The vector graphics coprocessor turns stores into drawing calls, and the image backend turns those
into pixels.  After any run a pixel shows the intensity of the last command that covers it, and the
command takes its operands from the stores before it.
-/

namespace Irata2.Sim

open Hdl Library Library.Traces Microcode

/-! ## Calls of the backend -/

namespace ImageBackend

theorem points_loop (l : Line) (i i' : Byte) (fuel : Nat) (s : LineState) (b b' : ImageBackend) :
    (l.loop i fuel s b).map Prod.fst = (l.loop i' fuel s b').map Prod.fst := by
  induction fuel generalizing s b b' with
  | zero => rfl
  | succ fuel ih =>
      by_cases h : s.x = l.targetX ∧ s.y = l.targetY
      · rw [Line.loop_target h, Line.loop_target h]
        rfl
      · rw [Line.loop_next h, Line.loop_next h, Option.map_map, Option.map_map]
        have hrest := ih (l.next s) (b.drawPoint (Line.point s).1 (Line.point s).2 i)
          (b'.drawPoint (Line.point s).1 (Line.point s).2 i')
        -- the points of the rest, with the point of this round in front
        have hcons : ∀ o : Option (List (Byte × Byte) × ImageBackend),
            o.map (Prod.fst ∘ fun r => (Line.point s :: r.1, r.2)) =
              (o.map Prod.fst).map (Line.point s :: ·) := by
          intro o
          cases o <;> rfl
        rw [hcons, hcons, hrest]

/-- No line has more points than the screen is wide. -/
def kRounds : Nat := 256

/-- The points of a line. -/
def linePoints (x0 y0 x1 y1 : Byte) : List (Byte × Byte) :=
  ((new.drawLine kRounds x0 y0 x1 y1 0).map Prod.fst).getD []

/-- `draw_line` draws the points of the line. -/
theorem drawLine_eq (b : ImageBackend) (x0 y0 x1 y1 intensity : Byte) :
    b.drawLine kRounds x0 y0 x1 y1 intensity =
      some (linePoints x0 y0 x1 y1, Line.drawPoints intensity (linePoints x0 y0 x1 y1) b) := by
  have hdraw : ∀ (b : ImageBackend) (i : Byte), b.drawLine kRounds x0 y0 x1 y1 i =
      (Line.between (x0, y0) (x1, y1)).loop i kRounds (Line.start (x0, y0) (x1, y1)) b :=
    fun _ _ => rfl
  have hrounds : Line.rounds (x0, y0) (x1, y1) < kRounds := by
    have heq := @Line.rounds_eq (x0, y0) (x1, y1)
    unfold Line.length at heq
    unfold kRounds
    have hx0 := x0.isLt
    have hy0 := y0.isLt
    have hx1 := x1.isLt
    have hy1 := y1.isLt
    rw [abs_eq_max_neg, abs_eq_max_neg] at heq
    omega
  obtain ⟨-, points, -, hsome⟩ := @Line.loop_start (x0, y0) (x1, y1) intensity b
  have hloop := hsome kRounds hrounds
  have hpoints : linePoints x0 y0 x1 y1 = points := by
    unfold linePoints
    rw [hdraw, points_loop _ 0 intensity kRounds _ _ b, hloop]
    rfl
  rw [hdraw, hloop, hpoints]

/-- A call of the backend; `present` is empty. -/
def call (b : ImageBackend) : VgcCall → ImageBackend
  | .clear intensity => b.clear intensity
  | .drawPoint x y intensity => b.drawPoint x y intensity
  | .drawLine x0 y0 x1 y1 intensity =>
      ((b.drawLine kRounds x0 y0 x1 y1 intensity).map Prod.snd).getD b
  | .present => b

end ImageBackend

namespace VgcCall

open ImageBackend

/-- The points that a call draws. -/
def covers (c : VgcCall) (p : Byte × Byte) : Bool :=
  match c with
  | .clear _ => true
  | .drawPoint x y _ => p == (x, y)
  | .drawLine x0 y0 x1 y1 _ => (linePoints x0 y0 x1 y1).contains p
  | .present => false

def intensity : VgcCall → Byte
  | .clear i | .drawPoint _ _ i | .drawLine _ _ _ _ i => i
  | .present => 0

end VgcCall

namespace ImageBackend

/-- The pixels by their coordinates. -/
def shows (b : ImageBackend) (p : Byte × Byte) : Byte := b.framebuffer (pixel p)

theorem pixel_injective : Function.Injective pixel := by
  intro p q h
  have hval : p.2.toNat * kWidth + p.1.toNat = q.2.toNat * kWidth + q.1.toNat :=
    congrArg Fin.val h
  unfold kWidth at hval
  have hp := p.1.isLt
  have hq := q.1.isLt
  apply Prod.ext
  · apply BitVec.eq_of_toNat_eq
    omega
  · apply BitVec.eq_of_toNat_eq
    omega

/-- A call paints the points that it covers. -/
theorem shows_call (b : ImageBackend) (c : VgcCall) :
    (b.call c).shows = Painting.paint VgcCall.covers VgcCall.intensity b.shows c := by
  funext p
  show _ = if c.covers p then c.intensity else b.shows p
  cases c with
  | clear i => rfl
  | present => rfl
  | drawPoint x y i =>
      show (b.drawPoint x y i).framebuffer (pixel p) = if p == (x, y) then i else _
      rw [drawPoint_eq]
      by_cases hp : p = (x, y)
      · rw [hp, if_pos (beq_self_eq_true _)]
        exact Function.update_self ..
      · have hne : pixel p ≠ pixel (x, y) := fun h => hp (pixel_injective h)
        have hbeq : ¬(p == (x, y)) = true := fun h => hp (eq_of_beq h)
        rw [if_neg hbeq]
        show Function.update b.framebuffer (pixel (x, y)) i (pixel p) = b.framebuffer (pixel p)
        rw [Function.update_of_ne hne]
  | drawLine x0 y0 x1 y1 i =>
      show (((b.drawLine kRounds x0 y0 x1 y1 i).map Prod.snd).getD b).framebuffer (pixel p) =
        if (linePoints x0 y0 x1 y1).contains p then i else _
      rw [drawLine_eq]
      show (Line.drawPoints i (linePoints x0 y0 x1 y1) b).framebuffer (pixel p) = _
      generalize linePoints x0 y0 x1 y1 = points
      rw [framebuffer_drawPoints]
      by_cases hp : p ∈ points
      · have hsome : ∃ q ∈ points, pixel q = pixel p := Exists.intro p ⟨hp, Eq.refl (pixel p)⟩
        rw [if_pos hsome, if_pos (List.contains_iff_mem.mpr hp)]
      · have hnone : ¬∃ q ∈ points, pixel q = pixel p := by
          rintro ⟨q, hq, hqp⟩
          cases pixel_injective hqp
          exact hp hq
        rw [if_neg hnone, if_neg (fun h => hp (List.contains_iff_mem.mp h))]
        rfl

/-- The screen after some calls. -/
def screen (calls : List VgcCall) : ImageBackend := calls.foldl call new

/-- A pixel shows the last call that covers it. -/
theorem shows_screen (calls : List VgcCall) :
    (screen calls).shows = Painting.shown VgcCall.covers VgcCall.intensity calls fun _ => 0 := by
  have hfold : ∀ (calls : List VgcCall) (b : ImageBackend), (calls.foldl call b).shows =
      calls.foldl (Painting.paint VgcCall.covers VgcCall.intensity) b.shows := by
    intro calls
    induction calls with
    | nil => exact fun _ => rfl
    | cons c calls ih =>
        intro b
        rw [List.foldl_cons, List.foldl_cons, ih, shows_call]
  unfold screen
  rw [hfold, Painting.foldl_paint]
  rfl

end ImageBackend

/-! ## Registers and commands -/

/-- A store to a register of the device: the offset and the byte. -/
abbrev RegisterWrite := Word × Byte

def writesTo (w : RegisterWrite) (r : Word) : Bool := w.1 == r

/-- The byte that a register has been given last. -/
def lastWrite (ws : List RegisterWrite) (r : Word) : Byte :=
  Painting.shown writesTo Prod.snd ws (fun _ => 0) r

theorem lastWrite_concat (ws : List RegisterWrite) (w : RegisterWrite) (r : Word) :
    lastWrite (ws ++ [w]) r = if w.1 = r then w.2 else lastWrite ws r := by
  unfold lastWrite
  by_cases h : w.1 = r
  · have hw : writesTo w r = true := beq_iff_eq.mpr h
    rw [if_pos h, Painting.shown_concat_of_covers hw]
  · have hw : ¬writesTo w r = true := fun heq => h (eq_of_beq heq)
    rw [if_neg h, Painting.shown_concat_of_not_covers hw]

/-- The intensity of the colour that is selected. -/
def selected (before : List RegisterWrite) : Byte := lastWrite before VgcReg.color &&& 0x03

/-- The command in the registers. -/
def commandOf (before : List RegisterWrite) : List VgcCall :=
  if lastWrite before VgcReg.cmd = VgcCmd.clear then [.clear (selected before)]
  else if lastWrite before VgcReg.cmd = VgcCmd.point then
    [.drawPoint (lastWrite before VgcReg.x0) (lastWrite before VgcReg.y0) (selected before)]
  else if lastWrite before VgcReg.cmd = VgcCmd.line then
    [.drawLine (lastWrite before VgcReg.x0) (lastWrite before VgcReg.y0)
      (lastWrite before VgcReg.x1) (lastWrite before VgcReg.y1) (selected before)]
  else []

/-- What the bits of the control register ask for. -/
def controlOf (before : List RegisterWrite) (control : Byte) : List VgcCall :=
  (if control &&& VgcControl.clear != 0 then [.clear (selected before)] else []) ++
    if control &&& VgcControl.present != 0 then [.present] else []

/-- The calls that a store causes, with the operands from the stores before it. -/
def callsOf (before : List RegisterWrite) (w : RegisterWrite) : List VgcCall :=
  if w.1 = VgcReg.exec then (if w.2 = 0x01 then commandOf before else [])
  else if w.1 = VgcReg.control then controlOf before w.2
  else []

/-- The calls that some stores cause, behind others. -/
def displayFrom (before : List RegisterWrite) : List RegisterWrite → List VgcCall
  | [] => []
  | w :: ws => callsOf before w ++ displayFrom (before ++ [w]) ws

def display (ws : List RegisterWrite) : List VgcCall := displayFrom [] ws

theorem displayFrom_append (before ws ws' : List RegisterWrite) :
    displayFrom before (ws ++ ws') = displayFrom before ws ++ displayFrom (before ++ ws) ws' := by
  induction ws generalizing before with
  | nil =>
      rw [List.append_nil]
      rfl
  | cons w ws ih =>
      show callsOf before w ++ displayFrom (before ++ [w]) (ws ++ ws') = _
      rw [ih, List.append_assoc, List.singleton_append, ← List.append_assoc]
      rfl

theorem display_concat (ws : List RegisterWrite) (w : RegisterWrite) :
    display (ws ++ [w]) = display ws ++ callsOf ws w := by
  unfold display
  rw [displayFrom_append]
  exact congrArg _ (List.append_nil _)

theorem selected_le (before : List RegisterWrite) : selected before ≤ 3 := by
  unfold selected
  generalize lastWrite before VgcReg.color = colour
  have hand : (colour &&& 0x03).toNat ≤ 3 := by
    rw [BitVec.toNat_and]
    exact Nat.and_le_right
  exact BitVec.le_def.mpr hand

theorem intensity_callsOf {before : List RegisterWrite} {w : RegisterWrite} {c : VgcCall}
    (h : c ∈ callsOf before w) : c.intensity = selected before ∨ c.intensity = 0 := by
  unfold callsOf at h
  split_ifs at h
  · -- a command has the colour that is selected
    left
    unfold commandOf at h
    split_ifs at h
    · cases List.mem_singleton.mp h
      rfl
    · cases List.mem_singleton.mp h
      rfl
    · cases List.mem_singleton.mp h
      rfl
    · cases h
  · cases h
  · unfold controlOf at h
    obtain h | h := List.mem_append.mp h
    · left
      split at h
      · cases List.mem_singleton.mp h
        rfl
      · cases h
    · right
      split at h
      · cases List.mem_singleton.mp h
        rfl
      · cases h
  · cases h

/-- The device asks for the four intensities of the palette only. -/
theorem intensity_display {ws : List RegisterWrite} {c : VgcCall} (h : c ∈ display ws) :
    c.intensity ≤ 3 := by
  induction ws using List.reverseRecOn with
  | nil => cases h
  | append_singleton ws w ih =>
      rw [display_concat, List.mem_append] at h
      obtain h | h := h
      · exact ih h
      · obtain hcall | hcall := intensity_callsOf h
        · rw [hcall]
          exact selected_le ws
        · rw [hcall]
          decide

namespace VectorGraphicsCoprocessor

/-- The registers that hold the operands of a command. -/
def operands : List Word :=
  [VgcReg.cmd, VgcReg.x0, VgcReg.y0, VgcReg.x1, VgcReg.y1, VgcReg.color]

def operand (d : VectorGraphicsCoprocessor) (r : Word) : Byte :=
  if r = VgcReg.cmd then d.cmd
  else if r = VgcReg.x0 then d.x0
  else if r = VgcReg.y0 then d.y0
  else if r = VgcReg.x1 then d.x1
  else if r = VgcReg.y1 then d.y1
  else d.color

/-- The device has seen these stores. -/
structure Seen (ws : List RegisterWrite) (d : VectorGraphicsCoprocessor) : Prop where
  operand : ∀ r ∈ operands, d.operand r = lastWrite ws r
  calls : d.calls = display ws

theorem seen_new : Seen [] new where
  operand := by
    intro r _
    show _ = (0 : Byte)
    unfold VectorGraphicsCoprocessor.operand
    split_ifs <;> rfl
  calls := rfl

theorem operand_write (d : VectorGraphicsCoprocessor) {offset r : Word} (value : Byte)
    (ho : offset ∈ operands) (hr : r ∈ operands) :
    (d.write offset value).operand r = if offset = r then value else d.operand r := by
  simp only [operands, List.mem_cons, List.not_mem_nil, or_false] at ho hr
  obtain rfl | rfl | rfl | rfl | rfl | rfl := ho <;>
    obtain rfl | rfl | rfl | rfl | rfl | rfl := hr <;> rfl

theorem calls_write_operand (d : VectorGraphicsCoprocessor) {offset : Word} (value : Byte)
    (ho : offset ∈ operands) : (d.write offset value).calls = d.calls := by
  simp only [operands, List.mem_cons, List.not_mem_nil, or_false] at ho
  obtain rfl | rfl | rfl | rfl | rfl | rfl := ho <;> rfl

theorem operand_executeCommand (d : VectorGraphicsCoprocessor) (r : Word) :
    d.executeCommand.operand r = d.operand r := by
  unfold executeCommand
  split_ifs <;> rfl

theorem operand_applyControl (d : VectorGraphicsCoprocessor) (control : Byte) (r : Word) :
    (d.applyControl control).operand r = d.operand r := by
  unfold applyControl
  split_ifs <;> rfl

theorem Seen.intensity {ws : List RegisterWrite} {d : VectorGraphicsCoprocessor} (h : Seen ws d) :
    d.intensity = selected ws := by
  unfold VectorGraphicsCoprocessor.intensity selected
  rw [← h.operand VgcReg.color (by decide)]
  rfl

theorem calls_executeCommand {ws : List RegisterWrite} {d : VectorGraphicsCoprocessor}
    (h : Seen ws d) : d.executeCommand.calls = display ws ++ commandOf ws := by
  have hregister : ∀ r (_ : r ∈ operands), lastWrite ws r = d.operand r :=
    fun r hr => (h.operand r hr).symm
  unfold commandOf
  rw [hregister VgcReg.cmd (by decide), hregister VgcReg.x0 (by decide),
    hregister VgcReg.y0 (by decide), hregister VgcReg.x1 (by decide),
    hregister VgcReg.y1 (by decide), ← h.intensity, ← h.calls]
  show (if d.cmd = _ then _ else if d.cmd = _ then _ else if d.cmd = _ then _ else d).calls =
    d.calls ++ if d.cmd = _ then _ else if d.cmd = _ then _ else if d.cmd = _ then _ else []
  split_ifs
  · rfl
  · rfl
  · rfl
  · exact (List.append_nil _).symm

theorem calls_applyControl {ws : List RegisterWrite} {d : VectorGraphicsCoprocessor}
    (h : Seen ws d) (control : Byte) :
    (d.applyControl control).calls = display ws ++ controlOf ws control := by
  unfold controlOf
  rw [← h.calls, ← h.intensity]
  unfold applyControl
  split
  · split
    · exact List.append_assoc _ _ _
    · rfl
  · split
    · rfl
    · exact (List.append_nil _).symm

theorem callsOf_operand (ws : List RegisterWrite) {w : RegisterWrite} (h : w.1 ∈ operands) :
    callsOf ws w = [] := by
  obtain ⟨offset, value⟩ := w
  simp only [operands, List.mem_cons, List.not_mem_nil, or_false] at h
  obtain rfl | rfl | rfl | rfl | rfl | rfl := h <;> rfl

/-- A store to the device is one more store that it has seen. -/
theorem Seen.write {ws : List RegisterWrite} {d : VectorGraphicsCoprocessor} (h : Seen ws d)
    (w : RegisterWrite) : Seen (ws ++ [w]) (d.write w.1 w.2) := by
  by_cases hoperand : w.1 ∈ operands
  · have hnone : callsOf ws w = [] := callsOf_operand ws hoperand
    refine ⟨?_, ?_⟩
    · intro r hr
      rw [lastWrite_concat, d.operand_write w.2 hoperand hr, h.operand r hr]
    · rw [display_concat, hnone, List.append_nil, d.calls_write_operand w.2 hoperand]
      exact h.calls
  · have hkeep : ∀ r ∈ operands, lastWrite (ws ++ [w]) r = d.operand r := by
      intro r hr
      have hne : w.1 ≠ r := fun heq => hoperand (heq ▸ hr)
      rw [lastWrite_concat, if_neg hne, h.operand r hr]
    simp only [operands, List.mem_cons, List.not_mem_nil, or_false, not_or] at hoperand
    obtain ⟨h0, h1, h2, h3, h4, h5⟩ := hoperand
    have hwrite : d.write w.1 w.2 =
        if w.1 = VgcReg.exec then (if w.2 = 0x01 then d.executeCommand else d)
        else if w.1 = VgcReg.control then d.applyControl w.2 else d := by
      unfold VectorGraphicsCoprocessor.write
      rw [if_neg h0, if_neg h1, if_neg h2, if_neg h3, if_neg h4, if_neg h5]
    rw [hwrite]
    -- the calls of the store follow those of the stores before it
    refine ⟨?_, ?_⟩
    · intro r hr
      rw [hkeep r hr]
      split_ifs
      · exact d.operand_executeCommand r
      · rfl
      · exact d.operand_applyControl w.2 r
      · rfl
    · rw [display_concat]
      unfold callsOf
      split_ifs
      · exact calls_executeCommand h
      · rw [List.append_nil]
        exact h.calls
      · exact calls_applyControl h w.2
      · rw [List.append_nil]
        exact h.calls

/-- An event on the bus: only stores change the device. -/
def step (d : VectorGraphicsCoprocessor) : InputEvent → Option Byte × VectorGraphicsCoprocessor
  | .read offset => (some (d.read offset), d)
  | .write offset value => (none, d.write offset value)
  | .injectKey _ | .setKeyDown _ | .setKeyUp _ => (none, d)

/-- The stores among the events of the device. -/
def registerWrites (log : List (InputEvent × Option Byte)) : List RegisterWrite :=
  log.filterMap fun e =>
    match e.1 with
    | .write offset value => some (offset, value)
    | .read _ | .injectKey _ | .setKeyDown _ | .setKeyUp _ => none

theorem registerWrites_concat (log : List (InputEvent × Option Byte))
    (e : InputEvent × Option Byte) :
    registerWrites (log ++ [e]) = registerWrites log ++ registerWrites [e] :=
  List.filterMap_append

/-- An event is seen if it is a store. -/
theorem Seen.step {log : List (InputEvent × Option Byte)} {d d' : VectorGraphicsCoprocessor}
    {e : InputEvent} {o : Option Byte} (h : Seen (registerWrites log) d)
    (hstep : d.step e = (o, d')) : Seen (registerWrites (log ++ [(e, o)])) d' := by
  rw [registerWrites_concat]
  cases e with
  | write offset value =>
      cases hstep
      exact h.write (offset, value)
  | read | injectKey | setKeyDown | setKeyUp =>
      cases hstep
      show Seen (registerWrites log ++ []) d
      rw [List.append_nil]
      exact h

/-- After any events the device has seen their stores. -/
theorem seen_logs {log : List (InputEvent × Option Byte)} {d : VectorGraphicsCoprocessor}
    (h : Logs step new log d) : Seen (registerWrites log) d :=
  h.invariant (fun log d => Seen (registerWrites log) d)
    (fun hseen hstep => hseen.step hstep) (show Seen (registerWrites []) new from seen_new)

end VectorGraphicsCoprocessor

/-! ## The device on the bus -/

namespace Module

def asVgc {size : Nat} : Module size → Option VectorGraphicsCoprocessor
  | .vectorGraphicsCoprocessor d => some d
  | .ram _ | .rom _ | .inputDevice _ => none

variable {size : Nat} {m m' : Module size} {address : Word} {v : Byte}
  {d : VectorGraphicsCoprocessor}

theorem size_of_asVgc (hd : m.asVgc = some d) : size = mmioSize := by
  cases m with
  | vectorGraphicsCoprocessor d => rfl
  | ram cells | rom storage | inputDevice d => cases hd

theorem asVgc_read {path : String} (hd : m.asVgc = some d)
    (h : m.read path address = .ok (v, m')) :
    ∃ d', d.step (.read address) = (some v, d') ∧ m'.asVgc = some d' := by
  cases m with
  | vectorGraphicsCoprocessor d =>
      cases hd
      cases h
      exact ⟨_, rfl, rfl⟩
  | ram cells | rom storage | inputDevice d => cases hd

theorem asVgc_write (hd : m.asVgc = some d) (h : m.write address v = .ok m') :
    ∃ d', d.step (.write address v) = (none, d') ∧ m'.asVgc = some d' := by
  cases m with
  | vectorGraphicsCoprocessor d =>
      cases hd
      cases h
      exact ⟨_, rfl, rfl⟩
  | ram cells | rom storage | inputDevice d => cases hd

theorem asVgc_host (i : HostInput) (hd : m.asVgc = some d) :
    ∃ d', d.step i.event = (none, d') ∧ (m.host i).asVgc = some d' := by
  cases m with
  | vectorGraphicsCoprocessor d =>
      cases hd
      refine ⟨d, ?_, rfl⟩
      cases i <;> rfl
  | ram cells | rom storage | inputDevice d => cases hd

end Module

def DeviceKind.vgc : DeviceKind VectorGraphicsCoprocessor where
  get := Module.asVgc
  step := VectorGraphicsCoprocessor.step
  size_of_get := Module.size_of_asVgc
  read := Module.asVgc_read
  write := Module.asVgc_write
  host := Module.asVgc_host

namespace Cpu

open VectorGraphicsCoprocessor

section Compiled

variable {c : Compiler} {is : InstructionSet} {p : MicrocodeProgram} {cpu cpu' : Cpu}
  {log : List BusEvent} {index : Nat} {base : Word}

/-- In a run the device has seen the stores to its registers. -/
theorem exists_seen (hc : c.compile is = .ok p) (hload : cpu.Loaded p)
    (hnew : cpu.datapath.memory.device .vgc index base = some .new)
    (hrun : EventRun cpu log cpu') :
    ∃ d, cpu'.datapath.memory.device .vgc index base = some d ∧
      Seen (registerWrites (deviceTraffic index base log)) d := by
  obtain ⟨d, hd, hlogs⟩ := hrun.device hc hload hnew
  exact ⟨d, hd, seen_logs hlogs⟩

/-- In every run from a fresh device, a pixel shows the last drawing command of the stores that
covers it, in one of four intensities. -/
theorem screen_of_run (hc : c.compile is = .ok p) (hload : cpu.Loaded p)
    (hnew : cpu.datapath.memory.device .vgc index base = some .new)
    (hrun : EventRun cpu log cpu') :
    ∃ d, cpu'.datapath.memory.device .vgc index base = some d ∧
      ∀ point, (ImageBackend.screen d.calls).shows point =
          Painting.shown VgcCall.covers VgcCall.intensity
            (display (registerWrites (deviceTraffic index base log))) (fun _ => 0) point ∧
        (ImageBackend.screen d.calls).shows point ≤ 3 := by
  obtain ⟨d, hd, hseen⟩ := exists_seen hc hload hnew hrun
  refine ⟨d, hd, fun point => ?_⟩
  rw [ImageBackend.shows_screen, hseen.calls]
  refine ⟨rfl, ?_⟩
  have hcanvas : (0 : Byte) ≤ 3 := by decide
  exact Painting.shown_of_forall (P := fun i => i ≤ 3) (fun c hmem => intensity_display hmem)
    (fun _ => hcanvas) point

end Compiled

theorem aligned_vgc : (0x4100 : Word).toNat % mmioSize = 0 := by decide

def vgcRegion : Region :=
  ⟨"vgc", 0x4100, mmioSize, .vectorGraphicsCoprocessor .new, isPowerOfTwo_mmio, aligned_vgc⟩

/-- A program that draws a point: LDA #$02, STA $4100, STA $4105, LDA #$01, STA $4106. -/
def pointRom : List Byte :=
  [0x10, 0x02, 0x51, 0x00, 0x41, 0x51, 0x05, 0x41, 0x10, 0x01, 0x51, 0x06, 0x41, 0xFF, 0xFF, 0xFF]

theorem isPowerOfTwo_pointRom : isPowerOfTwo pointRom.length = true := by decide

theorem aligned_pointRom : (0x8000 : Word).toNat % pointRom.length = 0 := by decide

def pointCartridge : Region :=
  ⟨"cartridge", 0x8000, pointRom.length, .rom pointRom.get, isPowerOfTwo_pointRom, aligned_pointRom⟩

def pointMemory : Memory :=
  ⟨[ramRegion, pointCartridge, vgcRegion], disjoint_of_firstOverlap (by rfl)⟩

/-- The stores of the program to the device. -/
def pointWrites : List RegisterWrite := [(VgcReg.cmd, 2), (VgcReg.color, 2), (VgcReg.exec, 1)]

theorem tickEvents_point :
    (tickEvents 37 ((initial pointMemory accumulatorMemory).setEntry 0x8000)).map
      (fun r => registerWrites (deviceTraffic 2 0x4100 r.1)) = some pointWrites := by
  decide +kernel

/-- The point at the origin gets the colour of the program, and no other is drawn. -/
theorem screen_of_run_point : ∃ cpu cpu' log d,
    Cpu.new accumulatorProgram pointRom [vgcRegion] = .ok cpu ∧
      EventRun (cpu.setEntry 0x8000) log cpu' ∧
      registerWrites (deviceTraffic 2 0x4100 log) = pointWrites ∧
      cpu'.datapath.memory.device .vgc 2 0x4100 = some d ∧
      (ImageBackend.screen d.calls).shows (0, 0) = 2 ∧
      (ImageBackend.screen d.calls).shows (1, 0) = 0 := by
  have hcartridge : newCartridgeRegion pointRom = .ok pointCartridge := by rfl
  have hmemory : Memory.new [ramRegion, pointCartridge, vgcRegion] = .ok pointMemory := by rfl
  have hnew := new_accumulator hcartridge hmemory
  have hdevice : ((initial pointMemory accumulatorMemory).setEntry
      0x8000).datapath.memory.device .vgc 2 0x4100 = some .new := by
    rfl
  obtain ⟨⟨log, cpu'⟩, hticks, hwrites⟩ := Option.map_eq_some_iff.mp tickEvents_point
  have hrun := eventRun_tickEvents hticks
  obtain ⟨d, hd, hshows⟩ := screen_of_run compile_accumulatorSet
    (loaded_setEntry (loaded_new hnew) 0x8000) hdevice hrun
  -- the stores are known, so the screen is that of their commands
  have hdraws : ∀ point, (ImageBackend.screen d.calls).shows point =
      Painting.shown VgcCall.covers VgcCall.intensity (display pointWrites) (fun _ => 0) point := by
    intro point
    rw [(hshows point).1, ← hwrites]
  refine ⟨_, cpu', log, d, hnew, hrun, hwrites, hd, ?_, ?_⟩
  · rw [hdraws]
    decide
  · rw [hdraws]
    decide

end Cpu

end Irata2.Sim
