import Irata2.Library.Table
import Irata2.Microcode.Ir
import Mathlib.Data.List.Sort

/-!
# Microcode dumps

The decoder sorts the keys of a program's table and prints one line for each entry, below headers
for its opcode and its status.  A header is printed when the opcode or the status differs from the
one before, and both are compared with 255 at the start.
-/

namespace Irata2.Microcode

open Library

/-- The key of an encoded key. -/
def decodeKey (encoded : Nat) : MicrocodeKey where
  opcode := BitVec.ofNat 8 (encoded >>> 16)
  step := BitVec.ofNat 8 (encoded >>> 8)
  status := BitVec.ofNat 8 encoded

/-- What a dump writes at a time, whatever its format. -/
inductive DumpLine
  | blank
  | opcode (n : Nat)
  | status (flags : String)
  | step (n : Nat) (controls : List String)
  deriving DecidableEq, Repr

namespace Decoder

section Source

variable (program : MicrocodeProgram)

def decodeControlWord (controlWord : ControlWord) : List String :=
  (program.controlPaths.zipIdx.filter fun c => controlWord.getLsbD c.2).map (·.1)

def decodeStatusBits (status : Byte) : String :=
  if status = 0 then "default"
  else ",".intercalate ((program.statusBits.filter fun b => status.getLsbD b.bit).map (·.name))

/-- The order of the program's keys. -/
def programLess (a b : MicrocodeKey) : Bool :=
  if a.opcode ≠ b.opcode then a.opcode < b.opcode
  else if a.status ≠ b.status then a.status < b.status
  else a.step < b.step

/-- The order of the keys of one opcode. -/
def instructionLess (a b : MicrocodeKey) : Bool :=
  if a.status ≠ b.status then a.status < b.status else a.step < b.step

def keys : List MicrocodeKey := program.table.map fun e => decodeKey e.1

def programKeys : List MicrocodeKey := (keys program).insertionSort fun a b => programLess b a = false

def instructionKeys (opcode : Byte) : List MicrocodeKey :=
  ((keys program).filter (·.opcode = opcode)).insertionSort fun a b => instructionLess b a = false

/-- The status header and the step of a key; the lookup fails where `at` throws. -/
def dumpKey (currentStatus : Byte) (key : MicrocodeKey) : Option (List DumpLine) := do
  let header := if key.status ≠ currentStatus then
    [DumpLine.status (decodeStatusBits program key.status)] else []
  let controlWord ← program.table.lookup (encodeKey key)
  pure (header ++ [.step key.step.toNat (decodeControlWord program controlWord)])

/-- The loop of `DumpProgram` and of `DumpProgramYaml`. -/
def programLoop (currentOpcode currentStatus : Byte) :
    List MicrocodeKey → Option (List DumpLine)
  | [] => some []
  | key :: keys => do
      let header := if key.opcode ≠ currentOpcode then
        (if currentOpcode ≠ 255 then [DumpLine.blank] else []) ++ [.opcode key.opcode.toNat] else []
      -- a new opcode begins without a status
      let currentStatus := if key.opcode ≠ currentOpcode then 255 else currentStatus
      let lines ← dumpKey program currentStatus key
      let rest ← programLoop key.opcode key.status keys
      pure (header ++ lines ++ rest)

/-- The loop of `DumpInstruction` and of `DumpInstructionYaml`. -/
def instructionLoop (currentStatus : Byte) : List MicrocodeKey → Option (List DumpLine)
  | [] => some []
  | key :: keys => do
      let lines ← dumpKey program currentStatus key
      let rest ← instructionLoop key.status keys
      pure (lines ++ rest)

def programLines : Option (List DumpLine) := programLoop program 255 255 (programKeys program)

def instructionLines (opcode : Byte) : Option (List DumpLine) :=
  instructionLoop program 255 (instructionKeys program opcode)

/-! ## The four texts -/

/-- The lines that the text of a dump is written as. -/
def plainText : DumpLine → List String
  | .blank => [""]
  | .opcode n => ["opcode " ++ toString n ++ ":"]
  | .status flags => ["  status " ++ flags ++ ":"]
  | .step n controls => ["    step " ++ toString n ++ ": [" ++ ", ".intercalate controls ++ "]"]

/-- The lines of a YAML dump, which has no blank ones. -/
def yamlText (indent : String) (opcodeHeader : Nat → String) : DumpLine → List String
  | .blank => []
  | .opcode n => [opcodeHeader n]
  | .status flags => [indent ++ "  status_" ++ flags ++ ":", indent ++ "    steps:"]
  | .step n controls =>
      (indent ++ "      - stage: " ++ toString n) :: (indent ++ "        controls:") ::
        controls.map fun control => indent ++ "          - " ++ control

def programYamlText : DumpLine → List String := yamlText "  " fun n => "  " ++ toString n ++ ":"

def instructionYamlText : DumpLine → List String :=
  yamlText "" fun n => "opcode_" ++ toString n ++ ":"

/-- A text of lines that each end in a newline. -/
def text (lines : List String) : String := String.join (lines.map (· ++ "\n"))

def dumpProgram : Option String :=
  (programLines program).map fun lines => text (lines.flatMap plainText)

def dumpInstruction (opcode : Byte) : Option String :=
  if instructionKeys program opcode = [] then
    some (text ["opcode " ++ toString opcode.toNat ++ ": (no microcode)"])
  else
    (instructionLines program opcode).map fun lines =>
      text ((.opcode opcode.toNat :: lines).flatMap plainText)

def dumpProgramYaml : Option String :=
  if programKeys program = [] then some (text ["opcodes: \x7b\x7d"])
  else
    (programLines program).map fun lines => text ("opcodes:" :: lines.flatMap programYamlText)

def dumpInstructionYaml (opcode : Byte) : Option String :=
  if instructionKeys program opcode = [] then
    some (text ["opcode_" ++ toString opcode.toNat ++ ": null"])
  else
    (instructionLines program opcode).map fun lines =>
      text ((.opcode opcode.toNat :: lines).flatMap instructionYamlText)

end Source

/-! ## What a dump lists -/

/-- A step of a dump, under the headers of its opcode and its status. -/
structure Entry where
  opcode : Option Nat
  status : Option String
  step : Nat
  controls : List String
  deriving DecidableEq, Repr

/-- The entries of a dump; a new opcode takes the status header away. -/
def entries (opcode : Option Nat) (status : Option String) : List DumpLine → List Entry
  | [] => []
  | .blank :: lines => entries opcode status lines
  | .opcode n :: lines => entries (some n) none lines
  | .status flags :: lines => entries opcode (some flags) lines
  | .step n controls :: lines => ⟨opcode, status, n, controls⟩ :: entries opcode status lines

variable {program : MicrocodeProgram}

/-- How an entry of the table should be listed. -/
def entryOf (program : MicrocodeProgram) (e : Nat × ControlWord) : Entry where
  opcode := some (e.1 / 65536)
  status := some (decodeStatusBits program (BitVec.ofNat 8 e.1))
  step := e.1 / 256 % 256
  controls := decodeControlWord program e.2

/-- How a key should be listed. -/
def ownEntry (program : MicrocodeProgram) (key : MicrocodeKey) : Entry where
  opcode := some key.opcode.toNat
  status := some (decodeStatusBits program key.status)
  step := key.step.toNat
  controls := decodeControlWord program ((program.table.lookup (encodeKey key)).getD 0)

/-- Both headers stand above the step. -/
def Entry.Headed (e : Entry) : Prop := e.opcode ≠ none ∧ e.status ≠ none

/-! ## The loop -/

theorem dumpKey_eq_some {currentStatus : Byte} {key : MicrocodeKey} {lines : List DumpLine} :
    dumpKey program currentStatus key = some lines ↔
      ∃ word, program.table.lookup (encodeKey key) = some word ∧
        lines = (if key.status ≠ currentStatus then
          [DumpLine.status (decodeStatusBits program key.status)] else []) ++
            [.step key.step.toNat (decodeControlWord program word)] := by
  unfold dumpKey
  cases program.table.lookup (encodeKey key) with
  | none => simp
  | some word => simp [eq_comm]

theorem entries_opcodeHeader (new : Prop) [Decidable new] (blank : Bool) (n : Nat)
    (opcode : Option Nat) (status : Option String) (lines : List DumpLine) :
    entries opcode status
        ((if new then (if blank then [DumpLine.blank] else []) ++ [.opcode n] else []) ++ lines) =
      entries (if new then some n else opcode) (if new then none else status) lines := by
  by_cases hnew : new
  · cases blank <;> simp [hnew, entries]
  · simp [hnew]

theorem entries_statusHeader (new : Prop) [Decidable new] (flags : String) (opcode : Option Nat)
    (status : Option String) (lines : List DumpLine) :
    entries opcode status ((if new then [DumpLine.status flags] else []) ++ lines) =
      entries opcode (if new then some flags else status) lines := by
  by_cases hnew : new
  · simp [hnew, entries]
  · simp [hnew]

/-- The header above the next step names the opcode that the loop compares with, or there is none
yet. -/
def ShowsOpcode (opcode : Option Nat) (currentOpcode : Byte) : Prop :=
  opcode = some currentOpcode.toNat ∨ opcode = none ∧ currentOpcode = 255

def ShowsStatus (program : MicrocodeProgram) (status : Option String) (currentStatus : Byte) : Prop :=
  status = some (decodeStatusBits program currentStatus) ∨ status = none ∧ currentStatus = 255

/-- There is an opcode header above the key's step. -/
def HasOpcode (opcode : Option Nat) (currentOpcode : Byte) (key : MicrocodeKey) : Prop :=
  opcode = none → key.opcode ≠ currentOpcode

/-- There is a status header above the key's step. -/
def HasStatus (status : Option String) (currentOpcode currentStatus : Byte) (key : MicrocodeKey) :
    Prop :=
  if key.opcode = currentOpcode then status = none → key.status ≠ currentStatus
  else key.status ≠ 255

instance (opcode : Option Nat) (currentOpcode : Byte) (key : MicrocodeKey) :
    Decidable (HasOpcode opcode currentOpcode key) :=
  inferInstanceAs (Decidable (_ → _))

instance (status : Option String) (currentOpcode currentStatus : Byte) (key : MicrocodeKey) :
    Decidable (HasStatus status currentOpcode currentStatus key) :=
  inferInstanceAs (Decidable (if key.opcode = currentOpcode then _ → _ else _ ≠ _))

section Step

variable {currentOpcode currentStatus : Byte} {opcode : Option Nat} {status : Option String}
  {key : MicrocodeKey} {keys : List MicrocodeKey} {lines : List DumpLine}

/-- The header that the loop leaves above the key's step is the key's own, if there is one. -/
theorem opcode_above (h : ShowsOpcode opcode currentOpcode) :
    (if key.opcode ≠ currentOpcode then some key.opcode.toNat else opcode) =
      if HasOpcode opcode currentOpcode key then some key.opcode.toNat else none := by
  unfold HasOpcode
  by_cases hnew : key.opcode = currentOpcode
  · rcases h with rfl | ⟨rfl, -⟩
    · simp [hnew]
    · simp [hnew]
  · simp [hnew]

theorem status_above (h : ShowsStatus program status currentStatus) :
    (if key.status ≠ (if key.opcode ≠ currentOpcode then 255 else currentStatus) then
        some (decodeStatusBits program key.status)
      else if key.opcode ≠ currentOpcode then none else status) =
      if HasStatus status currentOpcode currentStatus key then
        some (decodeStatusBits program key.status)
      else none := by
  unfold HasStatus
  by_cases hnew : key.opcode = currentOpcode
  · by_cases hsame : key.status = currentStatus
    · rcases h with rfl | ⟨rfl, -⟩
      · simp [hnew, hsame]
      · simp [hnew, hsame]
    · simp [hnew, hsame]
  · simp only [ne_eq, hnew, not_false_eq_true, if_true, if_false]

/-- A key of the loop adds one entry, below its own headers as far as they are there. -/
theorem entries_programLoop_cons (hopcode : ShowsOpcode opcode currentOpcode)
    (hstatus : ShowsStatus program status currentStatus)
    (h : programLoop program currentOpcode currentStatus (key :: keys) = some lines) :
    ∃ rest, programLoop program key.opcode key.status keys = some rest ∧
      let opcode' := if HasOpcode opcode currentOpcode key then some key.opcode.toNat else none
      let status' := if HasStatus status currentOpcode currentStatus key then
        some (decodeStatusBits program key.status) else none
      entries opcode status lines =
        { ownEntry program key with opcode := opcode', status := status' } ::
          entries opcode' status' rest := by
  simp only [programLoop, Option.bind_eq_bind, Option.bind_eq_some_iff, Option.pure_def,
    Option.some.injEq, dumpKey_eq_some] at h
  rcases h with ⟨_, ⟨word, hword, rfl⟩, rest, hrest, rfl⟩
  refine ⟨rest, hrest, ?_⟩
  have hheader := entries_opcodeHeader (key.opcode ≠ currentOpcode) (currentOpcode ≠ 255)
    key.opcode.toNat opcode status
  simp only [decide_eq_true_eq] at hheader
  simp only [List.append_assoc, hheader, entries_statusHeader, List.singleton_append, entries,
    opcode_above hopcode, status_above hstatus]
  unfold ownEntry
  rw [hword, Option.getD_some]

end Step

/-- No header is ever a wrong one: where both are there, they are the key's own. -/
theorem entries_eq_of_headed {currentOpcode currentStatus : Byte} {opcode : Option Nat}
    {status : Option String} {keys : List MicrocodeKey} {lines : List DumpLine}
    (h : programLoop program currentOpcode currentStatus keys = some lines)
    (hopcode : ShowsOpcode opcode currentOpcode) (hstatus : ShowsStatus program status currentStatus)
    (hheaded : ∀ e ∈ entries opcode status lines, e.Headed) :
    entries opcode status lines = keys.map (ownEntry program) := by
  induction keys generalizing currentOpcode currentStatus opcode status lines with
  | nil =>
      cases h
      rfl
  | cons key keys ih =>
      rcases entries_programLoop_cons hopcode hstatus h with ⟨rest, hrest, heq⟩
      rw [heq] at hheaded ⊢
      rw [List.forall_mem_cons] at hheaded
      rcases hheaded with ⟨⟨hsome, hsome'⟩, hheaded⟩
      have hhas : HasOpcode opcode currentOpcode key := by
        by_contra hnone
        exact hsome (if_neg hnone)
      have hhas' : HasStatus status currentOpcode currentStatus key := by
        by_contra hnone
        exact hsome' (if_neg hnone)
      rw [if_pos hhas, if_pos hhas'] at hheaded ⊢
      rw [List.map_cons, ih hrest (.inl rfl) (.inl rfl) hheaded]
      rfl

/-- The first key of every opcode has a status other than 255; `previous` is the opcode before. -/
def StartsBelow (previous : Option Byte) : List MicrocodeKey → Prop
  | [] => True
  | key :: keys => (previous ≠ some key.opcode → key.status ≠ 255) ∧ StartsBelow (some key.opcode) keys

/-- The headers are there for all keys when they are for the first one and no later opcode starts
with the status 255. -/
theorem headed_cons_iff {currentOpcode currentStatus : Byte} {opcode : Option Nat}
    {status : Option String} {key : MicrocodeKey} {keys : List MicrocodeKey}
    {lines : List DumpLine}
    (h : programLoop program currentOpcode currentStatus (key :: keys) = some lines)
    (hopcode : ShowsOpcode opcode currentOpcode) (hstatus : ShowsStatus program status currentStatus)
    (hrest : ∀ rest, programLoop program key.opcode key.status keys = some rest →
      ((∀ e ∈ entries (some key.opcode.toNat) (some (decodeStatusBits program key.status)) rest,
        e.Headed) ↔ StartsBelow (some key.opcode) keys)) :
    (∀ e ∈ entries opcode status lines, e.Headed) ↔
      HasOpcode opcode currentOpcode key ∧ HasStatus status currentOpcode currentStatus key ∧
        StartsBelow (some key.opcode) keys := by
  rcases entries_programLoop_cons hopcode hstatus h with ⟨rest, hloop, heq⟩
  rw [heq, List.forall_mem_cons, ← hrest rest hloop]
  by_cases hhas : HasOpcode opcode currentOpcode key
  · by_cases hhas' : HasStatus status currentOpcode currentStatus key
    · simp [Entry.Headed, hhas, hhas']
    · simp [Entry.Headed, hhas']
  · simp [Entry.Headed, hhas]

theorem headed_iff {currentOpcode currentStatus : Byte} {keys : List MicrocodeKey}
    {lines : List DumpLine}
    (h : programLoop program currentOpcode currentStatus keys = some lines) :
    (∀ e ∈ entries (some currentOpcode.toNat) (some (decodeStatusBits program currentStatus)) lines,
      e.Headed) ↔ StartsBelow (some currentOpcode) keys := by
  induction keys generalizing currentOpcode currentStatus lines with
  | nil =>
      cases h
      exact iff_of_true (fun e he => by cases he) trivial
  | cons key keys ih =>
      rw [headed_cons_iff h (.inl rfl) (.inl rfl) fun rest hrest => ih hrest]
      rw [StartsBelow]
      unfold HasOpcode HasStatus
      by_cases hnew : key.opcode = currentOpcode
      · simp [hnew]
      · simp [hnew, Ne.symm hnew]

/-- The dump of a program begins without headers. -/
theorem headed_program_iff {key : MicrocodeKey} {keys : List MicrocodeKey} {lines : List DumpLine}
    (h : programLoop program 255 255 (key :: keys) = some lines) :
    (∀ e ∈ entries none none lines, e.Headed) ↔
      key.opcode ≠ 255 ∧ StartsBelow none (key :: keys) := by
  rw [headed_cons_iff h (.inr ⟨rfl, rfl⟩) (.inr ⟨rfl, rfl⟩) fun rest hrest => headed_iff hrest]
  unfold HasOpcode HasStatus
  rw [StartsBelow]
  by_cases hopcode : key.opcode = 255
  · simp [hopcode]
  · simp

/-- The dump of an instruction begins with the header of its opcode. -/
theorem headed_instruction_iff {key : MicrocodeKey} {keys : List MicrocodeKey}
    {lines : List DumpLine} (h : programLoop program key.opcode 255 (key :: keys) = some lines) :
    (∀ e ∈ entries (some key.opcode.toNat) none lines, e.Headed) ↔
      StartsBelow none (key :: keys) := by
  rw [headed_cons_iff h (.inl rfl) (.inr ⟨rfl, rfl⟩) fun rest hrest => headed_iff hrest]
  unfold HasOpcode HasStatus
  rw [StartsBelow]
  simp

/-! ## The keys of the table -/

theorem opcode_decodeKey {n : Nat} (h : n < 2 ^ 24) : (decodeKey n).opcode.toNat = n / 65536 := by
  show (BitVec.ofNat 8 (n >>> 16)).toNat = _
  rw [BitVec.toNat_ofNat, Nat.shiftRight_eq_div_pow]
  omega

theorem step_decodeKey (n : Nat) : (decodeKey n).step.toNat = n / 256 % 256 := by
  show (BitVec.ofNat 8 (n >>> 8)).toNat = _
  rw [BitVec.toNat_ofNat, Nat.shiftRight_eq_div_pow]

theorem status_decodeKey (n : Nat) : (decodeKey n).status.toNat = n % 256 :=
  BitVec.toNat_ofNat n 8

theorem encodeKey_decodeKey {n : Nat} (h : n < 2 ^ 24) : encodeKey (decodeKey n) = n := by
  rw [encodeKey_eq, opcode_decodeKey h, step_decodeKey, status_decodeKey]
  omega

theorem lookup_decodeKey (hkeys : (program.table.map Prod.fst).Nodup) {e : Nat × ControlWord}
    (he : e ∈ program.table) (hlt : e.1 < 2 ^ 24) :
    program.table.lookup (encodeKey (decodeKey e.1)) = some e.2 := by
  have hconsistent : Table.Consistent program.table := by
    intro k v w hv hw
    exact congrArg Prod.snd (List.inj_on_of_nodup_map hkeys hv hw rfl)
  rw [encodeKey_decodeKey hlt]
  exact Table.lookup_of_mem hconsistent he

theorem ownEntry_decodeKey (hkeys : (program.table.map Prod.fst).Nodup) {e : Nat × ControlWord}
    (he : e ∈ program.table) (hlt : e.1 < 2 ^ 24) :
    ownEntry program (decodeKey e.1) = entryOf program e := by
  unfold ownEntry entryOf
  rw [lookup_decodeKey hkeys he hlt, opcode_decodeKey hlt, step_decodeKey]
  rfl

/-! ## The order of the keys -/

def programRank (key : MicrocodeKey) : Nat :=
  key.opcode.toNat * 65536 + key.status.toNat * 256 + key.step.toNat

def instructionRank (key : MicrocodeKey) : Nat := key.status.toNat * 256 + key.step.toNat

theorem instructionLess_iff (a b : MicrocodeKey) :
    instructionLess a b = true ↔ instructionRank a < instructionRank b := by
  have hastep := a.step.isLt
  have hbstep := b.step.isLt
  unfold instructionLess instructionRank
  by_cases hstatus : a.status = b.status
  · simp [hstatus, BitVec.lt_def]
  · have hne : a.status.toNat ≠ b.status.toNat := fun h => hstatus (BitVec.eq_of_toNat_eq h)
    simp only [ne_eq, hstatus, not_false_eq_true, if_true, decide_eq_true_eq, BitVec.lt_def]
    omega

theorem programLess_iff (a b : MicrocodeKey) :
    programLess a b = true ↔ programRank a < programRank b := by
  have hastatus := a.status.isLt
  have hbstatus := b.status.isLt
  have hastep := a.step.isLt
  have hbstep := b.step.isLt
  have hless := instructionLess_iff a b
  unfold instructionRank at hless
  unfold programRank
  by_cases hopcode : a.opcode = b.opcode
  · have hsame : programLess a b = instructionLess a b := by
      unfold programLess instructionLess
      rw [if_neg (not_not.mpr hopcode)]
    rw [hsame, hless, hopcode]
    omega
  · have hne : a.opcode.toNat ≠ b.opcode.toNat := fun h => hopcode (BitVec.eq_of_toNat_eq h)
    unfold programLess
    simp only [ne_eq, hopcode, not_false_eq_true, if_true, decide_eq_true_eq, BitVec.lt_def]
    omega

/-- Sorting by a comparison that goes by a rank sorts by the rank. -/
theorem pairwise_insertionSort_of_rank {less : MicrocodeKey → MicrocodeKey → Bool}
    {rank : MicrocodeKey → Nat} (h : ∀ a b, less a b = true ↔ rank a < rank b)
    (l : List MicrocodeKey) :
    (l.insertionSort fun a b => less b a = false).Pairwise fun a b => rank a ≤ rank b := by
  have hrank : ∀ a b, less b a = false ↔ rank a ≤ rank b := by
    intro a b
    rw [← Bool.not_eq_true, h, Nat.not_lt]
  have htotal : Std.Total fun a b => less b a = false := by
    constructor
    intro a b
    rw [hrank, hrank]
    omega
  have htrans : IsTrans MicrocodeKey fun a b => less b a = false := by
    constructor
    intro a b c
    rw [hrank, hrank, hrank]
    omega
  exact (List.pairwise_insertionSort _ l).imp fun hab => (hrank _ _).mp hab

/-- Opcodes ascend, and under one opcode the statuses do. -/
def Ordered (a b : MicrocodeKey) : Prop :=
  a.opcode.toNat ≤ b.opcode.toNat ∧ (a.opcode = b.opcode → a.status.toNat ≤ b.status.toNat)

theorem mem_programKeys {key : MicrocodeKey} :
    key ∈ programKeys program ↔ ∃ e ∈ program.table, decodeKey e.1 = key := by
  unfold programKeys
  rw [List.mem_insertionSort]
  exact List.mem_map

theorem mem_instructionKeys {opcode : Byte} {key : MicrocodeKey} :
    key ∈ instructionKeys program opcode ↔
      (∃ e ∈ program.table, decodeKey e.1 = key) ∧ key.opcode = opcode := by
  unfold instructionKeys
  rw [List.mem_insertionSort, List.mem_filter, decide_eq_true_eq]
  exact and_congr_left fun _ => List.mem_map

theorem ordered_programKeys : (programKeys program).Pairwise Ordered := by
  apply (pairwise_insertionSort_of_rank programLess_iff (keys program)).imp
  intro a b hab
  have hastatus := a.status.isLt
  have hbstatus := b.status.isLt
  have hastep := a.step.isLt
  have hbstep := b.step.isLt
  unfold programRank at hab
  constructor
  · omega
  · intro heq
    rw [heq] at hab
    omega

theorem ordered_instructionKeys (opcode : Byte) :
    (instructionKeys program opcode).Pairwise Ordered := by
  have hsorted := pairwise_insertionSort_of_rank instructionLess_iff
    ((keys program).filter (·.opcode = opcode))
  apply hsorted.imp_of_mem
  intro a b ha hb hab
  have hastep := a.step.isLt
  have hbstep := b.step.isLt
  have hopcode : a.opcode = b.opcode :=
    (mem_instructionKeys.mp ha).2.trans (mem_instructionKeys.mp hb).2.symm
  unfold instructionRank at hab
  constructor
  · rw [hopcode]
  · intro _
    omega

/-- In sorted keys an opcode starts with the status 255 when it has no other. -/
theorem startsBelow_iff {keys : List MicrocodeKey} (hsorted : keys.Pairwise Ordered)
    {previous : Option Byte}
    (hprevious : ∀ c, previous = some c → ∀ key ∈ keys, c.toNat ≤ key.opcode.toNat) :
    StartsBelow previous keys ↔
      ∀ key ∈ keys, key.status = 255 → previous = some key.opcode ∨
        ∃ key' ∈ keys, key'.opcode = key.opcode ∧ key'.status ≠ 255 := by
  induction keys generalizing previous with
  | nil => exact iff_of_true trivial fun key hkey => by cases hkey
  | cons k ks ih =>
      rw [List.pairwise_cons] at hsorted
      have hbelow : ∀ c, some k.opcode = some c → ∀ key ∈ ks, c.toNat ≤ key.opcode.toNat := by
        intro c hc key hkey
        cases hc
        exact (hsorted.1 key hkey).1
      have hrest := ih hsorted.2 hbelow
      rw [StartsBelow, hrest]
      constructor
      · rintro ⟨hhead, htail⟩ key hkey hstatus
        rcases List.mem_cons.mp hkey with rfl | hkey
        · exact .inl (by_contra fun hne => hhead hne hstatus)
        · rcases htail key hkey hstatus with hsame | ⟨key', hkey', hother⟩
          · -- the head is of the same opcode, and it is first of it or comes behind one
            by_cases hprev : previous = some k.opcode
            · exact .inl (hprev.trans hsame)
            · exact .inr ⟨k, List.mem_cons_self, Option.some.inj hsame, hhead hprev⟩
          · exact .inr ⟨key', List.mem_cons_of_mem _ hkey', hother⟩
      · intro hall
        constructor
        · -- the head starts its opcode with status 255, so it would be alone in it
          intro hprev hstatus
          rcases hall k List.mem_cons_self hstatus with hsame | ⟨key', hkey', hopcode, hother⟩
          · exact hprev hsame
          · rcases List.mem_cons.mp hkey' with rfl | hkey'
            · exact hother hstatus
            · -- no status above 255 follows
              have hle := (hsorted.1 key' hkey').2 hopcode.symm
              have hlt := key'.status.isLt
              rw [hstatus] at hle
              apply hother
              apply BitVec.eq_of_toNat_eq
              show key'.status.toNat = 255
              have h255 : (255 : Byte).toNat = 255 := rfl
              omega
        · intro key hkey hstatus
          rcases hall key (List.mem_cons_of_mem _ hkey) hstatus with
            hsame | ⟨key', hkey', hopcode, hother⟩
          · have hle := hprevious _ hsame k List.mem_cons_self
            have hle' := (hsorted.1 key hkey).1
            left
            rw [BitVec.eq_of_toNat_eq (show k.opcode.toNat = key.opcode.toNat by omega)]
          · rcases List.mem_cons.mp hkey' with rfl | hkey'
            · left
              rw [hopcode]
            · exact .inr ⟨key', hkey', hopcode, hother⟩

/-! ## Success -/

theorem exists_programLoop {keys : List MicrocodeKey}
    (hlookup : ∀ key ∈ keys, ∃ word, program.table.lookup (encodeKey key) = some word)
    (currentOpcode currentStatus : Byte) :
    ∃ lines, programLoop program currentOpcode currentStatus keys = some lines := by
  induction keys generalizing currentOpcode currentStatus with
  | nil => exact ⟨[], rfl⟩
  | cons key keys ih =>
      rw [List.forall_mem_cons] at hlookup
      rcases hlookup.1 with ⟨word, hword⟩
      rcases ih hlookup.2 key.opcode key.status with ⟨rest, hrest⟩
      simp [programLoop, dumpKey, hword, hrest]

/-- The loop over the keys of one opcode is that of a program below the header of the opcode. -/
theorem instructionLoop_eq {opcode : Byte} {keys : List MicrocodeKey}
    (h : ∀ key ∈ keys, key.opcode = opcode) (currentStatus : Byte) :
    instructionLoop program currentStatus keys = programLoop program opcode currentStatus keys := by
  induction keys generalizing currentStatus with
  | nil => rfl
  | cons key keys ih =>
      rw [List.forall_mem_cons] at h
      rw [instructionLoop, programLoop, ih h.2, h.1]
      simp

/-! ## Faithful dumps -/

/-- The key is one of a microcode ROM, whose keys come from `encodeKey`. -/
def KeysFit (program : MicrocodeProgram) : Prop := ∀ e ∈ program.table, e.1 < 2 ^ 24

/-- The entries of one opcode. -/
def restricted (program : MicrocodeProgram) (opcode : Byte) : List (Nat × ControlWord) :=
  program.table.filter fun e => e.1 / 65536 = opcode.toNat

/-- Both dumps list every entry once, below the headers of its own opcode and status. -/
structure Faithful (program : MicrocodeProgram) : Prop where
  ofProgram : ∃ lines, programLines program = some lines ∧
    (entries none none lines).Perm (program.table.map (entryOf program))
  ofInstruction : ∀ opcode, ∃ lines, instructionLines program opcode = some lines ∧
    (entries (some opcode.toNat) none lines).Perm
      ((restricted program opcode).map (entryOf program))

/-- The numbers at which the loops start do not hide a header: no key is too large, 255 is not the
only opcode, and no opcode has the status 255 alone. -/
structure WellHeaded (program : MicrocodeProgram) : Prop where
  keysFit : KeysFit program
  opcodeBelow : ∀ e ∈ program.table, e.1 / 65536 = 255 → ∃ e' ∈ program.table, e'.1 / 65536 ≠ 255
  statusBelow : ∀ e ∈ program.table, e.1 % 256 = 255 →
    ∃ e' ∈ program.table, e'.1 / 65536 = e.1 / 65536 ∧ e'.1 % 256 ≠ 255

theorem entryOf_headed (l : List (Nat × ControlWord)) :
    ∀ e ∈ l.map (entryOf program), e.Headed := by
  intro e he
  rcases List.mem_map.mp he with ⟨_, _, rfl⟩
  exact ⟨Option.some_ne_none _, Option.some_ne_none _⟩

theorem opcode_decodeKey_eq_iff {n : Nat} (h : n < 2 ^ 24) (opcode : Byte) :
    (decodeKey n).opcode = opcode ↔ n / 65536 = opcode.toNat := by
  rw [← BitVec.toNat_inj, opcode_decodeKey h]

theorem status_decodeKey_eq_iff (n : Nat) : (decodeKey n).status = 255 ↔ n % 256 = 255 := by
  rw [← BitVec.toNat_inj, status_decodeKey]
  exact Iff.rfl

/-- A listed key of a program's dump is one of a byte each. -/
theorem keysFit_of_perm {keys : List MicrocodeKey}
    (h : (keys.map (ownEntry program)).Perm (program.table.map (entryOf program))) :
    KeysFit program := by
  intro e he
  have hmem := h.mem_iff.mpr (List.mem_map_of_mem (f := entryOf program) he)
  rcases List.mem_map.mp hmem with ⟨key, -, hkey⟩
  have hopcode : key.opcode.toNat = e.1 / 65536 := Option.some.inj (congrArg Entry.opcode hkey)
  have hlt := key.opcode.isLt
  omega

theorem keys_perm_programKeys : (programKeys program).Perm (keys program) :=
  List.perm_insertionSort _ _

theorem instructionKeys_perm (opcode : Byte) :
    (instructionKeys program opcode).Perm ((keys program).filter (·.opcode = opcode)) :=
  List.perm_insertionSort _ _

theorem ownEntry_programKeys (hkeys : (program.table.map Prod.fst).Nodup)
    (hfit : KeysFit program) :
    ((programKeys program).map (ownEntry program)).Perm (program.table.map (entryOf program)) := by
  apply (keys_perm_programKeys.map _).trans
  unfold keys
  rw [List.map_map]
  apply List.Perm.of_eq
  apply List.map_congr_left
  intro e he
  exact ownEntry_decodeKey hkeys he (hfit e he)

theorem ownEntry_instructionKeys (hkeys : (program.table.map Prod.fst).Nodup)
    (hfit : KeysFit program) (opcode : Byte) :
    ((instructionKeys program opcode).map (ownEntry program)).Perm
      ((restricted program opcode).map (entryOf program)) := by
  apply ((instructionKeys_perm opcode).map _).trans
  unfold keys restricted
  rw [List.filter_map, List.map_map]
  have hfilter : program.table.filter ((fun key => decide (key.opcode = opcode)) ∘
      fun e => decodeKey e.1) = program.table.filter fun e => e.1 / 65536 = opcode.toNat := by
    apply List.filter_congr
    intro e he
    exact decide_eq_decide.mpr (opcode_decodeKey_eq_iff (hfit e he) opcode)
  rw [hfilter]
  apply List.Perm.of_eq
  apply List.map_congr_left
  intro e he
  have hmem := (List.mem_filter.mp he).1
  exact ownEntry_decodeKey hkeys hmem (hfit e hmem)

theorem exists_lookup (hkeys : (program.table.map Prod.fst).Nodup) (hfit : KeysFit program)
    {key : MicrocodeKey} (h : ∃ e ∈ program.table, decodeKey e.1 = key) :
    ∃ word, program.table.lookup (encodeKey key) = some word := by
  rcases h with ⟨e, he, rfl⟩
  exact ⟨e.2, lookup_decodeKey hkeys he (hfit e he)⟩

/-- In a table whose keys fit, an opcode starts below 255 when its statuses allow it. -/
theorem startsBelow_programKeys (hfit : KeysFit program) :
    StartsBelow none (programKeys program) ↔
      ∀ e ∈ program.table, e.1 % 256 = 255 →
        ∃ e' ∈ program.table, e'.1 / 65536 = e.1 / 65536 ∧ e'.1 % 256 ≠ 255 := by
  rw [startsBelow_iff ordered_programKeys fun c hc => by cases hc]
  have hopcode : ∀ e ∈ program.table, ∀ e' ∈ program.table,
      ((decodeKey e'.1).opcode = (decodeKey e.1).opcode ↔ e'.1 / 65536 = e.1 / 65536) := by
    intro e he e' he'
    rw [opcode_decodeKey_eq_iff (hfit e' he'), opcode_decodeKey (hfit e he)]
  constructor
  · intro h e he hstatus
    rcases h _ (mem_programKeys.mpr ⟨e, he, rfl⟩) ((status_decodeKey_eq_iff _).mpr hstatus) with
      hnone | ⟨key', hkey', hsame, hother⟩
    · cases hnone
    · rcases mem_programKeys.mp hkey' with ⟨e', he', rfl⟩
      exact ⟨e', he', (hopcode e he e' he').mp hsame,
        fun h => hother ((status_decodeKey_eq_iff _).mpr h)⟩
  · intro h key hkey hstatus
    rcases mem_programKeys.mp hkey with ⟨e, he, rfl⟩
    rcases h e he ((status_decodeKey_eq_iff _).mp hstatus) with ⟨e', he', hsame, hother⟩
    exact .inr ⟨decodeKey e'.1, mem_programKeys.mpr ⟨e', he', rfl⟩, (hopcode e he e' he').mpr hsame,
      fun h => hother ((status_decodeKey_eq_iff _).mp h)⟩

/-- The first opcode of a dump is not 255 when there is another. -/
theorem head_opcode_iff (hfit : KeysFit program) {key : MicrocodeKey} {keys : List MicrocodeKey}
    (hprogram : programKeys program = key :: keys) :
    key.opcode ≠ 255 ↔
      ∀ e ∈ program.table, e.1 / 65536 = 255 → ∃ e' ∈ program.table, e'.1 / 65536 ≠ 255 := by
  have hmem : ∀ {k}, k ∈ key :: keys ↔ ∃ e ∈ program.table, decodeKey e.1 = k := by
    intro k
    rw [← hprogram]
    exact mem_programKeys
  have h255 : ∀ e ∈ program.table, ((decodeKey e.1).opcode = 255 ↔ e.1 / 65536 = 255) :=
    fun e he => opcode_decodeKey_eq_iff (hfit e he) 255
  rcases hmem.mp List.mem_cons_self with ⟨first, hfirst, hkey⟩
  have hsorted : (key :: keys).Pairwise Ordered := hprogram ▸ ordered_programKeys
  constructor
  · intro hne e _ _
    refine ⟨first, hfirst, fun h => hne ?_⟩
    rw [← hkey]
    exact (h255 first hfirst).mpr h
  · intro h heq
    have hopcode : first.1 / 65536 = 255 := (h255 first hfirst).mp (hkey ▸ heq)
    rcases h first hfirst hopcode with ⟨e', he', hother⟩
    rcases List.mem_cons.mp (hmem.mpr ⟨e', he', rfl⟩) with hsame | htail
    · exact hother ((h255 e' he').mp ((congrArg MicrocodeKey.opcode hsame).trans heq))
    · -- the keys behind the first have no smaller opcode
      have hle := ((List.pairwise_cons.mp hsorted).1 _ htail).1
      have hlt := (decodeKey e'.1).opcode.isLt
      rw [heq] at hle
      have hnum : (255 : Byte).toNat = 255 := rfl
      apply hother
      rw [← opcode_decodeKey (hfit e' he')]
      omega

/-- A dump is a list of the entries exactly when no header is missing. -/
theorem perm_iff_headed {currentOpcode : Byte} {opcode : Option Nat} {keys : List MicrocodeKey}
    {lines : List DumpLine} {l : List (Nat × ControlWord)}
    (h : programLoop program currentOpcode 255 keys = some lines)
    (hopcode : ShowsOpcode opcode currentOpcode)
    (hown : (keys.map (ownEntry program)).Perm (l.map (entryOf program))) :
    (entries opcode none lines).Perm (l.map (entryOf program)) ↔
      ∀ e ∈ entries opcode none lines, e.Headed := by
  constructor
  · intro hperm e he
    exact entryOf_headed l e (hperm.mem_iff.mp he)
  · intro hheaded
    rw [entries_eq_of_headed h hopcode (.inr ⟨rfl, rfl⟩) hheaded]
    exact hown

theorem faithful_of_wellHeaded (hkeys : (program.table.map Prod.fst).Nodup)
    (h : WellHeaded program) : Faithful program := by
  constructor
  · rcases exists_programLoop (fun key hkey => exists_lookup hkeys h.keysFit
      (mem_programKeys.mp hkey)) 255 255 with ⟨lines, hlines⟩
    refine ⟨lines, hlines, ?_⟩
    rw [perm_iff_headed hlines (.inr ⟨rfl, rfl⟩) (ownEntry_programKeys hkeys h.keysFit)]
    cases hprogram : programKeys program with
    | nil =>
        rw [hprogram] at hlines
        cases hlines
        exact fun e he => by cases he
    | cons key keys =>
        rw [hprogram] at hlines
        rw [headed_program_iff hlines, head_opcode_iff h.keysFit hprogram, ← hprogram,
          startsBelow_programKeys h.keysFit]
        exact ⟨h.opcodeBelow, h.statusBelow⟩
  · intro opcode
    have hown : ∀ key ∈ instructionKeys program opcode, key.opcode = opcode :=
      fun key hkey => (mem_instructionKeys.mp hkey).2
    unfold instructionLines
    rw [instructionLoop_eq hown]
    rcases exists_programLoop (fun key hkey => exists_lookup hkeys h.keysFit
      (mem_instructionKeys.mp hkey).1) opcode 255 with ⟨lines, hlines⟩
    refine ⟨lines, hlines, ?_⟩
    rw [perm_iff_headed hlines (.inl rfl) (ownEntry_instructionKeys hkeys h.keysFit opcode)]
    cases hinstruction : instructionKeys program opcode with
    | nil =>
        rw [hinstruction] at hlines
        cases hlines
        exact fun e he => by cases he
    | cons key keys =>
        rw [hinstruction] at hlines hown
        have hkey := hown key List.mem_cons_self
        rw [← hkey] at hlines ⊢
        rw [headed_instruction_iff hlines, ← hinstruction,
          startsBelow_iff (ordered_instructionKeys opcode) fun c hc => by cases hc]
        -- the entries of an opcode are among those of the program
        intro k hk hstatus
        rcases mem_instructionKeys.mp hk with ⟨hmem, hopcode⟩
        rcases (startsBelow_iff ordered_programKeys (fun c hc => by cases hc)).mp
          ((startsBelow_programKeys h.keysFit).mpr h.statusBelow) k (mem_programKeys.mpr hmem)
          hstatus with hnone | ⟨key', hkey', hsame, hother⟩
        · exact .inl hnone
        · exact .inr ⟨key', mem_instructionKeys.mpr ⟨mem_programKeys.mp hkey', hsame.trans hopcode⟩,
            hsame, hother⟩

theorem wellHeaded_of_faithful (h : Faithful program) : WellHeaded program := by
  rcases h.ofProgram with ⟨lines, hlines, hperm⟩
  have hheaded : ∀ e ∈ entries none none lines, e.Headed :=
    fun e he => entryOf_headed _ e (hperm.mem_iff.mp he)
  have hfit : KeysFit program := by
    rw [entries_eq_of_headed hlines (.inr ⟨rfl, rfl⟩) (.inr ⟨rfl, rfl⟩) hheaded] at hperm
    exact keysFit_of_perm hperm
  cases hprogram : programKeys program with
  | nil =>
      have hnone : ∀ e ∈ program.table, False := by
        intro e he
        have hmem := mem_programKeys.mpr ⟨e, he, rfl⟩
        rw [hprogram] at hmem
        cases hmem
      exact ⟨hfit, fun e he => absurd he (hnone e), fun e he => absurd he (hnone e)⟩
  | cons key keys =>
      unfold programLines at hlines
      rw [hprogram] at hlines
      have hboth := (headed_program_iff hlines).mp hheaded
      rw [head_opcode_iff hfit hprogram, ← hprogram, startsBelow_programKeys hfit] at hboth
      exact ⟨hfit, hboth.1, hboth.2⟩

end Decoder

end Irata2.Microcode
