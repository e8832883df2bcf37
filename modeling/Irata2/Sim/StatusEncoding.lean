import Irata2.Microcode.Program
import Irata2.Sim.Refinement

/-!
# The descriptions of the status encoding

`Encode` places a status bit by its index in the status register, `Decode` reads it back by its
place in the program's list, and `Permute` runs through the numbers below a power of two.  The
compiler expands conditions by the index again.  The four describe one mapping exactly when the
program lists the bits of the status register from bit 0 upwards, without a gap.
-/

namespace Irata2.Sim

open Hdl Library Microcode

theorem and_eq_and_iff {e value mask : Byte} :
    e &&& mask = value &&& mask ↔
      ∀ j, mask.getLsbD j = true → e.getLsbD j = value.getLsbD j := by
  constructor
  · intro h j hj
    have hbit := congrArg (fun b : Byte => b.getLsbD j) h
    simpa only [BitVec.getLsbD_and, hj, Bool.and_true] using hbit
  · intro h
    apply BitVec.eq_of_getLsbD_eq
    intro j _
    rw [BitVec.getLsbD_and, BitVec.getLsbD_and]
    cases hj : mask.getLsbD j with
    | false => rw [Bool.and_false, Bool.and_false]
    | true => rw [h j hj]

end Irata2.Sim

namespace Irata2.Microcode.StatusEncoder

open Irata2.Sim

variable {enc : StatusEncoder} {partialStatus : List (String × Bool)} {statuses : List Byte}

/-- The bits on which a partial status says something. -/
def conditionMask (enc : StatusEncoder) (partialStatus : List (String × Bool)) : Byte :=
  enc.base (partialStatus.map fun c => (c.1, true))

theorem lookup_map_true (name : String) :
    (partialStatus.map fun c => (c.1, true)).lookup name =
      (partialStatus.lookup name).map fun _ => true := by
  induction partialStatus with
  | nil => rfl
  | cons c l ih =>
      rw [List.map_cons, List.lookup_cons, List.lookup_cons]
      cases name == c.1 with
      | true => rfl
      | false => exact ih

theorem getLsbD_conditionMask (j : Nat) :
    (enc.conditionMask partialStatus).getLsbD j = true ↔
      ∃ b ∈ enc.bits, b.bit = j ∧ ∃ value, partialStatus.lookup b.name = some value := by
  unfold conditionMask
  rw [getLsbD_base]
  simp only [lookup_map_true, Option.map_eq_some_iff, and_true]

/-- An expansion lists the bytes over the configured bits that agree with the partial status. -/
theorem mem_expandPartial_iff_agrees
    (hbit : ∀ b ∈ enc.bits, ∀ b' ∈ enc.bits, b.bit = b'.bit → b = b')
    (h : enc.expandPartial partialStatus = .ok statuses) (e : Byte) :
    e ∈ statuses ↔
      (∀ j, e.getLsbD j = true → ∃ b ∈ enc.bits, b.bit = j) ∧
        e &&& enc.conditionMask partialStatus =
          enc.base partialStatus &&& enc.conditionMask partialStatus := by
  -- a condition decides its bit, because no other definition has the same index
  have hbase : ∀ b ∈ enc.bits, ∀ value, partialStatus.lookup b.name = some value →
      (enc.base partialStatus).getLsbD b.bit = value := by
    intro b hb value hvalue
    have hiff := enc.getLsbD_base partialStatus b.bit
    cases value with
    | true => exact hiff.mpr ⟨b, hb, rfl, hvalue⟩
    | false =>
        rw [← Bool.not_eq_true, hiff]
        rintro ⟨b', hb', heq, htrue⟩
        rw [hbit b' hb' b hb heq, hvalue] at htrue
        cases htrue
  rw [mem_expandPartial h, and_eq_and_iff]
  constructor
  · rintro ⟨hset, hconfigured⟩
    constructor
    · intro j hj
      rcases hconfigured j hj with ⟨b, hb, hbj, -⟩
      exact ⟨b, hb, hbj⟩
    · intro j hj
      rcases (getLsbD_conditionMask j).mp hj with ⟨b, hb, rfl, value, hvalue⟩
      rw [hbase b hb value hvalue]
      cases value with
      | true => exact hset b hb hvalue
      | false =>
          by_contra htrue
          rw [Bool.not_eq_false] at htrue
          rcases hconfigured b.bit htrue with ⟨b', hb', heq, hne⟩
          rw [hbit b' hb' b hb heq] at hne
          exact hne hvalue
  · rintro ⟨hconfigured, hagrees⟩
    have hvalue : ∀ b ∈ enc.bits, ∀ value, partialStatus.lookup b.name = some value →
        e.getLsbD b.bit = value := by
      intro b hb value hvalue
      rw [hagrees b.bit ((getLsbD_conditionMask _).mpr ⟨b, hb, rfl, value, hvalue⟩)]
      exact hbase b hb value hvalue
    constructor
    · exact fun b hb htrue => hvalue b hb true htrue
    · intro j hj
      rcases hconfigured j hj with ⟨b, hb, rfl⟩
      refine ⟨b, hb, rfl, ?_⟩
      intro hfalse
      rw [hvalue b hb false hfalse] at hj
      cases hj

end Irata2.Microcode.StatusEncoder

namespace Irata2.Sim.StatusEncoder

open Hdl Library Microcode

/-- `Decode` -/
def decode (references : List StatusBit) (encoded : Byte) : List Bool :=
  (List.range references.length).map fun i => encoded.getLsbD i

/-- `Permute` -/
def permute (references : List StatusBit) (statusMask statusValue : Byte) : List Byte :=
  if references.length = 0 then [0]
  else
    ((List.range (1 <<< references.length)).map (BitVec.ofNat 8)).filter fun enc =>
      enc &&& statusMask = statusValue &&& statusMask

variable {references : List StatusBit}

/-- The place of every bit in the list is its index in the status register. -/
def InOrder (references : List StatusBit) : Prop :=
  references.map StatusBit.bitIndex = List.range references.length

theorem inOrder_iff :
    InOrder references ↔ ∀ (i : Nat) (f : StatusBit), references[i]? = some f → f.bitIndex = i := by
  unfold InOrder
  constructor
  · intro h i f hf
    have hat := congrArg (fun l : List Nat => l[i]?) h
    simp only [List.getElem?_map, hf, Option.map_some] at hat
    exact Option.some.inj (hat.trans (List.getElem?_range (List.getElem?_eq_some_iff.mp hf).1))
  · intro h
    apply List.ext_getElem
    · rw [List.length_map, List.length_range]
    · intro i hi _
      rw [List.length_map] at hi
      rw [List.getElem_map, List.getElem_range]
      exact h i _ (List.getElem?_eq_getElem hi)

/-- A list in order refers to the bits below its length. -/
theorem exists_bitIndex_iff (h : InOrder references) (j : Nat) :
    (∃ f ∈ references, f.bitIndex = j) ↔ j < references.length := by
  rw [← List.mem_range, ← h, List.mem_map]

theorem exists_encode_iff (e : Byte) :
    (∃ status, encode references status = e) ↔
      ∀ j, e.getLsbD j = true → ∃ f ∈ references, f.bitIndex = j := by
  constructor
  · rintro ⟨status, rfl⟩ j hj
    exact ((getLsbD_encode references status j).mp hj).2
  · intro h
    refine ⟨e, ?_⟩
    apply BitVec.eq_of_getLsbD_eq
    intro j _
    rw [Bool.eq_iff_iff, getLsbD_encode]
    exact and_iff_left_of_imp (h j)

/-- `Decode` undoes `Encode` for a list in order, and for no other list. -/
theorem decode_encode_iff :
    (∀ status, decode references (encode references status) =
        references.map fun f => Status.value f status) ↔ InOrder references := by
  rw [inOrder_iff]
  constructor
  · intro h i f hf
    -- the register in which the bit is the only one
    have hi := (List.getElem?_eq_some_iff.mp hf).1
    have hat := congrArg (fun l : List Bool => l[i]?) (h (1#8 <<< f.bitIndex))
    simp only [decode, List.getElem?_map, hf, List.getElem?_range hi, Option.map_some,
      Option.some.injEq] at hat
    have hone : Status.value f (1#8 <<< f.bitIndex) = true := by
      unfold Status.value
      rw [getLsbD_one_shiftLeft]
      simp [f.bitIndex_lt]
    rw [hone, getLsbD_encode, getLsbD_one_shiftLeft, Bool.and_eq_true, decide_eq_true_eq,
      decide_eq_true_eq] at hat
    exact hat.1.2
  · intro h status
    apply List.ext_getElem
    · simp [decode]
    · intro i hi _
      have hi' : i < references.length := by simpa [decode] using hi
      have hf := List.getElem?_eq_getElem hi'
      have hindex := h i _ hf
      simp only [decode, List.getElem_map, List.getElem_range]
      rw [Bool.eq_iff_iff, getLsbD_encode]
      unfold Status.value
      rw [hindex]
      exact and_iff_left ⟨_, List.getElem_mem hi', hindex⟩

theorem mem_permute (hne : references ≠ []) (hlen : references.length ≤ 8) (mask value e : Byte) :
    e ∈ permute references mask value ↔
      e.toNat < 2 ^ references.length ∧ e &&& mask = value &&& mask := by
  have hle : 2 ^ references.length ≤ 2 ^ 8 := Nat.pow_le_pow_right (by decide) hlen
  unfold permute
  rw [if_neg (fun h => hne (List.length_eq_zero_iff.mp h)), List.mem_filter, List.mem_map,
    decide_eq_true_eq, Nat.one_shiftLeft]
  apply and_congr_left
  intro _
  constructor
  · rintro ⟨n, hn, rfl⟩
    rw [List.mem_range] at hn
    rw [BitVec.toNat_ofNat, Nat.mod_eq_of_lt (by omega)]
    exact hn
  · intro h
    exact ⟨e.toNat, List.mem_range.mpr h, by simp⟩

theorem toNat_lt_iff (e : Byte) (n : Nat) :
    e.toNat < 2 ^ n ↔ ∀ j, e.getLsbD j = true → j < n := by
  constructor
  · intro h j hj
    by_contra hge
    have hlt : e.toNat < 2 ^ j := h.trans_le (Nat.pow_le_pow_right (by decide) (by omega))
    rw [← BitVec.testBit_toNat, Nat.testBit_lt_two_pow hlt] at hj
    cases hj
  · intro h
    apply Nat.lt_pow_two_of_testBit
    intro j hj
    rw [BitVec.testBit_toNat]
    by_contra htrue
    rw [Bool.not_eq_false] at htrue
    have hlt := h j htrue
    omega

/-- The four descriptions of the encoding agree. -/
structure SelfConsistent (enc : Microcode.StatusEncoder) (references : List StatusBit) : Prop where
  decode : ∀ status, decode references (encode references status) =
    references.map fun f => Status.value f status
  permute : ∀ mask value e, e ∈ permute references mask value ↔
    (∃ status, encode references status = e) ∧ e &&& mask = value &&& mask
  expand : ∀ partialStatus statuses, enc.expandPartial partialStatus = .ok statuses →
    ∀ e, e ∈ StatusEncoder.permute references (enc.conditionMask partialStatus)
      (enc.base partialStatus) ↔ e ∈ statuses

/-- The status encoder is consistent with itself and with the compiler's for the lists that name the
lowest bits of the status register in ascending order. -/
theorem selfConsistent_iff {statusBits : List StatusBitDefinition} {enc : Microcode.StatusEncoder}
    (h : init statusBits = .ok references) (henc : enc.bits = statusBits) :
    SelfConsistent enc references ↔
      statusBits ≠ [] ∧ statusBits.map (·.bit) = List.range statusBits.length := by
  have hbits := init_eq_ok h
  have hlen : references.length ≤ 8 := by
    have hthrow := throwIf_eq_ok.mp (seq_eq_ok.mp h).1
    rw [hbits, List.length_map] at hthrow
    omega
  have horder : statusBits.map (·.bit) = List.range statusBits.length ↔ InOrder references := by
    rw [hbits, List.map_map, List.length_map]
    rfl
  have hempty : statusBits = [] ↔ references = [] := by
    rw [hbits, List.map_eq_nil_iff]
  rw [horder, ne_eq, hempty]
  constructor
  · intro hconsistent
    refine ⟨?_, decode_encode_iff.mp hconsistent.decode⟩
    rintro rfl
    -- without bits the zero byte is listed under conditions that it does not meet
    have hzero := ((hconsistent.permute 1 1 0).mp (by decide)).2
    exact absurd hzero (by decide)
  · rintro ⟨hne, hin⟩
    have hproduced : ∀ e, (∃ status, encode references status = e) ↔
        e.toNat < 2 ^ references.length := by
      intro e
      rw [exists_encode_iff, toNat_lt_iff]
      simp only [exists_bitIndex_iff hin]
    have hpermute : ∀ mask value e, e ∈ StatusEncoder.permute references mask value ↔
        (∃ status, encode references status = e) ∧ e &&& mask = value &&& mask := by
      intro mask value e
      rw [mem_permute hne hlen, hproduced]
    have hbit : ∀ b ∈ enc.bits, ∀ b' ∈ enc.bits, b.bit = b'.bit → b = b' := by
      rw [henc, hbits]
      intro b hb b' hb' heq
      rcases List.mem_map.mp hb with ⟨f, -, rfl⟩
      rcases List.mem_map.mp hb' with ⟨g, -, rfl⟩
      rw [StatusBit.bitIndex_injective heq]
    refine ⟨decode_encode_iff.mpr hin, hpermute, ?_⟩
    intro partialStatus statuses hexpand e
    rw [hpermute, Microcode.StatusEncoder.mem_expandPartial_iff_agrees hbit hexpand,
      exists_encode_iff, henc, hbits]
    simp only [List.mem_map, exists_exists_and_eq_and]

/-- The program of the default microcode lists the bits from the highest down. -/
theorem not_selfConsistent_default :
    init Irata.statusBits = .ok statusMap ∧
      ¬SelfConsistent Irata.compiler.statusEncoder statusMap := by
  refine ⟨init_map (by decide), ?_⟩
  intro h
  have hdecode := h.decode 0x80
  revert hdecode
  decide

def lowBits : List StatusBitDefinition := [⟨"carry", 0⟩, ⟨"zero", 1⟩]

theorem selfConsistent_lowBits :
    SelfConsistent ⟨lowBits, by decide⟩ [.carry, .zero] ↔
      lowBits ≠ [] ∧ lowBits.map (·.bit) = List.range lowBits.length :=
  selfConsistent_iff (@init_map [.carry, .zero] (by decide)) rfl

end Irata2.Sim.StatusEncoder
