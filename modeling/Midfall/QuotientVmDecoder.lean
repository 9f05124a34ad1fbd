import Midfall.ByteReader
import Midfall.QuotientVmOpcodes

/-!
# Instruction lengths and the offline program validator

The unchecked length decoder used by trusted bytecode walks, the checked
decoder and the stack-effect table of `validate_quotient_program`. A panic of
the Rust code is `none`. Lengths are natural numbers: one instruction is far
shorter than `2^64` bytes, so the source's overflow branches cannot be taken.
-/

namespace Midfall.QuotientVmDecoder

open ByteReader QuotientVmOpcodes
open Option (bind_eq_bind bind_eq_some_iff)

/-- A big-endian `u16` operand; out of range is the slice panic. -/
def readU16 (bytes : List Byte) (idx : Nat) : Option Nat := do
  let high ← bytes[idx]?
  let low ← bytes[idx + 1]?
  some (high.toNat * 256 + low.toNat)

def qModarith7FlagCond : Byte := 0x01
def qModarith7FlagConst : Byte := 0x02

def quotientAffineSumOpLen (bytes : List Byte) (idx : Nat) : Option Nat := do
  let linCount ← readU16 bytes (idx + 1)
  let productCount ← readU16 bytes (idx + 3)
  some (1 + 2 * quotientVmByteU16Bytes + linCount * (quotientVmByteU16Bytes + 1)
    + productCount * (2 * quotientVmByteU16Bytes + 1))

def quotientModarith7OpLen (bytes : List Byte) (idx : Nat) : Option Nat := do
  let flags ← bytes[idx + 1]?
  let cursor := idx + 2
  let cursor := if flags &&& qModarith7FlagCond != 0 then cursor + quotientVmByteU16Bytes
    else cursor
  let cursor := if flags &&& qModarith7FlagConst != 0 then cursor + 1 else cursor
  let linCount ← bytes[cursor]?
  let rowCount ← bytes[cursor + 1]?
  let pairwiseCount ← bytes[cursor + 2]?
  let memCount ← bytes[cursor + 3]?
  let productCount ← bytes[cursor + 4]?
  let cursor := cursor + 5
  let cursor := cursor + linCount.toNat * quotientVmLimbs * (1 + quotientVmByteU16Bytes)
  let cursor := cursor + rowCount.toNat *
    (quotientVmByteU16Bytes + quotientVmLimbs * (1 + quotientVmByteU16Bytes))
  let cursor := cursor + pairwiseCount.toNat *
    (2 * quotientVmByteU16Bytes + quotientVmPairwiseCoeffs)
  let cursor := cursor + memCount.toNat * (1 + quotientVmByteU16Bytes)
  let cursor := cursor + productCount.toNat * (1 + 2 * quotientVmByteU16Bytes)
  some (cursor - idx)

/-- Byte length of the opcode at `idx`. -/
def quotientOpLen (bytes : List Byte) (idx : Nat) : Option Nat := do
  let op ← bytes[idx]?
  let spec ← quotientOpcodeSpec op
  match spec.op with
  | .runAddMulMemMemConstU8 =>
    let count ← readU16 bytes (idx + 1)
    some (1 + quotientVmByteU16Bytes + count * (2 * quotientVmByteU16Bytes + 1))
  | .runAddMulConstU8MemU16 =>
    let count ← readU16 bytes (idx + 1)
    some (1 + quotientVmByteU16Bytes + count * (quotientVmByteU16Bytes + 1))
  | .affineSum => quotientAffineSumOpLen bytes idx
  | .modarith7 => quotientModarith7OpLen bytes idx
  | _ => quotientOpcodeByteLen op

inductive QuotientVmError where
  | unknownOpcode (op : Byte) (idx : Nat)
  | zeroLength (name : String) (op : Byte) (idx : Nat)
  | zeroLengthRun (idx : Nat)
  | affineSumCounts (idx : Nat)
  | modarith7Flags (flags : Byte) (idx : Nat)
  | truncated (context : String) (idx len remaining : Nat)
  | unknownMemToken (token : Byte) (idx : Nat)
  | stackUnderflow (op : Byte) (idx required depth : Nat)
  | stackBoundary (op : Byte) (idx depth : Nat)
  | nativeStack (op : Byte) (idx depth : Nat)
  | stackLeak (depth : Nat)
  deriving DecidableEq, Repr

/-- Rust's `{:#x}` rendering of a byte. -/
def hexByte (value : Byte) : String := "0x" ++ String.ofList (Nat.toDigits 16 value.toNat)

def QuotientVmError.message : QuotientVmError → String
  | .unknownOpcode op idx =>
    "unknown quotient VM opcode " ++ hexByte op ++ " at byte " ++ toString idx
  | .zeroLength name op idx =>
    "quotient VM opcode " ++ name ++ " (" ++ hexByte op ++
      ") decoded to zero length at byte " ++ toString idx
  | .zeroLengthRun idx => "zero-length quotient VM run at byte " ++ toString idx
  | .affineSumCounts idx =>
    "AFFINE_SUM at byte " ++ toString idx ++ " requires nonzero linear and product counts"
  | .modarith7Flags flags idx =>
    "MODARITH7 has unknown flag bits " ++ hexByte flags ++ " at byte " ++ toString idx
  | .truncated context idx len remaining =>
    "truncated quotient VM " ++ context ++ " at byte " ++ toString idx ++ ": need " ++
      toString len ++ " byte(s), program has " ++ toString remaining ++ " byte(s) remaining"
  | .unknownMemToken token idx =>
    "unknown quotient VM memory token " ++ hexByte token ++ " at byte " ++ toString idx
  | .stackUnderflow op idx required depth =>
    "quotient VM stack underflow at byte " ++ toString idx ++ ": opcode " ++ hexByte op ++
      " requires " ++ toString required ++ " stack value(s), found " ++ toString depth
  | .stackBoundary op idx depth =>
    "quotient VM stack boundary error at byte " ++ toString idx ++ ": opcode " ++ hexByte op ++
      " requires exactly 1 stack value, found " ++ toString depth
  | .nativeStack op idx depth =>
    "quotient VM native callback at byte " ++ toString idx ++ ": opcode " ++ hexByte op ++
      " requires an empty stack, found " ++ toString depth
  | .stackLeak depth =>
    "quotient VM stack leak at end of program: " ++ toString depth ++ " value(s) remain"

abbrev Checked := Except QuotientVmError

/-- Check that an operand range fits inside the bytecode. -/
def requireQuotientBytes (bytes : List Byte) (idx len : Nat) (context : String) : Checked Unit :=
  if idx + len > bytes.length then
    .error (.truncated context idx len (bytes.length - idx))
  else .ok ()

def advanceQuotientCursor (bytes : List Byte) (cursor amount : Nat) : Checked Nat := do
  requireQuotientBytes bytes cursor amount "dynamic instruction operand"
  return cursor + amount

/-- An operand that is present only when its flag bit is set. -/
def advanceQuotientOptional (bytes : List Byte) (cursor : Nat) (present : Bool) (amount : Nat) :
    Checked Nat :=
  if present then advanceQuotientCursor bytes cursor amount else .ok cursor

section

variable (bytes : List Byte) (idx : Nat)

/-- A byte the preceding range check has put inside the program. -/
def byteAt : Byte := bytes.getD idx 0

def wordAt : Nat :=
  (byteAt bytes idx).toNat * 256 + (byteAt bytes (idx + 1)).toNat

def quotientAffineSumOpLenChecked : Checked Nat := do
  requireQuotientBytes bytes idx (1 + 2 * quotientVmByteU16Bytes) "AFFINE_SUM count header"
  let linCount := wordAt bytes (idx + 1)
  let productCount := wordAt bytes (idx + 3)
  if linCount = 0 ∨ productCount = 0 then .error (.affineSumCounts idx)
  else
    let linPayload := linCount * (quotientVmByteU16Bytes + 1)
    let productPayload := productCount * (2 * quotientVmByteU16Bytes + 1)
    return 1 + 2 * quotientVmByteU16Bytes + (linPayload + productPayload)

/-- The five counted blocks of `MODARITH7` behind its count header. -/
def advanceModarith7Blocks (bytes : List Byte) (cursor : Nat)
    (linCount rowCount pairwiseCount memCount productCount : Nat) : Checked Nat := do
  let cursor ← advanceQuotientCursor bytes cursor
    (linCount * (quotientVmLimbs * (1 + quotientVmByteU16Bytes)))
  let cursor ← advanceQuotientCursor bytes cursor
    (rowCount * (quotientVmByteU16Bytes + quotientVmLimbs * (1 + quotientVmByteU16Bytes)))
  let cursor ← advanceQuotientCursor bytes cursor
    (pairwiseCount * (2 * quotientVmByteU16Bytes + quotientVmPairwiseCoeffs))
  let cursor ← advanceQuotientCursor bytes cursor (memCount * (1 + quotientVmByteU16Bytes))
  advanceQuotientCursor bytes cursor (productCount * (1 + 2 * quotientVmByteU16Bytes))

def quotientModarith7OpLenChecked : Checked Nat := do
  let cursor ← advanceQuotientCursor bytes idx 1
  requireQuotientBytes bytes cursor 1 "MODARITH7 flags"
  let flags := byteAt bytes cursor
  if flags &&& ~~~(qModarith7FlagCond ||| qModarith7FlagConst) != 0 then
    .error (.modarith7Flags flags idx)
  else do
    let cursor ← advanceQuotientCursor bytes cursor 1
    let cursor ← advanceQuotientOptional bytes cursor (flags &&& qModarith7FlagCond != 0)
      quotientVmByteU16Bytes
    let cursor ← advanceQuotientOptional bytes cursor (flags &&& qModarith7FlagConst != 0) 1
    requireQuotientBytes bytes cursor 5 "MODARITH7 count header"
    let linCount := (byteAt bytes cursor).toNat
    let rowCount := (byteAt bytes (cursor + 1)).toNat
    let pairwiseCount := (byteAt bytes (cursor + 2)).toNat
    let memCount := (byteAt bytes (cursor + 3)).toNat
    let productCount := (byteAt bytes (cursor + 4)).toNat
    let cursor ← advanceQuotientCursor bytes cursor 5
    let cursor ← advanceModarith7Blocks bytes cursor linCount rowCount pairwiseCount memCount
      productCount
    return cursor - idx

/-- The counted run forms: a `u16` count and that many fixed-width payloads. -/
def quotientRunOpLenChecked (bytes : List Byte) (idx payloadBytes : Nat) : Checked Nat := do
  requireQuotientBytes bytes idx (1 + quotientVmByteU16Bytes) "run count"
  let count := wordAt bytes (idx + 1)
  if count = 0 then .error (.zeroLengthRun idx)
  else return 1 + quotientVmByteU16Bytes + count * payloadBytes

/-- The length table of the checked decoder, before the final range check. -/
def quotientInstructionLenChecked (op : QuotientOp) :
    Checked Nat :=
  match op with
  | .runAddMulMemMemConstU8 => quotientRunOpLenChecked bytes idx (2 * quotientVmByteU16Bytes + 1)
  | .runAddMulConstU8MemU16 => quotientRunOpLenChecked bytes idx (quotientVmByteU16Bytes + 1)
  | .affineSum => quotientAffineSumOpLenChecked bytes idx
  | .modarith7 => quotientModarith7OpLenChecked bytes idx
  | _ => match quotientOpcodeByteLen (byteAt bytes idx) with
      | some len => .ok len
      | none => .error (.unknownOpcode (byteAt bytes idx) idx)

/-- One instruction length while checking dynamic operand bounds. -/
def quotientByteInstructionLenChecked (op : QuotientOp) :
    Checked Nat := do
  let len ← quotientInstructionLenChecked bytes idx op
  requireQuotientBytes bytes idx len "instruction"
  return len

/-- Reject symbolic memory tokens unknown to this VM version. -/
def validateQuotientMemToken (token : Byte) (idx : Nat) : Checked Unit :=
  if isQuotientMemToken token then .ok () else .error (.unknownMemToken token idx)

def validateTokenOperand (op : QuotientOp) : Checked Unit :=
  match op with
  | .pushMemToken | .pushMemTokenOffset => validateQuotientMemToken (byteAt bytes (idx + 1)) idx
  | _ => .ok ()

end

def decodeByteQuotientInstruction (bytes : List Byte) (idx : Nat) :
    Checked (QuotientOp × Nat) := do
  requireQuotientBytes bytes idx 1 "opcode"
  let op := byteAt bytes idx
  match quotientOpcodeSpec op with
  | none => .error (.unknownOpcode op idx)
  | some spec => do
    let len ← quotientByteInstructionLenChecked bytes idx spec.op
    validateTokenOperand bytes idx spec.op
    if len = 0 then .error (.zeroLength spec.name op idx) else .ok (spec.op, len)

structure StackUsage where
  depth : Nat
  maxStack : Nat
  deriving DecidableEq, Repr

/-- Require at least `required` stack values before consuming operands. -/
def requireQuotientStackDepth (op : QuotientOp) (idx depth required : Nat) : Checked Unit :=
  if depth < required then .error (.stackUnderflow op.byte idx required depth) else .ok ()

/-- One opcode's static stack effect during offline validation. -/
def applyQuotientStackEffect (op : QuotientOp) (idx : Nat) (usage : StackUsage) :
    Checked StackUsage :=
  match op with
  | .pushConst | .pushMemLiteral | .pushMemToken | .pushMemTokenOffset | .pushMemU16
  | .pushConstU8 | .lin7 | .bilin7Row | .bilin7Pairwise | .modarith7 =>
    .ok { depth := usage.depth + 1, maxStack := max usage.maxStack (usage.depth + 1) }
  | .add | .mul => do
    requireQuotientStackDepth op idx usage.depth 2
    return { usage with depth := usage.depth - 1 }
  | .neg | .addConstU8 | .mulConstU8 | .addConst | .mulConst | .addMemU16 | .mulMemU16
  | .addMulMemMemConstU8 | .addMulConstU8MemU16 | .addMulMemMem
  | .runAddMulMemMemConstU8 | .runAddMulConstU8MemU16 | .affineSum | .pow5 => do
    requireQuotientStackDepth op idx usage.depth 1
    return usage
  | .foldMain | .foldSelector =>
    if usage.depth ≠ 1 then .error (.stackBoundary op.byte idx usage.depth)
    else .ok { usage with depth := 0 }
  | .nativePermutation | .nativeLookup | .nativeIdentity =>
    if usage.depth ≠ 0 then .error (.nativeStack op.byte idx usage.depth)
    else .ok usage

variable {bytes : List Byte} {idx len : Nat}

theorem require_ok_iff {context : String} {done : Unit} :
    requireQuotientBytes bytes idx len context = .ok done ↔ idx + len ≤ bytes.length := by
  unfold requireQuotientBytes
  split
  · simp only [reduceCtorEq, false_iff]
    omega
  · simp only [true_iff]
    omega

theorem advance_ok_iff {cursor amount next : Nat} :
    advanceQuotientCursor bytes cursor amount = .ok next ↔
      cursor + amount ≤ bytes.length ∧ cursor + amount = next := by
  simp only [advanceQuotientCursor, bind_ok_iff, require_ok_iff, pure_ok_iff, exists_and_left,
    exists_const]

section

variable {op : QuotientOp} (decoded : decodeByteQuotientInstruction bytes idx = .ok (op, len))

include decoded

/-- What a successful checked decode says about the bytes at `idx`. -/
theorem decoded_instruction :
    quotientOpcodeSpec (byteAt bytes idx) = some op.spec ∧
      quotientByteInstructionLenChecked bytes idx op = .ok len ∧
      ((op = .pushMemToken ∨ op = .pushMemTokenOffset) →
        isQuotientMemToken (byteAt bytes (idx + 1)) = true) ∧
      0 < len := by
  simp only [decodeByteQuotientInstruction, bind_ok_iff] at decoded
  obtain ⟨-, -, decoded⟩ := decoded
  cases found : quotientOpcodeSpec (byteAt bytes idx) with
  | none => simp [found] at decoded
  | some spec =>
    simp only [found, bind_ok_iff] at decoded
    obtain ⟨length, checked, _, tokens, decoded⟩ := decoded
    split at decoded
    · cases decoded
    · rename_i pos
      cases decoded
      have table := (opcode_spec_inverse _ spec found).1
      refine ⟨by rw [← table], checked, ?_, Nat.pos_of_ne_zero pos⟩
      intro isToken
      by_contra unknown
      obtain isToken | isToken := isToken <;>
        simp [validateTokenOperand, isToken, validateQuotientMemToken, unknown] at tokens

theorem decoded_length_positive : 0 < len := by
  obtain ⟨_, _, _, pos⟩ := decoded_instruction decoded
  exact pos

end

/-- The validation loop from byte `idx` on. -/
def validateQuotientFrom (bytes : List Byte) (idx : Nat) (usage : StackUsage) :
    Checked StackUsage :=
  if idx < bytes.length then
    match _decoded : decodeByteQuotientInstruction bytes idx with
    | .error failure => .error failure
    | .ok (op, len) =>
      match applyQuotientStackEffect op idx usage with
      | .error failure => .error failure
      | .ok usage => validateQuotientFrom bytes (idx + len) usage
  else .ok usage
termination_by bytes.length - idx
decreasing_by
  have progress := decoded_length_positive _decoded
  omega

/-- Decode a finalized program and verify stack safety; returns `max_stack`. -/
def validateQuotientProgram (bytes : List Byte) : Checked Nat := do
  let usage ← validateQuotientFrom bytes 0 { depth := 0, maxStack := 0 }
  if usage.depth ≠ 0 then .error (.stackLeak usage.depth) else .ok usage.maxStack

theorem opcode_byte_len_positive {opcode : Byte} (found : quotientOpcodeByteLen opcode = some len) :
    0 < len := by
  simp only [quotientOpcodeByteLen, bind_eq_some_iff, Option.ite_none_right_eq_some] at found
  obtain ⟨spec, -, nonzero, same⟩ := found
  cases same
  exact Nat.pos_of_ne_zero nonzero

theorem quotient_op_len_positive (found : quotientOpLen bytes idx = some len) : 0 < len := by
  simp only [quotientOpLen, bind_eq_bind, bind_eq_some_iff] at found
  obtain ⟨opcode, -, spec, -, found⟩ := found
  cases found' : spec.op <;> simp only [found'] at found
  case runAddMulMemMemConstU8 | runAddMulConstU8MemU16 =>
    simp only [bind_eq_some_iff, Option.some.injEq] at found
    omega
  case affineSum =>
    simp only [quotientAffineSumOpLen, bind_eq_bind, bind_eq_some_iff, Option.some.injEq] at found
    omega
  case modarith7 =>
    simp only [quotientModarith7OpLen, bind_eq_bind, bind_eq_some_iff, Option.some.injEq] at found
    obtain ⟨flags, -, linCount, -, rowCount, -, pairwiseCount, -, memCount, -, productCount, -,
      rfl⟩ := found
    split <;> split <;> omega
  all_goals exact opcode_byte_len_positive found

/-- Decoded `(offset, opcode, byte_len)` triples from `idx` on. -/
def quotientBytecodeOpsFrom (bytes : List Byte) (idx : Nat) : Option (List (Nat × Byte × Nat)) :=
  if inside : idx < bytes.length then
    match _found : quotientOpLen bytes idx with
    | none => none
    | some len => (quotientBytecodeOpsFrom bytes (idx + len)).map ((idx, bytes[idx], len) :: ·)
  else some []
termination_by bytes.length - idx
decreasing_by
  have progress := quotient_op_len_positive _found
  omega

def quotientBytecodeOps (bytes : List Byte) : Option (List (Nat × Byte × Nat)) :=
  quotientBytecodeOpsFrom bytes 0

/-- Insert a byte once and keep the set sorted for deterministic templates. -/
def pushUniqueU8 (values : List Byte) (value : Byte) : List Byte :=
  if values.contains value then values else (values ++ [value]).insertionSort (· ≤ ·)

def pushUsage (bytes : List Byte) (usage : List Byte × List Byte) (entry : Nat × Byte × Nat) :
    List Byte × List Byte :=
  let (idx, op, _) := entry
  (pushUniqueU8 usage.1 op,
    if op = QuotientOp.pushMemToken.byte ∨ op = QuotientOp.pushMemTokenOffset.byte then
      pushUniqueU8 usage.2 (byteAt bytes (idx + 1))
    else usage.2)

def quotientProgramUsage (bytes : List Byte) : Option (List Byte × List Byte) :=
  (quotientBytecodeOps bytes).map fun ops => ops.foldl (pushUsage bytes) ([], [])

theorem mem_push_unique (values : List Byte) (value other : Byte) :
    other ∈ pushUniqueU8 values value ↔ other = value ∨ other ∈ values := by
  unfold pushUniqueU8
  split
  · rename_i present
    constructor
    · exact Or.inr
    · rintro (rfl | mem)
      · simpa using present
      · exact mem
  · simp [or_comm]

theorem usage_fold_keeps (bytes : List Byte) (ops : List (Nat × Byte × Nat))
    (usage : List Byte × List Byte) :
    usage.1 ⊆ (ops.foldl (pushUsage bytes) usage).1 ∧
      usage.2 ⊆ (ops.foldl (pushUsage bytes) usage).2 := by
  induction ops generalizing usage with
  | nil => exact ⟨List.Subset.refl _, List.Subset.refl _⟩
  | cons entry ops ih =>
    have rest := ih (pushUsage bytes usage entry)
    refine ⟨fun op mem => rest.1 ?_, fun token mem => rest.2 ?_⟩
    · exact (mem_push_unique _ _ _).mpr (Or.inr mem)
    · simp only [pushUsage]
      split
      · exact (mem_push_unique _ _ _).mpr (Or.inr mem)
      · exact mem

theorem usage_covers (bytes : List Byte) (ops : List (Nat × Byte × Nat))
    (usage : List Byte × List Byte) (entry : Nat × Byte × Nat) (listed : entry ∈ ops) :
    entry.2.1 ∈ (ops.foldl (pushUsage bytes) usage).1 ∧
      ((entry.2.1 = QuotientOp.pushMemToken.byte ∨
          entry.2.1 = QuotientOp.pushMemTokenOffset.byte) →
        byteAt bytes (entry.1 + 1) ∈ (ops.foldl (pushUsage bytes) usage).2) := by
  induction ops generalizing usage with
  | nil => cases listed
  | cons head ops ih =>
    rcases List.mem_cons.mp listed with rfl | later
    · have kept := usage_fold_keeps bytes ops (pushUsage bytes usage entry)
      refine ⟨kept.1 ((mem_push_unique _ _ _).mpr (Or.inl rfl)), fun isToken => kept.2 ?_⟩
      simp only [pushUsage, if_pos isToken]
      exact (mem_push_unique _ _ _).mpr (Or.inl rfl)
    · exact ih (pushUsage bytes usage head) later

end Midfall.QuotientVmDecoder
