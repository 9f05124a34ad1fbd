import Mathlib

/-!
# Opcode table of the compact quotient-numerator VM

The opcode bytes, their fixed byte lengths and the symbolic memory tokens are
the ABI between the Rust producer and the Yul interpreter. A zero length marks
a form whose length is read from the operands. `0x17`, `0x18` and `0x1a` stay
unassigned.
-/

namespace Midfall.QuotientVmOpcodes

abbrev Byte := UInt8

inductive QuotientOp where
  | pushConst | pushMemLiteral | pushMemToken | pushMemTokenOffset | pushMemU16
  | add | mul | neg | pushConstU8
  | foldMain | foldSelector
  | addConstU8 | mulConstU8 | addConst | mulConst | addMemU16 | mulMemU16
  | addMulMemMemConstU8 | addMulConstU8MemU16 | addMulMemMem
  | runAddMulMemMemConstU8 | runAddMulConstU8MemU16
  | nativePermutation | nativeIdentity
  | lin7 | bilin7Row | bilin7Pairwise | nativeLookup
  | pow5 | modarith7 | affineSum
  deriving DecidableEq, Repr

/-- Encoded byte width of a `u16` operand. -/
def quotientVmByteU16Bytes : Nat := 2
def quotientVmByteU24Bytes : Nat := 3
def quotientVmByteU32Bytes : Nat := 4
/-- Number of limbs in a recognized foreign-field coordinate. -/
def quotientVmLimbs : Nat := 7
def quotientVmPairwiseTerms : Nat := 49
def quotientVmPairwiseCoeffs : Nat := 13
/-- Minimum adjacent fused-op run worth replacing with a run opcode. -/
def quotientVmRunCompactionMinLen : Nat := 4

structure QuotientOpcodeSpec where
  name : String
  op : QuotientOp
  opcode : Byte
  byteLen : Nat

def quotientOpcodeTable : List QuotientOpcodeSpec :=
  [ ⟨"push_const", .pushConst, 0x01, 1 + quotientVmByteU16Bytes⟩,
    ⟨"push_mem_literal", .pushMemLiteral, 0x02, 1 + quotientVmByteU32Bytes⟩,
    ⟨"push_mem_token", .pushMemToken, 0x03, 1 + 1⟩,
    ⟨"push_mem_token_offset", .pushMemTokenOffset, 0x04, 1 + 1 + quotientVmByteU32Bytes⟩,
    ⟨"push_mem_u16", .pushMemU16, 0x05, 1 + quotientVmByteU16Bytes⟩,
    ⟨"add", .add, 0x06, 1⟩,
    ⟨"mul", .mul, 0x07, 1⟩,
    ⟨"neg", .neg, 0x08, 1⟩,
    ⟨"push_const_u8", .pushConstU8, 0x09, 1 + 1⟩,
    ⟨"fold_main", .foldMain, 0x0a, 1⟩,
    ⟨"fold_selector", .foldSelector, 0x0b, 1 + quotientVmByteU24Bytes⟩,
    ⟨"add_const_u8", .addConstU8, 0x0c, 1 + 1⟩,
    ⟨"mul_const_u8", .mulConstU8, 0x0d, 1 + 1⟩,
    ⟨"add_const", .addConst, 0x0e, 1 + quotientVmByteU16Bytes⟩,
    ⟨"mul_const", .mulConst, 0x0f, 1 + quotientVmByteU16Bytes⟩,
    ⟨"add_mem_u16", .addMemU16, 0x10, 1 + quotientVmByteU16Bytes⟩,
    ⟨"mul_mem_u16", .mulMemU16, 0x11, 1 + quotientVmByteU16Bytes⟩,
    ⟨"add_mul_mem_mem_const_u8", .addMulMemMemConstU8, 0x12,
      1 + 2 * quotientVmByteU16Bytes + 1⟩,
    ⟨"add_mul_const_u8_mem_u16", .addMulConstU8MemU16, 0x13, 1 + quotientVmByteU16Bytes + 1⟩,
    ⟨"add_mul_mem_mem", .addMulMemMem, 0x14, 1 + 2 * quotientVmByteU16Bytes⟩,
    ⟨"run_add_mul_mem_mem_const_u8", .runAddMulMemMemConstU8, 0x15, 0⟩,
    ⟨"run_add_mul_const_u8_mem_u16", .runAddMulConstU8MemU16, 0x16, 0⟩,
    ⟨"native_permutation", .nativePermutation, 0x19, 1⟩,
    ⟨"native_lookup", .nativeLookup, 0x1f, 1⟩,
    ⟨"native_identity", .nativeIdentity, 0x1b, 1 + quotientVmByteU16Bytes⟩,
    ⟨"lin7", .lin7, 0x1c, 1 + quotientVmLimbs * (1 + quotientVmByteU16Bytes)⟩,
    ⟨"bilin7_row", .bilin7Row, 0x1d,
      1 + quotientVmByteU16Bytes + quotientVmLimbs * (1 + quotientVmByteU16Bytes)⟩,
    ⟨"bilin7_pairwise", .bilin7Pairwise, 0x1e,
      1 + 2 * quotientVmByteU16Bytes + quotientVmPairwiseCoeffs⟩,
    ⟨"modarith7", .modarith7, 0x21, 0⟩,
    ⟨"pow5", .pow5, 0x20, 1⟩,
    ⟨"affine_sum", .affineSum, 0x22, 0⟩ ]

def quotientOpcodeSpec (opcode : Byte) : Option QuotientOpcodeSpec :=
  quotientOpcodeTable.find? (·.opcode == opcode)

/-- The fixed byte length of an opcode; dynamic forms return `none`. -/
def quotientOpcodeByteLen (opcode : Byte) : Option Nat :=
  (quotientOpcodeSpec opcode).bind fun spec =>
    if spec.byteLen ≠ 0 then some spec.byteLen else none

def QuotientOp.spec : QuotientOp → QuotientOpcodeSpec := fun op =>
  (quotientOpcodeTable.find? (·.op == op)).getD ⟨"", op, 0, 0⟩

/-- The `Q_OP_*` constant of an opcode. -/
def QuotientOp.byte (op : QuotientOp) : Byte := op.spec.opcode

def quotientMemTokenTable : List (String × Byte) :=
  [ ("L_0_MPTR", 0x01), ("L_LAST_MPTR", 0x02), ("L_BLIND_MPTR", 0x03), ("BETA_MPTR", 0x04),
    ("GAMMA_MPTR", 0x05), ("X_MPTR", 0x06), ("THETA_MPTR", 0x07),
    ("TRASH_CHALLENGE_MPTR", 0x08), ("INSTANCE_EVAL_MPTR", 0x09) ]

def isQuotientMemToken (token : Byte) : Bool := quotientMemTokenTable.any (·.2 == token)

theorem opcode_spec_of_byte (op : QuotientOp) : quotientOpcodeSpec op.byte = some op.spec := by
  cases op <;> rfl

theorem opcode_spec_op (op : QuotientOp) : op.spec.op = op := by
  cases op <;> rfl

theorem opcode_spec_inverse (opcode : Byte) (spec : QuotientOpcodeSpec)
    (found : quotientOpcodeSpec opcode = some spec) :
    spec = spec.op.spec ∧ opcode = spec.op.byte := by
  have mem := List.mem_of_find?_eq_some found
  have same : spec.opcode = opcode := by simpa using List.find?_some found
  have unique : ∀ entry ∈ quotientOpcodeTable, entry = entry.op.spec := by
    simp only [quotientOpcodeTable, List.forall_mem_cons]
    simp [QuotientOp.spec, quotientOpcodeTable]
  have entry := unique spec mem
  refine ⟨entry, ?_⟩
  rw [QuotientOp.byte, ← entry, same]

theorem opcode_byte_injective (left right : QuotientOp) (same : left.byte = right.byte) :
    left = right := by
  have leftSpec := opcode_spec_of_byte left
  rw [same, opcode_spec_of_byte right] at leftSpec
  rw [← opcode_spec_op left, ← opcode_spec_op right, Option.some.inj leftSpec]

end Midfall.QuotientVmOpcodes
