import Midfall.QuotientVmDecoder
import Midfall.QuotientVmInterpreter

/-!
# Validated quotient programs run safely

The checked decoder, the unchecked decoder and the Yul operand fetch move by
the same amount on every accepted instruction, and the validator's depth is the
interpreter's operand-stack depth. The run lemma follows the validation loop.
-/

namespace Midfall.QuotientVmValidation

open ByteReader QuotientVmOpcodes QuotientVmDecoder List
open Option (bind_eq_bind bind_some map_some)
open QuotientVmInterpreter

variable {bytes : List Byte}

/-! ### Reads inside the program -/

theorem get_inside {idx : Nat} (inside : idx < bytes.length) :
    bytes[idx]? = some (byteAt bytes idx) := by
  simp [byteAt, getElem?_eq_getElem inside, getD_eq_getElem?_getD]

theorem read_u16_inside {idx : Nat} (inside : idx + 2 ≤ bytes.length) :
    readU16 bytes idx = some (wordAt bytes idx) := by
  simp [readU16, wordAt, get_inside (show idx < bytes.length by omega),
    get_inside (show idx + 1 < bytes.length by omega)]

theorem u8_at_inside {idx : Nat} (inside : idx < bytes.length) :
    u8At bytes idx = .ok (byteAt bytes idx).toNat := by
  simp [u8At, get_inside inside]

theorem u16_at_inside {idx : Nat} (inside : idx + 2 ≤ bytes.length) :
    u16At bytes idx = .ok (wordAt bytes idx) := by
  simp [u16At, wordAt, u8_at_inside (show idx < bytes.length by omega),
    u8_at_inside (show idx + 1 < bytes.length by omega), bind, Except.bind, pure, Except.pure]

theorem cond_flag_bit (flags : Byte) :
    (flags &&& qModarith7FlagCond != 0) = (flags.toNat % 2 == 1) := by
  have bit : (flags &&& qModarith7FlagCond).toNat = flags.toNat % 2 := by
    rw [UInt8.toNat_and]
    exact Nat.and_one_is_mod _
  rw [Bool.eq_iff_iff, bne_iff_ne, beq_iff_eq, ne_eq, ← UInt8.toNat_inj, bit, UInt8.toNat_zero]
  omega

theorem const_flag_bit (flags : Byte) :
    (flags &&& qModarith7FlagConst != 0) = (flags.toNat / 2 % 2 == 1) := by
  have bit : (flags &&& qModarith7FlagConst).toNat = (flags.toNat / 2 % 2) * 2 := by
    rw [UInt8.toNat_and]
    refine (Nat.and_two_pow flags.toNat 1).trans ?_
    rw [Nat.toNat_testBit, pow_one]
  rw [Bool.eq_iff_iff, bne_iff_ne, beq_iff_eq, ne_eq, ← UInt8.toNat_inj, bit, UInt8.toNat_zero]
  omega

/-! ### The two length decoders agree -/

theorem run_len_checked {idx payloadBytes len : Nat}
    (checked : quotientRunOpLenChecked bytes idx payloadBytes = .ok len) :
    idx + 3 ≤ bytes.length ∧ len = 3 + wordAt bytes (idx + 1) * payloadBytes := by
  simp only [quotientRunOpLenChecked, bind_ok_iff, require_ok_iff] at checked
  obtain ⟨-, header, checked⟩ := checked
  split at checked
  · cases checked
  · rw [pure_ok_iff] at checked
    exact ⟨header, checked.symm⟩

variable {idx len : Nat}

theorem affine_sum_len_checked (checked : quotientAffineSumOpLenChecked bytes idx = .ok len) :
    idx + 5 ≤ bytes.length ∧
      len = 5 + (wordAt bytes (idx + 1) * 3 + wordAt bytes (idx + 3) * 5) := by
  simp only [quotientAffineSumOpLenChecked, bind_ok_iff, require_ok_iff] at checked
  obtain ⟨-, header, checked⟩ := checked
  split at checked
  · cases checked
  · rw [pure_ok_iff] at checked
    exact ⟨header, checked.symm⟩

/-- Offset of the `MODARITH7` count header. -/
def modarith7Header (bytes : List Byte) (idx : Nat) : Nat :=
  let flags := byteAt bytes (idx + 1)
  idx + 2 + (if flags.toNat % 2 == 1 then 2 else 0) + (if flags.toNat / 2 % 2 == 1 then 1 else 0)

/-- Bytes of the five counted blocks behind the header. -/
def modarith7Payload (bytes : List Byte) (header : Nat) : Nat :=
  (byteAt bytes header).toNat * 21 + (byteAt bytes (header + 1)).toNat * 23 +
    (byteAt bytes (header + 2)).toNat * 17 + (byteAt bytes (header + 3)).toNat * 3 +
    (byteAt bytes (header + 4)).toNat * 5

theorem optional_ok_iff {cursor amount next : Nat} {present : Bool}
    (inside : cursor ≤ bytes.length) :
    advanceQuotientOptional bytes cursor present amount = .ok next ↔
      cursor + (if present then amount else 0) ≤ bytes.length ∧
        cursor + (if present then amount else 0) = next := by
  cases present with
  | true => simp [advanceQuotientOptional, advance_ok_iff]
  | false => simp [advanceQuotientOptional, inside]

theorem modarith7_len_checked (checked : quotientModarith7OpLenChecked bytes idx = .ok len) :
    idx + 2 ≤ bytes.length ∧
      modarith7Header bytes idx + 5 + modarith7Payload bytes (modarith7Header bytes idx) ≤
        bytes.length ∧
      idx + len =
        modarith7Header bytes idx + 5 + modarith7Payload bytes (modarith7Header bytes idx) := by
  simp only [quotientModarith7OpLenChecked, bind_ok_iff, advance_ok_iff, require_ok_iff] at checked
  obtain ⟨_, ⟨-, rfl⟩, -, flagsInside, checked⟩ := checked
  split at checked
  · cases checked
  · simp only [bind_ok_iff, advance_ok_iff] at checked
    obtain ⟨_, ⟨-, rfl⟩, afterCond, condStep, afterConst, constStep, checked⟩ := checked
    rw [optional_ok_iff (by omega)] at condStep
    obtain ⟨condInside, rfl⟩ := condStep
    rw [optional_ok_iff condInside] at constStep
    obtain ⟨constInside, rfl⟩ := constStep
    rw [cond_flag_bit, const_flag_bit] at *
    have header : idx + 1 + 1 + (if (byteAt bytes (idx + 1)).toNat % 2 == 1 then 2 else 0) +
        (if (byteAt bytes (idx + 1)).toNat / 2 % 2 == 1 then 1 else 0) =
          modarith7Header bytes idx := rfl
    rw [quotientVmByteU16Bytes, header] at checked
    simp only [advanceModarith7Blocks, bind_ok_iff, advance_ok_iff, require_ok_iff,
      pure_ok_iff] at checked
    obtain ⟨-, -, _, ⟨-, rfl⟩, _, ⟨_, ⟨-, rfl⟩, _, ⟨-, rfl⟩, _, ⟨-, rfl⟩, _, ⟨-, rfl⟩,
      blocksInside, rfl⟩, rfl⟩ := checked
    have start : idx + 2 ≤ modarith7Header bytes idx := by
      simp only [modarith7Header]
      omega
    simp only [quotientVmLimbs, quotientVmPairwiseCoeffs, quotientVmByteU16Bytes]
      at blocksInside ⊢
    refine ⟨by omega, ?_, ?_⟩ <;> simp only [modarith7Payload] <;> omega

theorem modarith7_len_unchecked (flagsInside : idx + 2 ≤ bytes.length)
    (headerInside : modarith7Header bytes idx + 5 ≤ bytes.length) (total : idx + len =
      modarith7Header bytes idx + 5 + modarith7Payload bytes (modarith7Header bytes idx)) :
    quotientModarith7OpLen bytes idx = some len := by
  have header : (if byteAt bytes (idx + 1) &&& qModarith7FlagConst != 0 then
      (if byteAt bytes (idx + 1) &&& qModarith7FlagCond != 0 then idx + 2 + quotientVmByteU16Bytes
        else idx + 2) + 1
      else if byteAt bytes (idx + 1) &&& qModarith7FlagCond != 0 then
        idx + 2 + quotientVmByteU16Bytes else idx + 2) = modarith7Header bytes idx := by
    rw [cond_flag_bit, const_flag_bit]
    simp only [modarith7Header, quotientVmByteU16Bytes]
    split <;> split <;> rfl
  simp only [quotientModarith7OpLen, get_inside (show idx + 1 < bytes.length by omega),
    bind_eq_bind, bind_some, header]
  rw [get_inside (by omega), get_inside (by omega), get_inside (by omega), get_inside (by omega),
    get_inside (by omega)]
  simp only [bind_some, quotientVmLimbs, quotientVmPairwiseCoeffs, quotientVmByteU16Bytes]
  rw [modarith7Payload] at total
  congr 1
  omega

variable {op : QuotientOp}

/-- On every accepted instruction the unchecked decoder returns the checked length. -/
theorem checked_len_agrees (decoded : decodeByteQuotientInstruction bytes idx = .ok (op, len)) :
    quotientOpLen bytes idx = some len ∧ idx + len ≤ bytes.length := by
  obtain ⟨found, checked, -, pos⟩ := decoded_instruction decoded
  simp only [quotientByteInstructionLenChecked, bind_ok_iff, require_ok_iff, pure_ok_iff]
    at checked
  obtain ⟨_, shape, -, inside, rfl⟩ := checked
  refine ⟨?_, inside⟩
  rw [quotientOpLen, get_inside (by omega)]
  simp only [bind_eq_bind, bind_some, found, opcode_spec_op]
  cases op <;> simp only [quotientInstructionLenChecked] at shape ⊢
  case runAddMulMemMemConstU8 | runAddMulConstU8MemU16 =>
    obtain ⟨header, rfl⟩ := run_len_checked shape
    rw [read_u16_inside (by omega)]
    rfl
  case affineSum =>
    obtain ⟨header, rfl⟩ := affine_sum_len_checked shape
    rw [quotientAffineSumOpLen, read_u16_inside (by omega), read_u16_inside (by omega)]
    simp only [bind_eq_bind, bind_some, quotientVmByteU16Bytes]
    congr 1
    omega
  case modarith7 =>
    obtain ⟨flagsInside, blocksInside, total⟩ := modarith7_len_checked shape
    exact modarith7_len_unchecked flagsInside (by omega) total
  all_goals
    cases fixed : quotientOpcodeByteLen (byteAt bytes idx) with
    | none => simp [fixed] at shape
    | some length => simpa [fixed] using shape

/-! ### The Yul operand fetch moves by the checked length -/

theorem fetch_optional_total {Value : Type} {fetch : Fetch Value} {width : Nat}
    (fixed : FixedWidth bytes.length fetch width) (present : Bool) (pc : Nat)
    (inside : pc + (if present then width else 0) ≤ bytes.length) :
    ∃ value, fetchOptional present fetch pc =
      .ok (value, pc + if present then width else 0) := by
  cases present with
  | true =>
    obtain ⟨value, read⟩ := fixed.total pc (by simpa using inside)
    exact ⟨some value, by simp [fetchOptional, read, bind, Except.bind, pure, Except.pure]⟩
  | false => exact ⟨none, by simp [fetchOptional, pure, Except.pure]⟩

theorem fetch_modarith7_total (flagsInside : idx + 2 ≤ bytes.length)
    (inside : modarith7Header bytes idx + 5 +
      modarith7Payload bytes (modarith7Header bytes idx) ≤ bytes.length) (total : idx + len =
      modarith7Header bytes idx + 5 + modarith7Payload bytes (modarith7Header bytes idx)) :
    ∃ shape, fetchModarith7 bytes (idx + 1) = .ok (shape, idx + len) := by
  obtain ⟨header, headerEq⟩ : ∃ header, header = modarith7Header bytes idx := ⟨_, rfl⟩
  rw [← headerEq] at inside total
  rw [modarith7Payload] at inside total
  have headerSplit := headerEq
  simp only [modarith7Header] at headerSplit
  obtain ⟨cond, condRead⟩ := fetch_optional_total (fetch_ptr_width bytes)
    ((byteAt bytes (idx + 1)).toNat % 2 == 1) (idx + 1 + 1) (by omega)
  obtain ⟨constant, constantRead⟩ := fetch_optional_total (fetch_slot_width bytes)
    ((byteAt bytes (idx + 1)).toNat / 2 % 2 == 1)
    (idx + 1 + 1 + if (byteAt bytes (idx + 1)).toNat % 2 == 1 then 2 else 0) (by omega)
  rw [← headerSplit] at constantRead
  obtain ⟨lin, linRead⟩ := ((fetch_lin7_width bytes).repeat (byteAt bytes header).toNat).total (header + 5) (by omega)
  obtain ⟨rows, rowsRead⟩ := ((fetch_row_width bytes).repeat
    (byteAt bytes (header + 1)).toNat).total (header + 5 + (byteAt bytes header).toNat * 21) (by omega)
  obtain ⟨pairwise, pairwiseRead⟩ := ((fetch_pairwise_width bytes).repeat
    (byteAt bytes (header + 2)).toNat).total (header + 5 + (byteAt bytes header).toNat * 21 +
      (byteAt bytes (header + 1)).toNat * 23) (by omega)
  obtain ⟨memTerms, memRead⟩ := ((fetch_lin_term_width bytes).repeat
    (byteAt bytes (header + 3)).toNat).total (header + 5 + (byteAt bytes header).toNat * 21 +
      (byteAt bytes (header + 1)).toNat * 23 + (byteAt bytes (header + 2)).toNat * 17) (by omega)
  obtain ⟨products, productsRead⟩ := ((fetch_product_term_width bytes).repeat
    (byteAt bytes (header + 4)).toNat).total (header + 5 + (byteAt bytes header).toNat * 21 +
      (byteAt bytes (header + 1)).toNat * 23 + (byteAt bytes (header + 2)).toNat * 17 +
      (byteAt bytes (header + 3)).toNat * 3) (by omega)
  refine ⟨⟨cond, constant, lin, rows, pairwise, memTerms, products⟩, ?_⟩
  simp only [fetchModarith7, u8_at_inside (show idx + 1 < bytes.length by omega),
    u8_at_inside (show header < bytes.length by omega),
    u8_at_inside (show header + 1 < bytes.length by omega),
    u8_at_inside (show header + 2 < bytes.length by omega),
    u8_at_inside (show header + 3 < bytes.length by omega),
    u8_at_inside (show header + 4 < bytes.length by omega), condRead, constantRead, linRead,
    rowsRead, pairwiseRead, memRead, productsRead, bind, Except.bind, pure, Except.pure]
  congr 2
  omega

theorem u32_at_inside {idx : Nat} (inside : idx + 4 ≤ bytes.length) :
    u32At bytes idx = .ok (wordAt bytes idx * 65536 + wordAt bytes (idx + 2)) := by
  simp [u32At, u16_at_inside (show idx + 2 ≤ bytes.length by omega),
    u16_at_inside (show idx + 2 + 2 ≤ bytes.length by omega), bind, Except.bind, pure, Except.pure]

theorem fixed_len_of_checked (length : Nat)
    (found : quotientOpcodeSpec (byteAt bytes idx) = some op.spec)
    (fixed : op.spec.byteLen = length) (nonzero : length ≠ 0)
    (checked : (match quotientOpcodeByteLen (byteAt bytes idx) with
      | some len => Except.ok len
      | none => Except.error (.unknownOpcode (byteAt bytes idx) idx) : Checked Nat) = .ok len) :
    len = length := by
  rw [quotientOpcodeByteLen, found, bind_some, fixed, if_pos nonzero] at checked
  cases checked
  rfl

/-- The Yul switch case of an accepted instruction reads only program bytes and
leaves `q_pc` at the next instruction. -/
theorem fetch_operands_total (decoded : decodeByteQuotientInstruction bytes idx = .ok (op, len)) :
    ∃ instr, fetchOperands bytes op (idx + 1) = .ok (instr, idx + len) ∧ instr.op = op := by
  obtain ⟨found, checked, -, pos⟩ := decoded_instruction decoded
  simp only [quotientByteInstructionLenChecked, bind_ok_iff, require_ok_iff, pure_ok_iff]
    at checked
  obtain ⟨_, shape, -, inside, rfl⟩ := checked
  cases op <;> simp only [quotientInstructionLenChecked] at shape
  case runAddMulMemMemConstU8 =>
    obtain ⟨header, rfl⟩ := run_len_checked shape
    obtain ⟨terms, termsRead⟩ := ((fetch_ptr_product_width bytes).repeat
      (wordAt bytes (idx + 1))).total (idx + 1 + 2)
      (by simp only [quotientVmByteU16Bytes] at inside; omega)
    refine ⟨.runAddMulMemMemConstU8 terms, ?_, rfl⟩
    simp only [fetchOperands, u16_at_inside (show idx + 1 + 2 ≤ bytes.length by omega), termsRead,
      bind, Except.bind, pure, Except.pure, quotientVmByteU16Bytes]
    congr 2
    omega
  case runAddMulConstU8MemU16 =>
    obtain ⟨header, rfl⟩ := run_len_checked shape
    obtain ⟨terms, termsRead⟩ := ((fetch_ptr_term_width bytes).repeat
      (wordAt bytes (idx + 1))).total (idx + 1 + 2)
      (by simp only [quotientVmByteU16Bytes] at inside; omega)
    refine ⟨.runAddMulConstU8MemU16 terms, ?_, rfl⟩
    simp only [fetchOperands, u16_at_inside (show idx + 1 + 2 ≤ bytes.length by omega), termsRead,
      bind, Except.bind, pure, Except.pure, quotientVmByteU16Bytes]
    congr 2
    omega
  case affineSum =>
    obtain ⟨header, rfl⟩ := affine_sum_len_checked shape
    obtain ⟨lin, linRead⟩ := ((fetch_ptr_term_width bytes).repeat
      (wordAt bytes (idx + 1))).total (idx + 1 + 4) (by omega)
    obtain ⟨products, productsRead⟩ := ((fetch_ptr_product_width bytes).repeat
      (wordAt bytes (idx + 3))).total (idx + 1 + 4 + wordAt bytes (idx + 1) * 3) (by omega)
    refine ⟨.affineSum lin products, ?_, rfl⟩
    simp only [fetchOperands, u16_at_inside (show idx + 1 + 2 ≤ bytes.length by omega),
      u16_at_inside (show idx + 1 + 2 + 2 ≤ bytes.length by omega), linRead, productsRead,
      bind, Except.bind, pure, Except.pure]
    congr 2
    omega
  case modarith7 =>
    obtain ⟨flagsInside, blocksInside, total⟩ := modarith7_len_checked shape
    obtain ⟨shape, shapeRead⟩ := fetch_modarith7_total flagsInside blocksInside total
    exact ⟨.modarith7 shape, by
      simp only [fetchOperands, shapeRead, bind, Except.bind, pure, Except.pure], rfl⟩
  case add | mul | neg | pow5 | foldMain | nativePermutation | nativeLookup =>
    obtain rfl := fixed_len_of_checked 1 found rfl (by decide) shape
    exact ⟨_, rfl, rfl⟩
  case pushMemToken | pushConstU8 | addConstU8 | mulConstU8 =>
    obtain rfl := fixed_len_of_checked 2 found rfl (by decide) shape
    simp [fetchOperands, u8_at_inside (show idx + 1 < bytes.length by omega), bind, Except.bind,
      pure, Except.pure, Instr.op]
  case pushConst | pushMemU16 | addConst | mulConst | addMemU16 | mulMemU16 | nativeIdentity =>
    obtain rfl := fixed_len_of_checked 3 found rfl (by decide) shape
    simp [fetchOperands, u16_at_inside (show idx + 1 + 2 ≤ bytes.length by omega), bind,
      Except.bind, pure, Except.pure, Instr.op]
  case foldSelector =>
    obtain rfl := fixed_len_of_checked 4 found rfl (by decide) shape
    simp [fetchOperands, u8_at_inside (show idx + 1 < bytes.length by omega),
      u16_at_inside (show idx + 1 + 1 + 2 ≤ bytes.length by omega), bind, Except.bind, pure,
      Except.pure, Instr.op]
  case pushMemLiteral =>
    obtain rfl := fixed_len_of_checked 5 found rfl (by decide) shape
    simp [fetchOperands, u32_at_inside (show idx + 1 + 4 ≤ bytes.length by omega), bind,
      Except.bind, pure, Except.pure, Instr.op]
  case addMulMemMem =>
    obtain rfl := fixed_len_of_checked 5 found rfl (by decide) shape
    simp [fetchOperands, u16_at_inside (show idx + 1 + 2 ≤ bytes.length by omega),
      u16_at_inside (show idx + 1 + 2 + 2 ≤ bytes.length by omega), bind, Except.bind, pure,
      Except.pure, Instr.op]
  case addMulConstU8MemU16 =>
    obtain rfl := fixed_len_of_checked 4 found rfl (by decide) shape
    obtain ⟨term, termRead⟩ := (fetch_ptr_term_width bytes).total (idx + 1) inside
    exact ⟨.addMulConstU8MemU16 term, by
      simp only [fetchOperands, termRead, bind, Except.bind, pure, Except.pure], rfl⟩
  case addMulMemMemConstU8 =>
    obtain rfl := fixed_len_of_checked 6 found rfl (by decide) shape
    obtain ⟨term, termRead⟩ := (fetch_ptr_product_width bytes).total (idx + 1) inside
    exact ⟨.addMulMemMemConstU8 term, by
      simp only [fetchOperands, termRead, bind, Except.bind, pure, Except.pure], rfl⟩
  case pushMemTokenOffset =>
    obtain rfl := fixed_len_of_checked 6 found rfl (by decide) shape
    simp [fetchOperands, u8_at_inside (show idx + 1 < bytes.length by omega),
      u32_at_inside (show idx + 1 + 1 + 4 ≤ bytes.length by omega), bind, Except.bind, pure,
      Except.pure, Instr.op]
  case lin7 =>
    obtain rfl := fixed_len_of_checked 22 found rfl (by decide) shape
    obtain ⟨terms, termsRead⟩ := (fetch_lin7_width bytes).total (idx + 1) inside
    exact ⟨.lin7 terms, by
      simp only [fetchOperands, termsRead, bind, Except.bind, pure, Except.pure], rfl⟩
  case bilin7Row =>
    obtain rfl := fixed_len_of_checked 24 found rfl (by decide) shape
    obtain ⟨row, rowRead⟩ := (fetch_row_width bytes).total (idx + 1) inside
    exact ⟨.bilin7Row row, by
      simp only [fetchOperands, rowRead, bind, Except.bind, pure, Except.pure], rfl⟩
  case bilin7Pairwise =>
    obtain rfl := fixed_len_of_checked 18 found rfl (by decide) shape
    obtain ⟨block, blockRead⟩ := (fetch_pairwise_width bytes).total (idx + 1) inside
    exact ⟨.bilin7Pairwise block, by
      simp only [fetchOperands, blockRead, bind, Except.bind, pure, Except.pure], rfl⟩

/-! ### The validator's depth is the interpreter's depth -/

/-- An empty cached top means an empty operand stack. -/
structure Matches (usage : StackUsage) (state : VmState) : Prop where
  depth : state.depth = usage.depth
  emptyTop : state.hasTop = false → state.spill = []

section StackLemmas

variable {usage : StackUsage} {state : VmState}

section

variable (matching : Matches usage state)

include matching

theorem Matches.top_live (live : 0 < usage.depth) : state.hasTop = true := by
  cases top : state.hasTop with
  | true => rfl
  | false =>
    have depth := matching.depth
    simp [VmState.depth, top, matching.emptyTop top] at depth
    omega

theorem Matches.push (word : Nat) :
    Matches { depth := usage.depth + 1, maxStack := max usage.maxStack (usage.depth + 1) }
      (state.push word) where
  depth := by
    have depth := matching.depth
    cases top : state.hasTop with
    | true => simpa [VmState.push, VmState.depth, top] using depth
    | false => simpa [VmState.push, VmState.depth, top] using depth
  emptyTop := by simp [VmState.push]

theorem Matches.update (live : 0 < usage.depth) (change : Nat → Nat) :
    ∃ next, state.update change = .ok next ∧ Matches usage next := by
  have top := matching.top_live live
  refine ⟨_, if_pos top, matching.depth, ?_⟩
  intro empty
  exact absurd (top.symm.trans empty) (by decide)

theorem Matches.binary (live : 2 ≤ usage.depth) (combine : Nat → Nat → Nat) :
    ∃ next, state.binary combine = .ok next ∧
      Matches { usage with depth := usage.depth - 1 } next := by
  have top := matching.top_live (by omega)
  have depth := matching.depth
  rw [VmState.depth, top] at depth
  cases spilled : state.spill with
  | nil => simp [spilled] at depth; omega
  | cons word rest =>
    refine ⟨_, by rw [VmState.binary, if_pos top, spilled], ?_, ?_⟩
    · simp only [spilled, length_cons, Bool.toNat_true] at depth
      simp only [VmState.depth, top, Bool.toNat_true]
      omega
    · intro empty
      exact absurd (top.symm.trans empty) (by decide)

theorem Matches.fold (single : usage.depth = 1) (absorb : Nat → Accumulators → Accumulators) :
    ∃ next, state.fold absorb = .ok next ∧ Matches { usage with depth := 0 } next := by
  have top := matching.top_live (by omega)
  have depth := matching.depth
  rw [VmState.depth, top, single, Bool.toNat_true] at depth
  have spilled : state.spill = [] := length_eq_zero_iff.mp (by omega)
  exact ⟨_, if_pos top, by simp [VmState.depth, spilled], fun _ => spilled⟩

end

theorem Matches.native (empty : usage.depth = 0)
    {callback : Option (Accumulators → Accumulators)} (rendered : callback.isSome = true) :
    ∃ next, state.native callback = .ok next ∧ Matches usage next := by
  obtain ⟨body, rfl⟩ := Option.isSome_iff_exists.mp rendered
  exact ⟨_, rfl, by simp [VmState.depth, empty], fun _ => rfl⟩

end StackLemmas

/-! ### Rendered programs -/

/-- The block is rendered from the program and its reported usage. -/
structure Renders (frame : QuotientFrame) (bytes : List Byte) : Prop where
  code : frame.code = bytes
  usage : quotientProgramUsage bytes = some (frame.usedOps, frame.usedMemTokens)

/-- Every native marker has a callback body, as the execution manifest checks. -/
def NativeMarkersRendered (frame : QuotientFrame) (bytes : List Byte) : Prop :=
  ∀ ops, quotientBytecodeOps bytes = some ops → ∀ entry ∈ ops,
    (entry.2.1 = QuotientOp.nativePermutation.byte → frame.nativePermutation.isSome = true) ∧
      (entry.2.1 = QuotientOp.nativeLookup.byte → frame.nativeLookup.isSome = true) ∧
      (entry.2.1 = QuotientOp.nativeIdentity.byte →
        wordAt bytes (entry.1 + 1) < frame.nativeIdentities.length)

variable {frame : QuotientFrame}

theorem resolve_used_token {token : Byte} (known : isQuotientMemToken token = true)
    (used : token ∈ frame.usedMemTokens) :
    frame.resolveToken token.toNat = .ok (frame.tokenPtr token.toNat) := by
  simp [QuotientFrame.resolveToken, known, used]

theorem u8_at_value {idx value : Nat} (read : u8At bytes idx = .ok value) :
    value = (byteAt bytes idx).toNat := by
  by_cases inside : idx < bytes.length
  · rw [u8_at_inside inside] at read
    exact (Except.ok.inj read).symm
  · simp [u8At, getElem?_eq_none (Nat.le_of_not_lt inside)] at read

/-- What an instruction needs from the rendered switch besides stack values. -/
def Served (frame : QuotientFrame) : Instr → Prop
  | .pushMemToken token => ∃ ptr, frame.resolveToken token = .ok ptr
  | .pushMemTokenOffset token _ => ∃ ptr, frame.resolveToken token = .ok ptr
  | .nativePermutation => frame.nativePermutation.isSome = true
  | .nativeLookup => frame.nativeLookup.isSome = true
  | .nativeIdentity index => index < frame.nativeIdentities.length
  | _ => True

variable {ops : List (Nat × Byte × Nat)}

theorem served_of_listed (renders : Renders frame bytes)
    (natives : NativeMarkersRendered frame bytes) (walk : quotientBytecodeOps bytes = some ops)
    {instr : Instr} (inside : idx + len ≤ bytes.length) (listed : (idx, instr.op.byte, len) ∈ ops)
    (known : instr.op = .pushMemToken ∨ instr.op = .pushMemTokenOffset →
      isQuotientMemToken (byteAt bytes (idx + 1)) = true)
    (fetched : fetchOperands bytes instr.op (idx + 1) = .ok (instr, idx + len)) :
    Served frame instr := by
  obtain ⟨permutation, lookup, identity⟩ := natives ops walk _ listed
  have used := (usage_covers bytes ops ([], []) _ listed).2
  have usage := renders.usage
  rw [quotientProgramUsage, walk, map_some, Option.some.injEq, Prod.mk.injEq] at usage
  rw [usage.2] at used
  cases instr <;> simp only [Served]
  case pushMemToken token =>
    simp only [Instr.op, fetchOperands, bind_ok_iff, pure_ok_iff, Prod.mk.injEq, Instr.pushMemToken.injEq]
      at fetched
    obtain ⟨_, read, rfl, -⟩ := fetched
    rw [u8_at_value read]
    exact ⟨_, resolve_used_token (known (Or.inl rfl)) (used (Or.inl rfl))⟩
  case pushMemTokenOffset token offset =>
    simp only [Instr.op, fetchOperands, bind_ok_iff, pure_ok_iff, Prod.mk.injEq,
      Instr.pushMemTokenOffset.injEq] at fetched
    obtain ⟨_, read, _, -, ⟨rfl, -⟩, -⟩ := fetched
    rw [u8_at_value read]
    exact ⟨_, resolve_used_token (known (Or.inr rfl)) (used (Or.inr rfl))⟩
  case nativePermutation => exact permutation rfl
  case nativeLookup => exact lookup rfl
  case nativeIdentity index =>
    simp only [Instr.op, fetchOperands, bind_ok_iff, pure_ok_iff, Prod.mk.injEq,
      Instr.nativeIdentity.injEq] at fetched
    obtain ⟨_, read, rfl, width⟩ := fetched
    rw [u16_at_inside (by omega)] at read
    cases read
    exact identity rfl

theorem exec_validated {instr : Instr} (served : Served frame instr) {idx : Nat}
    {usage next : StackUsage} (effect : applyQuotientStackEffect instr.op idx usage = .ok next)
    {state : VmState} (matching : Matches usage state) :
    ∃ after, frame.exec instr state = .ok after ∧ Matches next after := by
  cases instr <;>
    simp only [Instr.op, applyQuotientStackEffect, requireQuotientStackDepth, bind_ok_iff,
      pure_ok_iff, Except.ok.injEq] at effect
  case pushMemToken token =>
    obtain ⟨ptr, resolved⟩ := served
    subst effect
    exact ⟨_, by simp only [QuotientFrame.exec, resolved]; rfl, matching.push _⟩
  case pushMemTokenOffset token offset =>
    obtain ⟨ptr, resolved⟩ := served
    subst effect
    exact ⟨_, by simp only [QuotientFrame.exec, resolved]; rfl, matching.push _⟩
  case pushConst | pushMemLiteral | pushMemU16 | pushConstU8 | lin7 | bilin7Row |
      bilin7Pairwise | modarith7 =>
    subst effect
    exact ⟨_, rfl, matching.push _⟩
  case add | mul =>
    obtain ⟨_, enough, rfl⟩ := effect
    split at enough
    · cases enough
    · exact matching.binary (by omega) _
  case foldMain | foldSelector =>
    split at effect
    · cases effect
    · cases effect
      exact matching.fold (by omega) _
  case nativePermutation | nativeLookup =>
    split at effect
    · cases effect
    · cases effect
      exact Matches.native (by omega) served
  case nativeIdentity index =>
    split at effect
    · cases effect
    · cases effect
      exact Matches.native (by omega) (by simpa [Served] using served)
  all_goals
    obtain ⟨_, enough, rfl⟩ := effect
    split at enough
    · cases enough
    · simp only [QuotientFrame.exec]
      exact matching.update (by omega) _

/-! ### The run follows the validation loop -/

theorem validate_step {idx : Nat} {usage final : StackUsage} (inside : idx < bytes.length)
    (validated : validateQuotientFrom bytes idx usage = .ok final) :
    ∃ op len next, decodeByteQuotientInstruction bytes idx = .ok (op, len) ∧
      applyQuotientStackEffect op idx usage = .ok next ∧
      validateQuotientFrom bytes (idx + len) next = .ok final := by
  rw [validateQuotientFrom, if_pos inside] at validated
  split at validated
  · cases validated
  · rename_i op len decoded
    split at validated
    · cases validated
    · rename_i next effect
      exact ⟨op, len, next, decoded, effect, validated⟩

theorem validate_stop {idx : Nat} {usage final : StackUsage} (outside : ¬idx < bytes.length)
    (validated : validateQuotientFrom bytes idx usage = .ok final) : usage = final := by
  rw [validateQuotientFrom, if_neg outside] at validated
  exact Except.ok.inj validated

theorem walk_step (inside : idx < bytes.length) (found : quotientOpLen bytes idx = some len) :
    quotientBytecodeOpsFrom bytes idx =
      (quotientBytecodeOpsFrom bytes (idx + len)).map ((idx, bytes[idx], len) :: ·) := by
  rw [quotientBytecodeOpsFrom, dif_pos inside]
  split
  · rename_i missing
    rw [found] at missing
    cases missing
  · rename_i length decoded
    rw [found] at decoded
    cases decoded
    rfl

/-- One stack effect never lowers the reported maximum, and keeps the depth below it. -/
theorem effect_bounds {idx : Nat} {usage next : StackUsage} (bounded : usage.depth ≤ usage.maxStack)
    (effect : applyQuotientStackEffect op idx usage = .ok next) :
    next.depth ≤ next.maxStack ∧ usage.maxStack ≤ next.maxStack := by
  cases op <;>
    simp only [applyQuotientStackEffect, requireQuotientStackDepth, bind_ok_iff, pure_ok_iff,
      Except.ok.injEq] at effect
  case pushConst | pushMemLiteral | pushMemToken | pushMemTokenOffset | pushMemU16 | pushConstU8 |
      lin7 | bilin7Row | bilin7Pairwise | modarith7 =>
    subst effect
    exact ⟨Nat.le_max_right _ _, Nat.le_max_left _ _⟩
  case foldMain | foldSelector =>
    split at effect
    · cases effect
    · cases effect
      exact ⟨Nat.zero_le _, Nat.le_refl _⟩
  case nativePermutation | nativeLookup | nativeIdentity =>
    split at effect
    · cases effect
    · cases effect
      exact ⟨bounded, Nat.le_refl _⟩
  case add | mul =>
    obtain ⟨_, -, rfl⟩ := effect
    exact ⟨(Nat.sub_le _ _).trans bounded, Nat.le_refl _⟩
  all_goals
    obtain ⟨_, -, rfl⟩ := effect
    exact ⟨bounded, Nat.le_refl _⟩

theorem validate_walk {idx : Nat} {usage final : StackUsage}
    (validated : validateQuotientFrom bytes idx usage = .ok final) :
    ∃ ops, quotientBytecodeOpsFrom bytes idx = some ops := by
  by_cases inside : idx < bytes.length
  · obtain ⟨op, len, next, decoded, -, rest⟩ := validate_step inside validated
    have progress := decoded_length_positive decoded
    obtain ⟨ops, walk⟩ := validate_walk rest
    exact ⟨_, by rw [walk_step inside (checked_len_agrees decoded).1, walk, map_some]⟩
  · exact ⟨[], by rw [quotientBytecodeOpsFrom, dif_neg inside]⟩
termination_by bytes.length - idx

theorem validate_max_stack {idx : Nat} {usage final : StackUsage}
    (bounded : usage.depth ≤ usage.maxStack)
    (validated : validateQuotientFrom bytes idx usage = .ok final) :
    usage.maxStack ≤ final.maxStack := by
  by_cases inside : idx < bytes.length
  · obtain ⟨op, len, next, decoded, effect, rest⟩ := validate_step inside validated
    have progress := decoded_length_positive decoded
    have bounds := effect_bounds bounded effect
    exact bounds.2.trans (validate_max_stack bounds.1 rest)
  · rw [validate_stop inside validated]
termination_by bytes.length - idx

/-- What links an interpreter configuration to the rest of the validation loop. -/
structure Validated (bytes : List Byte) (ops : List (Nat × Byte × Nat)) (final : StackUsage)
    (pc : Nat) (state : VmState) : Prop where
  inside : pc ≤ bytes.length
  rest : ∃ usage, validateQuotientFrom bytes pc usage = .ok final ∧ Matches usage state ∧
    usage.depth ≤ usage.maxStack
  walk : ∃ later, quotientBytecodeOpsFrom bytes pc = some later ∧ later ⊆ ops

theorem Validated.bounded {ops : List (Nat × Byte × Nat)} {final : StackUsage} {pc : Nat}
    {state : VmState} (validated : Validated bytes ops final pc state) :
    state.depth ≤ final.maxStack := by
  obtain ⟨usage, rest, matching, bounded⟩ := validated.rest
  rw [matching.depth]
  exact bounded.trans (validate_max_stack bounded rest)

/-- Both decoders and the interpreter take the same step, which stays validated. -/
theorem validated_step (renders : Renders frame bytes) (natives : NativeMarkersRendered frame bytes)
    (all : quotientBytecodeOps bytes = some ops) {final : StackUsage} {pc : Nat} {state : VmState}
    (validated : Validated bytes ops final pc state) (running : pc < bytes.length) :
    ∃ len instr after, decodeByteQuotientInstruction bytes pc = .ok (instr.op, len) ∧
      quotientOpLen bytes pc = some len ∧ frame.fetch pc = .ok (instr, pc + len) ∧
      frame.exec instr state = .ok after ∧ Validated bytes ops final (pc + len) after := by
  obtain ⟨usage, rest, matching, bounded⟩ := validated.rest
  obtain ⟨later, walk, listed⟩ := validated.walk
  obtain ⟨op, len, next, decoded, effect, rest⟩ := validate_step running rest
  obtain ⟨unchecked, inside⟩ := checked_len_agrees decoded
  obtain ⟨found, -, tokens, -⟩ := decoded_instruction decoded
  obtain ⟨instr, fetched, rfl⟩ := fetch_operands_total decoded
  rw [walk_step running unchecked] at walk
  obtain ⟨after, walkAfter, rfl⟩ := Option.map_eq_some_iff.mp walk
  have opcode : bytes[pc] = instr.op.byte := by
    have same := (opcode_spec_inverse _ _ found).2
    rw [opcode_spec_op] at same
    rw [← same, byteAt, getD_eq_getElem _ _ running]
  rw [opcode] at listed
  have mem : (pc, instr.op.byte, len) ∈ ops := listed (mem_cons_self ..)
  have served := served_of_listed renders natives all inside mem tokens fetched
  have used := (usage_covers bytes ops ([], []) _ mem).1
  have usageEq := renders.usage
  rw [quotientProgramUsage, all, map_some, Option.some.injEq, Prod.mk.injEq] at usageEq
  rw [usageEq.1] at used
  obtain ⟨state', executed, matching'⟩ := exec_validated served effect matching
  refine ⟨len, instr, state', decoded, unchecked, ?_, executed, inside, ⟨next, rest, matching',
    (effect_bounds bounded effect).1⟩, after, walkAfter, fun _ mem =>
      listed (mem_cons_of_mem _ mem)⟩
  rw [QuotientFrame.fetch, renders.code, getElem?_eq_getElem running, opcode]
  simp only [opcode_spec_of_byte, opcode_spec_op]
  rw [if_pos (by simpa using used), fetched]

/-- Configurations the interpreter loop passes through. -/
inductive Reaches (frame : QuotientFrame) (start : VmState) : Nat → VmState → Prop
  | start : Reaches frame start 0 start
  | next {pc next : Nat} {state after : VmState} {instr : Instr} :
      Reaches frame start pc state → pc < frame.code.length →
      frame.fetch pc = .ok (instr, next) → frame.exec instr state = .ok after →
      Reaches frame start next after

theorem reaches_validated (renders : Renders frame bytes)
    (natives : NativeMarkersRendered frame bytes) (all : quotientBytecodeOps bytes = some ops)
    {final : StackUsage} {start : VmState} (initial : Validated bytes ops final 0 start) {pc : Nat}
    {state : VmState} (reached : Reaches frame start pc state) :
    Validated bytes ops final pc state := by
  induction reached with
  | start => exact initial
  | next _ running fetched executed validated =>
    obtain ⟨len, instr, after, -, -, sameFetch, sameExec, validatedNext⟩ :=
      validated_step renders natives all validated (renders.code ▸ running)
    rw [fetched] at sameFetch
    cases sameFetch
    rw [executed] at sameExec
    cases sameExec
    exact validatedNext

theorem run_loop_validated {frame : QuotientFrame} (renders : Renders frame bytes)
    (natives : NativeMarkersRendered frame bytes) {ops : List (Nat × Byte × Nat)}
    (all : quotientBytecodeOps bytes = some ops) {final : StackUsage} {pc : Nat} {state : VmState}
    (validated : Validated bytes ops final pc state) :
    ∃ stopped, frame.runLoop pc state = .ok (bytes.length, stopped) ∧ Matches final stopped := by
  by_cases running : pc < bytes.length
  · obtain ⟨len, instr, after, decoded, -, fetched, executed, next⟩ :=
      validated_step renders natives all validated running
    have progress := decoded_length_positive decoded
    obtain ⟨stopped, ran, matching⟩ := run_loop_validated renders natives all next
    refine ⟨stopped, ?_, matching⟩
    rw [QuotientFrame.runLoop, renders.code, if_pos running]
    split
    · rename_i fault fetchedFault
      rw [fetched] at fetchedFault
      cases fetchedFault
    · rename_i instr' next' fetchedAgain
      rw [fetched] at fetchedAgain
      cases fetchedAgain
      rw [executed]
      exact ran
  · obtain ⟨usage, rest, matching, -⟩ := validated.rest
    have stop : pc = bytes.length := Nat.le_antisymm validated.inside (Nat.le_of_not_lt running)
    refine ⟨state, ?_, validate_stop running rest ▸ matching⟩
    rw [QuotientFrame.runLoop, renders.code, if_neg running, stop]
termination_by bytes.length - pc

/-- Every accepted program runs to its end with an empty stack; at every
configuration on the way the three decoders agree on the next instruction, its
operands lie inside the program, and the stack neither underflows nor exceeds
the reported depth. -/
theorem validated_program_runs_safely (bytes : List Byte) (maxStack : Nat)
    (accepted : validateQuotientProgram bytes = .ok maxStack) (frame : QuotientFrame)
    (renders : Renders frame bytes) (natives : NativeMarkersRendered frame bytes)
    (acc : Accumulators) :
    (∀ pc state, Reaches frame (initialState acc) pc state →
      state.depth ≤ maxStack ∧
        (pc = bytes.length ∧ state.depth = 0 ∨
          ∃ len instr after, pc + len ≤ bytes.length ∧
            decodeByteQuotientInstruction bytes pc = .ok (instr.op, len) ∧
            quotientOpLen bytes pc = some len ∧ frame.fetch pc = .ok (instr, pc + len) ∧
            frame.exec instr state = .ok after)) ∧
      ∃ stopped, frame.runLoop 0 (initialState acc) = .ok (bytes.length, stopped) ∧
        frame.run (initialState acc) = .ok stopped ∧ stopped.depth = 0 := by
  simp only [validateQuotientProgram, bind_ok_iff] at accepted
  obtain ⟨final, validated, accepted⟩ := accepted
  split at accepted
  · cases accepted
  · rename_i drained
    cases accepted
    obtain ⟨ops, walk⟩ := validate_walk validated
    have initial : Validated bytes ops final 0 (initialState acc) :=
      { inside := Nat.zero_le _
        rest := ⟨_, validated, ⟨rfl, fun _ => rfl⟩, Nat.le_refl _⟩
        walk := ⟨ops, walk, List.Subset.refl _⟩ }
    constructor
    · intro pc state reached
      have here := reaches_validated renders natives walk initial reached
      refine ⟨here.bounded, ?_⟩
      by_cases running : pc < bytes.length
      · obtain ⟨len, instr, after, decoded, unchecked, fetched, executed, next⟩ :=
          validated_step renders natives walk here running
        exact Or.inr ⟨len, instr, after, next.inside, decoded, unchecked, fetched, executed⟩
      · obtain ⟨usage, rest, matching, -⟩ := here.rest
        left
        refine ⟨Nat.le_antisymm here.inside (Nat.le_of_not_lt running), ?_⟩
        rw [matching.depth, validate_stop running rest]
        exact Decidable.not_not.mp drained
    · obtain ⟨stopped, ran, matching⟩ := run_loop_validated renders natives walk initial
      have empty : stopped.depth = 0 := matching.depth.trans (Decidable.not_not.mp drained)
      refine ⟨stopped, ran, ?_, empty⟩
      have noTop : stopped.hasTop = false := by
        cases top : stopped.hasTop with
        | false => rfl
        | true => simp [VmState.depth, top] at empty
      rw [QuotientFrame.run, ran]
      simp [bind, Except.bind, pure, Except.pure, renders.code, noTop]

/-- Two pushes, a multiplication, a two-term run, a native marker and both folds. -/
def sampleProgram : List Byte :=
  [0x09, 0, 0x03, 0x04, 0x07, 0x16, 0, 2, 0, 64, 1, 0, 96, 1, 0x0a, 0x1b, 0, 0, 0x05, 0, 32,
    0x0b, 0, 0, 0]

def sampleFrame : QuotientFrame where
  code := sampleProgram
  constants := fun slot => slot + 1
  memory := id
  tokenPtr := fun token => 1024 + 32 * token
  y := 7
  selectorPower := fun _ => 1
  usedOps := [0x03, 0x05, 0x07, 0x09, 0x0a, 0x0b, 0x16, 0x1b]
  usedMemTokens := [0x04]
  nativePermutation := none
  nativeLookup := none
  nativeIdentities := [id]

theorem sample_program_runs_safely :
    ∃ stopped, sampleFrame.run (initialState ⟨0, fun _ => 0⟩) = .ok stopped ∧
      stopped.depth = 0 := by
  have natives : NativeMarkersRendered sampleFrame sampleProgram := by
    intro ops walk
    have listed : quotientBytecodeOps sampleProgram = some [(0, 0x09, 2), (2, 0x03, 2),
        (4, 0x07, 1), (5, 0x16, 9), (14, 0x0a, 1), (15, 0x1b, 3), (18, 0x05, 3),
        (21, 0x0b, 4)] := by
      decide +kernel
    rw [listed] at walk
    cases walk
    decide
  obtain ⟨-, stopped, -, ran, empty⟩ := validated_program_runs_safely sampleProgram 2
    (by decide +kernel) sampleFrame ⟨rfl, by decide +kernel⟩ natives ⟨0, fun _ => 0⟩
  exact ⟨stopped, ran, empty⟩

end Midfall.QuotientVmValidation
