import Midfall.ListLoops
import Midfall.QuotientVmValidation

/-!
# Quotient programs as instruction lists

A validated program decodes to one list of instructions. Running the block,
checking stack effects and reading the depth at every fold are functions of
that list. Decoding an instruction looks at its own bytes only, so the same
bytes decode to the same instruction at any place of any program.
-/

namespace Midfall.QuotientProgramLists

open ByteReader QuotientVmOpcodes QuotientVmDecoder List
open QuotientVmInterpreter QuotientVmValidation

section DecoderMoves

variable {bytes other : List Byte} {idx otherIdx len : Nat}

section

variable (agrees : Agrees bytes other idx otherIdx len)

include agrees

theorem agrees_inside (inside : idx + len ≤ bytes.length) (pos : 0 < len) :
    otherIdx + len ≤ other.length := by
  have last := agrees (len - 1) (by omega)
  rw [getElem?_eq_getElem (show idx + (len - 1) < bytes.length by omega)] at last
  have below := (List.getElem?_eq_some_iff.mp last).1
  omega

theorem byte_at_moves {offset : Nat} (below : offset < len) :
    byteAt other (otherIdx + offset) = byteAt bytes (idx + offset) := by
  rw [byteAt, byteAt, getD_eq_getElem?_getD, getD_eq_getElem?_getD, agrees offset below]

theorem word_at_moves {offset : Nat} (below : offset + 1 < len) :
    wordAt other (otherIdx + offset) = wordAt bytes (idx + offset) := by
  rw [wordAt, wordAt, byte_at_moves agrees (by omega), Nat.add_assoc, Nat.add_assoc,
    byte_at_moves agrees below]

end

theorem modarith7_flags_known (checked : quotientModarith7OpLenChecked bytes idx = .ok len) :
    byteAt bytes (idx + 1) &&& ~~~(qModarith7FlagCond ||| qModarith7FlagConst) = 0 := by
  simp only [quotientModarith7OpLenChecked, bind_ok_iff, advance_ok_iff] at checked
  obtain ⟨_, ⟨-, rfl⟩, -, -, checked⟩ := checked
  split at checked
  · cases checked
  · rename_i known
    simpa using known

theorem modarith7_len_accepted
    (known : byteAt bytes (idx + 1) &&& ~~~(qModarith7FlagCond ||| qModarith7FlagConst) = 0)
    (inside : modarith7Header bytes idx + 5 + modarith7Payload bytes (modarith7Header bytes idx) ≤
      bytes.length)
    (total : idx + len =
      modarith7Header bytes idx + 5 + modarith7Payload bytes (modarith7Header bytes idx)) :
    quotientModarith7OpLenChecked bytes idx = .ok len := by
  have header : modarith7Header bytes idx = idx + 1 + 1 +
      (if (byteAt bytes (idx + 1)).toNat % 2 == 1 then 2 else 0) +
      (if (byteAt bytes (idx + 1)).toNat / 2 % 2 == 1 then 1 else 0) := rfl
  have condInside : idx + 1 + 1 + (if (byteAt bytes (idx + 1)).toNat % 2 == 1 then 2 else 0) ≤
      bytes.length := by omega
  simp only [quotientModarith7OpLenChecked, bind_ok_iff, advance_ok_iff, require_ok_iff]
  refine ⟨idx + 1, ⟨by omega, rfl⟩, (), by omega, ?_⟩
  rw [if_neg (by simp [known])]
  simp only [bind_ok_iff, advance_ok_iff, cond_flag_bit, const_flag_bit]
  refine ⟨_, ⟨by omega, rfl⟩, _, (optional_ok_iff (by omega)).mpr ⟨condInside, rfl⟩, _,
    (optional_ok_iff condInside).mpr ⟨by omega, rfl⟩, ?_⟩
  simp only [← header]
  rw [modarith7Payload] at inside total
  simp only [advanceModarith7Blocks, bind_ok_iff, advance_ok_iff, require_ok_iff, pure_ok_iff,
    quotientVmLimbs, quotientVmPairwiseCoeffs, quotientVmByteU16Bytes]
  refine ⟨(), by omega, _, ⟨by omega, rfl⟩, _, ⟨_, ⟨by omega, rfl⟩, _, ⟨by omega, rfl⟩, _,
    ⟨by omega, rfl⟩, _, ⟨by omega, rfl⟩, by omega, rfl⟩, by omega⟩

theorem run_len_moves {payloadBytes : Nat}
    (checked : quotientRunOpLenChecked bytes idx payloadBytes = .ok len)
    (agrees : Agrees bytes other idx otherIdx len) (inside : otherIdx + len ≤ other.length) :
    quotientRunOpLenChecked other otherIdx payloadBytes = .ok len := by
  obtain ⟨-, rfl⟩ := run_len_checked checked
  have count := word_at_moves agrees (show 1 + 1 < 3 + wordAt bytes (idx + 1) * payloadBytes by omega)
  simp only [quotientRunOpLenChecked, bind_ok_iff, require_ok_iff, count] at checked ⊢
  obtain ⟨_, -, checked⟩ := checked
  split at checked
  · cases checked
  · rename_i nonzero
    refine ⟨(), by simp only [quotientVmByteU16Bytes]; omega, ?_⟩
    rw [if_neg nonzero]
    exact checked

theorem affine_sum_len_moves (checked : quotientAffineSumOpLenChecked bytes idx = .ok len)
    (agrees : Agrees bytes other idx otherIdx len) (inside : otherIdx + len ≤ other.length) :
    quotientAffineSumOpLenChecked other otherIdx = .ok len := by
  obtain ⟨-, rfl⟩ := affine_sum_len_checked checked
  have linCount := word_at_moves agrees
    (show 1 + 1 < 5 + (wordAt bytes (idx + 1) * 3 + wordAt bytes (idx + 3) * 5) by omega)
  have productCount := word_at_moves agrees
    (show 3 + 1 < 5 + (wordAt bytes (idx + 1) * 3 + wordAt bytes (idx + 3) * 5) by omega)
  simp only [quotientAffineSumOpLenChecked, bind_ok_iff, require_ok_iff, linCount, productCount]
    at checked ⊢
  obtain ⟨_, -, checked⟩ := checked
  split at checked
  · cases checked
  · rename_i nonzero
    refine ⟨(), by simp only [quotientVmByteU16Bytes]; omega, ?_⟩
    rw [if_neg nonzero]
    exact checked

theorem modarith7_len_moves (checked : quotientModarith7OpLenChecked bytes idx = .ok len)
    (agrees : Agrees bytes other idx otherIdx len) (inside : otherIdx + len ≤ other.length) :
    quotientModarith7OpLenChecked other otherIdx = .ok len := by
  obtain ⟨flagsInside, blocksInside, total⟩ := modarith7_len_checked checked
  have start : idx + 2 ≤ modarith7Header bytes idx := by
    simp only [modarith7Header]
    omega
  have flags := byte_at_moves agrees (show 1 < len by omega)
  obtain ⟨gap, gapEq⟩ : ∃ gap, modarith7Header bytes idx = idx + gap :=
    ⟨modarith7Header bytes idx - idx, by omega⟩
  have header : modarith7Header other otherIdx = otherIdx + gap := by
    simp only [modarith7Header] at gapEq ⊢
    rw [flags]
    omega
  have payload : modarith7Payload other (otherIdx + gap) = modarith7Payload bytes (idx + gap) := by
    simp only [modarith7Payload, Nat.add_assoc]
    rw [byte_at_moves agrees (show gap < len by omega),
      byte_at_moves agrees (show gap + 1 < len by omega),
      byte_at_moves agrees (show gap + 2 < len by omega),
      byte_at_moves agrees (show gap + 3 < len by omega),
      byte_at_moves agrees (show gap + 4 < len by omega)]
  rw [gapEq] at total
  apply modarith7_len_accepted
  · rw [flags]
    exact modarith7_flags_known checked
  · rw [header, payload]
    omega
  · rw [header, payload]
    omega

variable {op : QuotientOp}

theorem instruction_len_moves (checked : quotientInstructionLenChecked bytes idx op = .ok len)
    (agrees : Agrees bytes other idx otherIdx len) (inside : otherIdx + len ≤ other.length)
    (pos : 0 < len) : quotientInstructionLenChecked other otherIdx op = .ok len := by
  have opcode := byte_at_moves agrees pos
  rw [Nat.add_zero, Nat.add_zero] at opcode
  cases op <;> simp only [quotientInstructionLenChecked] at checked ⊢
  case runAddMulMemMemConstU8 | runAddMulConstU8MemU16 =>
    exact run_len_moves checked agrees inside
  case affineSum => exact affine_sum_len_moves checked agrees inside
  case modarith7 => exact modarith7_len_moves checked agrees inside
  all_goals
    rw [opcode]
    cases fixed : quotientOpcodeByteLen (byteAt bytes idx) with
    | none => simp [fixed] at checked
    | some length => simpa [fixed] using checked

theorem token_len (decoded : decodeByteQuotientInstruction bytes idx = .ok (op, len))
    (token : op = .pushMemToken ∨ op = .pushMemTokenOffset) : 1 < len := by
  obtain ⟨found, checked, -, -⟩ := decoded_instruction decoded
  simp only [quotientByteInstructionLenChecked, bind_ok_iff, require_ok_iff, pure_ok_iff]
    at checked
  obtain ⟨_, shape, -, -, rfl⟩ := checked
  rcases token with rfl | rfl
  · obtain rfl := fixed_len_of_checked 2 found rfl (by decide) shape
    decide
  · obtain rfl := fixed_len_of_checked 6 found rfl (by decide) shape
    decide

theorem decode_accepted (opcode : byteAt bytes idx = op.byte)
    (length : quotientInstructionLenChecked bytes idx op = .ok len)
    (inside : idx + len ≤ bytes.length) (token : validateTokenOperand bytes idx op = .ok ())
    (pos : 0 < len) : decodeByteQuotientInstruction bytes idx = .ok (op, len) := by
  have checked : quotientByteInstructionLenChecked bytes idx op = .ok len := by
    simp only [quotientByteInstructionLenChecked, bind_ok_iff, require_ok_iff, pure_ok_iff]
    exact ⟨len, length, (), inside, rfl⟩
  simp only [decodeByteQuotientInstruction, bind_ok_iff, require_ok_iff]
  refine ⟨(), by omega, ?_⟩
  rw [opcode, opcode_spec_of_byte]
  simp only [opcode_spec_op, checked, token, bind, Except.bind, if_neg pos.ne']

theorem decode_moves (decoded : decodeByteQuotientInstruction bytes idx = .ok (op, len))
    (agrees : Agrees bytes other idx otherIdx len) :
    decodeByteQuotientInstruction other otherIdx = .ok (op, len) := by
  obtain ⟨found, checked, tokens, pos⟩ := decoded_instruction decoded
  have inside := agrees_inside agrees (checked_len_agrees decoded).2 pos
  have opcode := byte_at_moves agrees pos
  rw [Nat.add_zero, Nat.add_zero] at opcode
  have byte := (opcode_spec_inverse _ _ found).2
  rw [opcode_spec_op] at byte
  simp only [quotientByteInstructionLenChecked, bind_ok_iff, require_ok_iff, pure_ok_iff]
    at checked
  obtain ⟨whole, shape, -, -, rfl⟩ := checked
  have token : validateTokenOperand other otherIdx op = .ok () := by
    unfold validateTokenOperand
    split
    · rw [byte_at_moves agrees (token_len decoded (Or.inl rfl)), validateQuotientMemToken,
        if_pos (tokens (Or.inl rfl))]
    · rw [byte_at_moves agrees (token_len decoded (Or.inr rfl)), validateQuotientMemToken,
        if_pos (tokens (Or.inr rfl))]
    · rfl
  exact decode_accepted (opcode.trans byte) (instruction_len_moves shape agrees inside pos)
    inside token pos

end DecoderMoves

/-- `instr` stands at `idx` and takes `len` bytes. -/
structure InstrAt (bytes : List Byte) (idx len : Nat) (instr : Instr) : Prop where
  decoded : decodeByteQuotientInstruction bytes idx = .ok (instr.op, len)
  fetched : fetchOperands bytes instr.op (idx + 1) = .ok (instr, idx + len)

theorem InstrAt.inside {bytes : List Byte} {idx len : Nat} {instr : Instr}
    (here : InstrAt bytes idx len instr) : 0 < len ∧ idx + len ≤ bytes.length :=
  ⟨decoded_length_positive here.decoded, (checked_len_agrees here.decoded).2⟩

theorem instr_at {bytes : List Byte} {idx len : Nat} {op : QuotientOp}
    (decoded : decodeByteQuotientInstruction bytes idx = .ok (op, len)) :
    ∃ instr, instr.op = op ∧ InstrAt bytes idx len instr := by
  obtain ⟨instr, fetched, rfl⟩ := fetch_operands_total decoded
  exact ⟨instr, rfl, decoded, fetched⟩

theorem InstrAt.moves {bytes other : List Byte} {idx otherIdx len : Nat} {instr : Instr}
    (here : InstrAt bytes idx len instr) (agrees : Agrees bytes other idx otherIdx len) :
    InstrAt other otherIdx len instr where
  decoded := decode_moves here.decoded agrees
  fetched := by
    obtain ⟨width, same, moves⟩ := fetch_operands_movable instr.op here.fetched
    have pos := here.inside.1
    have operands := moves (agrees.between 1 rfl rfl (by omega))
    refine Eq.trans operands ?_
    congr 2
    omega

/-- The instructions from byte `idx` up to byte `stop`. -/
inductive Decoded (bytes : List Byte) (stop : Nat) : Nat → List Instr → Prop
  | done : Decoded bytes stop stop []
  | next {idx len : Nat} {instr : Instr} {rest : List Instr} :
      InstrAt bytes idx len instr → Decoded bytes stop (idx + len) rest →
      Decoded bytes stop idx (instr :: rest)

variable {instrs : List Instr}

theorem Decoded.forward {bytes : List Byte} {stop idx : Nat}
    (decoded : Decoded bytes stop idx instrs) : idx ≤ stop := by
  induction decoded with
  | done => exact Nat.le_refl _
  | next here later ih => omega

theorem Decoded.append {bytes : List Byte} {middle stop idx : Nat} {first later : List Instr}
    (before : Decoded bytes middle idx first) (after : Decoded bytes stop middle later) :
    Decoded bytes stop idx (first ++ later) := by
  induction before with
  | done => exact after
  | next here rest ih => exact .next here ih

theorem Decoded.moves {bytes other : List Byte} {stop idx otherIdx otherStop : Nat}
    (decoded : Decoded bytes stop idx instrs)
    (agrees : Agrees bytes other idx otherIdx (stop - idx))
    (ends : otherStop = otherIdx + (stop - idx)) : Decoded other otherStop otherIdx instrs := by
  induction decoded generalizing otherIdx with
  | done =>
    rw [Nat.sub_self, Nat.add_zero] at ends
    rw [ends]
    exact .done
  | @next idx len instr rest here later ih =>
    have ahead := later.forward
    apply Decoded.next (here.moves (agrees.start (by omega)))
    apply ih
    · exact agrees.within (by omega)
    · omega

def effect (usage : StackUsage) (instr : Instr) : Option StackUsage :=
  (applyQuotientStackEffect instr.op 0 usage).toOption

def effects (instrs : List Instr) (usage : StackUsage) : Option StackUsage :=
  instrs.foldlM effect usage

def isFold (op : QuotientOp) : Bool := op == .foldMain || op == .foldSelector

def foldDepths : List Instr → StackUsage → List (QuotientOp × Nat)
  | [], _ => []
  | instr :: rest, usage =>
    match effect usage instr with
    | none => []
    | some next =>
      if isFold instr.op then (instr.op, usage.depth) :: foldDepths rest next
      else foldDepths rest next

/-- The stack depth before every fold of a program, read off the validation loop. -/
def foldDepthsFrom (bytes : List Byte) (idx : Nat) (usage : StackUsage) :
    Checked (List (QuotientOp × Nat)) :=
  if idx < bytes.length then
    match _decoded : decodeByteQuotientInstruction bytes idx with
    | .error failure => .error failure
    | .ok (op, len) =>
      match applyQuotientStackEffect op idx usage with
      | .error failure => .error failure
      | .ok next => do
        let later ← foldDepthsFrom bytes (idx + len) next
        return if isFold op then (op, usage.depth) :: later else later
  else .ok []
termination_by bytes.length - idx
decreasing_by
  have progress := decoded_length_positive _decoded
  omega

theorem effect_ok_iff {instr : Instr} {idx : Nat} {usage next : StackUsage} :
    applyQuotientStackEffect instr.op idx usage = .ok next ↔ effect usage instr = some next := by
  unfold effect
  cases instr.op
  case pushConst | pushMemLiteral | pushMemToken | pushMemTokenOffset | pushMemU16 | pushConstU8 |
      lin7 | bilin7Row | bilin7Pairwise | modarith7 =>
    simp [applyQuotientStackEffect, Except.toOption]
  all_goals
    simp only [applyQuotientStackEffect, requireQuotientStackDepth, Except.toOption]
    split_ifs <;> simp [bind, Except.bind, pure, Except.pure]

theorem decoded_of_validated {bytes : List Byte} {idx : Nat} {usage final : StackUsage}
    (inside : idx ≤ bytes.length)
    (validated : validateQuotientFrom bytes idx usage = .ok final) :
    ∃ instrs, Decoded bytes bytes.length idx instrs ∧ effects instrs usage = some final := by
  by_cases running : idx < bytes.length
  · obtain ⟨op, len, next, decoded, effected, rest⟩ := validate_step running validated
    obtain ⟨instr, rfl, here⟩ := instr_at decoded
    have progress := here.inside
    obtain ⟨instrs, later, laterEffects⟩ := decoded_of_validated progress.2 rest
    refine ⟨instr :: instrs, .next here later, ?_⟩
    rw [effects, foldlM_cons, effect_ok_iff.mp effected]
    exact laterEffects
  · have stop : idx = bytes.length := Nat.le_antisymm inside (Nat.le_of_not_lt running)
    subst stop
    exact ⟨[], .done, congrArg some (validate_stop running validated)⟩
termination_by bytes.length - idx

theorem validated_of_decoded {bytes : List Byte} {idx : Nat}
    (decoded : Decoded bytes bytes.length idx instrs) {usage final : StackUsage}
    (effected : effects instrs usage = some final) :
    validateQuotientFrom bytes idx usage = .ok final ∧
      foldDepthsFrom bytes idx usage = .ok (foldDepths instrs usage) := by
  induction decoded generalizing usage with
  | done =>
    cases effected
    constructor
    · rw [validateQuotientFrom, if_neg (Nat.lt_irrefl _)]
    · rw [foldDepthsFrom, if_neg (Nat.lt_irrefl _)]
      rfl
  | @next idx len instr rest here later ih =>
    rw [effects, foldlM_cons, bind_some_iff] at effected
    obtain ⟨next, first, effected⟩ := effected
    obtain ⟨validated, depths⟩ := ih effected
    have running : idx < bytes.length := by
      have inside := here.inside
      omega
    constructor
    · rw [validateQuotientFrom, if_pos running]
      split
      · rename_i failure failed
        rw [here.decoded] at failed
        cases failed
      · rename_i op width decoded
        rw [here.decoded] at decoded
        cases decoded
        rw [effect_ok_iff.mpr first]
        exact validated
    · rw [foldDepthsFrom, if_pos running]
      split
      · rename_i failure failed
        rw [here.decoded] at failed
        cases failed
      · rename_i op width decoded
        rw [here.decoded] at decoded
        cases decoded
        rw [effect_ok_iff.mpr first]
        simp only [depths, foldDepths, first, bind, Except.bind, pure, Except.pure]

/-- Run the instructions one after the other. -/
def execAll (frame : QuotientFrame) (instrs : List Instr) (state : VmState) : Vm VmState :=
  instrs.foldlM (fun state instr => frame.exec instr state) state

theorem exec_all_append (frame : QuotientFrame) (first later : List Instr) (state : VmState) :
    execAll frame (first ++ later) state = execAll frame first state >>= execAll frame later := by
  rw [execAll, foldlM_append]
  rfl

theorem run_loop_decoded {frame : QuotientFrame} {idx : Nat} {instrs : List Instr}
    (decoded : Decoded frame.code frame.code.length idx instrs)
    (rendered : ∀ instr ∈ instrs, instr.op.byte ∈ frame.usedOps) (state : VmState) :
    frame.runLoop idx state =
      (execAll frame instrs state).map fun stopped => (frame.code.length, stopped) := by
  induction decoded generalizing state with
  | done =>
    rw [QuotientFrame.runLoop, if_neg (Nat.lt_irrefl _)]
    rfl
  | @next idx len instr rest here later ih =>
    have inside := here.inside
    have running : idx < frame.code.length := by omega
    have fetched : frame.fetch idx = .ok (instr, idx + len) := by
      obtain ⟨found, -, -, -⟩ := decoded_instruction here.decoded
      have same := (opcode_spec_inverse _ _ found).2
      rw [opcode_spec_op] at same
      rw [QuotientFrame.fetch, get_inside running, same]
      simp only [opcode_spec_of_byte, opcode_spec_op]
      rw [if_pos (by simpa using rendered instr mem_cons_self), here.fetched]
    rw [QuotientFrame.runLoop, if_pos running]
    split
    · rename_i fault failed
      rw [fetched] at failed
      cases failed
    · rename_i instr' next' again
      rw [fetched] at again
      cases again
      rw [execAll, foldlM_cons]
      cases executed : frame.exec instr state with
      | error fault => rfl
      | ok after =>
        exact ih (forall_mem_cons.mp rendered).2 after

def tokenOf : Instr → Option Nat
  | .pushMemToken token => some token
  | .pushMemTokenOffset token _ => some token
  | _ => none

theorem InstrAt.token {bytes : List Byte} {idx len token : Nat} {instr : Instr}
    (here : InstrAt bytes idx len instr) (names : tokenOf instr = some token) :
    (instr.op = .pushMemToken ∨ instr.op = .pushMemTokenOffset) ∧
      token = (byteAt bytes (idx + 1)).toNat ∧ isQuotientMemToken (byteAt bytes (idx + 1)) = true := by
  obtain ⟨-, -, known, -⟩ := decoded_instruction here.decoded
  have fetched := here.fetched
  cases instr <;> try cases names
  case pushMemToken =>
    simp only [Instr.op, fetchOperands, bind_ok_iff, pure_ok_iff, Prod.mk.injEq,
      Instr.pushMemToken.injEq] at fetched
    obtain ⟨_, read, rfl, -⟩ := fetched
    exact ⟨Or.inl rfl, u8_at_value read, known (Or.inl rfl)⟩
  case pushMemTokenOffset =>
    simp only [Instr.op, fetchOperands, bind_ok_iff, pure_ok_iff, Prod.mk.injEq,
      Instr.pushMemTokenOffset.injEq] at fetched
    obtain ⟨_, read, _, -, ⟨rfl, -⟩, -⟩ := fetched
    exact ⟨Or.inr rfl, u8_at_value read, known (Or.inr rfl)⟩

theorem decoded_walk {bytes : List Byte} {idx : Nat}
    (decoded : Decoded bytes bytes.length idx instrs) :
    ∃ ops, quotientBytecodeOpsFrom bytes idx = some ops ∧ ∀ instr ∈ instrs,
      ∃ position len, (position, instr.op.byte, len) ∈ ops ∧ InstrAt bytes position len instr := by
  induction decoded with
  | done =>
    refine ⟨[], ?_, fun _ absent => absurd absent not_mem_nil⟩
    rw [quotientBytecodeOpsFrom, dif_neg (Nat.lt_irrefl _)]
  | @next idx len instr rest here later ih =>
    obtain ⟨ops, walk, listed⟩ := ih
    have inside := here.inside
    have running : idx < bytes.length := by omega
    obtain ⟨found, -, -, -⟩ := decoded_instruction here.decoded
    have opcode := (opcode_spec_inverse _ _ found).2
    rw [opcode_spec_op, byteAt, getD_eq_getElem _ _ running] at opcode
    refine ⟨(idx, bytes[idx], len) :: ops, ?_, ?_⟩
    · rw [walk_step running (checked_len_agrees here.decoded).1, walk, Option.map_some]
    · intro other mem
      rcases mem_cons.mp mem with rfl | mem
      · rw [opcode]
        exact ⟨idx, len, mem_cons_self, here⟩
      · obtain ⟨position, width, mem, there⟩ := listed other mem
        exact ⟨position, width, mem_cons_of_mem _ mem, there⟩

theorem decoded_served {frame : QuotientFrame} {bytes : List Byte} {instrs : List Instr}
    (renders : Renders frame bytes) (decoded : Decoded bytes bytes.length 0 instrs) :
    ∀ instr ∈ instrs, instr.op.byte ∈ frame.usedOps ∧ ∀ token, tokenOf instr = some token →
      frame.resolveToken token = .ok (frame.tokenPtr token) := by
  obtain ⟨ops, walk, listed⟩ := decoded_walk decoded
  have usage := renders.usage
  rw [quotientProgramUsage, quotientBytecodeOps, walk, Option.map_some, Option.some.injEq,
    Prod.mk.injEq] at usage
  intro instr mem
  obtain ⟨position, len, inOps, here⟩ := listed instr mem
  have covered := usage_covers bytes ops ([], []) _ inOps
  rw [usage.1, usage.2] at covered
  refine ⟨covered.1, ?_⟩
  intro token names
  obtain ⟨isToken, rfl, known⟩ := here.token names
  apply resolve_used_token known
  apply covered.2
  rcases isToken with same | same
  · exact Or.inl (congrArg QuotientOp.byte same)
  · exact Or.inr (congrArg QuotientOp.byte same)

/-- The written bytes are these instructions at any place of any program. -/
def Writes (written : List Byte) (instrs : List Instr) : Prop :=
  ∀ before after, Decoded (before ++ (written ++ after)) (before.length + written.length)
    before.length instrs

theorem Writes.append {first later : List Byte} {firstInstrs laterInstrs : List Instr}
    (left : Writes first firstInstrs) (right : Writes later laterInstrs) :
    Writes (first ++ later) (firstInstrs ++ laterInstrs) := by
  intro before after
  have here := left before (later ++ after)
  have there := right (before ++ first) after
  rw [append_assoc, length_append] at there
  rw [append_assoc, length_append, ← Nat.add_assoc]
  exact here.append there

theorem writes_nothing : Writes [] [] := fun _ _ => .done

theorem Writes.decoded {program : List Byte} (writes : Writes program instrs) :
    Decoded program program.length 0 instrs := by
  have whole := writes [] []
  rw [append_nil, nil_append, length_nil, Nat.zero_add] at whole
  exact whole

end Midfall.QuotientProgramLists
