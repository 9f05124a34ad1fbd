import Midfall.ListLoops
import Midfall.QuotientProgramLists

/-!
# Compacting runs of affine additions

`compact_quotient_runs` replaces adjacent fused multiply-add instructions with
one counted instruction. A run ends at the first other opcode and when one of
its two counters reaches `u16::MAX`; short runs are copied. A panic of the Rust
code is `none`.
-/

namespace Midfall.QuotientRunCompaction

open ByteReader QuotientVmOpcodes QuotientVmDecoder List
open QuotientVmInterpreter QuotientVmValidation QuotientProgramLists
open ScalarField (addmod)

/-! ### The pass -/

def u16Max : Nat := 65535

/-- `(value as u16).to_be_bytes()`. -/
def u16BeBytes (value : Nat) : List Byte := [UInt8.ofNat (value / 256), UInt8.ofNat value]

/-- `&bytes[start..start + len]`; out of range is the slice panic. -/
def sliceBytes (bytes : List Byte) (start len : Nat) : Option (List Byte) :=
  if start + len ≤ bytes.length then some ((bytes.drop start).take len) else none

/-- Whether an opcode contributes a fused affine-add term to the current top. -/
def isAffineAddOp (op : Byte) : Bool :=
  op == QuotientOp.addMulMemMemConstU8.byte || op == QuotientOp.addMulConstU8MemU16.byte

/-- One collected term: its opcode, and where its operands are. -/
structure TermOp where
  op : Byte
  start : Nat
  len : Nat

structure AffineRun where
  idx : Nat
  termOps : List TermOp
  linCount : Nat
  productCount : Nat

def AffineRun.empty (idx : Nat) : AffineRun :=
  { idx, termOps := [], linCount := 0, productCount := 0 }

def AffineRun.next (bytes : List Byte) (run : AffineRun) (len : Nat) : AffineRun :=
  let op := byteAt bytes run.idx
  { idx := run.idx + len
    termOps := run.termOps ++ [⟨op, run.idx + 1, len - 1⟩]
    linCount := if op = QuotientOp.addMulConstU8MemU16.byte then run.linCount + 1
      else run.linCount
    productCount := if op = QuotientOp.addMulMemMemConstU8.byte then run.productCount + 1
      else run.productCount }

/-- `while idx < bytes.len() && is_affine_add_op(bytes[idx])`. -/
def collectAffineRun (bytes : List Byte) (run : AffineRun) : Option AffineRun :=
  if run.idx < bytes.length ∧ isAffineAddOp (byteAt bytes run.idx) = true then
    match _found : quotientOpLen bytes run.idx with
    | none => none
    | some len =>
      let next := run.next bytes len
      if next.linCount = u16Max ∨ next.productCount = u16Max then some next
      else collectAffineRun bytes next
  else some run
termination_by bytes.length - run.idx
decreasing_by
  have progress := quotient_op_len_positive _found
  simp only [AffineRun.next]
  omega

def operandBytes (bytes : List Byte) (terms : List TermOp) : Option (List Byte) :=
  (terms.mapM fun term => sliceBytes bytes term.start term.len).map List.flatten

def runOp (op : Byte) : QuotientOp :=
  if op = QuotientOp.addMulMemMemConstU8.byte then .runAddMulMemMemConstU8
  else .runAddMulConstU8MemU16

/-- The bytes written for one run that starts at `runStart` with `op`. -/
def encodeRun (bytes : List Byte) (runStart : Nat) (run : AffineRun) : Option (List Byte) :=
  let op := byteAt bytes runStart
  if 0 < run.linCount ∧ 0 < run.productCount ∧
      quotientVmRunCompactionMinLen ≤ run.linCount + run.productCount then do
    let lin ← operandBytes bytes
      (run.termOps.filter fun term => term.op = QuotientOp.addMulConstU8MemU16.byte)
    let products ← operandBytes bytes
      (run.termOps.filter fun term => term.op = QuotientOp.addMulMemMemConstU8.byte)
    return QuotientOp.affineSum.byte ::
      (u16BeBytes run.linCount ++ u16BeBytes run.productCount ++ lin ++ products)
  else if quotientVmRunCompactionMinLen ≤ run.termOps.length ∧
      run.termOps.all (fun term => term.op == op) = true then do
    let operands ← operandBytes bytes run.termOps
    return (runOp op).byte :: (u16BeBytes run.termOps.length ++ operands)
  else sliceBytes bytes runStart (run.idx - runStart)

variable {bytes : List Byte} {start run : AffineRun}

theorem collect_affine_run_forward (collected : collectAffineRun bytes start = some run) :
    start.idx ≤ run.idx := by
  fun_induction collectAffineRun bytes start with
  | case1 start running missing => cases collected
  | case2 start running len found next full =>
    rw [← Option.some.inj collected]
    exact Nat.le_add_right _ _
  | case3 start running len found next room ih =>
    exact (Nat.le_add_right _ _).trans (ih collected)
  | case4 start stopped =>
    cases collected
    exact Nat.le_refl _

theorem collect_affine_run_progress {idx : Nat} {run : AffineRun} (running : idx < bytes.length)
    (affine : isAffineAddOp (byteAt bytes idx) = true)
    (collected : collectAffineRun bytes (.empty idx) = some run) : idx < run.idx := by
  rw [collectAffineRun, if_pos ⟨running, affine⟩] at collected
  split at collected
  · cases collected
  · rename_i len found
    have pos := quotient_op_len_positive found
    dsimp only at collected
    have ahead : idx < ((AffineRun.empty idx).next bytes len).idx := Nat.lt_add_of_pos_right pos
    split at collected
    · cases collected
      exact ahead
    · exact ahead.trans_le (collect_affine_run_forward collected)

/-- The bytes written from `idx` on. -/
def compactRunsFrom (bytes : List Byte) (idx : Nat) : Option (List Byte) :=
  if _running : idx < bytes.length then
    if _affine : isAffineAddOp (byteAt bytes idx) = true then
      match _collected : collectAffineRun bytes (.empty idx) with
      | none => none
      | some run => do
        let written ← encodeRun bytes idx run
        let later ← compactRunsFrom bytes run.idx
        return written ++ later
    else
      match _found : quotientOpLen bytes idx with
      | none => none
      | some len => do
        let copied ← sliceBytes bytes idx len
        let later ← compactRunsFrom bytes (idx + len)
        return copied ++ later
  else some []
termination_by bytes.length - idx
decreasing_by
  · have progress := collect_affine_run_progress _running _affine _collected
    omega
  · have progress := quotient_op_len_positive _found
    omega

/-- Compact long adjacent fused-op runs in byte-oriented VM encoding. -/
def compactQuotientRuns (bytes : List Byte) : Option (List Byte) := compactRunsFrom bytes 0

/-! ### Slices -/

theorem slice_agrees {bytes slice : List Byte} {start len : Nat}
    (sliced : sliceBytes bytes start len = some slice) :
    slice.length = len ∧
      ∀ before after, Agrees bytes (before ++ (slice ++ after)) start before.length len := by
  unfold sliceBytes at sliced
  split_ifs at sliced with inside
  cases sliced
  have length : ((bytes.drop start).take len).length = len := by
    rw [length_take, length_drop]
    omega
  refine ⟨length, ?_⟩
  intro before after offset below
  rw [getElem?_append_right (by omega), Nat.add_sub_cancel_left,
    getElem?_append_left (by omega), getElem?_take_of_lt below, getElem?_drop]

variable {instrs : List Instr}

theorem slice_writes {bytes slice : List Byte} {idx stop : Nat}
    (decoded : Decoded bytes stop idx instrs)
    (sliced : sliceBytes bytes idx (stop - idx) = some slice) : Writes slice instrs := by
  obtain ⟨length, agrees⟩ := slice_agrees sliced
  intro before after
  apply decoded.moves (agrees before after)
  rw [length]

variable {Value : Type} {operands : List Byte} {read : List Byte → Fetch Value}
variable {termOps : List TermOp} {values : List Value}

/-- Operands of consecutive terms, read again where they are written. -/
theorem repeat_written (movable : Movable read) (placed : Forall₂ (fun termOp value =>
      read bytes termOp.start = .ok (value, termOp.start + termOp.len)) termOps values)
    (sliced : operandBytes bytes termOps = some operands) :
    Decodes (fun program => repeatRead (read program) values.length) (fun _ => operands) values := by
  obtain ⟨slices, mapped, rfl⟩ := Option.map_eq_some_iff.mp sliced
  clear sliced
  induction placed generalizing slices with
  | nil =>
    cases mapped
    intro before after
    rfl
  | @cons termOp value termOps values here later ih =>
    rw [mapM_cons, bind_some_iff] at mapped
    obtain ⟨slice, sliced, mapped⟩ := mapped
    obtain ⟨rest, mappedRest, same⟩ := bind_some_iff.mp mapped
    cases same
    obtain ⟨length, agrees⟩ := slice_agrees sliced
    obtain ⟨width, same, moves⟩ := movable here
    obtain rfl : width = termOp.len := by omega
    intro before after
    have first := moves (agrees before (rest.flatten ++ after))
    have others := ih rest mappedRest (before ++ slice) after
    rw [append_assoc, length_append, length] at others
    simp only [flatten_cons, length_cons, append_assoc, repeatRead, first, others,
      length_append, length, bind, Except.bind, pure, Except.pure, Nat.add_assoc]

/-! ### Affine terms -/

inductive AffineTerm where
  | lin (term : LinTerm)
  | product (term : ProductTerm)

def AffineTerm.instr : AffineTerm → Instr
  | .lin term => .addMulConstU8MemU16 term
  | .product term => .addMulMemMemConstU8 term

def linTerms (terms : List AffineTerm) : List LinTerm :=
  terms.filterMap fun
    | .lin term => some term
    | .product _ => none

def productTerms (terms : List AffineTerm) : List ProductTerm :=
  terms.filterMap fun
    | .lin _ => none
    | .product term => some term

@[simp] theorem lin_terms_lin (term : LinTerm) (terms : List AffineTerm) :
    linTerms (.lin term :: terms) = term :: linTerms terms := rfl

@[simp] theorem lin_terms_product (term : ProductTerm) (terms : List AffineTerm) :
    linTerms (.product term :: terms) = linTerms terms := rfl

@[simp] theorem product_terms_lin (term : LinTerm) (terms : List AffineTerm) :
    productTerms (.lin term :: terms) = productTerms terms := rfl

@[simp] theorem product_terms_product (term : ProductTerm) (terms : List AffineTerm) :
    productTerms (.product term :: terms) = term :: productTerms terms := rfl

theorem lin_terms_append (first later : List AffineTerm) :
    linTerms (first ++ later) = linTerms first ++ linTerms later := filterMap_append

theorem product_terms_append (first later : List AffineTerm) :
    productTerms (first ++ later) = productTerms first ++ productTerms later :=
  filterMap_append

variable {instr : Instr}

theorem affine_instr {idx len : Nat} (here : InstrAt bytes idx len instr)
    (affine : isAffineAddOp (byteAt bytes idx) = true) :
    ∃ term : AffineTerm, instr = term.instr := by
  obtain ⟨found, -, -, -⟩ := decoded_instruction here.decoded
  have opcode := (opcode_spec_inverse _ _ found).2
  rw [opcode_spec_op] at opcode
  rw [opcode, isAffineAddOp, Bool.or_eq_true, beq_iff_eq, beq_iff_eq] at affine
  rcases affine with product | lin
  · have op := opcode_byte_injective _ _ product
    cases instr <;> cases op
    exact ⟨.product _, rfl⟩
  · have op := opcode_byte_injective _ _ lin
    cases instr <;> cases op
    exact ⟨.lin _, rfl⟩

/-- A collected entry names the opcode and the operands of its term. -/
def Placed (bytes : List Byte) (termOp : TermOp) (term : AffineTerm) : Prop :=
  termOp.op = term.instr.op.byte ∧
    ∃ idx, termOp.start = idx + 1 ∧ InstrAt bytes idx (termOp.len + 1) term.instr

structure Collected (bytes : List Byte) (start run : AffineRun) (terms : List AffineTerm) : Prop where
  decoded : Decoded bytes run.idx start.idx (terms.map AffineTerm.instr)
  placed : ∃ added, run.termOps = start.termOps ++ added ∧
    Forall₂ (Placed bytes) added terms
  linCount : run.linCount = start.linCount + (linTerms terms).length
  productCount : run.productCount = start.productCount + (productTerms terms).length

theorem instr_at_opcode {idx len : Nat} (here : InstrAt bytes idx len instr) :
    byteAt bytes idx = instr.op.byte := by
  obtain ⟨found, -, -, -⟩ := decoded_instruction here.decoded
  have opcode := (opcode_spec_inverse _ _ found).2
  rwa [opcode_spec_op] at opcode

theorem Collected.nothing (run : AffineRun) : Collected bytes run run [] where
  decoded := .done
  placed := ⟨[], (append_nil _).symm, .nil⟩
  linCount := rfl
  productCount := rfl

theorem next_counts {run : AffineRun} {len : Nat} {term : AffineTerm}
    (here : InstrAt bytes run.idx len term.instr) :
    (run.next bytes len).linCount = run.linCount + (linTerms [term]).length ∧
      (run.next bytes len).productCount = run.productCount + (productTerms [term]).length := by
  simp only [AffineRun.next, instr_at_opcode here]
  cases term with
  | lin term => exact ⟨rfl, rfl⟩
  | product term => exact ⟨rfl, rfl⟩

variable {terms : List AffineTerm}

theorem Collected.add {len : Nat} {term : AffineTerm}
    (here : InstrAt bytes start.idx len term.instr)
    (later : Collected bytes (start.next bytes len) run terms) :
    Collected bytes start run (term :: terms) where
  decoded := .next here later.decoded
  placed := by
    obtain ⟨added, termOps, placed⟩ := later.placed
    have pos := here.inside.1
    refine ⟨⟨byteAt bytes start.idx, start.idx + 1, len - 1⟩ :: added, ?_, .cons ?_ placed⟩
    · rw [termOps, AffineRun.next, append_assoc]
      rfl
    · refine ⟨instr_at_opcode here, start.idx, rfl, ?_⟩
      rwa [Nat.sub_add_cancel pos]
  linCount := by
    rw [later.linCount, (next_counts here).1, Nat.add_assoc, ← length_append, ← lin_terms_append]
    rfl
  productCount := by
    rw [later.productCount, (next_counts here).2, Nat.add_assoc, ← length_append,
      ← product_terms_append]
    rfl

theorem Decoded.split_first {stop idx : Nat} (decoded : Decoded bytes stop idx instrs)
    (running : idx < stop) :
    ∃ len instr rest, instrs = instr :: rest ∧ InstrAt bytes idx len instr ∧
      Decoded bytes stop (idx + len) rest := by
  cases decoded with
  | done => exact absurd running (Nat.lt_irrefl _)
  | next here later => exact ⟨_, _, _, rfl, here, later⟩

/-- A run takes a prefix of the decoded program, made of affine terms. -/
theorem collected_run (collected : collectAffineRun bytes start = some run)
    (decoded : Decoded bytes bytes.length start.idx instrs) :
    ∃ terms rest, instrs = terms.map AffineTerm.instr ++ rest ∧
      Collected bytes start run terms ∧ Decoded bytes bytes.length run.idx rest := by
  fun_induction collectAffineRun bytes start generalizing instrs with
  | case1 start running missing => cases collected
  | case2 start running len found next =>
    obtain ⟨width, instr, rest, rfl, here, later⟩ := Decoded.split_first decoded running.1
    obtain ⟨term, rfl⟩ := affine_instr here running.2
    have same := (checked_len_agrees here.decoded).1
    rw [found, Option.some.injEq] at same
    subst same
    rw [← Option.some.inj collected]
    exact ⟨[term], rest, rfl, .add here (.nothing _), later⟩
  | case3 start running len found next room =>
    rename_i ih
    obtain ⟨width, instr, rest, rfl, here, later⟩ := Decoded.split_first decoded running.1
    obtain ⟨term, rfl⟩ := affine_instr here running.2
    have same := (checked_len_agrees here.decoded).1
    rw [found, Option.some.injEq] at same
    subst same
    obtain ⟨terms, after, rfl, added, rest⟩ := ih collected later
    exact ⟨term :: terms, after, rfl, .add here added, rest⟩
  | case4 start stopped =>
    cases collected
    exact ⟨[], instrs, rfl, .nothing _, decoded⟩

theorem collected_counts (collected : collectAffineRun bytes start = some run)
    (linRoom : start.linCount < u16Max) (productRoom : start.productCount < u16Max) :
    run.linCount ≤ u16Max ∧ run.productCount ≤ u16Max := by
  have grows : ∀ {start : AffineRun} {len : Nat}, start.linCount < u16Max →
      start.productCount < u16Max → (start.next bytes len).linCount ≤ u16Max ∧
        (start.next bytes len).productCount ≤ u16Max := by
    intro start len linRoom productRoom
    simp only [AffineRun.next]
    constructor
    · split_ifs <;> omega
    · split_ifs <;> omega
  fun_induction collectAffineRun bytes start with
  | case1 start running missing => cases collected
  | case2 start running len found next full =>
    rw [← Option.some.inj collected]
    exact grows linRoom productRoom
  | case3 start running len found next room ih =>
    obtain ⟨lin, product⟩ := @grows start len linRoom productRoom
    rw [not_or] at room
    exact ih collected (Nat.lt_of_le_of_ne lin room.1)
      (Nat.lt_of_le_of_ne product room.2)
  | case4 start stopped =>
    cases collected
    exact ⟨linRoom.le, productRoom.le⟩

/-! ### Written runs -/

theorem byte_written (before after : List Byte) (byte : Byte) :
    byteAt (before ++ (byte :: after)) before.length = byte := by
  rw [byteAt, getD_append_right _ _ _ _ (Nat.le_refl _), Nat.sub_self]
  rfl

theorem word_written (before after : List Byte) {value : Nat} (fits : value ≤ u16Max) :
    wordAt (before ++ (u16BeBytes value ++ after)) before.length = value := by
  have high := byte_written before (UInt8.ofNat value :: after) (UInt8.ofNat (value / 256))
  have low := byte_written (before ++ [UInt8.ofNat (value / 256)]) after (UInt8.ofNat value)
  rw [append_assoc, length_append, length_singleton] at low
  have written : before ++ (u16BeBytes value ++ after) =
      before ++ (UInt8.ofNat (value / 256) :: UInt8.ofNat value :: after) := rfl
  rw [wordAt, written, high]
  refine Eq.trans (congrArg (fun byte : Byte => _ + byte.toNat) low) ?_
  simp only [UInt8.toNat_ofNat', u16Max] at fits ⊢
  omega

theorem u16_written (before after : List Byte) {value : Nat} (fits : value ≤ u16Max) :
    u16At (before ++ (u16BeBytes value ++ after)) before.length = .ok value := by
  rw [u16_at_inside, word_written before after fits]
  simp only [length_append, u16BeBytes, length_cons]
  omega

theorem decodes_length {width : Nat}
    (fixed : ∀ code : List Byte, FixedWidth code.length (read code) width)
    (decodes : Decodes (fun program => repeatRead (read program) values.length)
      (fun _ => operands) values) : operands.length = values.length * width := by
  have whole := ((fixed _).repeat values.length).advance (decodes [] [])
  rw [length_nil, Nat.zero_add, Nat.zero_add] at whole
  exact whole

theorem run_writes {width : Nat} (op : QuotientOp) (make : List Value → Instr)
    (fixed : ∀ code : List Byte, FixedWidth code.length (read code) width)
    (shape : ∀ bytes idx, quotientInstructionLenChecked bytes idx op =
      quotientRunOpLenChecked bytes idx width)
    (token : ∀ bytes idx, validateTokenOperand bytes idx op = .ok ())
    (names : ∀ values, (make values).op = op) (fetches : ∀ code pc, fetchOperands code op pc = do
      let count ← u16At code pc
      let (values, pc) ← repeatRead (read code) count (pc + 2)
      return (make values, pc)) (nonempty : values ≠ []) (fits : values.length ≤ u16Max)
    (decodes : Decodes (fun program => repeatRead (read program) values.length)
      (fun _ => operands) values) :
    Writes (op.byte :: (u16BeBytes values.length ++ operands)) [make values] := by
  have length := decodes_length fixed decodes
  have pos : values.length ≠ 0 := fun zero => nonempty (eq_nil_of_length_eq_zero zero)
  intro before after
  have opcode := byte_written before (u16BeBytes values.length ++ (operands ++ after)) op.byte
  have count := word_written (before ++ [op.byte]) (operands ++ after) fits
  have countRead := u16_written (before ++ [op.byte]) (operands ++ after) fits
  have operandsRead := decodes (before ++ [op.byte] ++ u16BeBytes values.length) after
  have program : before ++ ((op.byte :: (u16BeBytes values.length ++ operands)) ++ after) =
      before ++ (op.byte :: (u16BeBytes values.length ++ (operands ++ after))) := by
    rw [cons_append, append_assoc]
  simp only [append_assoc, singleton_append, length_append, length_singleton]
    at count countRead operandsRead
  have header : (u16BeBytes values.length).length = 2 := rfl
  rw [program]
  have total : (op.byte :: (u16BeBytes values.length ++ operands)).length =
      3 + values.length * width := by
    rw [length_cons, length_append, header, length]
    omega
  rw [total]
  refine @Decoded.next _ _ _ (3 + values.length * width) _ _ ?_ .done
  constructor
  · rw [names]
    apply decode_accepted opcode
    · rw [shape, quotientRunOpLenChecked]
      simp only [bind_ok_iff, require_ok_iff, count, if_neg pos, pure_ok_iff]
      refine ⟨(), ?_, rfl⟩
      simp only [length_append, length_cons, header, quotientVmByteU16Bytes]
      omega
    · simp only [length_append, length_cons, header, length]
      omega
    · exact token _ _
    · omega
  · rw [names, fetches, countRead]
    simp only [cons_append, length_cons, header] at operandsRead
    simp only [operandsRead, bind, Except.bind, pure, Except.pure, Nat.add_assoc, length]
    congr 2
    omega

theorem lin_run_writes {values : List LinTerm} (nonempty : values ≠ [])
    (fits : values.length ≤ u16Max)
    (decodes : Decodes (fun program => repeatRead (fetchPtrTerm program) values.length)
      (fun _ => operands) values) :
    Writes (QuotientOp.runAddMulConstU8MemU16.byte :: (u16BeBytes values.length ++ operands))
      [.runAddMulConstU8MemU16 values] :=
  run_writes .runAddMulConstU8MemU16 .runAddMulConstU8MemU16 fetch_ptr_term_width (fun _ _ => rfl) (fun _ _ => rfl) (fun _ => rfl)
    (fun _ _ => rfl) nonempty fits decodes

theorem product_run_writes {values : List ProductTerm} (nonempty : values ≠ [])
    (fits : values.length ≤ u16Max)
    (decodes : Decodes (fun program => repeatRead (fetchPtrProduct program) values.length)
      (fun _ => operands) values) :
    Writes (QuotientOp.runAddMulMemMemConstU8.byte :: (u16BeBytes values.length ++ operands))
      [.runAddMulMemMemConstU8 values] :=
  run_writes .runAddMulMemMemConstU8 .runAddMulMemMemConstU8 fetch_ptr_product_width (fun _ _ => rfl) (fun _ _ => rfl) (fun _ => rfl)
    (fun _ _ => rfl) nonempty fits decodes

theorem affine_sum_writes {lin : List LinTerm} {products : List ProductTerm}
    {linOperands productOperands : List Byte} (linNonempty : lin ≠ [])
    (productsNonempty : products ≠ []) (linFits : lin.length ≤ u16Max)
    (productsFit : products.length ≤ u16Max)
    (linDecodes : Decodes (fun program => repeatRead (fetchPtrTerm program) lin.length)
      (fun _ => linOperands) lin)
    (productsDecode : Decodes (fun program => repeatRead (fetchPtrProduct program) products.length)
      (fun _ => productOperands) products) :
    Writes (QuotientOp.affineSum.byte :: (u16BeBytes lin.length ++ u16BeBytes products.length ++
      linOperands ++ productOperands)) [.affineSum lin products] := by
  have linLength := decodes_length fetch_ptr_term_width linDecodes
  have productLength := decodes_length fetch_ptr_product_width productsDecode
  have linPositive : lin.length ≠ 0 := fun zero => linNonempty (eq_nil_of_length_eq_zero zero)
  have productPositive : products.length ≠ 0 :=
    fun zero => productsNonempty (eq_nil_of_length_eq_zero zero)
  intro before after
  obtain ⟨op, opEq⟩ : ∃ op, op = QuotientOp.affineSum.byte := ⟨_, rfl⟩
  rw [← opEq]
  have program : before ++ ((op :: (u16BeBytes lin.length ++ u16BeBytes products.length ++
      linOperands ++ productOperands)) ++ after) =
      before ++ (op :: (u16BeBytes lin.length ++ (u16BeBytes products.length ++
        (linOperands ++ (productOperands ++ after))))) := by
    simp only [cons_append, append_assoc]
  have opcode := byte_written before (u16BeBytes lin.length ++ (u16BeBytes products.length ++
    (linOperands ++ (productOperands ++ after)))) op
  have linCount := word_written (before ++ [op]) (u16BeBytes products.length ++
    (linOperands ++ (productOperands ++ after))) linFits
  have linCountRead := u16_written (before ++ [op]) (u16BeBytes products.length ++
    (linOperands ++ (productOperands ++ after))) linFits
  have productCount := word_written (before ++ [op] ++ u16BeBytes lin.length)
    (linOperands ++ (productOperands ++ after)) productsFit
  have productCountRead := u16_written (before ++ [op] ++ u16BeBytes lin.length)
    (linOperands ++ (productOperands ++ after)) productsFit
  have linRead := linDecodes (before ++ [op] ++ u16BeBytes lin.length ++
    u16BeBytes products.length) (productOperands ++ after)
  have productsRead := productsDecode (before ++ [op] ++ u16BeBytes lin.length ++
    u16BeBytes products.length ++ linOperands) after
  have linHeader : (u16BeBytes lin.length).length = 2 := rfl
  have productHeader : (u16BeBytes products.length).length = 2 := rfl
  simp only [append_assoc, cons_append, nil_append, length_append,
    length_cons, length_nil, linHeader, productHeader, linLength, Nat.zero_add]
    at linCount linCountRead productCount productCountRead linRead productsRead
  rw [program]
  have total : (op :: (u16BeBytes lin.length ++ u16BeBytes products.length ++ linOperands ++
      productOperands)).length = 5 + (lin.length * 3 + products.length * 5) := by
    simp only [length_cons, length_append, linHeader, productHeader, linLength, productLength]
    omega
  rw [total]
  apply Decoded.next _ .done
  constructor
  · apply decode_accepted (opcode.trans opEq)
    · simp only [quotientInstructionLenChecked, quotientAffineSumOpLenChecked,
        bind_ok_iff, require_ok_iff, linCount, productCount]
      refine ⟨(), ?_, ?_⟩
      · simp only [length_append, length_cons, linHeader, productHeader, quotientVmByteU16Bytes]
        omega
      · rw [if_neg (by omega)]
        rfl
    · simp only [length_append, length_cons, linHeader, productHeader, linLength, productLength]
      omega
    · rfl
    · omega
  · have place : before.length + (2 + (2 + lin.length * 3) + 1) =
        before.length + (2 + (2 + (1 + lin.length * 3))) := by omega
    rw [place, productLength] at productsRead
    simp only [Instr.op, fetchOperands, linCountRead, productCountRead, linRead, bind,
      Except.bind, pure, Except.pure, Nat.add_assoc, productsRead]
    congr 2
    omega

/-! ### The compacted program as an instruction list -/

inductive Compacted : List Instr → List Instr → Prop
  | done : Compacted [] []
  | keep {instrs compacted : List Instr} (kept : List Instr) :
      Compacted instrs compacted → Compacted (kept ++ instrs) (kept ++ compacted)
  | lins {instrs compacted : List Instr} {terms : List LinTerm} : terms ≠ [] →
      Compacted instrs compacted → Compacted (terms.map .addMulConstU8MemU16 ++ instrs)
        (.runAddMulConstU8MemU16 terms :: compacted)
  | products {instrs compacted : List Instr} {terms : List ProductTerm} : terms ≠ [] →
      Compacted instrs compacted → Compacted (terms.map .addMulMemMemConstU8 ++ instrs)
        (.runAddMulMemMemConstU8 terms :: compacted)
  | mixed {instrs compacted : List Instr} {terms : List AffineTerm} : terms ≠ [] →
      Compacted instrs compacted → Compacted (terms.map AffineTerm.instr ++ instrs)
        (.affineSum (linTerms terms) (productTerms terms) :: compacted)

section

variable (placed : Forall₂ (Placed bytes) termOps terms)

include placed

theorem placed_lins :
    Forall₂ (fun termOp term =>
        fetchPtrTerm bytes termOp.start = .ok (term, termOp.start + termOp.len))
      (termOps.filter fun term => term.op = QuotientOp.addMulConstU8MemU16.byte)
      (linTerms terms) := by
  induction placed with
  | nil => exact .nil
  | @cons termOp term termOps terms here later ih =>
    obtain ⟨opcode, idx, start, there⟩ := here
    cases term with
    | lin term =>
      have fetched := there.fetched
      simp only [AffineTerm.instr, Instr.op, fetchOperands, bind_ok_iff, pure_ok_iff,
        Prod.exists, Prod.mk.injEq, Instr.addMulConstU8MemU16.injEq] at fetched
      obtain ⟨_, _, read, rfl, rfl⟩ := fetched
      have named : termOp.op = QuotientOp.addMulConstU8MemU16.byte := opcode
      rw [filter_cons_of_pos (by simpa using named), lin_terms_lin]
      refine .cons ?_ ih
      rw [start, read, Nat.add_comm termOp.len, Nat.add_assoc]
    | product term =>
      have named : termOp.op = QuotientOp.addMulMemMemConstU8.byte := opcode
      rw [filter_cons_of_neg (by rw [named]; decide), lin_terms_product]
      exact ih

theorem placed_products :
    Forall₂ (fun termOp term =>
        fetchPtrProduct bytes termOp.start = .ok (term, termOp.start + termOp.len))
      (termOps.filter fun term => term.op = QuotientOp.addMulMemMemConstU8.byte)
      (productTerms terms) := by
  induction placed with
  | nil => exact .nil
  | @cons termOp term termOps terms here later ih =>
    obtain ⟨opcode, idx, start, there⟩ := here
    cases term with
    | lin term =>
      have named : termOp.op = QuotientOp.addMulConstU8MemU16.byte := opcode
      rw [filter_cons_of_neg (by rw [named]; decide), product_terms_lin]
      exact ih
    | product term =>
      have fetched := there.fetched
      simp only [AffineTerm.instr, Instr.op, fetchOperands, bind_ok_iff, pure_ok_iff,
        Prod.exists, Prod.mk.injEq, Instr.addMulMemMemConstU8.injEq] at fetched
      obtain ⟨_, _, read, rfl, rfl⟩ := fetched
      have named : termOp.op = QuotientOp.addMulMemMemConstU8.byte := opcode
      rw [filter_cons_of_pos (by simpa using named), product_terms_product]
      refine .cons ?_ ih
      rw [start, read, Nat.add_comm termOp.len, Nat.add_assoc]

theorem placed_inside : ∀ termOp ∈ termOps, termOp.start + termOp.len ≤ bytes.length := by
  induction placed with
  | nil => exact fun _ absent => absurd absent not_mem_nil
  | cons here later ih =>
    obtain ⟨-, idx, start, there⟩ := here
    intro termOp mem
    rcases mem_cons.mp mem with rfl | mem
    · have inside := there.inside.2
      omega
    · exact ih termOp mem

end

theorem operand_bytes_total {bytes : List Byte} {termOps : List TermOp}
    (inside : ∀ termOp ∈ termOps, termOp.start + termOp.len ≤ bytes.length) :
    ∃ operands, operandBytes bytes termOps = some operands := by
  have mapped : ∃ slices,
      (termOps.mapM fun term => sliceBytes bytes term.start term.len) = some slices := by
    induction termOps with
    | nil => exact ⟨[], rfl⟩
    | cons termOp termOps ih =>
      obtain ⟨slices, mapped⟩ := ih (forall_mem_cons.mp inside).2
      refine ⟨(bytes.drop termOp.start).take termOp.len :: slices, ?_⟩
      rw [mapM_cons, mapped, sliceBytes, if_pos (inside termOp mem_cons_self)]
      rfl
  obtain ⟨slices, mapped⟩ := mapped
  exact ⟨slices.flatten, by rw [operandBytes, mapped, Option.map_some]⟩

theorem all_lins (placed : Forall₂ (Placed bytes) termOps terms)
    (same : ∀ termOp ∈ termOps, termOp.op = QuotientOp.addMulConstU8MemU16.byte) :
    terms.map AffineTerm.instr = (linTerms terms).map .addMulConstU8MemU16 ∧
      (termOps.filter fun term => term.op = QuotientOp.addMulConstU8MemU16.byte) = termOps ∧
      termOps.length = (linTerms terms).length := by
  have kept := filter_eq_self.mpr fun termOp mem => decide_eq_true (same termOp mem)
  refine ⟨?_, kept, kept ▸ (placed_lins placed).length_eq⟩
  clear kept
  induction placed with
  | nil => rfl
  | @cons termOp term termOps terms here later ih =>
    have named := same termOp mem_cons_self
    cases term with
    | lin term =>
      rw [map_cons, ih (forall_mem_cons.mp same).2]
      rfl
    | product term =>
      have other : termOp.op = QuotientOp.addMulMemMemConstU8.byte := here.1
      rw [named] at other
      exact absurd other (by decide)

theorem all_products (placed : Forall₂ (Placed bytes) termOps terms)
    (same : ∀ termOp ∈ termOps, termOp.op = QuotientOp.addMulMemMemConstU8.byte) :
    terms.map AffineTerm.instr = (productTerms terms).map .addMulMemMemConstU8 ∧
      (termOps.filter fun term => term.op = QuotientOp.addMulMemMemConstU8.byte) = termOps ∧
      termOps.length = (productTerms terms).length := by
  have kept := filter_eq_self.mpr fun termOp mem => decide_eq_true (same termOp mem)
  refine ⟨?_, kept, kept ▸ (placed_products placed).length_eq⟩
  clear kept
  induction placed with
  | nil => rfl
  | @cons termOp term termOps terms here later ih =>
    have named := same termOp mem_cons_self
    cases term with
    | lin term =>
      have other : termOp.op = QuotientOp.addMulConstU8MemU16.byte := here.1
      rw [named] at other
      exact absurd other (by decide)
    | product term =>
      rw [map_cons, ih (forall_mem_cons.mp same).2]
      rfl

theorem encode_run_writes {idx : Nat} {run : AffineRun}
    (collected : Collected bytes (.empty idx) run terms) (nonempty : terms ≠ [])
    (linFits : run.linCount ≤ u16Max) (productFits : run.productCount ≤ u16Max)
    (inside : run.idx ≤ bytes.length) :
    ∃ written compacted, encodeRun bytes idx run = some written ∧ Writes written compacted ∧
      ∀ {instrs rest}, Compacted instrs rest →
        Compacted (terms.map AffineTerm.instr ++ instrs) (compacted ++ rest) := by
  obtain ⟨added, termOps, placed⟩ := collected.placed
  have linCount := collected.linCount
  have productCount := collected.productCount
  simp only [AffineRun.empty, Nat.zero_add, nil_append] at linCount productCount termOps
  have operands := fun kind : TermOp → Bool => @operand_bytes_total bytes _
    fun termOp (mem : termOp ∈ added.filter kind) =>
      placed_inside placed termOp (mem_filter.mp mem).1
  have all := operand_bytes_total (placed_inside placed)
  have opcode : ∀ term ∈ terms.head?, byteAt bytes idx = term.instr.op.byte := by
    have decoded := collected.decoded
    cases terms with
    | nil => exact absurd rfl nonempty
    | cons term rest =>
      intro head mem
      cases mem
      cases decoded with
      | next here later => exact instr_at_opcode here
  unfold encodeRun
  dsimp only
  rw [termOps]
  split_ifs with mixed long
  · obtain ⟨linOperands, linSliced⟩ := operands fun term =>
      term.op = QuotientOp.addMulConstU8MemU16.byte
    obtain ⟨productOperands, productsSliced⟩ := operands fun term =>
      term.op = QuotientOp.addMulMemMemConstU8.byte
    rw [linSliced, productsSliced]
    refine ⟨_, [.affineSum (linTerms terms) (productTerms terms)], rfl, ?_,
      fun compacted => .mixed nonempty compacted⟩
    rw [linCount, productCount] at mixed ⊢
    rw [linCount] at linFits
    rw [productCount] at productFits
    apply affine_sum_writes (ne_nil_of_length_pos mixed.1)
      (ne_nil_of_length_pos mixed.2.1) linFits productFits
    · exact repeat_written fetch_ptr_term_movable (placed_lins placed) linSliced
    · exact repeat_written fetch_ptr_product_movable (placed_products placed) productsSliced
  · obtain ⟨sliced, all⟩ := all
    rw [all]
    have same : ∀ termOp ∈ added, termOp.op = byteAt bytes idx := by
      intro termOp mem
      exact beq_iff_eq.mp (all_eq_true.mp long.2 termOp mem)
    obtain ⟨term, rest, rfl⟩ := exists_cons_of_ne_nil nonempty
    rw [opcode term rfl] at same
    cases term with
    | lin term =>
      obtain ⟨instrs, kept, length⟩ := all_lins placed same
      rw [opcode _ rfl, length, instrs]
      refine ⟨_, [.runAddMulConstU8MemU16 (linTerms (.lin term :: rest))], rfl, ?_,
        fun compacted => .lins (cons_ne_nil _ _) compacted⟩
      apply lin_run_writes (cons_ne_nil _ _) (linCount ▸ linFits)
      apply repeat_written fetch_ptr_term_movable (placed_lins placed)
      rw [kept, all]
    | product term =>
      obtain ⟨instrs, kept, length⟩ := all_products placed same
      rw [opcode _ rfl, length, instrs]
      refine ⟨_, [.runAddMulMemMemConstU8 (productTerms (.product term :: rest))], rfl, ?_,
        fun compacted => .products (cons_ne_nil _ _) compacted⟩
      apply product_run_writes (cons_ne_nil _ _) (productCount ▸ productFits)
      apply repeat_written fetch_ptr_product_movable (placed_products placed)
      rw [kept, all]
  · have forward := collected.decoded.forward
    have slice : sliceBytes bytes idx (run.idx - idx) =
        some ((bytes.drop idx).take (run.idx - idx)) := by
      rw [sliceBytes, if_pos (by simp only [AffineRun.empty] at forward; omega)]
    exact ⟨_, terms.map AffineTerm.instr, slice, slice_writes collected.decoded slice,
      fun compacted => .keep _ compacted⟩

theorem collect_affine_run_total {bytes : List Byte} {start : AffineRun} {instrs : List Instr}
    (decoded : Decoded bytes bytes.length start.idx instrs) :
    ∃ run, collectAffineRun bytes start = some run := by
  fun_induction collectAffineRun bytes start generalizing instrs with
  | case1 start running missing =>
    obtain ⟨len, instr, rest, rfl, here, later⟩ := Decoded.split_first decoded running.1
    rw [(checked_len_agrees here.decoded).1] at missing
    cases missing
  | case2 start running len found next => exact ⟨next, rfl⟩
  | case3 start running len found next room =>
    rename_i ih
    obtain ⟨width, instr, rest, rfl, here, later⟩ := Decoded.split_first decoded running.1
    have same := (checked_len_agrees here.decoded).1
    rw [found, Option.some.injEq] at same
    subst same
    exact ih later
  | case4 start stopped => exact ⟨start, rfl⟩

theorem compact_runs_from_writes {bytes : List Byte} {idx : Nat} {instrs : List Instr}
    (decoded : Decoded bytes bytes.length idx instrs) :
    ∃ written compacted, compactRunsFrom bytes idx = some written ∧ Writes written compacted ∧
      Compacted instrs compacted := by
  have forward := decoded.forward
  rw [compactRunsFrom]
  by_cases running : idx < bytes.length
  · rw [dif_pos running]
    by_cases affine : isAffineAddOp (byteAt bytes idx) = true
    · rw [dif_pos affine]
      obtain ⟨run, collected⟩ := @collect_affine_run_total _ (.empty idx) _ decoded
      have progress := collect_affine_run_progress running affine collected
      obtain ⟨terms, rest, rfl, taken, remaining⟩ := collected_run collected decoded
      have counts := collected_counts collected (show 0 < u16Max by decide)
        (show 0 < u16Max by decide)
      have nonempty : terms ≠ [] := by
        rintro rfl
        have stuck : run.idx = idx := by
          cases taken.decoded
          rfl
        omega
      obtain ⟨written, here, encoded, writes, rewrites⟩ :=
        encode_run_writes taken nonempty counts.1 counts.2 remaining.forward
      obtain ⟨later, compacted, compactedLater, writesLater, rewritten⟩ :=
        compact_runs_from_writes remaining
      refine ⟨written ++ later, here ++ compacted, ?_, writes.append writesLater,
        rewrites rewritten⟩
      split
      · rename_i missing
        rw [collected] at missing
        cases missing
      · rename_i run' again
        rw [collected] at again
        cases again
        rw [encoded, compactedLater]
        rfl
    · rw [dif_neg affine]
      obtain ⟨len, instr, rest, rfl, here, remaining⟩ := Decoded.split_first decoded running
      have inside := here.inside
      have found := (checked_len_agrees here.decoded).1
      have slice : sliceBytes bytes idx len = some ((bytes.drop idx).take len) := by
        rw [sliceBytes, if_pos inside.2]
      obtain ⟨later, compacted, compactedLater, writesLater, rewritten⟩ :=
        compact_runs_from_writes remaining
      have single : Decoded bytes (idx + len) idx [instr] := .next here .done
      have writes := slice_writes single (by rw [Nat.add_sub_cancel_left]; exact slice)
      refine ⟨_, [instr] ++ compacted, ?_, writes.append writesLater, .keep [instr] rewritten⟩
      split
      · rename_i missing
        rw [found] at missing
        cases missing
      · rename_i len' again
        rw [found] at again
        cases again
        rw [slice, compactedLater]
        rfl
  · rw [dif_neg running]
    have stop : idx = bytes.length := by omega
    subst stop
    cases decoded with
    | done => exact ⟨[], [], rfl, writes_nothing, .done⟩
    | next here later =>
      have inside := here.inside
      omega
termination_by bytes.length - idx

/-! ### The compacted list has the same effects -/

theorem affine_effect (term : AffineTerm) (usage : StackUsage) :
    effect usage term.instr = if usage.depth < 1 then none else some usage := by
  cases term with
  | lin term =>
    simp only [effect, AffineTerm.instr, Instr.op, applyQuotientStackEffect,
      requireQuotientStackDepth]
    split_ifs <;> rfl
  | product term =>
    simp only [effect, AffineTerm.instr, Instr.op, applyQuotientStackEffect,
      requireQuotientStackDepth]
    split_ifs <;> rfl

theorem affine_effects {terms : List AffineTerm} (nonempty : terms ≠ []) {instrs : List Instr}
    (usage : StackUsage) :
    effects (terms.map AffineTerm.instr ++ instrs) usage =
        (if usage.depth < 1 then none else effects instrs usage) ∧
      foldDepths (terms.map AffineTerm.instr ++ instrs) usage =
        if usage.depth < 1 then [] else foldDepths instrs usage := by
  induction terms with
  | nil => exact absurd rfl nonempty
  | cons term terms ih =>
    have notFold : isFold term.instr.op = false := by cases term <;> rfl
    have step : effects ((term :: terms).map AffineTerm.instr ++ instrs) usage =
        (effect usage term.instr).bind (effects (terms.map AffineTerm.instr ++ instrs)) := rfl
    rw [step, map_cons, cons_append, foldDepths, affine_effect]
    by_cases shallow : usage.depth < 1
    · simp only [if_pos shallow, Option.bind_none, and_self]
    · simp only [if_neg shallow, Option.bind_some, notFold, Bool.false_eq_true, if_false]
      cases terms with
      | nil => exact ⟨rfl, rfl⟩
      | cons other terms =>
        have later := ih (cons_ne_nil _ _)
        simp only [if_neg shallow] at later
        exact later

theorem counted_effect {instr : Instr} (counted : instr.op = .runAddMulMemMemConstU8 ∨
    instr.op = .runAddMulConstU8MemU16 ∨ instr.op = .affineSum) {instrs : List Instr}
    (usage : StackUsage) :
    effects (instr :: instrs) usage =
        (if usage.depth < 1 then none else effects instrs usage) ∧
      foldDepths (instr :: instrs) usage =
        if usage.depth < 1 then [] else foldDepths instrs usage := by
  have step : effects (instr :: instrs) usage =
      (effect usage instr).bind (effects instrs) := rfl
  have same : effect usage instr = if usage.depth < 1 then none else some usage := by
    unfold effect
    rcases counted with op | op | op
    all_goals
      rw [op]
      simp only [applyQuotientStackEffect, requireQuotientStackDepth]
      split_ifs <;> rfl
  have notFold : isFold instr.op = false := by
    rcases counted with op | op | op
    all_goals
      rw [op]
      rfl
  rw [step, foldDepths, same]
  by_cases shallow : usage.depth < 1
  · simp only [if_pos shallow, Option.bind_none, and_self]
  · simp only [if_neg shallow, Option.bind_some, notFold, Bool.false_eq_true, if_false, and_self]

theorem counted_effects (counted : instr.op = .runAddMulMemMemConstU8 ∨
    instr.op = .runAddMulConstU8MemU16 ∨ instr.op = .affineSum) (nonempty : terms ≠ [])
    {instrs compacted : List Instr}
    (later : ∀ usage, effects compacted usage = effects instrs usage ∧
      foldDepths compacted usage = foldDepths instrs usage) (usage : StackUsage) :
    effects (instr :: compacted) usage = effects (terms.map AffineTerm.instr ++ instrs) usage ∧
      foldDepths (instr :: compacted) usage =
        foldDepths (terms.map AffineTerm.instr ++ instrs) usage := by
  obtain ⟨runEffects, runDepths⟩ := @counted_effect _ counted compacted usage
  obtain ⟨termEffects, termDepths⟩ := @affine_effects _ nonempty instrs usage
  obtain ⟨sameEffects, sameDepths⟩ := later usage
  rw [runEffects, runDepths, termEffects, termDepths, sameEffects, sameDepths]
  exact ⟨rfl, rfl⟩

theorem lins_affine (terms : List LinTerm) :
    terms.map Instr.addMulConstU8MemU16 = (terms.map AffineTerm.lin).map AffineTerm.instr := by
  rw [map_map]
  rfl

theorem products_affine (terms : List ProductTerm) :
    terms.map Instr.addMulMemMemConstU8 = (terms.map AffineTerm.product).map AffineTerm.instr := by
  rw [map_map]
  rfl

theorem compacted_effects {instrs compacted : List Instr} (rewritten : Compacted instrs compacted)
    (usage : StackUsage) :
    effects compacted usage = effects instrs usage ∧
      foldDepths compacted usage = foldDepths instrs usage := by
  induction rewritten generalizing usage with
  | done => exact ⟨rfl, rfl⟩
  | keep kept rewritten ih =>
    induction kept generalizing usage with
    | nil => exact ih usage
    | cons instr kept inner =>
      have step : ∀ rest, effects (instr :: rest) usage =
          (effect usage instr).bind (effects rest) := fun _ => rfl
      simp only [cons_append, step, foldDepths]
      cases effect usage instr with
      | none => exact ⟨rfl, rfl⟩
      | some next =>
        obtain ⟨sameEffects, sameDepths⟩ := inner next
        simp only [Option.bind_some, sameEffects, sameDepths, and_self]
  | lins nonempty rewritten ih =>
    rw [lins_affine]
    exact counted_effects (Or.inr (Or.inl rfl)) (mt map_eq_nil_iff.mp nonempty) ih
      usage
  | products nonempty rewritten ih =>
    rw [products_affine]
    exact counted_effects (Or.inl rfl) (mt map_eq_nil_iff.mp nonempty) ih usage
  | mixed nonempty rewritten ih =>
    exact counted_effects (Or.inr (Or.inr rfl)) nonempty ih usage

/-! ### The compacted list runs alike -/

section Runs

variable (frame : QuotientFrame)

def addTerm (top : Nat) : AffineTerm → Nat
  | .lin term => frame.addPtrTerm top term
  | .product term => frame.addProduct top term

theorem update_update (state : VmState) (first second : Nat → Nat) :
    (state.update first >>= fun next => next.update second) =
      state.update fun top => second (first top) := by
  unfold VmState.update
  cases top : state.hasTop with
  | true => simp only [if_true, bind, Except.bind]
  | false => rfl

theorem exec_affine (term : AffineTerm) (state : VmState) :
    frame.exec term.instr state = state.update fun top => addTerm frame top term := by
  cases term <;> rfl

theorem exec_all_affine {terms : List AffineTerm} (nonempty : terms ≠ []) (state : VmState) :
    execAll frame (terms.map AffineTerm.instr) state =
      state.update fun top => terms.foldl (addTerm frame) top := by
  induction terms generalizing state with
  | nil => exact absurd rfl nonempty
  | cons term terms ih =>
    rw [map_cons, execAll, foldlM_cons, exec_affine]
    cases terms with
    | nil =>
      simp only [map_nil, foldlM_nil, foldl_cons, foldl_nil]
      exact bind_pure _
    | cons other terms =>
      refine Eq.trans ?_ (update_update state (fun top => addTerm frame top term)
        fun top => (other :: terms).foldl (addTerm frame) top)
      congr 1
      funext next
      exact ih (cons_ne_nil _ _) next

theorem add_term_comm (top : Nat) (first second : AffineTerm) :
    addTerm frame (addTerm frame top first) second =
      addTerm frame (addTerm frame top second) first := by
  have swap : ∀ left right : Nat, addmod (addmod top left) right = addmod (addmod top right) left := by
    intro left right
    simp only [addmod, Nat.mod_add_mod]
    rw [Nat.add_right_comm]
  cases first <;> cases second <;> exact swap _ _

theorem sorted_terms (terms : List AffineTerm) :
    terms.Perm ((linTerms terms).map .lin ++ (productTerms terms).map .product) := by
  induction terms with
  | nil => exact .nil
  | cons term terms ih =>
    cases term with
    | lin term => exact ih.cons _
    | product term =>
      exact (ih.cons _).trans perm_middle.symm

theorem mixed_fold (terms : List AffineTerm) (top : Nat) :
    (productTerms terms).foldl frame.addProduct ((linTerms terms).foldl frame.addPtrTerm top) =
      terms.foldl (addTerm frame) top := by
  have commutes : RightCommutative (addTerm frame) := ⟨add_term_comm frame⟩
  rw [(sorted_terms terms).foldl_eq top, foldl_append, foldl_map, foldl_map]
  rfl

theorem compacted_runs {instrs compacted : List Instr} (rewritten : Compacted instrs compacted)
    (state : VmState) : execAll frame compacted state = execAll frame instrs state := by
  have counted : ∀ {instr : Instr} {terms : List AffineTerm} {instrs compacted : List Instr},
      terms ≠ [] → (∀ state, execAll frame compacted state = execAll frame instrs state) →
      (∀ state, frame.exec instr state =
        state.update fun top => terms.foldl (addTerm frame) top) →
      ∀ state, execAll frame (instr :: compacted) state =
        execAll frame (terms.map AffineTerm.instr ++ instrs) state := by
    intro instr terms instrs compacted nonempty later here state
    rw [exec_all_append, exec_all_affine frame nonempty, ← here, execAll, foldlM_cons]
    congr 1
    funext next
    exact later next
  induction rewritten generalizing state with
  | done => rfl
  | keep kept rewritten ih =>
    rw [exec_all_append, exec_all_append]
    congr 1
    funext next
    exact ih next
  | lins nonempty rewritten ih =>
    rw [lins_affine]
    apply counted (mt map_eq_nil_iff.mp nonempty) ih
    intro state
    simp only [foldl_map]
    rfl
  | products nonempty rewritten ih =>
    rw [products_affine]
    apply counted (mt map_eq_nil_iff.mp nonempty) ih
    intro state
    simp only [foldl_map]
    rfl
  | mixed nonempty rewritten ih =>
    apply counted nonempty ih
    intro state
    simp only [← mixed_fold]
    rfl

end Runs

/-! ### The pass preserves meaning -/

def render (env : QuotientFrame) (program : List Byte) (usage : List Byte × List Byte) :
    QuotientFrame :=
  { env with code := program, usedOps := usage.1, usedMemTokens := usage.2 }

theorem exec_rendered {env : QuotientFrame} {program other : List Byte}
    {usage otherUsage : List Byte × List Byte} (resolved : ∀ token, tokenOf instr = some token →
      (render env program usage).resolveToken token = .ok (env.tokenPtr token))
    (otherResolved : ∀ token, tokenOf instr = some token →
      (render env other otherUsage).resolveToken token = .ok (env.tokenPtr token))
    (state : VmState) :
    (render env program usage).exec instr state =
      (render env other otherUsage).exec instr state := by
  cases instr <;> try rfl
  case pushMemToken token =>
    simp only [QuotientFrame.exec, resolved token rfl, otherResolved token rfl]
    rfl
  case pushMemTokenOffset token offset =>
    simp only [QuotientFrame.exec, resolved token rfl, otherResolved token rfl]
    rfl

theorem exec_all_same {frame other : QuotientFrame}
    (same : ∀ instr ∈ instrs, ∀ state, frame.exec instr state = other.exec instr state)
    (state : VmState) : execAll frame instrs state = execAll other instrs state := by
  induction instrs generalizing state with
  | nil => rfl
  | cons instr instrs ih =>
    rw [execAll, execAll, foldlM_cons, foldlM_cons, same instr mem_cons_self]
    congr 1
    funext next
    exact ih (forall_mem_cons.mp same).2 next

theorem compacted_tokens {instrs compacted : List Instr} (rewritten : Compacted instrs compacted) :
    ∀ instr ∈ compacted, tokenOf instr = none ∨ instr ∈ instrs := by
  have counted : ∀ {run : Instr} {taken instrs compacted : List Instr}, tokenOf run = none →
      (∀ instr ∈ compacted, tokenOf instr = none ∨ instr ∈ instrs) →
      ∀ instr ∈ run :: compacted, tokenOf instr = none ∨ instr ∈ taken ++ instrs := by
    intro run taken instrs compacted unnamed later instr mem
    rcases mem_cons.mp mem with rfl | mem
    · exact Or.inl unnamed
    · exact (later instr mem).imp_right (mem_append_right _)
  induction rewritten with
  | done => exact fun _ absent => absurd absent not_mem_nil
  | keep kept rewritten ih =>
    intro instr mem
    rcases mem_append.mp mem with mem | mem
    · exact Or.inr (mem_append_left _ mem)
    · exact (ih instr mem).imp_right (mem_append_right _)
  | lins _ _ ih | products _ _ ih | mixed _ _ ih => exact counted rfl ih

/-- The compacted program is accepted with the same stack depth, folds at the
same depths, and has the same run from every state in every environment. -/
theorem compact_quotient_runs_preserve (bytes : List Byte) (maxStack : Nat)
    (accepted : validateQuotientProgram bytes = .ok maxStack) :
    ∃ compacted, compactQuotientRuns bytes = some compacted ∧
      validateQuotientProgram compacted = .ok maxStack ∧
      (∃ depths, foldDepthsFrom bytes 0 ⟨0, 0⟩ = .ok depths ∧
        foldDepthsFrom compacted 0 ⟨0, 0⟩ = .ok depths) ∧
      (∀ idx run, collectAffineRun bytes (.empty idx) = some run →
        run.linCount ≤ u16Max ∧ run.productCount ≤ u16Max) ∧
      ∃ usage compactedUsage, quotientProgramUsage bytes = some usage ∧
        quotientProgramUsage compacted = some compactedUsage ∧
        ∀ env state,
          ((render env compacted compactedUsage).runLoop 0 state).map (·.2) =
              ((render env bytes usage).runLoop 0 state).map (·.2) ∧
            (render env compacted compactedUsage).run state =
              (render env bytes usage).run state := by
  simp only [validateQuotientProgram, bind_ok_iff] at accepted
  obtain ⟨final, validated, drained⟩ := accepted
  obtain ⟨instrs, decoded, effected⟩ := decoded_of_validated (Nat.zero_le _) validated
  obtain ⟨compacted, rewritten, written, writes, related⟩ := compact_runs_from_writes decoded
  have decodedCompacted := writes.decoded
  obtain ⟨sameEffects, sameDepths⟩ := compacted_effects related ⟨0, 0⟩
  obtain ⟨-, depths⟩ := validated_of_decoded decoded effected
  obtain ⟨validatedCompacted, depthsCompacted⟩ :=
    validated_of_decoded decodedCompacted (sameEffects.trans effected)
  obtain ⟨ops, walk, -⟩ := decoded_walk decoded
  obtain ⟨compactedOps, compactedWalk, -⟩ := decoded_walk decodedCompacted
  refine ⟨compacted, written, ?_, ⟨_, depths, sameDepths ▸ depthsCompacted⟩, ?_, _, _,
    congrArg (Option.map _) walk, congrArg (Option.map _) compactedWalk, ?_⟩
  · simp only [validateQuotientProgram, bind_ok_iff]
    exact ⟨final, validatedCompacted, drained⟩
  · intro idx run collected
    exact collected_counts collected (show 0 < u16Max by decide) (show 0 < u16Max by decide)
  · intro env state
    have served := @decoded_served (render env bytes (ops.foldl (pushUsage bytes) ([], []))) _ _
      ⟨rfl, congrArg (Option.map _) walk⟩ decoded
    have servedCompacted := @decoded_served
      (render env compacted (compactedOps.foldl (pushUsage compacted) ([], []))) _ _
      ⟨rfl, congrArg (Option.map _) compactedWalk⟩ decodedCompacted
    have ran := @run_loop_decoded (render env bytes (ops.foldl (pushUsage bytes) ([], []))) _ _ decoded
      (fun instr mem => (served instr mem).1) state
    have ranCompacted := @run_loop_decoded
      (render env compacted (compactedOps.foldl (pushUsage compacted) ([], []))) _ _
      decodedCompacted (fun instr mem => (servedCompacted instr mem).1) state
    have same : execAll (render env compacted (compactedOps.foldl (pushUsage compacted) ([], [])))
          rewritten state =
        execAll (render env bytes (ops.foldl (pushUsage bytes) ([], []))) instrs state := by
      rw [← compacted_runs _ related]
      apply exec_all_same
      intro instr mem
      apply exec_rendered (servedCompacted instr mem).2
      intro token names
      rcases compacted_tokens related instr mem with none | inOriginal
      · rw [none] at names
        cases names
      · exact (served instr inOriginal).2 token names
    rw [same] at ranCompacted
    constructor
    · rw [ran, ranCompacted]
      cases execAll (render env bytes (ops.foldl (pushUsage bytes) ([], []))) instrs state <;> rfl
    · rw [QuotientFrame.run, QuotientFrame.run, ran, ranCompacted]
      cases execAll (render env bytes (ops.foldl (pushUsage bytes) ([], []))) instrs state with
      | error fault => rfl
      | ok stopped =>
        simp only [Except.map, bind, Except.bind, pure, Except.pure, ne_eq, not_true_eq_false]

/-- Two products and two linear terms added to one word. -/
def mixedRunProgram : List Byte :=
  [0x09, 0, 0x12, 0, 64, 0, 96, 1, 0x13, 0, 128, 2, 0x12, 0, 160, 0, 192, 3, 0x13, 0, 224, 4, 0x0a]

theorem mixed_run_preserved :
    ∃ compacted, compactQuotientRuns mixedRunProgram = some compacted ∧
      validateQuotientProgram compacted = .ok 1 ∧ compacted =
        [0x09, 0, 0x22, 0, 2, 0, 2, 0, 128, 2, 0, 224, 4, 0, 64, 0, 96, 1, 0, 160, 0, 192, 3, 0x0a] := by
  obtain ⟨compacted, written, validated, -⟩ :=
    compact_quotient_runs_preserve mixedRunProgram 1 (by decide +kernel)
  have bytes : compactQuotientRuns mixedRunProgram = some
      [0x09, 0, 0x22, 0, 2, 0, 2, 0, 128, 2, 0, 224, 4, 0, 64, 0, 96, 1, 0, 160, 0, 192, 3, 0x0a] := by
    decide +kernel
  rw [bytes] at written
  exact ⟨compacted, by rw [bytes, ← written], validated, (Option.some.inj written).symm⟩

end Midfall.QuotientRunCompaction
