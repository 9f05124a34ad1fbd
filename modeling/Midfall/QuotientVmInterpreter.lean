import Midfall.ByteReader
import Midfall.QuotientVmOpcodes
import Midfall.ScalarField

/-!
# The Yul interpreter of the quotient program

`QuotientNumeratorBlock.yul` split into operand fetch and execution: operands
come from the pinned bytecode only, so fetching never depends on the operand
stack. Two monitors are added to the Yul: an operand byte read at or beyond
`q_end`, and a pop or in-place update without a live `q_top`, are faults. The
planned operand words, the constant table, the stack and the fold state are
kept apart, as the memory planner places them in disjoint regions. Trace
builds only add labels and are not modelled.
-/

namespace Midfall.QuotientVmInterpreter

open ByteReader QuotientVmOpcodes
open ScalarField (scalarModulus addmod mulmod)

/-- EVM subtraction wraps modulo `2^256`. -/
def sub (left right : Nat) : Nat := (left + (2 ^ 256 - right)) % 2 ^ 256

/-- A `{u8 const_idx, u16 ptr}` or `{u16 ptr, u8 const_idx}` term. -/
structure LinTerm where
  slot : Nat
  ptr : Nat
  deriving DecidableEq, Repr

structure ProductTerm where
  slot : Nat
  lhs : Nat
  rhs : Nat
  deriving DecidableEq, Repr

structure RowBlock where
  lhs : Nat
  terms : List LinTerm
  deriving DecidableEq, Repr

structure PairwiseBlock where
  lhsBase : Nat
  rhsBase : Nat
  slots : List Nat
  deriving DecidableEq, Repr

structure Modarith7 where
  cond : Option Nat
  constant : Option Nat
  lin : List (List LinTerm)
  rows : List RowBlock
  pairwise : List PairwiseBlock
  memTerms : List LinTerm
  productTerms : List ProductTerm
  deriving DecidableEq, Repr

inductive Instr where
  | pushConst (slot : Nat)
  | pushMemLiteral (ptr : Nat)
  | pushMemToken (token : Nat)
  | pushMemTokenOffset (token offset : Nat)
  | pushMemU16 (ptr : Nat)
  | add | mul | neg
  | pushConstU8 (slot : Nat)
  | foldMain
  | foldSelector (selector gap : Nat)
  | addConstU8 (slot : Nat)
  | mulConstU8 (slot : Nat)
  | addConst (slot : Nat)
  | mulConst (slot : Nat)
  | addMemU16 (ptr : Nat)
  | mulMemU16 (ptr : Nat)
  | addMulMemMemConstU8 (term : ProductTerm)
  | addMulConstU8MemU16 (term : LinTerm)
  | addMulMemMem (lhs rhs : Nat)
  | runAddMulMemMemConstU8 (terms : List ProductTerm)
  | runAddMulConstU8MemU16 (terms : List LinTerm)
  | nativePermutation
  | nativeIdentity (index : Nat)
  | lin7 (terms : List LinTerm)
  | bilin7Row (row : RowBlock)
  | bilin7Pairwise (block : PairwiseBlock)
  | nativeLookup
  | pow5
  | modarith7 (shape : Modarith7)
  | affineSum (lin : List LinTerm) (products : List ProductTerm)
  deriving DecidableEq, Repr

def Instr.op : Instr → QuotientOp
  | .pushConst _ => .pushConst
  | .pushMemLiteral _ => .pushMemLiteral
  | .pushMemToken _ => .pushMemToken
  | .pushMemTokenOffset _ _ => .pushMemTokenOffset
  | .pushMemU16 _ => .pushMemU16
  | .add => .add
  | .mul => .mul
  | .neg => .neg
  | .pushConstU8 _ => .pushConstU8
  | .foldMain => .foldMain
  | .foldSelector _ _ => .foldSelector
  | .addConstU8 _ => .addConstU8
  | .mulConstU8 _ => .mulConstU8
  | .addConst _ => .addConst
  | .mulConst _ => .mulConst
  | .addMemU16 _ => .addMemU16
  | .mulMemU16 _ => .mulMemU16
  | .addMulMemMemConstU8 _ => .addMulMemMemConstU8
  | .addMulConstU8MemU16 _ => .addMulConstU8MemU16
  | .addMulMemMem _ _ => .addMulMemMem
  | .runAddMulMemMemConstU8 _ => .runAddMulMemMemConstU8
  | .runAddMulConstU8MemU16 _ => .runAddMulConstU8MemU16
  | .nativePermutation => .nativePermutation
  | .nativeIdentity _ => .nativeIdentity
  | .lin7 _ => .lin7
  | .bilin7Row _ => .bilin7Row
  | .bilin7Pairwise _ => .bilin7Pairwise
  | .nativeLookup => .nativeLookup
  | .pow5 => .pow5
  | .modarith7 _ => .modarith7
  | .affineSum _ _ => .affineSum

inductive VmFault where
  /-- The Yul executes `revert(0, 0)`. -/
  | reverted
  /-- An operand byte at or beyond `q_end` was read. -/
  | operandOutOfRange (pc : Nat)
  /-- A stack value was consumed from an empty operand stack. -/
  | stackUnderflow
  deriving DecidableEq, Repr

abbrev Vm := Except VmFault

/-- `byte(0, mload(pc))` under the range monitor. -/
def u8At (code : List Byte) (pc : Nat) : Vm Nat :=
  match code[pc]? with
  | some byte => .ok byte.toNat
  | none => .error (.operandOutOfRange pc)

/-- `shr(240, mload(pc))`. -/
def u16At (code : List Byte) (pc : Nat) : Vm Nat := do
  let high ← u8At code pc
  let low ← u8At code (pc + 1)
  return high * 256 + low

/-- `shr(224, mload(pc))`. -/
def u32At (code : List Byte) (pc : Nat) : Vm Nat := do
  let high ← u16At code pc
  let low ← u16At code (pc + 2)
  return high * 65536 + low

/-- One pass of a Yul operand loop: the value read and the advanced `q_pc`. -/
abbrev Fetch (Value : Type) := Reader VmFault Value

def fetchSlot (code : List Byte) : Fetch Nat := fun pc => do
  let slot ← u8At code pc
  return (slot, pc + 1)

/-- `{u16 ptr, u8 const_idx}`, the payload of opcodes `0x13`, `0x16` and `0x22`. -/
def fetchPtrTerm (code : List Byte) : Fetch LinTerm := fun pc => do
  let ptr ← u16At code pc
  let slot ← u8At code (pc + 2)
  return ({ slot, ptr }, pc + 3)

/-- `{u16 lhs, u16 rhs, u8 const_idx}`, the payload of opcodes `0x12`, `0x15` and `0x22`. -/
def fetchPtrProduct (code : List Byte) : Fetch ProductTerm := fun pc => do
  let lhs ← u16At code pc
  let rhs ← u16At code (pc + 2)
  let slot ← u8At code (pc + 4)
  return ({ slot, lhs, rhs }, pc + 5)

/-- `{u8 const_idx, u16 ptr}`, the limb-opcode term. -/
def fetchLinTerm (code : List Byte) : Fetch LinTerm := fun pc => do
  let slot ← u8At code pc
  let ptr ← u16At code (pc + 1)
  return ({ slot, ptr }, pc + 3)

/-- `{u8 const_idx, u16 lhs, u16 rhs}`, the `MODARITH7` product term. -/
def fetchProductTerm (code : List Byte) : Fetch ProductTerm := fun pc => do
  let slot ← u8At code pc
  let lhs ← u16At code (pc + 1)
  let rhs ← u16At code (pc + 3)
  return ({ slot, lhs, rhs }, pc + 5)

def fetchLin7 (code : List Byte) : Fetch (List LinTerm) :=
  repeatRead (fetchLinTerm code) quotientVmLimbs

def fetchRow (code : List Byte) : Fetch RowBlock := fun pc => do
  let lhs ← u16At code pc
  let (terms, pc) ← repeatRead (fetchLinTerm code) quotientVmLimbs (pc + 2)
  return ({ lhs, terms }, pc)

def fetchPairwise (code : List Byte) : Fetch PairwiseBlock := fun pc => do
  let lhsBase ← u16At code pc
  let rhsBase ← u16At code (pc + 2)
  let (slots, pc) ← repeatRead (fetchSlot code) quotientVmPairwiseCoeffs (pc + 4)
  return ({ lhsBase, rhsBase, slots }, pc)

def fetchOptional {Value : Type} (present : Bool) (fetch : Fetch Value) :
    Fetch (Option Value) := fun pc =>
  if present then do
    let (value, pc) ← fetch pc
    return (some value, pc)
  else return (none, pc)

def fetchPtr (code : List Byte) : Fetch Nat := fun pc => do
  let ptr ← u16At code pc
  return (ptr, pc + 2)

def fetchModarith7 (code : List Byte) : Fetch Modarith7 := fun pc => do
  let flags ← u8At code pc
  let (cond, pc) ← fetchOptional (flags % 2 == 1) (fetchPtr code) (pc + 1)
  let (constant, pc) ← fetchOptional (flags / 2 % 2 == 1) (fetchSlot code) pc
  let linCount ← u8At code pc
  let rowCount ← u8At code (pc + 1)
  let pairwiseCount ← u8At code (pc + 2)
  let memCount ← u8At code (pc + 3)
  let productCount ← u8At code (pc + 4)
  let (lin, pc) ← repeatRead (fetchLin7 code) linCount (pc + 5)
  let (rows, pc) ← repeatRead (fetchRow code) rowCount pc
  let (pairwise, pc) ← repeatRead (fetchPairwise code) pairwiseCount pc
  let (memTerms, pc) ← repeatRead (fetchLinTerm code) memCount pc
  let (productTerms, pc) ← repeatRead (fetchProductTerm code) productCount pc
  return ({ cond, constant, lin, rows, pairwise, memTerms, productTerms }, pc)

/-- The operand layout of each switch case, from the byte behind the opcode. -/
def fetchOperands (code : List Byte) (op : QuotientOp) : Fetch Instr := fun pc =>
  match op with
  | .pushConst => do return (.pushConst (← u16At code pc), pc + 2)
  | .pushMemLiteral => do return (.pushMemLiteral (← u32At code pc), pc + 4)
  | .pushMemToken => do return (.pushMemToken (← u8At code pc), pc + 1)
  | .pushMemTokenOffset => do
    let token ← u8At code pc
    let offset ← u32At code (pc + 1)
    return (.pushMemTokenOffset token offset, pc + 5)
  | .pushMemU16 => do return (.pushMemU16 (← u16At code pc), pc + 2)
  | .add => .ok (.add, pc)
  | .mul => .ok (.mul, pc)
  | .neg => .ok (.neg, pc)
  | .pow5 => .ok (.pow5, pc)
  | .pushConstU8 => do return (.pushConstU8 (← u8At code pc), pc + 1)
  | .addConstU8 => do return (.addConstU8 (← u8At code pc), pc + 1)
  | .mulConstU8 => do return (.mulConstU8 (← u8At code pc), pc + 1)
  | .addConst => do return (.addConst (← u16At code pc), pc + 2)
  | .mulConst => do return (.mulConst (← u16At code pc), pc + 2)
  | .addMemU16 => do return (.addMemU16 (← u16At code pc), pc + 2)
  | .mulMemU16 => do return (.mulMemU16 (← u16At code pc), pc + 2)
  | .addMulMemMemConstU8 => do
    let (term, pc) ← fetchPtrProduct code pc
    return (.addMulMemMemConstU8 term, pc)
  | .addMulConstU8MemU16 => do
    let (term, pc) ← fetchPtrTerm code pc
    return (.addMulConstU8MemU16 term, pc)
  | .addMulMemMem => do
    let lhs ← u16At code pc
    let rhs ← u16At code (pc + 2)
    return (.addMulMemMem lhs rhs, pc + 4)
  | .runAddMulMemMemConstU8 => do
    let count ← u16At code pc
    let (terms, pc) ← repeatRead (fetchPtrProduct code) count (pc + 2)
    return (.runAddMulMemMemConstU8 terms, pc)
  | .runAddMulConstU8MemU16 => do
    let count ← u16At code pc
    let (terms, pc) ← repeatRead (fetchPtrTerm code) count (pc + 2)
    return (.runAddMulConstU8MemU16 terms, pc)
  | .affineSum => do
    let linCount ← u16At code pc
    let productCount ← u16At code (pc + 2)
    let (lin, pc) ← repeatRead (fetchPtrTerm code) linCount (pc + 4)
    let (products, pc) ← repeatRead (fetchPtrProduct code) productCount pc
    return (.affineSum lin products, pc)
  | .lin7 => do
    let (terms, pc) ← fetchLin7 code pc
    return (.lin7 terms, pc)
  | .bilin7Row => do
    let (row, pc) ← fetchRow code pc
    return (.bilin7Row row, pc)
  | .bilin7Pairwise => do
    let (block, pc) ← fetchPairwise code pc
    return (.bilin7Pairwise block, pc)
  | .modarith7 => do
    let (shape, pc) ← fetchModarith7 code pc
    return (.modarith7 shape, pc)
  | .nativePermutation => .ok (.nativePermutation, pc)
  | .nativeLookup => .ok (.nativeLookup, pc)
  | .nativeIdentity => do return (.nativeIdentity (← u16At code pc), pc + 2)
  | .foldMain => .ok (.foldMain, pc)
  | .foldSelector => do
    let selector ← u8At code pc
    let gap ← u16At code (pc + 1)
    return (.foldSelector selector gap, pc + 3)

/-- The fold state written by the interpreter and by native callbacks. -/
structure Accumulators where
  evalNumer : Nat
  selectorAcc : Nat → Nat

/-- Everything the rendered block reads. The switch arms of unused opcodes and
tokens are not rendered; a native arm is rendered when its callback body is. -/
structure QuotientFrame where
  code : List Byte
  constants : Nat → Nat
  memory : Nat → Nat
  tokenPtr : Nat → Nat
  y : Nat
  selectorPower : Nat → Nat
  usedOps : List Byte
  usedMemTokens : List Byte
  nativePermutation : Option (Accumulators → Accumulators)
  nativeLookup : Option (Accumulators → Accumulators)
  nativeIdentities : List (Accumulators → Accumulators)

/-- `spill` holds the words between the stack base and `q_sp`, latest first. -/
structure VmState where
  spill : List Nat
  top : Nat
  hasTop : Bool
  acc : Accumulators

def VmState.depth (state : VmState) : Nat := state.spill.length + state.hasTop.toNat

/-- Spill the old cached top, if any, then install the new one. -/
def VmState.push (state : VmState) (word : Nat) : VmState :=
  { state with
    spill := if state.hasTop then state.top :: state.spill else state.spill
    top := word
    hasTop := true }

/-- An accumulator opcode: mutates `q_top` in place. -/
def VmState.update (state : VmState) (change : Nat → Nat) : Vm VmState :=
  if state.hasTop then .ok { state with top := change state.top } else .error .stackUnderflow

/-- `ADD`/`MUL`: move `q_sp` back by one word and combine it with `q_top`. -/
def VmState.binary (state : VmState) (combine : Nat → Nat → Nat) : Vm VmState :=
  if state.hasTop then
    match state.spill with
    | word :: rest => .ok { state with spill := rest, top := combine word state.top }
    | [] => .error .stackUnderflow
  else .error .stackUnderflow

/-- Consume the complete identity value in `q_top` into the fold state. -/
def VmState.fold (state : VmState) (absorb : Nat → Accumulators → Accumulators) : Vm VmState :=
  if state.hasTop then
    .ok { state with hasTop := false, acc := absorb state.top state.acc }
  else .error .stackUnderflow

/-- A native callback clears `q_top` and resets `q_sp` before its own folds. -/
def VmState.native (state : VmState) (callback : Option (Accumulators → Accumulators)) :
    Vm VmState :=
  match callback with
  | some body => .ok { spill := [], top := 0, hasTop := false, acc := body state.acc }
  | none => .error .reverted

namespace QuotientFrame

variable (frame : QuotientFrame)

def linWord (term : LinTerm) : Nat :=
  mulmod (frame.constants term.slot) (frame.memory term.ptr)

def productWord (term : ProductTerm) : Nat :=
  mulmod (mulmod (frame.memory term.lhs) (frame.memory term.rhs)) (frame.constants term.slot)

def addLin (acc : Nat) (term : LinTerm) : Nat := addmod acc (frame.linWord term)

/-- `0x13` and its runs multiply memory by constant. -/
def addPtrTerm (acc : Nat) (term : LinTerm) : Nat :=
  addmod acc (mulmod (frame.memory term.ptr) (frame.constants term.slot))

def addProduct (acc : Nat) (term : ProductTerm) : Nat := addmod acc (frame.productWord term)

def addRow (acc : Nat) (row : RowBlock) : Nat :=
  row.terms.foldl (fun acc term => frame.addProduct acc ⟨term.slot, row.lhs, term.ptr⟩) acc

/-- The nested limb convolution over two contiguous seven-word vectors. -/
def addPairwise (acc : Nat) (block : PairwiseBlock) : Nat :=
  (List.range quotientVmLimbs).foldl (fun acc i =>
    (List.range quotientVmLimbs).foldl (fun acc j =>
      frame.addProduct acc
        ⟨block.slots.getD (i + j) 0, block.lhsBase + 32 * i, block.rhsBase + 32 * j⟩) acc) acc

def modarith7Word (shape : Modarith7) : Nat :=
  let acc := match shape.constant with
    | some slot => frame.constants slot
    | none => 0
  let acc := shape.lin.foldl (fun acc terms => terms.foldl frame.addLin acc) acc
  let acc := shape.rows.foldl frame.addRow acc
  let acc := shape.pairwise.foldl frame.addPairwise acc
  let acc := shape.memTerms.foldl frame.addLin acc
  let acc := shape.productTerms.foldl frame.addProduct acc
  match shape.cond with
  | some ptr => mulmod (frame.memory ptr) acc
  | none => acc

/-- The token switch; unknown and unrendered tokens revert. -/
def resolveToken (token : Nat) : Vm Nat :=
  if isQuotientMemToken (UInt8.ofNat token) && frame.usedMemTokens.contains (UInt8.ofNat token)
  then .ok (frame.tokenPtr token) else .error .reverted

/-- Fully evaluated identity: `qn = qn * y + eval`. -/
def foldMainAcc (eval : Nat) (acc : Accumulators) : Accumulators :=
  { acc with evalNumer := addmod (mulmod acc.evalNumer frame.y) eval }

/-- Simple-selector identity: the numerator still advances by `y`, and only
this selector's bucket is advanced by `y^gap`. -/
def foldSelectorAcc (selector gap : Nat) (eval : Nat) (acc : Accumulators) : Accumulators :=
  let selAcc := acc.selectorAcc selector
  let selAcc := if gap ≠ 0 then mulmod selAcc (frame.selectorPower gap) else selAcc
  { evalNumer := mulmod acc.evalNumer frame.y
    selectorAcc := Function.update acc.selectorAcc selector (addmod selAcc eval) }

def exec (instr : Instr) (state : VmState) : Vm VmState :=
  match instr with
  | .pushConst slot => .ok (state.push (frame.constants slot))
  | .pushMemLiteral ptr => .ok (state.push (frame.memory ptr))
  | .pushMemToken token => do
    let ptr ← frame.resolveToken token
    return state.push (frame.memory ptr)
  | .pushMemTokenOffset token offset => do
    let ptr ← frame.resolveToken token
    return state.push (frame.memory (ptr + offset))
  | .pushMemU16 ptr => .ok (state.push (frame.memory ptr))
  | .add => state.binary addmod
  | .mul => state.binary mulmod
  | .neg => state.update fun top => addmod 0 (sub scalarModulus top)
  | .pow5 => state.update fun top =>
    let square := mulmod top top
    mulmod top (mulmod square square)
  | .pushConstU8 slot => .ok (state.push (frame.constants slot))
  | .addConstU8 slot => state.update fun top => addmod top (frame.constants slot)
  | .mulConstU8 slot => state.update fun top => mulmod top (frame.constants slot)
  | .addConst slot => state.update fun top => addmod top (frame.constants slot)
  | .mulConst slot => state.update fun top => mulmod top (frame.constants slot)
  | .addMemU16 ptr => state.update fun top => addmod top (frame.memory ptr)
  | .mulMemU16 ptr => state.update fun top => mulmod top (frame.memory ptr)
  | .addMulMemMemConstU8 term => state.update fun top => frame.addProduct top term
  | .addMulConstU8MemU16 term => state.update fun top => frame.addPtrTerm top term
  | .addMulMemMem lhs rhs =>
    state.update fun top => addmod top (mulmod (frame.memory lhs) (frame.memory rhs))
  | .runAddMulMemMemConstU8 terms => state.update fun top => terms.foldl frame.addProduct top
  | .runAddMulConstU8MemU16 terms => state.update fun top => terms.foldl frame.addPtrTerm top
  | .affineSum lin products => state.update fun top =>
    products.foldl frame.addProduct (lin.foldl frame.addPtrTerm top)
  | .lin7 terms => .ok (state.push (terms.foldl frame.addLin 0))
  | .bilin7Row row => .ok (state.push (frame.addRow 0 row))
  | .bilin7Pairwise block => .ok (state.push (frame.addPairwise 0 block))
  | .modarith7 shape => .ok (state.push (frame.modarith7Word shape))
  | .nativePermutation => state.native frame.nativePermutation
  | .nativeLookup => state.native frame.nativeLookup
  | .nativeIdentity index => state.native frame.nativeIdentities[index]?
  | .foldMain => state.fold frame.foldMainAcc
  | .foldSelector selector gap => state.fold (frame.foldSelectorAcc selector gap)

/-- One dispatch: the opcode byte, the rendered arms, the operands. -/
def fetch (pc : Nat) : Vm (Instr × Nat) :=
  match frame.code[pc]? with
  | none => .error (.operandOutOfRange pc)
  | some opcode =>
    match quotientOpcodeSpec opcode with
    | some spec =>
      if frame.usedOps.contains opcode then fetchOperands frame.code spec.op (pc + 1)
      else .error .reverted
    | none => .error .reverted

end QuotientFrame

section Widths

variable (code : List Byte)

theorem fetch_slot_width : FixedWidth code.length (fetchSlot code) 1 where
  advance := by
    intro pc value next fetched
    simp only [fetchSlot, bind_ok_iff, pure_ok_iff, Prod.mk.injEq] at fetched
    omega
  total := by
    intro pc inside
    refine ⟨code[pc].toNat, ?_⟩
    rw [fetchSlot, u8At, List.getElem?_eq_getElem]
    rfl

variable {Value : Type} {later : Nat → Fetch Value} {width : Nat}

theorem fixed_u8 (rest : ∀ value, FixedWidth code.length (later value) width) :
    FixedWidth code.length (fun pc => u8At code pc >>= fun value => later value (pc + 1))
      (1 + width) := by
  simpa only [fetchSlot, bind_assoc, pure_bind] using (fetch_slot_width code).bind rest

theorem fixed_u16 (rest : ∀ value, FixedWidth code.length (later value) width) :
    FixedWidth code.length (fun pc => u16At code pc >>= fun value => later value (pc + 2))
      (2 + width) := by
  have fixed := fixed_u8 code fun high => fixed_u8 code fun low => rest (high * 256 + low)
  rw [← Nat.add_assoc] at fixed
  simpa only [u16At, bind_assoc, pure_bind] using fixed

theorem fetch_ptr_width : FixedWidth code.length (fetchPtr code) 2 :=
  (fixed_u16 code fun ptr => fixed_pure _ ptr :)

theorem fetch_ptr_term_width : FixedWidth code.length (fetchPtrTerm code) 3 :=
  (fixed_u16 code fun ptr => fixed_u8 code fun slot => fixed_pure _ (LinTerm.mk slot ptr) :)

theorem fetch_lin_term_width : FixedWidth code.length (fetchLinTerm code) 3 :=
  (fixed_u8 code fun slot => fixed_u16 code fun ptr => fixed_pure _ (LinTerm.mk slot ptr) :)

theorem fetch_ptr_product_width : FixedWidth code.length (fetchPtrProduct code) 5 :=
  (fixed_u16 code fun lhs => fixed_u16 code fun rhs => fixed_u8 code fun slot =>
    fixed_pure _ (ProductTerm.mk slot lhs rhs) :)

theorem fetch_product_term_width : FixedWidth code.length (fetchProductTerm code) 5 :=
  (fixed_u8 code fun slot => fixed_u16 code fun lhs => fixed_u16 code fun rhs =>
    fixed_pure _ (ProductTerm.mk slot lhs rhs) :)

theorem fetch_lin7_width : FixedWidth code.length (fetchLin7 code) 21 :=
  (fetch_lin_term_width code).repeat quotientVmLimbs

theorem fetch_row_width : FixedWidth code.length (fetchRow code) 23 :=
  (fixed_u16 code fun lhs => (fetch_lin7_width code).bind fun terms =>
    fixed_pure _ (RowBlock.mk lhs terms) :)

theorem fetch_pairwise_width : FixedWidth code.length (fetchPairwise code) 17 :=
  (fixed_u16 code fun lhsBase => fixed_u16 code fun rhsBase =>
    ((fetch_slot_width code).repeat quotientVmPairwiseCoeffs).bind fun slots =>
      fixed_pure _ (PairwiseBlock.mk lhsBase rhsBase slots) :)

end Widths

theorem fetch_slot_movable : Movable fetchSlot := by
  intro code pc slot next fetched
  simp only [fetchSlot, bind_ok_iff, pure_ok_iff, Prod.mk.injEq] at fetched
  obtain ⟨slot, read, rfl, rfl⟩ := fetched
  refine ⟨1, rfl, ?_⟩
  intro other otherPc agrees
  have same := agrees 0 Nat.one_pos
  rw [Nat.add_zero, Nat.add_zero] at same
  have moved : u8At other otherPc = .ok slot := by
    unfold u8At at read ⊢
    rw [same]
    cases found : code[pc]? with
    | none =>
      rw [found] at read
      cases read
    | some byte =>
      rw [found] at read
      exact read
  rw [fetchSlot, moved]
  rfl

section Reads

variable {Value : Type} {later : Nat → List Byte → Fetch Value}

section

variable (rest : ∀ value, Movable (later value))

include rest

theorem movable_u8 :
    Movable fun code pc => u8At code pc >>= fun value => later value code (pc + 1) := by
  simpa only [fetchSlot, bind_assoc, pure_bind] using fetch_slot_movable.bind rest

theorem movable_u16 :
    Movable fun code pc => u16At code pc >>= fun value => later value code (pc + 2) := by
  have moves := movable_u8 fun high => movable_u8 fun low => rest (high * 256 + low)
  simpa only [u16At, bind_assoc, pure_bind] using moves

theorem movable_u32 :
    Movable fun code pc => u32At code pc >>= fun value => later value code (pc + 4) := by
  have moves := movable_u16 fun high => movable_u16 fun low => rest (high * 65536 + low)
  simpa only [u32At, bind_assoc, pure_bind] using moves

end

end Reads

theorem fetch_ptr_movable : Movable fetchPtr :=
  (movable_u16 fun ptr => movable_pure ptr :)

theorem fetch_ptr_term_movable : Movable fetchPtrTerm :=
  (movable_u16 fun ptr => movable_u8 fun slot => movable_pure (LinTerm.mk slot ptr) :)

theorem fetch_lin_term_movable : Movable fetchLinTerm :=
  (movable_u8 fun slot => movable_u16 fun ptr => movable_pure (LinTerm.mk slot ptr) :)

theorem fetch_ptr_product_movable : Movable fetchPtrProduct :=
  (movable_u16 fun lhs => movable_u16 fun rhs => movable_u8 fun slot =>
    movable_pure (ProductTerm.mk slot lhs rhs) :)

theorem fetch_product_term_movable : Movable fetchProductTerm :=
  (movable_u8 fun slot => movable_u16 fun lhs => movable_u16 fun rhs =>
    movable_pure (ProductTerm.mk slot lhs rhs) :)

theorem fetch_lin7_movable : Movable fetchLin7 :=
  fetch_lin_term_movable.repeat quotientVmLimbs

theorem fetch_row_movable : Movable fetchRow :=
  (movable_u16 fun lhs => fetch_lin7_movable.bind fun terms => movable_pure (RowBlock.mk lhs terms) :)

theorem fetch_pairwise_movable : Movable fetchPairwise :=
  (movable_u16 fun lhsBase => movable_u16 fun rhsBase =>
    (fetch_slot_movable.repeat quotientVmPairwiseCoeffs).bind fun slots =>
      movable_pure (PairwiseBlock.mk lhsBase rhsBase slots) :)

theorem fetch_optional_movable {Value : Type} {fetch : List Byte → Fetch Value}
    (movable : Movable fetch) (present : Bool) :
    Movable fun code => fetchOptional present (fetch code) := by
  cases present with
  | true => exact movable.bind fun value => movable_pure (some value)
  | false => exact movable_pure none

theorem fetch_modarith7_movable : Movable fetchModarith7 :=
  (movable_u8 fun flags => (fetch_optional_movable fetch_ptr_movable (flags % 2 == 1)).bind fun cond =>
    (fetch_optional_movable fetch_slot_movable (flags / 2 % 2 == 1)).bind fun constant =>
    movable_u8 fun linCount => movable_u8 fun rowCount => movable_u8 fun pairwiseCount =>
    movable_u8 fun memCount => movable_u8 fun productCount =>
    (fetch_lin7_movable.repeat linCount).bind fun lin =>
    (fetch_row_movable.repeat rowCount).bind fun rows =>
    (fetch_pairwise_movable.repeat pairwiseCount).bind fun pairwise =>
    (fetch_lin_term_movable.repeat memCount).bind fun memTerms =>
    (fetch_product_term_movable.repeat productCount).bind fun productTerms =>
      movable_pure (Modarith7.mk cond constant lin rows pairwise memTerms productTerms) :)

theorem fetch_operands_movable (op : QuotientOp) :
    Movable fun code => fetchOperands code op := by
  cases op
  case add | mul | neg | pow5 | nativePermutation | nativeLookup | foldMain => exact movable_pure _
  case pushMemToken | pushConstU8 | addConstU8 | mulConstU8 =>
    exact movable_u8 fun _ => movable_pure _
  case pushConst | pushMemU16 | addConst | mulConst | addMemU16 | mulMemU16 | nativeIdentity =>
    exact movable_u16 fun _ => movable_pure _
  case pushMemLiteral => exact movable_u32 fun _ => movable_pure _
  case pushMemTokenOffset =>
    exact (movable_u8 fun token => movable_u32 fun offset =>
      movable_pure (Instr.pushMemTokenOffset token offset) :)
  case addMulMemMem =>
    exact (movable_u16 fun lhs => movable_u16 fun rhs => movable_pure (Instr.addMulMemMem lhs rhs) :)
  case foldSelector =>
    exact (movable_u8 fun selector => movable_u16 fun gap =>
      movable_pure (Instr.foldSelector selector gap) :)
  case addMulMemMemConstU8 => exact fetch_ptr_product_movable.bind fun term => movable_pure _
  case addMulConstU8MemU16 => exact fetch_ptr_term_movable.bind fun term => movable_pure _
  case lin7 => exact fetch_lin7_movable.bind fun terms => movable_pure _
  case bilin7Row => exact fetch_row_movable.bind fun row => movable_pure _
  case bilin7Pairwise => exact fetch_pairwise_movable.bind fun block => movable_pure _
  case modarith7 => exact fetch_modarith7_movable.bind fun shape => movable_pure _
  case runAddMulMemMemConstU8 =>
    exact (movable_u16 fun count => (fetch_ptr_product_movable.repeat count).bind fun terms =>
      movable_pure (Instr.runAddMulMemMemConstU8 terms) :)
  case runAddMulConstU8MemU16 =>
    exact (movable_u16 fun count => (fetch_ptr_term_movable.repeat count).bind fun terms =>
      movable_pure (Instr.runAddMulConstU8MemU16 terms) :)
  case affineSum =>
    exact (movable_u16 fun linCount => movable_u16 fun productCount =>
      (fetch_ptr_term_movable.repeat linCount).bind fun lin =>
      (fetch_ptr_product_movable.repeat productCount).bind fun products =>
        movable_pure (Instr.affineSum lin products) :)

theorem fetch_operands_monotone {code : List Byte} {op : QuotientOp} {pc next : Nat}
    {instr : Instr} (fetched : fetchOperands code op pc = .ok (instr, next)) : pc ≤ next := by
  obtain ⟨width, rfl, -⟩ := fetch_operands_movable op fetched
  exact Nat.le_add_right pc width

theorem fetch_progress (frame : QuotientFrame) {pc next : Nat} {instr : Instr}
    (fetched : frame.fetch pc = .ok (instr, next)) : pc < next := by
  unfold QuotientFrame.fetch at fetched
  split at fetched
  · cases fetched
  · split at fetched
    · split at fetched
      · exact fetch_operands_monotone fetched
      · cases fetched
    · cases fetched

namespace QuotientFrame

variable (frame : QuotientFrame)

/-- `for { } lt(q_pc, q_end) { }`: returns the final `q_pc` and state. -/
def runLoop (pc : Nat) (state : VmState) : Vm (Nat × VmState) :=
  if pc < frame.code.length then
    match _fetched : frame.fetch pc with
    | .error fault => .error fault
    | .ok (instr, next) =>
      match frame.exec instr state with
      | .error fault => .error fault
      | .ok state => runLoop next state
  else .ok (pc, state)
termination_by frame.code.length - pc
decreasing_by
  have progress := fetch_progress frame _fetched
  omega

/-- The loop and the two fail-closed checks behind it. -/
def run (state : VmState) : Vm VmState := do
  let (pc, state) ← frame.runLoop 0 state
  if pc ≠ frame.code.length then throw .reverted
  if state.hasTop then throw .reverted
  return state

end QuotientFrame

def initialState (acc : Accumulators) : VmState :=
  { spill := [], top := 0, hasTop := false, acc }

end Midfall.QuotientVmInterpreter
