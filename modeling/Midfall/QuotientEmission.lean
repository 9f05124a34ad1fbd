import Midfall.QuotientSelection

/-!
# Emission of quotient expressions

The builder appends opcodes, gives slots to constants and counts the operand
stack. A check of one-byte slots that is made before a part is emitted says
nothing about the table behind the part: emission returns exactly when the
checks hold there too.
-/

namespace Midfall.QuotientEmission

open QuotientVmOpcodes QuotientExprShapes QuotientModarith7 List
open QuotientShapeValues QuotientSelection

/-- Failed `expect` or `assert`, with its message. -/
structure EmitPanic where
  message : String
  deriving DecidableEq, Repr

structure QuotientProgramBuilder where
  bytes : List Byte
  consts : List Nat
  stackDepth : Nat
  maxStack : Nat
  limbVmOps : Bool
  deriving DecidableEq, Repr

abbrev Emit := StateT QuotientProgramBuilder (Except EmitPanic)

def panic {Value : Type} (message : String) : Emit Value := fun _ => .error ⟨message⟩

/-! ### Bytes, slots and the stack -/

def pushByte (byte : Byte) : Emit Unit := fun builder =>
  .ok ((), { builder with bytes := builder.bytes ++ [byte] })

def op0 (op : QuotientOp) : Emit Unit := pushByte op.byte

def pushBigEndian : Nat → Nat → Emit Unit
  | 0, _ => pure ()
  | width + 1, value => do
    pushBigEndian width (value / 256)
    pushByte (UInt8.ofNat value)

/-- Operands come from `u16` values, so the assertion of their range is no check here. -/
def pushU16 (value : Nat) : Emit Unit := pushBigEndian 2 value

def pushU32 (value : UInt32) : Emit Unit := pushBigEndian 4 value.toNat

def pushStack : Emit Unit := fun builder =>
  .ok ((), { builder with
    stackDepth := builder.stackDepth + 1
    maxStack := max builder.maxStack (builder.stackDepth + 1) })

def popStack : Emit Unit := fun builder =>
  match builder.stackDepth with
  | 0 => .error ⟨"quotient VM stack underflow"⟩
  | depth + 1 => .ok ((), { builder with stackDepth := depth })

def opBinary (op : QuotientOp) : Emit Unit := do
  pushByte op.byte
  popStack

def constSlot (value : Nat) : Emit Nat := fun builder =>
  if value ∈ builder.consts then .ok (slotOf builder.consts value, builder)
  else if builder.consts.length ≤ u16Max then
    .ok (slotOf builder.consts value, { builder with consts := builder.consts ++ [value] })
  else .error ⟨"too many quotient constants"⟩

/-- `u8::try_from(value).expect(message)`. -/
def checkedByte (message : String) (value : Nat) : Emit Byte :=
  if value ≤ u8Max then pure (UInt8.ofNat value) else panic message

def emitU8Slot (message : String) (value : Nat) : Emit Unit := do
  let slot ← constSlot value
  let slot ← checkedByte message slot
  pushByte slot

/-! ### Opcodes -/

/-- Opcode, bases and coefficient slots of a limb shape. -/
def emitLimbOperands : QuotientLimbShape → Emit Unit
  | .lin7 terms => do
    op0 .lin7
    terms.forM fun (coeff, ptr) => do
      emitU8Slot "lin7 const slot checked" coeff
      pushU16 ptr
  | .bilin7Row lhs terms => do
    op0 .bilin7Row
    pushU16 lhs
    terms.forM fun (coeff, rhs) => do
      emitU8Slot "bilin7 row const slot checked" coeff
      pushU16 rhs
  | .bilin7Pairwise lhsBase rhsBase coeffs => do
    op0 .bilin7Pairwise
    pushU16 lhsBase
    pushU16 rhsBase
    coeffs.forM (emitU8Slot "bilin7 pairwise const slot checked")

def emitLimbShape (shape : QuotientLimbShape) : Emit Unit := do
  emitLimbOperands shape
  pushStack

/-- Condition and constant of a fused identity, as its flags announce them. -/
def emitModarith7Head (cond : Option Nat) (constant : Nat) : Emit Unit := do
  op0 .modarith7
  pushByte ((if cond.isSome then 1 else 0) ||| (if constant ≠ 0 then 2 else 0))
  cond.toList.forM pushU16
  if constant ≠ 0 then emitU8Slot "modarith7 const slot checked" constant else pure ()

def emitModarith7Counts (shape : QuotientModarith7Shape) : Emit Unit := do
  let linCount ← checkedByte "modarith7 lin count checked" shape.lin.length
  let rowCount ← checkedByte "modarith7 row count checked" shape.rows.length
  let pairwiseCount ← checkedByte "modarith7 pairwise count checked" shape.pairwise.length
  let memCount ← checkedByte "modarith7 mem count checked" shape.memTerms.length
  let productCount ← checkedByte "modarith7 product count checked" shape.productTerms.length
  [linCount, rowCount, pairwiseCount, memCount, productCount].forM pushByte

def emitModarith7Terms (shape : QuotientModarith7Shape) : Emit Unit := do
  shape.lin.forM fun terms => terms.forM fun (coeff, ptr) => do
    emitU8Slot "modarith7 lin const slot checked" coeff
    pushU16 ptr
  shape.rows.forM fun (lhs, terms) => do
    pushU16 lhs
    terms.forM fun (coeff, rhs) => do
      emitU8Slot "modarith7 row const slot checked" coeff
      pushU16 rhs
  shape.pairwise.forM fun (lhsBase, rhsBase, coeffs) => do
    pushU16 lhsBase
    pushU16 rhsBase
    coeffs.forM (emitU8Slot "modarith7 pairwise const slot checked")
  shape.memTerms.forM fun (coeff, ptr) => do
    emitU8Slot "modarith7 mem const slot checked" coeff
    pushU16 ptr
  shape.productTerms.forM fun (coeff, lhs, rhs) => do
    emitU8Slot "modarith7 product const slot checked" coeff
    pushU16 lhs
    pushU16 rhs

def emitModarith7Operands (shape : QuotientModarith7Shape) : Emit Unit := do
  emitModarith7Head shape.cond shape.constant
  emitModarith7Counts shape
  emitModarith7Terms shape

def emitModarith7Shape (shape : QuotientModarith7Shape) : Emit Unit := do
  emitModarith7Operands shape
  pushStack

/-- A slot above one byte takes the long form of the opcode. -/
def emitConstOperand (constU8Op constOp : QuotientOp) (value : Nat) : Emit Unit := do
  let slot ← constSlot value
  if slot ≤ u8Max then
    op0 constU8Op
    pushByte (UInt8.ofNat slot)
  else
    op0 constOp
    pushU16 slot

def emitConst (value : Nat) : Emit Unit := emitConstOperand .pushConstU8 .pushConst value

def emitMem : QuotientMem → Emit Unit
  | .literal ptr =>
    match tryU16 ptr.toNat with
    | some ptr => do
      op0 .pushMemU16
      pushU16 ptr
    | none => do
      op0 .pushMemLiteral
      pushU32 ptr
  | .token token => do
    op0 .pushMemToken
    pushByte token
  | .tokenOffset token offset => do
    op0 .pushMemTokenOffset
    pushByte token
    pushU32 offset

def emitProductAdd : QuotientProductAdd → Emit Unit
  | .memMemConstU8 lhs rhs scalar => do
    let slot ← constSlot scalar
    let slot ← checkedByte "const slot checked" slot
    op0 .addMulMemMemConstU8
    pushU16 lhs
    pushU16 rhs
    pushByte slot
  | .constU8Mem scalar ptr => do
    let slot ← constSlot scalar
    let slot ← checkedByte "const slot checked" slot
    op0 .addMulConstU8MemU16
    pushU16 ptr
    pushByte slot
  | .memMem lhs rhs => do
    op0 .addMulMemMem
    pushU16 lhs
    pushU16 rhs

def emitAccLeaf (ops : BinaryOps) : AccLeaf → Emit Unit
  | .const value => emitConstOperand ops.constU8Op ops.constOp value
  | .memU16 ptr => do
    op0 ops.memU16Op
    pushU16 ptr

/-- The value of the expression is on top of the stack afterwards. -/
def emitExpr (expr : QuotientExpr) : Emit Unit := fun builder =>
  match _selected : select builder.limbVmOps builder.consts expr with
  | .pow5 base => (emitExpr base >>= fun _ => op0 .pow5) builder
  | .modarith7 shape => emitModarith7Shape shape builder
  | .limb shape => emitLimbShape shape builder
  | .decomposition shape residue =>
    (emitExpr residue >>= fun _ => emitLimbShape shape >>= fun _ => opBinary .add) builder
  | .pushConst value => (emitConst value >>= fun _ => pushStack) builder
  | .pushMem mem => (emitMem mem >>= fun _ => pushStack) builder
  | .addProduct base product => (emitExpr base >>= fun _ => emitProductAdd product) builder
  | .accumulate ops operand leaf => (emitExpr operand >>= fun _ => emitAccLeaf ops leaf) builder
  | .binary ops first second =>
    (emitExpr first >>= fun _ => emitExpr second >>= fun _ => opBinary ops.stackOp) builder
  | .neg inner => (emitExpr inner >>= fun _ => op0 .neg) builder
termination_by (memLeaves expr, sizeOf expr)
decreasing_by all_goals exact selected_smaller (by rw [_selected]; simp [Selection.parts])

/-! ### When an action returns -/

/-- The builder behind an action, up to its bytes and the high-water mark. -/
structure Became (builder after : QuotientProgramBuilder) (table : List Nat) (depth : Nat) : Prop where
  consts : after.consts = table
  stackDepth : after.stackDepth = depth
  limbVmOps : after.limbVmOps = builder.limbVmOps

/-- An action returns a value when a condition holds and its constants fit the table,
and in no other case. -/
structure Returns {Value : Type} (action : Emit Value) (builder : QuotientProgramBuilder) (ok : Prop)
    (table : List Nat) (depth : Nat) (value : Value) : Prop where
  grows : builder.consts.length ≤ table.length
  returns : ok → table.length ≤ u16Max + 1 →
    ∃ after, action builder = .ok (value, after) ∧ Became builder after table depth
  checked : ∀ result, action builder = .ok result → builder.consts.length ≤ u16Max + 1 →
    ok ∧ table.length ≤ u16Max + 1

variable {builder : QuotientProgramBuilder} {depth : Nat} {consts coeffs : List Nat}
  {action first second : Emit Unit} {shape : QuotientModarith7Shape} {expr : QuotientExpr}
  {selection : Selection}

theorem Returns.of_iff {Value : Type} {action : Emit Value} {ok other : Prop} {table : List Nat}
    {value : Value} (same : other ↔ ok) (spec : Returns action builder ok table depth value) :
    Returns action builder other table depth value where
  grows := spec.grows
  returns holds := spec.returns (same.mp holds)
  checked result ran room := by
    have found := spec.checked result ran room
    exact ⟨same.mpr found.1, found.2⟩

theorem Returns.bind {First Second : Type} {action : Emit First} {next : First → Emit Second}
    {builder : QuotientProgramBuilder} {ok okNext : Prop} {table tableNext : List Nat} {depth depthNext : Nat}
    {first : First} {second : Second} (spec : Returns action builder ok table depth first)
    (specNext : ∀ after, Became builder after table depth →
      Returns (next first) after okNext tableNext depthNext second) :
    Returns (action >>= next) builder (ok ∧ okNext) tableNext depthNext second := by
  have longer : table.length ≤ tableNext.length :=
    (specNext { builder with consts := table, stackDepth := depth } ⟨rfl, rfl, rfl⟩).grows
  have continued : ∀ result after, action builder = .ok (result, after) →
      (action >>= next) builder = next result after := by
    intro result after ran
    change (action builder >>= fun pair => next pair.1 pair.2) = next result after
    rw [ran]
    rfl
  constructor
  · exact le_trans spec.grows longer
  · intro holds room
    rcases spec.returns holds.1 (le_trans longer room) with ⟨middle, ran, became⟩
    rcases (specNext middle became).returns holds.2 room with ⟨after, ranNext, becameNext⟩
    refine ⟨after, ?_, becameNext.consts, becameNext.stackDepth, ?_⟩
    · rw [continued first middle ran, ranNext]
    · rw [becameNext.limbVmOps, became.limbVmOps]
  · intro result ran room
    cases ranFirst : action builder with
    | error message =>
      change (action builder >>= fun pair => next pair.1 pair.2) = .ok result at ran
      rw [ranFirst] at ran
      cases ran
    | ok pair =>
      have holds := spec.checked pair ranFirst room
      rcases spec.returns holds.1 holds.2 with ⟨middle, ranSame, became⟩
      rw [continued first middle ranSame] at ran
      have fits : middle.consts.length ≤ u16Max + 1 := by
        rw [became.consts]
        exact holds.2
      have holdsNext := (specNext middle became).checked result ran fits
      exact ⟨⟨holds.1, holdsNext.1⟩, holdsNext.2⟩

theorem Returns.of_run {Value : Type} {action : Emit Value} {after : QuotientProgramBuilder}
    {value : Value} (ran : action builder = .ok (value, after))
    (became : Became builder after builder.consts depth) :
    Returns action builder True builder.consts depth value where
  grows := le_rfl
  returns _ _ := ⟨after, ran, became⟩
  checked _ _ room := ⟨trivial, room⟩

/-! ### Slots -/

theorem slot_of_absent {value : Nat} (absent : value ∉ consts) :
    slotOf consts value = consts.length := idxOf_eq_length absent

theorem const_fits_slot (consts : List Nat) (value : Nat) :
    constFitsU8Slot consts value = true ↔ slotOf consts value ≤ u8Max := by
  unfold constFitsU8Slot
  by_cases present : value ∈ consts
  · simp [present]
  · rw [slot_of_absent present]
    simp [present]

theorem with_const_grows (consts : List Nat) (value : Nat) :
    consts.length ≤ (withConst consts value).length := by
  unfold withConst
  split_ifs
  · exact le_rfl
  · rw [length_append]
    exact Nat.le_add_right _ _

theorem peek_single (consts : List Nat) (value : Nat) :
    (peekU8ConstSlots consts [value]).isSome = true ↔ slotOf consts value ≤ u8Max := by
  unfold peekU8ConstSlots
  split_ifs with small <;> simp [peekU8ConstSlots, small]

theorem peek_append (consts values others : List Nat) :
    (peekU8ConstSlots consts (values ++ others)).isSome = true ↔
      (peekU8ConstSlots consts values).isSome = true ∧
        (peekU8ConstSlots (withConsts consts values) others).isSome = true := by
  induction values generalizing consts with
  | nil => simp [peekU8ConstSlots, withConsts]
  | cons value values ih =>
    rw [cons_append, peekU8ConstSlots, peekU8ConstSlots]
    split_ifs with small
    · rw [Option.isSome_map, Option.isSome_map]
      exact ih (withConst consts value)
    · simp

theorem const_slot_returns (builder : QuotientProgramBuilder) (value : Nat) :
    Returns (constSlot value) builder True (withConst builder.consts value) builder.stackDepth
      (slotOf builder.consts value) := by
  unfold constSlot
  constructor
  · exact with_const_grows builder.consts value
  · intro _ room
    unfold withConst at room ⊢
    split_ifs at room ⊢ with present fits
    · exact ⟨builder, rfl, rfl, rfl, rfl⟩
    · exact ⟨_, rfl, rfl, rfl, rfl⟩
    · rw [length_append] at room
      exact absurd (Nat.le_of_succ_le_succ room) fits
  · intro result ran room
    unfold withConst
    split_ifs at ran ⊢ with present fits
    · exact ⟨trivial, room⟩
    · rw [length_append]
      exact ⟨trivial, Nat.succ_le_succ fits⟩

theorem checked_byte_returns (message : String) (builder : QuotientProgramBuilder) (value : Nat) :
    Returns (checkedByte message value) builder (value ≤ u8Max) builder.consts builder.stackDepth
      (UInt8.ofNat value) := by
  unfold checkedByte
  split_ifs with small
  · exact Returns.of_iff (iff_of_true small trivial) (Returns.of_run rfl ⟨rfl, rfl, rfl⟩)
  · constructor
    · exact le_rfl
    · exact fun holds => absurd holds small
    · intro result ran
      cases ran

/-! ### Actions that need one-byte slots -/

/-- An action that needs one-byte slots for some constants, in their order. -/
def Fills (action : Emit Unit) (coeffs : List Nat) : Prop :=
  ∀ builder, Returns action builder ((peekU8ConstSlots builder.consts coeffs).isSome = true)
    (withConsts builder.consts coeffs) builder.stackDepth ()

theorem fills_quiet
    (quiet : ∀ builder, ∃ bytes, action builder = .ok ((), { builder with bytes := bytes })) :
    Fills action [] := by
  intro builder
  rcases quiet builder with ⟨bytes, ran⟩
  exact Returns.of_iff (iff_of_true rfl trivial) (Returns.of_run ran ⟨rfl, rfl, rfl⟩)

theorem Fills.quiet (fills : Fills action []) (builder : QuotientProgramBuilder) :
    Returns action builder True builder.consts builder.stackDepth () :=
  Returns.of_iff (iff_of_true trivial rfl) (fills builder)

theorem fills_then {others : List Nat} (fillsFirst : Fills first coeffs)
    (fillsSecond : Fills second others) : Fills (first >>= fun _ => second) (coeffs ++ others) := by
  intro builder
  apply Returns.of_iff (peek_append builder.consts coeffs others)
  apply Returns.bind (fillsFirst builder)
  intro after became
  have next := fillsSecond after
  rw [became.consts, became.stackDepth] at next
  have joined : withConsts builder.consts (coeffs ++ others) =
      withConsts (withConsts builder.consts coeffs) others := foldl_append
  rw [joined]
  exact next

theorem fills_bytes_then (quiet : Fills first []) (fills : Fills second coeffs) :
    Fills (first >>= fun _ => second) coeffs := fills_then quiet fills

theorem fills_then_bytes (fills : Fills first coeffs) (quiet : Fills second []) :
    Fills (first >>= fun _ => second) coeffs := by
  have both := fills_then fills quiet
  rw [append_nil] at both
  exact both

theorem fills_for_each {Entry : Type} {body : Entry → Emit Unit} {coeffs : Entry → List Nat}
    (fills : ∀ entry, Fills (body entry) (coeffs entry)) (entries : List Entry) :
    Fills (entries.forM body) (entries.flatMap coeffs) := by
  induction entries with
  | nil => exact fills_quiet fun builder => ⟨builder.bytes, rfl⟩
  | cons entry entries ih => exact fills_then (fills entry) ih

theorem fills_byte (byte : Byte) : Fills (pushByte byte) [] := fills_quiet fun _ => ⟨_, rfl⟩

theorem fills_op (op : QuotientOp) : Fills (op0 op) [] := fills_byte op.byte

theorem fills_big_endian (width value : Nat) : Fills (pushBigEndian width value) [] := by
  induction width generalizing value with
  | zero => exact fills_quiet fun builder => ⟨builder.bytes, rfl⟩
  | succ width ih => exact fills_bytes_then (ih _) (fills_byte _)

theorem fills_u16 (value : Nat) : Fills (pushU16 value) [] := fills_big_endian 2 value

theorem fills_slot_then (message : String) (value : Nat) {rest : Byte → Emit Unit}
    (quiet : ∀ slot, Fills (rest slot) []) :
    Fills (constSlot value >>= fun slot => checkedByte message slot >>= rest) [value] := by
  intro builder
  have single : (peekU8ConstSlots builder.consts [value]).isSome = true ↔
      True ∧ slotOf builder.consts value ≤ u8Max ∧
        (peekU8ConstSlots (withConst builder.consts value) []).isSome = true := by
    rw [peek_single]
    simp [peekU8ConstSlots]
  apply Returns.of_iff single
  apply Returns.bind (const_slot_returns builder value)
  intro after became
  have checked := checked_byte_returns message after (slotOf builder.consts value)
  rw [became.consts, became.stackDepth] at checked
  apply Returns.bind checked
  intro last becameLast
  have written := quiet (UInt8.ofNat (slotOf builder.consts value)) last
  rw [becameLast.consts, becameLast.stackDepth] at written
  exact written

theorem fills_u8_slot (message : String) (value : Nat) : Fills (emitU8Slot message value) [value] :=
  fills_slot_then message value fills_byte

theorem fills_coefficients {Entry : Type} (message : String) (coeff : Entry → Nat) {rest : Entry → Emit Unit}
    (quiet : ∀ entry, Fills (rest entry) []) (entries : List Entry) :
    Fills (entries.forM fun entry => emitU8Slot message (coeff entry) >>= fun _ => rest entry)
      (entries.map coeff) := by
  rw [map_eq_flatMap]
  apply fills_for_each
  intro entry
  exact fills_then_bytes (fills_u8_slot message (coeff entry)) (quiet entry)

theorem fills_slots (message : String) (coeffs : List Nat) : Fills (coeffs.forM (emitU8Slot message)) coeffs := by
  have fills : Fills (coeffs.forM (emitU8Slot message)) (coeffs.flatMap fun coeff => [coeff]) :=
    fills_for_each (fills_u8_slot message) coeffs
  rw [flatMap_singleton'] at fills
  exact fills

/-! ### Opcodes -/

theorem push_stack_returns (builder : QuotientProgramBuilder) :
    Returns pushStack builder True builder.consts (builder.stackDepth + 1) () :=
  Returns.of_run rfl ⟨rfl, rfl, rfl⟩

theorem pushed_returns (fills : Fills action coeffs) (builder : QuotientProgramBuilder) :
    Returns (action >>= fun _ => pushStack) builder ((peekU8ConstSlots builder.consts coeffs).isSome = true)
      (withConsts builder.consts coeffs) (builder.stackDepth + 1) () := by
  apply Returns.of_iff (and_iff_left trivial).symm
  apply Returns.bind (fills builder)
  intro after became
  have pushed := push_stack_returns after
  rw [became.consts, became.stackDepth] at pushed
  exact pushed

theorem fills_limb_operands (shape : QuotientLimbShape) :
    Fills (emitLimbOperands shape) (limbShapeCoeffs shape) := by
  cases shape with
  | lin7 terms =>
    apply fills_bytes_then (fills_op .lin7)
    exact fills_coefficients _ Prod.fst (fun entry => fills_u16 entry.2) terms
  | bilin7Row lhs terms =>
    apply fills_bytes_then (fills_op .bilin7Row)
    apply fills_bytes_then (fills_u16 lhs)
    exact fills_coefficients _ Prod.fst (fun entry => fills_u16 entry.2) terms
  | bilin7Pairwise lhsBase rhsBase coeffs =>
    apply fills_bytes_then (fills_op .bilin7Pairwise)
    apply fills_bytes_then (fills_u16 lhsBase)
    apply fills_bytes_then (fills_u16 rhsBase)
    exact fills_slots _ coeffs

theorem fills_modarith7_head (cond : Option Nat) (constant : Nat) :
    Fills (emitModarith7Head cond constant) (if constant ≠ 0 then [constant] else []) := by
  apply fills_bytes_then (fills_op .modarith7)
  apply fills_bytes_then (fills_byte _)
  have condition : Fills (cond.toList.forM pushU16) [] := by
    cases cond with
    | none => exact fills_quiet fun builder => ⟨builder.bytes, rfl⟩
    | some ptr => exact fills_then_bytes (fills_u16 ptr) (fills_quiet fun builder => ⟨builder.bytes, rfl⟩)
  apply fills_bytes_then condition
  split_ifs
  · exact fills_u8_slot _ constant
  · exact fills_quiet fun builder => ⟨builder.bytes, rfl⟩

theorem fills_count_then {message : String} {count : Nat} (small : count ≤ u8Max) {rest : Byte → Emit Unit}
    (quiet : ∀ byte, Fills (rest byte) []) : Fills (checkedByte message count >>= rest) [] := by
  unfold checkedByte
  rw [if_pos small]
  exact quiet (UInt8.ofNat count)

structure CountsFit (shape : QuotientModarith7Shape) : Prop where
  lin : shape.lin.length ≤ u8Max
  rows : shape.rows.length ≤ u8Max
  pairwise : shape.pairwise.length ≤ u8Max
  memTerms : shape.memTerms.length ≤ u8Max
  productTerms : shape.productTerms.length ≤ u8Max

theorem fills_modarith7_counts (fit : CountsFit shape) :
    Fills (emitModarith7Counts shape) [] := by
  apply fills_count_then fit.lin
  intro linCount
  apply fills_count_then fit.rows
  intro rowCount
  apply fills_count_then fit.pairwise
  intro pairwiseCount
  apply fills_count_then fit.memTerms
  intro memCount
  apply fills_count_then fit.productTerms
  intro productCount
  exact fills_quiet fun builder => ⟨_, rfl⟩

theorem fills_modarith7_terms (shape : QuotientModarith7Shape) :
    Fills (emitModarith7Terms shape) (shape.lin.flatMap (·.map (·.1)) ++ (shape.rows.flatMap (·.2.map (·.1)) ++
      (shape.pairwise.flatMap (·.2.2) ++ (shape.memTerms.map (·.1) ++ shape.productTerms.map (·.1))))) := by
  apply fills_then
  · apply fills_for_each
    exact fun terms => fills_coefficients _ Prod.fst (fun entry => fills_u16 entry.2) terms
  apply fills_then
  · apply fills_for_each
    intro row
    apply fills_bytes_then (fills_u16 row.1)
    exact fills_coefficients _ Prod.fst (fun entry => fills_u16 entry.2) row.2
  apply fills_then
  · apply fills_for_each
    intro block
    apply fills_bytes_then (fills_u16 block.1)
    apply fills_bytes_then (fills_u16 block.2.1)
    exact fills_slots _ block.2.2
  apply fills_then
  · exact fills_coefficients _ Prod.fst (fun entry => fills_u16 entry.2) shape.memTerms
  · apply fills_coefficients _ Prod.fst
    exact fun entry => fills_bytes_then (fills_u16 entry.2.1) (fills_u16 entry.2.2)

theorem fills_modarith7_operands (fit : CountsFit shape) :
    Fills (emitModarith7Operands shape) (modarith7Coeffs shape) := by
  have fills := fills_then (fills_modarith7_head shape.cond shape.constant)
    (fills_bytes_then (fills_modarith7_counts fit) (fills_modarith7_terms shape))
  unfold modarith7Coeffs
  simp only [append_assoc]
  exact fills

theorem not_stopped {Found : Type} {stop : Prop} [Decidable stop] {rest : Option Found} {found : Found}
    (result : (if stop then none else rest) = some found) : ¬stop := by
  split_ifs at result with stopped
  exact stopped

theorem affine_shape_counts {cond : Option Nat}
    (found : quotientModarith7AffineShape cond expr = some shape) : CountsFit shape := by
  unfold quotientModarith7AffineShape at found
  rcases bind_some_iff.mp found with ⟨⟨terms, constant⟩, -, rest⟩
  have blocks := not_stopped rest
  rcases bind_some_iff.mp (else_some rest) with ⟨⟨groupedMem, groupedProducts⟩, -, last⟩
  have groups := not_stopped last
  have written := else_some (else_some (else_some (else_some last)))
  cases written
  push Not at blocks groups
  constructor
  · exact blocks.1
  · exact blocks.2.1
  · exact blocks.2.2
  · simpa [encodeGroups, u8Max] using groups.1
  · simpa [encodeProducts, u8Max] using groups.2

theorem modarith7_shape_counts (found : quotientModarith7Shape expr = some shape) :
    CountsFit shape := by
  rcases (Option.orElse_eq_some _ _ _).mp found with conditional | ⟨-, plain⟩
  · rcases bind_some_iff.mp conditional with ⟨⟨cond, inner⟩, -, affine⟩
    exact affine_shape_counts affine
  · exact affine_shape_counts plain

theorem fills_mem (mem : QuotientMem) : Fills (emitMem mem) [] := by
  cases mem with
  | literal ptr =>
    simp only [emitMem]
    split
    · exact fills_bytes_then (fills_op _) (fills_u16 _)
    · exact fills_bytes_then (fills_op _) (fills_big_endian 4 _)
  | token token => exact fills_bytes_then (fills_op _) (fills_byte _)
  | tokenOffset token offset =>
    exact fills_bytes_then (fills_op _) (fills_bytes_then (fills_byte _) (fills_big_endian 4 _))

theorem fills_product_add (product : QuotientProductAdd) : Fills (emitProductAdd product) product.scalars := by
  cases product with
  | memMemConstU8 lhs rhs scalar =>
    apply fills_slot_then
    intro slot
    exact fills_bytes_then (fills_op _) (fills_bytes_then (fills_u16 _)
      (fills_bytes_then (fills_u16 _) (fills_byte _)))
  | constU8Mem scalar ptr =>
    apply fills_slot_then
    intro slot
    exact fills_bytes_then (fills_op _) (fills_bytes_then (fills_u16 _) (fills_byte _))
  | memMem lhs rhs => exact fills_bytes_then (fills_op _) (fills_bytes_then (fills_u16 _) (fills_u16 _))

/-- A fused product has one constant at most, so its check is a check of the batch. -/
theorem scalars_fit (consts : List Nat) (product : QuotientProductAdd) :
    (∀ scalar ∈ product.scalars, constFitsU8Slot consts scalar = true) ↔
      (peekU8ConstSlots consts product.scalars).isSome = true := by
  cases product with
  | memMemConstU8 lhs rhs scalar =>
    rw [QuotientProductAdd.scalars, forall_mem_singleton, const_fits_slot, peek_single]
  | constU8Mem scalar ptr =>
    rw [QuotientProductAdd.scalars, forall_mem_singleton, const_fits_slot, peek_single]
  | memMem lhs rhs => simp [QuotientProductAdd.scalars, peekU8ConstSlots]

theorem const_operand_returns (constU8Op constOp : QuotientOp) (value : Nat) (builder : QuotientProgramBuilder) :
    Returns (emitConstOperand constU8Op constOp value) builder True (withConst builder.consts value)
      builder.stackDepth () := by
  apply Returns.of_iff (and_true True).symm.to_iff
  apply Returns.bind (const_slot_returns builder value)
  intro after became
  have written : Fills (if slotOf builder.consts value ≤ u8Max then
      op0 constU8Op >>= fun _ => pushByte (UInt8.ofNat (slotOf builder.consts value))
      else op0 constOp >>= fun _ => pushU16 (slotOf builder.consts value)) [] := by
    split_ifs
    · exact fills_bytes_then (fills_op _) (fills_byte _)
    · exact fills_bytes_then (fills_op _) (fills_u16 _)
  have spec := written.quiet after
  rw [became.consts, became.stackDepth] at spec
  exact spec

theorem acc_leaf_returns (ops : BinaryOps) (leaf : AccLeaf) (builder : QuotientProgramBuilder) :
    Returns (emitAccLeaf ops leaf) builder True (leaf.withLeaf builder.consts) builder.stackDepth () := by
  cases leaf with
  | const value => exact const_operand_returns _ _ value builder
  | memU16 ptr => exact (fills_bytes_then (fills_op ops.memU16Op) (fills_u16 ptr)).quiet builder

theorem op_binary_returns (op : QuotientOp) (pushed : builder.stackDepth = depth + 1) :
    Returns (opBinary op) builder True builder.consts depth () := by
  have ran : opBinary op builder =
      .ok ((), { builder with bytes := builder.bytes ++ [op.byte], stackDepth := depth }) := by
    change popStack { builder with bytes := builder.bytes ++ [op.byte] } = _
    unfold popStack
    dsimp only
    rw [pushed]
  exact Returns.of_run ran ⟨rfl, rfl, rfl⟩

/-! ### What was checked at the selection -/

/-- Checks on the table that an opcode without parts is emitted with. -/
def CheckedSelection (consts : List Nat) : Selection → Prop
  | .modarith7 shape => CountsFit shape ∧ (peekU8ConstSlots consts (modarith7Coeffs shape)).isSome = true
  | .limb shape => (peekU8ConstSlots consts (limbShapeCoeffs shape)).isSome = true
  | .pow5 _ | .decomposition _ _ | .pushConst _ | .pushMem _ | .addProduct _ _ | .accumulate _ _ _
  | .binary _ _ _ | .neg _ => True

theorem select_binary_checked (consts : List Nat) (ops : BinaryOps) (lhs rhs : QuotientExpr) :
    CheckedSelection consts (selectBinary ops lhs rhs) := by
  have accumulated : ∀ operand leafExpr leaf,
      CheckedSelection consts (selectAccumulate ops operand leafExpr leaf) := by
    intro operand leafExpr leaf
    unfold selectAccumulate
    split <;> trivial
  unfold selectBinary
  split
  · exact accumulated lhs rhs _
  · split
    · exact accumulated rhs lhs _
    · trivial

theorem select_add_product_checked {base product : QuotientExpr}
    (selected : selectAddProduct consts base product = some selection) :
    CheckedSelection consts selection := by
  rcases bind_some_iff.mp selected with ⟨leaves, -, rest⟩
  rcases bind_some_iff.mp rest with ⟨fused, -, same⟩
  cases same
  trivial

theorem limb_selection_checked
    (selected : (selectModarith7 consts expr <|> selectLimb consts expr <|> selectDecomposition consts expr) =
      some selection) : CheckedSelection consts selection := by
  rcases (Option.orElse_eq_some _ _ _).mp selected with whole | ⟨-, rest⟩
  · rcases bind_some_iff.mp whole with ⟨shape, found, checked⟩
    split_ifs at checked with fits
    cases checked
    exact ⟨modarith7_shape_counts found, fits⟩
  · rcases (Option.orElse_eq_some _ _ _).mp rest with limb | ⟨-, sub⟩
    · rcases bind_some_iff.mp limb with ⟨shape, -, checked⟩
      split_ifs at checked with fits
      cases checked
      exact fits
    · rcases bind_some_iff.mp sub with ⟨⟨shape, residue⟩, -, checked⟩
      dsimp only at checked
      split_ifs at checked
      cases checked
      trivial

theorem selected_checked (limbVmOps : Bool) (consts : List Nat) (expr : QuotientExpr) :
    CheckedSelection consts (select limbVmOps consts expr) := by
  unfold select
  split
  · trivial
  · split
    · rename_i selection selected
      split_ifs at selected
      exact limb_selection_checked selected
    · cases expr with
      | const _ | mem _ | neg _ => trivial
      | mul lhs rhs => exact select_binary_checked consts mulOps lhs rhs
      | add lhs rhs =>
        dsimp only
        split
        · rename_i selection selected
          rcases (Option.orElse_eq_some _ _ _).mp selected with right | ⟨-, left⟩
          · exact select_add_product_checked right
          · exact select_add_product_checked left
        · exact select_binary_checked consts addOps lhs rhs

/-! ### Emission of a selection -/

def emitSelection : Selection → Emit Unit
  | .pow5 base => emitExpr base >>= fun _ => op0 .pow5
  | .modarith7 shape => emitModarith7Shape shape
  | .limb shape => emitLimbShape shape
  | .decomposition shape residue => emitExpr residue >>= fun _ => emitLimbShape shape >>= fun _ => opBinary .add
  | .pushConst value => emitConst value >>= fun _ => pushStack
  | .pushMem mem => emitMem mem >>= fun _ => pushStack
  | .addProduct base product => emitExpr base >>= fun _ => emitProductAdd product
  | .accumulate ops operand leaf => emitExpr operand >>= fun _ => emitAccLeaf ops leaf
  | .binary ops first second => emitExpr first >>= fun _ => emitExpr second >>= fun _ => opBinary ops.stackOp
  | .neg inner => emitExpr inner >>= fun _ => op0 .neg

theorem emit_expr_selection (expr : QuotientExpr) (builder : QuotientProgramBuilder) :
    emitExpr expr builder = emitSelection (select builder.limbVmOps builder.consts expr) builder := by
  rw [emitExpr]
  split <;> rename_i selected <;> rw [selected] <;> rfl

/-- What is known about the emission of an expression, from any builder. -/
def ExprReturns (expr : QuotientExpr) : Prop :=
  ∀ builder, Returns (emitExpr expr) builder (SlotsLeft builder.limbVmOps builder.consts expr)
    (tableAfter builder.limbVmOps builder.consts expr) (builder.stackDepth + 1) ()

theorem part_then_bytes {part : QuotientExpr} {rest : Emit Unit} (ih : ExprReturns part)
    (quiet : Fills rest []) (builder : QuotientProgramBuilder) :
    Returns (emitExpr part >>= fun _ => rest) builder (SlotsLeft builder.limbVmOps builder.consts part)
      (tableAfter builder.limbVmOps builder.consts part) (builder.stackDepth + 1) () := by
  apply Returns.of_iff (and_iff_left trivial).symm
  apply Returns.bind (ih builder)
  intro after became
  have written := quiet.quiet after
  rw [became.consts, became.stackDepth] at written
  exact written

theorem decomposition_returns {residue : QuotientExpr} (shape : QuotientLimbShape)
    (ih : ExprReturns residue) (builder : QuotientProgramBuilder) :
    Returns (emitSelection (.decomposition shape residue)) builder
      ((Selection.decomposition shape residue).SlotsLeft builder.limbVmOps builder.consts)
      ((Selection.decomposition shape residue).tableAfter builder.limbVmOps builder.consts)
      (builder.stackDepth + 1) () := by
  apply Returns.bind (ih builder)
  intro after became
  apply Returns.of_iff (and_iff_left trivial).symm
  have shaped := pushed_returns (fills_limb_operands shape) after
  rw [became.consts, became.stackDepth] at shaped
  apply Returns.bind shaped
  intro last becameLast
  have popped := op_binary_returns .add becameLast.stackDepth
  rw [becameLast.consts] at popped
  exact popped

theorem add_product_returns {base : QuotientExpr} (product : QuotientProductAdd) (ih : ExprReturns base)
    (builder : QuotientProgramBuilder) :
    Returns (emitSelection (.addProduct base product)) builder
      ((Selection.addProduct base product).SlotsLeft builder.limbVmOps builder.consts)
      ((Selection.addProduct base product).tableAfter builder.limbVmOps builder.consts)
      (builder.stackDepth + 1) () := by
  apply Returns.bind (ih builder)
  intro after became
  have fused := fills_product_add product after
  rw [became.consts, became.stackDepth] at fused
  exact Returns.of_iff (scalars_fit _ product) fused

theorem accumulate_returns {operand : QuotientExpr} (ops : BinaryOps) (leaf : AccLeaf)
    (ih : ExprReturns operand) (builder : QuotientProgramBuilder) :
    Returns (emitSelection (.accumulate ops operand leaf)) builder
      ((Selection.accumulate ops operand leaf).SlotsLeft builder.limbVmOps builder.consts)
      ((Selection.accumulate ops operand leaf).tableAfter builder.limbVmOps builder.consts)
      (builder.stackDepth + 1) () := by
  apply Returns.of_iff (and_iff_left trivial).symm
  apply Returns.bind (ih builder)
  intro after became
  have applied := acc_leaf_returns ops leaf after
  rw [became.consts, became.stackDepth] at applied
  exact applied

theorem binary_returns {first second : QuotientExpr} (ops : BinaryOps) (inductionFirst : ExprReturns first)
    (inductionSecond : ExprReturns second) (builder : QuotientProgramBuilder) :
    Returns (emitSelection (.binary ops first second)) builder
      ((Selection.binary ops first second).SlotsLeft builder.limbVmOps builder.consts)
      ((Selection.binary ops first second).tableAfter builder.limbVmOps builder.consts)
      (builder.stackDepth + 1) () := by
  apply Returns.bind (inductionFirst builder)
  intro after became
  apply Returns.of_iff (and_iff_left trivial).symm
  have right := inductionSecond after
  rw [became.consts, became.limbVmOps, became.stackDepth] at right
  apply Returns.bind right
  intro last becameLast
  have popped := op_binary_returns ops.stackOp becameLast.stackDepth
  rw [becameLast.consts] at popped
  exact popped

theorem selection_returns (parts : ∀ part ∈ selection.parts, ExprReturns part)
    (checked : CheckedSelection builder.consts selection) :
    Returns (emitSelection selection) builder (selection.SlotsLeft builder.limbVmOps builder.consts)
      (selection.tableAfter builder.limbVmOps builder.consts) (builder.stackDepth + 1) () := by
  cases selection with
  | pow5 base => exact part_then_bytes (parts base mem_cons_self) (fills_op .pow5) builder
  | modarith7 shape =>
    apply Returns.of_iff (iff_of_true trivial checked.2)
    exact pushed_returns (fills_modarith7_operands checked.1) builder
  | limb shape =>
    apply Returns.of_iff (iff_of_true trivial checked)
    exact pushed_returns (fills_limb_operands shape) builder
  | decomposition shape residue =>
    exact decomposition_returns shape (parts residue mem_cons_self) builder
  | pushConst value =>
    apply Returns.of_iff (and_true True).symm.to_iff
    apply Returns.bind (const_operand_returns .pushConstU8 .pushConst value builder)
    intro after became
    have pushed := push_stack_returns after
    rw [became.consts, became.stackDepth] at pushed
    exact pushed
  | pushMem mem =>
    apply Returns.of_iff (iff_of_true trivial rfl)
    exact pushed_returns (fills_mem mem) builder
  | addProduct base product =>
    exact add_product_returns product (parts base mem_cons_self) builder
  | accumulate ops operand leaf =>
    exact accumulate_returns ops leaf (parts operand mem_cons_self) builder
  | binary ops first second =>
    exact binary_returns ops (parts first mem_cons_self)
      (parts second (mem_cons_of_mem first mem_cons_self)) builder
  | neg inner => exact part_then_bytes (parts inner mem_cons_self) (fills_op .neg) builder

theorem emit_expr_returns (expr : QuotientExpr) : ExprReturns expr := by
  intro builder
  have spec := selection_returns (fun part mem => emit_expr_returns part)
    (selected_checked builder.limbVmOps builder.consts expr)
  rw [table_after_selection, slots_left_selection]
  constructor
  · exact spec.grows
  · intro holds room
    rw [emit_expr_selection]
    exact spec.returns holds room
  · intro result ran
    rw [emit_expr_selection] at ran
    exact spec.checked result ran
termination_by (memLeaves expr, sizeOf expr)
decreasing_by exact selected_smaller mem

/-! ### A sum with a fused product -/

def crowdedSum : QuotientExpr := .add (.const 1000) (.mul (.const 1001) (.mem (.literal 0)))

theorem crowded_sum_modarith7 : quotientModarith7Shape crowdedSum = none := by
  have terms : collectQuotientAffineTerms crowdedSum 1 ([], 0) =
      some ([(1001, .mem (.literal 0))], 1000) := by decide +kernel
  have kept : retainNonzero [((1001 : Fq), QuotientExpr.mem (.literal 0))] =
    [(1001, .mem (.literal 0))] := by decide +kernel
  have peeled : peelLimbBlocks [((1001 : Fq), QuotientExpr.mem (.literal 0))] ⟨[], [], []⟩ =
      ([(1001, .mem (.literal 0))], ⟨[], [], []⟩) := peel_none (by decide +kernel)
  have grouped : [((1001 : Fq), QuotientExpr.mem (.literal 0))].foldlM groupAffineTerm ([], []) =
      some ([(0, 1001)], []) := by decide +kernel
  have conditional : quotientConditionFactor crowdedSum = none := rfl
  rw [quotientModarith7Shape, conditional]
  simp [quotientModarith7AffineShape, terms, kept, peeled, grouped]

theorem crowded_sum_selected (fits : constFitsU8Slot consts 1001 = true) :
    select true consts crowdedSum = .addProduct (.const 1000) (.constU8Mem 1001 0) := by
  have pow5 : quotientPow5Base crowdedSum = none := by decide +kernel
  have whole : quotientLimbShape crowdedSum = none := by decide +kernel
  have part : quotientLimbSubshape crowdedSum = none := by decide +kernel
  have fused : selectAddProduct consts (.const 1000) (.mul (.const 1001) (.mem (.literal 0))) =
      some (.addProduct (.const 1000) (.constU8Mem 1001 0)) := by
    simp [selectAddProduct, collectProductLeaves, productAddMacro, splitLeaves, fits, tryU16]
  unfold select
  rw [pow5, selectModarith7, crowded_sum_modarith7, selectLimb, whole, selectDecomposition, part]
  unfold crowdedSum
  simp [fused]

theorem thousand_selected (consts : List Nat) : select true consts (.const 1000) = .pushConst 1000 := by
  have pow5 : quotientPow5Base (.const 1000) = none := by decide +kernel
  have terms : collectQuotientAffineTerms (.const 1000) 1 ([], 0) = some ([], 1000) := by decide +kernel
  have peeled : peelLimbBlocks [] ⟨[], [], []⟩ = ([], ⟨[], [], []⟩) := peel_none (by decide +kernel)
  have modarith7 : quotientModarith7Shape (.const 1000) = none := by
    have conditional : quotientConditionFactor (.const 1000) = none := rfl
    have kept : retainNonzero [] = [] := rfl
    rw [quotientModarith7Shape, conditional]
    simp [quotientModarith7AffineShape, terms, kept, peeled, nonzeroGroups, nonzeroProducts]
  have whole : quotientLimbShape (.const 1000) = none := by decide +kernel
  have part : quotientLimbSubshape (.const 1000) = none := by decide +kernel
  unfold select
  rw [pow5, selectModarith7, modarith7, selectLimb, whole, selectDecomposition, part]
  rfl

/-! ### Emission returns -/

/-- Emission returns exactly when the constants fit the table and the checks of
one-byte slots hold behind the parts that come between. -/
theorem emission_returns_iff (expr : QuotientExpr) (builder : QuotientProgramBuilder)
    (room : builder.consts.length ≤ u16Max + 1) :
    (∃ after, emitExpr expr builder = .ok ((), after)) ↔
      SlotsLeft builder.limbVmOps builder.consts expr ∧
        (tableAfter builder.limbVmOps builder.consts expr).length ≤ u16Max + 1 := by
  have spec := emit_expr_returns expr builder
  constructor
  · rintro ⟨after, ran⟩
    exact spec.checked _ ran room
  · intro holds
    rcases spec.returns holds.1 holds.2 with ⟨after, ran, -⟩
    exact ⟨after, ran⟩

theorem emission_returns_iff_fused :
    ∃ after, emitExpr crowdedSum ⟨[], [7], 1, 2, true⟩ = .ok ((), after) := by
  apply (emission_returns_iff crowdedSum ⟨[], [7], 1, 2, true⟩ (by decide)).mpr
  have selected : select true [7] crowdedSum = .addProduct (.const 1000) (.constU8Mem 1001 0) :=
    crowded_sum_selected (by decide)
  have table : tableAfter true [7] (.const 1000) = [7, 1000] := by
    rw [table_after_selection, thousand_selected]
    rfl
  constructor
  · rw [slots_left_selection, selected]
    constructor
    · rw [slots_left_selection, thousand_selected]
      trivial
    · rw [table]
      decide
  · rw [table_after_selection, selected, Selection.tableAfter, table]
    decide

/-! ### A product whose scalar loses its slot -/

def crowded : QuotientProgramBuilder := ⟨[], List.range 255, 0, 0, true⟩

theorem scalar_slot_lost :
    constFitsU8Slot crowded.consts 1001 = true ∧
      emitExpr crowdedSum crowded = .error ⟨"const slot checked"⟩ := by
  constructor
  · decide +kernel
  · have whole : emitExpr crowdedSum crowded = (emitExpr (.const 1000) >>= fun _ =>
        emitProductAdd (.constU8Mem 1001 0)) crowded := by
      have selected : select crowded.limbVmOps crowded.consts crowdedSum =
          .addProduct (.const 1000) (.constU8Mem 1001 0) := by
        dsimp only [crowded]
        exact crowded_sum_selected (by decide +kernel)
      rw [emit_expr_selection, selected]
      rfl
    have pushed : emitExpr (.const 1000) crowded = (emitConst 1000 >>= fun _ => pushStack) crowded := by
      have selected : select crowded.limbVmOps crowded.consts (.const 1000) = .pushConst 1000 := by
        dsimp only [crowded]
        exact thousand_selected _
      rw [emit_expr_selection, selected]
      rfl
    rw [whole]
    change (emitExpr (.const 1000) crowded >>= fun result =>
      emitProductAdd (.constU8Mem 1001 0) result.2) = _
    rw [pushed]
    decide +kernel
end Midfall.QuotientEmission
