import Midfall.QuotientShapeValues

/-!
# Selection of quotient opcodes

`emit_expr` tries its opcodes in a fixed order. What it selects depends on the
expression and on the constants that have slots already; it goes on with parts
that have fewer memory words, or as many in a smaller expression.
-/

namespace Midfall.QuotientSelection

open QuotientVmOpcodes QuotientExprShapes QuotientModarith7 List
open QuotientShapeValues

def u8Max : Nat := 255

def u16Max : Nat := 65535

/-- The slot of a constant; a constant that is absent gets the next one. -/
def slotOf (consts : List Nat) (value : Nat) : Nat := consts.idxOf value

def withConst (consts : List Nat) (value : Nat) : List Nat :=
  if value ∈ consts then consts else consts ++ [value]

def withConsts (consts values : List Nat) : List Nat := values.foldl withConst consts

/-- Whether a value can be addressed by a one-byte slot. -/
def constFitsU8Slot (consts : List Nat) (value : Nat) : Bool :=
  (value ∈ consts && slotOf consts value ≤ u8Max) || (value ∉ consts && consts.length ≤ u8Max)

/-- One-byte slots of a batch of values; the pending ones are behind the table. -/
def peekU8ConstSlots (consts : List Nat) : List Nat → Option (List Nat)
  | [] => some []
  | value :: values =>
    if slotOf consts value ≤ u8Max then
      (peekU8ConstSlots (withConst consts value) values).map (slotOf consts value :: ·)
    else none

def limbShapeCoeffs : QuotientLimbShape → List Nat
  | .lin7 terms => terms.map (·.1)
  | .bilin7Row _ terms => terms.map (·.1)
  | .bilin7Pairwise _ _ coeffs => coeffs

inductive QuotientProductAdd where
  | memMemConstU8 (lhs rhs scalar : Nat)
  | constU8Mem (scalar ptr : Nat)
  | memMem (lhs rhs : Nat)
  deriving DecidableEq, Repr

def QuotientProductAdd.scalars : QuotientProductAdd → List Nat
  | memMemConstU8 _ _ scalar => [scalar]
  | constU8Mem scalar _ => [scalar]
  | memMem _ _ => []

/-- Pointers and constants of the leaves, when all of them can be encoded. -/
def splitLeaves (consts : List Nat) : List QuotientLeaf → Option (List Nat × List Nat)
  | [] => some ([], [])
  | .mem (.literal ptr) :: leaves => do
    let ptr ← tryU16 ptr.toNat
    let (mems, scalars) ← splitLeaves consts leaves
    return (ptr :: mems, scalars)
  | .const value :: leaves =>
    if constFitsU8Slot consts value then do
      let (mems, scalars) ← splitLeaves consts leaves
      return (mems, value :: scalars)
    else none
  | .mem (.token _) :: _ | .mem (.tokenOffset _ _) :: _ => none

def productAddMacro (consts : List Nat) (leaves : List QuotientLeaf) : Option QuotientProductAdd :=
  match splitLeaves consts leaves with
  | some ([lhs, rhs], [scalar]) => some (.memMemConstU8 lhs rhs scalar)
  | some ([ptr], [scalar]) => some (.constU8Mem scalar ptr)
  | some ([lhs, rhs], []) => some (.memMem lhs rhs)
  | _ => none

/-- The opcodes of a binary operation: on the stack, with a constant, and with a memory word. -/
structure BinaryOps where
  stackOp : QuotientOp
  constU8Op : QuotientOp
  constOp : QuotientOp
  memU16Op : QuotientOp
  deriving DecidableEq, Repr

def addOps : BinaryOps := ⟨.add, .addConstU8, .addConst, .addMemU16⟩

def mulOps : BinaryOps := ⟨.mul, .mulConstU8, .mulConst, .mulMemU16⟩

/-- A leaf that is applied to the top of the stack. -/
inductive AccLeaf where
  | const (value : Nat)
  | memU16 (ptr : Nat)
  deriving DecidableEq, Repr

/-- What is emitted for an expression, with the parts that are emitted before. -/
inductive Selection where
  | pow5 (base : QuotientExpr)
  | modarith7 (shape : QuotientModarith7Shape)
  | limb (shape : QuotientLimbShape)
  | decomposition (shape : QuotientLimbShape) (residue : QuotientExpr)
  | pushConst (value : Nat)
  | pushMem (mem : QuotientMem)
  | addProduct (base : QuotientExpr) (product : QuotientProductAdd)
  | accumulate (ops : BinaryOps) (operand : QuotientExpr) (leaf : AccLeaf)
  | binary (ops : BinaryOps) (first second : QuotientExpr)
  | neg (inner : QuotientExpr)
  deriving DecidableEq, Repr

def selectModarith7 (consts : List Nat) (expr : QuotientExpr) : Option Selection := do
  let shape ← quotientModarith7Shape expr
  if (peekU8ConstSlots consts (modarith7Coeffs shape)).isSome then some (.modarith7 shape) else none

def selectLimb (consts : List Nat) (expr : QuotientExpr) : Option Selection := do
  let shape ← quotientLimbShape expr
  if (peekU8ConstSlots consts (limbShapeCoeffs shape)).isSome then some (.limb shape) else none

def selectDecomposition (consts : List Nat) (expr : QuotientExpr) : Option Selection := do
  let (shape, residue) ← quotientLimbSubshape expr
  if (peekU8ConstSlots consts (limbShapeCoeffs shape)).isSome then some (.decomposition shape residue) else none

/-- `base + product` as one opcode. -/
def selectAddProduct (consts : List Nat) (base product : QuotientExpr) : Option Selection := do
  let leaves ← collectProductLeaves product
  let product ← productAddMacro consts leaves
  return .addProduct base product

/-- Tokens and pointers above `u16` have no accumulator opcode. -/
def accLeaf : QuotientLeaf → Option AccLeaf
  | .const value => some (.const value)
  | .mem (.literal ptr) => (tryU16 ptr.toNat).map AccLeaf.memU16
  | .mem (.token _) | .mem (.tokenOffset _ _) => none

/-- The operand is emitted first; a leaf without an opcode is emitted after it. -/
def selectAccumulate (ops : BinaryOps) (operand leafExpr : QuotientExpr) (leaf : QuotientLeaf) : Selection :=
  match accLeaf leaf with
  | some leaf => .accumulate ops operand leaf
  | none => .binary ops operand leafExpr

/-- A leaf on the right is tried before one on the left. -/
def selectBinary (ops : BinaryOps) (lhs rhs : QuotientExpr) : Selection :=
  match quotientLeaf rhs with
  | some leaf => selectAccumulate ops lhs rhs leaf
  | none =>
    match quotientLeaf lhs with
    | some leaf => selectAccumulate ops rhs lhs leaf
    | none => .binary ops lhs rhs

/-- The order of `emit_expr`. -/
def select (limbVmOps : Bool) (consts : List Nat) (expr : QuotientExpr) : Selection :=
  match quotientPow5Base expr with
  | some base => .pow5 base
  | none =>
    match (if limbVmOps then
        selectModarith7 consts expr <|> selectLimb consts expr <|> selectDecomposition consts expr
      else none) with
    | some selection => selection
    | none =>
      match expr with
      | .const value => .pushConst value
      | .mem mem => .pushMem mem
      | .add lhs rhs =>
        match selectAddProduct consts lhs rhs <|> selectAddProduct consts rhs lhs with
        | some selection => selection
        | none => selectBinary addOps lhs rhs
      | .mul lhs rhs => selectBinary mulOps lhs rhs
      | .neg inner => .neg inner

/-- Expressions that are emitted for a selection. -/
def Selection.parts : Selection → List QuotientExpr
  | pow5 base => [base]
  | modarith7 _ => []
  | limb _ => []
  | decomposition _ residue => [residue]
  | pushConst _ => []
  | pushMem _ => []
  | addProduct base _ => [base]
  | accumulate _ operand _ => [operand]
  | binary _ first second => [first, second]
  | neg inner => [inner]

def memLeaves : QuotientExpr → Nat
  | .const _ => 0
  | .mem _ => 1
  | .add lhs rhs => memLeaves lhs + memLeaves rhs
  | .mul lhs rhs => memLeaves lhs + memLeaves rhs
  | .neg inner => memLeaves inner

/-- Fewer memory words, or as many in a smaller expression. -/
def Smaller (part whole : QuotientExpr) : Prop :=
  Prod.Lex (· < ·) (· < ·) (memLeaves part, sizeOf part) (memLeaves whole, sizeOf whole)

variable {part expr : QuotientExpr} {coeff : Fq} {consts : List Nat}

theorem smaller_of_le {whole : QuotientExpr} (leaves : memLeaves part ≤ memLeaves whole)
    (size : sizeOf part < sizeOf whole) : Smaller part whole := by
  rcases Nat.lt_or_eq_of_le leaves with less | same
  · exact Prod.Lex.left _ _ less
  · unfold Smaller
    rw [same]
    exact Prod.Lex.right _ size

def termLeaves (terms : Terms) : Nat := (terms.map fun term => memLeaves term.2).sum

theorem term_leaves_append (terms others : Terms) :
    termLeaves (terms ++ others) = termLeaves terms + termLeaves others := by
  rw [termLeaves, map_append, sum_append]
  rfl

theorem affine_term_leaves {acc result : Terms × Fq}
    (collected : collectQuotientAffineTerms expr coeff acc = some result) :
    termLeaves result.1 ≤ termLeaves acc.1 + memLeaves expr := by
  have single : ∀ (coeff : Fq) (expr : QuotientExpr), termLeaves [(coeff, expr)] = memLeaves expr :=
    fun _ expr => sum_singleton
  fun_induction collectQuotientAffineTerms expr coeff acc generalizing result with
  | case1 expr acc =>
    cases collected
    exact Nat.le_add_right _ _
  | case2 coeff acc nonzero lhs rhs left right =>
    rcases bind_some_iff.mp collected with ⟨middle, first, second⟩
    have before := left first
    have after := right _ second
    rw [memLeaves]
    omega
  | case3 coeff acc nonzero inner ih => exact ih collected
  | case4 coeff acc nonzero value rhs ih =>
    rcases bind_some_iff.mp collected with ⟨scalar, -, rest⟩
    have inner := ih scalar rest
    rw [memLeaves, memLeaves]
    omega
  | case5 coeff acc nonzero lhs value other ih =>
    rcases bind_some_iff.mp collected with ⟨scalar, -, rest⟩
    have inner := ih scalar rest
    rw [memLeaves, memLeaves]
    omega
  | case6 coeff acc nonzero lhs rhs otherLhs otherRhs =>
    cases collected
    rw [term_leaves_append, single]
  | case7 coeff acc nonzero value =>
    rcases bind_some_iff.mp collected with ⟨scalar, -, same⟩
    cases same
    exact Nat.le_add_right _ _
  | case8 coeff acc nonzero mem =>
    cases collected
    rw [term_leaves_append, single]

def leafWords : QuotientLeaf → Nat
  | .const _ => 0
  | .mem _ => 1

theorem product_leaf_words {leaves : List QuotientLeaf}
    (collected : collectProductLeaves expr = some leaves) :
    (leaves.map leafWords).sum = memLeaves expr := by
  induction expr generalizing leaves with
  | const value =>
    cases collected
    rfl
  | mem mem =>
    cases collected
    rfl
  | add lhs rhs => cases collected
  | neg inner => cases collected
  | mul lhs rhs left right =>
    rcases bind_some_iff.mp collected with ⟨lhsLeaves, lhsIs, rest⟩
    rcases bind_some_iff.mp rest with ⟨rhsLeaves, rhsIs, same⟩
    cases same
    rw [map_append, sum_append, left lhsIs, right rhsIs, memLeaves]

theorem product_factor_words {leaves : List QuotientLeaf} {factors result : Fq × List Nat}
    (folded : leaves.foldlM productFactorStep factors = some result) :
    result.2.length = factors.2.length + (leaves.map leafWords).sum := by
  induction leaves generalizing factors with
  | nil =>
    cases folded
    rfl
  | cons leaf leaves ih =>
    rw [foldlM_cons] at folded
    rcases bind_some_iff.mp folded with ⟨next, stepped, rest⟩
    have word : next.2.length = factors.2.length + leafWords leaf := by
      cases leaf with
      | const value =>
        rcases bind_some_iff.mp stepped with ⟨scalar, -, same⟩
        cases same
        rfl
      | mem mem =>
        cases mem with
        | literal ptr =>
          rcases bind_some_iff.mp stepped with ⟨small, -, same⟩
          cases same
          exact length_append
        | token token => cases stepped
        | tokenOffset token offset => cases stepped
    rw [ih rest, word, map_cons, sum_cons, Nat.add_assoc]

theorem mem_factor_words {ptrs : List Nat}
    (found : quotientProductMemFactors expr = some (coeff, ptrs)) :
    ptrs.length = memLeaves expr := by
  rcases bind_some_iff.mp found with ⟨leaves, leavesIs, folded⟩
  rw [product_factor_words folded, product_leaf_words leavesIs]
  exact Nat.zero_add _

theorem mem_term_words {ptr : Nat} (found : quotientMemTerm expr = some (coeff, ptr)) :
    memLeaves expr = 1 := by
  unfold quotientMemTerm at found
  split at found
  · rename_i factors
    exact (mem_factor_words factors).symm
  · cases found

theorem mem_pair_words {lhs rhs : Nat}
    (found : quotientProductMemPair expr = some (coeff, lhs, rhs)) : memLeaves expr = 2 := by
  unfold quotientProductMemPair at found
  split at found
  · rename_i factors
    exact (mem_factor_words factors).symm
  · cases found

def HasWords (terms : Terms) (idx : Nat) : Prop := ∃ term, terms[idx]? = some term ∧ 0 < memLeaves term.2

def UsesWords (terms : Terms) (found : Option (QuotientLimbShape × List Nat)) : Prop :=
  ∀ shape used, found = some (shape, used) → ∀ idx ∈ used, HasWords terms idx

theorem indexed_mem_terms_words (terms : Terms) (entry : Nat × Nat × Fq)
    (mem : entry ∈ indexedMemTerms terms) : HasWords terms entry.1 := by
  unfold indexedMemTerms at mem
  rcases mem_filterMap.mp mem with ⟨⟨⟨coeff, expr⟩, idx⟩, listed, mapped⟩
  rcases Option.map_eq_some_iff.mp mapped with ⟨⟨inner, ptr⟩, found, rfl⟩
  refine ⟨(coeff, expr), mem_zipIdx_iff_getElem?.mp listed, ?_⟩
  rw [mem_term_words found]
  exact Nat.one_pos

theorem indexed_pairs_words (terms : Terms) (entry : Nat × Pair) (mem : entry ∈ indexedPairs terms) :
    HasWords terms entry.1 := by
  unfold indexedPairs at mem
  rcases mem_filterMap.mp mem with ⟨⟨⟨coeff, expr⟩, idx⟩, listed, mapped⟩
  rcases Option.map_eq_some_iff.mp mapped with ⟨⟨inner, lhs, rhs⟩, found, rfl⟩
  refine ⟨(coeff, expr), mem_zipIdx_iff_getElem?.mp listed, ?_⟩
  rw [mem_pair_words found]
  exact Nat.two_pos

theorem lin7_subshape_words (terms : Terms) : UsesWords terms (tryQuotientLin7Subshape terms) := by
  intro shape used found idx mem
  rcases exists_of_findSome?_eq_some found with ⟨base, -, attempt⟩
  unfold lin7WithBase at attempt
  dsimp only at attempt
  split_ifs at attempt
  cases attempt
  rcases mem_flatMap.mp mem with ⟨ptr, -, inWindow⟩
  rcases mem_map.mp inWindow with ⟨entry, listed, rfl⟩
  exact indexed_mem_terms_words terms entry (mem_filter.mp listed).1

theorem row_subshape_words (terms : Terms) : UsesWords terms (tryQuotientBilin7RowSubshape terms) := by
  intro shape used found idx mem
  rcases exists_of_findSome?_eq_some found with ⟨candidate, -, attempt⟩
  unfold rowSubshapeWithCandidate at attempt
  dsimp only at attempt
  split_ifs at attempt
  cases attempt
  rcases mem_map.mp mem with ⟨entry, listed, rfl⟩
  rcases mem_filterMap.mp listed with ⟨pair, inPairs, mapped⟩
  rcases Option.map_eq_some_iff.mp mapped with ⟨other, -, rfl⟩
  exact indexed_pairs_words terms pair inPairs

theorem pairwise_subshape_words (terms : Terms) :
    UsesWords terms (tryQuotientBilin7PairwiseSubshape terms) := by
  intro shape used found idx mem
  rcases exists_of_findSome?_eq_some found with ⟨lhsBase, -, inner⟩
  rcases exists_of_findSome?_eq_some inner with ⟨rhsBase, -, attempt⟩
  rcases pairwise_subshape_used attempt mem with ⟨pair, inPairs, rfl⟩
  exact indexed_pairs_words terms pair inPairs

theorem or_else_words {terms : Terms} {first second : Option (QuotientLimbShape × List Nat)}
    (firstUses : UsesWords terms first) (secondUses : UsesWords terms second) :
    UsesWords terms (first <|> second) := by
  intro shape used found
  rcases (Option.orElse_eq_some _ _ _).mp found with here | ⟨-, there⟩
  · exact firstUses shape used here
  · exact secondUses shape used there

theorem filtered_sum_le {Entry : Type} (kept : Entry → Bool) (weight : Entry → Nat) (entries : List Entry) :
    ((entries.filter kept).map weight).sum ≤ (entries.map weight).sum := by
  apply List.Sublist.sum_le_sum
  · exact (filter_sublist).map weight
  · exact fun _ _ => Nat.zero_le _

theorem filtered_sum_lt {Entry : Type} {kept : Entry → Bool} {weight : Entry → Nat} {entries : List Entry}
    {gone : Entry} (mem : gone ∈ entries) (dropped : kept gone = false) (pos : 0 < weight gone) :
    ((entries.filter kept).map weight).sum < (entries.map weight).sum := by
  rcases append_of_mem mem with ⟨before, after, rfl⟩
  have first := filtered_sum_le kept weight before
  have second := filtered_sum_le kept weight after
  rw [filter_append, filter_cons_of_neg (by rw [dropped]; exact Bool.false_ne_true),
    map_append, map_append, map_cons, sum_append, sum_append, sum_cons]
  omega

theorem removed_term_leaves {terms : Terms} {used : List Nat} (nonempty : used ≠ [])
    (words : ∀ idx ∈ used, HasWords terms idx) :
    termLeaves (removeQuotientTerms terms used) < termLeaves terms := by
  rcases exists_mem_of_ne_nil used nonempty with ⟨idx, mem⟩
  rcases words idx mem with ⟨term, found, pos⟩
  have listed : (term, idx) ∈ terms.zipIdx := mem_zipIdx_iff_getElem?.mpr found
  have dropped : (! used.contains idx) = false := by
    rw [Bool.not_eq_false', contains_iff_mem]
    exact mem
  have less := @filtered_sum_lt _ (fun entry : (Fq × QuotientExpr) × Nat => ! used.contains entry.2)
    (fun entry => memLeaves entry.1.2) terms.zipIdx (term, idx) listed dropped pos
  have whole : terms.zipIdx.map (fun entry => memLeaves entry.1.2) = terms.map fun term => memLeaves term.2 := by
    conv_rhs => rw [← zipIdx_map_fst 0 terms]
    rw [map_map]
    rfl
  unfold termLeaves removeQuotientTerms
  rw [← whole, map_map]
  exact less

theorem scaled_term_leaves (coeff : Fq) (expr : QuotientExpr) :
    memLeaves (quotientScaledTermExpr coeff expr) = memLeaves expr := by
  unfold quotientScaledTermExpr
  split_ifs
  · rfl
  · rw [memLeaves, memLeaves, Nat.zero_add]

theorem residue_leaves (terms : Terms) (start : QuotientExpr) :
    memLeaves (terms.foldl (fun residue term => .add residue (quotientScaledTermExpr term.1 term.2)) start) =
      memLeaves start + termLeaves terms := by
  induction terms generalizing start with
  | nil => rfl
  | cons term terms ih =>
    have cons : termLeaves (term :: terms) = memLeaves term.2 + termLeaves terms := sum_cons
    rw [foldl_cons, ih, memLeaves, scaled_term_leaves, cons, Nat.add_assoc]

theorem subshape_residue_leaves {residue : QuotientExpr} {shape : QuotientLimbShape}
    (found : quotientLimbSubshape expr = some (shape, residue)) :
    memLeaves residue < memLeaves expr := by
  rcases bind_some_iff.mp found with ⟨⟨terms, constant⟩, collected, rest⟩
  dsimp only at rest
  split_ifs at rest
  rcases bind_some_iff.mp rest with ⟨⟨other, used⟩, usedIs, last⟩
  dsimp only at last
  split_ifs at last with stop
  cases last
  push Not at stop
  have words := or_else_words (pairwise_subshape_words _)
    (or_else_words (row_subshape_words _) (lin7_subshape_words _)) _ _ usedIs
  have less := removed_term_leaves stop.1 words
  have collectedLeaves := affine_term_leaves collected
  have retained : termLeaves (retainNonzero terms) ≤ termLeaves terms := filtered_sum_le _ _ terms
  have constantLeaves : memLeaves (.const (quotientFqToU256 constant)) = 0 := rfl
  have none_ : termLeaves [] = 0 := rfl
  rw [residue_leaves, constantLeaves]
  dsimp only at collectedLeaves
  omega

theorem factor_not_larger {factor : QuotientExpr} (member : factor ∈ collectProductExprFactors expr) :
    memLeaves factor ≤ memLeaves expr ∧ sizeOf factor ≤ sizeOf expr := by
  induction expr with
  | mul lhs rhs left right =>
    rw [memLeaves, QuotientExpr.mul.sizeOf_spec]
    rcases mem_append.mp member with inLhs | inRhs
    · have found := left inLhs
      omega
    · have found := right inRhs
      omega
  | const value =>
    cases mem_singleton.mp member
    exact ⟨le_rfl, le_rfl⟩
  | mem mem =>
    cases mem_singleton.mp member
    exact ⟨le_rfl, le_rfl⟩
  | add lhs rhs =>
    cases mem_singleton.mp member
    exact ⟨le_rfl, le_rfl⟩
  | neg inner =>
    cases mem_singleton.mp member
    exact ⟨le_rfl, le_rfl⟩

theorem pow5_base_smaller {base : QuotientExpr} (found : quotientPow5Base expr = some base) :
    Smaller base expr := by
  unfold quotientPow5Base at found
  split at found
  · rename_i first second third fourth fifth factors
    split_ifs at found
    cases found
    have listed : base ∈ collectProductExprFactors expr := by
      rw [factors]
      exact mem_cons_self
    cases expr with
    | mul lhs rhs =>
      apply smaller_of_le
      · exact (factor_not_larger listed).1
      · rw [QuotientExpr.mul.sizeOf_spec]
        rcases mem_append.mp listed with inLhs | inRhs
        · have found := (factor_not_larger inLhs).2
          omega
        · have found := (factor_not_larger inRhs).2
          omega
    | const _ | mem _ | add _ _ | neg _ => cases factors
  · cases found

theorem add_lhs_smaller (lhs rhs : QuotientExpr) : Smaller lhs (.add lhs rhs) := by
  apply smaller_of_le
  · exact Nat.le_add_right _ _
  · rw [QuotientExpr.add.sizeOf_spec]
    omega

theorem add_rhs_smaller (lhs rhs : QuotientExpr) : Smaller rhs (.add lhs rhs) := by
  apply smaller_of_le
  · exact Nat.le_add_left _ _
  · rw [QuotientExpr.add.sizeOf_spec]
    omega

theorem mul_lhs_smaller (lhs rhs : QuotientExpr) : Smaller lhs (.mul lhs rhs) := by
  apply smaller_of_le
  · exact Nat.le_add_right _ _
  · rw [QuotientExpr.mul.sizeOf_spec]
    omega

theorem mul_rhs_smaller (lhs rhs : QuotientExpr) : Smaller rhs (.mul lhs rhs) := by
  apply smaller_of_le
  · exact Nat.le_add_left _ _
  · rw [QuotientExpr.mul.sizeOf_spec]
    omega

theorem neg_inner_smaller (inner : QuotientExpr) : Smaller inner (.neg inner) := by
  apply smaller_of_le
  · exact le_rfl
  · rw [QuotientExpr.neg.sizeOf_spec]
    omega

theorem select_accumulate_parts {ops : BinaryOps} {operand leafExpr : QuotientExpr}
    {leaf : QuotientLeaf} (mem : part ∈ (selectAccumulate ops operand leafExpr leaf).parts) :
    part = operand ∨ part = leafExpr := by
  unfold selectAccumulate at mem
  split at mem
  · exact Or.inl (mem_singleton.mp mem)
  · simpa [Selection.parts] using mem

theorem select_binary_parts {ops : BinaryOps} {lhs rhs : QuotientExpr}
    (mem : part ∈ (selectBinary ops lhs rhs).parts) : part = lhs ∨ part = rhs := by
  unfold selectBinary at mem
  split at mem
  · exact select_accumulate_parts mem
  · split at mem
    · exact (select_accumulate_parts mem).symm
    · simpa [Selection.parts] using mem

theorem limb_selection_smaller {selection : Selection}
    (selected : (selectModarith7 consts expr <|> selectLimb consts expr <|> selectDecomposition consts expr) =
      some selection) (mem : part ∈ selection.parts) : Smaller part expr := by
  rcases (Option.orElse_eq_some _ _ _).mp selected with whole | ⟨-, rest⟩
  · rcases bind_some_iff.mp whole with ⟨shape, -, checked⟩
    split_ifs at checked
    cases checked
    cases mem
  · rcases (Option.orElse_eq_some _ _ _).mp rest with limb | ⟨-, sub⟩
    · rcases bind_some_iff.mp limb with ⟨shape, -, checked⟩
      split_ifs at checked
      cases checked
      cases mem
    · rcases bind_some_iff.mp sub with ⟨⟨shape, residue⟩, found, checked⟩
      dsimp only at checked
      split_ifs at checked
      cases checked
      cases mem_singleton.mp mem
      exact Prod.Lex.left _ _ (subshape_residue_leaves found)

theorem select_add_product_parts {base product : QuotientExpr} {selection : Selection}
    (selected : selectAddProduct consts base product = some selection)
    (mem : part ∈ selection.parts) :
    part = base := by
  rcases bind_some_iff.mp selected with ⟨leaves, -, rest⟩
  rcases bind_some_iff.mp rest with ⟨fused, -, same⟩
  cases same
  exact mem_singleton.mp mem

/-- The parts of a selection are smaller, so that emission ends. -/
theorem selected_smaller {limbVmOps : Bool} (member : part ∈ (select limbVmOps consts expr).parts) :
    Smaller part expr := by
  unfold select at member
  split at member
  · rename_i base found
    cases mem_singleton.mp member
    exact pow5_base_smaller found
  · split at member
    · rename_i selection selected
      split_ifs at selected
      exact limb_selection_smaller selected member
    · cases expr with
      | const value => cases member
      | mem mem => cases member
      | neg inner =>
        cases mem_singleton.mp member
        exact neg_inner_smaller part
      | mul lhs rhs =>
        rcases select_binary_parts member with rfl | rfl
        · exact mul_lhs_smaller part rhs
        · exact mul_rhs_smaller lhs part
      | add lhs rhs =>
        dsimp only at member
        split at member
        · rename_i selection selected
          rcases (Option.orElse_eq_some _ _ _).mp selected with right | ⟨-, left⟩
          · rw [select_add_product_parts right member]
            exact add_lhs_smaller lhs rhs
          · rw [select_add_product_parts left member]
            exact add_rhs_smaller lhs rhs
        · rcases select_binary_parts member with rfl | rfl
          · exact add_lhs_smaller part rhs
          · exact add_rhs_smaller lhs part

/-- The table after a leaf has been applied. -/
def AccLeaf.withLeaf (consts : List Nat) : AccLeaf → List Nat
  | const value => withConst consts value
  | memU16 _ => consts

/-- The table once the constants of an expression have slots. -/
def tableAfter (limbVmOps : Bool) (consts : List Nat) (expr : QuotientExpr) : List Nat :=
  match _selected : select limbVmOps consts expr with
  | .pow5 base => tableAfter limbVmOps consts base
  | .modarith7 shape => withConsts consts (modarith7Coeffs shape)
  | .limb shape => withConsts consts (limbShapeCoeffs shape)
  | .decomposition shape residue => withConsts (tableAfter limbVmOps consts residue) (limbShapeCoeffs shape)
  | .pushConst value => withConst consts value
  | .pushMem _ => consts
  | .addProduct base product => withConsts (tableAfter limbVmOps consts base) product.scalars
  | .accumulate _ operand leaf => leaf.withLeaf (tableAfter limbVmOps consts operand)
  | .binary _ first second => tableAfter limbVmOps (tableAfter limbVmOps consts first) second
  | .neg inner => tableAfter limbVmOps consts inner
termination_by (memLeaves expr, sizeOf expr)
decreasing_by all_goals exact selected_smaller (by rw [_selected]; simp [Selection.parts])

/-- Where a part precedes the constants of an opcode, they have one-byte slots behind
the constants of the part as well. -/
def SlotsLeft (limbVmOps : Bool) (consts : List Nat) (expr : QuotientExpr) : Prop :=
  match _selected : select limbVmOps consts expr with
  | .pow5 base => SlotsLeft limbVmOps consts base
  | .modarith7 _ | .limb _ | .pushConst _ | .pushMem _ => True
  | .decomposition shape residue =>
    SlotsLeft limbVmOps consts residue ∧
      (peekU8ConstSlots (tableAfter limbVmOps consts residue) (limbShapeCoeffs shape)).isSome
  | .addProduct base product =>
    SlotsLeft limbVmOps consts base ∧
      ∀ scalar ∈ product.scalars, constFitsU8Slot (tableAfter limbVmOps consts base) scalar
  | .accumulate _ operand _ => SlotsLeft limbVmOps consts operand
  | .binary _ first second =>
    SlotsLeft limbVmOps consts first ∧ SlotsLeft limbVmOps (tableAfter limbVmOps consts first) second
  | .neg inner => SlotsLeft limbVmOps consts inner
termination_by (memLeaves expr, sizeOf expr)
decreasing_by all_goals exact selected_smaller (by rw [_selected]; simp [Selection.parts])

def Selection.tableAfter (limbVmOps : Bool) (consts : List Nat) : Selection → List Nat
  | pow5 base => QuotientSelection.tableAfter limbVmOps consts base
  | modarith7 shape => withConsts consts (modarith7Coeffs shape)
  | limb shape => withConsts consts (limbShapeCoeffs shape)
  | decomposition shape residue =>
    withConsts (QuotientSelection.tableAfter limbVmOps consts residue) (limbShapeCoeffs shape)
  | pushConst value => withConst consts value
  | pushMem _ => consts
  | addProduct base product =>
    withConsts (QuotientSelection.tableAfter limbVmOps consts base) product.scalars
  | accumulate _ operand leaf => leaf.withLeaf (QuotientSelection.tableAfter limbVmOps consts operand)
  | binary _ first second =>
    QuotientSelection.tableAfter limbVmOps (QuotientSelection.tableAfter limbVmOps consts first) second
  | neg inner => QuotientSelection.tableAfter limbVmOps consts inner

theorem table_after_selection (limbVmOps : Bool) (consts : List Nat) (expr : QuotientExpr) :
    tableAfter limbVmOps consts expr = (select limbVmOps consts expr).tableAfter limbVmOps consts := by
  rw [tableAfter]
  split <;> rename_i selected <;> rw [selected] <;> rfl

def Selection.SlotsLeft (limbVmOps : Bool) (consts : List Nat) : Selection → Prop
  | pow5 base => QuotientSelection.SlotsLeft limbVmOps consts base
  | modarith7 _ | limb _ | pushConst _ | pushMem _ => True
  | decomposition shape residue =>
    QuotientSelection.SlotsLeft limbVmOps consts residue ∧
      (peekU8ConstSlots (QuotientSelection.tableAfter limbVmOps consts residue) (limbShapeCoeffs shape)).isSome
  | addProduct base product =>
    QuotientSelection.SlotsLeft limbVmOps consts base ∧
      ∀ scalar ∈ product.scalars, constFitsU8Slot (QuotientSelection.tableAfter limbVmOps consts base) scalar
  | accumulate _ operand _ => QuotientSelection.SlotsLeft limbVmOps consts operand
  | binary _ first second =>
    QuotientSelection.SlotsLeft limbVmOps consts first ∧
      QuotientSelection.SlotsLeft limbVmOps (QuotientSelection.tableAfter limbVmOps consts first) second
  | neg inner => QuotientSelection.SlotsLeft limbVmOps consts inner

theorem slots_left_selection (limbVmOps : Bool) (consts : List Nat) (expr : QuotientExpr) :
    SlotsLeft limbVmOps consts expr = (select limbVmOps consts expr).SlotsLeft limbVmOps consts := by
  rw [SlotsLeft]
  split <;> rename_i selected <;> rw [selected] <;> rfl

end Midfall.QuotientSelection
