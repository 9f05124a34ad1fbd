import Midfall.QuotientExprShapes

/-!
# The mixed seven-limb affine form

`MODARITH7` bundles limb blocks, sparse memory and product terms, a constant
and an optional outer condition. The recognizer peels limb sub-shapes off the
collected affine terms and groups what remains; it gives up on any term that is
neither a memory word, a product of two, nor a word times an affine sum.
-/

namespace Midfall.QuotientModarith7

open QuotientVmOpcodes QuotientVmInterpreter QuotientExprShapes List

/-- The scalar, the single literal pointer and the single affine factor so far. -/
structure FactorSplit where
  coeff : Fq
  lhs : Option Nat
  affine : Option QuotientExpr

def factorStep (split : FactorSplit) : QuotientExpr → Option FactorSplit
  | .const value => do
    let scalar ← quotientFqFromU256 value
    return { split with coeff := split.coeff * scalar }
  | .mem (.literal ptr) => do
    let ptr ← tryU16 ptr.toNat
    if split.lhs.isSome then none else return { split with lhs := some ptr }
  | .mem (.token _) | .mem (.tokenOffset _ _) => none
  | factor => if split.affine.isSome then none else some { split with affine := some factor }

def splitAffineFactors (termCoeff : Fq) (expr : QuotientExpr) :
    Option (Fq × Nat × QuotientExpr) := do
  let factors := collectProductExprFactors expr
  if factors.length < 2 then none
  else
    let split ← factors.foldlM factorStep { coeff := termCoeff, lhs := none, affine := none }
    let lhs ← split.lhs
    let affine ← split.affine
    return (split.coeff, lhs, affine)

/-- Recognize `lhs_limb * lin7(rhs_limbs)` as a row bilinear limb shape. -/
def quotientFactoredBilin7RowShape (termCoeff : Fq) (expr : QuotientExpr) :
    Option QuotientLimbShape := do
  let (coeff, lhs, linExpr) ← splitAffineFactors termCoeff expr
  let linTerms ← collectQuotientSumTerms linExpr coeff []
  match ← tryQuotientLin7Shape linTerms with
  | .lin7 terms => return .bilin7Row lhs terms
  | .bilin7Row _ _ | .bilin7Pairwise _ _ _ => none

/-- Find one factored row-shaped limb term inside a larger affine sum. -/
def tryQuotientFactoredBilin7RowSubshape (terms : Terms) :
    Option (QuotientLimbShape × List Nat) :=
  terms.zipIdx.findSome? fun ((coeff, expr), idx) =>
    (quotientFactoredBilin7RowShape coeff expr).map fun shape => (shape, [idx])

/-- `mem * (affine mem sum)` folded into the sparse memory and product buckets. -/
def addFactoredAffineProductTerms (groups : List (Nat × Fq) × List (Nat × Nat × Fq))
    (termCoeff : Fq) (expr : QuotientExpr) :
    Option (List (Nat × Fq) × List (Nat × Nat × Fq)) := do
  let (coeff, lhs, affineExpr) ← splitAffineFactors termCoeff expr
  let (terms, constant) ← collectQuotientAffineTerms affineExpr 1 ([], 0)
  let groupedMem := if constant ≠ 0 then addGroupedLimbCoeff groups.1 lhs (coeff * constant)
    else groups.1
  let groupedProducts ← terms.foldlM (fun grouped (innerCoeff, term) => do
    let (memCoeff, rhs) ← quotientMemTerm term
    return addGroupedProductCoeff grouped lhs rhs (coeff * innerCoeff * memCoeff)) groups.2
  return (groupedMem, groupedProducts)

structure LimbBlocks where
  lin : List (List (Nat × Nat))
  rows : List (Nat × List (Nat × Nat))
  pairwise : List (Nat × Nat × List Nat)

/-- Each recognizer returns only its own shape, so the shape picks the block list. -/
def LimbBlocks.push (blocks : LimbBlocks) : QuotientLimbShape → LimbBlocks
  | .lin7 terms => { blocks with lin := blocks.lin ++ [terms] }
  | .bilin7Row lhs terms => { blocks with rows := blocks.rows ++ [(lhs, terms)] }
  | .bilin7Pairwise lhsBase rhsBase coeffs =>
    { blocks with pairwise := blocks.pairwise ++ [(lhsBase, rhsBase, coeffs)] }

def nextLimbBlock (terms : Terms) : Option (QuotientLimbShape × List Nat) :=
  tryQuotientBilin7PairwiseSubshape terms <|> tryQuotientFactoredBilin7RowSubshape terms <|>
    tryQuotientBilin7RowSubshape terms <|> tryQuotientLin7Subshape terms

theorem factored_subshape_positions (terms : Terms) :
    UsesPositions terms (tryQuotientFactoredBilin7RowSubshape terms) := by
  intro shape used found idx mem
  obtain ⟨⟨⟨coeff, expr⟩, position⟩, listed, attempt⟩ := exists_of_findSome?_eq_some found
  obtain ⟨row, -, same⟩ := Option.map_eq_some_iff.mp attempt
  cases same
  cases mem_singleton.mp mem
  exact (mem_zipIdx' listed).1

theorem or_else_positions {terms : Terms} {first second : Option (QuotientLimbShape × List Nat)}
    (firstUses : UsesPositions terms first) (secondUses : UsesPositions terms second) :
    UsesPositions terms (first <|> second) := by
  intro shape used found
  cases first with
  | none => exact secondUses shape used (by simpa using found)
  | some entry => exact firstUses shape used (by simpa using found)

theorem next_limb_block_positions (terms : Terms) :
    UsesPositions terms (nextLimbBlock terms) :=
  or_else_positions (pairwise_subshape_positions terms) (or_else_positions
    (factored_subshape_positions terms) (or_else_positions (row_subshape_positions terms)
      (lin7_subshape_positions terms)))

def peelLimbBlocks (terms : Terms) (blocks : LimbBlocks) : Terms × LimbBlocks :=
  match _found : nextLimbBlock terms with
  | none => (terms, blocks)
  | some (shape, used) =>
    if _empty : used = [] then (terms, blocks)
    else peelLimbBlocks (removeQuotientTerms terms used) (blocks.push shape)
termination_by terms.length
decreasing_by
  exact remove_terms_shorter terms used _empty (next_limb_block_positions terms shape used _found)

/-- Group one remaining term into the sparse buckets. -/
def groupAffineTerm (groups : List (Nat × Fq) × List (Nat × Nat × Fq)) (entry : Fq × QuotientExpr) :
    Option (List (Nat × Fq) × List (Nat × Nat × Fq)) :=
  match quotientMemTerm entry.2 with
  | some (innerCoeff, ptr) =>
    some (addGroupedLimbCoeff groups.1 ptr (entry.1 * innerCoeff), groups.2)
  | none => match quotientProductMemPair entry.2 with
    | some (innerCoeff, lhs, rhs) =>
      some (groups.1, addGroupedProductCoeff groups.2 lhs rhs (entry.1 * innerCoeff))
    | none => addFactoredAffineProductTerms groups entry.1 entry.2

def nonzeroProducts (grouped : List (Nat × Nat × Fq)) : List (Nat × Nat × Fq) :=
  grouped.filter (·.2.2 ≠ 0)

/-- `sort_by_key((lhs, rhs))` and re-encoding of the coefficients. -/
def encodeProducts (grouped : List (Nat × Nat × Fq)) : List (Nat × Nat × Nat) :=
  (grouped.insertionSort (fun left right =>
    left.1 < right.1 ∨ left.1 = right.1 ∧ left.2.1 ≤ right.2.1)).map
      fun (lhs, rhs, coeff) => (quotientFqToU256 coeff, lhs, rhs)

/-- Recognize a mixed affine form after any outer condition has been separated. -/
def quotientModarith7AffineShape (cond : Option Nat) (expr : QuotientExpr) :
    Option QuotientModarith7Shape := do
  let (terms, constant) ← collectQuotientAffineTerms expr 1 ([], 0)
  let (terms, blocks) := peelLimbBlocks (retainNonzero terms) ⟨[], [], []⟩
  if 255 < blocks.lin.length ∨ 255 < blocks.rows.length ∨ 255 < blocks.pairwise.length then none
  else
    let (groupedMem, groupedProducts) ← terms.foldlM groupAffineTerm ([], [])
    let groupedMem := nonzeroGroups groupedMem
    let groupedProducts := nonzeroProducts groupedProducts
    let componentCount := blocks.lin.length + blocks.rows.length + blocks.pairwise.length +
      groupedMem.length + groupedProducts.length + if constant ≠ 0 then 1 else 0
    let hasLimbComponent := ¬blocks.lin = [] ∨ ¬blocks.rows = [] ∨ ¬blocks.pairwise = []
    let hasSparseConditionalProducts :=
      cond.isSome ∧ ¬groupedProducts = [] ∧ 2 ≤ componentCount
    if 255 < groupedMem.length ∨ 255 < groupedProducts.length then none
    else if componentCount = 0 then none
    else if ¬hasLimbComponent ∧ ¬hasSparseConditionalProducts then none
    else if cond = none ∧ componentCount < 2 then none
    else
      return { cond, constant := quotientFqToU256 constant, lin := blocks.lin, rows := blocks.rows,
               pairwise := blocks.pairwise, memTerms := encodeGroups groupedMem,
               productTerms := encodeProducts groupedProducts }

/-- Split `cond * inner` when one side is a scaled memory load, moving the scalar
into `inner`. -/
def quotientConditionFactor : QuotientExpr → Option (Nat × QuotientExpr)
  | .mul lhs rhs => match quotientMemTerm lhs with
    | some (coeff, ptr) => some (ptr, quotientScaledTermExpr coeff rhs)
    | none => (quotientMemTerm rhs).map fun (coeff, ptr) => (ptr, quotientScaledTermExpr coeff lhs)
  | _ => none

/-- Recognize a whole affine identity that `MODARITH7` can evaluate. -/
def quotientModarith7Shape (expr : QuotientExpr) : Option QuotientModarith7Shape :=
  ((quotientConditionFactor expr).bind fun (cond, inner) =>
    quotientModarith7AffineShape (some cond) inner) <|> quotientModarith7AffineShape none expr

/-- Constant-table coefficients referenced by a `MODARITH7` shape. -/
def modarith7Coeffs (shape : QuotientModarith7Shape) : List Nat :=
  (if shape.constant ≠ 0 then [shape.constant] else []) ++
    shape.lin.flatMap (·.map (·.1)) ++ shape.rows.flatMap (·.2.map (·.1)) ++
    shape.pairwise.flatMap (·.2.2) ++ shape.memTerms.map (·.1) ++ shape.productTerms.map (·.1)

end Midfall.QuotientModarith7
