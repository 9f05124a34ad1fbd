import Midfall.QuotientVmInterpreter

/-!
# Quotient expressions and their structural recognizers

The field-expression AST of the quotient VM builder and the shape recognizers
that work on it: product leaves, affine term collection, the seven-limb linear,
row and pairwise shapes, their sub-shapes inside larger sums, and the mixed
`MODARITH7` form. A `HashSet` of pointers is the list of inserted values.
-/

namespace Midfall.QuotientExprShapes

open QuotientVmOpcodes QuotientVmInterpreter List
open ScalarField (scalarModulus)

abbrev Fq := ZMod scalarModulus

/-- Compact reference to a verifier memory word. -/
inductive QuotientMem where
  | literal (ptr : UInt32)
  | token (token : Byte)
  | tokenOffset (token : Byte) (offset : UInt32)
  deriving DecidableEq, Repr

/-- Field-expression AST accepted by the quotient VM builder. -/
inductive QuotientExpr where
  | const (value : Nat)
  | mem (mem : QuotientMem)
  | add (lhs rhs : QuotientExpr)
  | mul (lhs rhs : QuotientExpr)
  | neg (inner : QuotientExpr)
  deriving DecidableEq, Repr

inductive QuotientLeaf where
  | const (value : Nat)
  | mem (mem : QuotientMem)
  deriving DecidableEq, Repr

inductive QuotientLimbShape where
  | lin7 (terms : List (Nat × Nat))
  | bilin7Row (lhs : Nat) (terms : List (Nat × Nat))
  | bilin7Pairwise (lhsBase rhsBase : Nat) (coeffs : List Nat)
  deriving DecidableEq, Repr

structure QuotientModarith7Shape where
  cond : Option Nat
  constant : Nat
  lin : List (List (Nat × Nat))
  rows : List (Nat × List (Nat × Nat))
  pairwise : List (Nat × Nat × List Nat)
  memTerms : List (Nat × Nat)
  productTerms : List (Nat × Nat × Nat)
  deriving DecidableEq, Repr

/-- A canonical scalar; values outside the field modulus are rejected. -/
def quotientFqFromU256 (value : Nat) : Option Fq :=
  if value < scalarModulus then some (value : Fq) else none

def quotientFqToU256 (value : Fq) : Nat := value.val

/-- `u16::try_from`. -/
def tryU16 (value : Nat) : Option Nat := if value < 65536 then some value else none

/-- Rust's `{:x}` rendering. -/
def lowerHex (value : Nat) : String := String.ofList (Nat.toDigits 16 value)

/-- Canonical key; addition and multiplication are keyed commutatively. -/
def quotientExprKey : QuotientExpr → String
  | .const value => "c:" ++ lowerHex value
  | .mem (.literal ptr) => "m:" ++ lowerHex ptr.toNat
  | .mem (.token token) => "t:" ++ lowerHex token.toNat
  | .mem (.tokenOffset token offset) =>
    "to:" ++ lowerHex token.toNat ++ ":" ++ lowerHex offset.toNat
  | .add lhs rhs => commutativeKey "a" (quotientExprKey lhs) (quotientExprKey rhs)
  | .mul lhs rhs => commutativeKey "u" (quotientExprKey lhs) (quotientExprKey rhs)
  | .neg inner => "n:" ++ quotientExprKey inner
where
  commutativeKey (op lhs rhs : String) : String :=
    if lhs ≤ rhs then op ++ ":" ++ lhs ++ ":" ++ rhs else op ++ ":" ++ rhs ++ ":" ++ lhs

def quotientLeaf : QuotientExpr → Option QuotientLeaf
  | .const value => some (.const value)
  | .mem mem => some (.mem mem)
  | .add _ _ | .mul _ _ | .neg _ => none

/-- Flatten a pure multiplication tree into constant/memory leaves. -/
def collectProductLeaves : QuotientExpr → Option (List QuotientLeaf)
  | .mul lhs rhs => do
    let lhsLeaves ← collectProductLeaves lhs
    let rhsLeaves ← collectProductLeaves rhs
    return lhsLeaves ++ rhsLeaves
  | .const value => some [.const value]
  | .mem mem => some [.mem mem]
  | .add _ _ | .neg _ => none

/-- Flatten multiplication nodes while keeping additive subexpressions whole. -/
def collectProductExprFactors : QuotientExpr → List QuotientExpr
  | .mul lhs rhs => collectProductExprFactors lhs ++ collectProductExprFactors rhs
  | expr => [expr]

/-- Return the repeated base for a structural fifth power. -/
def quotientPow5Base (expr : QuotientExpr) : Option QuotientExpr :=
  match collectProductExprFactors expr with
  | [first, second, third, fourth, fifth] =>
    if [first, second, third, fourth, fifth].all
        (fun factor => quotientExprKey factor == quotientExprKey first) then some first
    else none
  | _ => none

/-- Multiply one product leaf into a coefficient and its literal pointers. -/
def productFactorStep (factors : Fq × List Nat) : QuotientLeaf → Option (Fq × List Nat)
  | .const value => do
    let scalar ← quotientFqFromU256 value
    return (factors.1 * scalar, factors.2)
  | .mem (.literal ptr) => do
    let ptr ← tryU16 ptr.toNat
    return (factors.1, factors.2 ++ [ptr])
  | .mem (.token _) | .mem (.tokenOffset _ _) => none

/-- Factor a product into its Fr coefficient and literal memory pointers. -/
def quotientProductMemFactors (expr : QuotientExpr) : Option (Fq × List Nat) := do
  let leaves ← collectProductLeaves expr
  leaves.foldlM productFactorStep (1, [])

/-- `(coefficient, ptr)` for a product with exactly one memory factor. -/
def quotientMemTerm (expr : QuotientExpr) : Option (Fq × Nat) :=
  match quotientProductMemFactors expr with
  | some (coeff, [ptr]) => some (coeff, ptr)
  | _ => none

/-- `(coefficient, lhs_ptr, rhs_ptr)` for a product with two memory factors. -/
def quotientProductMemPair (expr : QuotientExpr) : Option (Fq × Nat × Nat) :=
  match quotientProductMemFactors expr with
  | some (coeff, [lhs, rhs]) => some (coeff, lhs, rhs)
  | _ => none

abbrev Terms := List (Fq × QuotientExpr)

/-- Collect additive terms, preserving constants as the residue. -/
def collectQuotientAffineTerms (expr : QuotientExpr) (coeff : Fq) (acc : Terms × Fq) :
    Option (Terms × Fq) :=
  if coeff = 0 then some acc
  else match expr with
    | .add lhs rhs => do
      let acc ← collectQuotientAffineTerms lhs coeff acc
      collectQuotientAffineTerms rhs coeff acc
    | .neg inner => collectQuotientAffineTerms inner (-coeff) acc
    | .mul (.const value) rhs => do
      let value ← quotientFqFromU256 value
      collectQuotientAffineTerms rhs (coeff * value) acc
    | .mul lhs (.const value) => do
      let value ← quotientFqFromU256 value
      collectQuotientAffineTerms lhs (coeff * value) acc
    | .mul _ _ => some (acc.1 ++ [(coeff, expr)], acc.2)
    | .const value => do
      let value ← quotientFqFromU256 value
      return (acc.1, acc.2 + coeff * value)
    | .mem _ => some (acc.1 ++ [(coeff, expr)], acc.2)

def collectQuotientSumTerms (expr : QuotientExpr) (coeff : Fq) (terms : Terms) :
    Option Terms :=
  if coeff = 0 then some terms
  else match expr with
    | .add lhs rhs => do
      let terms ← collectQuotientSumTerms lhs coeff terms
      collectQuotientSumTerms rhs coeff terms
    | .neg inner => collectQuotientSumTerms inner (-coeff) terms
    | .mul (.const value) rhs => do
      let value ← quotientFqFromU256 value
      collectQuotientSumTerms rhs (coeff * value) terms
    | .mul lhs (.const value) => do
      let value ← quotientFqFromU256 value
      collectQuotientSumTerms lhs (coeff * value) terms
    | .mul _ _ => some (terms ++ [(coeff, expr)])
    | .const value => do
      let value ← quotientFqFromU256 value
      if coeff * value = 0 then some terms else none
    | .mem _ => some (terms ++ [(coeff, expr)])

def retainNonzero (terms : Terms) : Terms := terms.filter (·.1 ≠ 0)

def addGroupedLimbCoeff : List (Nat × Fq) → Nat → Fq → List (Nat × Fq)
  | [], ptr, coeff => [(ptr, coeff)]
  | (existing, total) :: rest, ptr, coeff =>
    if existing = ptr then (existing, total + coeff) :: rest
    else (existing, total) :: addGroupedLimbCoeff rest ptr coeff

def findAddProduct : List (Nat × Nat × Fq) → Nat → Nat → Fq → List (Nat × Nat × Fq)
  | [], lhs, rhs, coeff => [(lhs, rhs, coeff)]
  | (existingLhs, existingRhs, total) :: rest, lhs, rhs, coeff =>
    if existingLhs = lhs ∧ existingRhs = rhs then (existingLhs, existingRhs, total + coeff) :: rest
    else (existingLhs, existingRhs, total) :: findAddProduct rest lhs rhs coeff

/-- Add a coefficient to an unordered memory-product pair. -/
def addGroupedProductCoeff (grouped : List (Nat × Nat × Fq)) (lhs rhs : Nat) (coeff : Fq) :
    List (Nat × Nat × Fq) :=
  if lhs ≤ rhs then findAddProduct grouped lhs rhs coeff
  else findAddProduct grouped rhs lhs coeff

def nonzeroGroups (grouped : List (Nat × Fq)) : List (Nat × Fq) := grouped.filter (·.2 ≠ 0)

/-- `sort_by_key(ptr)` and re-encoding of the coefficients. -/
def encodeGroups (grouped : List (Nat × Fq)) : List (Nat × Nat) :=
  (grouped.insertionSort (fun left right => left.1 ≤ right.1)).map
    fun (ptr, coeff) => (quotientFqToU256 coeff, ptr)

/-- All base pointers that cover a contiguous seven-limb vector. -/
def limb7BaseCandidates (ptrs : List Nat) : List Nat :=
  (((ptrs.dedup.filter fun base => (List.range quotientVmLimbs).all fun idx =>
    decide (base + idx * 32 < 65536) && ptrs.contains (base + idx * 32)).insertionSort
      (· ≤ ·))).dedup

/-- The limb index of `ptr` relative to `base`, if it is in the vector. -/
def limb7Index (base ptr : Nat) : Option Nat :=
  if ptr < base then none
  else if (ptr - base) % 32 ≠ 0 then none
  else if (ptr - base) / 32 < quotientVmLimbs then some ((ptr - base) / 32) else none

def tryQuotientLin7Shape (terms : Terms) : Option QuotientLimbShape := do
  let memTerms ← terms.mapM fun (coeff, expr) => do
    let (innerCoeff, ptr) ← quotientMemTerm expr
    return (ptr, coeff * innerCoeff)
  let grouped := nonzeroGroups
    (memTerms.foldl (fun grouped (ptr, coeff) => addGroupedLimbCoeff grouped ptr coeff) [])
  if grouped.length ≠ quotientVmLimbs then none
  else return .lin7 (encodeGroups grouped)

abbrev Pair := Fq × Nat × Nat

def collectPairs (terms : Terms) : Option (List Pair) :=
  terms.mapM fun (coeff, expr) => do
    let (innerCoeff, lhs, rhs) ← quotientProductMemPair expr
    return (coeff * innerCoeff, lhs, rhs)

def otherFactor (candidate lhs rhs : Nat) : Option Nat :=
  if lhs = candidate then some rhs else if rhs = candidate then some lhs else none

def rowGroups (candidate : Nat) (pairs : List Pair) : Option (List (Nat × Fq)) :=
  pairs.foldlM (fun grouped (coeff, lhs, rhs) => do
    let other ← otherFactor candidate lhs rhs
    return addGroupedLimbCoeff grouped other coeff) []

def rowWithCandidate (pairs : List Pair) (candidate : Nat) : Option QuotientLimbShape := do
  let grouped := nonzeroGroups (← rowGroups candidate pairs)
  if grouped.length = quotientVmLimbs then return .bilin7Row candidate (encodeGroups grouped)
  else none

/-- Recognize one limb multiplied across a seven-limb vector. -/
def tryQuotientBilin7RowShape (terms : Terms) : Option QuotientLimbShape := do
  let pairs ← collectPairs terms
  if pairs.length ≠ quotientVmLimbs then none
  else match pairs with
    | (_, lhs, rhs) :: _ => [lhs, rhs].findSome? (rowWithCandidate pairs)
    | [] => none

/-- The grid cell of a pair for two limb bases, read directly or swapped. -/
def gridCell (lhsBase rhsBase lhs rhs : Nat) : Option (Nat × Nat) :=
  ((limb7Index lhsBase lhs).bind fun i => (limb7Index rhsBase rhs).map fun j => (i, j)) <|>
    ((limb7Index lhsBase rhs).bind fun i => (limb7Index rhsBase lhs).map fun j => (i, j))

structure Grid where
  coeffs : List Fq
  seen : List Bool

def Grid.empty : Grid :=
  { coeffs := replicate quotientVmPairwiseTerms 0
    seen := replicate quotientVmPairwiseTerms false }

def Grid.record (grid : Grid) (cell : Nat × Nat) (coeff : Fq) : Grid :=
  let idx := cell.1 * quotientVmLimbs + cell.2
  { coeffs := grid.coeffs.modify idx (· + coeff), seen := grid.seen.set idx true }

/-- Check that the coefficients depend only on `i + j` and collect them. -/
def diagonalCoeffs (coeffs : List Fq) : Option (List (Option Fq)) :=
  (List.range quotientVmLimbs).foldlM (fun bySum i =>
    (List.range quotientVmLimbs).foldlM (fun (bySum : List (Option Fq)) j =>
      let coeff := coeffs.getD (i * quotientVmLimbs + j) 0
      match bySum.getD (i + j) none with
      | some expected => if expected ≠ coeff then none else some bySum
      | none => some (bySum.set (i + j) (some coeff))) bySum)
    (replicate quotientVmPairwiseCoeffs none)

variable {coeffs : List Fq} {bySum : List (Option Fq)} {i : Nat}

def Extends (known next : List (Option Fq)) : Prop :=
  next.length = known.length ∧ ∀ (position : Nat) (value : Fq),
    known[position]? = some (some value) → next[position]? = some (some value)

theorem Extends.trans {first second third : List (Option Fq)} (left : Extends first second)
    (right : Extends second third) : Extends first third :=
  ⟨right.1.trans left.1, fun position value known => right.2 _ _ (left.2 position value known)⟩

def diagonalStep (coeffs : List Fq) (i : Nat) (bySum : List (Option Fq)) (j : Nat) :
    Option (List (Option Fq)) :=
  let coeff := coeffs.getD (i * quotientVmLimbs + j) 0
  match bySum.getD (i + j) none with
  | some expected => if expected ≠ coeff then none else some bySum
  | none => some (bySum.set (i + j) (some coeff))

theorem diagonal_step_extends {j : Nat} {next : List (Option Fq)} (inside : i + j < bySum.length)
    (stepped : diagonalStep coeffs i bySum j = some next) :
    Extends bySum next ∧
      next[i + j]? = some (some (coeffs.getD (i * quotientVmLimbs + j) 0)) := by
  have stored : bySum[i + j]? = some (bySum.getD (i + j) none) := by
    rw [getD_eq_getElem?_getD, getElem?_eq_getElem inside, Option.getD_some]
  unfold diagonalStep at stepped
  dsimp only at stepped
  cases entry : bySum.getD (i + j) none with
  | some expected =>
    rw [entry] at stepped stored
    dsimp only at stepped
    split_ifs at stepped with differ
    cases stepped
    rw [stored, not_not.mp differ]
    exact ⟨⟨rfl, fun _ _ same => same⟩, rfl⟩
  | none =>
    rw [entry] at stepped stored
    cases stepped
    refine ⟨⟨length_set, ?_⟩, getElem?_set_self inside⟩
    intro position value same
    have apart : i + j ≠ position := by
      intro here
      rw [← here, stored] at same
      cases same
    rw [getElem?_set_ne apart, same]

theorem diagonal_row_extends {columns : List Nat} {final : List (Option Fq)}
    (inside : ∀ j ∈ columns, i + j < bySum.length)
    (run : columns.foldlM (diagonalStep coeffs i) bySum = some final) :
    Extends bySum final ∧ ∀ j ∈ columns,
      final[i + j]? = some (some (coeffs.getD (i * quotientVmLimbs + j) 0)) := by
  induction columns generalizing bySum with
  | nil =>
    cases run
    exact ⟨⟨rfl, fun _ _ same => same⟩, fun j absent => absurd absent not_mem_nil⟩
  | cons column columns ih =>
    rw [foldlM_cons] at run
    obtain ⟨next, stepped, later⟩ := Option.bind_eq_some_iff.mp run
    obtain ⟨extended, here⟩ := diagonal_step_extends (inside column mem_cons_self) stepped
    have insideNext : ∀ j ∈ columns, i + j < next.length := by
      intro j mem
      rw [extended.1]
      exact inside j (mem_cons_of_mem column mem)
    obtain ⟨extendedLater, others⟩ := ih insideNext later
    refine ⟨extended.trans extendedLater, ?_⟩
    intro j mem
    rcases mem_cons.mp mem with rfl | mem
    · exact extendedLater.2 _ _ here
    · exact others j mem

theorem diagonal_rows_extend {coeffs : List Fq} {rows : List Nat}
    {bySum final : List (Option Fq)} (sized : bySum.length = quotientVmPairwiseCoeffs)
    (inside : ∀ i ∈ rows, i < quotientVmLimbs)
    (run : rows.foldlM (fun bySum i =>
      (List.range quotientVmLimbs).foldlM (diagonalStep coeffs i) bySum) bySum = some final) :
    Extends bySum final ∧ ∀ i ∈ rows, ∀ j < quotientVmLimbs,
      final[i + j]? = some (some (coeffs.getD (i * quotientVmLimbs + j) 0)) := by
  induction rows generalizing bySum with
  | nil =>
    cases run
    exact ⟨⟨rfl, fun _ _ same => same⟩, fun i absent => absurd absent not_mem_nil⟩
  | cons row rows ih =>
    rw [foldlM_cons] at run
    obtain ⟨next, stepped, later⟩ := Option.bind_eq_some_iff.mp run
    have fits : ∀ j ∈ List.range quotientVmLimbs, row + j < bySum.length := by
      intro j mem
      have below := inside row mem_cons_self
      have column := mem_range.mp mem
      rw [sized]
      simp only [quotientVmLimbs, quotientVmPairwiseCoeffs] at below column ⊢
      omega
    obtain ⟨extended, here⟩ := diagonal_row_extends fits stepped
    obtain ⟨extendedLater, others⟩ := ih (extended.1.trans sized)
      (forall_mem_cons.mp inside).2 later
    refine ⟨extended.trans extendedLater, ?_⟩
    intro i mem j below
    rcases mem_cons.mp mem with rfl | mem
    · exact extendedLater.2 _ _ (here j (mem_range.mpr below))
    · exact others i mem j below

theorem diagonal_coeffs_known (checked : diagonalCoeffs coeffs = some bySum) {j : Nat}
    (iInside : i < quotientVmLimbs) (jInside : j < quotientVmLimbs) :
    bySum[i + j]? = some (some (coeffs.getD (i * quotientVmLimbs + j) 0)) := by
  have rows := @diagonal_rows_extend coeffs (List.range quotientVmLimbs) _ bySum (length_replicate ..)
    (fun i mem => mem_range.mp mem) checked
  exact rows.2 i (mem_range.mpr iInside) j jInside

/-- `coeff.expect("pairwise sum coefficient")`: every diagonal has got its coefficient. -/
theorem diagonals_known (checked : diagonalCoeffs coeffs = some bySum) :
    ∀ coeff ∈ bySum, coeff.isSome = true := by
  intro coeff mem
  obtain ⟨position, here⟩ := mem_iff_getElem?.mp mem
  have extended := (@diagonal_rows_extend coeffs (List.range quotientVmLimbs) _ bySum (length_replicate ..)
    (fun i mem => mem_range.mp mem) checked).1
  have below : position < quotientVmPairwiseCoeffs := by
    have inside := (List.getElem?_eq_some_iff.mp here).1
    rw [extended.1, length_replicate] at inside
    exact inside
  have iInside : min position 6 < quotientVmLimbs := by
    unfold quotientVmLimbs
    omega
  have jInside : position - min position 6 < quotientVmLimbs := by
    unfold quotientVmLimbs quotientVmPairwiseCoeffs at *
    omega
  have found := diagonal_coeffs_known checked iInside jInside
  rw [Nat.add_sub_of_le (Nat.min_le_left position 6), here] at found
  cases found
  rfl

def encodeDiagonals (bySum : List (Option Fq)) (known : ∀ coeff ∈ bySum, coeff.isSome = true) : List Nat :=
  bySum.attach.map fun coeff => quotientFqToU256 (coeff.val.get (known coeff.val coeff.property))

/-- Try one ordered pair of bases on a full grid: every pair must lie in it. -/
def pairwiseWithBases (pairs : List Pair) (lhsBase rhsBase : Nat) : Option QuotientLimbShape := do
  let grid ← pairs.foldlM (fun grid (coeff, lhs, rhs) => do
    let cell ← gridCell lhsBase rhsBase lhs rhs
    return Grid.record grid cell coeff) Grid.empty
  if grid.seen.any (! ·) then none
  else match checked : diagonalCoeffs grid.coeffs with
    | none => none
    | some bySum => some (.bilin7Pairwise lhsBase rhsBase (encodeDiagonals bySum (diagonals_known checked)))

/-- `for lhs_base in &bases { for rhs_base in &bases { .. } }` with early return. -/
def findBases {Found : Type} (bases : List Nat) (attempt : Nat → Nat → Option Found) :
    Option Found :=
  bases.findSome? fun lhsBase => bases.findSome? fun rhsBase => attempt lhsBase rhsBase

def pairPtrs (pairs : List Pair) : List Nat := pairs.flatMap fun (_, lhs, rhs) => [lhs, rhs]

/-- Recognize a full seven-by-seven foreign-field product convolution. -/
def tryQuotientBilin7PairwiseShape (terms : Terms) : Option QuotientLimbShape := do
  let pairs ← collectPairs terms
  if pairs.length ≠ quotientVmPairwiseTerms then none
  else findBases (limb7BaseCandidates (pairPtrs pairs)) (pairwiseWithBases pairs)

/-- Recognize any supported seven-limb foreign-field quotient shape. -/
def quotientLimbShape (expr : QuotientExpr) : Option QuotientLimbShape := do
  let terms := retainNonzero (← collectQuotientSumTerms expr 1 [])
  tryQuotientBilin7PairwiseShape terms <|> tryQuotientBilin7RowShape terms <|>
    tryQuotientLin7Shape terms

/-- The single-memory terms with their positions. -/
def indexedMemTerms (terms : Terms) : List (Nat × Nat × Fq) :=
  terms.zipIdx.filterMap fun ((coeff, expr), idx) =>
    (quotientMemTerm expr).map fun (innerCoeff, ptr) => (idx, ptr, coeff * innerCoeff)

def indexedPairs (terms : Terms) : List (Nat × Pair) :=
  terms.zipIdx.filterMap fun ((coeff, expr), idx) =>
    (quotientProductMemPair expr).map fun (innerCoeff, lhs, rhs) =>
      (idx, coeff * innerCoeff, lhs, rhs)

/-- One limb of the window: its summed coefficient and the terms it uses. -/
def limbTerms (memTerms : List (Nat × Nat × Fq)) (ptr : Nat) : List (Nat × Nat × Fq) :=
  memTerms.filter (·.2.1 = ptr)

def lin7WithBase (memTerms : List (Nat × Nat × Fq)) (base : Nat) :
    Option (QuotientLimbShape × List Nat) :=
  let limbs := (List.range quotientVmLimbs).map fun limb => base + limb * 32
  if limbs.any fun ptr => (limbTerms memTerms ptr).isEmpty then none
  else
    let grouped := nonzeroGroups
      (limbs.map fun ptr => (ptr, ((limbTerms memTerms ptr).map (·.2.2)).sum))
    let used := limbs.flatMap fun ptr => (limbTerms memTerms ptr).map (·.1)
    if grouped.length = quotientVmLimbs ∧ quotientVmLimbs ≤ used.length then
      some (.lin7 (encodeGroups grouped), used)
    else none

/-- Find a complete seven-limb linear subshape inside a larger affine sum. -/
def tryQuotientLin7Subshape (terms : Terms) : Option (QuotientLimbShape × List Nat) :=
  let memTerms := indexedMemTerms terms
  (limb7BaseCandidates (memTerms.map (·.2.1))).findSome? (lin7WithBase memTerms)

def rowSubshapeWithCandidate (pairs : List (Nat × Pair)) (candidate : Nat) :
    Option (QuotientLimbShape × List Nat) :=
  let matching := pairs.filterMap fun (idx, coeff, lhs, rhs) =>
    (otherFactor candidate lhs rhs).map fun other => (idx, other, coeff)
  let grouped := nonzeroGroups
    (matching.foldl (fun grouped (_, other, coeff) => addGroupedLimbCoeff grouped other coeff) [])
  let used := matching.map (·.1)
  if grouped.length = quotientVmLimbs ∧ quotientVmLimbs ≤ used.length then
    some (.bilin7Row candidate (encodeGroups grouped), used)
  else none

def tryQuotientBilin7RowSubshape (terms : Terms) : Option (QuotientLimbShape × List Nat) :=
  let pairs := indexedPairs terms
  ((pairPtrs (pairs.map (·.2))).dedup.insertionSort (· ≤ ·)).findSome?
    (rowSubshapeWithCandidate pairs)

def pairwiseSubshapeWithBases (pairs : List (Nat × Pair)) (lhsBase rhsBase : Nat) :
    Option (QuotientLimbShape × List Nat) :=
  let cells := pairs.filterMap fun (idx, coeff, lhs, rhs) =>
    (gridCell lhsBase rhsBase lhs rhs).map fun cell => (idx, cell, coeff)
  let grid := cells.foldl (fun grid (_, cell, coeff) => Grid.record grid cell coeff) Grid.empty
  let used := cells.map (·.1)
  if grid.seen.any (! ·) then none
  else match checked : diagonalCoeffs grid.coeffs with
    | none => none
    | some bySum =>
      if quotientVmPairwiseTerms ≤ used.length then
        some (.bilin7Pairwise lhsBase rhsBase (encodeDiagonals bySum (diagonals_known checked)), used)
      else none

/-- Find a full 7x7 pairwise product grid inside a larger affine sum. -/
def tryQuotientBilin7PairwiseSubshape (terms : Terms) : Option (QuotientLimbShape × List Nat) :=
  let pairs := indexedPairs terms
  findBases (limb7BaseCandidates (pairPtrs (pairs.map (·.2)))) (pairwiseSubshapeWithBases pairs)

def removeQuotientTerms (terms : Terms) (used : List Nat) : Terms :=
  (terms.zipIdx.filter fun entry => ! used.contains entry.2).map (·.1)

/-- Attach a scalar coefficient to a term, eliding multiplication by one. -/
def quotientScaledTermExpr (coeff : Fq) (expr : QuotientExpr) : QuotientExpr :=
  if coeff = 1 then expr else .mul (.const (quotientFqToU256 coeff)) expr

/-- Extract one limb shape from a larger affine sum and return the residue. -/
def quotientLimbSubshape (expr : QuotientExpr) : Option (QuotientLimbShape × QuotientExpr) := do
  let (terms, constant) ← collectQuotientAffineTerms expr 1 ([], 0)
  let terms := retainNonzero terms
  if terms.length ≤ quotientVmLimbs ∧ constant = 0 then none
  else
    let (shape, used) ← tryQuotientBilin7PairwiseSubshape terms <|>
      tryQuotientBilin7RowSubshape terms <|> tryQuotientLin7Subshape terms
    if used = [] ∨ used.length = terms.length ∧ constant = 0 then none
    else
      let residue := (removeQuotientTerms terms used).foldl (fun residue (coeff, term) =>
        .add residue (quotientScaledTermExpr coeff term)) (.const (quotientFqToU256 constant))
      return (shape, residue)

def UsesPositions (terms : Terms) (found : Option (QuotientLimbShape × List Nat)) : Prop :=
  ∀ shape used, found = some (shape, used) → ∀ idx ∈ used, idx < terms.length

theorem pairwise_subshape_used {pairs : List (Nat × Pair)} {lhsBase rhsBase idx : Nat}
    {shape : QuotientLimbShape} {used : List Nat}
    (attempt : pairwiseSubshapeWithBases pairs lhsBase rhsBase = some (shape, used)) (mem : idx ∈ used) :
    ∃ pair ∈ pairs, pair.1 = idx := by
  unfold pairwiseSubshapeWithBases at attempt
  dsimp only at attempt
  split at attempt
  · cases attempt
  · split at attempt
    · cases attempt
    · split at attempt
      · cases attempt
        obtain ⟨entry, listed, rfl⟩ := mem_map.mp mem
        obtain ⟨pair, inPairs, located⟩ := mem_filterMap.mp listed
        obtain ⟨cell, -, rfl⟩ := Option.map_eq_some_iff.mp located
        exact ⟨pair, inPairs, rfl⟩
      · cases attempt

section

variable (terms : Terms)

include terms

theorem indexed_mem_terms_position (entry : Nat × Nat × Fq)
    (mem : entry ∈ indexedMemTerms terms) :
    entry.1 < terms.length := by
  simp only [indexedMemTerms, mem_filterMap, Option.map_eq_some_iff] at mem
  obtain ⟨⟨⟨coeff, expr⟩, idx⟩, listed, ⟨inner, ptr⟩, -, rfl⟩ := mem
  exact (mem_zipIdx' listed).1

theorem indexed_pairs_position (entry : Nat × Pair) (mem : entry ∈ indexedPairs terms) :
    entry.1 < terms.length := by
  simp only [indexedPairs, mem_filterMap, Option.map_eq_some_iff] at mem
  obtain ⟨⟨⟨coeff, expr⟩, idx⟩, listed, ⟨inner, lhs, rhs⟩, -, rfl⟩ := mem
  exact (mem_zipIdx' listed).1

theorem lin7_subshape_positions : UsesPositions terms (tryQuotientLin7Subshape terms) := by
  intro shape used found idx mem
  obtain ⟨base, -, attempt⟩ := exists_of_findSome?_eq_some found
  simp only [lin7WithBase] at attempt
  split at attempt
  · cases attempt
  · split at attempt
    · cases attempt
      obtain ⟨ptr, -, inWindow⟩ := mem_flatMap.mp mem
      obtain ⟨entry, listed, rfl⟩ := mem_map.mp inWindow
      exact indexed_mem_terms_position terms entry (mem_filter.mp listed).1
    · cases attempt

theorem row_subshape_positions : UsesPositions terms (tryQuotientBilin7RowSubshape terms) := by
  intro shape used found idx mem
  obtain ⟨candidate, -, attempt⟩ := exists_of_findSome?_eq_some found
  simp only [rowSubshapeWithCandidate] at attempt
  split at attempt
  · cases attempt
    obtain ⟨entry, listed, rfl⟩ := mem_map.mp mem
    simp only [mem_filterMap, Option.map_eq_some_iff] at listed
    obtain ⟨pair, inPairs, other, -, rfl⟩ := listed
    exact indexed_pairs_position terms pair inPairs
  · cases attempt

theorem pairwise_subshape_positions :
    UsesPositions terms (tryQuotientBilin7PairwiseSubshape terms) := by
  intro shape used found idx mem
  obtain ⟨lhsBase, -, inner⟩ := exists_of_findSome?_eq_some found
  obtain ⟨rhsBase, -, attempt⟩ := exists_of_findSome?_eq_some inner
  obtain ⟨pair, inPairs, rfl⟩ := pairwise_subshape_used attempt mem
  exact indexed_pairs_position terms pair inPairs

theorem remove_terms_shorter (used : List Nat) (nonempty : used ≠ [])
    (positions : ∀ idx ∈ used, idx < terms.length) :
    (removeQuotientTerms terms used).length < terms.length := by
  obtain ⟨idx, mem⟩ := exists_mem_of_ne_nil used nonempty
  have inside := positions idx mem
  have removed : ∃ entry ∈ terms.zipIdx, ¬(! used.contains entry.2) = true := by
    refine ⟨(terms[idx], idx), ?_, by simpa using mem⟩
    exact mem_zipIdx_iff_getElem?.mpr (by simp [getElem?_eq_getElem inside])
  have shorter := length_filter_lt_length_iff_exists.mpr removed
  simpa [removeQuotientTerms] using shorter

end

end Midfall.QuotientExprShapes
