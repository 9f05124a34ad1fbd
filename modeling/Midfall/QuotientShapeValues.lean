import Midfall.ListLoops
import Midfall.QuotientModarith7

/-!
# Values of the recognized quotient shapes

What the shape recognizers find in an expression has the value of the
expression: products factor into a coefficient and memory words, sums into
terms, groups keep their sum, and a sub-shape takes exactly the terms that the
residue leaves out.
-/

namespace Midfall.QuotientShapeValues

open QuotientVmOpcodes QuotientVmInterpreter QuotientExprShapes List
open Option (getD_some map_eq_some_iff)
open ListLoops QuotientModarith7
open ScalarField (scalarModulus)

/-! ### Values -/

section Values

variable (assignment : QuotientMem → Fq)

def word (ptr : Nat) : Fq := assignment (.literal (UInt32.ofNat ptr))

def exprValue : QuotientExpr → Fq
  | .const value => value
  | .mem mem => assignment mem
  | .add lhs rhs => exprValue lhs + exprValue rhs
  | .mul lhs rhs => exprValue lhs * exprValue rhs
  | .neg inner => -exprValue inner

def leafValue : QuotientLeaf → Fq
  | .const value => value
  | .mem mem => assignment mem

/-- `sum of coefficient * word`. -/
def linValue (terms : List (Nat × Nat)) : Fq :=
  (terms.map fun term => (term.1 : Fq) * word assignment term.2).sum

/-- The seven-by-seven convolution; its coefficients depend on `i + j`. -/
def pairwiseValue (lhsBase rhsBase : Nat) (coeffs : List Nat) : Fq :=
  ∑ i ∈ Finset.range quotientVmLimbs, ∑ j ∈ Finset.range quotientVmLimbs,
    (coeffs.getD (i + j) 0 : Fq) *
      (word assignment (lhsBase + i * 32) * word assignment (rhsBase + j * 32))

def limbShapeValue : QuotientLimbShape → Fq
  | .lin7 terms => linValue assignment terms
  | .bilin7Row lhs terms => word assignment lhs * linValue assignment terms
  | .bilin7Pairwise lhsBase rhsBase coeffs => pairwiseValue assignment lhsBase rhsBase coeffs

def productTermsValue (terms : List (Nat × Nat × Nat)) : Fq :=
  (terms.map fun term =>
    (term.1 : Fq) * (word assignment term.2.1 * word assignment term.2.2)).sum

def conditionValue (cond : Option Nat) : Fq :=
  match cond with
  | none => 1
  | some ptr => word assignment ptr

def modarith7ShapeValue (shape : QuotientModarith7Shape) : Fq :=
  conditionValue assignment shape.cond *
    (shape.constant + (shape.lin.map (linValue assignment)).sum +
      (shape.rows.map fun row => word assignment row.1 * linValue assignment row.2).sum +
      (shape.pairwise.map fun block =>
        pairwiseValue assignment block.1 block.2.1 block.2.2).sum +
      linValue assignment shape.memTerms + productTermsValue assignment shape.productTerms)

def termsValue (terms : Terms) : Fq :=
  (terms.map fun term => term.1 * exprValue assignment term.2).sum

def groupsValue (grouped : List (Nat × Fq)) : Fq :=
  (grouped.map fun group => group.2 * word assignment group.1).sum

def productsValue (grouped : List (Nat × Nat × Fq)) : Fq :=
  (grouped.map fun group =>
    group.2.2 * (word assignment group.1 * word assignment group.2.1)).sum

end Values

variable {assignment : QuotientMem → Fq}

theorem fq_from_u256_value {value : Nat} {scalar : Fq}
    (canonical : quotientFqFromU256 value = some scalar) : (value : Fq) = scalar := by
  unfold quotientFqFromU256 at canonical
  split_ifs at canonical
  exact Option.some.inj canonical

instance : NeZero scalarModulus := ⟨by decide⟩

theorem fq_to_u256_value (value : Fq) : (quotientFqToU256 value : Fq) = value := by
  exact ZMod.natCast_zmod_val value

theorem terms_value_append (first later : Terms) :
    termsValue assignment (first ++ later) =
      termsValue assignment first + termsValue assignment later := by
  simp [termsValue]

theorem terms_value_cons (term : Fq × QuotientExpr) (terms : Terms) :
    termsValue assignment (term :: terms) =
      term.1 * exprValue assignment term.2 + termsValue assignment terms := by
  simp [termsValue]

theorem retain_nonzero_value (terms : Terms) :
    termsValue assignment (retainNonzero terms) = termsValue assignment terms := by
  induction terms with
  | nil => rfl
  | cons term terms ih =>
    unfold retainNonzero at ih ⊢
    by_cases zero : term.1 = 0
    · rw [filter_cons_of_neg (by simpa using zero), ih, terms_value_cons, zero, zero_mul,
        zero_add]
    · rw [filter_cons_of_pos (by simpa using zero), terms_value_cons, terms_value_cons, ih]

/-! ### Products -/

variable {expr : QuotientExpr} {coeff termCoeff : Fq} {lhs i : Nat} {terms : Terms}
  {shape : QuotientLimbShape} {coeffs : List Fq} {bySum : List (Option Fq)}

variable {leaves : List QuotientLeaf}

theorem product_leaves_value (collected : collectProductLeaves expr = some leaves) :
    exprValue assignment expr = (leaves.map (leafValue assignment)).prod := by
  induction expr generalizing leaves with
  | const value =>
    cases collected
    simp [exprValue, leafValue]
  | mem mem =>
    cases collected
    simp [exprValue, leafValue]
  | add lhs rhs => cases collected
  | neg inner => cases collected
  | mul lhs rhs lhsIh rhsIh =>
    simp only [collectProductLeaves, bind_some_iff] at collected
    obtain ⟨lhsLeaves, left, rhsLeaves, right, same⟩ := collected
    cases same
    rw [map_append, prod_append, ← lhsIh left, ← rhsIh right]
    rfl

theorem expr_factors_value (expr : QuotientExpr) :
    ((collectProductExprFactors expr).map (exprValue assignment)).prod =
      exprValue assignment expr := by
  induction expr with
  | mul lhs rhs lhsIh rhsIh =>
    rw [collectProductExprFactors, map_append, prod_append, lhsIh, rhsIh]
    rfl
  | const _ | mem _ | add _ _ | neg _ => exact prod_singleton

theorem try_u16_word {ptr : UInt32} {small : Nat} (fits : tryU16 ptr.toNat = some small) :
    assignment (.literal ptr) = word assignment small := by
  unfold tryU16 at fits
  split_ifs at fits
  cases fits
  unfold word
  rw [UInt32.ofNat_toNat]

theorem product_factor_step_value {factors next : Fq × List Nat} {leaf : QuotientLeaf}
    (stepped : productFactorStep factors leaf = some next) :
    next.1 * (next.2.map (word assignment)).prod =
      factors.1 * (factors.2.map (word assignment)).prod * leafValue assignment leaf := by
  cases leaf with
  | const value =>
    simp only [productFactorStep, bind_some_iff] at stepped
    obtain ⟨scalar, canonical, same⟩ := stepped
    cases same
    simp only [leafValue, fq_from_u256_value canonical]
    ring
  | mem mem =>
    cases mem with
    | literal ptr =>
      simp only [productFactorStep, bind_some_iff] at stepped
      obtain ⟨small, fits, same⟩ := stepped
      cases same
      simp only [leafValue, try_u16_word fits, map_append, prod_append,
        map_cons, map_nil, prod_singleton]
      ring
    | token token => cases stepped
    | tokenOffset token offset => cases stepped

theorem product_factors_run_value {factors final : Fq × List Nat}
    (run : leaves.foldlM productFactorStep factors = some final) :
    final.1 * (final.2.map (word assignment)).prod =
      factors.1 * (factors.2.map (word assignment)).prod *
        (leaves.map (leafValue assignment)).prod := by
  induction leaves generalizing factors with
  | nil =>
    cases run
    simp
  | cons leaf leaves ih =>
    rw [foldlM_cons, bind_some_iff] at run
    obtain ⟨next, stepped, later⟩ := run
    rw [ih later, product_factor_step_value stepped, map_cons, prod_cons]
    ring

theorem product_mem_factors_value {ptrs : List Nat}
    (factored : quotientProductMemFactors expr = some (coeff, ptrs)) :
    exprValue assignment expr = coeff * (ptrs.map (word assignment)).prod := by
  unfold quotientProductMemFactors at factored
  rw [bind_some_iff] at factored
  obtain ⟨leaves, collected, run⟩ := factored
  rw [product_leaves_value collected, product_factors_run_value run]
  simp

theorem mem_term_value {ptr : Nat} (found : quotientMemTerm expr = some (coeff, ptr)) :
    exprValue assignment expr = coeff * word assignment ptr := by
  unfold quotientMemTerm at found
  split at found
  · rename_i factored
    cases found
    rw [product_mem_factors_value factored]
    simp
  · cases found

theorem product_mem_pair_value {rhs : Nat}
    (found : quotientProductMemPair expr = some (coeff, lhs, rhs)) :
    exprValue assignment expr = coeff * (word assignment lhs * word assignment rhs) := by
  unfold quotientProductMemPair at found
  split at found
  · rename_i factored
    cases found
    rw [product_mem_factors_value factored]
    simp
  · cases found

/-! ### Sums -/

theorem affine_terms_value {expr : QuotientExpr} {coeff : Fq} {acc final : Terms × Fq}
    (collected : collectQuotientAffineTerms expr coeff acc = some final) :
    termsValue assignment final.1 + final.2 =
      termsValue assignment acc.1 + acc.2 + coeff * exprValue assignment expr := by
  fun_induction collectQuotientAffineTerms expr coeff acc generalizing final with
  | case1 expr acc =>
    cases collected
    rw [zero_mul, add_zero]
  | case2 coeff acc nonzero lhs rhs lhsIh rhsIh =>
    obtain ⟨middle, left, right⟩ := bind_some_iff.mp collected
    rw [rhsIh _ right, lhsIh left, exprValue]
    ring
  | case3 coeff acc nonzero inner ih =>
    rw [ih collected, exprValue]
    ring
  | case4 coeff acc nonzero value rhs ih =>
    obtain ⟨scalar, canonical, rest⟩ := bind_some_iff.mp collected
    rw [ih scalar rest, exprValue, exprValue, fq_from_u256_value canonical]
    ring
  | case5 coeff acc nonzero lhs value other ih =>
    obtain ⟨scalar, canonical, rest⟩ := bind_some_iff.mp collected
    rw [ih scalar rest, exprValue, exprValue, fq_from_u256_value canonical]
    ring
  | case6 coeff acc nonzero lhs rhs otherLhs otherRhs =>
    cases collected
    rw [terms_value_append, terms_value_cons]
    simp only [termsValue, map_nil, sum_nil]
    ring
  | case7 coeff acc nonzero value =>
    obtain ⟨scalar, canonical, same⟩ := bind_some_iff.mp collected
    cases same
    rw [exprValue, fq_from_u256_value canonical, add_assoc]
  | case8 coeff acc nonzero mem =>
    cases collected
    rw [terms_value_append, terms_value_cons]
    simp only [termsValue, map_nil, sum_nil]
    ring

theorem sum_terms_affine {final : Terms}
    (collected : collectQuotientSumTerms expr coeff terms = some final) (constant : Fq) :
    collectQuotientAffineTerms expr coeff (terms, constant) = some (final, constant) := by
  fun_induction collectQuotientSumTerms expr coeff terms generalizing final with
  | case1 expr terms =>
    cases collected
    unfold collectQuotientAffineTerms
    rw [if_pos rfl]
  | case2 coeff terms nonzero lhs rhs lhsIh rhsIh =>
    obtain ⟨middle, left, right⟩ := bind_some_iff.mp collected
    simp only [collectQuotientAffineTerms, if_neg nonzero, Option.bind_eq_bind, lhsIh left,
      Option.bind_some, rhsIh _ right]
  | case3 coeff terms nonzero inner ih =>
    simp only [collectQuotientAffineTerms, if_neg nonzero, ih collected]
  | case4 coeff terms nonzero value rhs ih =>
    obtain ⟨scalar, canonical, rest⟩ := bind_some_iff.mp collected
    simp only [collectQuotientAffineTerms, if_neg nonzero, canonical, some_bind, ih scalar rest]
  | case5 coeff terms nonzero lhs value other ih =>
    obtain ⟨scalar, canonical, rest⟩ := bind_some_iff.mp collected
    simp only [collectQuotientAffineTerms, if_neg nonzero, canonical, some_bind, ih scalar rest]
  | case6 coeff terms nonzero lhs rhs otherLhs otherRhs =>
    cases collected
    simp only [collectQuotientAffineTerms, if_neg nonzero]
  | case7 coeff terms nonzero value =>
    obtain ⟨scalar, canonical, vanishing⟩ := bind_some_iff.mp collected
    split_ifs at vanishing with zero
    cases vanishing
    simp [collectQuotientAffineTerms, canonical, zero]
  | case8 coeff terms nonzero mem =>
    cases collected
    simp only [collectQuotientAffineTerms, if_neg nonzero]

theorem sum_terms_value (collected : collectQuotientSumTerms expr coeff [] = some terms) :
    termsValue assignment terms = coeff * exprValue assignment expr := by
  have value := @affine_terms_value assignment _ _ _ _ (sum_terms_affine collected 0)
  simpa [termsValue] using value

/-! ### Groups -/

theorem add_grouped_limb_coeff_value (grouped : List (Nat × Fq)) (ptr : Nat) (coeff : Fq) :
    groupsValue assignment (addGroupedLimbCoeff grouped ptr coeff) =
      groupsValue assignment grouped + coeff * word assignment ptr := by
  induction grouped with
  | nil => simp [addGroupedLimbCoeff, groupsValue]
  | cons group grouped ih =>
    obtain ⟨existing, total⟩ := group
    unfold addGroupedLimbCoeff
    by_cases same : existing = ptr
    · rw [if_pos same]
      simp only [groupsValue, map_cons, sum_cons, same]
      ring
    · rw [if_neg same]
      simp only [groupsValue, map_cons, sum_cons] at ih ⊢
      rw [ih]
      ring

theorem find_add_product_value (grouped : List (Nat × Nat × Fq)) (lhs rhs : Nat) (coeff : Fq) :
    productsValue assignment (findAddProduct grouped lhs rhs coeff) =
      productsValue assignment grouped +
        coeff * (word assignment lhs * word assignment rhs) := by
  induction grouped with
  | nil => simp [findAddProduct, productsValue]
  | cons group grouped ih =>
    obtain ⟨existingLhs, existingRhs, total⟩ := group
    unfold findAddProduct
    by_cases same : existingLhs = lhs ∧ existingRhs = rhs
    · rw [if_pos same]
      simp only [productsValue, map_cons, sum_cons, same.1, same.2]
      ring
    · rw [if_neg same]
      simp only [productsValue, map_cons, sum_cons] at ih ⊢
      rw [ih]
      ring

theorem add_grouped_product_coeff_value (grouped : List (Nat × Nat × Fq)) (lhs rhs : Nat)
    (coeff : Fq) :
    productsValue assignment (addGroupedProductCoeff grouped lhs rhs coeff) =
      productsValue assignment grouped +
        coeff * (word assignment lhs * word assignment rhs) := by
  unfold addGroupedProductCoeff
  split_ifs
  · exact find_add_product_value grouped lhs rhs coeff
  · rw [find_add_product_value, mul_comm (word assignment rhs)]

theorem sum_filter_nonzero {Entry : Type} (coeff weight : Entry → Fq) (entries : List Entry) :
    ((entries.filter fun entry => coeff entry ≠ 0).map fun entry =>
        coeff entry * weight entry).sum =
      (entries.map fun entry => coeff entry * weight entry).sum := by
  induction entries with
  | nil => rfl
  | cons entry entries ih =>
    by_cases zero : coeff entry = 0
    · rw [filter_cons_of_neg (by simpa using zero), ih, map_cons, sum_cons, zero,
        zero_mul, zero_add]
    · rw [filter_cons_of_pos (by simpa using zero), map_cons, sum_cons, ih,
        map_cons, sum_cons]

theorem nonzero_groups_value (grouped : List (Nat × Fq)) :
    groupsValue assignment (nonzeroGroups grouped) = groupsValue assignment grouped := by
  exact sum_filter_nonzero (fun group : Nat × Fq => group.2)
    (fun group => word assignment group.1) grouped

theorem nonzero_products_value (grouped : List (Nat × Nat × Fq)) :
    productsValue assignment (nonzeroProducts grouped) = productsValue assignment grouped := by
  exact sum_filter_nonzero (fun group : Nat × Nat × Fq => group.2.2)
    (fun group => word assignment group.1 * word assignment group.2.1) grouped

theorem encode_groups_value (grouped : List (Nat × Fq)) :
    linValue assignment (encodeGroups grouped) = groupsValue assignment grouped := by
  unfold linValue encodeGroups groupsValue
  rw [map_map]
  have reordered := (perm_insertionSort (fun left right : Nat × Fq => left.1 ≤ right.1)
    grouped).map fun group => group.2 * word assignment group.1
  rw [← reordered.sum_eq]
  congr 1
  apply map_congr_left
  intro group mem
  simp only [Function.comp_apply, fq_to_u256_value]

theorem encode_products_value (grouped : List (Nat × Nat × Fq)) :
    productTermsValue assignment (encodeProducts grouped) = productsValue assignment grouped := by
  unfold productTermsValue encodeProducts productsValue
  rw [map_map]
  have reordered := (perm_insertionSort (fun left right : Nat × Nat × Fq =>
    left.1 < right.1 ∨ left.1 = right.1 ∧ left.2.1 ≤ right.2.1) grouped).map
      fun group => group.2.2 * (word assignment group.1 * word assignment group.2.1)
  rw [← reordered.sum_eq]
  congr 1
  apply map_congr_left
  intro group mem
  simp only [Function.comp_apply, fq_to_u256_value]

/-! ### Whole limb shapes -/

theorem map_m_sum {Input Output : Type} {step : Input → Option Output} {before : Input → Fq}
    {after : Output → Fq}
    (keeps : ∀ input output, step input = some output → after output = before input)
    {inputs : List Input} {outputs : List Output} (mapped : inputs.mapM step = some outputs) :
    (outputs.map after).sum = (inputs.map before).sum := by
  induction inputs generalizing outputs with
  | nil =>
    cases mapped
    rfl
  | cons input inputs ih =>
    rw [mapM_cons, bind_some_iff] at mapped
    obtain ⟨output, stepped, rest⟩ := mapped
    obtain ⟨later, mappedLater, same⟩ := bind_some_iff.mp rest
    cases same
    rw [map_cons, sum_cons, map_cons, sum_cons, keeps input output stepped, ih mappedLater]

theorem group_all_value (memTerms : List (Nat × Fq)) (grouped : List (Nat × Fq)) :
    groupsValue assignment (memTerms.foldl (fun grouped term =>
        addGroupedLimbCoeff grouped term.1 term.2) grouped) =
      groupsValue assignment grouped + groupsValue assignment memTerms := by
  induction memTerms generalizing grouped with
  | nil => simp [groupsValue]
  | cons term memTerms ih =>
    rw [foldl_cons, ih, add_grouped_limb_coeff_value]
    simp only [groupsValue, map_cons, sum_cons]
    ring

theorem lin7_shape_value {terms : Terms} {shape : QuotientLimbShape}
    (found : tryQuotientLin7Shape terms = some shape) :
    ∃ linTerms, shape = .lin7 linTerms ∧
      linValue assignment linTerms = termsValue assignment terms := by
  unfold tryQuotientLin7Shape at found
  rw [bind_some_iff] at found
  obtain ⟨memTerms, collected, found⟩ := found
  dsimp only at found
  split_ifs at found
  cases found
  refine ⟨_, rfl, ?_⟩
  have grouped := @group_all_value assignment memTerms []
  have kept : groupsValue assignment memTerms = termsValue assignment terms := by
    apply map_m_sum _ collected
    intro term memTerm stepped
    obtain ⟨inner, factored, same⟩ := bind_some_iff.mp stepped
    cases same
    rw [mem_term_value factored, mul_assoc]
  rw [encode_groups_value, nonzero_groups_value]
  refine Eq.trans grouped ?_
  rw [kept]
  exact zero_add _

def pairValue (assignment : QuotientMem → Fq) (pair : Pair) : Fq :=
  pair.1 * (word assignment pair.2.1 * word assignment pair.2.2)

theorem pairs_value {pairs : List Pair} (collected : collectPairs terms = some pairs) :
    (pairs.map (pairValue assignment)).sum = termsValue assignment terms := by
  apply map_m_sum _ collected
  intro term pair stepped
  obtain ⟨inner, factored, same⟩ := bind_some_iff.mp stepped
  cases same
  rw [pairValue, product_mem_pair_value factored, mul_assoc]

theorem other_factor_value {candidate lhs rhs other : Nat}
    (found : otherFactor candidate lhs rhs = some other) :
    word assignment candidate * word assignment other = word assignment lhs * word assignment rhs := by
  unfold otherFactor at found
  split_ifs at found with left right
  · cases found
    rw [left]
  · cases found
    rw [right, mul_comm]

theorem row_groups_value {candidate : Nat} {pairs : List Pair} {start grouped : List (Nat × Fq)}
    (run : pairs.foldlM (fun grouped pair => do
      let other ← otherFactor candidate pair.2.1 pair.2.2
      return addGroupedLimbCoeff grouped other pair.1) start = some grouped) :
    word assignment candidate * groupsValue assignment grouped =
      word assignment candidate * groupsValue assignment start +
        (pairs.map (pairValue assignment)).sum := by
  induction pairs generalizing start with
  | nil =>
    cases run
    simp
  | cons pair pairs ih =>
    rw [foldlM_cons, bind_some_iff] at run
    obtain ⟨next, stepped, later⟩ := run
    obtain ⟨other, factored, same⟩ := bind_some_iff.mp stepped
    cases same
    have factors := @other_factor_value assignment _ _ _ _ factored
    rw [ih later, add_grouped_limb_coeff_value, map_cons, sum_cons, pairValue, ← factors]
    ring

theorem row_shape_value (found : tryQuotientBilin7RowShape terms = some shape) :
    limbShapeValue assignment shape = termsValue assignment terms := by
  unfold tryQuotientBilin7RowShape at found
  rw [bind_some_iff] at found
  obtain ⟨pairs, collected, found⟩ := found
  split_ifs at found
  split at found
  · obtain ⟨candidate, -, attempt⟩ := exists_of_findSome?_eq_some found
    unfold rowWithCandidate at attempt
    rw [bind_some_iff] at attempt
    obtain ⟨grouped, run, attempt⟩ := attempt
    dsimp only at attempt
    split_ifs at attempt
    cases attempt
    have value := @row_groups_value assignment _ _ _ _ run
    rw [limbShapeValue, encode_groups_value, nonzero_groups_value, value, pairs_value collected]
    simp [groupsValue]
  · cases found

/-! ### Grids -/

theorem or_else_some {Found : Type} {first second : Option Found} {found : Found}
    (result : (first <|> second) = some found) : first = some found ∨ second = some found := by
  cases first with
  | none => exact Or.inr result
  | some other => exact Or.inl result

theorem limb7_index_eq {base ptr limb : Nat} (found : limb7Index base ptr = some limb) :
    ptr = base + limb * 32 ∧ limb < quotientVmLimbs := by
  unfold limb7Index at found
  split_ifs at found with below aligned inside
  cases found
  constructor
  · omega
  · exact inside

theorem grid_cell_value {lhsBase rhsBase lhs rhs : Nat} {cell : Nat × Nat}
    (found : gridCell lhsBase rhsBase lhs rhs = some cell) :
    word assignment lhs * word assignment rhs =
      word assignment (lhsBase + cell.1 * 32) * word assignment (rhsBase + cell.2 * 32) ∧
    cell.1 < quotientVmLimbs ∧ cell.2 < quotientVmLimbs := by
  have both : ∀ {left right : Nat}, ((limb7Index lhsBase left).bind fun i =>
      (limb7Index rhsBase right).map fun j => (i, j)) = some cell →
        left = lhsBase + cell.1 * 32 ∧ right = rhsBase + cell.2 * 32 ∧
          cell.1 < quotientVmLimbs ∧ cell.2 < quotientVmLimbs := by
    intro left right paired
    obtain ⟨i, first, paired⟩ := bind_some_iff.mp paired
    obtain ⟨j, second, rfl⟩ := map_eq_some_iff.mp paired
    obtain ⟨leftEq, leftBound⟩ := limb7_index_eq first
    obtain ⟨rightEq, rightBound⟩ := limb7_index_eq second
    exact ⟨leftEq, rightEq, leftBound, rightBound⟩
  unfold gridCell at found
  rcases or_else_some found with direct | swapped
  · obtain ⟨rfl, rfl, bounds⟩ := both direct
    exact ⟨rfl, bounds⟩
  · obtain ⟨rfl, rfl, bounds⟩ := both swapped
    exact ⟨mul_comm _ _, bounds⟩

def gridValue (assignment : QuotientMem → Fq) (lhsBase rhsBase : Nat) (coeffs : List Fq) : Fq :=
  ∑ i ∈ Finset.range quotientVmLimbs, ∑ j ∈ Finset.range quotientVmLimbs,
    coeffs.getD (i * quotientVmLimbs + j) 0 *
      (word assignment (lhsBase + i * 32) * word assignment (rhsBase + j * 32))

theorem cell_sum {cell : Nat × Nat}
    (inside : cell.1 < quotientVmLimbs ∧ cell.2 < quotientVmLimbs) (coeff : Fq)
    (weight : Nat → Nat → Fq) :
    (∑ i ∈ Finset.range quotientVmLimbs, ∑ j ∈ Finset.range quotientVmLimbs,
      (if i = cell.1 ∧ j = cell.2 then coeff else 0) * weight i j) =
        coeff * weight cell.1 cell.2 := by
  rw [Finset.sum_eq_single cell.1, Finset.sum_eq_single cell.2]
  · rw [if_pos ⟨rfl, rfl⟩]
  · intro j _ apart
    rw [if_neg fun same => apart same.2, zero_mul]
  · intro outside
    exact absurd (Finset.mem_range.mpr inside.2) outside
  · intro i _ apart
    apply Finset.sum_eq_zero
    intro j _
    rw [if_neg fun same => apart same.1, zero_mul]
  · intro outside
    exact absurd (Finset.mem_range.mpr inside.1) outside

theorem grid_record_value {lhsBase rhsBase : Nat} {grid : Grid} {cell : Nat × Nat}
    (full : grid.coeffs.length = quotientVmPairwiseTerms)
    (inside : cell.1 < quotientVmLimbs ∧ cell.2 < quotientVmLimbs) (coeff : Fq) :
    gridValue assignment lhsBase rhsBase (grid.record cell coeff).coeffs =
      gridValue assignment lhsBase rhsBase grid.coeffs +
        coeff * (word assignment (lhsBase + cell.1 * 32) *
          word assignment (rhsBase + cell.2 * 32)) := by
  have entry : ∀ i j, i < quotientVmLimbs → j < quotientVmLimbs →
      (grid.record cell coeff).coeffs.getD (i * quotientVmLimbs + j) 0 =
        grid.coeffs.getD (i * quotientVmLimbs + j) 0 +
          if i = cell.1 ∧ j = cell.2 then coeff else 0 := by
    intro i j iInside jInside
    have position : i * quotientVmLimbs + j < grid.coeffs.length := by
      rw [full]
      simp only [quotientVmLimbs, quotientVmPairwiseTerms] at iInside jInside ⊢
      omega
    have same : cell.1 * quotientVmLimbs + cell.2 = i * quotientVmLimbs + j ↔
        i = cell.1 ∧ j = cell.2 := by
      obtain ⟨first, second⟩ := inside
      simp only [quotientVmLimbs] at iInside jInside first second ⊢
      omega
    simp only [Grid.record, getD_eq_getElem?_getD, getElem?_modify,
      getElem?_eq_getElem position, getD_some, same]
    split_ifs <;> simp
  unfold gridValue
  rw [← cell_sum inside coeff fun i j =>
    word assignment (lhsBase + i * 32) * word assignment (rhsBase + j * 32),
    ← Finset.sum_add_distrib]
  apply Finset.sum_congr rfl
  intro i iInside
  rw [← Finset.sum_add_distrib]
  apply Finset.sum_congr rfl
  intro j jInside
  rw [entry i j (Finset.mem_range.mp iInside) (Finset.mem_range.mp jInside), add_mul]

theorem grid_records_value {Entry : Type} {lhsBase rhsBase : Nat}
    (cellOf : Entry → Nat × Nat) (coeffOf : Entry → Fq) (entries : List Entry)
    (inside : ∀ entry ∈ entries, (cellOf entry).1 < quotientVmLimbs ∧
      (cellOf entry).2 < quotientVmLimbs) {grid : Grid}
    (full : grid.coeffs.length = quotientVmPairwiseTerms) :
    gridValue assignment lhsBase rhsBase (entries.foldl (fun grid entry =>
        grid.record (cellOf entry) (coeffOf entry)) grid).coeffs =
      gridValue assignment lhsBase rhsBase grid.coeffs +
        (entries.map fun entry => coeffOf entry *
          (word assignment (lhsBase + (cellOf entry).1 * 32) *
            word assignment (rhsBase + (cellOf entry).2 * 32))).sum := by
  induction entries generalizing grid with
  | nil => simp
  | cons entry entries ih =>
    have kept : (grid.record (cellOf entry) (coeffOf entry)).coeffs.length =
        quotientVmPairwiseTerms := by
      simpa [Grid.record] using full
    rw [foldl_cons, ih (forall_mem_cons.mp inside).2 kept,
      grid_record_value full (inside entry mem_cons_self), map_cons, sum_cons, add_assoc]

theorem empty_grid_value (lhsBase rhsBase : Nat) :
    gridValue assignment lhsBase rhsBase Grid.empty.coeffs = 0 := by
  unfold gridValue
  apply Finset.sum_eq_zero
  intro i _
  apply Finset.sum_eq_zero
  intro j _
  have entry : Grid.empty.coeffs.getD (i * quotientVmLimbs + j) 0 = 0 := by
    simp only [Grid.empty, getD_eq_getElem?_getD, getElem?_replicate]
    split_ifs <;> rfl
  rw [entry, zero_mul]

/-! ### Diagonals -/

theorem diagonals_value (checked : diagonalCoeffs coeffs = some bySum) (lhsBase rhsBase : Nat) :
    pairwiseValue assignment lhsBase rhsBase (encodeDiagonals bySum (diagonals_known checked)) =
      gridValue assignment lhsBase rhsBase coeffs := by
  unfold pairwiseValue gridValue
  apply Finset.sum_congr rfl
  intro i iInside
  apply Finset.sum_congr rfl
  intro j jInside
  have known := diagonal_coeffs_known checked (Finset.mem_range.mp iInside)
    (Finset.mem_range.mp jInside)
  have entry : (encodeDiagonals bySum (diagonals_known checked))[i + j]? =
      some (quotientFqToU256 (coeffs.getD (i * quotientVmLimbs + j) 0)) := by
    obtain ⟨below, here⟩ := List.getElem?_eq_some_iff.mp known
    simp [encodeDiagonals, below, here]
  rw [getD_eq_getElem?_getD, entry, getD_some, fq_to_u256_value]

/-- A filled grid with matching diagonals has the value of the recorded pairs. -/
theorem pairwise_bases_run {pairs : List Pair} {lhsBase rhsBase : Nat} {start grid : Grid}
    (full : start.coeffs.length = quotientVmPairwiseTerms)
    (run : pairs.foldlM (fun grid pair => do
      let cell ← gridCell lhsBase rhsBase pair.2.1 pair.2.2
      return Grid.record grid cell pair.1) start = some grid) :
    gridValue assignment lhsBase rhsBase grid.coeffs =
      gridValue assignment lhsBase rhsBase start.coeffs +
        (pairs.map (pairValue assignment)).sum := by
  induction pairs generalizing start with
  | nil =>
    cases run
    simp
  | cons pair pairs ih =>
    rw [foldlM_cons, bind_some_iff] at run
    obtain ⟨next, stepped, later⟩ := run
    obtain ⟨cell, located, same⟩ := bind_some_iff.mp stepped
    cases same
    obtain ⟨words, inside⟩ := @grid_cell_value assignment _ _ _ _ _ located
    have kept : (start.record cell pair.1).coeffs.length = quotientVmPairwiseTerms := by
      simpa [Grid.record] using full
    rw [ih kept later, grid_record_value full inside, map_cons, sum_cons, pairValue,
      words, add_assoc]

theorem pairwise_shape_value (found : tryQuotientBilin7PairwiseShape terms = some shape) :
    limbShapeValue assignment shape = termsValue assignment terms := by
  unfold tryQuotientBilin7PairwiseShape at found
  rw [bind_some_iff] at found
  obtain ⟨pairs, collected, found⟩ := found
  split_ifs at found
  obtain ⟨lhsBase, -, inner⟩ := exists_of_findSome?_eq_some found
  obtain ⟨rhsBase, -, attempt⟩ := exists_of_findSome?_eq_some inner
  unfold pairwiseWithBases at attempt
  rw [bind_some_iff] at attempt
  obtain ⟨grid, run, attempt⟩ := attempt
  split_ifs at attempt
  split at attempt
  · cases attempt
  rename_i bySum checked
  cases attempt
  have value := @pairwise_bases_run assignment _ _ _ _ _ (length_replicate ..) run
  rw [limbShapeValue, diagonals_value checked, value, empty_grid_value, zero_add,
    pairs_value collected]

theorem limb_shape_value (found : quotientLimbShape expr = some shape) :
    limbShapeValue assignment shape = exprValue assignment expr := by
  unfold quotientLimbShape at found
  rw [bind_some_iff] at found
  obtain ⟨terms, collected, found⟩ := found
  have whole : termsValue assignment (retainNonzero terms) = exprValue assignment expr := by
    rw [retain_nonzero_value, sum_terms_value collected, one_mul]
  rw [← whole]
  rcases or_else_some found with pairwise | found
  · exact pairwise_shape_value pairwise
  rcases or_else_some found with row | lin
  · exact row_shape_value row
  · obtain ⟨linTerms, rfl, value⟩ := @lin7_shape_value assignment _ _ lin
    exact value

/-! ### Picked terms -/

theorem picked_value {Entry : Type} (value : Entry → Fq) {entries : List (Entry × Nat)}
    (distinct : (entries.map (·.2)).Nodup) {picks : List (Nat × Fq)}
    (picked : (picks.map (·.1)).Nodup)
    (known : ∀ pick ∈ picks, ∃ entry, (entry, pick.1) ∈ entries ∧ value entry = pick.2) :
    (entries.map fun entry => value entry.1).sum =
      (picks.map (·.2)).sum +
        ((entries.filter fun entry => ! (picks.map (·.1)).contains entry.2).map
          fun entry => value entry.1).sum := by
  induction entries generalizing picks with
  | nil =>
    cases picks with
    | nil => simp
    | cons pick picks =>
      obtain ⟨entry, absent, -⟩ := known pick mem_cons_self
      cases absent
  | cons first entries ih =>
    rw [map_cons, nodup_cons] at distinct
    by_cases here : first.2 ∈ picks.map (·.1)
    · obtain ⟨pick, inPicks, index⟩ := mem_map.mp here
      have reordered : picks.Perm (pick :: picks.erase pick) := perm_cons_erase inPicks
      have restDistinct := (reordered.map (·.1)).nodup_iff.mp picked
      rw [map_cons, nodup_cons] at restDistinct
      have apart : ∀ {entry : Entry × Nat}, entry ∈ entries → entry.2 ≠ pick.1 := by
        intro entry mem same
        apply distinct.1
        rw [← index, ← same]
        exact mem_map_of_mem mem
      have later := ih distinct.2 restDistinct.2 (by
        intro other mem
        obtain ⟨entry, listed, worth⟩ := known other (mem_of_mem_erase mem)
        rcases mem_cons.mp listed with same | listed
        · exfalso
          apply restDistinct.1
          have number : other.1 = first.2 := congrArg Prod.snd same
          rw [index, ← number]
          exact mem_map_of_mem mem
        · exact ⟨entry, listed, worth⟩)
      have worth : value first.1 = pick.2 := by
        obtain ⟨entry, listed, worth⟩ := known pick inPicks
        rcases mem_cons.mp listed with same | listed
        · rw [← same]
          exact worth
        · exact absurd rfl (apart listed)
      have left : entries.filter (fun entry => ! (picks.map (·.1)).contains entry.2) =
          entries.filter fun entry => ! ((picks.erase pick).map (·.1)).contains entry.2 := by
        apply filter_congr
        intro entry mem
        congr 1
        have sameMembers := (reordered.map (·.1)).mem_iff (a := entry.2)
        rw [map_cons, mem_cons] at sameMembers
        rw [Bool.eq_iff_iff, contains_iff_mem, contains_iff_mem, sameMembers]
        exact or_iff_right (apart mem)
      rw [map_cons, sum_cons, later, filter_cons_of_neg (by simpa using here), left,
        (reordered.map (·.2)).sum_eq, map_cons, sum_cons, worth, add_assoc]
    · have later := ih distinct.2 picked (by
        intro pick mem
        obtain ⟨entry, listed, worth⟩ := known pick mem
        rcases mem_cons.mp listed with same | listed
        · exfalso
          apply here
          have number : pick.1 = first.2 := congrArg Prod.snd same
          rw [← number]
          exact mem_map_of_mem mem
        · exact ⟨entry, listed, worth⟩)
      rw [map_cons, sum_cons, later, filter_cons_of_pos (by simpa using here),
        map_cons, sum_cons, add_left_comm]

theorem removed_terms_value {terms : Terms} {picks : List (Nat × Fq)}
    (picked : (picks.map (·.1)).Nodup)
    (known : ∀ pick ∈ picks, ∃ entry, terms[pick.1]? = some entry ∧
      entry.1 * exprValue assignment entry.2 = pick.2) :
    (picks.map (·.2)).sum + termsValue assignment (removeQuotientTerms terms (picks.map (·.1))) =
      termsValue assignment terms := by
  have distinct : (terms.zipIdx.map (·.2)).Nodup := by
    rw [zipIdx_map_snd]
    exact nodup_range' 1
  have parts := picked_value (fun term : Fq × QuotientExpr =>
    term.1 * exprValue assignment term.2) distinct picked (by
      intro pick mem
      obtain ⟨entry, found, worth⟩ := known pick mem
      exact ⟨entry, mem_zipIdx_iff_getElem?.mpr found, worth⟩)
  have whole : (terms.zipIdx.map fun entry => entry.1.1 * exprValue assignment entry.1.2).sum =
      termsValue assignment terms := by
    have firsts := zipIdx_map_fst 0 terms
    conv_rhs => rw [← firsts, termsValue, map_map]
    rfl
  rw [← whole, parts, removeQuotientTerms, termsValue, map_map]
  rfl

/-! ### Sub-shapes -/

theorem filter_map_keys {Entry Image : Type} {keyOf : Entry → Nat} {imageKey : Image → Nat}
    {step : Entry → Option Image}
    (same : ∀ entry image, step entry = some image → imageKey image = keyOf entry)
    (entries : List Entry) :
    ((entries.filterMap step).map imageKey).Sublist (entries.map keyOf) := by
  induction entries with
  | nil => exact List.Sublist.refl _
  | cons entry entries ih =>
    rw [map_cons]
    cases stepped : step entry with
    | none =>
      rw [filterMap_cons_none stepped]
      exact ih.cons _
    | some image =>
      rw [filterMap_cons_some stepped, map_cons, same entry image stepped]
      exact ih.cons_cons _

theorem zip_idx_positions (terms : Terms) : (terms.zipIdx.map (·.2)).Nodup := by
  rw [zipIdx_map_snd]
  exact nodup_range' 1

theorem indexed_mem_terms_nodup (terms : Terms) : ((indexedMemTerms terms).map (·.1)).Nodup := by
  apply (@filter_map_keys _ _ (fun entry : (Fq × QuotientExpr) × Nat => entry.2) _ _ _ _).nodup
    (zip_idx_positions terms)
  intro entry image stepped
  obtain ⟨factored, -, rfl⟩ := map_eq_some_iff.mp stepped
  rfl

theorem indexed_pairs_nodup (terms : Terms) : ((indexedPairs terms).map (·.1)).Nodup := by
  apply (@filter_map_keys _ _ (fun entry : (Fq × QuotientExpr) × Nat => entry.2) _ _ _ _).nodup
    (zip_idx_positions terms)
  intro entry image stepped
  obtain ⟨factored, -, rfl⟩ := map_eq_some_iff.mp stepped
  rfl

theorem indexed_mem_terms_value {entry : Nat × Nat × Fq} (mem : entry ∈ indexedMemTerms terms) :
    ∃ term, terms[entry.1]? = some term ∧
      term.1 * exprValue assignment term.2 = entry.2.2 * word assignment entry.2.1 := by
  obtain ⟨⟨term, idx⟩, listed, stepped⟩ := mem_filterMap.mp mem
  obtain ⟨⟨inner, ptr⟩, factored, rfl⟩ := map_eq_some_iff.mp stepped
  use term
  constructor
  · exact mem_zipIdx_iff_getElem?.mp listed
  · rw [mem_term_value factored, mul_assoc]

theorem indexed_pairs_value {entry : Nat × Pair} (mem : entry ∈ indexedPairs terms) :
    ∃ term, terms[entry.1]? = some term ∧
      term.1 * exprValue assignment term.2 = pairValue assignment entry.2 := by
  obtain ⟨⟨term, idx⟩, listed, stepped⟩ := mem_filterMap.mp mem
  obtain ⟨⟨inner, lhs, rhs⟩, factored, rfl⟩ := map_eq_some_iff.mp stepped
  use term
  constructor
  · exact mem_zipIdx_iff_getElem?.mp listed
  · rw [product_mem_pair_value factored, pairValue, mul_assoc]

def TakesValue (assignment : QuotientMem → Fq) (terms : Terms)
    (found : Option (QuotientLimbShape × List Nat)) : Prop :=
  ∀ shape used, found = some (shape, used) →
    limbShapeValue assignment shape + termsValue assignment (removeQuotientTerms terms used) =
      termsValue assignment terms

theorem limb_terms_distinct (terms : Terms) {limbs : List Nat} (distinct : limbs.Nodup) :
    ((limbs.flatMap (limbTerms (indexedMemTerms terms))).map (·.1)).Nodup := by
  have positions := indexed_mem_terms_nodup terms
  rw [map_flatMap, nodup_flatMap]
  constructor
  · intro ptr mem
    exact (filter_sublist.map _).nodup positions
  · apply distinct.imp
    intro left right apart position inLeft inRight
    rcases mem_map.mp inLeft with ⟨entry, listed, rfl⟩
    rcases mem_map.mp inRight with ⟨other, otherListed, same⟩
    have kept := mem_filter.mp listed
    have otherKept := mem_filter.mp otherListed
    have equal := inj_on_of_nodup_map positions otherKept.1 kept.1 same
    subst equal
    exact apart ((of_decide_eq_true kept.2).symm.trans (of_decide_eq_true otherKept.2))

theorem limb_terms_sum (memTerms : List (Nat × Nat × Fq)) (limbs : List Nat) :
    ((limbs.flatMap (limbTerms memTerms)).map fun entry =>
        entry.2.2 * word assignment entry.2.1).sum =
      groupsValue assignment (limbs.map fun ptr =>
        (ptr, ((limbTerms memTerms ptr).map (·.2.2)).sum)) := by
  induction limbs with
  | nil => rfl
  | cons ptr limbs ih =>
    have here : ((limbTerms memTerms ptr).map fun entry =>
        entry.2.2 * word assignment entry.2.1).sum =
          ((limbTerms memTerms ptr).map (·.2.2)).sum * word assignment ptr := by
      rw [← sum_map_mul_right]
      congr 1
      apply map_congr_left
      intro entry mem
      rw [of_decide_eq_true (mem_filter.mp mem).2]
    rw [flatMap_cons, map_append, sum_append, ih, here]
    simp only [groupsValue, map_cons, sum_cons]

theorem lin7_subshape_value (terms : Terms) :
    TakesValue assignment terms (tryQuotientLin7Subshape terms) := by
  intro shape used found
  obtain ⟨base, -, attempt⟩ := exists_of_findSome?_eq_some found
  unfold lin7WithBase at attempt
  dsimp only at attempt
  split_ifs at attempt
  cases attempt
  have limbs : ((List.range quotientVmLimbs).map fun limb => base + limb * 32).Nodup := by
    apply List.Nodup.map _ nodup_range
    intro left right same
    simp only at same
    omega
  have positions : ((List.range quotientVmLimbs).map fun limb => base + limb * 32).flatMap
        (fun ptr => (limbTerms (indexedMemTerms terms) ptr).map (·.1)) =
      ((((List.range quotientVmLimbs).map fun limb => base + limb * 32).flatMap
        (limbTerms (indexedMemTerms terms))).map fun entry =>
          (entry.1, entry.2.2 * word assignment entry.2.1)).map (·.1) := by
    rw [map_map, map_flatMap]
    rfl
  have sums : ((((List.range quotientVmLimbs).map fun limb => base + limb * 32).flatMap
        (limbTerms (indexedMemTerms terms))).map fun entry =>
          entry.2.2 * word assignment entry.2.1).sum =
      (((((List.range quotientVmLimbs).map fun limb => base + limb * 32).flatMap
        (limbTerms (indexedMemTerms terms))).map fun entry =>
          (entry.1, entry.2.2 * word assignment entry.2.1)).map (·.2)).sum := by
    rw [map_map]
    rfl
  rw [limbShapeValue, encode_groups_value, nonzero_groups_value, ← limb_terms_sum, positions, sums]
  apply removed_terms_value
  · rw [map_map]
    exact limb_terms_distinct terms limbs
  · intro pick mem
    obtain ⟨entry, listed, rfl⟩ := mem_map.mp mem
    obtain ⟨ptr, -, inWindow⟩ := mem_flatMap.mp listed
    exact indexed_mem_terms_value (mem_filter.mp inWindow).1

/-- The products a step accepts, at their positions, against the terms left. -/
theorem accepted_pairs_value {Image : Type} {step : Nat × Pair → Option Image}
    {keyOf : Image → Nat} {worth : Image → Fq}
    (keeps : ∀ entry image, step entry = some image →
      keyOf image = entry.1 ∧ worth image = pairValue assignment entry.2) (terms : Terms) :
    (((indexedPairs terms).filterMap step).map worth).sum +
        termsValue assignment (removeQuotientTerms terms
          (((indexedPairs terms).filterMap step).map keyOf)) =
      termsValue assignment terms := by
  have parts := @removed_terms_value assignment terms (((indexedPairs terms).filterMap step).map fun image => (keyOf image, worth image))
  simp only [map_map, Function.comp_def] at parts
  apply parts
  · apply (@filter_map_keys _ _ (fun entry : Nat × Pair => entry.1) _ _ _ _).nodup
      (indexed_pairs_nodup terms)
    intro entry image stepped
    exact (keeps entry image stepped).1
  · intro pick mem
    obtain ⟨image, listed, rfl⟩ := mem_map.mp mem
    obtain ⟨entry, inPairs, stepped⟩ := mem_filterMap.mp listed
    obtain ⟨key, value⟩ := keeps entry image stepped
    simp only [key, value]
    exact indexed_pairs_value inPairs

theorem row_fold_value {candidate : Nat} (matching : List (Nat × Nat × Fq))
    (grouped : List (Nat × Fq)) :
    word assignment candidate * groupsValue assignment (matching.foldl (fun grouped entry =>
        addGroupedLimbCoeff grouped entry.2.1 entry.2.2) grouped) =
      word assignment candidate * groupsValue assignment grouped +
        (matching.map fun entry =>
          entry.2.2 * (word assignment candidate * word assignment entry.2.1)).sum := by
  induction matching generalizing grouped with
  | nil => simp
  | cons entry matching ih =>
    rw [foldl_cons, ih, add_grouped_limb_coeff_value, map_cons, sum_cons]
    ring

theorem row_subshape_value (terms : Terms) :
    TakesValue assignment terms (tryQuotientBilin7RowSubshape terms) := by
  intro shape used found
  obtain ⟨candidate, -, attempt⟩ := exists_of_findSome?_eq_some found
  unfold rowSubshapeWithCandidate at attempt
  dsimp only at attempt
  split_ifs at attempt
  cases attempt
  have value := @row_fold_value assignment candidate
    ((indexedPairs terms).filterMap fun entry =>
      (otherFactor candidate entry.2.2.1 entry.2.2.2).map fun other =>
        (entry.1, other, entry.2.1)) []
  rw [limbShapeValue, encode_groups_value, nonzero_groups_value]
  refine Eq.trans (congrArg (· + _) value) ?_
  have nothing : groupsValue assignment [] = 0 := rfl
  rw [nothing, mul_zero, zero_add]
  apply accepted_pairs_value
  intro entry image stepped
  obtain ⟨other, factored, rfl⟩ := map_eq_some_iff.mp stepped
  constructor
  · rfl
  · rw [pairValue, other_factor_value factored]

theorem pairwise_subshape_value (terms : Terms) :
    TakesValue assignment terms (tryQuotientBilin7PairwiseSubshape terms) := by
  intro shape used found
  obtain ⟨lhsBase, -, inner⟩ := exists_of_findSome?_eq_some found
  obtain ⟨rhsBase, -, attempt⟩ := exists_of_findSome?_eq_some inner
  unfold pairwiseSubshapeWithBases at attempt
  dsimp only at attempt
  split_ifs at attempt
  · split at attempt
    · cases attempt
    · rename_i bySum checked
      cases attempt
      have inside : ∀ entry ∈ (indexedPairs terms).filterMap (fun entry =>
          (gridCell lhsBase rhsBase entry.2.2.1 entry.2.2.2).map fun cell =>
            (entry.1, cell, entry.2.1)),
          entry.2.1.1 < quotientVmLimbs ∧ entry.2.1.2 < quotientVmLimbs := by
        intro entry mem
        obtain ⟨pair, -, stepped⟩ := mem_filterMap.mp mem
        obtain ⟨cell, located, rfl⟩ := map_eq_some_iff.mp stepped
        exact (@grid_cell_value assignment _ _ _ _ _ located).2
      have value := @grid_records_value assignment _ lhsBase rhsBase
        (fun entry : Nat × (Nat × Nat) × Fq => entry.2.1) (fun entry => entry.2.2) _ inside
        Grid.empty (length_replicate ..)
      rw [empty_grid_value, zero_add] at value
      rw [limbShapeValue, diagonals_value checked]
      refine Eq.trans (congrArg (· + _) value) ?_
      apply accepted_pairs_value
      intro entry image stepped
      obtain ⟨cell, located, rfl⟩ := map_eq_some_iff.mp stepped
      constructor
      · rfl
      · rw [pairValue, (grid_cell_value located).1]
  · split at attempt
    · cases attempt
    · cases attempt

/-! ### The residue -/

theorem scaled_term_value (coeff : Fq) (expr : QuotientExpr) :
    exprValue assignment (quotientScaledTermExpr coeff expr) =
      coeff * exprValue assignment expr := by
  unfold quotientScaledTermExpr
  split_ifs with one
  · rw [one, one_mul]
  · rw [exprValue, exprValue, fq_to_u256_value]

theorem residue_value (terms : Terms) (start : QuotientExpr) :
    exprValue assignment (terms.foldl (fun residue term =>
        .add residue (quotientScaledTermExpr term.1 term.2)) start) =
      exprValue assignment start + termsValue assignment terms := by
  induction terms generalizing start with
  | nil => simp [termsValue]
  | cons term terms ih =>
    rw [foldl_cons, ih, exprValue, scaled_term_value, terms_value_cons, add_assoc]

theorem limb_subshape_value {residue : QuotientExpr}
    (found : quotientLimbSubshape expr = some (shape, residue)) :
    limbShapeValue assignment shape + exprValue assignment residue =
      exprValue assignment expr := by
  unfold quotientLimbSubshape at found
  rw [bind_some_iff] at found
  obtain ⟨⟨terms, constant⟩, collected, found⟩ := found
  dsimp only at found
  split_ifs at found
  obtain ⟨⟨picked, used⟩, recognized, found⟩ := bind_some_iff.mp found
  dsimp only at found
  split_ifs at found
  cases found
  have taken : limbShapeValue assignment shape +
      termsValue assignment (removeQuotientTerms (retainNonzero terms) used) =
        termsValue assignment (retainNonzero terms) := by
    rcases or_else_some recognized with pairwise | recognized
    · exact pairwise_subshape_value _ _ _ pairwise
    rcases or_else_some recognized with row | lin
    · exact row_subshape_value _ _ _ row
    · exact lin7_subshape_value _ _ _ lin
  have whole := @affine_terms_value assignment _ _ _ _ collected
  rw [residue_value, exprValue, fq_to_u256_value, add_left_comm, taken, retain_nonzero_value,
    add_comm, whole]
  simp [termsValue]

/-! ### A word times one affine factor -/

/-- The value of the factors split off so far; a missing side counts as one. -/
def splitValue (assignment : QuotientMem → Fq) (split : FactorSplit) : Fq :=
  split.coeff * conditionValue assignment split.lhs *
    match split.affine with
    | none => 1
    | some affine => exprValue assignment affine

theorem factor_step_value {split next : FactorSplit} {factor : QuotientExpr}
    (stepped : factorStep split factor = some next) :
    splitValue assignment next = splitValue assignment split * exprValue assignment factor := by
  have affine : ∀ {factor : QuotientExpr}, (if split.affine.isSome then none
      else some { split with affine := some factor }) = some next →
        splitValue assignment next =
          splitValue assignment split * exprValue assignment factor := by
    intro factor stepped
    split_ifs at stepped with taken
    cases stepped
    rw [Bool.not_eq_true, Option.isSome_eq_false_iff, Option.isNone_iff_eq_none] at taken
    simp only [splitValue, taken, mul_one]
  cases factor with
  | const value =>
    obtain ⟨scalar, canonical, same⟩ := bind_some_iff.mp stepped
    cases same
    simp only [splitValue, exprValue, fq_from_u256_value canonical]
    ring
  | mem mem =>
    cases mem with
    | literal ptr =>
      obtain ⟨small, fits, rest⟩ := bind_some_iff.mp stepped
      split_ifs at rest with taken
      cases rest
      rw [Bool.not_eq_true, Option.isSome_eq_false_iff, Option.isNone_iff_eq_none] at taken
      simp only [splitValue, taken, conditionValue, exprValue, try_u16_word fits]
      ring
    | token token => cases stepped
    | tokenOffset token offset => cases stepped
  | add lhs rhs => exact affine stepped
  | mul lhs rhs => exact affine stepped
  | neg inner => exact affine stepped

theorem factor_run_value {factors : List QuotientExpr} {split final : FactorSplit}
    (run : factors.foldlM factorStep split = some final) :
    splitValue assignment final =
      splitValue assignment split * (factors.map (exprValue assignment)).prod := by
  induction factors generalizing split with
  | nil =>
    cases run
    simp
  | cons factor factors ih =>
    rw [foldlM_cons, bind_some_iff] at run
    obtain ⟨next, stepped, later⟩ := run
    rw [ih later, factor_step_value stepped, map_cons, prod_cons, mul_assoc]

theorem split_affine_factors_value {affine : QuotientExpr}
    (found : splitAffineFactors termCoeff expr = some (coeff, lhs, affine)) :
    coeff * (word assignment lhs * exprValue assignment affine) =
      termCoeff * exprValue assignment expr := by
  unfold splitAffineFactors at found
  dsimp only at found
  split_ifs at found
  obtain ⟨split, run, found⟩ := bind_some_iff.mp found
  obtain ⟨ptr, here, found⟩ := bind_some_iff.mp found
  obtain ⟨factor, there, same⟩ := bind_some_iff.mp found
  cases same
  have value := @factor_run_value assignment _ _ _ run
  rw [expr_factors_value] at value
  simp only [splitValue, here, there, conditionValue, mul_one] at value
  rw [← mul_assoc, value]

theorem factored_row_shape_value
    (found : quotientFactoredBilin7RowShape termCoeff expr = some shape) :
    limbShapeValue assignment shape = termCoeff * exprValue assignment expr := by
  unfold quotientFactoredBilin7RowShape at found
  obtain ⟨⟨coeff, lhs, linExpr⟩, split, found⟩ := bind_some_iff.mp found
  obtain ⟨linTerms, collected, found⟩ := bind_some_iff.mp found
  obtain ⟨lin, recognized, found⟩ := bind_some_iff.mp found
  obtain ⟨row, rfl, value⟩ := @lin7_shape_value assignment _ _ recognized
  cases found
  rw [limbShapeValue, value, sum_terms_value collected, ← split_affine_factors_value split]
  ring

theorem factored_row_subshape_value (terms : Terms) :
    TakesValue assignment terms (tryQuotientFactoredBilin7RowSubshape terms) := by
  intro shape used found
  obtain ⟨⟨⟨coeff, expr⟩, idx⟩, listed, attempt⟩ := exists_of_findSome?_eq_some found
  obtain ⟨row, recognized, same⟩ := map_eq_some_iff.mp attempt
  cases same
  have parts := @removed_terms_value assignment terms ([(idx, limbShapeValue assignment shape)]) (nodup_singleton _) (by
      intro pick mem
      rw [mem_singleton.mp mem]
      exact ⟨(coeff, expr), mem_zipIdx_iff_getElem?.mp listed,
        (factored_row_shape_value recognized).symm⟩)
  simpa using parts

/-! ### Limb blocks -/

def blocksValue (assignment : QuotientMem → Fq) (blocks : LimbBlocks) : Fq :=
  (blocks.lin.map (linValue assignment)).sum +
    (blocks.rows.map fun row => word assignment row.1 * linValue assignment row.2).sum +
    (blocks.pairwise.map fun block => pairwiseValue assignment block.1 block.2.1 block.2.2).sum

theorem push_value (blocks : LimbBlocks) (shape : QuotientLimbShape) :
    blocksValue assignment (blocks.push shape) =
      blocksValue assignment blocks + limbShapeValue assignment shape := by
  cases shape with
  | lin7 terms =>
    simp only [LimbBlocks.push, blocksValue, limbShapeValue, map_append, sum_append,
      map_cons, map_nil, sum_singleton]
    ring
  | bilin7Row lhs terms =>
    simp only [LimbBlocks.push, blocksValue, limbShapeValue, map_append, sum_append,
      map_cons, map_nil, sum_singleton]
    ring
  | bilin7Pairwise lhsBase rhsBase coeffs =>
    simp only [LimbBlocks.push, blocksValue, limbShapeValue, map_append, sum_append,
      map_cons, map_nil, sum_singleton]
    ring

theorem next_limb_block_value (terms : Terms) :
    TakesValue assignment terms (nextLimbBlock terms) := by
  intro shape used found
  rcases or_else_some found with pairwise | found
  · exact pairwise_subshape_value _ _ _ pairwise
  rcases or_else_some found with factored | found
  · exact factored_row_subshape_value _ _ _ factored
  rcases or_else_some found with row | lin
  · exact row_subshape_value _ _ _ row
  · exact lin7_subshape_value _ _ _ lin

theorem peel_limb_blocks_value (terms : Terms) (blocks : LimbBlocks) :
    termsValue assignment (peelLimbBlocks terms blocks).1 +
        blocksValue assignment (peelLimbBlocks terms blocks).2 =
      termsValue assignment terms + blocksValue assignment blocks := by
  fun_induction peelLimbBlocks terms blocks with
  | case1 terms blocks found => rfl
  | case2 terms blocks shape found => rfl
  | case3 terms blocks shape used found nonempty ih =>
    rw [ih, push_value, ← next_limb_block_value terms shape used found]
    ring

/-! ### Sparse buckets -/

def bucketsValue (assignment : QuotientMem → Fq)
    (groups : List (Nat × Fq) × List (Nat × Nat × Fq)) : Fq :=
  groupsValue assignment groups.1 + productsValue assignment groups.2

theorem factored_products_value {start grouped : List (Nat × Nat × Fq)}
    (run : terms.foldlM (fun grouped entry => do
      let (memCoeff, rhs) ← quotientMemTerm entry.2
      return addGroupedProductCoeff grouped lhs rhs (coeff * entry.1 * memCoeff)) start =
        some grouped) :
    productsValue assignment grouped =
      productsValue assignment start +
        coeff * (word assignment lhs * termsValue assignment terms) := by
  induction terms generalizing start with
  | nil =>
    cases run
    simp [termsValue]
  | cons entry terms ih =>
    rw [foldlM_cons, bind_some_iff] at run
    obtain ⟨next, stepped, later⟩ := run
    obtain ⟨⟨memCoeff, rhs⟩, factored, same⟩ := bind_some_iff.mp stepped
    cases same
    rw [ih later, add_grouped_product_coeff_value, terms_value_cons, mem_term_value factored]
    ring

variable {groups next : List (Nat × Fq) × List (Nat × Nat × Fq)}

theorem factored_affine_value
    (added : addFactoredAffineProductTerms groups termCoeff expr = some next) :
    bucketsValue assignment next =
      bucketsValue assignment groups + termCoeff * exprValue assignment expr := by
  unfold addFactoredAffineProductTerms at added
  obtain ⟨⟨coeff, lhs, affine⟩, split, added⟩ := bind_some_iff.mp added
  obtain ⟨⟨terms, constant⟩, collected, added⟩ := bind_some_iff.mp added
  obtain ⟨products, run, same⟩ := bind_some_iff.mp added
  cases same
  have whole := @affine_terms_value assignment _ _ _ _ collected
  have inner : exprValue assignment affine = termsValue assignment terms + constant := by
    rw [whole]
    simp [termsValue]
  have memValue : groupsValue assignment (if constant ≠ 0 then
      addGroupedLimbCoeff groups.1 lhs (coeff * constant) else groups.1) =
        groupsValue assignment groups.1 + coeff * constant * word assignment lhs := by
    by_cases zero : constant = 0
    · rw [if_neg (not_not.mpr zero), zero, mul_zero, zero_mul, add_zero]
    · rw [if_pos zero, add_grouped_limb_coeff_value]
  rw [bucketsValue, memValue, factored_products_value run, ← split_affine_factors_value split,
    inner, bucketsValue]
  ring

theorem group_affine_term_value {entry : Fq × QuotientExpr}
    (grouped : groupAffineTerm groups entry = some next) :
    bucketsValue assignment next =
      bucketsValue assignment groups + entry.1 * exprValue assignment entry.2 := by
  unfold groupAffineTerm at grouped
  split at grouped
  · rename_i factored
    cases grouped
    rw [bucketsValue, add_grouped_limb_coeff_value, mem_term_value factored, bucketsValue]
    ring
  · split at grouped
    · rename_i factored
      cases grouped
      rw [bucketsValue, add_grouped_product_coeff_value, product_mem_pair_value factored,
        bucketsValue]
      ring
    · exact factored_affine_value grouped

theorem group_affine_terms_value {terms : Terms}
    {groups final : List (Nat × Fq) × List (Nat × Nat × Fq)}
    (run : terms.foldlM groupAffineTerm groups = some final) :
    bucketsValue assignment final =
      bucketsValue assignment groups + termsValue assignment terms := by
  induction terms generalizing groups with
  | nil =>
    cases run
    simp [termsValue]
  | cons entry terms ih =>
    rw [foldlM_cons, bind_some_iff] at run
    obtain ⟨next, stepped, later⟩ := run
    rw [ih later, group_affine_term_value stepped, terms_value_cons, add_assoc]

/-! ### The mixed affine form -/

/-- An early `return None` was not taken. -/
theorem else_some {Found : Type} {stop : Prop} [Decidable stop] {rest : Option Found}
    {found : Found} (result : (if stop then none else rest) = some found) : rest = some found := by
  split_ifs at result
  exact result

/-- The affine form under a condition is the condition times the expression. -/
theorem modarith7_affine_shape_value {cond : Option Nat} {shape : QuotientModarith7Shape}
    (found : quotientModarith7AffineShape cond expr = some shape) :
    modarith7ShapeValue assignment shape =
      conditionValue assignment cond * exprValue assignment expr := by
  unfold quotientModarith7AffineShape at found
  obtain ⟨⟨terms, constant⟩, collected, found⟩ := bind_some_iff.mp found
  have peeled := @peel_limb_blocks_value assignment (retainNonzero terms) ⟨[], [], []⟩
  obtain ⟨⟨groupedMem, groupedProducts⟩, run, found⟩ :=
    bind_some_iff.mp (else_some found)
  have written := else_some (else_some (else_some (else_some found)))
  cases written
  have whole := @affine_terms_value assignment _ _ _ _ collected
  have buckets := @group_affine_terms_value assignment _ _ _ run
  have total : exprValue assignment expr = constant + bucketsValue assignment
      (groupedMem, groupedProducts) + blocksValue assignment
        (peelLimbBlocks (retainNonzero terms) ⟨[], [], []⟩).2 := by
    rw [buckets]
    simp only [retain_nonzero_value] at peeled
    simp only [bucketsValue, groupsValue, productsValue, blocksValue, termsValue, map_nil,
      sum_nil, zero_add, add_zero, one_mul] at whole peeled ⊢
    rw [← whole, ← peeled]
    ring
  rw [total]
  simp only [modarith7ShapeValue, fq_to_u256_value, encode_groups_value, nonzero_groups_value,
    encode_products_value, nonzero_products_value, bucketsValue, blocksValue]
  ring

theorem condition_factor_value {inner : QuotientExpr} {cond : Nat}
    (found : quotientConditionFactor expr = some (cond, inner)) :
    word assignment cond * exprValue assignment inner = exprValue assignment expr := by
  unfold quotientConditionFactor at found
  split at found
  · rename_i lhs rhs
    split at found
    · rename_i factored
      cases found
      rw [scaled_term_value, exprValue, mem_term_value factored]
      ring
    · obtain ⟨⟨coeff, ptr⟩, factored, same⟩ := map_eq_some_iff.mp found
      cases same
      rw [scaled_term_value, exprValue, mem_term_value factored]
      ring
  · cases found

theorem modarith7_shape_value {shape : QuotientModarith7Shape}
    (found : quotientModarith7Shape expr = some shape) :
    modarith7ShapeValue assignment shape = exprValue assignment expr := by
  rcases or_else_some found with conditional | plain
  · obtain ⟨⟨cond, inner⟩, split, affine⟩ := bind_some_iff.mp conditional
    rw [modarith7_affine_shape_value affine, conditionValue, condition_factor_value split]
  · rw [modarith7_affine_shape_value plain, conditionValue, one_mul]

/-- Whatever a recognizer finds has, with its residue, the value of the expression. -/
theorem recognized_shapes_keep_value (assignment : QuotientMem → Fq) (expr : QuotientExpr) :
    (∀ shape, quotientLimbShape expr = some shape →
      limbShapeValue assignment shape = exprValue assignment expr) ∧
    (∀ shape residue, quotientLimbSubshape expr = some (shape, residue) →
      limbShapeValue assignment shape + exprValue assignment residue =
        exprValue assignment expr) ∧
    (∀ shape, quotientModarith7Shape expr = some shape →
      modarith7ShapeValue assignment shape = exprValue assignment expr) ∧
    ∀ cond shape, quotientModarith7AffineShape cond expr = some shape →
      modarith7ShapeValue assignment shape =
        conditionValue assignment cond * exprValue assignment expr := by
  constructor
  · intro shape found
    exact limb_shape_value found
  constructor
  · intro shape residue found
    exact limb_subshape_value found
  constructor
  · intro shape found
    exact modarith7_shape_value found
  · intro cond shape found
    exact modarith7_affine_shape_value found

/-! ### One seven-limb sum, alone and next to other terms -/

theorem peel_some {blocks : LimbBlocks} {used : List Nat}
    (found : nextLimbBlock terms = some (shape, used)) (nonempty : used ≠ []) :
    peelLimbBlocks terms blocks =
      peelLimbBlocks (removeQuotientTerms terms used) (blocks.push shape) := by
  rw [peelLimbBlocks]
  split
  · rename_i absent
    rw [absent] at found
    cases found
  · rename_i same
    rw [same] at found
    cases found
    rw [dif_neg nonempty]

theorem peel_none {blocks : LimbBlocks} (absent : nextLimbBlock terms = none) :
    peelLimbBlocks terms blocks = (terms, blocks) := by
  rw [peelLimbBlocks]
  split
  · rfl
  · rename_i same
    rw [same] at absent
    cases absent

/-- `m[0] + 2 * m[32] + .. + (last + 1) * m[32 * last]`. -/
def limbSum : Nat → QuotientExpr
  | 0 => .mem (.literal 0)
  | limb + 1 => .add (limbSum limb)
      (.mul (.const (limb + 2)) (.mem (.literal (UInt32.ofNat ((limb + 1) * 32)))))

def limbSumTerms : Terms :=
  (List.range quotientVmLimbs).map fun limb =>
    ((limb + 1 : Nat), .mem (.literal (UInt32.ofNat (limb * 32))))

def limbSumLin : List (Nat × Nat) :=
  [(1, 0), (2, 32), (3, 64), (4, 96), (5, 128), (6, 160), (7, 192)]

theorem limb_sum_modarith7 :
    quotientModarith7Shape (.add (limbSum 6) (.const 9)) =
      some ⟨none, 9, [limbSumLin], [], [], [], []⟩ := by
  have terms : collectQuotientAffineTerms (.add (limbSum 6) (.const 9)) 1 ([], 0) =
      some (limbSumTerms, 9) := by decide +kernel
  have kept : retainNonzero limbSumTerms = limbSumTerms := by decide +kernel
  have block : nextLimbBlock limbSumTerms = some (.lin7 limbSumLin, [0, 1, 2, 3, 4, 5, 6]) := by
    decide +kernel
  have gone : removeQuotientTerms limbSumTerms [0, 1, 2, 3, 4, 5, 6] = [] := by decide +kernel
  have peeled : peelLimbBlocks limbSumTerms ⟨[], [], []⟩ = ([], ⟨[limbSumLin], [], []⟩) := by
    rw [peel_some block (by decide), gone, peel_none (by decide +kernel)]
    rfl
  have nine : quotientFqToU256 9 = 9 := by decide +kernel
  have nonzero : (9 : Fq) ≠ 0 := by decide +kernel
  simp [quotientModarith7Shape, quotientConditionFactor, quotientModarith7AffineShape, terms, kept,
    peeled, nine, nonzero, nonzeroGroups, nonzeroProducts, encodeGroups, encodeProducts]

theorem recognized_shapes_keep_value_seven :
    linValue (fun _ => 1) limbSumLin = exprValue (fun _ => 1) (limbSum 6) ∧
    linValue (fun _ => 1) limbSumLin + exprValue (fun _ => 1) (.add (.const 0) (.mem (.token 3))) =
      exprValue (fun _ => 1) (.add (limbSum 6) (.mem (.token 3))) ∧
    modarith7ShapeValue (fun _ => 1) ⟨none, 9, [limbSumLin], [], [], [], []⟩ =
      exprValue (fun _ => 1) (.add (limbSum 6) (.const 9)) := by
  constructor
  · exact (recognized_shapes_keep_value (fun _ => 1) (limbSum 6)).1 (.lin7 limbSumLin)
      (by decide +kernel)
  constructor
  · exact (recognized_shapes_keep_value (fun _ => 1)
      (.add (limbSum 6) (.mem (.token 3)))).2.1 (.lin7 limbSumLin) _ (by decide +kernel)
  · exact (recognized_shapes_keep_value (fun _ => 1)
      (.add (limbSum 6) (.const 9))).2.2.1 _ limb_sum_modarith7

end Midfall.QuotientShapeValues
