import Mathlib

/-!
# Fractions with deferred inversions

A value is zero, a field element, or a fraction whose denominator is inverted
later, together with all others. A denominator of zero stands for zero, so the
usual laws of fractions need their cases. The arithmetic commutes with
evaluation, whatever the nesting.
-/

namespace Midfall.Rationals

open List

inductive Rational (F : Type) where
  | zero
  | trivial (value : F)
  | rational (numerator denominator : F)
  deriving DecidableEq, Repr

namespace Rational

variable {F : Type} [Field F] [DecidableEq F]

def numerator : Rational F → F
  | zero => 0
  | trivial x => x
  | rational numerator _ => numerator

/-- The denominator, where there is one to invert. -/
def denominator : Rational F → Option F
  | zero => none
  | trivial _ => none
  | rational _ denominator => some denominator

def isZeroVartime : Rational F → Bool
  | zero => true
  | trivial x => decide (x = 0)
  | rational numerator denominator => decide (numerator = 0) || decide (denominator = 0)

/-- The unbatched inversion; that of zero is zero. -/
def evaluate : Rational F → F
  | zero => 0
  | trivial x => x
  | rational numerator denominator =>
    if denominator = 1 then numerator else numerator * denominator⁻¹

/-- `PartialEq`: a zero side or a zero denominator comes before the cross products. -/
def eq : Rational F → Rational F → Bool
  | zero, zero => true
  | zero, x => x.isZeroVartime
  | x, zero => x.isZeroVartime
  | trivial lhs, trivial rhs => decide (lhs = rhs)
  | trivial x, rational numerator denominator =>
    if denominator = 0 then (trivial x).isZeroVartime else decide (x * denominator = numerator)
  | rational numerator denominator, trivial x =>
    if denominator = 0 then (trivial x).isZeroVartime else decide (x * denominator = numerator)
  | rational lhsNumerator lhsDenominator, rational rhsNumerator rhsDenominator =>
    if lhsDenominator = 0 then (rational rhsNumerator rhsDenominator).isZeroVartime
    else if rhsDenominator = 0 then (rational lhsNumerator lhsDenominator).isZeroVartime
    else decide (lhsNumerator * rhsDenominator = lhsDenominator * rhsNumerator)

def neg : Rational F → Rational F
  | zero => zero
  | trivial numerator => trivial (-numerator)
  | rational numerator denominator => rational (-numerator) denominator

/-- `Add`: a side that stands for zero leaves the other as it is. -/
def add : Rational F → Rational F → Rational F
  | zero, rhs => rhs
  | lhs, zero => lhs
  | trivial lhs, trivial rhs => trivial (lhs + rhs)
  | rational numerator denominator, trivial other =>
    if denominator = 0 then trivial other
    else rational (numerator + denominator * other) denominator
  | trivial other, rational numerator denominator =>
    if denominator = 0 then trivial other
    else rational (numerator + denominator * other) denominator
  | rational lhsNumerator lhsDenominator, rational rhsNumerator rhsDenominator =>
    if lhsDenominator = 0 then rational rhsNumerator rhsDenominator
    else if rhsDenominator = 0 then rational lhsNumerator lhsDenominator
    else rational (lhsNumerator * rhsDenominator + lhsDenominator * rhsNumerator)
      (lhsDenominator * rhsDenominator)

def sub (lhs rhs : Rational F) : Rational F := lhs.add rhs.neg

def mul : Rational F → Rational F → Rational F
  | zero, _ => zero
  | _, zero => zero
  | trivial lhs, trivial rhs => trivial (lhs * rhs)
  | rational numerator denominator, trivial other => rational (numerator * other) denominator
  | trivial other, rational numerator denominator => rational (numerator * other) denominator
  | rational lhsNumerator lhsDenominator, rational rhsNumerator rhsDenominator =>
    rational (lhsNumerator * rhsNumerator) (lhsDenominator * rhsDenominator)

/-- `Add<F>`, `Sub<F>` and `Mul<F>` wrap the field element. -/
def addElement (lhs : Rational F) (rhs : F) : Rational F := lhs.add (trivial rhs)

def subElement (lhs : Rational F) (rhs : F) : Rational F := lhs.addElement (-rhs)

def mulElement (lhs : Rational F) (rhs : F) : Rational F := lhs.mul (trivial rhs)

def double : Rational F → Rational F
  | zero => zero
  | trivial x => trivial (x + x)
  | rational numerator denominator => rational (numerator + numerator) denominator

def square : Rational F → Rational F
  | zero => zero
  | trivial x => trivial (x * x)
  | rational numerator denominator => rational (numerator * numerator) (denominator * denominator)

def cube (x : Rational F) : Rational F := x.square.mul x

/-- The fraction is turned around; a field element becomes one to invert. -/
def invert : Rational F → Rational F
  | zero => zero
  | trivial x => rational 1 x
  | rational numerator denominator => rational denominator numerator

@[simp]
theorem evaluate_zero : evaluate (zero : Rational F) = 0 := rfl

@[simp]
theorem evaluate_trivial (x : F) : evaluate (trivial x) = x := rfl

@[simp]
theorem evaluate_rational (numerator denominator : F) :
    evaluate (rational numerator denominator) = numerator * denominator⁻¹ := by
  rw [evaluate]
  split_ifs with one
  · rw [one, inv_one, mul_one]
  · rfl

theorem is_zero_iff (x : Rational F) : x.isZeroVartime = true ↔ x.evaluate = 0 := by
  cases x with
  | zero => simp [isZeroVartime]
  | trivial x => simp [isZeroVartime]
  | rational numerator denominator => simp [isZeroVartime]

@[simp]
theorem evaluate_neg (x : Rational F) : x.neg.evaluate = -x.evaluate := by
  cases x with
  | zero => simp [neg]
  | trivial x => simp [neg]
  | rational numerator denominator => simp [neg]

omit [DecidableEq F] in
theorem fraction_add_element {numerator denominator : F} (other : F) (nonzero : denominator ≠ 0) :
    (numerator + denominator * other) * denominator⁻¹ = numerator * denominator⁻¹ + other := by
  field_simp

variable {lhsNumerator lhsDenominator rhsNumerator rhsDenominator : F}

omit [DecidableEq F] in
theorem fraction_add_fraction (lhsNonzero : lhsDenominator ≠ 0) (rhsNonzero : rhsDenominator ≠ 0) :
    (lhsNumerator * rhsDenominator + lhsDenominator * rhsNumerator) *
        (lhsDenominator * rhsDenominator)⁻¹ =
      lhsNumerator * lhsDenominator⁻¹ + rhsNumerator * rhsDenominator⁻¹ := by
  field_simp

@[simp]
theorem evaluate_add (x y : Rational F) : (x.add y).evaluate = x.evaluate + y.evaluate := by
  cases x with
  | zero => simp [add]
  | trivial lhs =>
    cases y with
    | zero => simp [add]
    | trivial rhs => simp [add]
    | rational numerator denominator =>
      rw [add]
      split_ifs with absent
      · simp [absent]
      · rw [evaluate_rational, fraction_add_element lhs absent, evaluate_trivial,
          evaluate_rational, add_comm]
  | rational lhsNumerator lhsDenominator =>
    cases y with
    | zero => simp [add]
    | trivial rhs =>
      rw [add]
      split_ifs with absent
      · simp [absent]
      · rw [evaluate_rational, fraction_add_element rhs absent, evaluate_trivial, evaluate_rational]
    | rational rhsNumerator rhsDenominator =>
      rw [add]
      split_ifs with lhsAbsent rhsAbsent
      · simp [lhsAbsent]
      · simp [rhsAbsent]
      · rw [evaluate_rational, fraction_add_fraction lhsAbsent rhsAbsent, evaluate_rational,
          evaluate_rational]

@[simp]
theorem evaluate_sub (x y : Rational F) : (x.sub y).evaluate = x.evaluate - y.evaluate := by
  rw [sub, evaluate_add, evaluate_neg, sub_eq_add_neg]

@[simp]
theorem evaluate_mul (x y : Rational F) : (x.mul y).evaluate = x.evaluate * y.evaluate := by
  cases x with
  | zero => simp [mul]
  | trivial lhs =>
    cases y with
    | zero => simp [mul]
    | trivial rhs => simp [mul]
    | rational numerator denominator =>
      simp only [mul, evaluate_rational, evaluate_trivial]
      ring
  | rational lhsNumerator lhsDenominator =>
    cases y with
    | zero => simp [mul]
    | trivial rhs =>
      simp only [mul, evaluate_rational, evaluate_trivial]
      ring
    | rational rhsNumerator rhsDenominator =>
      simp only [mul, evaluate_rational, mul_inv]
      ring

section

variable (x : Rational F)

include x

@[simp]
theorem evaluate_add_element (y : F) : (x.addElement y).evaluate = x.evaluate + y := by
  rw [addElement, evaluate_add, evaluate_trivial]

@[simp]
theorem evaluate_sub_element (y : F) : (x.subElement y).evaluate = x.evaluate - y := by
  rw [subElement, evaluate_add_element, sub_eq_add_neg]

@[simp]
theorem evaluate_mul_element (y : F) : (x.mulElement y).evaluate = x.evaluate * y := by
  rw [mulElement, evaluate_mul, evaluate_trivial]

@[simp]
theorem evaluate_double : x.double.evaluate = x.evaluate + x.evaluate := by
  cases x with
  | zero => simp [double]
  | trivial x => simp [double]
  | rational numerator denominator =>
    rw [double, evaluate_rational, evaluate_rational, add_mul]

@[simp]
theorem evaluate_square : x.square.evaluate = x.evaluate * x.evaluate := by
  cases x with
  | zero => simp [square]
  | trivial x => simp [square]
  | rational numerator denominator =>
    simp only [square, evaluate_rational, mul_inv]
    ring

@[simp]
theorem evaluate_cube : x.cube.evaluate = x.evaluate * x.evaluate * x.evaluate := by
  rw [cube, evaluate_mul, evaluate_square]

@[simp]
theorem evaluate_invert : x.invert.evaluate = x.evaluate⁻¹ := by
  cases x with
  | zero => simp [invert]
  | trivial x => simp [invert]
  | rational numerator denominator =>
    rw [invert, evaluate_rational, evaluate_rational, mul_inv, inv_inv, mul_comm]

end

omit [DecidableEq F] in
theorem cross_products_eq (lhsNonzero : lhsDenominator ≠ 0) (rhsNonzero : rhsDenominator ≠ 0) :
    lhsNumerator * rhsDenominator = lhsDenominator * rhsNumerator ↔
      lhsNumerator * lhsDenominator⁻¹ = rhsNumerator * rhsDenominator⁻¹ := by
  rw [← div_eq_mul_inv, ← div_eq_mul_inv, div_eq_div_iff lhsNonzero rhsNonzero,
    mul_comm lhsDenominator]

omit [DecidableEq F] in
theorem element_eq_fraction {x numerator denominator : F} (nonzero : denominator ≠ 0) :
    x * denominator = numerator ↔ x = numerator * denominator⁻¹ := by
  rw [← div_eq_mul_inv, eq_div_iff nonzero]

theorem eq_iff (x y : Rational F) : x.eq y = true ↔ x.evaluate = y.evaluate := by
  cases x with
  | zero =>
    cases y with
    | zero => simp [eq]
    | trivial rhs => exact (is_zero_iff (trivial rhs)).trans eq_comm
    | rational numerator denominator =>
      exact (is_zero_iff (rational numerator denominator)).trans eq_comm
  | trivial lhs =>
    cases y with
    | zero => rw [eq, is_zero_iff, evaluate_zero]
    | trivial rhs => simp [eq]
    | rational numerator denominator =>
      rw [eq]
      split_ifs with absent
      · rw [is_zero_iff, absent, evaluate_rational, inv_zero, mul_zero]
      · rw [decide_eq_true_iff, element_eq_fraction absent, evaluate_trivial, evaluate_rational]
  | rational lhsNumerator lhsDenominator =>
    cases y with
    | zero => rw [eq, is_zero_iff, evaluate_zero]
    | trivial rhs =>
      rw [eq]
      split_ifs with absent
      · rw [is_zero_iff, absent, evaluate_rational, inv_zero, mul_zero, eq_comm]
      · rw [decide_eq_true_iff, element_eq_fraction absent, evaluate_trivial, evaluate_rational,
          eq_comm]
    | rational rhsNumerator rhsDenominator =>
      rw [eq]
      split_ifs with lhsAbsent rhsAbsent
      · rw [is_zero_iff, lhsAbsent, evaluate_rational lhsNumerator, inv_zero, mul_zero, eq_comm]
      · rw [is_zero_iff, rhsAbsent, evaluate_rational rhsNumerator, inv_zero, mul_zero]
      · rw [decide_eq_true_iff, cross_products_eq lhsAbsent rhsAbsent, evaluate_rational,
          evaluate_rational]

end Rational

inductive Tree (F : Type) where
  | leaf (value : Rational F)
  | add (left right : Tree F)
  | sub (left right : Tree F)
  | mul (left right : Tree F)
  | addElement (left : Tree F) (right : F)
  | subElement (left : Tree F) (right : F)
  | mulElement (left : Tree F) (right : F)
  | neg (tree : Tree F)
  | double (tree : Tree F)
  | square (tree : Tree F)
  | cube (tree : Tree F)
  | invert (tree : Tree F)

variable {F : Type} [Field F] [DecidableEq F]

def Tree.deferred : Tree F → Rational F
  | leaf value => value
  | add left right => left.deferred.add right.deferred
  | sub left right => left.deferred.sub right.deferred
  | mul left right => left.deferred.mul right.deferred
  | addElement left right => left.deferred.addElement right
  | subElement left right => left.deferred.subElement right
  | mulElement left right => left.deferred.mulElement right
  | neg tree => tree.deferred.neg
  | double tree => tree.deferred.double
  | square tree => tree.deferred.square
  | cube tree => tree.deferred.cube
  | invert tree => tree.deferred.invert

/-- The tree on the evaluated leaves; the inverse of zero is zero. -/
def Tree.evaluated : Tree F → F
  | leaf value => value.evaluate
  | add left right => left.evaluated + right.evaluated
  | sub left right => left.evaluated - right.evaluated
  | mul left right => left.evaluated * right.evaluated
  | addElement left right => left.evaluated + right
  | subElement left right => left.evaluated - right
  | mulElement left right => left.evaluated * right
  | neg tree => -tree.evaluated
  | double tree => tree.evaluated + tree.evaluated
  | square tree => tree.evaluated * tree.evaluated
  | cube tree => tree.evaluated * tree.evaluated * tree.evaluated
  | invert tree => tree.evaluated⁻¹

theorem deferred_evaluate (tree : Tree F) : tree.deferred.evaluate = tree.evaluated := by
  induction tree with
  | leaf value => rfl
  | add _ _ first second | sub _ _ first second | mul _ _ first second =>
    simp [Tree.deferred, Tree.evaluated, first, second]
  | addElement left right first => simp [Tree.deferred, Tree.evaluated, first]
  | subElement left right first => simp [Tree.deferred, Tree.evaluated, first]
  | mulElement left right first => simp [Tree.deferred, Tree.evaluated, first]
  | neg _ ih | double _ ih | square _ ih | cube _ ih | invert _ ih =>
    simp [Tree.deferred, Tree.evaluated, ih]

/-- The denominators of all polynomials inverted in place; zeros stay zero. -/
def batchInvert (denominators : List (List (Option F))) : List (List (Option F)) :=
  denominators.map fun denominators => denominators.map fun denominator =>
    denominator.map fun value => value⁻¹

/-- `Polynomial::invert`: asserts that there is an inverse for each value. -/
def invertPolynomial (values : List (Rational F)) (invDenoms : List F) : Option (List F) :=
  if invDenoms.length ≠ values.length then none
  else some ((values.zip invDenoms).map fun pair => pair.1.numerator * pair.2)

def batchInvertRational (assigned : List (List (Rational F))) : Option (List (List F)) :=
  let assignedDenominators :=
    batchInvert (assigned.map fun values => values.map Rational.denominator)
  (assigned.zip assignedDenominators).mapM fun entry =>
    invertPolynomial entry.1 (entry.2.map fun denominator => denominator.getD 1)

theorem numerator_inverse (value : Rational F) :
    value.numerator * ((value.denominator.map fun denominator => denominator⁻¹).getD 1) =
      value.evaluate := by
  cases value with
  | zero => simp [Rational.numerator]
  | trivial x => simp [Rational.numerator, Rational.denominator]
  | rational numerator denominator => simp [Rational.numerator, Rational.denominator]

theorem invert_polynomial_evaluates (values : List (Rational F)) :
    invertPolynomial values (((values.map Rational.denominator).map fun denominator =>
        denominator.map fun value => value⁻¹).map fun denominator => denominator.getD 1) =
      some (values.map Rational.evaluate) := by
  rw [invertPolynomial, if_neg (by simp)]
  congr 1
  apply ext_getElem (by simp)
  intro i _ _
  simp [numerator_inverse]

theorem batch_invert_evaluates (assigned : List (List (Rational F))) :
    batchInvertRational assigned =
      some (assigned.map fun values => values.map Rational.evaluate) := by
  rw [batchInvertRational, batchInvert]
  induction assigned with
  | nil => rfl
  | cons values rest ih =>
    rw [map_cons, map_cons, zip_cons_cons, mapM_cons, invert_polynomial_evaluates, ih]
    rfl

/-- The arithmetic commutes with evaluation, equality is that of the evaluations, and batch
inversion evaluates every value. -/
theorem rationals_evaluate :
    (∀ tree : Tree F, tree.deferred.evaluate = tree.evaluated) ∧
      (∀ x y : Rational F, x.eq y = true ↔ x.evaluate = y.evaluate) ∧
      ∀ assigned : List (List (Rational F)), batchInvertRational assigned =
        some (assigned.map fun values => values.map Rational.evaluate) :=
  ⟨deferred_evaluate, Rational.eq_iff, batch_invert_evaluates⟩

/-- A fraction over zero adds nothing. -/
example : (Tree.add (.leaf (.trivial (1 : ℚ))) (.leaf (.rational 1 0))).deferred = .trivial 1 := by
  decide

end Midfall.Rationals
