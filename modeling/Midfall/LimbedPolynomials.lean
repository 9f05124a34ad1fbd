import Midfall.RadixTwo

/-!
# Polynomials in limbs

A long list of coefficients is cut into limbs of equal length. The value of the
whole is the sum of the values of the limbs times powers of the length.
-/

namespace Midfall.LimbedPolynomials

open RadixTwo List

variable {F : Type} [Field F]

/-- `Σ limb_i(x) x^(i step)` -/
def limbsValue (x : F) (step : Nat) (limbs : List (List F)) : F :=
  ∑ i ∈ Finset.range limbs.length, valueAt x (limbs.getD i []) * x ^ (i * step)

theorem limbs_value_nil (x : F) (step : Nat) : limbsValue x step [] = 0 := by
  rw [limbsValue, length_nil, Finset.sum_range_zero]

theorem limbs_value_cons (x : F) (step : Nat) (limb : List F) (rest : List (List F)) :
    limbsValue x step (limb :: rest) = valueAt x limb + x ^ step * limbsValue x step rest := by
  have later : ∀ i, valueAt x (rest.getD i []) * x ^ ((i + 1) * step) =
      x ^ step * (valueAt x (rest.getD i []) * x ^ (i * step)) := by
    intro i
    ring
  rw [limbsValue, length_cons, Finset.sum_range_succ']
  simp only [getD_cons_succ, getD_cons_zero, Nat.zero_mul, pow_zero, mul_one, later]
  rw [← Finset.mul_sum, limbsValue, add_comm]

theorem value_flatten (x : F) {step : Nat} {limbs : List (List F)}
    (lengths : ∀ limb ∈ limbs, limb.length = step) :
    valueAt x limbs.flatten = limbsValue x step limbs := by
  induction limbs with
  | nil => rw [limbs_value_nil, flatten_nil, valueAt]
  | cons limb rest ih =>
    rw [flatten_cons, value_append, lengths limb mem_cons_self, limbs_value_cons,
      ih (forall_mem_cons.mp lengths).2, smul_eq_mul]

theorem value_snoc (x : F) (limb : List F) (last : F) :
    valueAt x (limb ++ [last]) = valueAt x limb + x ^ limb.length * last := by
  rw [value_append, valueAt, valueAt, smul_zero, add_zero, smul_eq_mul]

def addCoefficients (a b : List F) : List F := zipWith (fun left right => left + right) a b

def padTo (length : Nat) (a : List F) : List F := a ++ replicate (length - a.length) 0

/-- A value that adds up, such as a coefficient or the value at a point. -/
structure LinearView (view : List F → F) : Prop where
  zeros : ∀ count, view (replicate count 0) = 0
  add : ∀ a b, a.length = b.length → view (addCoefficients a b) = view a + view b
  scale : ∀ a scalar, view (a.map fun value => value * scalar) = view a * scalar
  padded : ∀ a count, view (a ++ replicate count 0) = view a

theorem value_add (x : F) (a b : List F) (same : a.length = b.length) :
    valueAt x (addCoefficients a b) = valueAt x a + valueAt x b := by
  unfold addCoefficients
  induction a generalizing b with
  | nil =>
    have empty : b = [] := eq_nil_of_length_eq_zero same.symm
    rw [empty, zipWith_nil_left, valueAt, add_zero]
  | cons left rest ih =>
    rcases exists_cons_of_length_eq_add_one same.symm with ⟨right, others, rfl⟩
    rw [zipWith_cons_cons, valueAt, ih others (by simpa using same), valueAt, valueAt,
      smul_eq_mul, smul_eq_mul, smul_eq_mul]
    ring

theorem value_linear (x : F) : LinearView (valueAt (G := F) x) where
  zeros := value_zeros x
  add := value_add x
  scale := fun a scalar => value_scaled x scalar a
  padded := value_padded x

theorem coefficient_linear (j : Nat) : LinearView fun coeffs : List F => coeffs.getD j 0 where
  zeros := by
    intro count
    by_cases inside : j < count
    · simp [getD_eq_getElem?_getD, inside]
    · simp [getD_eq_getElem?_getD, inside]
  add := by
    intro a b same
    by_cases inside : j < a.length
    · have both : j < b.length := by omega
      simp [addCoefficients, getD_eq_getElem?_getD, inside, both]
    · have neither : b.length ≤ j := by omega
      simp [addCoefficients, getD_eq_getElem?_getD, getElem?_zipWith,
        getElem?_eq_none (Nat.not_lt.mp inside), getElem?_eq_none neither]
  scale := by
    intro a scalar
    cases found : a[j]? with
    | none | some _ => simp [getD_eq_getElem?_getD, found]
  padded := by
    intro a count
    by_cases inside : j < a.length
    · simp [getD_eq_getElem?_getD, getElem?_append_left inside]
    · have beyond := Nat.not_lt.mp inside
      rw [getD_eq_getElem?_getD, getElem?_append_right beyond, getElem?_replicate,
        getD_eq_getElem?_getD, getElem?_eq_none beyond]
      split_ifs
      · rfl
      · rfl

noncomputable def coefficients (count : Nat) (poly : Polynomial F) : List F :=
  (range count).map poly.coeff

@[simp] theorem coefficients_length (count : Nat) (poly : Polynomial F) :
    (coefficients count poly).length = count := by
  simp [coefficients]

theorem coefficients_take {count fewer : Nat} (le : fewer ≤ count) (poly : Polynomial F) :
    (coefficients count poly).take fewer = coefficients fewer poly := by
  rw [coefficients, ← map_take, take_range, Nat.min_eq_left le, coefficients]

theorem value_coefficients (x : F) {count : Nat} {poly : Polynomial F}
    (small : poly.natDegree < count) : valueAt x (coefficients count poly) = poly.eval x := by
  rw [value_eq_sum, coefficients_length, Polynomial.eval_eq_sum_range' small]
  apply Finset.sum_congr rfl
  intro j mem
  have inside := Finset.mem_range.mp mem
  simp [coefficients, inside, mul_comm]

/-- The quotient by `X^n - 1`, and its degree. -/
theorem vanishing_quotient {n bound : Nat} (pos : 0 < n) {poly : Polynomial F}
    (divides : Polynomial.X ^ n - 1 ∣ poly) (degree : poly.natDegree ≤ bound + n)
    : ∃ quotient : Polynomial F, poly = (Polynomial.X ^ n - 1) * quotient ∧
      quotient.natDegree ≤ bound := by
  rcases divides with ⟨quotient, product⟩
  have leading : (Polynomial.X ^ n - 1 : Polynomial F).natDegree = n := by
    rw [← Polynomial.C_1, Polynomial.natDegree_X_pow_sub_C]
  by_cases zero : quotient = 0
  · exact ⟨quotient, product, by rw [zero, Polynomial.natDegree_zero]; exact Nat.zero_le bound⟩
  · have nonzero : (Polynomial.X ^ n - 1 : Polynomial F) ≠ 0 := by
      intro vanishes
      rw [vanishes, Polynomial.natDegree_zero] at leading
      omega
    have total := Polynomial.natDegree_mul nonzero zero
    rw [← product, leading] at total
    exact ⟨quotient, product, by omega⟩

end Midfall.LimbedPolynomials
