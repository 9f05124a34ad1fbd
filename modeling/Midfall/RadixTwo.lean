import Mathlib

/-!
# Radix-two transforms

The values of a list of coefficients at the powers of a scalar. A list of even
length splits into its entries at even and at odd places; the transforms of the
two parts determine the transform of the whole. Entries in bit-reversed order
are the two parts one after the other, each in bit-reversed order.
-/

namespace Midfall.RadixTwo

open List

section Entries

variable {G : Type}

def everyOther : List G → List G
  | [] => []
  | [first] => [first]
  | first :: _ :: rest => first :: everyOther rest

theorem every_other_cons (first : G) (rest : List G) :
    everyOther (first :: rest) = first :: everyOther rest.tail := by
  cases rest <;> rfl

theorem every_other_length (entries : List G) :
    (everyOther entries).length = (entries.length + 1) / 2 := by
  induction entries using everyOther.induct with
  | case1 => simp [everyOther]
  | case2 first => simp [everyOther]
  | case3 first second rest ih =>
    rw [everyOther, length_cons, ih, length_cons, length_cons]
    omega

theorem every_other_get (entries : List G) (i : Nat) : (everyOther entries)[i]? = entries[2 * i]? := by
  induction entries using everyOther.induct generalizing i with
  | case1 => rfl
  | case2 first =>
    cases i with
    | zero => rfl
    | succ i =>
      rw [everyOther, getElem?_eq_none, getElem?_eq_none]
      · rw [length_singleton]
        omega
      · rw [length_singleton]
        omega
  | case3 first second rest ih =>
    cases i with
    | zero => rfl
    | succ i =>
      rw [everyOther, getElem?_cons_succ, ih, Nat.mul_succ, getElem?_cons_succ, getElem?_cons_succ]

theorem every_other_tail_get (entries : List G) (i : Nat) :
    (everyOther entries.tail)[i]? = entries[2 * i + 1]? := by
  rw [every_other_get, getElem?_tail]

variable {entries : List G}

theorem halves_length {half : Nat} (length : entries.length = 2 * half) :
    (everyOther entries).length = half ∧ (everyOther entries.tail).length = half := by
  rw [every_other_length, every_other_length, length_tail]
  omega

def shuffled : Nat → List G → List G
  | 0, entries => entries
  | log + 1, entries => shuffled log (everyOther entries) ++ shuffled log (everyOther entries.tail)

theorem power_halves {log : Nat} (length : entries.length = 2 ^ (log + 1)) :
    (everyOther entries).length = 2 ^ log ∧ (everyOther entries.tail).length = 2 ^ log := by
  apply halves_length
  rw [length, pow_succ, Nat.mul_comm]

theorem shuffled_length {log : Nat} (length : entries.length = 2 ^ log) :
    (shuffled log entries).length = 2 ^ log := by
  induction log generalizing entries with
  | zero => exact length
  | succ log ih =>
    rcases power_halves length with ⟨even, odd⟩
    rw [shuffled, length_append, ih even, ih odd, pow_succ]
    omega

end Entries

section Values

variable {Scalar G : Type} [CommRing Scalar] [AddCommGroup G] [Module Scalar G]

def valueAt (point : Scalar) : List G → G
  | [] => 0
  | first :: rest => first + point • valueAt point rest

theorem value_eq_sum (point : Scalar) (coeffs : List G) :
    valueAt point coeffs = ∑ j ∈ Finset.range coeffs.length, point ^ j • coeffs.getD j 0 := by
  induction coeffs with
  | nil => rfl
  | cons first rest ih =>
    rw [valueAt, ih, length_cons, Finset.sum_range_succ', Finset.smul_sum]
    simp only [getD_cons_zero, getD_cons_succ, pow_zero, one_smul, smul_smul, pow_succ']
    exact add_comm _ _

/-- Even places at the square, and odd places once more times the point. -/
theorem value_split (point : Scalar) (coeffs : List G) :
    valueAt point coeffs = valueAt (point * point) (everyOther coeffs) +
      point • valueAt (point * point) (everyOther coeffs.tail) := by
  induction coeffs with
  | nil =>
    show (0 : G) = 0 + point • (0 : G)
    rw [smul_zero, add_zero]
  | cons first rest ih =>
    rw [every_other_cons, valueAt, ih, valueAt, tail_cons, smul_add, smul_smul]
    abel

theorem value_append (point : Scalar) (coeffs more : List G) :
    valueAt point (coeffs ++ more) =
      valueAt point coeffs + point ^ coeffs.length • valueAt point more := by
  induction coeffs with
  | nil => rw [nil_append, valueAt, length_nil, pow_zero, one_smul, zero_add]
  | cons first rest ih =>
    rw [cons_append, valueAt, ih, valueAt, length_cons, pow_succ', smul_add, smul_smul, add_assoc]

theorem value_zeros (point : Scalar) (count : Nat) :
    valueAt point (replicate count (0 : G)) = 0 := by
  induction count with
  | zero => rfl
  | succ count ih => rw [replicate_succ, valueAt, ih, smul_zero, add_zero]

theorem value_padded (point : Scalar) (coeffs : List G) (count : Nat) :
    valueAt point (coeffs ++ replicate count 0) = valueAt point coeffs := by
  rw [value_append, value_zeros, smul_zero, add_zero]

/-- The values at the powers of a scalar, as many as there are coefficients. -/
def transform (omega : Scalar) (coeffs : List G) : List G :=
  (range coeffs.length).map fun i => valueAt (omega ^ i) coeffs

@[simp]
theorem transform_length (omega : Scalar) (coeffs : List G) :
    (transform omega coeffs).length = coeffs.length := by
  rw [transform, length_map, length_range]

theorem transform_eq_sums (omega : Scalar) (coeffs : List G) :
    transform omega coeffs = (range coeffs.length).map fun i =>
      ∑ j ∈ Finset.range coeffs.length, omega ^ (i * j) • coeffs.getD j 0 := by
  unfold transform
  apply map_congr_left
  intro i _
  rw [value_eq_sum]
  simp only [pow_mul]

theorem transform_halves {omega : Scalar} {coeffs : List G} {half : Nat}
    (length : coeffs.length = 2 * half) (minusOne : omega ^ half = -1) :
    transform omega coeffs =
      zipWith (fun (even : G) (turned : G) => even + turned)
          (transform (omega * omega) (everyOther coeffs))
          (zipWith (fun (i : Nat) (odd : G) => omega ^ i • odd) (range half)
            (transform (omega * omega) (everyOther coeffs.tail))) ++
        zipWith (fun (even : G) (turned : G) => even - turned)
          (transform (omega * omega) (everyOther coeffs))
          (zipWith (fun (i : Nat) (odd : G) => omega ^ i • odd) (range half)
            (transform (omega * omega) (everyOther coeffs.tail))) := by
  rcases halves_length length with ⟨even, odd⟩
  have one : omega ^ (2 * half) = 1 := by
    rw [Nat.mul_comm, pow_mul, minusOne, neg_one_sq]
  have square : ∀ i, omega ^ i * omega ^ i = (omega * omega) ^ i := fun i => (mul_pow _ _ _).symm
  have places : range coeffs.length =
      range half ++ (range half).map fun i => half + i := by
    rw [length, two_mul, range_add]
  unfold transform
  rw [places, map_append, even, odd, map_map]
  simp only [zipWith_map_right, zipWith_map_left, zipWith_self]
  congr 1
  · apply map_congr_left
    intro i _
    rw [value_split, square]
  · apply map_congr_left
    intro i _
    have squared : omega ^ (half + i) * omega ^ (half + i) = (omega * omega) ^ i := by
      rw [← pow_add, ← square, show half + i + (half + i) = 2 * half + (i + i) by ring,
        pow_add omega (2 * half), one, one_mul, pow_add]
    rw [Function.comp_apply, value_split, squared, pow_add, minusOne, neg_one_mul, neg_smul,
      sub_eq_add_neg]

end Values

section Inverse

variable {F : Type} [Field F]

theorem value_scaled (point factor : F) (coeffs : List F) :
    valueAt point (coeffs.map fun coeff => coeff * factor) = valueAt point coeffs * factor := by
  induction coeffs with
  | nil => exact (zero_mul factor).symm
  | cons first rest ih =>
    rw [map_cons, valueAt, ih, valueAt, smul_eq_mul, smul_eq_mul]
    ring

theorem transform_scaled (omega factor : F) (coeffs : List F) :
    transform omega (coeffs.map fun coeff => coeff * factor) =
      (transform omega coeffs).map fun value => value * factor := by
  unfold transform
  rw [length_map, map_map]
  apply map_congr_left
  intro i _
  exact value_scaled _ _ _

/-- The coefficients of the polynomial with a scaled variable. -/
def scaledByPowers (factor : F) (coeffs : List F) : List F :=
  coeffs.zipIdx.map fun entry => entry.1 * factor ^ entry.2

@[simp]
theorem scaled_by_powers_length (factor : F) (coeffs : List F) :
    (scaledByPowers factor coeffs).length = coeffs.length := by
  rw [scaledByPowers, length_map, length_zipIdx]

theorem value_scaled_by_powers (point factor : F) (coeffs : List F) :
    valueAt point (scaledByPowers factor coeffs) = valueAt (factor * point) coeffs := by
  have shifted : ∀ start, valueAt point ((coeffs.zipIdx start).map fun entry =>
      entry.1 * factor ^ entry.2) = factor ^ start * valueAt (factor * point) coeffs := by
    induction coeffs with
    | nil => exact fun start => (mul_zero _).symm
    | cons first rest ih =>
      intro start
      rw [zipIdx_cons, map_cons, valueAt, ih, valueAt, smul_eq_mul, smul_eq_mul]
      ring
  rw [scaledByPowers, shifted, pow_zero, one_mul]

theorem transform_scaled_by_powers (omega factor : F) (coeffs : List F) :
    transform omega (scaledByPowers factor coeffs) =
      (range coeffs.length).map fun i => valueAt (factor * omega ^ i) coeffs := by
  unfold transform
  rw [scaled_by_powers_length]
  apply map_congr_left
  intro i _
  exact value_scaled_by_powers _ _ _

theorem scaled_twice {factor other : F} (inverse : factor * other = 1) (coeffs : List F) :
    scaledByPowers other (scaledByPowers factor coeffs) = coeffs := by
  apply ext_getElem
  · rw [scaled_by_powers_length, scaled_by_powers_length]
  · intro i _ _
    simp only [scaledByPowers, getElem_map, getElem_zipIdx, zero_add, mul_assoc]
    rw [← mul_pow, inverse, one_pow, mul_one]

theorem scaled_padded (factor : F) (coeffs : List F) (count : Nat) :
    scaledByPowers factor (coeffs ++ replicate count 0) =
      scaledByPowers factor coeffs ++ replicate count 0 := by
  unfold scaledByPowers
  rw [zipIdx_append, map_append]
  congr 1
  apply ext_getElem
  · simp
  · intro i _ _
    simp

variable {n : Nat}

theorem powers_cancel {root : F} (unity : root ^ n = 1) (other : root ≠ 1) :
    ∑ k ∈ Finset.range n, root ^ k = 0 := by
  have product := geom_sum_mul root n
  rw [unity, sub_self] at product
  exact (mul_eq_zero.mp product).resolve_right (sub_ne_zero.mpr other)

section

variable {omega : F} (primitive : IsPrimitiveRoot omega n)

include primitive

theorem transform_inverse {coeffs : List F} (length : coeffs.length = n) :
    transform omega⁻¹ (transform omega coeffs) = coeffs.map fun coeff => coeff * (n : F) := by
  have orthogonal : ∀ i < n, ∀ j < n,
      ∑ k ∈ Finset.range n, omega⁻¹ ^ (i * k) * omega ^ (k * j) = if j = i then (n : F) else 0 := by
    intro i inside j insideToo
    have nonzero : omega ≠ 0 := primitive.ne_zero (by omega)
    have quotient : ∀ k, omega⁻¹ ^ (i * k) * omega ^ (k * j) = (omega⁻¹ ^ i * omega ^ j) ^ k := by
      intro k
      rw [mul_pow, ← pow_mul, ← pow_mul, Nat.mul_comm j k]
    simp only [quotient]
    split_ifs with same
    · rw [same, ← mul_pow, inv_mul_cancel₀ nonzero, one_pow]
      simp
    · apply powers_cancel
      · rw [mul_pow, ← pow_mul, ← pow_mul, Nat.mul_comm i, Nat.mul_comm j, pow_mul, pow_mul,
          inv_pow, primitive.pow_eq_one, inv_one, one_pow, one_pow, one_mul]
      · intro one
        rw [inv_pow, inv_mul_eq_one₀ (pow_ne_zero i nonzero)] at one
        exact same (primitive.pow_inj inside insideToo one).symm
  rw [transform_eq_sums, transform_eq_sums, length_map, length_range, length]
  apply ext_getElem
  · rw [length_map, length_range, length_map, length]
  · intro i inside insideToo
    rw [length_map, length_range] at inside
    rw [getElem_map, getElem_range, getElem_map]
    have values : ∀ k ∈ Finset.range n, omega⁻¹ ^ (i * k) • ((range n).map fun i =>
        ∑ j ∈ Finset.range n, omega ^ (i * j) • coeffs.getD j 0).getD k 0 =
          ∑ j ∈ Finset.range n, omega⁻¹ ^ (i * k) * omega ^ (k * j) * coeffs.getD j 0 := by
      intro k mem
      have bound := Finset.mem_range.mp mem
      rw [getD_eq_getElem _ _ (by rwa [length_map, length_range]), getElem_map,
        getElem_range, smul_eq_mul, Finset.mul_sum]
      simp only [smul_eq_mul, mul_assoc]
    rw [Finset.sum_congr rfl values, Finset.sum_comm]
    have weights : ∀ j ∈ Finset.range n, ∑ k ∈ Finset.range n,
        omega⁻¹ ^ (i * k) * omega ^ (k * j) * coeffs.getD j 0 =
          if j = i then coeffs.getD j 0 * n else 0 := by
      intro j mem
      rw [← Finset.sum_mul, orthogonal i inside j (Finset.mem_range.mp mem), ite_mul, zero_mul,
        mul_comm]
    rw [Finset.sum_congr rfl weights, Finset.sum_ite_eq' (Finset.range n) i,
      if_pos (Finset.mem_range.mpr inside), getD_eq_getElem _ _ (by rwa [length])]

end

end Inverse

end Midfall.RadixTwo
