import Midfall.DomainConversions
import Midfall.ListLoops

/-!
# Rotations and Lagrange polynomials of a domain

Rotations multiply by powers of the generator. The Lagrange polynomials at a
point outside of the domain come from the barycentric formula, with one batch
inversion for all of them.
-/

namespace Midfall.DomainRotations

open DomainConversions ListLoops RadixTwo List

variable {F : Type} [Field F]

def rotateOmega (domain : EvaluationDomain F) (value : F) (rotation : Int) : F :=
  if 0 ≤ rotation then value * domain.omega ^ rotation.toNat
  else value * domain.omegaInv ^ rotation.natAbs

theorem small_value_row (domain : EvaluationDomain F) (poly : List F) {row : Nat}
    (inside : row < 2 ^ domain.k) :
    valueAt (domain.omega ^ row) poly = (smallValues domain poly).getD row 0 := by
  simp [smallValues, getD_eq_getElem?_getD, inside]

section Rotations

variable {domain : EvaluationDomain F} (wellFormed : WellFormed domain)

include wellFormed

theorem omega_nonzero : domain.omega ≠ 0 :=
  wellFormed.omega.ne_zero (Nat.two_pow_pos domain.k).ne'

theorem rotate_omega_eq (value : F) (rotation : Int) :
    rotateOmega domain value rotation = value * domain.omega ^ rotation := by
  unfold rotateOmega
  split_ifs with forward
  · rw [← zpow_natCast, Int.toNat_of_nonneg forward]
  · rw [wellFormed.omegaInv, inv_pow, ← zpow_natCast, ← zpow_neg]
    congr 2
    omega

theorem omega_zpow_row (rotation : Int) :
    domain.omega ^ rotation = domain.omega ^ (rotation % (2 ^ domain.k : Nat)).toNat := by
  have pos : (0 : Int) < (2 ^ domain.k : Nat) := by exact_mod_cast Nat.two_pow_pos domain.k
  have whole : domain.omega ^ (((2 ^ domain.k : Nat) : Int) * (rotation / (2 ^ domain.k : Nat))) =
      1 := by
    rw [zpow_mul, zpow_natCast, wellFormed.omega.pow_eq_one, one_zpow]
  have split := Int.emod_add_mul_ediv rotation (2 ^ domain.k : Nat)
  nth_rewrite 1 [← split]
  rw [zpow_add₀ (omega_nonzero wellFormed), whole, mul_one, ← zpow_natCast,
    Int.toNat_of_nonneg (Int.emod_nonneg _ pos.ne')]

theorem rotate_row (row : Nat) (rotation : Int) :
    rotateOmega domain (domain.omega ^ row) rotation =
      domain.omega ^ ((row + rotation) % (2 ^ domain.k : Nat)).toNat := by
  rw [rotate_omega_eq wellFormed, ← omega_zpow_row wellFormed, ← zpow_natCast,
    ← zpow_add₀ (omega_nonzero wellFormed)]

theorem row_value (poly : List F) {row : Nat} (inside : row < domain.n) :
    valueAt (domain.omega ^ row) poly = (smallValues domain poly).getD row 0 := by
  rw [wellFormed.n] at inside
  exact small_value_row domain poly inside

theorem next_row_value (poly : List F) {row : Nat} (inside : row + 1 < domain.n) :
    valueAt (rotateOmega domain (domain.omega ^ row) 1) poly =
      (smallValues domain poly).getD (row + 1) 0 := by
  have around : ((row : Int) + 1) % (2 ^ domain.k : Nat) = ((row + 1 : Nat) : Int) := by
    rw [← wellFormed.n]
    exact Int.emod_eq_of_lt (by omega) (by exact_mod_cast inside)
  rw [rotate_row wellFormed, around, Int.toNat_natCast, row_value wellFormed poly inside]

theorem row_from_end_value (poly : List F) {count : Nat} (pos : 0 < count)
    (enough : count ≤ domain.n) :
    valueAt (rotateOmega domain (domain.omega ^ 0) (-(count : Int))) poly =
      (smallValues domain poly).getD (domain.n - count) 0 := by
  have below : domain.n - count < domain.n := by omega
  have around : (((0 : Nat) : Int) + -(count : Int)) % (2 ^ domain.k : Nat) =
      (domain.n - count : Nat) := by
    have total : ((0 : Nat) : Int) + -(count : Int) + (domain.n : Int) =
        (domain.n - count : Nat) := by omega
    rw [← wellFormed.n, ← Int.add_emod_right, total]
    exact Int.emod_eq_of_lt (Int.natCast_nonneg _) (by exact_mod_cast below)
  rw [rotate_row wellFormed, around, Int.toNat_natCast, row_value wellFormed poly below]

theorem interpolate_column {threads : Nat} (pos : 0 < threads) {column : List F}
    (length : column.length = 2 ^ domain.k) :
    ∃ poly, domain.lagrangeToCoeff threads column = some poly ∧
      smallValues domain poly = column ∧ poly.length = 2 ^ domain.k := by
  have converts := well_formed_converts wellFormed
  rcases converts.lagrangeInverse threads threads column pos pos length with
    ⟨poly, toCoeff, toValues⟩
  have poly_length : poly.length = 2 ^ domain.k := by
    by_contra different
    rw [EvaluationDomain.coeffToLagrange, if_pos different] at toValues
    cases toValues
  rw [converts.toLagrange threads poly pos poly_length, Option.some.injEq] at toValues
  exact ⟨poly, toCoeff, toValues, poly_length⟩

theorem interpolate_all {threads : Nat} (pos : 0 < threads) {columns : List (List F)}
    (lengths : ∀ column ∈ columns, column.length = 2 ^ domain.k) :
    ∃ polys, columns.mapM (domain.lagrangeToCoeff threads) = some polys ∧
      polys.map (smallValues domain) = columns ∧ ∀ poly ∈ polys, poly.length = 2 ^ domain.k := by
  have interpolated : ∀ column ∈ columns, ∃ poly,
      domain.lagrangeToCoeff threads column = some poly ∧
        (smallValues domain poly, poly.length) = (column, 2 ^ domain.k) := by
    intro column mem
    rcases interpolate_column wellFormed pos (lengths column mem) with
      ⟨poly, toCoeff, toValues, poly_length⟩
    exact ⟨poly, toCoeff, by rw [toValues, poly_length]⟩
  rcases map_m_exists columns interpolated with ⟨polys, found, viewed⟩
  have small : polys.map (smallValues domain) = columns := by
    have firsts := congrArg (List.map Prod.fst) viewed
    simpa [map_map, Function.comp_def] using firsts
  have sizes : ∀ poly ∈ polys, poly.length = 2 ^ domain.k := by
    intro poly mem
    have paired : (smallValues domain poly, poly.length) ∈
        columns.map fun column => (column, 2 ^ domain.k) := by
      rw [← viewed]
      exact mem_map_of_mem mem
    rcases mem_map.mp paired with ⟨column, -, same⟩
    exact (Prod.ext_iff.mp same).2.symm
  exact ⟨polys, found, small, sizes⟩

end Rotations

/-- `l_i_range`: one batch inversion for all rotations. -/
def lIRange (domain : EvaluationDomain F) (x xn : F) (rotations : List Int) : List F :=
  let results := (rotations.map fun rotation => x - rotateOmega domain 1 rotation).map
    fun result => result⁻¹
  let common := (xn - 1) * domain.barycentricWeight
  (rotations.zip results).map fun entry => rotateOmega domain (entry.2 * common) entry.1

def lagrangeAt (domain : EvaluationDomain F) (x xn : F) (rotation : Int) : F :=
  rotateOmega domain
    ((x - rotateOmega domain 1 rotation)⁻¹ * ((xn - 1) * domain.barycentricWeight)) rotation

theorem l_i_range_eq (domain : EvaluationDomain F) (x xn : F) (rotations : List Int) :
    lIRange domain x xn rotations = rotations.map (lagrangeAt domain x xn) := by
  apply ext_getElem
  · simp [lIRange]
  · intro i _ _
    simp [lIRange, lagrangeAt]

section Lagrange

variable {domain : EvaluationDomain F} (wellFormed : WellFormed domain)
  (weight : domain.barycentricWeight = ((domain.n : Nat) : F)⁻¹)

include wellFormed

include weight

end Lagrange

/-- The polynomial that is one at `omega ^ row` and zero at the other rows. -/
noncomputable def lagrangeBasis (domain : EvaluationDomain F) (row : Nat) : Polynomial F :=
  Lagrange.basis (Finset.range domain.n) (fun node => domain.omega ^ node) row

section Basis

variable {omega x : F} {n row : Nat} (primitive : IsPrimitiveRoot omega n)

include primitive

theorem nodal_of_roots (pos : 0 < n) :
    Lagrange.nodal (Finset.range n) (fun node => omega ^ node) = Polynomial.X ^ n - 1 := by
  have product := X_pow_sub_C_eq_prod primitive pos (one_pow n)
  rw [← Polynomial.C_1, product, Lagrange.nodal]
  apply Finset.prod_congr rfl
  intro node _
  rw [mul_one]

theorem basis_of_roots (inside : row < n) (outside : x ^ n ≠ 1) :
    (Lagrange.basis (Finset.range n) (fun node => omega ^ node) row).eval x =
      (x - omega ^ row)⁻¹ * ((x ^ n - 1) * (n : F)⁻¹) * omega ^ row := by
  have pos : 0 < n := Nat.zero_lt_of_lt inside
  have root : (omega ^ row) ^ n = 1 := by
    rw [← pow_mul, mul_comm, pow_mul, primitive.pow_eq_one, one_pow]
  have apart : x ≠ omega ^ row := by
    intro same
    rw [same] at outside
    exact outside root
  have mem : row ∈ Finset.range n := Finset.mem_range.mpr inside
  have previous : (omega ^ row) ^ (n - 1) * omega ^ row = 1 := by
    rw [← pow_succ, Nat.sub_add_cancel pos, root]
  rw [Lagrange.eval_basis_not_at_node mem apart,
    Lagrange.nodalWeight_eq_eval_derivative_nodal mem, nodal_of_roots primitive pos]
  simp only [Polynomial.eval_sub, Polynomial.eval_pow, Polynomial.eval_X, Polynomial.eval_one,
    Polynomial.derivative_sub, Polynomial.derivative_X_pow, Polynomial.derivative_one, sub_zero,
    Polynomial.eval_mul, Polynomial.eval_C, mul_inv]
  rw [inv_eq_of_mul_eq_one_right previous]
  ring

end Basis

/-- Every requested rotation, of any sign and size, is the Lagrange polynomial of its
row; rotating multiplies by a power of `omega`. -/
theorem lagrange_evaluations [DecidableEq F] {params : WithSmallOrderMulGroup F}
    {overflowChecks : Bool} {j k : Nat} {domain : EvaluationDomain F}
    (accepted : EvaluationDomain.new params overflowChecks j k = some domain) {x : F}
    (outside : x ^ domain.n ≠ 1) (rotations : List Int) :
    lIRange domain x (x ^ domain.n) rotations =
        (rotations.map fun rotation : Int =>
          (lagrangeBasis domain (rotation % domain.n).toNat).eval x) ∧
      ∀ value rotation, rotateOmega domain value rotation = domain.omega ^ rotation * value := by
  have wellFormed := new_well_formed accepted
  have rows := new_rows accepted
  constructor
  · have primitive : IsPrimitiveRoot domain.omega domain.n := by
      rw [wellFormed.n]
      exact wellFormed.omega
    have positive : (0 : Int) < domain.n := by
      rw [wellFormed.n]
      exact_mod_cast Nat.two_pow_pos domain.k
    rw [l_i_range_eq]
    apply map_congr_left
    intro rotation _
    have inside : (rotation % domain.n).toNat < domain.n := by
      have below := Int.emod_lt_of_pos rotation positive
      omega
    have row := omega_zpow_row wellFormed rotation
    rw [← wellFormed.n] at row
    rw [lagrangeBasis, basis_of_roots primitive inside outside, lagrangeAt,
      rotate_omega_eq wellFormed, rotate_omega_eq wellFormed, one_mul, row, rows.2.2]
  · intro value rotation
    rw [rotate_omega_eq wellFormed, mul_comm]

theorem four_rows : ∃ domain, EvaluationDomain.new thirteenGroup true 2 2 = some domain ∧
    domain.n = 4 ∧ ((2 : Nat) : ZMod 13) ^ domain.n ≠ 1 := by
  have accepted : (EvaluationDomain.new thirteenGroup true 2 2).map (fun domain => domain.n) =
      some 4 := by decide +kernel
  rcases Option.map_eq_some_iff.mp accepted with ⟨domain, built, size⟩
  refine ⟨domain, built, size, ?_⟩
  rw [size]
  decide

/-- A row twice and a rotation of several turns backwards, on four rows. -/
theorem lagrange_evaluations_four_rows :
    ∃ domain : EvaluationDomain (ZMod 13),
      EvaluationDomain.new thirteenGroup true 2 2 = some domain ∧
      lIRange domain ((2 : Nat) : ZMod 13) (((2 : Nat) : ZMod 13) ^ domain.n) [1, 1, -9] =
        ([1, 1, -9] : List Int).map fun rotation : Int =>
          (lagrangeBasis domain (rotation % domain.n).toNat).eval ((2 : Nat) : ZMod 13) := by
  rcases four_rows with ⟨domain, built, -, outside⟩
  exact ⟨domain, built, (lagrange_evaluations built outside [1, 1, -9]).1⟩

end Midfall.DomainRotations
