import Midfall.DomainConversions
import Midfall.LimbedPolynomials
import Midfall.ListLoops
import Midfall.ProofReadOrder

/-!
# The limbs of the quotient

The prover divides the numerator by the vanishing polynomial on the extended
domain, cuts the quotient into limbs of `n - 1` coefficients and moves a random
term from the constant of each limb to the top of the one before.
-/

namespace Midfall.QuotientLimbs

open DomainConversions LimbedPolynomials ListLoops ProofReadOrder List
open Option (bind_eq_bind bind_eq_some_iff bind_some map_some)
open RadixTwo

variable {F : Type} [Field F]

/-- The remainder by the number of evaluations panics where there are none. -/
def divideByVanishingPoly (threads : Nat) (domain : EvaluationDomain F) (a : List F) :
    Option (List F) :=
  if a.length ≠ domain.extendedLen ∨ domain.tEvaluations = [] then none
  else some (parallelize threads (fun h index => (h.zipIdx index).map fun value =>
    value.1 * domain.tEvaluations.getD (value.2 % domain.tEvaluations.length) 0) a)

/-- The loop over the limbs, with the random values drawn so far. -/
def blindLimbs (random : Nat → F) : Nat → List F → List (List F) → Option (List (List F))
  | _, limb, [] => some [limb ++ [0]]
  | _, _, [] :: _ => none
  | drawn, limb, (first :: others) :: rest => do
    let t := random drawn
    let blinded ← blindLimbs random (drawn + 1) ((first - t) :: others) rest
    return (limb ++ [t]) :: blinded

def blindQuotientLimbs (random : Nat → F) : List (List F) → Option (List (List F))
  | first :: second :: rest => blindLimbs random 0 first (second :: rest)
  | _ => none

/-- `compute_h_poly`: the limbs that are committed to. -/
def computeHPoly (overflowChecks : Bool) (threads : Nat) (random : Nat → F)
    (domain : EvaluationDomain F) (nuPoly : List F) : Option (List (List F)) := do
  let hPoly ← divideByVanishingPoly threads domain nuPoly
  let hPoly ← domain.extendedToCoeff threads hPoly
  let length ← mulU64 overflowChecks (domain.n - 1) domain.quotientPolyDegree
  let hPoly := hPoly.take length
  if domain.n - 1 = 0 ∨ hPoly.length % (domain.n - 1) ≠ 0 then none
  else
    let hLimbs ← blindQuotientLimbs random (chunks (domain.n - 1) hPoly)
    hLimbs.mapM fun hLimb => if hLimb.length = domain.n then some hLimb else none

section Vanishing

variable [DecidableEq F]

/-- What `EvaluationDomain::new` promises of the quotient. -/
structure Divides (domain : EvaluationDomain F) (d : Nat) : Prop where
  wellFormed : WellFormed domain
  degree : domain.quotientPolyDegree = d - 1
  large : domain.n * (d - 1) ≤ domain.extendedLen
  nonempty : domain.tEvaluations ≠ []
  inverse : ∀ i, domain.tEvaluations.getD (i % domain.tEvaluations.length) 0 =
    ((domain.gCoset * domain.extendedOmega ^ i) ^ domain.n - 1)⁻¹
  outside : ∀ i, (domain.gCoset * domain.extendedOmega ^ i) ^ domain.n ≠ 1

theorem cycle_powers_eq {step orig cur : F} {fuel : Nat} {powers : List F}
    (cycled : cyclePowers step orig fuel cur = some powers) :
    powers = (List.range powers.length).map fun i => cur * step ^ i := by
  induction fuel generalizing cur powers with
  | zero => cases cycled
  | succ fuel ih =>
    rw [cyclePowers] at cycled
    split_ifs at cycled with last
    · rw [← Option.some.inj cycled]
      simp
    · rcases Option.map_eq_some_iff.mp cycled with ⟨rest, later, same⟩
      have shifted := ih later
      rw [← same, length_cons, range_succ_eq_map, map_cons, pow_zero, mul_one, map_map]
      nth_rewrite 1 [shifted]
      congr 1
      apply map_congr_left
      intro i _
      simp only [Function.comp_apply, pow_succ', mul_assoc]

theorem grow_k_large {target fuel start extendedK : Nat}
    (grown : growK target fuel start = some extendedK) : target ≤ 2 ^ extendedK := by
  induction fuel generalizing start with
  | zero => cases grown
  | succ fuel ih =>
    rw [growK] at grown
    split_ifs at grown with wide small
    · exact ih grown
    · rw [← Option.some.inj grown]
      exact Nat.not_lt.mp small

omit [DecidableEq F] in
theorem coset_outside {domain : EvaluationDomain F} (wellFormed : WellFormed domain)
    (zeta : domain.gCoset ≠ 1) (i : Nat) :
    (domain.gCoset * domain.extendedOmega ^ i) ^ domain.n ≠ 1 := by
  intro inside
  rw [mul_pow, ← pow_mul] at inside
  have cubed : domain.extendedOmega ^ (i * domain.n * 3) = 1 := by
    have power := congrArg (fun value => value ^ 3) inside
    simpa only [mul_pow, ← pow_mul, Nat.mul_comm domain.n 3, pow_mul domain.gCoset,
      wellFormed.gCoset, one_pow, one_mul] using power
  have divides := wellFormed.extendedOmega.dvd_of_pow_eq_one _ cubed
  have coprime : Nat.Coprime (2 ^ domain.extendedK) 3 := Nat.Coprime.pow_left _ (by decide)
  have whole := (wellFormed.extendedOmega.pow_eq_one_iff_dvd (i * domain.n)).mpr
    (coprime.dvd_of_dvd_mul_right divides)
  rw [whole, mul_one] at inside
  have small : Nat.gcd domain.n 3 = 1 := by
    rw [wellFormed.n]
    exact Nat.Coprime.pow_left _ (by decide)
  have trivial_root := pow_gcd_eq_one.mpr ⟨inside, wellFormed.gCoset⟩
  rw [small, pow_one] at trivial_root
  exact zeta trivial_root

omit [DecidableEq F] in
theorem evaluations_repeat {domain : EvaluationDomain F} (wellFormed : WellFormed domain)
    (evaluations : domain.tEvaluations = (List.range (2 ^ (domain.extendedK - domain.k))).map
      fun i => (domain.gCoset ^ domain.n * (domain.extendedOmega ^ domain.n) ^ i - 1)⁻¹) (i : Nat) :
    domain.tEvaluations.getD (i % domain.tEvaluations.length) 0 =
      ((domain.gCoset * domain.extendedOmega ^ i) ^ domain.n - 1)⁻¹ := by
  have size : domain.tEvaluations.length = 2 ^ (domain.extendedK - domain.k) := by
    rw [evaluations, length_map, length_range]
  have below := Nat.mod_lt i (Nat.two_pow_pos (domain.extendedK - domain.k))
  have cycle : (domain.extendedOmega ^ domain.n) ^ 2 ^ (domain.extendedK - domain.k) = 1 := by
    rw [← pow_mul, wellFormed.n, ← pow_add, Nat.add_sub_cancel' wellFormed.k,
      wellFormed.extendedOmega.pow_eq_one]
  have period : (domain.extendedOmega ^ domain.n) ^ (i % 2 ^ (domain.extendedK - domain.k)) =
      (domain.extendedOmega ^ domain.n) ^ i := by
    nth_rewrite 2 [← Nat.mod_add_div i (2 ^ (domain.extendedK - domain.k))]
    rw [pow_add, pow_mul _ (2 ^ (domain.extendedK - domain.k)), cycle, one_pow, mul_one]
  rw [size, evaluations, getD_eq_getElem?_getD, getElem?_map, getElem?_range below, map_some,
    Option.getD_some, period, mul_pow, ← pow_mul, ← pow_mul, Nat.mul_comm domain.n i]

omit [Field F] [DecidableEq F] in
theorem mul_u64_fits (overflowChecks : Bool) {x y : Nat} (fits : x * y < 2 ^ 64) :
    mulU64 overflowChecks x y = some (x * y) := by
  rw [mulU64, Nat.mod_eq_of_lt fits, decide_eq_false (Nat.not_le.mpr fits), Bool.and_false]
  rfl

variable {params : WithSmallOrderMulGroup F}

section

variable {overflowChecks : Bool} {d k : Nat} {domain : EvaluationDomain F}
  (accepted : EvaluationDomain.new params overflowChecks d k = some domain) (pos : 0 < d)

include accepted pos

/-- Checked builds stop where the size of the extended domain wraps. -/
theorem new_product_fits (unchecked : overflowChecks = false → 2 ^ k * (d - 1) < 2 ^ 64) :
    2 ^ k * (d - 1) < 2 ^ 64 := by
  cases checked : overflowChecks with
  | false => exact unchecked checked
  | true =>
    rw [checked, EvaluationDomain.new, quotientDegree, if_neg pos.ne', bind_eq_bind,
      bind_some] at accepted
    split_ifs at accepted with wide
    dsimp only at accepted
    rcases bind_some_iff.mp accepted with ⟨target, product, _⟩
    by_contra large
    rw [mulU64, decide_eq_true (Nat.not_lt.mp large), Bool.and_true, if_pos rfl] at product
    cases product

theorem new_divides (fits : 2 ^ k * (d - 1) < 2 ^ 64) (zeta : params.zeta ≠ 1) :
    Divides domain d := by
  have wellFormed := new_well_formed accepted
  have degree : quotientDegree overflowChecks d = some (d - 1) := by
    rw [quotientDegree, if_neg pos.ne']
  have product := mul_u64_fits overflowChecks fits
  rw [EvaluationDomain.new, degree, bind_eq_bind, bind_some] at accepted
  split_ifs at accepted with wide
  dsimp only at accepted
  rw [product, bind_eq_bind, bind_some, bind_eq_some_iff] at accepted
  rcases accepted with ⟨extendedK, grown, afterGrown⟩
  split_ifs at afterGrown with beyond
  rw [bind_eq_some_iff] at afterGrown
  rcases afterGrown with ⟨powers, cycled, built⟩
  split_ifs at built with short
  have parts := Option.some.inj built
  have power_list := cycle_powers_eq cycled
  rw [not_not.mp short] at power_list
  have evaluations : domain.tEvaluations = (List.range (2 ^ (domain.extendedK - domain.k))).map
      fun i => (domain.gCoset ^ domain.n * (domain.extendedOmega ^ domain.n) ^ i - 1)⁻¹ := by
    rw [← parts]
    dsimp only
    rw [power_list, map_map]
    rfl
  have coset : domain.gCoset ≠ 1 := by
    rw [← parts]
    exact zeta
  have nonempty : domain.tEvaluations ≠ [] := by
    rw [evaluations]
    simp
  exact {
    wellFormed := wellFormed
    degree := by rw [← parts]
    large := by
      rw [← parts]
      exact grow_k_large grown
    nonempty := nonempty
    inverse := evaluations_repeat wellFormed evaluations
    outside := coset_outside wellFormed coset }

end

end Vanishing

noncomputable def numeratorValues (domain : EvaluationDomain F) (nu : Polynomial F) : List F :=
  (List.range domain.extendedLen).map fun i =>
    nu.eval (domain.gCoset * domain.extendedOmega ^ i)

section Limbs

variable {domain : EvaluationDomain F} {threads d : Nat} (pos : 0 < threads)
  (divides : Divides domain d)

include pos divides

variable {quotient : Polynomial F}

theorem divide_values (small : quotient.natDegree < domain.extendedLen) :
    divideByVanishingPoly threads domain
        (numeratorValues domain ((Polynomial.X ^ domain.n - 1) * quotient)) =
      some (cosetValues domain (coefficients domain.extendedLen quotient)) := by
  have each : Elementwise (fun (h : List F) index => (h.zipIdx index).map fun value =>
      value.1 * domain.tEvaluations.getD (value.2 % domain.tEvaluations.length) 0) _ := fun _ _ => rfl
  have length : (numeratorValues domain ((Polynomial.X ^ domain.n - 1) * quotient)).length =
      domain.extendedLen := by
    rw [numeratorValues, length_map, length_range]
  rw [divideByVanishingPoly, if_neg (by simp [length, divides.nonempty]),
    parallelize_elementwise each pos]
  congr 1
  apply ext_getElem (by simp [length, cosetValues])
  intro i _ inside
  rw [cosetValues, length_map, length_range] at inside
  have nonzero := sub_ne_zero.mpr (divides.outside i)
  simp only [getElem_map, getElem_zipIdx, Nat.zero_add, numeratorValues, cosetValues,
    getElem_range, divides.inverse, value_coefficients _ small]
  rw [Polynomial.eval_mul, Polynomial.eval_sub, Polynomial.eval_pow, Polynomial.eval_X,
    Polynomial.eval_one]
  field_simp

theorem quotient_coefficients {count : Nat} (small : quotient.natDegree < count)
    (le : count ≤ domain.extendedLen) :
    (divideByVanishingPoly threads domain
        (numeratorValues domain ((Polynomial.X ^ domain.n - 1) * quotient))).bind (fun hPoly =>
      (domain.extendedToCoeff threads hPoly).map fun hPoly => hPoly.take count) =
        some (coefficients count quotient) := by
  have converts := well_formed_converts divides.wellFormed
  rw [divide_values pos divides (small.trans_le le), bind_some,
    converts.fromExtended threads _ pos (coefficients_length _ _), map_some, coefficients_take le]

end Limbs

theorem blind_limbs_value {random : Nat → F} {step : Nat} {limb : List F} {rest : List (List F)}
    (drawn : Nat) (pos : 0 < step) (length : limb.length = step)
    (lengths : ∀ other ∈ rest, other.length = step) :
    ∃ blinded, blindLimbs random drawn limb rest = some blinded ∧
      blinded.length = rest.length + 1 ∧ (∀ other ∈ blinded, other.length = step + 1) ∧
      ∀ x, limbsValue x step blinded = limbsValue x step (limb :: rest) := by
  induction rest generalizing limb drawn with
  | nil =>
    have single : ∀ other ∈ [limb ++ [(0 : F)]], other.length = step + 1 := by
      intro other mem
      rw [mem_singleton.mp mem, length_append, length, length_singleton]
    refine ⟨[limb ++ [0]], rfl, rfl, single, ?_⟩
    intro x
    rw [limbs_value_cons, limbs_value_cons, value_snoc, mul_zero, add_zero]
  | cons next rest ih =>
    have next_length := lengths next mem_cons_self
    cases next with
    | nil =>
      rw [length_nil] at next_length
      omega
    | cons first others =>
      have shifted : ((first - random drawn) :: others).length = step := next_length
      rcases ih (drawn + 1) shifted (forall_mem_cons.mp lengths).2 with
        ⟨blinded, ran, count, sizes, values⟩
      refine ⟨(limb ++ [random drawn]) :: blinded, ?_, ?_, ?_, ?_⟩
      · rw [blindLimbs, ran]
        rfl
      · rw [length_cons, count, length_cons]
      · intro other mem
        rcases mem_cons.mp mem with same | later
        · rw [same, length_append, length, length_singleton]
        · exact sizes other later
      · intro x
        rw [limbs_value_cons, values, limbs_value_cons x step ((first - random drawn) :: others),
          limbs_value_cons x step limb, limbs_value_cons x step (first :: others), value_snoc,
          length, valueAt, valueAt]
        ring

theorem blind_quotient_limbs_value (random : Nat → F) {step : Nat} {limbs : List (List F)}
    (pos : 0 < step) (two : 2 ≤ limbs.length) (lengths : ∀ limb ∈ limbs, limb.length = step) :
    ∃ blinded, blindQuotientLimbs random limbs = some blinded ∧
      blinded.length = limbs.length ∧ (∀ other ∈ blinded, other.length = step + 1) ∧
      ∀ x, limbsValue x step blinded = limbsValue x step limbs := by
  rcases exists_cons_of_length_pos (Nat.lt_of_lt_of_le Nat.two_pos two) with
    ⟨first, rest, rfl⟩
  rw [length_cons] at two
  rcases exists_cons_of_length_pos (Nat.le_of_succ_le_succ two) with ⟨second, others, rfl⟩
  exact blind_limbs_value 0 pos (lengths first mem_cons_self) (forall_mem_cons.mp lengths).2

/-- The limbs together are the quotient, and each fits the commitments. -/
structure Quotient (domain : EvaluationDomain F) (d : Nat) (nu : Polynomial F)
    (limbs : List (List F)) : Prop where
  count : limbs.length = d - 1
  fits : ∀ limb ∈ limbs, limb.length = domain.n
  value : ∀ x, (x ^ domain.n - 1) * limbsValue x (domain.n - 1) limbs = nu.eval x

theorem quotient_value {domain : EvaluationDomain F} {d : Nat} {nu : Polynomial F}
    {limbs : List (List F)} (quotient : Quotient domain d nu limbs) {x : F}
    (outside : x ^ domain.n ≠ 1) :
    limbsValue x (domain.n - 1) limbs = nu.eval x / (x ^ domain.n - 1) := by
  rw [eq_div_iff (sub_ne_zero.mpr outside), mul_comm]
  exact quotient.value x

theorem compute_h_poly_limbs {domain : EvaluationDomain F} {threads d : Nat} {nu : Polynomial F}
    (overflowChecks : Bool) (random : Nat → F) (pos : 0 < threads)
    (divides : Divides domain d) (rows : 2 ≤ domain.n) (degree : 3 ≤ d)
    (fits : domain.n * (d - 1) < 2 ^ 64) (vanishes : Polynomial.X ^ domain.n - 1 ∣ nu)
    (bound : nu.natDegree ≤ d * (domain.n - 1)) :
    ∃ limbs, computeHPoly overflowChecks threads random domain (numeratorValues domain nu) =
      some limbs ∧ Quotient domain d nu limbs := by
  have step : 0 < domain.n - 1 := by omega
  have count_positive : 0 < (domain.n - 1) * (d - 1) := Nat.mul_pos step (by omega)
  have total : nu.natDegree ≤ (domain.n - 1) * (d - 1) - 1 + domain.n := by
    have split : d * (domain.n - 1) = (domain.n - 1) * (d - 1) + (domain.n - 1) := by
      obtain ⟨less, rfl⟩ := Nat.exists_eq_add_of_le' (Nat.le_trans (by decide : 1 ≤ 3) degree)
      rw [Nat.add_sub_cancel]
      ring
    omega
  rcases vanishing_quotient (by omega) vanishes total with ⟨quotient, product, small⟩
  have below : quotient.natDegree < (domain.n - 1) * (d - 1) := by omega
  have within : (domain.n - 1) * (d - 1) ≤ domain.n * (d - 1) :=
    Nat.mul_le_mul_right _ (Nat.sub_le _ _)
  have coefficients_found := quotient_coefficients pos divides below
    (within.trans divides.large)
  rw [← product, bind_eq_some_iff] at coefficients_found
  rcases coefficients_found with ⟨divided, divide_eq, cut⟩
  rcases Option.map_eq_some_iff.mp cut with ⟨hPoly, to_coeff, taken⟩
  have whole : (coefficients ((domain.n - 1) * (d - 1)) quotient).length =
      (d - 1) * (domain.n - 1) := by
    rw [coefficients_length, Nat.mul_comm]
  have chunked := chunks_full step (d - 1) whole
  have two : 2 ≤ (chunks (domain.n - 1)
      (coefficients ((domain.n - 1) * (d - 1)) quotient)).length := by
    rw [chunked.1]
    omega
  rcases blind_quotient_limbs_value random step two chunked.2 with
    ⟨limbs, blinded, count, sizes, values⟩
  have fit : ∀ limb ∈ limbs, limb.length = domain.n := by
    intro limb mem
    rw [sizes limb mem]
    omega
  have checked : limbs.mapM (fun hLimb => if hLimb.length = domain.n then some hLimb else none) =
      some limbs := by
    have all : limbs.mapM (fun hLimb => if hLimb.length = domain.n then some hLimb else none) =
        some (limbs.map id) := map_m_of_forall limbs fun limb mem => if_pos (fit limb mem)
    rw [all, map_id]
  have exact : ¬(domain.n - 1 = 0 ∨
      (coefficients ((domain.n - 1) * (d - 1)) quotient).length % (domain.n - 1) ≠ 0) := by
    rw [whole, Nat.mul_mod_left]
    omega
  have ran : computeHPoly overflowChecks threads random domain (numeratorValues domain nu) =
      some limbs := by
    rw [computeHPoly, divide_eq, bind_eq_bind, bind_some, to_coeff, bind_eq_bind, bind_some,
      divides.degree, mul_u64_fits overflowChecks (within.trans_lt fits), bind_eq_bind, bind_some]
    dsimp only
    rw [taken, if_neg exact, blinded, bind_some, checked]
  have value : ∀ x, (x ^ domain.n - 1) * limbsValue x (domain.n - 1) limbs = nu.eval x := by
    intro x
    rw [values, ← value_flatten x chunked.2, chunks_flatten_eq step, value_coefficients x below,
      product, Polynomial.eval_mul, Polynomial.eval_sub, Polynomial.eval_pow, Polynomial.eval_X,
      Polynomial.eval_one]
  exact ⟨limbs, ran, count.trans chunked.1, fit, value⟩

end Midfall.QuotientLimbs
