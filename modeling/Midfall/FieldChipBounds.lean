import Midfall.FieldChip

/-!
# Sums over limbs

The sums of a gate on integers, modulo the emulated modulus and the auxiliary
ones, and the limbs of an integer.
-/

namespace Midfall.FieldChip

open FieldIdentity List

theorem sum_cons (coeff : Nat) (coeffs : List Nat) (value : Int) (values : List Int) :
    sumBigints (coeff :: coeffs) (value :: values) = coeff * value + sumBigints coeffs values := by
  unfold sumBigints
  rw [zip_cons_cons, map_cons, List.sum_cons]

theorem sum_nil (coeffs : List Nat) : sumBigints coeffs [] = 0 := by
  unfold sumBigints
  rw [zip_nil_left, map_nil, List.sum_nil]

theorem sum_no_coeffs (values : List Int) : sumBigints [] values = 0 := by
  unfold sumBigints
  rw [zip_nil_right, map_nil, List.sum_nil]

theorem sum_mono (coeffs : List Nat) {values larger : List Int}
    (le : Forall₂ (fun value larger => value ≤ larger) values larger) :
    sumBigints coeffs values ≤ sumBigints coeffs larger := by
  induction le generalizing coeffs with
  | nil => exact le_rfl
  | cons below _ ih =>
    cases coeffs with
    | nil => rw [sum_no_coeffs, sum_no_coeffs]
    | cons coeff coeffs =>
      rw [sum_cons, sum_cons]
      exact add_le_add (mul_le_mul_of_nonneg_left below (Int.natCast_nonneg coeff))
        (ih coeffs)

theorem sum_nonneg (coeffs : List Nat) {values : List Int} (nonneg : ∀ value ∈ values, 0 ≤ value) :
    0 ≤ sumBigints coeffs values := by
  unfold sumBigints
  apply List.sum_nonneg
  intro term mem
  rcases mem_map.mp mem with ⟨entry, inside, rfl⟩
  exact mul_nonneg (Int.natCast_nonneg _) (nonneg _ (of_mem_zip inside).1)

theorem sum_shifted (coeffs : List Nat) (shift : Int) (values : List Int) :
    sumBigints coeffs (values.map fun value => shift + value) =
      sumBigints coeffs (replicate values.length shift) + sumBigints coeffs values := by
  induction values generalizing coeffs with
  | nil => rw [map_nil, length_nil, replicate_zero, sum_nil, add_zero]
  | cons value values ih =>
    cases coeffs with
    | nil => rw [sum_no_coeffs, sum_no_coeffs, sum_no_coeffs, add_zero]
    | cons coeff coeffs =>
      rw [map_cons, length_cons, replicate_succ, sum_cons, sum_cons, sum_cons, ih]
      ring

variable {coeffs others : List Nat}

theorem sum_congruent {modulus : Nat} (values : List Int)
    (congruent : Forall₂ (fun (coeff other : Nat) => (coeff : Int) ≡ other [ZMOD modulus])
      coeffs others) :
    sumBigints coeffs values ≡ sumBigints others values [ZMOD modulus] := by
  induction congruent generalizing values with
  | nil => exact Int.ModEq.refl _
  | cons same _ ih =>
    cases values with
    | nil =>
      rw [sum_nil, sum_nil]
    | cons value values =>
      rw [sum_cons, sum_cons]
      exact (same.mul_right value).add (ih values)

theorem reduced_coeffs (coeffs : List Nat) (modulus : Nat) :
    Forall₂ (fun (coeff other : Nat) => (coeff : Int) ≡ other [ZMOD modulus])
      (coeffs.map (· % modulus)) coeffs := by
  rw [forall₂_map_left_iff, forall₂_same]
  intro coeff _
  rw [Int.natCast_mod]
  exact Int.mod_modEq _ _

variable {modulus : Nat}

theorem sum_cast (coeffs : List Nat) (values : List Int) :
    ((sumBigints coeffs values : Int) : ZMod modulus) =
      sumExprs coeffs (values.map fun value : Int => (value : ZMod modulus)) := by
  induction values generalizing coeffs with
  | nil =>
    rw [sum_nil, map_nil, Int.cast_zero]
    rfl
  | cons value values ih =>
    cases coeffs with
    | nil =>
      rw [sum_no_coeffs, Int.cast_zero]
      unfold sumExprs
      rw [zip_nil_right, map_nil, List.sum_nil]
    | cons coeff coeffs =>
      have rest := ih coeffs
      unfold sumExprs at rest ⊢
      rw [sum_cons, map_cons, zip_cons_cons, map_cons, List.sum_cons, Int.cast_add,
        rest, Int.cast_mul, Int.cast_natCast]

theorem from_limbs_cons (base : Nat) (limb : Int) (limbs : List Int) :
    biFromLimbs base (limb :: limbs) = limb + base * biFromLimbs base limbs := by
  unfold biFromLimbs
  rw [reverse_cons, foldl_append]
  show _ * (base : Int) + limb = _
  ring

theorem from_limbs_nil (base : Nat) : biFromLimbs base [] = 0 := rfl
theorem sum_powers (base : Nat) (limbs : List Int) (start : Nat) :
    sumBigints ((range' start limbs.length).map (base ^ ·)) limbs =
      (base : Int) ^ start * biFromLimbs base limbs := by
  induction limbs generalizing start with
  | nil => rw [from_limbs_nil, sum_nil, mul_zero]
  | cons limb limbs ih =>
    rw [length_cons, range'_succ, map_cons, sum_cons, from_limbs_cons, ih]
    push_cast
    ring

theorem sum_append (coeffs others : List Nat) {values : List Int} (rest : List Int)
    (lengths : coeffs.length = values.length) :
    sumBigints (coeffs ++ others) (values ++ rest) = sumBigints coeffs values + sumBigints others rest := by
  unfold sumBigints
  rw [zip_append lengths.symm, map_append, List.sum_append]

theorem sum_products {values rest : List Int} (first : coeffs.length = values.length)
    (second : others.length = rest.length) :
    sumBigints (pairWiseProd coeffs others) (pairWiseProd values rest) =
      sumBigints coeffs values * sumBigints others rest := by
  unfold pairWiseProd
  induction coeffs generalizing values with
  | nil => rw [flatMap_nil, sum_no_coeffs, sum_no_coeffs, zero_mul]
  | cons coeff coeffs ih =>
    cases values with
    | nil => cases first
    | cons value values =>
      have scaled : sumBigints (others.map (coeff * ·)) (rest.map (value * ·)) =
          coeff * value * sumBigints others rest := by
        clear ih
        induction others generalizing rest with
        | nil => rw [map_nil, sum_no_coeffs, sum_no_coeffs, mul_zero]
        | cons other others ih =>
          cases rest with
          | nil => cases second
          | cons next rest =>
            rw [map_cons, map_cons, sum_cons, sum_cons, ih (Nat.succ.inj second)]
            push_cast
            ring
      rw [flatMap_cons, flatMap_cons, sum_append _ _ _ (by
        rw [length_map, length_map, second]), scaled, ih (Nat.succ.inj first),
        sum_cons]
      ring

theorem same_residues {modulus : Nat} (same : coeffs.map (· % modulus) = others.map (· % modulus)) :
    Forall₂ (fun (coeff other : Nat) => (coeff : Int) ≡ other [ZMOD modulus]) coeffs others := by
  rw [← forall₂_eq_eq_eq, forall₂_map_left_iff, forall₂_map_right_iff] at same
  exact same.imp fun coeff other equal => Int.natCast_modEq_iff.mpr equal

structure CheckedParams (params : EmulationParams) : Prop where
  one_lt : 1 < params.emulated
  base_lt : 1 < params.base
  covers : params.emulated ≤ params.base ^ params.nbLimbs
  powers : params.basePowers.map (· % params.emulated) =
    params.expectedPowers.map (· % params.emulated)
  doublePowers : params.doubleBasePowers.map (· % params.emulated) =
    params.expectedDoublePowers.map (· % params.emulated)

theorem checked_params {params : EmulationParams} (checked : params.checkParams = true) :
    CheckedParams params := by
  simp only [EmulationParams.checkParams, Bool.and_eq_true, decide_eq_true_eq] at checked
  rcases checked with ⟨⟨⟨⟨one_lt, base_lt⟩, covers⟩, powers⟩, doublePowers⟩
  exact ⟨one_lt, base_lt, covers, powers, doublePowers⟩

namespace CheckedParams

variable {params : EmulationParams} (checked : CheckedParams params)

include checked

theorem base_powers_congruent {limbs : List Int} (length : limbs.length = params.nbLimbs) :
    sumBigints params.basePowers limbs ≡ biFromLimbs params.base limbs [ZMOD params.emulated] := by
  have whole := sum_powers params.base limbs 0
  rw [length, pow_zero, one_mul, ← range_eq_range'] at whole
  rw [← whole]
  exact sum_congruent limbs (same_residues checked.powers)

theorem double_powers_congruent {xs ys : List Int} (first : xs.length = params.nbLimbs)
    (second : ys.length = params.nbLimbs) :
    sumBigints params.doubleBasePowers (pairWiseProd xs ys) ≡
      biFromLimbs params.base xs * biFromLimbs params.base ys [ZMOD params.emulated] := by
  have products : params.expectedDoublePowers =
      pairWiseProd params.expectedPowers params.expectedPowers := by
    unfold EmulationParams.expectedDoublePowers EmulationParams.expectedPowers pairWiseProd
    simp only [flatMap_map, map_map, Function.comp_def, pow_add]
  have count : params.expectedPowers.length = params.nbLimbs := by
    rw [EmulationParams.expectedPowers, length_map, length_range]
  have xSum := sum_powers params.base xs 0
  have ySum := sum_powers params.base ys 0
  rw [pow_zero, one_mul, ← range_eq_range'] at xSum ySum
  rw [first] at xSum
  rw [second] at ySum
  rw [← xSum, ← ySum, ← EmulationParams.expectedPowers, ← sum_products (count.trans first.symm)
    (count.trans second.symm), ← products]
  exact sum_congruent _ (same_residues checked.doublePowers)

end CheckedParams

theorem limbs_of_value {base : Nat} (pos : 0 < base) (nbLimbs : Nat) {value : Nat}
    (fits : value < base ^ nbLimbs) :
    ∃ limbs, biToLimbs nbLimbs base value = some limbs ∧ limbs.length = nbLimbs ∧
      biFromLimbs base (limbs.map Int.ofNat) = value := by
  induction nbLimbs generalizing value with
  | zero =>
    have zero : value = 0 := by simpa using fits
    subst zero
    exact ⟨[], rfl, rfl, rfl⟩
  | succ nbLimbs ih =>
    have higher : value / base < base ^ nbLimbs := by
      rw [Nat.div_lt_iff_lt_mul pos]
      rwa [pow_succ] at fits
    rcases ih higher with ⟨limbs, found, length, integer⟩
    refine ⟨value % base :: limbs, ?_, ?_, ?_⟩
    · rw [biToLimbs, found]
      rfl
    · rw [length_cons, length]
    · have whole : ((value % base : Nat) : Int) + base * (value / base : Nat) = value := by
        exact_mod_cast Nat.mod_add_div value base
      rw [map_cons, from_limbs_cons, integer]
      exact whole

theorem to_limbs_lt {base nbLimbs value : Nat} (pos : 0 < base) {limbs : List Nat}
    (found : biToLimbs nbLimbs base value = some limbs) : ∀ limb ∈ limbs, limb < base := by
  induction nbLimbs generalizing value limbs with
  | zero =>
    rw [biToLimbs] at found
    split_ifs at found
    rw [← Option.some.inj found]
    exact forall_mem_nil _
  | succ nbLimbs ih =>
    rw [biToLimbs] at found
    rcases Option.map_eq_some_iff.mp found with ⟨rest, restFound, rfl⟩
    exact forall_mem_cons.mpr ⟨Nat.mod_lt _ pos, ih restFound⟩

theorem base_pos (params : EmulationParams) : 0 < params.base := Nat.two_pow_pos _

end Midfall.FieldChip
