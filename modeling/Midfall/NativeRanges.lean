import Midfall.NativeDecomposition
import Midfall.ScalarField

/-!
# Range checks and division by a constant

`native_gadget.rs` checks a range by a power of two, or by two overlapping
powers; the decomposition chip refuses as many bits as the modulus has. A
division checks the ranges of the quotient and the remainder apart and adds them
up in the field: two pairs may then stand for the same dividend.
-/

namespace Midfall.NativeRanges

open CircuitPrograms NativeDecomposition ScalarField
open NativeGadget (bit assignBit addConstant select linearCombination assertEqual
  computes_linear_combination computes_add_constant computes_select ensures_assign_bit
  honest_assign_bit honest_bind pair_unique val_natCast_lt shifted_lt selected_lt)

variable {modulus : Nat} [Fact modulus.Prime]

/-- The prover's value, or any other one in the range. -/
def assignLessThanPow2 (hint : ZMod modulus) (bitLength : Nat) : Circuit (ZMod modulus) :=
  if modulus.size ≤ bitLength then panic else NativeGadget.assignLessThanPow2 hint bitLength

def assertLessThanPow2 (x : ZMod modulus) (bitLength : Nat) : Circuit Unit := do
  let y ← assignLessThanPow2 x bitLength
  assertEqual x y

/-- What `assert_lower_than_fixed` emits; the largest `2^k` up to a bound of zero underflows. -/
def checkLowerThanFixed (x : ZMod modulus) (bound : Nat) : Circuit Unit :=
  if bound = 0 then panic
  else if 2 ^ bound.log2 = bound then assertLessThanPow2 x bound.log2
  else do
    let small ← assignBit (x.val < 2 ^ bound.log2)
    let shifted ← addConstant x (-((bound - 2 ^ bound.log2 : Nat) : ZMod modulus))
    let y ← select small x shifted
    assertLessThanPow2 y bound.log2

/-- A fresh cell has no known bound. -/
def assignLowerThanFixed (hint : ZMod modulus) (bound : Nat) : Circuit (ZMod modulus) :=
  if bound = 0 then return 0
  else if 2 ^ bound.log2 = bound then assignLessThanPow2 hint bound.log2
  else do
    let x ← assign hint
    checkLowerThanFixed x bound
    return x

/-- `DivisionInstructions::div_rem`: the bound on the dividend is inclusive, and the largest
element when it is left out. -/
def divRem (dividend : ZMod modulus) (divisor : Nat) (dividendBound : Option Nat) :
    Circuit (ZMod modulus × ZMod modulus) :=
  if divisor = 1 then return (dividend, 0)
  else
    let dividendBound := dividendBound.getD (-1 : ZMod modulus).val
    if divisor = 0 ∨ dividendBound < divisor then panic
    else do
      let r ← assignLowerThanFixed ((dividend.val % divisor : Nat) : ZMod modulus) divisor
      let q ← assignLowerThanFixed ((dividend.val / divisor : Nat) : ZMod modulus)
        (dividendBound / divisor + 1)
      let sum ← linearCombination [((divisor : ZMod modulus), q), (1, r)] 0
      assertEqual dividend sum
      return (q, r)

variable {bound bitLength divisor : Nat} {hint x : ZMod modulus}

theorem log_lt_iff {bits : Nat} (pos : bound ≠ 0) : bound.log2 < bits ↔ bound < 2 ^ bits :=
  Nat.log2_lt pos

omit [Fact modulus.Prime] in
theorem assign_less_allows :
    (assignLessThanPow2 hint bitLength).allows x ↔ bitLength < modulus.size ∧ x.val < 2 ^ bitLength := by
  unfold assignLessThanPow2
  split_ifs with wide
  · simp only [panic_allows, false_iff, not_and]
    intro fewer
    omega
  · simp only [NativeGadget.assignLessThanPow2, NativeGadget.assertLessThanPow2, bind_allows,
      assign_allows, constrain_allows, pure_allows, true_and]
    constructor
    · rintro ⟨found, _, small, rfl⟩
      exact ⟨Nat.lt_of_not_le wide, small⟩
    · intro both
      exact ⟨x, (), both.2, rfl⟩

omit [Fact modulus.Prime] in
theorem assign_less_honest (fewer : bitLength < modulus.size) (small : hint.val < 2 ^ bitLength) :
    (assignLessThanPow2 hint bitLength).honest = some hint := by
  unfold assignLessThanPow2
  rw [if_neg (Nat.not_le.mpr fewer)]
  exact ((NativeGadget.computes_assert_less_than_pow2 small).returning fun _ => hint).honest

omit [Fact modulus.Prime] in
theorem assert_less_allows {result : Unit} :
    (assertLessThanPow2 x bitLength).allows result ↔
      bitLength < modulus.size ∧ x.val < 2 ^ bitLength := by
  simp only [assertLessThanPow2, bind_allows, assign_less_allows, assertEqual, constrain_allows]
  constructor
  · rintro ⟨y, both, rfl⟩
    exact both
  · intro both
    exact ⟨x, both, rfl⟩

omit [Fact modulus.Prime] in
theorem assert_less_honest (fewer : bitLength < modulus.size) (small : x.val < 2 ^ bitLength) :
    (assertLessThanPow2 x bitLength).honest = some () := by
  unfold assertLessThanPow2
  rw [honest_bind (assign_less_honest fewer small)]
  exact (computes_constrain rfl).honest

theorem check_lower_allows {result : Unit} :
    (checkLowerThanFixed x bound).allows result ↔ x.val < bound ∧ bound < 2 ^ modulus.size := by
  unfold checkLowerThanFixed
  split_ifs with zero exactPower
  · simp only [panic_allows, false_iff, not_and]
    intro below
    omega
  · rw [assert_less_allows, log_lt_iff zero, exactPower, and_comm]
  · simp only [bind_allows, (computes_add_constant _ _).allows, exists_eq_left]
    constructor
    · rintro ⟨small, bitAllowed, y, selected, check⟩
      rcases ensures_assign_bit _ small bitAllowed with ⟨value, rfl⟩
      rw [(computes_select _ _ _).allows] at selected
      rw [assert_less_allows, log_lt_iff zero] at check
      refine ⟨?_, check.1⟩
      rw [selected] at check
      cases value with
      | true => exact lt_of_lt_of_le check.2 (Nat.log2_self_le zero)
      | false => exact shifted_lt zero check.2
    · rintro ⟨below, inRange⟩
      refine ⟨bit (decide (x.val < 2 ^ bound.log2)), (satisfies_assign_bit _).allowed, _,
        (computes_select _ _ _).satisfies.allowed, ?_⟩
      rw [assert_less_allows, log_lt_iff zero]
      exact ⟨inRange, selected_lt below⟩

theorem check_lower_honest (below : x.val < bound) (inRange : bound < 2 ^ modulus.size) :
    (checkLowerThanFixed x bound).honest = some () := by
  have pos : bound ≠ 0 := by omega
  have fewer := (log_lt_iff pos).mpr inRange
  unfold checkLowerThanFixed
  rw [if_neg pos]
  split_ifs with exactPower
  · exact assert_less_honest fewer (by rwa [exactPower])
  · rw [honest_bind (honest_assign_bit _), honest_bind (computes_add_constant _ _).honest,
      honest_bind (computes_select _ _ _).honest]
    exact assert_less_honest fewer (selected_lt below)

theorem assign_lower_allows (pos : bound ≠ 0) :
    (assignLowerThanFixed hint bound).allows x ↔ x.val < bound ∧ bound < 2 ^ modulus.size := by
  unfold assignLowerThanFixed
  rw [if_neg pos]
  split_ifs with exactPower
  · rw [assign_less_allows, log_lt_iff pos, exactPower, and_comm]
  · simp only [bind_allows, assign_allows, pure_allows, true_and, check_lower_allows]
    constructor
    · rintro ⟨found, _, both, rfl⟩
      exact both
    · intro both
      exact ⟨x, (), both, rfl⟩

theorem assign_lower_honest (below : hint.val < bound) (inRange : bound < 2 ^ modulus.size) :
    (assignLowerThanFixed hint bound).honest = some hint := by
  have pos : bound ≠ 0 := by omega
  unfold assignLowerThanFixed
  rw [if_neg pos]
  split_ifs with exactPower
  · exact assign_less_honest ((log_lt_iff pos).mpr inRange) (by rwa [exactPower])
  · show (checkLowerThanFixed hint bound >>= fun _ => pure hint).honest = some hint
    rw [honest_bind (check_lower_honest below inRange)]
    rfl

theorem largest_val : (-1 : ZMod modulus).val = modulus - 1 := by
  have two : 2 ≤ modulus := (Fact.out : modulus.Prime).two_le
  have cast : (-1 : ZMod modulus) = ((modulus - 1 : Nat) : ZMod modulus) := by
    rw [Nat.cast_sub (by omega), ZMod.natCast_self, Nat.cast_one, zero_sub]
  rw [cast, val_natCast_lt (by omega)]

theorem div_rem_allows {x q r : ZMod modulus} {divisor : Nat} {dividendBound : Option Nat}
    (proper : 2 ≤ divisor) (reached : divisor ≤ dividendBound.getD (-1 : ZMod modulus).val) :
    (divRem x divisor dividendBound).allows (q, r) ↔
      (r.val < divisor ∧ divisor < 2 ^ modulus.size) ∧
        (q.val < dividendBound.getD (-1 : ZMod modulus).val / divisor + 1 ∧
          dividendBound.getD (-1 : ZMod modulus).val / divisor + 1 < 2 ^ modulus.size) ∧
            x = divisor * q + r := by
  unfold divRem
  rw [if_neg (by omega)]
  dsimp only
  rw [if_neg (by omega)]
  simp only [bind_allows, assign_lower_allows (by omega : divisor ≠ 0),
    assign_lower_allows (Nat.succ_ne_zero _), (computes_linear_combination _ _).allows, assertEqual,
    constrain_allows, pure_allows, exists_eq_left, Prod.mk.injEq]
  constructor
  · rintro ⟨rest, restSmall, quotient, quotientSmall, _, same, rfl, rfl⟩
    exact ⟨restSmall, quotientSmall, by simpa using same⟩
  · rintro ⟨restSmall, quotientSmall, same⟩
    exact ⟨r, restSmall, q, quotientSmall, (), by simpa using same, rfl, rfl⟩

/-- The circuit without the refusal of wide ranges admits the same pairs for a small bound. -/
theorem div_rem_agrees (proper : 2 ≤ divisor) (reached : divisor ≤ bound) (fits : bound < modulus)
    (q r : ZMod modulus) : (divRem x divisor (some bound)).allows (q, r) ↔
      (NativeGadget.divRem x divisor bound).allows (q, r) := by
  have quotients : bound / divisor + 1 < modulus := by
    have half : bound / divisor ≤ bound / 2 := Nat.div_le_div_left proper Nat.two_pos
    omega
  have size := Nat.lt_size_self modulus
  unfold NativeGadget.divRem
  rw [@div_rem_allows modulus _ x q r divisor (some bound) proper reached, if_neg (by omega),
    if_neg (by omega)]
  simp only [bind_allows, NativeGadget.assign_lower_than_fixed_iff (by omega : divisor ≠ 0)
    (by omega : divisor ≤ modulus), NativeGadget.assign_lower_than_fixed_iff (Nat.succ_ne_zero _)
    quotients.le, (computes_linear_combination _ _).allows, assertEqual, constrain_allows,
    pure_allows, exists_eq_left, Prod.mk.injEq, Option.getD_some]
  constructor
  · rintro ⟨⟨restSmall, -⟩, ⟨quotientSmall, -⟩, same⟩
    exact ⟨r, restSmall, q, quotientSmall, (), by simpa using same, rfl, rfl⟩
  · rintro ⟨rest, restSmall, quotient, quotientSmall, _, same, rfl, rfl⟩
    exact ⟨⟨restSmall, by omega⟩, ⟨quotientSmall, by omega⟩, by simpa using same⟩

theorem div_rem_satisfies {dividendBound : Option Nat} (proper : 2 ≤ divisor)
    (reached : divisor ≤ dividendBound.getD (-1 : ZMod modulus).val)
    (divisorRange : divisor < 2 ^ modulus.size)
    (quotientRange : dividendBound.getD (-1 : ZMod modulus).val / divisor + 1 < 2 ^ modulus.size)
    (bounded : x.val ≤ dividendBound.getD (-1 : ZMod modulus).val) :
    Satisfies (divRem x divisor dividendBound)
      (((x.val / divisor : Nat) : ZMod modulus), ((x.val % divisor : Nat) : ZMod modulus)) := by
  have restBelow : x.val % divisor < divisor := Nat.mod_lt _ (by omega)
  have quotientBelow : x.val / divisor < dividendBound.getD (-1 : ZMod modulus).val / divisor + 1 :=
    Nat.lt_succ_of_le (Nat.div_le_div_right bounded)
  have below := ZMod.val_lt x
  have restVal : ((x.val % divisor : Nat) : ZMod modulus).val = x.val % divisor :=
    val_natCast_lt (lt_of_le_of_lt (Nat.mod_le _ _) below)
  have quotientVal : ((x.val / divisor : Nat) : ZMod modulus).val = x.val / divisor :=
    val_natCast_lt (lt_of_le_of_lt (Nat.div_le_self _ _) below)
  have cast : ((divisor * (x.val / divisor) + x.val % divisor : Nat) : ZMod modulus) = x := by
    rw [Nat.div_add_mod, ZMod.natCast_zmod_val]
  push_cast at cast
  constructor
  · unfold divRem
    rw [if_neg (by omega)]
    dsimp only
    rw [if_neg (by omega), honest_bind (assign_lower_honest (by rwa [restVal]) divisorRange),
      honest_bind (assign_lower_honest (by rwa [quotientVal]) quotientRange),
      honest_bind (computes_linear_combination _ _).honest]
    refine ((computes_constrain ?_).returning fun _ => (_, _)).honest
    simp [cast]
  · rw [div_rem_allows proper reached, restVal, quotientVal]
    exact ⟨⟨restBelow, divisorRange⟩, ⟨quotientBelow, quotientRange⟩, cast.symm⟩

theorem second_pair {quotients : Nat} (proper : 2 ≤ divisor) (several : 2 ≤ quotients)
    (wraps : modulus + x.val < quotients * divisor) :
    ∃ q r : ZMod modulus, (r.val < divisor ∧ q.val < quotients ∧ x = divisor * q + r) ∧
      ¬(q = ((x.val / divisor : Nat) : ZMod modulus) ∧ r = ((x.val % divisor : Nat) : ZMod modulus)) := by
  have below := ZMod.val_lt x
  have two : 2 ≤ modulus := (Fact.out : modulus.Prime).two_le
  have cast : ((x.val : Nat) : ZMod modulus) = x := ZMod.natCast_zmod_val x
  rcases Nat.lt_or_ge modulus divisor with larger | inField
  · -- the divisor is more than the modulus: any remainder is admitted
    refine ⟨1, x - divisor, ⟨lt_trans (ZMod.val_lt _) larger, ?_, by ring⟩, ?_⟩
    · have inhabited : Fact (1 < modulus) := ⟨by omega⟩
      rw [ZMod.val_one]
      omega
    · rintro ⟨one, -⟩
      rw [Nat.div_eq_of_lt (by omega), Nat.cast_zero] at one
      exact one_ne_zero one
  · -- the next representative of the element
    have quotientSmall : (x.val + modulus) / divisor < quotients := by
      rw [Nat.div_lt_iff_lt_mul (by omega)]
      omega
    have restSmall : (x.val + modulus) % divisor < divisor := Nat.mod_lt _ (by omega)
    have quotientField : (x.val + modulus) / divisor < modulus := by
      rw [Nat.div_lt_iff_lt_mul (by omega)]
      have twice : modulus * 2 ≤ modulus * divisor := Nat.mul_le_mul_left _ proper
      omega
    have quotientVal : (((x.val + modulus) / divisor : Nat) : ZMod modulus).val =
        (x.val + modulus) / divisor := val_natCast_lt quotientField
    have restVal : (((x.val + modulus) % divisor : Nat) : ZMod modulus).val =
        (x.val + modulus) % divisor := val_natCast_lt (by omega)
    refine ⟨_, _, ⟨by rwa [restVal], by rwa [quotientVal], ?_⟩, ?_⟩
    · have sum : ((divisor * ((x.val + modulus) / divisor) + (x.val + modulus) % divisor : Nat) :
          ZMod modulus) = x := by
        rw [Nat.div_add_mod, Nat.cast_add, ZMod.natCast_self, add_zero, cast]
      push_cast at sum
      exact sum.symm
    · rintro ⟨quotient, rest⟩
      have sameQuotient := congrArg ZMod.val quotient
      have sameRest := congrArg ZMod.val rest
      rw [quotientVal, val_natCast_lt (lt_of_le_of_lt (Nat.div_le_self _ _) below)] at sameQuotient
      rw [restVal, val_natCast_lt (lt_of_le_of_lt (Nat.mod_le _ _) below)] at sameRest
      have first := Nat.div_add_mod (x.val + modulus) divisor
      have second := Nat.div_add_mod x.val divisor
      rw [sameQuotient, sameRest, second] at first
      omega

/-- A division has exactly the integer quotient and remainder when the largest admitted sum
stays below the dividend plus the modulus. -/
theorem div_rem_exact_iff (x : ZMod modulus) (divisor : Nat) (dividendBound : Option Nat)
    (accepted : divisor = 1 ∨ 0 < divisor ∧ divisor ≤ dividendBound.getD (-1 : ZMod modulus).val)
    (valid : ∀ bound ∈ dividendBound, x.val ≤ bound) :
    Computes (divRem x divisor dividendBound)
        (((x.val / divisor : Nat) : ZMod modulus), ((x.val % divisor : Nat) : ZMod modulus)) ↔
      divisor = 1 ∨
        (dividendBound.getD (-1 : ZMod modulus).val / divisor + 1) * divisor ≤ modulus + x.val := by
  have below := ZMod.val_lt x
  have bounded : x.val ≤ dividendBound.getD (-1 : ZMod modulus).val := by
    cases dividendBound with
    | none =>
      rw [Option.getD_none, largest_val]
      omega
    | some bound => exact valid bound rfl
  rcases eq_or_ne divisor 1 with rfl | more
  · have returned : divRem x 1 dividendBound = pure (x, 0) := by
      unfold divRem
      rw [if_pos rfl]
    rw [returned, Nat.div_one, Nat.mod_one, ZMod.natCast_zmod_val, Nat.cast_zero]
    exact iff_of_true (computes_pure _) (Or.inl rfl)
  · have reached := accepted.resolve_left more
    have proper : 2 ≤ divisor := by omega
    have several : 2 ≤ dividendBound.getD (-1 : ZMod modulus).val / divisor + 1 := by
      have whole := Nat.div_pos reached.2 reached.1
      omega
    have allows := fun q r => @div_rem_allows modulus _ x q r divisor dividendBound proper reached.2
    rw [or_iff_right more]
    constructor
    · intro computes
      by_contra wraps
      have ranges := (allows _ _).mp ((computes.allows _).mpr rfl)
      rcases second_pair proper several (Nat.lt_of_not_le wraps) with ⟨q, r, pair, other⟩
      have admitted := (allows q r).mpr
        ⟨⟨pair.1, ranges.1.2⟩, ⟨pair.2.1, ranges.2.1.2⟩, pair.2.2⟩
      exact other (Prod.mk.injEq _ _ _ _ ▸ (computes.allows (q, r)).mp admitted)
    · intro fits
      have size : modulus < 2 ^ modulus.size := Nat.lt_size_self modulus
      have divisorSmall : 2 * divisor ≤ modulus + x.val :=
        le_trans (Nat.mul_le_mul_right divisor several) fits
      have quotientsSmall :
          (dividendBound.getD (-1 : ZMod modulus).val / divisor + 1) * 2 ≤ modulus + x.val :=
        le_trans (Nat.mul_le_mul_left _ proper) fits
      apply (div_rem_satisfies proper reached.2 (by omega) (by omega) bounded).computes
      rintro ⟨q, r⟩ allowed
      rcases (allows q r).mp allowed with ⟨restSmall, quotientSmall, same⟩
      have integers := pair_unique reached.1 fits restSmall.1 quotientSmall.1 same
      rw [← integers.1, ← integers.2, ZMod.natCast_zmod_val, ZMod.natCast_zmod_val]

/-- Zero divided by five may be the modulus divided by five, with the remainder three. -/
theorem zero_divided_by_five : ¬Computes (divRem (0 : ZMod scalarModulus) 5 none)
    ((((0 : ZMod scalarModulus).val / 5 : Nat) : ZMod scalarModulus),
      (((0 : ZMod scalarModulus).val % 5 : Nat) : ZMod scalarModulus)) := by
  intro computes
  have rest : ((3 : Nat) : ZMod scalarModulus).val = 3 := val_natCast_lt (by decide)
  have quotient : ((scalarModulus / 5 : Nat) : ZMod scalarModulus).val = scalarModulus / 5 :=
    val_natCast_lt (by decide)
  have largest := @largest_val scalarModulus _
  have sum : (0 : ZMod scalarModulus) =
      ((5 : Nat) : ZMod scalarModulus) * ((scalarModulus / 5 : Nat) : ZMod scalarModulus) +
        ((3 : Nat) : ZMod scalarModulus) := by
    rw [← Nat.cast_mul, ← Nat.cast_add, ← ZMod.natCast_self scalarModulus]
    congr 1
  have allowed : (divRem (0 : ZMod scalarModulus) 5 none).allows
      (((scalarModulus / 5 : Nat) : ZMod scalarModulus), ((3 : Nat) : ZMod scalarModulus)) := by
    rw [div_rem_allows (by decide) (by rw [Option.getD_none, largest]; decide), rest, quotient,
      Option.getD_none, largest]
    exact ⟨⟨by decide, by decide +kernel⟩, ⟨by decide, by decide +kernel⟩, sum⟩
  have same := (computes.allows _).mp allowed
  have remainder := congrArg ZMod.val (Prod.mk.inj same).2
  rw [rest, ZMod.val_zero, Nat.zero_mod, Nat.cast_zero, ZMod.val_zero] at remainder
  cases remainder

theorem seventeen_divided_by_five : Computes (divRem ((17 : Nat) : ZMod scalarModulus) 5 none)
    (((((17 : Nat) : ZMod scalarModulus).val / 5 : Nat) : ZMod scalarModulus),
      ((((17 : Nat) : ZMod scalarModulus).val % 5 : Nat) : ZMod scalarModulus)) := by
  have largest := @largest_val scalarModulus _
  have dividend : ((17 : Nat) : ZMod scalarModulus).val = 17 := val_natCast_lt (by decide)
  refine (div_rem_exact_iff ((17 : Nat) : ZMod scalarModulus) 5 none ?_ ?_).mpr (Or.inr ?_)
  · rw [Option.getD_none, largest]
    exact Or.inr ⟨by decide, by decide⟩
  · simp
  · rw [Option.getD_none, largest, dividend]
    decide

end Midfall.NativeRanges
