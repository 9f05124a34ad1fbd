import Midfall.CircuitPrograms

/-!
# Native instructions

Instructions over the native field: arithmetic rows, equality, bits, selection,
range checks by a power of two and integer division by a constant. An assigned
element is the value of its cell and an assigned bit that of a cell holding 0 or
1. Each instruction has one lemma that gives its only allowed result.
-/

namespace Midfall.NativeGadget

open CircuitPrograms List

variable {modulus : Nat} [Fact modulus.Prime]

/-- The cell of an `AssignedBit`. -/
def bit (value : Bool) : ZMod modulus := if value then 1 else 0

theorem bit_injective {first second : Bool}
    (same : (bit first : ZMod modulus) = bit second) : first = second := by
  cases first <;> cases second <;> simp [bit] at same ⊢

/-- One arithmetic row: `a x + b y + c z + k + m1 x y + m2 x z`. -/
def addAndDoubleMul (a x b y c z k m1 m2 : ZMod modulus) : Circuit (ZMod modulus) := do
  let result ← assign (a * x + b * y + c * z + k + m1 * x * y + m2 * x * z)
  constrain (a * x + b * y + c * z + k + m1 * x * y + m2 * x * z - result = 0)
  return result

def addAndMul (a x b y c z k m : ZMod modulus) : Circuit (ZMod modulus) :=
  addAndDoubleMul a x b y c z k m 0

def linearCombination (terms : List (ZMod modulus × ZMod modulus)) (constant : ZMod modulus) :
    Circuit (ZMod modulus) := do
  let result ← assign (constant + (terms.map fun term => term.1 * term.2).sum)
  constrain (constant + (terms.map fun term => term.1 * term.2).sum - result = 0)
  return result

def mul (x y : ZMod modulus) : Circuit (ZMod modulus) := addAndMul 0 x 0 y 0 x 0 1

def add (x y : ZMod modulus) : Circuit (ZMod modulus) := linearCombination [(1, x), (1, y)] 0

def sub (x y : ZMod modulus) : Circuit (ZMod modulus) := linearCombination [(1, x), (-1, y)] 0

def addConstant (x constant : ZMod modulus) : Circuit (ZMod modulus) :=
  linearCombination [(1, x)] constant

def assignFixed (constant : ZMod modulus) : Circuit (ZMod modulus) := do
  let x ← assign constant
  constrain (x = constant)
  return x

def assertEqual (x y : ZMod modulus) : Circuit Unit := constrain (x = y)

def assertEqualToFixed (x constant : ZMod modulus) : Circuit Unit := assertEqual x constant

theorem computes_row (value : ZMod modulus) :
    Computes (do
      let result ← assign value
      constrain (value - result = 0)
      return result) value := by
  apply computes_assign
  · exact (computes_constrain (sub_self value)).bind (computes_pure value)
  · rintro result other ⟨_, holds, -⟩
    exact (sub_eq_zero.mp holds).symm

omit [Fact modulus.Prime] in
theorem computes_assign_fixed (constant : ZMod modulus) :
    Computes (assignFixed constant) constant := by
  apply computes_assign
  · exact (computes_constrain rfl).bind (computes_pure constant)
  · rintro x other ⟨_, same, -⟩
    exact same

theorem computes_add_and_double_mul (a x b y c z k m1 m2 : ZMod modulus) :
    Computes (addAndDoubleMul a x b y c z k m1 m2)
      (a * x + b * y + c * z + k + m1 * x * y + m2 * x * z) := computes_row _

theorem computes_linear_combination (terms : List (ZMod modulus × ZMod modulus))
    (constant : ZMod modulus) : Computes (linearCombination terms constant)
      (constant + (terms.map fun term => term.1 * term.2).sum) := computes_row _

theorem computes_add (x y : ZMod modulus) : Computes (add x y) (x + y) := by
  have combination := computes_linear_combination [(1, x), (1, y)] (0 : ZMod modulus)
  simpa [add] using combination

theorem computes_sub (x y : ZMod modulus) : Computes (sub x y) (x - y) := by
  have combination := computes_linear_combination [(1, x), (-1, y)] (0 : ZMod modulus)
  simpa [sub, sub_eq_add_neg] using combination

theorem computes_add_constant (x constant : ZMod modulus) :
    Computes (addConstant x constant) (x + constant) := by
  have combination := computes_linear_combination [(1, x)] constant
  simpa [addConstant, add_comm] using combination

theorem computes_mul (x y : ZMod modulus) : Computes (mul x y) (x * y) := by
  have row := computes_add_and_double_mul 0 x 0 y 0 x 0 1 (0 : ZMod modulus)
  simpa [mul, addAndMul] using row

/-- `(x - y) aux = 1 - result` and `(x - y) result = 0`. -/
def isEqual (x y : ZMod modulus) : Circuit (ZMod modulus) := do
  let aux ← assign (if x = y then 1 else (x - y)⁻¹)
  let result ← assign (bit (x = y))
  constrain (result + aux * x - aux * y - 1 = 0)
  let mustBeZero ← addAndDoubleMul 0 result 0 x 0 y 0 1 (-1)
  constrain (mustBeZero = 0)
  return result

def isEqualToFixed (x constant : ZMod modulus) : Circuit (ZMod modulus) := do
  let aux ← assign (if x = constant then 1 else (x - constant)⁻¹)
  let result ← assign (bit (x = constant))
  constrain (-constant * aux + result + aux * x - 1 = 0)
  let mustBeZero ← addAndMul (-constant) result 0 x 0 x 0 1
  constrain (mustBeZero = 0)
  return result

theorem equality_bit {x y result : ZMod modulus} (aux : ZMod modulus) (first : result + aux * (x - y) = 1)
    (second : result * (x - y) = 0) : result = bit (x = y) := by
  by_cases same : x = y
  · subst same
    simpa [bit] using first
  · rcases mul_eq_zero.mp second with zero | equal
    · simpa [bit, same] using zero
    · exact absurd (sub_eq_zero.mp equal) same

theorem equality_witness (x y : ZMod modulus) :
    bit (x = y) + (if x = y then 1 else (x - y)⁻¹) * (x - y) = 1 ∧ bit (x = y) * (x - y) = 0 := by
  by_cases same : x = y
  · simp [bit, same]
  · have unit := inv_mul_cancel₀ (sub_ne_zero.mpr same)
    simp [bit, same, unit]

theorem computes_equality (x y : ZMod modulus)
    {row : ZMod modulus → ZMod modulus → ZMod modulus}
    {product : ZMod modulus → Circuit (ZMod modulus)}
    (rowIs : ∀ aux result, row aux result = result + aux * (x - y) - 1)
    (productIs : ∀ result, Computes (product result) (result * (x - y))) :
    Computes (do
      let aux ← assign (if x = y then 1 else (x - y)⁻¹)
      let result ← assign (bit (x = y))
      constrain (row aux result = 0)
      let mustBeZero ← product result
      constrain (mustBeZero = 0)
      return result) (bit (x = y)) := by
  have witness := equality_witness x y
  have products := fun result => (productIs result).allows
  have forced : ∀ {aux result}, row aux result = 0 → result * (x - y) = 0 →
      result = bit (x = y) := by
    intro aux result first second
    rw [rowIs] at first
    exact equality_bit aux (sub_eq_zero.mp first) second
  apply computes_witness
  · apply computes_assign
    · refine (computes_constrain ?_).bind ((productIs _).bind ?_)
      · rw [rowIs, witness.1, sub_self]
      · exact (computes_constrain witness.2).bind (computes_pure _)
    · intro result other allowed
      simp only [bind_allows, constrain_allows, products, exists_eq_left] at allowed
      rcases allowed with ⟨_, first, _, second, -⟩
      exact forced first second
  · intro aux other allowed
    simp only [bind_allows, constrain_allows, products, exists_eq_left, pure_allows] at allowed
    rcases allowed with ⟨result, -, _, first, _, second, rfl⟩
    exact forced first second

theorem computes_is_equal (x y : ZMod modulus) : Computes (isEqual x y) (bit (x = y)) := by
  apply computes_equality x y
  · intro aux result
    ring
  · intro result
    convert computes_add_and_double_mul 0 result 0 x 0 y 0 1 (-1 : ZMod modulus) using 1
    ring

theorem computes_is_equal_to_fixed (x constant : ZMod modulus) :
    Computes (isEqualToFixed x constant) (bit (x = constant)) := by
  apply computes_equality x constant
  · intro aux result
    ring
  · intro result
    unfold addAndMul
    convert computes_add_and_double_mul (-constant) result 0 x 0 x 0 1 (0 : ZMod modulus) using 1
    ring

/-- Fold a binary operation over the bits; the first one is unwrapped. -/
def foldBits (step : ZMod modulus → ZMod modulus → Circuit (ZMod modulus)) :
    List (ZMod modulus) → Circuit (ZMod modulus)
  | [] => panic
  | first :: rest => rest.foldlM step first

def and : List (ZMod modulus) → Circuit (ZMod modulus) := foldBits fun acc other => mul acc other

def or : List (ZMod modulus) → Circuit (ZMod modulus) :=
  foldBits fun acc other => addAndMul 1 acc 1 other 0 acc 0 (-1)

def xor : List (ZMod modulus) → Circuit (ZMod modulus) :=
  foldBits fun acc other => addAndMul 1 acc 1 other 0 acc 0 (-2)

def not (value : ZMod modulus) : Circuit (ZMod modulus) := linearCombination [(-1, value)] 1

theorem computes_xor (first second : Bool) :
    Computes (xor [(bit first : ZMod modulus), bit second]) (bit (first ^^ second)) := by
  have row := computes_add_and_double_mul 1 (bit first) 1 (bit second) 0 (bit first) 0 (-2)
    (0 : ZMod modulus)
  have value : 1 * bit first + 1 * bit second + 0 * bit first + 0 +
      -2 * bit first * bit second + 0 * bit first * bit first =
        (bit (first ^^ second) : ZMod modulus) := by
    cases first <;> cases second <;> simp [bit]
    ring
  rw [value] at row
  exact row.bind (computes_pure _)

theorem computes_or (first second : Bool) :
    Computes (or [(bit first : ZMod modulus), bit second]) (bit (first || second)) := by
  have row := computes_add_and_double_mul 1 (bit first) 1 (bit second) 0 (bit first) 0 (-1)
    (0 : ZMod modulus)
  have value : 1 * bit first + 1 * bit second + 0 * bit first + 0 +
      -1 * bit first * bit second + 0 * bit first * bit first =
        (bit (first || second) : ZMod modulus) := by
    cases first <;> cases second <;> simp [bit]
  rw [value] at row
  exact row.bind (computes_pure _)

theorem bit_mul (first second : Bool) :
    (bit first * bit second : ZMod modulus) = bit (first && second) := by
  cases first <;> cases second <;> simp [bit]

theorem computes_and (bits : List Bool) (present : bits ≠ []) :
    Computes (and (bits.map (bit : Bool → ZMod modulus))) (bit (bits.all id)) := by
  have folded : ∀ (rest : List Bool) (start : Bool), Computes
      ((rest.map (bit : Bool → ZMod modulus)).foldlM (fun acc other => mul acc other) (bit start))
      (bit (start && rest.all id)) := by
    intro rest
    induction rest with
    | nil =>
      intro start
      simpa using computes_pure (bit start : ZMod modulus)
    | cons second rest ih =>
      intro start
      rw [map_cons, foldlM_cons]
      have product := computes_mul (bit start) (bit second : ZMod modulus)
      rw [bit_mul] at product
      apply product.bind
      simpa [Bool.and_assoc] using ih (start && second)
  cases bits with
  | nil => exact absurd rfl present
  | cons first rest =>
    rw [map_cons, all_cons, id_eq]
    exact folded rest first

theorem computes_not (value : Bool) :
    Computes (not (bit value : ZMod modulus)) (bit (! value)) := by
  have combination := computes_linear_combination [(-1, bit value)] (1 : ZMod modulus)
  have result : (1 : ZMod modulus) + ([(-1, bit value)].map fun term : ZMod modulus × ZMod modulus =>
      term.1 * term.2).sum = bit (! value) := by
    cases value <;> simp [bit]
  rwa [result] at combination

/-- `cond x + (1 - cond) y`. -/
def select (cond x y : ZMod modulus) : Circuit (ZMod modulus) :=
  addAndDoubleMul 0 cond 0 x 1 y 0 1 (-1)

theorem computes_select (cond : Bool) (x y : ZMod modulus) :
    Computes (select (bit cond) x y) (if cond then x else y) := by
  have row := computes_add_and_double_mul 0 (bit cond) 0 x 1 y 0 1 (-1)
  have value : 0 * bit cond + 0 * x + 1 * y + 0 + 1 * bit cond * x + -1 * bit cond * y =
      if cond then x else y := by
    cases cond <;> simp [bit]
  rwa [value] at row

def assertLessThanPow2 (x : ZMod modulus) (bitLength : Nat) : Circuit Unit :=
  constrain (x.val < 2 ^ bitLength)

def assignLessThanPow2 (hint : ZMod modulus) (bitLength : Nat) : Circuit (ZMod modulus) := do
  let x ← assign hint
  assertLessThanPow2 x bitLength
  return x

def assignBit (hint : Bool) : Circuit (ZMod modulus) := do
  let x ← assign (bit hint)
  constrain (x * x - x = 0)
  return x

/-- `x` or `x - (bound - 2^k)` is below `2^k`, where `2^k` is the largest power up to `bound`. -/
def assertLowerThanFixed (x : ZMod modulus) (bound : Nat) : Circuit Unit := do
  let bitLength := bound.log2
  if 2 ^ bitLength = bound then assertLessThanPow2 x bitLength
  else
    let small ← assignBit (x.val < 2 ^ bitLength)
    let shifted ← addConstant x (-((bound - 2 ^ bitLength : Nat) : ZMod modulus))
    let y ← select small x shifted
    assertLessThanPow2 y bitLength

def assignLowerThanFixed (hint : ZMod modulus) (bound : Nat) : Circuit (ZMod modulus) := do
  if bound = 0 then return 0
  else if 2 ^ bound.log2 = bound then assignLessThanPow2 hint bound.log2
  else
    let x ← assign hint
    assertLowerThanFixed x bound
    return x

/-- `div_rem` by a constant, with an inclusive bound on the dividend. -/
def divRem (dividend : ZMod modulus) (divisor dividendBound : Nat) :
    Circuit (ZMod modulus × ZMod modulus) := do
  if divisor = 1 then return (dividend, 0)
  else if divisor = 0 ∨ dividendBound < divisor then panic
  else
    let rest ← assignLowerThanFixed ((dividend.val % divisor : Nat) : ZMod modulus) divisor
    let quotient ← assignLowerThanFixed ((dividend.val / divisor : Nat) : ZMod modulus)
      (dividendBound / divisor + 1)
    let sum ← linearCombination [((divisor : ZMod modulus), quotient), (1, rest)] 0
    assertEqual dividend sum
    return (quotient, rest)

def rem (input : ZMod modulus) (divisor inputBound : Nat) : Circuit (ZMod modulus) :=
  Prod.snd <$> divRem input divisor inputBound

/-! Field elements as integers. -/

theorem val_add_lt {x y : ZMod modulus} (fits : x.val + y.val < modulus) :
    (x + y).val = x.val + y.val := ZMod.val_add_of_lt fits

theorem val_natCast_lt {value : Nat} (fits : value < modulus) :
    (value : ZMod modulus).val = value := ZMod.val_cast_of_lt fits

theorem val_sub_natCast {x : ZMod modulus} {value : Nat} (le : value ≤ x.val) :
    (x - (value : ZMod modulus)).val = x.val - value := by
  have below : value < modulus := lt_of_le_of_lt le (ZMod.val_lt x)
  rw [ZMod.val_sub (by rwa [val_natCast_lt below]), val_natCast_lt below]

omit [Fact modulus.Prime] in
theorem computes_assert_less_than_pow2 {x : ZMod modulus} {bitLength : Nat}
    (small : x.val < 2 ^ bitLength) : Computes (assertLessThanPow2 x bitLength) () :=
  computes_constrain small

theorem ensures_assign_bit (hint : Bool) :
    Ensures (assignBit hint : Circuit (ZMod modulus)) fun x => ∃ value, x = bit value := by
  intro x allowed
  simp only [assignBit, bind_allows, assign_allows, constrain_allows, pure_allows, true_and]
    at allowed
  rcases allowed with ⟨found, _, holds, rfl⟩
  have product : x * (x - 1) = 0 := by linear_combination holds
  rcases mul_eq_zero.mp product with zero | one
  · exact ⟨false, by simpa [bit] using zero⟩
  · exact ⟨true, by simpa [bit] using sub_eq_zero.mp one⟩

section Shifts

variable {x : ZMod modulus} {bound : Nat}

theorem shifted_lt (pos : bound ≠ 0)
    (shifted : (x + -((bound - 2 ^ bound.log2 : Nat) : ZMod modulus)).val < 2 ^ bound.log2) :
    x.val < bound := by
  have power : 2 ^ bound.log2 ≤ bound := Nat.log2_self_le pos
  rcases Nat.lt_or_ge bound modulus with inField | beyond
  · have back : x = (x + -((bound - 2 ^ bound.log2 : Nat) : ZMod modulus)) +
        ((bound - 2 ^ bound.log2 : Nat) : ZMod modulus) := by ring
    have shift : ((bound - 2 ^ bound.log2 : Nat) : ZMod modulus).val = bound - 2 ^ bound.log2 :=
      val_natCast_lt (by omega)
    rw [back, val_add_lt (by omega), shift]
    omega
  · exact lt_of_lt_of_le (ZMod.val_lt x) beyond

theorem selected_lt (below : x.val < bound) :
    (if decide (x.val < 2 ^ bound.log2) then x
      else x + -((bound - 2 ^ bound.log2 : Nat) : ZMod modulus)).val < 2 ^ bound.log2 := by
  have next : bound < 2 ^ (bound.log2 + 1) := Nat.lt_log2_self
  rw [pow_succ] at next
  by_cases small : x.val < 2 ^ bound.log2
  · rw [if_pos (decide_eq_true small)]
    exact small
  · rw [if_neg (by simpa using small), ← sub_eq_add_neg, val_sub_natCast (by omega)]
    omega

end Shifts

theorem assert_lower_than_fixed_iff {x : ZMod modulus} {bound : Nat} (pos : bound ≠ 0)
    (fits : bound ≤ modulus) (result : Unit) :
    (assertLowerThanFixed x bound).allows result ↔ x.val < bound := by
  have power : 2 ^ bound.log2 ≤ bound := Nat.log2_self_le pos
  unfold assertLowerThanFixed
  dsimp only
  split_ifs with exactPower
  · rw [assertLessThanPow2, constrain_allows, exactPower]
  · constructor
    · rintro ⟨small, bitAllowed, shifted, shiftedAllowed, y, selected, check⟩
      rcases ensures_assign_bit _ small bitAllowed with ⟨value, rfl⟩
      rw [(computes_add_constant x _).allows] at shiftedAllowed
      rw [(computes_select value x shifted).allows] at selected
      simp only [assertLessThanPow2, constrain_allows] at check
      subst shiftedAllowed selected
      cases value with
      | true =>
        rw [if_pos rfl] at check
        omega
      | false =>
        rw [if_neg (by decide)] at check
        exact shifted_lt pos check
    · intro below
      refine ⟨bit (x.val < 2 ^ bound.log2), ?_, _, (computes_add_constant x _).allows _ |>.mpr rfl,
        _, (computes_select _ x _).allows _ |>.mpr rfl, ?_⟩
      · simp only [assignBit, bind_allows, assign_allows, constrain_allows, pure_allows, true_and]
        refine ⟨_, (), ?_, rfl⟩
        by_cases small : x.val < 2 ^ bound.log2 <;> simp [bit, small]
      · simp only [assertLessThanPow2, constrain_allows]
        exact selected_lt below

theorem honest_assign_bit (hint : Bool) :
    (assignBit hint : Circuit (ZMod modulus)).honest = some (bit hint) := by
  have holds : (bit hint * bit hint - bit hint : ZMod modulus) = 0 := by
    cases hint <;> simp [bit]
  change ((constrain _ >>= fun _ => pure (bit hint)) : Circuit (ZMod modulus)).honest = _
  exact ((computes_constrain holds).returning fun _ => bit hint).honest

theorem honest_bind {Value Result : Type} {first : Circuit Value} {next : Value → Circuit Result}
    {value : Value} (firstHonest : first.honest = some value) :
    (first >>= next).honest = (next value).honest := by
  change first.honest.bind _ = _
  rw [firstHonest]
  rfl

section

variable {bound : Nat} (pos : bound ≠ 0) (fits : bound ≤ modulus)

include pos fits

theorem computes_assert_lower_than_fixed {x : ZMod modulus} (below : x.val < bound) :
    Computes (assertLowerThanFixed x bound) () where
  honest := by
    unfold assertLowerThanFixed
    dsimp only
    split_ifs with exactPower
    · exact (computes_assert_less_than_pow2 (by omega)).honest
    · rw [honest_bind (honest_assign_bit _), honest_bind (computes_add_constant _ _).honest,
        honest_bind (computes_select _ _ _).honest]
      exact (computes_assert_less_than_pow2 (selected_lt below)).honest
  allows := fun result => iff_of_true ((assert_lower_than_fixed_iff pos fits result).mpr below)
    rfl

theorem assign_lower_than_fixed_iff {hint x : ZMod modulus} :
    (assignLowerThanFixed hint bound).allows x ↔ x.val < bound := by
  unfold assignLowerThanFixed
  rw [if_neg pos]
  split_ifs with exactPower
  · simp only [assignLessThanPow2, assertLessThanPow2, bind_allows, assign_allows,
      constrain_allows, pure_allows, true_and, exactPower, exists_const, exists_eq_right']
  · simp only [bind_allows, assign_allows, pure_allows, true_and,
      assert_lower_than_fixed_iff pos fits, exists_const, exists_eq_right']

theorem honest_assign_lower_than_fixed {hint : ZMod modulus} (below : hint.val < bound) :
    (assignLowerThanFixed hint bound).honest = some hint := by
  unfold assignLowerThanFixed
  rw [if_neg pos]
  split_ifs with exactPower
  · rw [← exactPower] at below
    exact ((computes_assert_less_than_pow2 below).bind (computes_pure hint)).honest
  · exact ((computes_assert_lower_than_fixed pos fits below).bind (computes_pure hint)).honest

end

/-! Division. -/

/-- Two pairs in the ranges that stand for the same element are equal when the largest
admitted sum stays below the next representative of the element. -/
theorem pair_unique {x q r : ZMod modulus} {divisor quotients : Nat} (pos : 0 < divisor)
    (fits : quotients * divisor ≤ modulus + x.val) (restSmall : r.val < divisor)
    (quotientSmall : q.val < quotients) (same : x = divisor * q + r) :
    q.val = x.val / divisor ∧ r.val = x.val % divisor := by
  have below := ZMod.val_lt x
  have cast : ((divisor * q.val + r.val : Nat) : ZMod modulus) = x := by
    rw [same]
    push_cast
    rw [ZMod.natCast_zmod_val, ZMod.natCast_zmod_val]
  have total : divisor * q.val + r.val < modulus + x.val := by
    calc divisor * q.val + r.val < divisor * q.val + divisor := Nat.add_lt_add_left restSmall _
      _ = (q.val + 1) * divisor := by ring
      _ ≤ quotients * divisor := Nat.mul_le_mul_right _ quotientSmall
      _ ≤ modulus + x.val := fits
  have residue : (divisor * q.val + r.val) % modulus = x.val := by
    rw [← ZMod.val_natCast, cast]
  have integers : divisor * q.val + r.val = x.val := by
    have division := Nat.div_add_mod (divisor * q.val + r.val) modulus
    rw [residue] at division
    rcases Nat.eq_zero_or_pos ((divisor * q.val + r.val) / modulus) with none | some
    · rw [none, Nat.mul_zero] at division
      omega
    · have once : modulus ≤ modulus * ((divisor * q.val + r.val) / modulus) :=
        Nat.le_mul_of_pos_right _ some
      omega
  constructor
  · rw [← integers, Nat.mul_add_div pos, Nat.div_eq_of_lt restSmall, Nat.add_zero]
  · rw [← integers, Nat.mul_add_mod, Nat.mod_eq_of_lt restSmall]

theorem computes_div_rem {dividend divisor bound : Nat} (pos : divisor ≠ 0)
    (reached : divisor ≤ bound) (fits : bound + divisor ≤ modulus) (bounded : dividend ≤ bound) :
    Computes (divRem (dividend : ZMod modulus) divisor bound)
      (((dividend / divisor : Nat) : ZMod modulus), ((dividend % divisor : Nat) : ZMod modulus)) := by
  have dividendVal : (dividend : ZMod modulus).val = dividend := val_natCast_lt (by omega)
  unfold divRem
  rw [dividendVal]
  split_ifs with one outside
  · subst one
    simpa [Nat.mod_one] using computes_pure (((dividend : Nat) : ZMod modulus), (0 : ZMod modulus))
  · omega
  · have restBelow : dividend % divisor < divisor := Nat.mod_lt _ (Nat.pos_of_ne_zero pos)
    have quotientBelow : dividend / divisor < bound / divisor + 1 :=
      Nat.lt_succ_of_le (Nat.div_le_div_right bounded)
    have quotientBound : bound / divisor + 1 ≤ modulus := by
      have small := Nat.div_le_self bound divisor
      omega
    have restVal : ((dividend % divisor : Nat) : ZMod modulus).val = dividend % divisor :=
      val_natCast_lt (by omega)
    have quotientVal : ((dividend / divisor : Nat) : ZMod modulus).val = dividend / divisor :=
      val_natCast_lt (by omega)
    have cast : ((divisor * (dividend / divisor) + dividend % divisor : Nat) : ZMod modulus) =
        dividend := by rw [Nat.div_add_mod]
    push_cast at cast
    constructor
    · rw [honest_bind (honest_assign_lower_than_fixed pos (by omega) (by omega)),
        honest_bind (honest_assign_lower_than_fixed (Nat.succ_ne_zero _) quotientBound (by omega)),
        honest_bind (computes_linear_combination _ _).honest]
      refine ((computes_constrain ?_).returning fun _ => (_, _)).honest
      simp [cast]
    · intro result
      simp only [bind_allows, assertEqual, constrain_allows, pure_allows,
        (computes_linear_combination _ _).allows, assign_lower_than_fixed_iff pos
          (by omega : divisor ≤ modulus), assign_lower_than_fixed_iff (Nat.succ_ne_zero _)
          quotientBound]
      constructor
      · rintro ⟨rest, restSmall, quotient, quotientSmall, _, rfl, _, same, rfl⟩
        have sums : (bound / divisor + 1) * divisor ≤ modulus + (dividend : ZMod modulus).val := by
          have product := Nat.div_mul_le_self bound divisor
          rw [Nat.succ_mul]
          omega
        have integers := pair_unique (Nat.pos_of_ne_zero pos) sums restSmall quotientSmall
          (by simpa using same)
        rw [dividendVal] at integers
        have quotientCast := congrArg (Nat.cast : Nat → ZMod modulus) integers.1
        have restCast := congrArg (Nat.cast : Nat → ZMod modulus) integers.2
        rw [ZMod.natCast_zmod_val] at quotientCast restCast
        rw [quotientCast, restCast]
      · rintro rfl
        refine ⟨_, by omega, _, by omega, _, rfl, (), ?_, rfl⟩
        simp [cast]

theorem computes_rem {dividend divisor bound : Nat} (pos : divisor ≠ 0)
    (reached : divisor ≤ bound) (fits : bound + divisor ≤ modulus) (bounded : dividend ≤ bound) :
    Computes (rem (dividend : ZMod modulus) divisor bound)
      ((dividend % divisor : Nat) : ZMod modulus) := by
  unfold rem
  rw [← bind_pure_comp]
  exact (computes_div_rem pos reached fits bounded).bind (computes_pure _)

end Midfall.NativeGadget
