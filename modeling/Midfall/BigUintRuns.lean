import Midfall.BigUintConversions
import Midfall.ScalarField

/-!
# Runs of big unsigned integer operations

A circuit assigns integers, bits and bytes and combines earlier ones in any
order. A step fits when its operands have the limbs it needs, its product does
not overflow the native field, and operands whose cells agree are equal or
zero. In a run of fitting steps every integer is exact.
-/

namespace Midfall.BigUint

open CircuitPrograms NativeGadget NativeDecomposition List
open Option (all_some bind_some getD_some)
open CellPrograms ProofReadOrder
open ListLoops (forall₂_mem_left)

/-- Operands are positions among the numbers, the bits or the bytes. -/
inductive Operation where
  | assign (value nbBits : Nat)
  | assignFixed (constant : Nat)
  | add (x y : Nat)
  | sub (x y : Nat)
  | mul (x y : Nat)
  | square (x : Nat)
  | divRem (x y : Nat)
  | select (cond x y : Nat)
  | isEqual (x y : Nat)
  | isNotEqual (x y : Nat)
  | isEqualToFixed (x constant : Nat)
  | isNotEqualToFixed (x constant : Nat)
  | lowerThan (x y : Nat)
  | toLeBits (x : Nat)
  | toLeBytes (x : Nat)
  | fromLeBits (bits : List Nat)
  | fromLeBytes (bytes : List Nat)

/-- What was assigned so far, or by one operation. -/
structure Assets (Number Digit : Type) where
  numbers : List Number
  bits : List Digit
  bytes : List Digit

section Assets

variable {Number Digit Result : Type}

def Assets.none : Assets Number Digit := { numbers := [], bits := [], bytes := [] }

def Assets.ofNumbers (numbers : List Number) : Assets Number Digit :=
  { numbers := numbers, bits := [], bytes := [] }

def Assets.ofBits (bits : List Digit) : Assets Number Digit :=
  { numbers := [], bits := bits, bytes := [] }

def Assets.ofBytes (bytes : List Digit) : Assets Number Digit :=
  { numbers := [], bits := [], bytes := bytes }

def Assets.append (state new : Assets Number Digit) : Assets Number Digit where
  numbers := state.numbers ++ new.numbers
  bits := state.bits ++ new.bits
  bytes := state.bytes ++ new.bytes

end Assets

abbrev Integers := Assets Nat Nat

variable {modulus : Nat} [Fact modulus.Prime] {cells : List (ZMod modulus)}

abbrev Assigneds (modulus : Nat) := Assets (AssignedBigUint modulus) (AssignedNative modulus)

def Assets.integers (state : Assigneds modulus) : Integers where
  numbers := state.numbers.map AssignedBigUint.value
  bits := state.bits.map fun bit => bit.value.val
  bytes := state.bytes.map fun byte => byte.value.val

def withOperand {Operand Result : Type} (operand : Option Operand)
    (program : Operand → Program modulus Result) : Program modulus Result :=
  match operand with
  | some operand => program operand
  | none => stop

def execute (state : Assigneds modulus) : Operation → Program modulus (Assigneds modulus)
  | .assign value nbBits => do
    let x ← assignBiguint value nbBits
    return .ofNumbers [x]
  | .assignFixed constant => do
    let x ← assignFixedBiguint constant
    return .ofNumbers [x]
  | .add x y => withOperand state.numbers[x]? fun x => withOperand state.numbers[y]? fun y => do
    let z ← addBiguint x y
    return .ofNumbers [z]
  | .sub x y => withOperand state.numbers[x]? fun x => withOperand state.numbers[y]? fun y => do
    let z ← sub x y
    return .ofNumbers [z]
  | .mul x y => withOperand state.numbers[x]? fun x => withOperand state.numbers[y]? fun y => do
    let z ← mulBiguint x y
    return .ofNumbers [z]
  | .square x => withOperand state.numbers[x]? fun x => do
    let z ← square x
    return .ofNumbers [z]
  | .divRem x y => withOperand state.numbers[x]? fun x => withOperand state.numbers[y]? fun y => do
    let parts ← divRem x y
    return .ofNumbers [parts.1, parts.2]
  | .select cond x y => withOperand state.bits[cond]? fun cond =>
    withOperand state.numbers[x]? fun x => withOperand state.numbers[y]? fun y => do
      let z ← select cond x y
      return .ofNumbers [z]
  | .isEqual x y => withOperand state.numbers[x]? fun x => withOperand state.numbers[y]? fun y => do
    let b ← isEqual x y
    return .ofBits [b]
  | .isNotEqual x y => withOperand state.numbers[x]? fun x =>
    withOperand state.numbers[y]? fun y => do
      let b ← isNotEqual x y
      return .ofBits [b]
  | .isEqualToFixed x constant => withOperand state.numbers[x]? fun x => do
    let b ← isEqualToFixed x constant
    return .ofBits [b]
  | .isNotEqualToFixed x constant => withOperand state.numbers[x]? fun x => do
    let b ← isNotEqualToFixed x constant
    return .ofBits [b]
  | .lowerThan x y => withOperand state.numbers[x]? fun x =>
    withOperand state.numbers[y]? fun y => do
      let b ← lowerThan x y
      return .ofBits [b]
  | .toLeBits x => withOperand state.numbers[x]? fun x => do
    let bits ← toLeBits x
    return .ofBits bits
  | .toLeBytes x => withOperand state.numbers[x]? fun x => do
    let bytes ← toLeBytes x
    return .ofBytes bytes
  | .fromLeBits bits => withOperand (bits.mapM fun bit => state.bits[bit]?) fun bits => do
    let x ← fromLeBits bits
    return .ofNumbers [x]
  | .fromLeBytes bytes => withOperand (bytes.mapM fun byte => state.bytes[byte]?) fun bytes => do
    let x ← fromLeBytes bytes
    return .ofNumbers [x]

/-- The integers of the result, for the hint of an assignment. -/
def expected (state : Assigneds modulus) : Operation → Option Integers
  | .assign value nbBits => if value < 2 ^ nbBits then some (.ofNumbers [value]) else none
  | .assignFixed constant => some (.ofNumbers [constant])
  | .add x y => state.numbers[x]?.bind fun x => state.numbers[y]?.bind fun y =>
    some (.ofNumbers [x.value + y.value])
  | .sub x y => state.numbers[x]?.bind fun x => state.numbers[y]?.bind fun y =>
    if y.value ≤ x.value then some (.ofNumbers [x.value - y.value]) else none
  | .mul x y => state.numbers[x]?.bind fun x => state.numbers[y]?.bind fun y =>
    some (.ofNumbers [x.value * y.value])
  | .square x => state.numbers[x]?.bind fun x => some (.ofNumbers [x.value * x.value])
  | .divRem x y => state.numbers[x]?.bind fun x => state.numbers[y]?.bind fun y =>
    if y.value ≠ 0 then some (.ofNumbers [x.value / y.value, x.value % y.value]) else none
  | .select cond x y => state.bits[cond]?.bind fun cond => state.numbers[x]?.bind fun x =>
    state.numbers[y]?.bind fun y =>
      some (.ofNumbers [if cond.value.val = 1 then x.value else y.value])
  | .isEqual x y => state.numbers[x]?.bind fun x => state.numbers[y]?.bind fun y =>
    some (.ofBits [(decide (x.value = y.value)).toNat])
  | .isNotEqual x y => state.numbers[x]?.bind fun x => state.numbers[y]?.bind fun y =>
    some (.ofBits [(! decide (x.value = y.value)).toNat])
  | .isEqualToFixed x constant => state.numbers[x]?.bind fun x =>
    some (.ofBits [(decide (x.value = constant)).toNat])
  | .isNotEqualToFixed x constant => state.numbers[x]?.bind fun x =>
    some (.ofBits [(! decide (x.value = constant)).toNat])
  | .lowerThan x y => state.numbers[x]?.bind fun x => state.numbers[y]?.bind fun y =>
    some (.ofBits [(decide (x.value < y.value)).toNat])
  | .toLeBits x => state.numbers[x]?.bind fun x =>
    some (.ofBits (lowDigits 1 (log2Base * x.limbs.length) x.value))
  | .toLeBytes x => state.numbers[x]?.bind fun x =>
    some (.ofBytes (lowDigits 8 (12 * x.limbs.length) x.value))
  | .fromLeBits bits => (bits.mapM fun bit => state.bits[bit]?).bind fun bits =>
    some (.ofNumbers [Nat.ofDigits 2 (bits.map fun bit => bit.value.val)])
  | .fromLeBytes bytes => (bytes.mapM fun byte => state.bytes[byte]?).bind fun bytes =>
    some (.ofNumbers [Nat.ofDigits 256 (bytes.map fun byte => byte.value.val)])

/-- An assignment takes any integer with its bits; everything else is determined. -/
def specified (state : Assigneds modulus) (operation : Operation) (result : Integers) : Prop :=
  match operation with
  | .assign _ nbBits => ∃ value, value < 2 ^ nbBits ∧ result = .ofNumbers [value]
  | _ => expected state operation = some result

/-- The operands have the limbs an operation needs and its product does not overflow. -/
def operandsFit (state : Assigneds modulus) : Operation → Bool
  | .assign _ nbBits => decide (nbBits ≠ 0)
  | .sub x _ => state.numbers[x]?.all fun x => decide (x.limbs.length ≠ 0)
  | .mul x y => state.numbers[x]?.all fun x => state.numbers[y]?.all fun y =>
    decide (x.limbs.length ≠ 0) && productFits x y &&
      (! x.eq y || decide (x.value = 0 ∨ x.value = y.value))
  | .square x => state.numbers[x]?.all fun x =>
    decide (x.limbs.length ≠ 0) && carriesFit modulus.size 0 (squareBounds x.limbSizeBounds)
  | .divRem x y => state.numbers[x]?.all fun x => state.numbers[y]?.all fun y =>
    decide (x.limbs.length ≠ 0) && decide (y.limbs.length ≠ 0) && quotientFits x y
  | .isEqual x y => state.numbers[x]?.all fun x => state.numbers[y]?.all fun y =>
    decide (x.limbs.length ≠ 0 ∨ y.limbs.length ≠ 0)
  | .isNotEqual x y => state.numbers[x]?.all fun x => state.numbers[y]?.all fun y =>
    decide (x.limbs.length ≠ 0 ∨ y.limbs.length ≠ 0)
  | .isEqualToFixed x constant => state.numbers[x]?.all fun x =>
    decide (x.limbs.length ≠ 0 ∨ constant ≠ 0)
  | .isNotEqualToFixed x constant => state.numbers[x]?.all fun x =>
    decide (x.limbs.length ≠ 0 ∨ constant ≠ 0)
  | _ => true

/-- The field also has room for a limb with a carry. -/
def fits (state : Assigneds modulus) (operation : Operation) : Bool :=
  decide (log2Base + 2 < modulus.size) && operandsFit state operation

/-- Every number is within its bounds, and every bit and byte within its range. -/
structure Valid (cells : List (ZMod modulus)) (state : Assigneds modulus) : Prop where
  numbers : ∀ number ∈ state.numbers, Number cells number number.value
  bits : ∀ bit ∈ state.bits, Holds cells bit ∧ bit.value.val < 2
  bytes : ∀ byte ∈ state.bytes, Holds cells byte ∧ byte.value.val < 256

omit [Fact modulus.Prime] in
theorem Valid.append {state new : Assigneds modulus} {added : List (ZMod modulus)}
    (valid : Valid cells state) (more : Valid (cells ++ added) new) :
    Valid (cells ++ added) (state.append new) := by
  unfold Assets.append
  constructor
  · intro number mem
    exact (mem_append.mp mem).elim (fun old => (valid.numbers number old).append added)
      (more.numbers number)
  · intro bit mem
    exact (mem_append.mp mem).elim
      (fun old => ⟨(valid.bits bit old).1.append added, (valid.bits bit old).2⟩) (more.bits bit)
  · intro byte mem
    exact (mem_append.mp mem).elim
      (fun old => ⟨(valid.bytes byte old).1.append added, (valid.bytes byte old).2⟩) (more.bytes byte)

/-- Every allowed result is as specified, and the prover reaches the expected one. -/
structure Faithful (program : Program modulus (Assigneds modulus)) (cells : List (ZMod modulus))
    (specified : Integers → Prop) (expected : Option Integers) : Prop where
  allowed : Allowed program cells fun new cells => Valid cells new ∧ specified new.integers
  honest : ∀ result, expected = some result →
    Honest program cells fun new _ => new.integers = result

variable {program : Program modulus (Assigneds modulus)}

omit [Fact modulus.Prime] in
theorem faithful_exact {result : Integers}
    (computes : Exact program cells fun new cells => Valid cells new ∧ new.integers = result) :
    Faithful program cells (fun found => some result = some found) (some result) where
  allowed := computes.allowed.weaken fun _ _ holds => ⟨holds.1, congrArg some holds.2.symm⟩
  honest := by
    intro found same
    rw [← Option.some.inj same]
    exact computes.honest.weaken fun _ _ holds => holds.2

omit [Fact modulus.Prime] in
theorem faithful_operand {Operand : Type} {operand : Option Operand}
    {program : Operand → Program modulus (Assigneds modulus)} {result : Operand → Option Integers}
    (each : ∀ found, operand = some found →
      Faithful (program found) cells (fun integers => result found = some integers) (result found)) :
    Faithful (withOperand operand program) cells
      (fun integers => operand.bind result = some integers) (operand.bind result) := by
  cases operand with
  | some found => exact each found rfl
  | none =>
    constructor
    · intro outcome stopped
      exact absurd stopped id
    · intro found missing
      cases missing

omit [Fact modulus.Prime] in
theorem valid_number {number : AssignedBigUint modulus} {n : Nat} (holds : Number cells number n) :
    Valid cells (.ofNumbers [number]) ∧ (Assets.ofNumbers [number]).integers = .ofNumbers [n] := by
  have value := holds.value
  refine ⟨⟨fun other mem => ?_, fun bit mem => absurd mem not_mem_nil,
    fun byte mem => absurd mem not_mem_nil⟩, ?_⟩
  · rw [mem_singleton.mp mem, value]
    exact holds
  · unfold Assets.integers Assets.ofNumbers
    rw [map_singleton, value]
    rfl

theorem bit_val (value : Bool) : (bit value : ZMod modulus).val = value.toNat := by
  have prime : 1 < modulus := Nat.Prime.one_lt Fact.out
  cases value with
  | true =>
    have one : (bit true : ZMod modulus) = ((1 : Nat) : ZMod modulus) := Nat.cast_one.symm
    rw [one, val_natCast_lt prime]
    rfl
  | false => exact ZMod.val_zero

variable {limb : AssignedNative modulus}

theorem valid_bit {value : Bool} (isBit : IsBit cells limb value) :
    Valid cells (.ofBits [limb]) ∧
      (Assets.ofBits [limb] : Assigneds modulus).integers = .ofBits [value.toNat] := by
  have val : limb.value.val = value.toNat := by rw [isBit.1, bit_val]
  refine ⟨⟨fun other mem => absurd mem not_mem_nil, fun bit mem => ?_,
    fun byte mem => absurd mem not_mem_nil⟩, ?_⟩
  · rw [mem_singleton.mp mem, val]
    exact ⟨isBit.2, Bool.toNat_lt value⟩
  · unfold Assets.integers Assets.ofBits
    rw [map_singleton, val]
    rfl

theorem low_digits_lt (width count value : Nat) :
    ∀ digit ∈ lowDigits width count value, digit < 2 ^ width :=
  decompose_limb_lt value width count

theorem digit_values {digits : List (AssignedNative modulus)} {width count value : Nat}
    (hold : Forall₂ (IsDigit cells) digits (lowDigits width count value))
    (small : width < modulus.size) :
    digits.map (fun digit => digit.value.val) = lowDigits width count value ∧
      ∀ digit ∈ digits, Holds cells digit ∧ digit.value.val < 2 ^ width := by
  have bound := low_digits_lt width count value
  have fits : 2 ^ width ≤ modulus := pow_le_modulus small
  have values := digits_are_values hold fun digit mem => lt_of_lt_of_le (bound digit mem) fits
  refine ⟨values, fun digit mem => ?_⟩
  rcases forall₂_mem_left hold mem with ⟨other, inside, isDigit⟩
  refine ⟨isDigit.2, ?_⟩
  rw [isDigit.val (lt_of_lt_of_le (bound other inside) fits)]
  exact bound other inside

omit [Fact modulus.Prime] in
theorem faithful_number {program : Program modulus (AssignedBigUint modulus)} {n : Nat}
    (computes : Exact program cells fun z cells => Number cells z n) :
    Faithful (program >>= fun z => pure (Assets.ofNumbers [z])) cells
      (fun found => some (Assets.ofNumbers [n]) = some found) (some (Assets.ofNumbers [n])) :=
  faithful_exact (computes.returning fun _ _ number => valid_number number)

theorem faithful_bit {program : Program modulus (AssignedNative modulus)} {value : Bool}
    (computes : Exact program cells fun b cells => IsBit cells b value) :
    Faithful (program >>= fun b => pure (Assets.ofBits [b])) cells
      (fun found => some (Assets.ofBits [value.toNat]) = some found)
        (some (Assets.ofBits [value.toNat])) :=
  faithful_exact (computes.returning fun _ _ isBit => valid_bit isBit)

omit [Fact modulus.Prime] in
theorem faithful_when {Result : Type} {program : Program modulus Result}
    {view : Result → Assigneds modulus} {condition : Prop} [Decidable condition] {result : Integers}
    (allowed : Allowed program cells fun found after =>
      condition ∧ Valid after (view found) ∧ (view found).integers = result)
    (honest : condition → Honest program cells fun found _ => (view found).integers = result) :
    Faithful (program >>= fun found => pure (view found)) cells
      (fun found => (if condition then some result else none) = some found)
        (if condition then some result else none) where
  allowed := by
    refine allowed.returning fun found added holds => ⟨holds.2.1, ?_⟩
    rw [if_pos holds.1, holds.2.2]
  honest := by
    intro found reached
    split_ifs at reached with holds
    rw [← Option.some.inj reached]
    exact (honest holds).returning fun _ _ same => same

omit [Fact modulus.Prime] in
theorem valid_pair {first second : AssignedBigUint modulus} {m n : Nat}
    (isFirst : Number cells first m) (isSecond : Number cells second n) :
    Valid cells (.ofNumbers [first, second]) ∧
      (Assets.ofNumbers [first, second]).integers = .ofNumbers [m, n] := by
  have values := And.intro isFirst.value isSecond.value
  refine ⟨⟨fun other mem => ?_, fun bit mem => absurd mem not_mem_nil,
    fun byte mem => absurd mem not_mem_nil⟩, ?_⟩
  · rcases mem_cons.mp mem with rfl | later
    · rw [values.1]
      exact isFirst
    · rw [mem_singleton.mp later, values.2]
      exact isSecond
  · unfold Assets.integers Assets.ofNumbers
    rw [map_cons, map_singleton, values.1, values.2]
    rfl

theorem operands_member {Entry : Type} {entries found : List Entry} {positions : List Nat}
    (all : positions.mapM (fun position => entries[position]?) = some found) :
    ∀ entry ∈ found, entry ∈ entries := by
  induction positions generalizing found with
  | nil =>
    rw [mapM_nil] at all
    cases all
    exact fun entry mem => absurd mem not_mem_nil
  | cons position positions ih =>
    rw [mapM_cons] at all
    rcases bind_some_iff.mp all with ⟨first, here, rest⟩
    rcases bind_some_iff.mp rest with ⟨others, later, same⟩
    cases same
    rw [forall_mem_cons]
    exact ⟨mem_of_getElem? here, ih later⟩

theorem is_bit_of_digit (holds : Holds cells limb) (small : limb.value.val < 2) :
    IsBit cells limb (decide (limb.value.val = 1)) := by
  refine ⟨?_, holds⟩
  apply ZMod.val_injective modulus
  rw [bit_val]
  have cases : limb.value.val = 0 ∨ limb.value.val = 1 := by omega
  rcases cases with zero | one
  · rw [zero]
    rfl
  · rw [one]
    rfl

variable {state : Assigneds modulus}

theorem step_faithful (valid : Valid cells state) (operation : Operation)
    (fit : fits state operation = true) :
    Faithful (execute state operation) cells (specified state operation)
      (expected state operation) := by
  unfold fits at fit
  rw [Bool.and_eq_true, decide_eq_true_iff] at fit
  rcases fit with ⟨room, operands⟩
  have wide : log2Base < modulus.size := by omega
  have number : ∀ {position : Nat} {found : AssignedBigUint modulus},
      state.numbers[position]? = some found → Number cells found found.value := fun isFound =>
    valid.numbers _ (mem_of_getElem? isFound)
  cases operation with
  | assign value nbBits =>
    have pos : nbBits ≠ 0 := of_decide_eq_true operands
    constructor
    · refine (allowed_assign_bounded value wide).returning fun x added holds => ?_
      have numbers := valid_number holds.1
      exact ⟨numbers.1, x.value, holds.2.1, numbers.2⟩
    · intro result reached
      rw [expected] at reached
      split_ifs at reached with small
      rw [← Option.some.inj reached]
      refine (honest_assign_bounded wide pos small).returning fun x added holds => ?_
      exact (valid_number holds.1).2
  | assignFixed constant => exact faithful_number (exact_assign_fixed wide)
  | add x y =>
    refine faithful_operand fun first isFirst => faithful_operand fun second isSecond => ?_
    exact faithful_number (exact_add_biguint (number isFirst) (number isSecond) room)
  | sub x y =>
    refine faithful_operand fun first isFirst => faithful_operand fun second isSecond => ?_
    rw [operandsFit, isFirst, all_some, decide_eq_true_iff] at operands
    have present : first.limbs ≠ [] := fun empty => operands (length_eq_zero_iff.mpr empty)
    refine faithful_when ((allowed_sub (number isFirst) (number isSecond) room).weaken ?_) ?_
    · exact fun z added holds => ⟨holds.1, valid_number holds.2⟩
    · intro ordered
      refine (honest_sub (number isFirst) (number isSecond) present ordered room).weaken ?_
      exact fun z added holds => (valid_number holds).2
  | mul x y =>
    refine faithful_operand fun first isFirst => faithful_operand fun second isSecond => ?_
    rw [operandsFit, isFirst, all_some, isSecond, all_some, Bool.and_eq_true, Bool.and_eq_true,
      decide_eq_true_iff, Bool.or_eq_true, Bool.not_eq_true', decide_eq_true_iff] at operands
    have present : first.limbs ≠ [] := fun empty =>
      operands.1.1 (length_eq_zero_iff.mpr empty)
    have agree : first.eq second = true → first.value = 0 ∨ first.value = second.value := by
      intro same
      rw [same] at operands
      exact operands.2.resolve_left Bool.true_eq_false.mp
    exact faithful_number
      (exact_mul (number isFirst) (number isSecond) present wide agree operands.1.2)
  | square x =>
    refine faithful_operand fun found isFound => ?_
    rw [operandsFit, isFound, all_some, Bool.and_eq_true, decide_eq_true_iff] at operands
    have present : found.limbs ≠ [] := fun empty =>
      operands.1 (length_eq_zero_iff.mpr empty)
    exact faithful_number (exact_square (number isFound) present wide operands.2)
  | divRem x y =>
    refine faithful_operand fun first isFirst => faithful_operand fun second isSecond => ?_
    rw [operandsFit, isFirst, all_some, isSecond, all_some, Bool.and_eq_true, Bool.and_eq_true,
      decide_eq_true_iff, decide_eq_true_iff] at operands
    have present : first.limbs ≠ [] := fun empty =>
      operands.1.1 (length_eq_zero_iff.mpr empty)
    have other : second.limbs ≠ [] := fun empty =>
      operands.1.2 (length_eq_zero_iff.mpr empty)
    refine @faithful_when _ _ _ _ (fun parts : AssignedBigUint modulus × AssignedBigUint modulus =>
      Assets.ofNumbers [parts.1, parts.2]) _ _ _ ?_ ?_
    · refine (allowed_div_rem (number isFirst) (number isSecond) other room operands.2).weaken ?_
      exact fun parts added holds => ⟨holds.1, valid_pair holds.2.1 holds.2.2⟩
    · intro divisor
      refine (honest_div_rem (number isFirst) (number isSecond) present other room operands.2
        divisor).weaken ?_
      exact fun parts added holds => (valid_pair holds.1 holds.2).2
  | select cond x y =>
    refine faithful_operand fun chosen isChosen => faithful_operand fun first isFirst =>
      faithful_operand fun second isSecond => ?_
    have bits := valid.bits chosen (mem_of_getElem? isChosen)
    have selected := exact_select (is_bit_of_digit bits.1 bits.2) (number isFirst) (number isSecond)
      wide
    have faithful := faithful_number selected
    simp only [decide_eq_true_iff] at faithful
    exact faithful
  | isEqual x y =>
    refine faithful_operand fun first isFirst => faithful_operand fun second isSecond => ?_
    rw [operandsFit, isFirst, all_some, isSecond, all_some, decide_eq_true_iff] at operands
    have present := operands.imp (mt length_eq_zero_iff.mpr) (mt length_eq_zero_iff.mpr)
    exact faithful_bit (exact_is_equal (number isFirst) (number isSecond) wide present)
  | isNotEqual x y =>
    refine faithful_operand fun first isFirst => faithful_operand fun second isSecond => ?_
    rw [operandsFit, isFirst, all_some, isSecond, all_some, decide_eq_true_iff] at operands
    have present := operands.imp (mt length_eq_zero_iff.mpr) (mt length_eq_zero_iff.mpr)
    exact faithful_bit (exact_is_not_equal (number isFirst) (number isSecond) wide present)
  | isEqualToFixed x constant =>
    refine faithful_operand fun found isFound => ?_
    rw [operandsFit, isFound, all_some, decide_eq_true_iff] at operands
    have present := operands.imp (mt length_eq_zero_iff.mpr) id
    exact faithful_bit (exact_is_equal_to_fixed (number isFound) wide present)
  | isNotEqualToFixed x constant =>
    refine faithful_operand fun found isFound => ?_
    rw [operandsFit, isFound, all_some, decide_eq_true_iff] at operands
    have present := operands.imp (mt length_eq_zero_iff.mpr) id
    exact faithful_bit (exact_is_not_equal_to_fixed (number isFound) wide present)
  | lowerThan x y =>
    refine faithful_operand fun first isFirst => faithful_operand fun second isSecond => ?_
    exact faithful_bit (exact_lower_than (number isFirst) (number isSecond) (by omega))
  | toLeBits x =>
    refine faithful_operand fun found isFound => faithful_exact ?_
    refine (exact_to_le_bits (number isFound) wide).returning fun bits added holds => ?_
    have values := digit_values holds (by unfold log2Base at wide; omega)
    refine ⟨⟨fun other mem => absurd mem not_mem_nil, values.2,
      fun byte mem => absurd mem not_mem_nil⟩, ?_⟩
    unfold Assets.integers Assets.ofBits
    rw [values.1]
    rfl
  | toLeBytes x =>
    refine faithful_operand fun found isFound => faithful_exact ?_
    refine (exact_to_le_bytes (number isFound) wide).returning fun bytes added holds => ?_
    have values := digit_values holds (by unfold log2Base at wide; omega)
    refine ⟨⟨fun other mem => absurd mem not_mem_nil,
      fun bit mem => absurd mem not_mem_nil, values.2⟩, ?_⟩
    unfold Assets.integers Assets.ofBytes
    rw [values.1]
    rfl
  | fromLeBits bits =>
    refine faithful_operand fun found isFound => ?_
    exact faithful_number (exact_from_le_bits
      (fun bit mem => valid.bits bit (operands_member isFound bit mem)) wide)
  | fromLeBytes bytes =>
    refine faithful_operand fun found isFound => ?_
    exact faithful_number (exact_from_le_bytes
      (fun byte mem => valid.bytes byte (operands_member isFound byte mem)) wide)

/-- The cells and assets after steps that all meet a condition. -/
inductive Run (condition : Assigneds modulus → Operation → Bool) :
    List (ZMod modulus) → Assigneds modulus → Prop where
  | start : Run condition [] .none
  | step {cells after : List (ZMod modulus)} {state new : Assigneds modulus} {operation : Operation}
      (run : Run condition cells state) (meets : condition state operation = true)
      (allowed : (execute state operation cells).allows (new, after)) :
      Run condition after (state.append new)

theorem run_valid (run : Run fits cells state) : Valid cells state := by
  induction run with
  | start =>
    exact ⟨fun number mem => absurd mem not_mem_nil,
      fun bit mem => absurd mem not_mem_nil,
      fun byte mem => absurd mem not_mem_nil⟩
  | @step cells after state new operation _ meets allowed ih =>
    rcases (step_faithful ih operation meets).allowed (new, after) allowed with
      ⟨added, grown, valid, -⟩
    have reached : after = cells ++ added := grown
    rw [reached] at valid ⊢
    exact ih.append valid

/-- Steps are exact, a difference exists when it is not negative and a quotient when the divisor is
not zero. -/
structure ExactIntegers (cells : List (ZMod modulus)) (state : Assigneds modulus) : Prop where
  valid : Valid cells state
  steps : ∀ operation, fits state operation = true →
    Faithful (execute state operation) cells (specified state operation) (expected state operation)
  sub : ∀ x y first second, state.numbers[x]? = some first → state.numbers[y]? = some second →
    fits state (.sub x y) = true →
      ((¬∃ outcome, (execute state (.sub x y) cells).allows outcome) ↔ first.value < second.value)
  divRem : ∀ x y first second, state.numbers[x]? = some first → state.numbers[y]? = some second →
    fits state (.divRem x y) = true →
      ((¬∃ outcome, (execute state (.divRem x y) cells).allows outcome) ↔ second.value = 0)

omit [Fact modulus.Prime] in
theorem Faithful.satisfiable {result : Option Integers}
    (faithful : Faithful program cells (fun found => result = some found) result) :
    (∃ outcome, (program cells).allows outcome) ↔ result ≠ none := by
  constructor
  · rintro ⟨outcome, allowed⟩ none
    rcases faithful.allowed outcome allowed with ⟨-, -, -, same⟩
    rw [none] at same
    cases same
  · intro some
    rcases Option.ne_none_iff_exists'.mp some with ⟨found, same⟩
    rcases faithful.honest found same with ⟨new, added, satisfies, -⟩
    exact ⟨_, satisfies.allowed⟩

theorem fitting_run_exact {state : Assigneds modulus} (run : Run fits cells state) :
    ExactIntegers cells state := by
  have valid := run_valid run
  refine ⟨valid, fun operation => step_faithful valid operation, ?_, ?_⟩
  · intro x y first second isFirst isSecond fit
    have faithful := step_faithful valid (.sub x y) fit
    have result : expected state (.sub x y) =
        if second.value ≤ first.value then some (.ofNumbers [first.value - second.value]) else none := by
      rw [expected, isFirst, bind_some, isSecond, bind_some]
    rw [faithful.satisfiable, result, not_not]
    split_ifs with ordered
    · exact iff_of_false id (Nat.not_lt.mpr ordered)
    · exact iff_of_true rfl (Nat.not_le.mp ordered)
  · intro x y first second isFirst isSecond fit
    have faithful := step_faithful valid (.divRem x y) fit
    have result : expected state (.divRem x y) = if second.value ≠ 0 then
        some (.ofNumbers [first.value / second.value, first.value % second.value]) else none := by
      rw [expected, isFirst, bind_some, isSecond, bind_some]
    rw [faithful.satisfiable, result, not_not]
    split_ifs with divisor
    · exact iff_of_false id divisor
    · exact iff_of_true rfl (not_not.mp divisor)

/-- The prover can go on with every operation that fits and has a value. -/
theorem Run.extended {operation : Operation} {result : Integers} (run : Run fits cells state)
    (fit : fits state operation = true) (value : expected state operation = some result) :
    ∃ new after, Run fits after (state.append new) ∧ new.integers = result := by
  rcases (step_faithful (run_valid run) operation fit).honest result value with
    ⟨new, added, satisfies, same⟩
  exact ⟨new, _, run.step fit satisfies.allowed, same⟩

section Constants

open ScalarField

def five : AssignedBigUint scalarModulus where
  limbs := [{ cell := .fixed ((5 : Nat) : ZMod scalarModulus), value := ((5 : Nat) : ZMod scalarModulus) }]
  limbSizeBounds := [3]

def longer : AssignedBigUint scalarModulus where
  limbs := [{ cell := .fixed ((5 : Nat) : ZMod scalarModulus), value := ((5 : Nat) : ZMod scalarModulus) },
    { cell := .fixed ((7 : Nat) : ZMod scalarModulus), value := ((7 : Nat) : ZMod scalarModulus) }]
  limbSizeBounds := [96, 3]

def longerConstant : Nat := 5 + 7 * base

theorem assign_five : assignFixedBiguint 5 = (return five : Program scalarModulus _) := by
  have size : max (Nat.size 5) 1 = 3 := by
    rw [Nat.le_antisymm (Nat.size_le.mpr (by decide)) (Nat.lt_size.mpr (by decide) : 2 < Nat.size 5)]
    rfl
  have bounds : boundsOfBits 3 = [3] := rfl
  have limbs : bigToLimbs 1 5 = some [5] := by decide
  unfold assignFixedBiguint
  dsimp only
  rw [size, bounds, length_singleton, limbs, getD_some]
  simp only [mapM_cons, mapM_nil, constantCell, pure_bind]
  rfl

theorem assign_longer : assignFixedBiguint longerConstant = (return longer : Program scalarModulus _) := by
  have size : max (Nat.size longerConstant) 1 = 99 := by
    have upper : Nat.size longerConstant ≤ 99 := Nat.size_le.mpr (by decide)
    have lower : 98 < Nat.size longerConstant := Nat.lt_size.mpr (by decide)
    omega
  have bounds : boundsOfBits 99 = [96, 3] := rfl
  have limbs : bigToLimbs [96, 3].length longerConstant = some [5, 7] := by decide
  unfold assignFixedBiguint
  dsimp only
  rw [size, bounds, limbs, getD_some]
  simp only [mapM_cons, mapM_nil, constantCell, pure_bind]
  rfl

theorem constants_run {condition : Assigneds scalarModulus → Operation → Bool}
    (first : condition .none (.assignFixed 5) = true)
    (second : condition (.ofNumbers [five]) (.assignFixed longerConstant) = true) :
    Run condition [] (.ofNumbers [five, longer]) := by
  have five_allowed : (execute (.none : Assigneds scalarModulus) (.assignFixed 5) []).allows
      (.ofNumbers [five], []) := by
    rw [execute, assign_five, pure_bind]
    rfl
  have longer_allowed : (execute (.ofNumbers [five] : Assigneds scalarModulus)
      (.assignFixed longerConstant) []).allows (.ofNumbers [longer], []) := by
    rw [execute, assign_longer, pure_bind]
    rfl
  exact (Run.start.step first five_allowed).step second longer_allowed

/-- The constants share their lowest cell, so their product is the square of the shorter one. -/
theorem shared_constant_squared : Run (fun _ _ => true) [] (.ofNumbers [five, longer]) ∧
    five.value = 5 ∧ longer.value = 5 + 7 * 2 ^ 96 ∧
      ∃ z after, (execute (.ofNumbers [five, longer]) (.mul 0 1) []).allows (.ofNumbers [z], after) ∧
        z.value = 25 ∧ z.value ≠ five.value * longer.value := by
  have wide : log2Base < scalarModulus.size := by
    rw [scalar_modulus_size]
    decide
  have allowed : ((assignFixedBiguint 5 : Program scalarModulus _) []).allows (five, []) := by
    rw [assign_five]
    rfl
  have longAllowed : ((assignFixedBiguint longerConstant : Program scalarModulus _) []).allows
      (longer, []) := by
    rw [assign_longer]
    rfl
  rcases (exact_assign_fixed wide).allowed _ allowed with ⟨-, -, isFive⟩
  rcases (exact_assign_fixed wide).allowed _ longAllowed with ⟨-, -, isLonger⟩
  refine ⟨constants_run rfl rfl, isFive.value, isLonger.value, ?_⟩
  have fit : carriesFit scalarModulus.size 0 (squareBounds five.limbSizeBounds) = true := by
    rw [scalar_modulus_size]
    decide
  have same : five.eq longer = true := by
    simp [AssignedBigUint.eq, five, longer]
  have squared : Exact (mulBiguint five longer) [] fun z cells => Number cells z (5 * 5) := by
    unfold mulBiguint
    rw [if_pos same]
    exact exact_square isFive (cons_ne_nil _ _) wide fit
  have step : Honest (execute (.ofNumbers [five, longer]) (.mul 0 1)) [] fun new _ =>
      ∃ z : AssignedBigUint scalarModulus, new = .ofNumbers [z] ∧ z.value = 25 :=
    squared.honest.returning fun z _ isSquare => ⟨z, rfl, isSquare.value⟩
  rcases step with ⟨_, added, satisfies, z, rfl, value⟩
  refine ⟨z, _, satisfies.allowed, value, ?_⟩
  rw [value, isFive.value, isLonger.value]
  decide

/-- Both assignments and a square fit, and the integers are exact so far. -/
theorem constants_exact : ∃ square cells, square.integers = .ofNumbers [five.value * five.value] ∧
    ExactIntegers cells (Assets.append (.ofNumbers [five, longer]) square) := by
  have room : ∀ {state : Assigneds scalarModulus} {operation},
      operandsFit state operation = true → fits state operation = true := by
    intro state operation operands
    unfold fits
    rw [scalar_modulus_size, operands]
    rfl
  have squares : operandsFit (.ofNumbers [five, longer]) (.square 0) = true := by
    rw [operandsFit, scalar_modulus_size]
    rfl
  rcases (constants_run (room rfl) (room rfl)).extended (room squares) rfl with
    ⟨square, cells, run, value⟩
  exact ⟨square, cells, value, fitting_run_exact run⟩

end Constants

end Midfall.BigUint
