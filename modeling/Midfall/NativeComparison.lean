import Midfall.BigUintArithmetic
import Midfall.NativeRanges

/-!
# Comparisons with a cache of bounds

The native gadget remembers the least bound that it has asserted of a cell and
skips the checks that follow from it; equal cells share their bounds, and bits
and bytes record theirs when they are used as elements. A comparison of bounded
elements checks that one of two differences is small; the forms with a constant
compare with its successor, which wraps around at the largest element.
-/

namespace Midfall.NativeComparison

open CircuitPrograms NativeDecomposition CellPrograms NativeRanges List
open ScalarField
open NativeGadget (bit assignBit ensures_assign_bit computes_is_equal val_natCast_lt)
open BigUint (AssignedNative Program IsBit exact_or exact_not)

variable {modulus : Nat} [Fact modulus.Prime]

/-! ### Known bounds -/

/-- `constrained_cells`: strict upper bounds of cells. -/
abbrev Bounds (modulus : Nat) := List (Cell (ZMod modulus) × Nat)

section

variable (bounds : Bounds modulus) (x : AssignedNative modulus)

def currentBound : Option Nat :=
  bounds.lookup x.cell

def alreadyBelow (bound : Nat) : Bool :=
  (currentBound bounds x).any fun current => decide (current ≤ bound)

/-- The entry of a cell stands in front of its older ones. -/
def updateBound (bound : Nat) :
    Bounds modulus :=
  (x.cell, min ((currentBound bounds x).getD bound) bound) :: bounds

/-- Returns the bounds that are known after the call. -/
def assertLowerThanFixed (bound : Nat) :
    Program modulus (Bounds modulus) :=
  if alreadyBelow bounds x bound then return bounds
  else do
    emit (checkLowerThanFixed x.value bound)
    return updateBound bounds x bound

def assignLowerThanFixed (bounds : Bounds modulus) (hint : ZMod modulus) (bound : Nat) :
    Program modulus (AssignedNative modulus × Bounds modulus) :=
  if bound = 0 then do
    let x ← constantCell 0
    return (x, bounds)
  else if 2 ^ bound.log2 = bound then do
    let x ← fillCell (assignLessThanPow2 hint bound.log2)
    return (x, bounds)
  else do
    let x ← fillCell (assign hint)
    let bounds ← assertLowerThanFixed bounds x bound
    return (x, bounds)

/-! ### Equal cells, bits and bytes -/

/-- The bound of the first cell holds of the second one. -/
def shareBound (bounds : Bounds modulus) (x y : AssignedNative modulus) : Bounds modulus :=
  ((currentBound bounds x).map fun bound => updateBound bounds y bound).getD bounds

def assertEqual (bounds : Bounds modulus) (x y : AssignedNative modulus) :
    Program modulus (Bounds modulus) := do
  emit (NativeGadget.assertEqual x.value y.value)
  return shareBound (shareBound bounds x y) y x

/-- Any element but zero is the prover's one. -/
def bitOfNative :
    Program modulus (AssignedNative modulus × Bounds modulus) :=
  if alreadyBelow bounds x 2 then do
    proverChecks (decide (x.value = 0 ∨ x.value = 1))
    return (x, bounds)
  else do
    let b ← fillCell (assignBit (decide (x.value ≠ 0)))
    emit (NativeGadget.assertEqual x.value b.value)
    return (b, updateBound bounds x 2)

def nativeOfBit (bounds : Bounds modulus) (b : AssignedNative modulus) :
    AssignedNative modulus × Bounds modulus := (b, updateBound bounds b 2)

/-- The prover panics on larger elements before the circuit refuses them. -/
def byteOfNative :
    Program modulus (AssignedNative modulus × Bounds modulus) :=
  if alreadyBelow bounds x 256 then do
    proverChecks (decide (x.value.val ≤ 255))
    return (x, bounds)
  else do
    proverChecks (decide (x.value.val ≤ 255))
    let byte ← fillCell (assignLessThanPow2 x.value 8)
    let bounds ← assertEqual (updateBound bounds x 256) x byte
    return (byte, bounds)

def nativeOfByte (bounds : Bounds modulus) (byte : AssignedNative modulus) :
    AssignedNative modulus × Bounds modulus := (byte, updateBound bounds byte 256)

end

/-! ### Bounded elements -/

/-- An element below `2^bound`. -/
structure AssignedBounded (modulus : Nat) where
  value : AssignedNative modulus
  bound : Nat

def maxBoundInBits (modulus : Nat) : Nat := modulus.size - 2

/-- The prover's value is checked again when the bounded element is made. -/
def boundedOfElement (bounds : Bounds modulus) (n : Nat) (x : AssignedNative modulus) :
    Program modulus (AssignedBounded modulus × Bounds modulus) :=
  if maxBoundInBits modulus < n then stop
  else do
    let bounds ← assertLowerThanFixed bounds x (2 ^ n)
    proverChecks (decide (x.value.val < 2 ^ n))
    return ({ value := x, bound := n }, bounds)

/-! ### Comparisons -/

/-- Decomposition refuses as many bits as the modulus has. The bit becomes an element of the
difference, and its bound is recorded. -/
def fillCompared (bounds : Bounds modulus) (bound : Nat) (circuit : Circuit (ZMod modulus)) :
    Program modulus (AssignedNative modulus × Bounds modulus) :=
  if modulus.size ≤ bound then stop
  else do
    let result ← fillCell circuit
    return nativeOfBit bounds result

section

variable (bounds : Bounds modulus) (x : AssignedBounded modulus) (y : ZMod modulus)

def lowerThanFixed :
    Program modulus (AssignedNative modulus × Bounds modulus) :=
  if alreadyBelow bounds x.value y.val then do
    let result ← constantCell 1
    return (result, bounds)
  else if 2 ^ maxBoundInBits modulus ≤ y.val then stop
  else if 2 ^ x.bound ≤ y.val then do
    let result ← constantCell 1
    return (result, bounds)
  else fillCompared bounds x.bound (compareFixed x.value.value x.bound y)

def leqFixed :
    Program modulus (AssignedNative modulus × Bounds modulus) := lowerThanFixed bounds x (y + 1)

def greaterThanFixed :
    Program modulus (AssignedNative modulus × Bounds modulus) := do
  let b ← leqFixed bounds x y
  let result ← BigUint.not b.1
  return (result, b.2)

def geqFixed :
    Program modulus (AssignedNative modulus × Bounds modulus) := do
  let b ← lowerThanFixed bounds x y
  let result ← BigUint.not b.1
  return (result, b.2)

end

section

variable (bounds : Bounds modulus) (x y : AssignedBounded modulus)

def lowerThan :
    Program modulus (AssignedNative modulus × Bounds modulus) :=
  let bound := max x.bound y.bound
  fillCompared bounds bound (NativeDecomposition.lowerThan x.value.value y.value.value bound)

def leq :
    Program modulus (AssignedNative modulus × Bounds modulus) := do
  let b1 ← lowerThan bounds x y
  let b2 ← fillCell (NativeGadget.isEqual x.value.value y.value.value)
  let result ← BigUint.or [b1.1, b2]
  return (result, b1.2)

def geq :
    Program modulus (AssignedNative modulus × Bounds modulus) := do
  let b ← lowerThan bounds x y
  let result ← BigUint.not b.1
  return (result, b.2)

def greaterThan :
    Program modulus (AssignedNative modulus × Bounds modulus) := do
  let b ← leq bounds x y
  let result ← BigUint.not b.1
  return (result, b.2)

end

/-! ### What is known of a cell -/

def Known (cells : List (ZMod modulus)) (bounds : Bounds modulus) : Prop :=
  ∀ entry ∈ bounds, ∃ value : ZMod modulus,
    Holds cells { cell := entry.1, value := value } ∧ value.val < entry.2

omit [Fact modulus.Prime] in
theorem Known.append {cells : List (ZMod modulus)} {bounds : Bounds modulus}
    (known : Known cells bounds) (added : List (ZMod modulus)) : Known (cells ++ added) bounds := by
  intro entry mem
  rcases known entry mem with ⟨value, holds, below⟩
  exact ⟨value, holds.append added, below⟩

omit [Fact modulus.Prime] in
theorem holds_unique {cells : List (ZMod modulus)} {x y : AssignedNative modulus}
    (first : Holds cells x) (second : Holds cells y) (same : x.cell = y.cell) :
    x.value = y.value := by
  unfold Holds at first second
  rw [same] at first
  cases place : y.cell with
  | fixed constant =>
    rw [place] at first second
    exact first.trans second.symm
  | advice position =>
    rw [place] at first second
    exact Option.some.inj (first.symm.trans second)

section Cache

variable {cells : List (ZMod modulus)} {bounds : Bounds modulus} {x : AssignedNative modulus}

omit [Fact modulus.Prime]

theorem lookup_mem {bound : Nat} (found : currentBound bounds x = some bound) :
    (x.cell, bound) ∈ bounds := by
  unfold currentBound at found
  induction bounds with
  | nil => cases found
  | cons entry bounds ih =>
    rw [lookup_cons] at found
    cases here : x.cell == entry.1 with
    | true =>
      rw [here] at found
      have same : x.cell = entry.1 := beq_iff_eq.mp here
      have value : entry.2 = bound := Option.some.inj found
      rw [same, ← value]
      exact mem_cons_self
    | false =>
      rw [here] at found
      exact mem_cons_of_mem _ (ih found)

section

variable (known : Known cells bounds) (holds : Holds cells x) {bound : Nat}

include known holds

theorem current_bound_lt (found : currentBound bounds x = some bound) : x.value.val < bound := by
  rcases known _ (lookup_mem found) with ⟨value, there, below⟩
  rw [holds_unique holds there rfl]
  exact below

theorem already_below (skipped : alreadyBelow bounds x bound = true) : x.value.val < bound := by
  unfold alreadyBelow at skipped
  rw [Option.any_eq_true] at skipped
  rcases skipped with ⟨current, found, le⟩
  exact lt_of_lt_of_le (current_bound_lt known holds found) (of_decide_eq_true le)

theorem Known.update (below : x.value.val < bound) : Known cells (updateBound bounds x bound) := by
  intro entry mem
  rcases mem_cons.mp mem with rfl | older
  · refine ⟨x.value, holds, lt_min ?_ below⟩
    cases found : currentBound bounds x with
    | none => exact below
    | some current => exact current_bound_lt known holds found
  · exact known entry older

end

theorem Known.share {y : AssignedNative modulus} (known : Known cells bounds)
    (first : Holds cells x) (second : Holds cells y) (same : x.value = y.value) : Known cells (shareBound bounds x y) := by
  unfold shareBound
  cases found : currentBound bounds x with
  | none => exact known
  | some bound =>
    refine known.update second ?_
    rw [← same]
    exact current_bound_lt known first found

end Cache

/-! ### Bounds that calls record -/

section Recorded

variable {cells : List (ZMod modulus)} {bounds : Bounds modulus} {x y : AssignedNative modulus}

theorem bit_val_lt (value : Bool) : (bit value : ZMod modulus).val < 2 := by
  have two : 2 ≤ modulus := (Fact.out : modulus.Prime).two_le
  have inhabited : Fact (1 < modulus) := ⟨by omega⟩
  cases value with
  | false => exact lt_of_eq_of_lt ZMod.val_zero Nat.two_pos
  | true => exact lt_of_eq_of_lt (ZMod.val_one modulus) Nat.one_lt_two

theorem Known.record_bit (known : Known cells bounds) {value : Bool} (isBit : IsBit cells x value) :
    Known cells (nativeOfBit bounds x).2 :=
  known.update isBit.2 (by rw [isBit.1]; exact bit_val_lt value)

omit [Fact modulus.Prime] in
/-- The bounds need to hold of equal cells only: they are recorded before the check. -/
theorem allowed_assert_equal (known : x.value = y.value → Known cells bounds)
    (first : Holds cells x) (second : Holds cells y) :
    Allowed (assertEqual bounds x y) cells fun after cells => Known cells after := by
  have checked : Allowed (emit (NativeGadget.assertEqual x.value y.value)) cells
      fun _ _ => x.value = y.value := allowed_emit fun _ same => same
  exact checked.returning fun _ added same =>
    (((known same).append added).share (first.append added) (second.append added) same).share
      (second.append added) (first.append added) same.symm

theorem allowed_bit_of_native (known : Known cells bounds) (holds : Holds cells x) :
    Allowed (bitOfNative bounds x) cells fun outcome cells => Known cells outcome.2 := by
  unfold bitOfNative
  split_ifs
  · exact (allowed_prover_checks _).returning fun _ added _ => known.append added
  · refine (allowed_fill (ensures_assign_bit _)).bind fun b added filled => ?_
    rcases filled with ⟨⟨value, isBit⟩, -⟩
    have checked : Allowed (emit (NativeGadget.assertEqual x.value b.value)) (cells ++ added)
        fun _ _ => x.value = b.value := allowed_emit fun _ same => same
    refine checked.returning fun _ more same => ?_
    refine ((known.append added).append more).update ((holds.append added).append more) ?_
    rw [same, isBit]
    exact bit_val_lt value

omit [Fact modulus.Prime] in
theorem allowed_byte_of_native (known : Known cells bounds) (holds : Holds cells x) :
    Allowed (byteOfNative bounds x) cells fun outcome cells => Known cells outcome.2 := by
  unfold byteOfNative
  split_ifs
  · exact (allowed_prover_checks _).returning fun _ added _ => known.append added
  · refine (allowed_prover_checks _).bind fun _ one _ => ?_
    refine (@allowed_fill _ (cells ++ one) _ (fun byte => byte.val < 2 ^ 8)
      fun byte allowed => (assign_less_allows.mp allowed).2).bind fun byte two filled => ?_
    have current := (holds.append one).append two
    refine (allowed_assert_equal (fun same => ?_) current filled.2).returning
      fun after more known => known
    refine ((known.append one).append two).update current ?_
    rw [same]
    exact filled.1

end Recorded

/-! ### Exact comparisons -/

/-- An operand that is bounded, as the type promises. -/
structure AssignedBounded.Valid (cells : List (ZMod modulus)) (x : AssignedBounded modulus) :
    Prop where
  holds : Holds cells x.value
  below : x.value.value.val < 2 ^ x.bound
  narrow : x.bound ≤ maxBoundInBits modulus

theorem narrow_fewer {bound : Nat} (narrow : bound ≤ maxBoundInBits modulus) :
    bound + 1 < modulus.size := by
  have two : 2 ≤ modulus.size := Nat.lt_size.mpr (Fact.out : modulus.Prime).two_le
  unfold maxBoundInBits at narrow
  omega

/-- The bit of a comparison, with bounds that are still true. -/
def Compared (value : Bool) (outcome : AssignedNative modulus × Bounds modulus)
    (cells : List (ZMod modulus)) : Prop :=
  IsBit cells outcome.1 value ∧ Known cells outcome.2

/-- The assertion on the constant, which known bounds come before. -/
def Passes (bounds : Bounds modulus) (x : AssignedBounded modulus) (y : ZMod modulus) : Prop :=
  alreadyBelow bounds x.value y.val = true ∨ y.val < 2 ^ maxBoundInBits modulus

section Comparisons

variable {cells : List (ZMod modulus)} {bounds : Bounds modulus} {x y : AssignedBounded modulus}

theorem exact_negated {program : Program modulus (AssignedNative modulus × Bounds modulus)}
    {value : Bool} (compared : Exact program cells (Compared value)) :
    Exact (do
      let b ← program
      let result ← BigUint.not b.1
      return (result, b.2)) cells (Compared (! value)) := by
  refine compared.bind fun b added holds => ?_
  exact (exact_not holds.1).returning fun result more isBit => ⟨isBit, holds.2.append more⟩

variable (known : Known cells bounds)

include known

theorem exact_fill_compared {bound : Nat} (fewer : bound < modulus.size)
    {circuit : Circuit (ZMod modulus)} {value : Bool} (computes : Computes circuit (bit value)) :
    Exact (fillCompared bounds bound circuit) cells (Compared value) := by
  unfold fillCompared
  rw [if_neg (Nat.not_le.mpr fewer)]
  exact (exact_fill computes).returning fun result added filled =>
    ⟨filled, (known.append added).record_bit filled⟩

section

variable (first : x.Valid cells) (second : y.Valid cells)

include first second

theorem exact_lower_than :
    Exact (lowerThan bounds x y) cells
      (Compared (decide (x.value.value.val < y.value.value.val))) := by
  have fewer := narrow_fewer (max_le first.narrow second.narrow)
  have xSmall : x.value.value.val < 2 ^ max x.bound y.bound :=
    lt_of_lt_of_le first.below (Nat.pow_le_pow_right (by decide) (le_max_left _ _))
  have ySmall : y.value.value.val < 2 ^ max x.bound y.bound :=
    lt_of_lt_of_le second.below (Nat.pow_le_pow_right (by decide) (le_max_right _ _))
  exact exact_fill_compared known (by omega)
    (computes_lower_than (BigUint.pow_le_modulus fewer) xSmall ySmall)

theorem exact_leq :
    Exact (leq bounds x y) cells (Compared (decide (x.value.value.val ≤ y.value.value.val))) := by
  unfold leq
  refine (exact_lower_than known first second).bind fun b1 added isLower => ?_
  refine (exact_fill (computes_is_equal _ _)).bind fun b2 more isEqual => ?_
  have value : (decide (x.value.value.val < y.value.value.val) ||
      decide (x.value.value = y.value.value)) =
        decide (x.value.value.val ≤ y.value.value.val) := by
    rw [Bool.eq_iff_iff]
    simp only [Bool.or_eq_true, decide_eq_true_iff, ← (ZMod.val_injective modulus).eq_iff]
    omega
  refine (exact_or (IsBit.append isLower.1 more) isEqual).returning fun result last isBit => ?_
  rw [value] at isBit
  exact ⟨isBit, (isLower.2.append more).append last⟩

theorem exact_geq :
    Exact (geq bounds x y) cells (Compared (decide (y.value.value.val ≤ x.value.value.val))) := by
  have negated := exact_negated (exact_lower_than known first second)
  rwa [← decide_not, decide_eq_decide.mpr Nat.not_lt] at negated

theorem exact_greater_than :
    Exact (greaterThan bounds x y) cells
      (Compared (decide (y.value.value.val < x.value.value.val))) := by
  have negated := exact_negated (exact_leq known first second)
  rwa [← decide_not, decide_eq_decide.mpr Nat.not_le] at negated

end

section

variable (valid : x.Valid cells) {y : ZMod modulus}

include valid

theorem exact_lower_than_fixed (passes : Passes bounds x y) :
    Exact (lowerThanFixed bounds x y) cells (Compared (decide (x.value.value.val < y.val))) := by
  have always : x.value.value.val < y.val → Exact (do
      let result ← constantCell 1
      return (result, bounds)) cells (Compared (decide (x.value.value.val < y.val))) := by
    intro below
    rw [decide_eq_true below]
    exact (exact_constant 1).returning fun result added isOne => ⟨isOne, known.append added⟩
  have fewer := narrow_fewer valid.narrow
  unfold lowerThanFixed
  split_ifs with skipped wide above
  · exact always (already_below known valid.holds skipped)
  · have fits := passes.resolve_left skipped
    omega
  · exact always (lt_of_lt_of_le valid.below above)
  · exact exact_fill_compared known (by omega)
      (computes_compare_fixed (BigUint.pow_le_modulus fewer) valid.below (Nat.lt_of_not_le above))

theorem exact_leq_fixed (passes : Passes bounds x (y + 1)) :
    Exact (leqFixed bounds x y) cells (Compared (decide (x.value.value.val < (y + 1).val))) :=
  exact_lower_than_fixed known valid passes

theorem exact_greater_than_fixed (passes : Passes bounds x (y + 1)) :
    Exact (greaterThanFixed bounds x y) cells
      (Compared (decide ((y + 1).val ≤ x.value.value.val))) := by
  have negated := exact_negated (exact_leq_fixed known valid passes)
  rwa [← decide_not, decide_eq_decide.mpr Nat.not_lt] at negated

theorem exact_geq_fixed (passes : Passes bounds x y) :
    Exact (geqFixed bounds x y) cells (Compared (decide (y.val ≤ x.value.value.val))) := by
  have negated := exact_negated (exact_lower_than_fixed known valid passes)
  rwa [← decide_not, decide_eq_decide.mpr Nat.not_lt] at negated

end

end Comparisons

theorem successor_val {y : ZMod modulus} (wraps : y ≠ -1) : (y + 1).val = y.val + 1 := by
  have two : 2 ≤ modulus := (Fact.out : modulus.Prime).two_le
  have below := ZMod.val_lt y
  have largest := @largest_val modulus _
  have notLargest : y.val ≠ modulus - 1 := by
    rw [← largest]
    exact fun same => wraps (ZMod.val_injective modulus same)
  have one : (1 : ZMod modulus).val = 1 := by
    have inhabited : Fact (1 < modulus) := ⟨by omega⟩
    exact ZMod.val_one modulus
  rw [NativeGadget.val_add_lt (by omega), one]

/-! ### Calls on one gadget -/

inductive Comparison (modulus : Nat) where
  | lowerThanFixed (x : AssignedBounded modulus) (y : ZMod modulus)
  | leqFixed (x : AssignedBounded modulus) (y : ZMod modulus)
  | geqFixed (x : AssignedBounded modulus) (y : ZMod modulus)
  | greaterThanFixed (x : AssignedBounded modulus) (y : ZMod modulus)
  | lowerThan (x y : AssignedBounded modulus)
  | leq (x y : AssignedBounded modulus)
  | geq (x y : AssignedBounded modulus)
  | greaterThan (x y : AssignedBounded modulus)

namespace Comparison

def program (bounds : Bounds modulus) :
    Comparison modulus → Program modulus (AssignedNative modulus × Bounds modulus)
  | lowerThanFixed x y => NativeComparison.lowerThanFixed bounds x y
  | leqFixed x y => NativeComparison.leqFixed bounds x y
  | geqFixed x y => NativeComparison.geqFixed bounds x y
  | greaterThanFixed x y => NativeComparison.greaterThanFixed bounds x y
  | lowerThan x y => NativeComparison.lowerThan bounds x y
  | leq x y => NativeComparison.leq bounds x y
  | geq x y => NativeComparison.geq bounds x y
  | greaterThan x y => NativeComparison.greaterThan bounds x y

/-- The operands are bounded cells of the circuit. -/
def Valid (cells : List (ZMod modulus)) : Comparison modulus → Prop
  | lowerThanFixed x _ => x.Valid cells
  | leqFixed x _ => x.Valid cells
  | geqFixed x _ => x.Valid cells
  | greaterThanFixed x _ => x.Valid cells
  | lowerThan x y => x.Valid cells ∧ y.Valid cells
  | leq x y => x.Valid cells ∧ y.Valid cells
  | geq x y => x.Valid cells ∧ y.Valid cells
  | greaterThan x y => x.Valid cells ∧ y.Valid cells

def Passes (bounds : Bounds modulus) : Comparison modulus → Prop
  | lowerThanFixed x y => NativeComparison.Passes bounds x y
  | leqFixed x y => NativeComparison.Passes bounds x (y + 1)
  | geqFixed x y => NativeComparison.Passes bounds x y
  | greaterThanFixed x y => NativeComparison.Passes bounds x (y + 1)
  | _ => True

def truth : Comparison modulus → Bool
  | lowerThanFixed x y => decide (x.value.value.val < y.val)
  | leqFixed x y => decide (x.value.value.val ≤ y.val)
  | geqFixed x y => decide (y.val ≤ x.value.value.val)
  | greaterThanFixed x y => decide (y.val < x.value.value.val)
  | lowerThan x y => decide (x.value.value.val < y.value.value.val)
  | leq x y => decide (x.value.value.val ≤ y.value.value.val)
  | geq x y => decide (y.value.value.val ≤ x.value.value.val)
  | greaterThan x y => decide (y.value.value.val < x.value.value.val)

def computed : Comparison modulus → Bool
  | leqFixed x y => decide (x.value.value.val < (y + 1).val)
  | greaterThanFixed x y => decide ((y + 1).val ≤ x.value.value.val)
  | comparison => comparison.truth

/-- The successor of the constant does not wrap around. -/
def Fits : Comparison modulus → Prop
  | leqFixed _ y => y ≠ -1
  | greaterThanFixed _ y => y ≠ -1
  | _ => True

end Comparison

inductive Operation (modulus : Nat) where
  | assertLowerThanFixed (x : AssignedNative modulus) (bound : Nat)
  | boundedOfElement (n : Nat) (x : AssignedNative modulus)
  | compare (comparison : Comparison modulus)

inductive Answer (modulus : Nat) where
  | checked
  | bounded (x : AssignedBounded modulus)
  | truth (b : AssignedNative modulus)

def perform (bounds : Bounds modulus) :
    Operation modulus → Program modulus (Answer modulus × Bounds modulus)
  | .assertLowerThanFixed x bound => do
    let bounds ← assertLowerThanFixed bounds x bound
    return (.checked, bounds)
  | .boundedOfElement n x => do
    let outcome ← boundedOfElement bounds n x
    return (.bounded outcome.1, outcome.2)
  | .compare comparison => do
    let b ← comparison.program bounds
    return (.truth b.1, b.2)

namespace Operation

def Valid (cells : List (ZMod modulus)) : Operation modulus → Prop
  | assertLowerThanFixed x _ => Holds cells x
  | boundedOfElement _ x => Holds cells x
  | compare comparison => comparison.Valid cells

/-- The assertions on the bits of a bounded element and on a constant. -/
def Passes (bounds : Bounds modulus) : Operation modulus → Prop
  | assertLowerThanFixed _ _ => True
  | boundedOfElement n _ => n ≤ maxBoundInBits modulus
  | compare comparison => comparison.Passes bounds

def Demands : Operation modulus → Prop
  | assertLowerThanFixed x bound => x.value.val < bound
  | boundedOfElement n x => x.value.val < 2 ^ n
  | compare _ => True

def Answers (cells : List (ZMod modulus)) : Operation modulus → Answer modulus → Prop
  | assertLowerThanFixed _ _, answer => answer = .checked
  | boundedOfElement n x, answer => answer = .bounded { value := x, bound := n }
  | compare comparison, answer => ∃ b, answer = .truth b ∧ IsBit cells b comparison.truth

/-- The call is satisfiable exactly when it is to be, and then has one answer. -/
structure Correct (cells : List (ZMod modulus)) (bounds : Bounds modulus)
    (operation : Operation modulus) : Prop where
  exact_ : operation.Demands → Exact (perform bounds operation) cells fun outcome cells =>
    operation.Answers cells outcome.1
  refuses : ¬operation.Demands → ∀ outcome, ¬(perform bounds operation cells).allows outcome

/-- A bound of `2^NUM_BITS` and more must be known already. -/
def Fits (bounds : Bounds modulus) : Operation modulus → Prop
  | assertLowerThanFixed x bound => alreadyBelow bounds x bound = true ∨ bound < 2 ^ modulus.size
  | boundedOfElement _ _ => True
  | compare comparison => comparison.Fits

end Operation

/-- The other calls that write the cache. -/
inductive CacheCall (modulus : Nat) where
  | assertEqual (x y : AssignedNative modulus)
  | bitOfNative (x : AssignedNative modulus)
  | nativeOfBit (b : AssignedNative modulus)
  | byteOfNative (x : AssignedNative modulus)
  | nativeOfByte (byte : AssignedNative modulus)

namespace CacheCall

def record (bounds : Bounds modulus) : CacheCall modulus → Program modulus (Bounds modulus)
  | assertEqual x y => NativeComparison.assertEqual bounds x y
  | bitOfNative x => Prod.snd <$> NativeComparison.bitOfNative bounds x
  | nativeOfBit b => return (NativeComparison.nativeOfBit bounds b).2
  | byteOfNative x => Prod.snd <$> NativeComparison.byteOfNative bounds x
  | nativeOfByte byte => return (NativeComparison.nativeOfByte bounds byte).2

/-- The operands are cells of the circuit, and bits and bytes as their types promise. -/
def Valid (cells : List (ZMod modulus)) : CacheCall modulus → Prop
  | assertEqual x y => Holds cells x ∧ Holds cells y
  | bitOfNative x => Holds cells x
  | nativeOfBit b => ∃ value, IsBit cells b value
  | byteOfNative x => Holds cells x
  | nativeOfByte byte => Holds cells byte ∧ byte.value.val < 256

end CacheCall

/-- Every history of calls, between which other cells are filled. -/
inductive Reachable : List (ZMod modulus) → Bounds modulus → Prop where
  | start : Reachable [] []
  | filled {cells : List (ZMod modulus)} {bounds : Bounds modulus} (added : List (ZMod modulus))
      (earlier : Reachable cells bounds) : Reachable (cells ++ added) bounds
  | assigned {cells : List (ZMod modulus)} {bounds : Bounds modulus} (hint : ZMod modulus)
      (bound : Nat) {outcome : (AssignedNative modulus × Bounds modulus) × List (ZMod modulus)}
      (earlier : Reachable cells bounds)
      (allowed : (assignLowerThanFixed bounds hint bound cells).allows outcome) :
      Reachable outcome.2 outcome.1.2
  | recorded {cells : List (ZMod modulus)} {bounds : Bounds modulus} (call : CacheCall modulus)
      {outcome : Bounds modulus × List (ZMod modulus)} (earlier : Reachable cells bounds)
      (valid : call.Valid cells) (allowed : (call.record bounds cells).allows outcome) :
      Reachable outcome.2 outcome.1
  | called {cells : List (ZMod modulus)} {bounds : Bounds modulus} (operation : Operation modulus)
      {outcome : (Answer modulus × Bounds modulus) × List (ZMod modulus)}
      (earlier : Reachable cells bounds) (valid : operation.Valid cells)
      (allowed : (perform bounds operation cells).allows outcome) :
      Reachable outcome.2 outcome.1.2

section Runs

variable {cells : List (ZMod modulus)} {bounds : Bounds modulus}

theorem exact_comparison (known : Known cells bounds) (comparison : Comparison modulus)
    (valid : comparison.Valid cells) (passes : comparison.Passes bounds) :
    Exact (comparison.program bounds) cells (Compared comparison.computed) := by
  cases comparison with
  | lowerThanFixed x y => exact exact_lower_than_fixed known valid passes
  | leqFixed x y => exact exact_leq_fixed known valid passes
  | geqFixed x y => exact exact_geq_fixed known valid passes
  | greaterThanFixed x y => exact exact_greater_than_fixed known valid passes
  | lowerThan x y => exact exact_lower_than known valid.1 valid.2
  | leq x y => exact exact_leq known valid.1 valid.2
  | geq x y => exact exact_geq known valid.1 valid.2
  | greaterThan x y => exact exact_greater_than known valid.1 valid.2

theorem lower_than_fixed_refused {x : AssignedBounded modulus} {y : ZMod modulus}
    (fails : ¬Passes bounds x y) : lowerThanFixed bounds x y = stop := by
  have neither := not_or.mp fails
  unfold lowerThanFixed
  rw [if_neg neither.1, if_pos (Nat.le_of_not_lt neither.2)]

omit [Fact modulus.Prime] in
theorem stop_refuses {Result Next : Type} (next : Result → Program modulus Next)
    (outcome : Next × List (ZMod modulus)) :
    ¬((stop >>= next : Program modulus Next) cells).allows outcome := by
  rintro ⟨found, allowed, -⟩
  exact allowed

theorem comparison_refused (comparison : Comparison modulus) (fails : ¬comparison.Passes bounds)
    (outcome : (AssignedNative modulus × Bounds modulus) × List (ZMod modulus)) :
    ¬(comparison.program bounds cells).allows outcome := by
  cases comparison with
  | lowerThanFixed x y =>
    rw [Comparison.program, lower_than_fixed_refused fails]
    exact id
  | leqFixed x y =>
    rw [Comparison.program, leqFixed, lower_than_fixed_refused fails]
    exact id
  | geqFixed x y =>
    rw [Comparison.program, geqFixed, lower_than_fixed_refused fails]
    exact stop_refuses _ outcome
  | greaterThanFixed x y =>
    rw [Comparison.program, greaterThanFixed, leqFixed, lower_than_fixed_refused fails]
    exact stop_refuses _ outcome
  | _ => exact absurd trivial fails

theorem computed_truth_iff (comparison : Comparison modulus) :
    comparison.computed = comparison.truth ↔ comparison.Fits := by
  have wrapped : ((-1 : ZMod modulus) + 1).val = 0 := by
    rw [neg_add_cancel, ZMod.val_zero]
  have within : ∀ x : ZMod modulus, x.val ≤ (-1 : ZMod modulus).val := by
    intro x
    have below := ZMod.val_lt x
    rw [largest_val]
    omega
  cases comparison with
  | leqFixed x y =>
    rw [Comparison.computed, Comparison.truth, Comparison.Fits, decide_eq_decide]
    constructor
    · rintro same rfl
      rw [wrapped] at same
      exact absurd (same.mpr (within _)) (Nat.not_lt_zero _)
    · intro fits
      rw [successor_val fits, Nat.lt_succ_iff]
  | greaterThanFixed x y =>
    rw [Comparison.computed, Comparison.truth, Comparison.Fits, decide_eq_decide]
    constructor
    · rintro same rfl
      rw [wrapped] at same
      exact absurd (same.mp (Nat.zero_le _)) (Nat.not_lt.mpr (within _))
    · intro fits
      rw [successor_val fits, Nat.succ_le_iff]
  | _ => exact iff_of_true rfl trivial

variable {x : AssignedNative modulus}

theorem allowed_assert_lower (known : Known cells bounds) (holds : Holds cells x) (bound : Nat) :
    Allowed (assertLowerThanFixed bounds x bound) cells fun after cells =>
      x.value.val < bound ∧ Known cells after := by
  unfold assertLowerThanFixed
  split_ifs with skipped
  · exact (exact_pure ⟨already_below known holds skipped, known⟩).allowed
  · have checked : Allowed (emit (checkLowerThanFixed x.value bound)) cells
        fun _ _ => x.value.val < bound :=
      allowed_emit fun _ allowed => (check_lower_allows.mp allowed).1
    exact checked.returning fun _ added below =>
      ⟨below, (known.append added).update (holds.append added) below⟩

theorem honest_assert_lower {bound : Nat} (below : x.value.val < bound)
    (fits : alreadyBelow bounds x bound = true ∨ bound < 2 ^ modulus.size) :
    Honest (assertLowerThanFixed bounds x bound) cells fun _ _ => True := by
  unfold assertLowerThanFixed
  split_ifs with skipped
  · have kept : Exact (pure bounds) cells fun (_ : Bounds modulus) (_ : List (ZMod modulus)) => True :=
      exact_pure trivial
    exact kept.honest
  · have inRange := fits.resolve_left skipped
    have computes : Computes (checkLowerThanFixed x.value bound) () := {
      honest := check_lower_honest below inRange
      allows := fun _ => iff_of_true (check_lower_allows.mpr ⟨below, inRange⟩) rfl }
    exact (exact_emit computes).honest.returning fun _ _ _ => trivial

theorem allowed_assign_lower (known : Known cells bounds) (hint : ZMod modulus) (bound : Nat) :
    Allowed (assignLowerThanFixed bounds hint bound) cells fun outcome cells =>
      (bound ≠ 0 → outcome.1.value.val < bound) ∧ Holds cells outcome.1 ∧ Known cells outcome.2 := by
  unfold assignLowerThanFixed
  split_ifs with none power
  · exact (exact_constant 0).allowed.returning fun x added filled =>
      ⟨fun some => absurd none some, filled.2, known.append added⟩
  · refine Allowed.returning (@allowed_fill _ cells _ (fun x => x.val < 2 ^ bound.log2)
      fun x allowed => (assign_less_allows.mp allowed).2) fun x added filled => ?_
    rw [power] at filled
    exact ⟨fun _ => filled.1, filled.2, known.append added⟩
  · refine (@allowed_fill _ cells _ (fun _ => True) fun _ _ => trivial).bind fun x added filled => ?_
    exact (allowed_assert_lower (known.append added) filled.2 bound).returning
      fun after more holds => ⟨fun _ => holds.1, filled.2.append more, holds.2⟩

theorem honest_assign_lower {hint : ZMod modulus} {bound : Nat} (below : hint.val < bound)
    (inRange : bound < 2 ^ modulus.size) :
    Honest (assignLowerThanFixed bounds hint bound) cells fun outcome cells =>
      outcome.1.value = hint ∧ Holds cells outcome.1 := by
  have pos : bound ≠ 0 := by omega
  unfold assignLowerThanFixed
  rw [if_neg pos]
  split_ifs with power
  · have satisfies : Satisfies (assignLessThanPow2 hint bound.log2) hint := by
      have fewer := (log_lt_iff pos).mpr inRange
      rw [← power] at below
      exact ⟨assign_less_honest fewer below, assign_less_allows.mpr ⟨fewer, below⟩⟩
    exact (honest_fill satisfies).returning fun x added filled => filled
  · refine (honest_fill (satisfies_assign hint)).bind fun x added filled => ?_
    have small : x.value.val < bound := by rwa [filled.1]
    exact (honest_assert_lower small (Or.inr inRange)).returning
      fun after more _ => ⟨filled.1, filled.2.append more⟩

theorem allowed_bounded (known : Known cells bounds) (holds : Holds cells x) (n : Nat) :
    Allowed (boundedOfElement bounds n x) cells fun outcome cells =>
      outcome.1 = { value := x, bound := n } ∧ x.value.val < 2 ^ n ∧ Known cells outcome.2 := by
  unfold boundedOfElement
  split_ifs
  · exact fun outcome stopped => absurd stopped (panic_allows outcome)
  · refine (allowed_assert_lower known holds (2 ^ n)).bind fun after added checked => ?_
    exact (allowed_prover_checks _).returning fun _ more _ =>
      ⟨rfl, checked.1, checked.2.append more⟩

theorem allowed_perform (known : Known cells bounds) (operation : Operation modulus)
    (valid : operation.Valid cells) :
    Allowed (perform bounds operation) cells fun outcome cells => Known cells outcome.2 := by
  cases operation with
  | assertLowerThanFixed x bound =>
    exact (allowed_assert_lower known valid bound).returning fun after added holds => holds.2
  | boundedOfElement n x =>
    exact (allowed_bounded known valid n).returning fun outcome added holds => holds.2.2
  | compare comparison =>
    by_cases passes : comparison.Passes bounds
    · exact (exact_comparison known comparison valid passes).allowed.returning
        fun b added compared => compared.2
    · rintro outcome ⟨found, allowed, -⟩
      exact absurd allowed (comparison_refused comparison passes found)

theorem allowed_record (known : Known cells bounds) (call : CacheCall modulus)
    (valid : call.Valid cells) :
    Allowed (call.record bounds) cells fun after cells => Known cells after := by
  cases call with
  | assertEqual x y => exact allowed_assert_equal (fun _ => known) valid.1 valid.2
  | bitOfNative x => exact (allowed_bit_of_native known valid).returning fun _ _ after => after
  | nativeOfBit b =>
    rcases valid with ⟨value, isBit⟩
    have kept : Exact (return (nativeOfBit bounds b).2) cells fun after cells =>
        Known cells after := exact_pure (known.record_bit isBit)
    exact kept.allowed
  | byteOfNative x => exact (allowed_byte_of_native known valid).returning fun _ _ after => after
  | nativeOfByte byte =>
    have kept : Exact (return (nativeOfByte bounds byte).2) cells fun after cells =>
        Known cells after := exact_pure (known.update valid.1 valid.2)
    exact kept.allowed

theorem Reachable.known (reachable : Reachable cells bounds) : Known cells bounds := by
  induction reachable with
  | start => exact fun entry mem => absurd mem not_mem_nil
  | filled added _ known => exact known.append added
  | assigned hint bound _ allowed known =>
    rcases allowed_assign_lower known hint bound _ allowed with ⟨added, -, after⟩
    exact after.2.2
  | recorded call _ valid allowed known =>
    rcases allowed_record known call valid _ allowed with ⟨added, -, after⟩
    exact after
  | called operation _ valid allowed known =>
    rcases allowed_perform known operation valid _ allowed with ⟨added, -, after⟩
    exact after

/-- A range check is correct where it does not refuse its bound. -/
theorem assert_correct_iff (known : Known cells bounds) (holds : Holds cells x) (bound : Nat) :
    (Operation.assertLowerThanFixed x bound).Correct cells bounds ↔
      alreadyBelow bounds x bound = true ∨ bound < 2 ^ modulus.size := by
  have allowed := allowed_assert_lower known holds bound
  constructor
  · intro correct
    by_contra refused
    have neither := not_or.mp refused
    have size : modulus < 2 ^ modulus.size := Nat.lt_size_self modulus
    have below : x.value.val < bound := by
      have inField := ZMod.val_lt x.value
      omega
    rcases (correct.exact_ below).honest with ⟨answer, added, satisfies, -⟩
    rcases satisfies.allowed with ⟨outcome, reached, -⟩
    unfold assertLowerThanFixed at reached
    rw [if_neg neither.1] at reached
    rcases reached with ⟨found, ⟨checkFound, checked, -⟩, -⟩
    exact neither.2 (check_lower_allows.mp checked).2
  · intro fits
    constructor
    · intro below
      constructor
      · exact (honest_assert_lower below fits).returning fun _ _ _ => rfl
      · exact allowed.returning fun _ _ _ => rfl
    · rintro above outcome ⟨found, reached, -⟩
      rcases allowed found reached with ⟨added, -, below, -⟩
      exact above below

theorem bounded_correct (known : Known cells bounds) (holds : Holds cells x) {n : Nat}
    (narrow : n ≤ maxBoundInBits modulus) :
    (Operation.boundedOfElement n x).Correct cells bounds := by
  have allowed := allowed_bounded known holds n
  constructor
  · intro demanded
    have below : x.value.val < 2 ^ n := demanded
    constructor
    · have inRange : 2 ^ n < 2 ^ modulus.size :=
        Nat.pow_lt_pow_right (by decide) (by have fewer := narrow_fewer narrow; omega)
      have program : boundedOfElement bounds n x = do
          let bounds ← assertLowerThanFixed bounds x (2 ^ n)
          proverChecks (decide (x.value.val < 2 ^ n))
          return (({ value := x, bound := n } : AssignedBounded modulus), bounds) := by
        unfold boundedOfElement
        rw [if_neg (Nat.not_lt.mpr narrow)]
      have honest : Honest (boundedOfElement bounds n x) cells fun outcome _ =>
          outcome.1 = { value := x, bound := n } := by
        rw [program]
        refine (honest_assert_lower below (Or.inr inRange)).bind fun after added _ => ?_
        exact (exact_prover_checks (decide_eq_true below)).honest.returning fun _ _ _ => rfl
      exact honest.returning fun outcome added same => congrArg Answer.bounded same
    · exact allowed.returning fun outcome added same => congrArg Answer.bounded same.1
  · rintro above outcome ⟨found, reached, -⟩
    rcases allowed found reached with ⟨added, -, -, below, -⟩
    exact above below

theorem compare_correct_iff (known : Known cells bounds) (comparison : Comparison modulus)
    (valid : comparison.Valid cells) (passes : comparison.Passes bounds) :
    (Operation.compare comparison).Correct cells bounds ↔ comparison.Fits := by
  have computed := exact_comparison known comparison valid passes
  rw [← computed_truth_iff]
  constructor
  · intro correct
    rcases computed.honest with ⟨b, added, satisfies, compared⟩
    have reached : (perform bounds (Operation.compare comparison) cells).allows
        ((Answer.truth b.1, b.2), cells ++ added) := ⟨(b, cells ++ added), satisfies.allowed, rfl⟩
    rcases (correct.exact_ trivial).allowed _ reached with ⟨more, -, answer, same, isTruth⟩
    have sameCell : b.1 = answer := Answer.truth.inj same
    rw [← sameCell] at isTruth
    exact NativeGadget.bit_injective (compared.1.1.symm.trans isTruth.1)
  · intro same
    rw [same] at computed
    constructor
    · exact fun _ => computed.returning fun b added compared => ⟨b.1, rfl, compared.1⟩
    · exact fun refused => absurd trivial refused

/-- After any history of calls, a call that passes its assertions is satisfiable exactly when it
is to be and gives the integer comparison, under its condition only. -/
theorem calls_correct_iff (reachable : Reachable cells bounds) (operation : Operation modulus)
    (valid : operation.Valid cells) (passes : operation.Passes bounds) :
    operation.Correct cells bounds ↔ operation.Fits bounds := by
  have known := reachable.known
  cases operation with
  | assertLowerThanFixed x bound => exact assert_correct_iff known valid bound
  | boundedOfElement n x => exact iff_of_true (bounded_correct known valid passes) trivial
  | compare comparison => exact compare_correct_iff known comparison valid passes

end Runs

/-! ### The largest element -/

/-- The first cell of a circuit, bounded by some bits. -/
def boundedFirst (value : ZMod modulus) (bound : Nat) : AssignedBounded modulus where
  value := { cell := .advice 0, value := value }
  bound := bound

section First

variable {value : ZMod modulus} {bound : Nat}

omit [Fact modulus.Prime] in
theorem first_valid (below : value.val < 2 ^ bound) (narrow : bound ≤ maxBoundInBits modulus) :
    (boundedFirst value bound).Valid [value] where
  holds := rfl
  below := below
  narrow := narrow

theorem first_reachable (below : value.val < 2 ^ bound) (narrow : bound ≤ maxBoundInBits modulus) :
    Reachable [value] (updateBound [] (boundedFirst value bound).value (2 ^ bound)) := by
  have started : Reachable [value] [] := Reachable.filled [value] Reachable.start
  have fewer := narrow_fewer narrow
  have checked : (checkLowerThanFixed value (2 ^ bound)).allows () :=
    check_lower_allows.mpr ⟨below, Nat.pow_lt_pow_right (by decide) (by omega)⟩
  have asserted : (assertLowerThanFixed [] (boundedFirst value bound).value (2 ^ bound)
      [value]).allows (updateBound [] (boundedFirst value bound).value (2 ^ bound), [value]) :=
    ⟨((), [value]), ⟨(), checked, rfl⟩, rfl⟩
  have allowed : (perform [] (.boundedOfElement bound (boundedFirst value bound).value)
      [value]).allows ((.bounded (boundedFirst value bound),
        updateBound [] (boundedFirst value bound).value (2 ^ bound)), [value]) := by
    simp only [perform, boundedOfElement, if_neg (Nat.not_lt.mpr narrow)]
    exact ⟨((boundedFirst value bound, _), [value]),
      ⟨_, asserted, ((), [value]), ⟨(), trivial, rfl⟩, rfl⟩, rfl⟩
  have holds : Holds [value] (boundedFirst value bound).value := rfl
  exact Reachable.called (.boundedOfElement bound (boundedFirst value bound).value) started holds
    allowed

end First

theorem five_below : ((5 : Nat) : ZMod scalarModulus).val < 2 ^ 3 := by
  rw [val_natCast_lt (by decide)]
  decide

theorem three_narrow : 3 ≤ maxBoundInBits scalarModulus := by
  unfold maxBoundInBits
  rw [scalar_modulus_size]
  decide

def fiveBounds : Bounds scalarModulus :=
  updateBound [] (boundedFirst ((5 : Nat) : ZMod scalarModulus) 3).value (2 ^ 3)

/-- Five is not found to be at most the largest element of the field. -/
theorem five_leq_largest : Reachable [((5 : Nat) : ZMod scalarModulus)] fiveBounds ∧
    ¬(Operation.compare (.leqFixed (boundedFirst ((5 : Nat) : ZMod scalarModulus) 3) (-1))).Correct
      [((5 : Nat) : ZMod scalarModulus)] fiveBounds := by
  have reachable := first_reachable five_below three_narrow
  have passes : Passes fiveBounds (boundedFirst ((5 : Nat) : ZMod scalarModulus) 3) (-1 + 1) := by
    right
    rw [neg_add_cancel, ZMod.val_zero]
    exact Nat.two_pow_pos _
  refine ⟨reachable, fun correct => ?_⟩
  exact (compare_correct_iff reachable.known (.leqFixed _ (-1))
    (first_valid five_below three_narrow) passes).mp correct rfl

theorem five_leq_seven :
    (Operation.compare (.leqFixed (boundedFirst ((5 : Nat) : ZMod scalarModulus) 3)
      ((7 : Nat) : ZMod scalarModulus))).Correct [((5 : Nat) : ZMod scalarModulus)] fiveBounds := by
  have seven : ((7 : Nat) : ZMod scalarModulus).val = 7 := val_natCast_lt (by decide)
  have other : ((7 : Nat) : ZMod scalarModulus) ≠ -1 := by
    intro same
    have values := congrArg ZMod.val same
    rw [seven, largest_val] at values
    exact absurd values (by decide)
  have passes : Passes fiveBounds (boundedFirst ((5 : Nat) : ZMod scalarModulus) 3)
      (((7 : Nat) : ZMod scalarModulus) + 1) := by
    right
    rw [successor_val other, seven]
    exact lt_of_lt_of_le (by decide : 7 + 1 < 2 ^ 4) (Nat.pow_le_pow_right (by decide) (by
      unfold maxBoundInBits
      rw [scalar_modulus_size]
      decide))
  exact (calls_correct_iff (first_reachable five_below three_narrow) (.compare (.leqFixed _ _))
    (first_valid five_below three_narrow) passes).mpr other

end Midfall.NativeComparison
