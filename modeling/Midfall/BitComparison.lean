import Midfall.BigUintArithmetic
import Midfall.VectorGadget

/-!
# Comparison of bits with a constant

The native chip compares a list of assigned bits, least significant first, with
a constant. It goes down from the most significant bit and stops when the
constant is zero or needs more bits than are left. The canonicity check
compares with the order of the field.
-/

namespace Midfall.BitComparison

open CircuitPrograms CellPrograms NativeGadget NativeDecomposition List
open BigUint (AssignedNative Program IsBit exact_and exact_or exact_not)

variable {modulus : Nat} [Fact modulus.Prime] {cells : List (ZMod modulus)}

/-- `set_bit(position, false)`. -/
def clearBit (bound position : Nat) : Nat :=
  if bound.testBit position then bound - 2 ^ position else bound

def leBitsGeqThan (bits : List (AssignedNative modulus)) (bound : Nat) :
    Program modulus (AssignedNative modulus) :=
  if bound = 0 then constantCell 1
  else if bits.length < bound.size then constantCell 0
  -- A bound other than zero has at least one bit, so there is a bit to index here.
  else if empty : bits = [] then stop
  else if bits.length = 1 then return bits.getLast empty
  else do
    let msbPos := bits.length - 1
    let restIsGeq ← leBitsGeqThan bits.dropLast (clearBit bound msbPos)
    if bound.testBit msbPos then BigUint.and [bits.getLast empty, restIsGeq]
    else BigUint.or [bits.getLast empty, restIsGeq]
termination_by bits.length
decreasing_by
  have positive := length_pos_iff.mpr empty
  rw [length_dropLast]
  omega

def leBitsLowerThan (bits : List (AssignedNative modulus)) (bound : Nat) :
    Program modulus (AssignedNative modulus) := do
  let geq ← leBitsGeqThan bits bound
  BigUint.not geq

/-- The default of `CanonicityInstructions`, at the native field. -/
def isCanonical (bits : List (AssignedNative modulus)) : Program modulus (AssignedNative modulus) :=
  if modulus.size < bits.length then constantCell 0 else leBitsLowerThan bits modulus

theorem from_le_bits_append (values : List Bool) (msb : Bool) :
    fromLeBits (values ++ [msb]) = fromLeBits values + 2 ^ values.length * msb.toNat := by
  induction values with
  | nil => simp [fromLeBits]
  | cons first values ih =>
    rw [cons_append, fromLeBits, fromLeBits, ih, length_cons, pow_succ]
    ring

theorem from_le_bits_injective {first second : List Bool} (length : first.length = second.length)
    (same : fromLeBits first = fromLeBits second) : first = second := by
  rw [← to_from_le_bits first, ← to_from_le_bits second, length, same]

theorem geq_step {bound position rest : Nat} (msb : Bool) (small : rest < 2 ^ position)
    (fits : bound < 2 ^ (position + 1)) :
    decide (bound ≤ rest + 2 ^ position * msb.toNat) =
      if bound.testBit position then msb && decide (clearBit bound position ≤ rest)
      else msb || decide (clearBit bound position ≤ rest) := by
  rw [pow_succ] at fits
  unfold clearBit
  cases high : bound.testBit position with
  | true =>
    have large := Nat.ge_two_pow_of_testBit high
    cases msb with
    | true =>
      simp only [if_true, Bool.true_and, Bool.toNat_true, Nat.mul_one, decide_eq_decide]
      omega
    | false =>
      simp only [if_true, Bool.false_and, Bool.toNat_false, Nat.mul_zero, Nat.add_zero,
        decide_eq_false_iff_not]
      omega
  | false =>
    have low : bound < 2 ^ position := by
      by_contra large
      have set := Nat.testBit_of_two_pow_le_and_two_pow_add_one_gt (Nat.le_of_not_lt large)
        (by rwa [pow_succ])
      rw [set] at high
      contradiction
    cases msb with
    | true =>
      simp only [Bool.true_or, Bool.toNat_true, Nat.mul_one, decide_eq_true_iff, Bool.false_eq_true,
        if_false]
      omega
    | false => simp

theorem exact_constant_bit (value : Bool) :
    Exact (constantCell (bit value)) cells fun result cells => IsBit cells result value :=
  exact_constant _

theorem exact_le_bits_geq_than (values : List Bool) :
    ∀ (bits : List (AssignedNative modulus)) (bound : Nat),
      Forall₂ (IsBit cells) bits values →
        Exact (leBitsGeqThan bits bound) cells fun result cells =>
          IsBit cells result (decide (bound ≤ fromLeBits values)) := by
  -- The induction takes the most significant bit off, as the recursion does.
  induction values using List.reverseRecOn with
  | nil =>
    intro bits bound hold
    have empty := forall₂_nil_right_iff.mp hold
    rw [leBitsGeqThan, empty]
    by_cases zero : bound = 0
    · rw [if_pos zero, zero, decide_eq_true (Nat.zero_le _)]
      exact exact_constant_bit true
    · have short : ([] : List (AssignedNative modulus)).length < bound.size :=
        Nat.size_pos.mpr (Nat.pos_of_ne_zero zero)
      have greater : ¬ bound ≤ fromLeBits [] := by simpa [fromLeBits] using zero
      rw [if_neg zero, if_pos short, decide_eq_false greater]
      exact exact_constant_bit false
  | append_singleton values msb ih =>
    intro bits bound hold
    have length := hold.length_eq
    rw [length_append, length_singleton] at length
    have present : bits ≠ [] := ne_nil_of_length_pos (by omega)
    have front := forall₂_take_append bits values [msb] hold
    have back := forall₂_drop_append bits values [msb] hold
    have position : values.length = bits.length - 1 := by omega
    rw [position, ← dropLast_eq_take] at front
    rw [position, drop_length_sub_one present] at back
    have top : IsBit cells (bits.getLast present) msb := (forall₂_cons.mp back).1
    rw [leBitsGeqThan]
    by_cases zero : bound = 0
    · rw [if_pos zero, zero, decide_eq_true (Nat.zero_le _)]
      exact exact_constant_bit true
    rw [if_neg zero]
    by_cases short : bits.length < bound.size
    · have greater : ¬ bound ≤ fromLeBits (values ++ [msb]) := by
        have small := from_le_bits_lt (values ++ [msb])
        rw [length_append, length_singleton, ← length] at small
        have large := Nat.lt_size.mp short
        omega
      rw [if_pos short, decide_eq_false greater]
      exact exact_constant_bit false
    rw [if_neg short, dif_neg present]
    have fits : bound < 2 ^ bits.length := Nat.size_le.mp (Nat.le_of_not_lt short)
    by_cases single : bits.length = 1
    · rw [if_pos single]
      rw [single] at fits
      have none : values = [] := eq_nil_of_length_eq_zero (by omega)
      have one : decide (bound ≤ fromLeBits (values ++ [msb])) = msb := by
        rw [none, show bound = 1 by omega]
        cases msb <;> rfl
      rw [one]
      exact exact_pure top
    rw [if_neg single, from_le_bits_append, geq_step msb (from_le_bits_lt values)
      (by rwa [← length])]
    dsimp only
    rw [← position]
    refine (ih bits.dropLast (clearBit bound values.length) front).bind fun rest added isRest => ?_
    by_cases high : bound.testBit values.length = true
    · rw [if_pos high, if_pos high]
      have both := exact_and (Forall₂.cons (top.append added)
        (Forall₂.cons isRest Forall₂.nil)) (cons_ne_nil _ _)
      rwa [all_cons, all_cons, all_nil, Bool.and_true] at both
    · rw [if_neg high, if_neg high]
      exact exact_or (top.append added) isRest

variable {bits : List (AssignedNative modulus)}

theorem exact_le_bits_lower_than {values : List Bool} (hold : Forall₂ (IsBit cells) bits values)
    (bound : Nat) :
    Exact (leBitsLowerThan bits bound) cells fun result cells =>
      IsBit cells result (decide (fromLeBits values < bound)) := by
  unfold leBitsLowerThan
  refine (exact_le_bits_geq_than values bits bound hold).bind fun geq added holds => ?_
  have negated : decide (fromLeBits values < bound) = ! decide (bound ≤ fromLeBits values) := by
    rw [← decide_not, decide_eq_decide, Nat.not_le]
  rw [negated]
  exact exact_not holds

theorem exact_is_canonical {values : List Bool} (hold : Forall₂ (IsBit cells) bits values) :
    Exact (isCanonical bits) cells fun result cells =>
      IsBit cells result (decide (values.length ≤ modulus.size ∧ fromLeBits values < modulus)) := by
  unfold isCanonical
  rw [hold.length_eq]
  by_cases long : modulus.size < values.length
  · rw [if_pos long, decide_eq_false (fun both => Nat.not_le.mpr long both.1)]
    exact exact_constant_bit false
  · rw [if_neg long]
    simp only [Nat.le_of_not_lt long, true_and]
    exact exact_le_bits_lower_than hold modulus

theorem canonical_decomposition (count : Nat) (x : ZMod modulus) (small : x.val < 2 ^ count) :
    ∃! values : List Bool, values.length = count ∧
      ((fromLeBits values : Nat) : ZMod modulus) = x ∧ fromLeBits values < modulus := by
  have value := from_to_le_bits small
  have length := to_le_bits_length count x.val
  refine ⟨toLeBits count x.val, ⟨length, ?_, ?_⟩, ?_⟩
  · rw [value, ZMod.natCast_zmod_val]
  · rw [value]
    exact ZMod.val_lt x
  · intro other decomposes
    have represented : fromLeBits other = x.val := by
      rw [← decomposes.2.1, ZMod.val_natCast_of_lt decomposes.2.2]
    exact from_le_bits_injective (decomposes.1.trans length.symm) (represented.trans value.symm)

/-- The two comparisons and the canonicity check return the expected bit, and the
check admits one decomposition of each element. -/
theorem le_bits_compared {values : List Bool} {bits : List (AssignedNative modulus)}
    (hold : Forall₂ (IsBit cells) bits values) (bound : Nat) :
    Exact (leBitsLowerThan bits bound) cells (fun result cells =>
        IsBit cells result (decide (fromLeBits values < bound))) ∧
      Exact (leBitsGeqThan bits bound) cells (fun result cells =>
        IsBit cells result (decide (bound ≤ fromLeBits values))) ∧
      Exact (isCanonical bits) cells (fun result cells =>
        IsBit cells result (decide (values.length ≤ modulus.size ∧ fromLeBits values < modulus))) ∧
      ∀ (count : Nat) (x : ZMod modulus), x.val < 2 ^ count →
        ∃! accepted : List Bool, accepted.length = count ∧
          ((fromLeBits accepted : Nat) : ZMod modulus) = x ∧ fromLeBits accepted < modulus :=
  ⟨exact_le_bits_lower_than hold bound, exact_le_bits_geq_than values bits bound hold,
    exact_is_canonical hold, canonical_decomposition⟩

theorem le_bits_compared_to_two :
    Exact (leBitsLowerThan [(⟨.fixed 1, 1⟩ : AssignedNative 97), ⟨.fixed 0, 0⟩] 2) []
        (fun result cells => IsBit cells result true) ∧
      ∃! accepted : List Bool, accepted.length = 7 ∧
        ((fromLeBits accepted : Nat) : ZMod 97) = 9 ∧ fromLeBits accepted < 97 := by
  have compared := le_bits_compared (Forall₂.cons 
    (⟨rfl, rfl⟩ : IsBit ([] : List (ZMod 97)) ⟨.fixed 1, 1⟩ true)
    (Forall₂.cons (⟨rfl, rfl⟩ : IsBit [] ⟨.fixed 0, 0⟩ false) Forall₂.nil)) 2
  exact ⟨compared.1, compared.2.2.2 7 9 (by decide)⟩

end Midfall.BitComparison
