import Midfall.KzgMultiPrepare
import Midfall.VerifierMsm

/-!
# Powers and truncation

Powers of a challenge and their lower halves, off circuit and in circuit. The
bits of a truncated element bound it.
-/

namespace Midfall.VerifierUtils

open CircuitPrograms NativeGadget NativeDecomposition List
open KzgMultiPrepare VerifierMsm

variable {modulus : Nat}

def numBytes (modulus : Nat) : Nat := (modulus.size + 7) / 8

def nbHalfBytes (modulus : Nat) : Nat := (numBytes modulus + 1) / 2

def toBytesLe (scalar : ZMod modulus) : List Nat :=
  (List.range (numBytes modulus)).map fun i => scalar.val / 256 ^ i % 256

def fromBytesLe (bytes : List Nat) : Option (ZMod modulus) :=
  if Nat.ofDigits 256 bytes < modulus then some (Nat.ofDigits 256 bytes : Nat) else none

/-- The result is unwrapped. -/
def truncateOffCircuit (scalar : ZMod modulus) : Option (ZMod modulus) :=
  fromBytesLe ((toBytesLe scalar).take (nbHalfBytes modulus) ++
    replicate (numBytes modulus - nbHalfBytes modulus) 0)

theorem of_digits_range (value count : Nat) :
    Nat.ofDigits 256 ((List.range count).map fun i => value / 256 ^ i % 256) =
      value % 256 ^ count := by
  induction count with
  | zero => simp [Nat.mod_one]
  | succ count ih =>
    rw [range_succ, map_append, Nat.ofDigits_append, ih, length_map,
      length_range, map_singleton, Nat.ofDigits_singleton, Nat.mod_pow_succ]

theorem of_digits_zeros (digits : List Nat) (count : Nat) :
    Nat.ofDigits 256 (digits ++ replicate count 0) = Nat.ofDigits 256 digits := by
  rw [Nat.ofDigits_append, Nat.ofDigits_replicate_zero, Nat.mul_zero, Nat.add_zero]

theorem truncate_off_circuit_eq [NeZero modulus] (scalar : ZMod modulus) :
    truncateOffCircuit scalar = some (truncate scalar) := by
  have half : nbHalfBytes modulus ≤ numBytes modulus := by
    unfold nbHalfBytes
    omega
  have prefixed : (toBytesLe scalar).take (nbHalfBytes modulus) =
      (List.range (nbHalfBytes modulus)).map fun i => scalar.val / 256 ^ i % 256 := by
    unfold toBytesLe
    rw [← map_take, take_range, Nat.min_eq_left half]
  have value : Nat.ofDigits 256 ((toBytesLe scalar).take (nbHalfBytes modulus) ++
      replicate (numBytes modulus - nbHalfBytes modulus) 0) =
        scalar.val % 2 ^ (8 * nbHalfBytes modulus) := by
    have base : 2 ^ 8 = 256 := by norm_num
    rw [of_digits_zeros, prefixed, of_digits_range, pow_mul, base]
  have below : scalar.val % 2 ^ (8 * nbHalfBytes modulus) < modulus :=
    lt_of_le_of_lt (Nat.mod_le _ _) (ZMod.val_lt scalar)
  unfold truncateOffCircuit fromBytesLe
  rw [value, if_pos below]
  rfl

section Circuits

variable [Fact modulus.Prime]

def assignedFromLeBits (bits : List (ZMod modulus)) : Circuit (ZMod modulus) :=
  linearCombination (((variableLimbsizeCoefficients 0 (replicate bits.length 1)).map
    fun weight : Nat => (weight : ZMod modulus)).zip bits) 0

/-- The slice of the bits panics on a field of less than a byte. -/
def truncateInCircuit (x : ZMod modulus) : Circuit (AssignedBoundedScalar modulus) := do
  let bits ← assignedToLeBits x none true
  let nbHalfBits := 8 * nbHalfBytes modulus
  if bits.length < nbHalfBits then panic
  else
    let scalar ← assignedFromLeBits (bits.take nbHalfBits)
    return AssignedBoundedScalar.new scalar (some (2 ^ nbHalfBits - 1))

/-- One more power; the last product is not needed. -/
def nextPower (x : ZMod modulus) (n : Nat) (state : List (ZMod modulus) × ZMod modulus) (i : Nat) :
    Circuit (List (ZMod modulus) × ZMod modulus) :=
  let powers := state.1 ++ [state.2]
  if i < n - 1 then do
    let acc ← mul state.2 x
    return (powers, acc)
  else return (powers, state.2)

def powers (x : ZMod modulus) (n : Nat) : Circuit (List (ZMod modulus)) := do
  let one ← assignFixed 1
  let state ← (range' 1 (n - 1)).foldlM (nextPower x n) ([one], x)
  return state.1

def truncatedPower (entry : ZMod modulus × Nat) : Circuit (AssignedBoundedScalar modulus) :=
  if entry.2 = 0 then do
    assertEqualToFixed entry.1 1
    return AssignedBoundedScalar.new entry.1 (some 1)
  else truncateInCircuit entry.1

def truncatedPowers (x : ZMod modulus) (n : Nat) :
    Circuit (List (AssignedBoundedScalar modulus)) := do
  let powers ← powers x n
  powers.zipIdx.mapM truncatedPower

theorem from_to_le_bits_mod (count value : Nat) :
    fromLeBits (toLeBits count value) = value % 2 ^ count := by
  induction count generalizing value with
  | zero => simp [toLeBits, fromLeBits, Nat.mod_one]
  | succ count ih =>
    rw [toLeBits, fromLeBits, ih, pow_succ', Nat.mod_mul]
    rcases Nat.mod_two_eq_zero_or_one value with even | odd
    · simp [even]
    · simp [odd]

theorem to_le_bits_take {count fewer : Nat} (le : fewer ≤ count) (value : Nat) :
    (toLeBits count value).take fewer = toLeBits fewer value := by
  induction fewer generalizing count value with
  | zero => rfl
  | succ fewer ih =>
    cases count with
    | zero => exact absurd le (by omega)
    | succ count =>
      rw [toLeBits, toLeBits, take_succ_cons, ih (by omega)]

omit [Fact modulus.Prime] in
theorem half_bits_le (size : 8 ≤ modulus.size) : 8 * nbHalfBytes modulus ≤ modulus.size := by
  unfold nbHalfBytes numBytes
  omega

/-- What `truncate` returns. -/
def truncatedScalar (x : ZMod modulus) : AssignedBoundedScalar modulus :=
  AssignedBoundedScalar.new (truncate x) (some (2 ^ (8 * nbHalfBytes modulus) - 1))

theorem computes_truncate (odd : modulus % 2 = 1) (size : 8 ≤ modulus.size) (x : ZMod modulus) :
    Computes (truncateInCircuit x) (truncatedScalar x) := by
  have fits := half_bits_le size
  unfold truncateInCircuit
  refine (computes_assigned_to_le_bits odd x).bind ?_
  dsimp only
  rw [length_map, to_le_bits_length, if_neg (Nat.not_lt.mpr fits), ← map_take, to_le_bits_take fits]
  have weighted := @weighted_bits modulus _ (toLeBits (8 * nbHalfBytes modulus) x.val) 0
  rw [pow_zero, Nat.one_mul, from_to_le_bits_mod] at weighted
  have combination := computes_linear_combination
    (((variableLimbsizeCoefficients 0 (replicate
      (toLeBits (8 * nbHalfBytes modulus) x.val).length 1)).map
        fun weight : Nat => (weight : ZMod modulus)).zip
          ((toLeBits (8 * nbHalfBytes modulus) x.val).map bit)) 0
  rw [weighted, zero_add] at combination
  unfold assignedFromLeBits
  rw [length_map]
  exact combination.returning fun scalar =>
    AssignedBoundedScalar.new scalar (some (2 ^ (8 * nbHalfBytes modulus) - 1))

theorem bounded_truncated (x : ZMod modulus) : (truncatedScalar x).Bounded := by
  have small : x.val % 2 ^ (8 * nbHalfBytes modulus) < 2 ^ (8 * nbHalfBytes modulus) :=
    Nat.mod_lt _ (Nat.two_pow_pos _)
  have below : x.val % 2 ^ (8 * nbHalfBytes modulus) < modulus :=
    lt_of_le_of_lt (Nat.mod_le _ _) (ZMod.val_lt x)
  show ((x.val % 2 ^ (8 * nbHalfBytes modulus) : Nat) : ZMod modulus).val ≤
    2 ^ (8 * nbHalfBytes modulus) - 1
  rw [val_natCast_lt below]
  omega

theorem computes_next_powers (x : ZMod modulus) {n : Nat} (count first : Nat)
    (within : first + count = n) (pos : 0 < first) :
    ∃ last, Computes ((range' first count).foldlM (nextPower x n)
      ((List.range first).map fun i => x ^ i, x ^ first))
        ((List.range n).map fun i => x ^ i, last) := by
  induction count generalizing first with
  | zero =>
    rw [← within]
    exact ⟨x ^ first, computes_pure _⟩
  | succ count ih =>
    rw [range'_succ, foldlM_cons]
    have appended : (List.range first).map (fun i => x ^ i) ++ [x ^ first] =
        (List.range (first + 1)).map fun i => x ^ i := by
      rw [range_succ, map_append, map_singleton]
    by_cases more : first < n - 1
    · rcases ih (first + 1) (by omega) (by omega) with ⟨last, rest⟩
      refine ⟨last, ?_⟩
      have product := (computes_mul (x ^ first) x).returning fun acc =>
        ((List.range first).map (fun i => x ^ i) ++ [x ^ first], acc)
      rw [appended, ← pow_succ] at product
      unfold nextPower at rest ⊢
      dsimp only
      rw [if_pos more, appended]
      exact product.bind rest
    · have ended : count = 0 := by omega
      subst ended
      refine ⟨x ^ first, ?_⟩
      unfold nextPower
      dsimp only
      rw [if_neg more, appended, within]
      exact (computes_pure _).bind (computes_pure _)

theorem computes_powers (x : ZMod modulus) {n : Nat} (pos : 0 < n) :
    Computes (powers x n) ((List.range n).map fun i => x ^ i) := by
  have within : 1 + (n - 1) = n := by omega
  rcases computes_next_powers x (n - 1) 1 within Nat.one_pos with ⟨last, rest⟩
  have start : (List.range 1).map (fun i => x ^ i) = [1] := by simp
  rw [pow_one, start] at rest
  refine (computes_assign_fixed 1).bind ?_
  exact rest.returning fun state => state.1

def truncatedPowerAt (x : ZMod modulus) (i : Nat) : AssignedBoundedScalar modulus :=
  if i = 0 then AssignedBoundedScalar.new 1 (some 1) else truncatedScalar (x ^ i)

theorem computes_truncated_powers (odd : modulus % 2 = 1) (size : 8 ≤ modulus.size)
    (x : ZMod modulus) {n : Nat} (pos : 0 < n) :
    Computes (truncatedPowers x n) ((List.range n).map (truncatedPowerAt x)) := by
  refine (computes_powers x pos).bind ?_
  have entries : ((List.range n).map fun i => x ^ i).zipIdx = (List.range n).map
      fun i => (x ^ i, i) := by
    apply ext_getElem
    · simp
    · intro i _ _
      simp
  rw [entries]
  have each := @computes_loop (AssignedBoundedScalar modulus) (ZMod modulus × Nat) truncatedPower
    (fun entry => if entry.2 = 0 then AssignedBoundedScalar.new entry.1 (some 1)
      else truncatedScalar entry.1) ((List.range n).map fun i => (x ^ i, i)) (by
    intro entry mem
    rcases mem_map.mp mem with ⟨i, -, rfl⟩
    unfold truncatedPower
    dsimp only
    split_ifs with zero
    · rw [zero, pow_zero]
      exact (computes_constrain rfl).returning fun _ => AssignedBoundedScalar.new 1 (some 1)
    · exact computes_truncate odd size _)
  rw [map_map] at each
  have values : (List.range n).map (truncatedPowerAt x) = (List.range n).map
      ((fun entry : ZMod modulus × Nat => if entry.2 = 0 then
        AssignedBoundedScalar.new entry.1 (some 1) else truncatedScalar entry.1) ∘
          fun i => (x ^ i, i)) := by
    apply map_congr_left
    intro i _
    unfold truncatedPowerAt
    simp only [Function.comp_apply]
    split_ifs with zero
    · rw [zero, pow_zero]
    · rfl
  rw [values]
  exact each

theorem bounded_truncated_power (x : ZMod modulus) (i : Nat) : (truncatedPowerAt x i).Bounded := by
  unfold truncatedPowerAt
  split_ifs
  · exact AssignedBoundedScalar.bounded_one
  · exact bounded_truncated _

end Circuits

end Midfall.VerifierUtils
