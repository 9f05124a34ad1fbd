import Mathlib

/-!
# The scalar field

The modulus of the native field, arithmetic with it, and its primality, from the factors of its
predecessor and a generator.
-/

namespace Midfall.ScalarField

def scalarModulus : Nat :=
  52435875175126190479447740508185965837690552500527637822603658699938581184513

/-! `addmod` and `mulmod` with this modulus. -/

def addmod (x y : Nat) : Nat := (x + y) % scalarModulus

def mulmod (x y : Nat) : Nat := x * y % scalarModulus

theorem predecessor_factors : scalarModulus - 1 =
    2 ^ 32 * 3 * 11 * 19 * 10177 * 125527 * 859267 * 906349 ^ 2 * 2508409 * 2529403 *
      52437899 * 254760293 ^ 2 := by
  norm_num [scalarModulus]

theorem divisor_of_predecessor {factor : Nat} (prime : factor.Prime)
    (divides : factor ∣ scalarModulus - 1) :
    factor ∈ [2, 3, 11, 19, 10177, 125527, 859267, 906349, 2508409, 2529403, 52437899,
      254760293] := by
  have same : ∀ {other : Nat}, other.Prime → factor ∣ other → factor = other :=
    fun otherPrime divides => (Nat.prime_dvd_prime_iff_eq prime otherPrime).mp divides
  rw [predecessor_factors] at divides
  simp only [prime.dvd_mul] at divides
  rcases divides with ((((((((((two | three) | eleven) | nineteen) | fifth) | sixth) | seventh) |
    eighth) | ninth) | tenth) | eleventh) | twelfth
  · simp [same (by norm_num) (prime.dvd_of_dvd_pow two)]
  · simp [same (by norm_num) three]
  · simp [same (by norm_num) eleven]
  · simp [same (by norm_num) nineteen]
  · simp [same (by norm_num) fifth]
  · simp [same (by norm_num) sixth]
  · simp [same (by norm_num) seventh]
  · simp [same (by norm_num) (prime.dvd_of_dvd_pow eighth)]
  · simp [same (by norm_num) ninth]
  · simp [same (by norm_num) tenth]
  · simp [same (by norm_num) eleventh]
  · simp [same (by norm_num) (prime.dvd_of_dvd_pow twelfth)]

theorem scalar_modulus_prime : scalarModulus.Prime := by
  apply lucas_primality _ (7 : ZMod scalarModulus)
  · unfold scalarModulus
    norm_num only
    reduce_mod_char
  · intro factor prime divides
    have mem := divisor_of_predecessor prime divides
    clear prime divides
    unfold scalarModulus
    simp only [List.mem_cons, List.not_mem_nil, or_false] at mem
    rcases mem with rfl | rfl | rfl | rfl | rfl | rfl | rfl | rfl | rfl | rfl | rfl | rfl <;>
      (norm_num only; reduce_mod_char; decide)

instance scalarModulusPrime : Fact scalarModulus.Prime := ⟨scalar_modulus_prime⟩

theorem scalar_modulus_size : scalarModulus.size = 255 := by
  have above : 2 ^ 254 ≤ scalarModulus := by
    unfold scalarModulus
    norm_num
  have below : scalarModulus < 2 ^ 255 := by
    unfold scalarModulus
    norm_num
  exact Nat.le_antisymm (Nat.size_le.mpr below) (Nat.lt_size.mpr above)

end Midfall.ScalarField
