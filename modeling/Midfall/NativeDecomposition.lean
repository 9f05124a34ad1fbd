import Midfall.NativeGadget
import Midfall.ProofReadOrder

/-!
# Limbs of native elements

Decomposition into limbs of one size, the sign of an element, its canonical
bits, conditional swaps and comparisons. A field element of as many bits as the
modulus has at most two decompositions, which differ in the lowest bit; fewer
bits than the modulus leave one.
-/

namespace Midfall.NativeDecomposition

open CircuitPrograms NativeGadget List
open ProofReadOrder (chunks)

/-- Cut a number into limbs of these sizes, the lowest first. -/
def decomposeInVariableLimbsizes : Nat → List Nat → List Nat
  | _, [] => []
  | value, size :: sizes =>
    value % 2 ^ size :: decomposeInVariableLimbsizes (value >>> size) sizes

def variableLimbsizeCoefficients : Nat → List Nat → List Nat
  | _, [] => []
  | shift, size :: sizes => 2 ^ shift :: variableLimbsizeCoefficients (shift + size) sizes

def fixedLimbSizes (bitLength limbSize : Nat) : List Nat :=
  replicate (bitLength / limbSize) limbSize ++
    if bitLength % limbSize = 0 then [] else [bitLength % limbSize]

/-- The number with these bits, the lowest first. -/
def fromLeBits : List Bool → Nat
  | [] => 0
  | first :: bits => first.toNat + 2 * fromLeBits bits

def toLeBits : Nat → Nat → List Bool
  | 0, _ => []
  | count + 1, value => decide (value % 2 = 1) :: toLeBits count (value / 2)

theorem to_le_bits_length (count value : Nat) : (toLeBits count value).length = count := by
  induction count generalizing value with
  | zero => rfl
  | succ count ih => rw [toLeBits, length_cons, ih]

theorem from_to_le_bits {count value : Nat} (fits : value < 2 ^ count) :
    fromLeBits (toLeBits count value) = value := by
  induction count generalizing value with
  | zero =>
    rw [pow_zero] at fits
    rw [toLeBits, fromLeBits]
    omega
  | succ count ih =>
    rw [pow_succ] at fits
    rw [toLeBits, fromLeBits, ih (by omega)]
    rcases Nat.mod_two_eq_zero_or_one value with even | odd
    · rw [even]
      show 0 + 2 * (value / 2) = value
      omega
    · rw [odd]
      show 1 + 2 * (value / 2) = value
      omega

theorem to_from_le_bits (bits : List Bool) : toLeBits bits.length (fromLeBits bits) = bits := by
  induction bits with
  | nil => rfl
  | cons first bits ih =>
    have half : (first.toNat + 2 * fromLeBits bits) / 2 = fromLeBits bits := by
      cases first
      · show (0 + 2 * fromLeBits bits) / 2 = fromLeBits bits
        omega
      · show (1 + 2 * fromLeBits bits) / 2 = fromLeBits bits
        omega
    have lowest : decide ((first.toNat + 2 * fromLeBits bits) % 2 = 1) = first := by
      cases first
      · exact decide_eq_false (by show ¬(0 + 2 * fromLeBits bits) % 2 = 1; omega)
      · exact decide_eq_true (by show (1 + 2 * fromLeBits bits) % 2 = 1; omega)
    rw [length_cons, fromLeBits, toLeBits, half, lowest, ih]

theorem from_le_bits_lt (bits : List Bool) : fromLeBits bits < 2 ^ bits.length := by
  induction bits with
  | nil => exact Nat.one_pos
  | cons first bits ih =>
    have small := first.toNat_le
    rw [fromLeBits, length_cons, pow_succ]
    omega

variable {modulus : Nat} [Fact modulus.Prime]

/-- Limbs in their ranges that add up to the element. -/
def decomposeFixedLimbSize (x : ZMod modulus) (bitLength limbSize : Nat) :
    Circuit (List (ZMod modulus)) := do
  let sizes := fixedLimbSizes bitLength limbSize
  let limbs ← ((decomposeInVariableLimbsizes x.val sizes).zip sizes).mapM fun entry =>
    assignLessThanPow2 (entry.1 : ZMod modulus) entry.2
  let y ← linearCombination (((variableLimbsizeCoefficients 0 sizes).map
    fun weight : Nat => (weight : ZMod modulus)).zip limbs) 0
  assertEqual x y
  return limbs

def isZero (x : ZMod modulus) : Circuit (ZMod modulus) := isEqualToFixed x 0

/-- The parity of an element, from `x = 2 w + e` with `w` up to half the modulus. -/
def sgn0 (x : ZMod modulus) : Circuit (ZMod modulus) := do
  let e ← assignBit (decide (x.val % 2 = 1))
  let w ← assignLowerThanFixed ((x.val / 2 : Nat) : ZMod modulus) ((modulus + 1) / 2)
  let mustBeX ← linearCombination [(1, e), (((2 : Nat) : ZMod modulus), w)] 0
  assertEqual x mustBeX
  let xIsZero ← isZero x
  let xIsNotZero ← NativeGadget.not xIsZero
  NativeGadget.and [xIsNotZero, e]

/-- As many bits as the modulus has; the lowest one decides between two decompositions. -/
def assignedToLeBits (x : ZMod modulus) (nbBits : Option Nat) (enforceCanonical : Bool) :
    Circuit (List (ZMod modulus)) := do
  let nbBits := nbBits.getD modulus.size
  if modulus.size < nbBits then panic
  else
    let bits ← decomposeFixedLimbSize x nbBits 1
    if enforceCanonical ∧ nbBits = modulus.size then
      let b0 ← sgn0 x
      assertEqual (bits.headD 0) b0
      return bits
    else return bits

/-- One byte less than the modulus has is split without a canonicity check. -/
def assignedToLeBytes (x : ZMod modulus) (nbBytes : Nat) : Circuit (List (ZMod modulus)) :=
  let fNumBytes := (modulus.size + 7) / 8
  if fNumBytes < nbBytes then panic
  else if nbBytes = fNumBytes then do
    let bits ← assignedToLeBits x (some modulus.size) true
    (chunks 8 bits).mapM fun chunk =>
      linearCombination (chunk.zipIdx.map fun entry => (((1 <<< entry.2 : Nat) : ZMod modulus), entry.1)) 0
  else decomposeFixedLimbSize x (8 * nbBytes) 8

theorem le_bytes_eq {nbBytes : Nat} (fewer : 8 * nbBytes < modulus.size) (x : ZMod modulus) :
    assignedToLeBytes x nbBytes = decomposeFixedLimbSize x (8 * nbBytes) 8 := by
  unfold assignedToLeBytes
  dsimp only
  rw [if_neg (by omega), if_neg (by omega)]

/-- `y + cond x - cond y - second = 0` and `x + y - first - second = 0`. -/
def condSwap (cond x y : ZMod modulus) : Circuit (ZMod modulus × ZMod modulus) := do
  let outputs ← assign (x + y - (if cond = 1 then x else y), if cond = 1 then x else y)
  constrain (y + cond * x - cond * y - outputs.2 = 0)
  constrain (x + y - outputs.1 - outputs.2 = 0)
  return outputs

theorem computes_cond_swap (cond : Bool) (x y : ZMod modulus) :
    Computes (condSwap (bit cond) x y) (if cond then (y, x) else (x, y)) := by
  have hint : (x + y - (if (bit cond : ZMod modulus) = 1 then x else y),
      if (bit cond : ZMod modulus) = 1 then x else y) = if cond then (y, x) else (x, y) := by
    cases cond <;> simp [bit]
  unfold condSwap
  rw [hint]
  apply computes_assign
  · refine (computes_constrain ?_).bind ?_
    · cases cond <;> simp [bit]
    · refine (computes_constrain ?_).bind (computes_pure _)
      cases cond <;> simp
  · intro outputs other allowed
    simp only [bind_allows, constrain_allows, pure_allows] at allowed
    rcases allowed with ⟨-, second, -, first, -⟩
    have snd : outputs.2 = y + bit cond * x - bit cond * y := (sub_eq_zero.mp second).symm
    have fst : outputs.1 = x + y - outputs.2 := by linear_combination -first
    apply Prod.ext
    · rw [fst, snd]
      cases cond <;> simp [bit]
    · rw [snd]
      cases cond <;> simp [bit]

theorem halves_unique (odd : modulus % 2 = 1) {x w : ZMod modulus} {e : Bool}
    (small : w.val < (modulus + 1) / 2) (sum : x = 1 * bit e + 2 * w) (nonzero : x ≠ 0) :
    e = decide (x.val % 2 = 1) := by
  have cast : x = ((e.toNat + 2 * w.val : Nat) : ZMod modulus) := by
    have value : ((w.val : Nat) : ZMod modulus) = w := ZMod.natCast_zmod_val w
    rw [sum]
    push_cast
    rw [value]
    cases e <;> simp [bit]
  have bound := e.toNat_le
  have notModulus : e.toNat + 2 * w.val ≠ modulus := by
    intro whole
    rw [whole, ZMod.natCast_self] at cast
    exact nonzero cast
  have value : x.val = e.toNat + 2 * w.val := by
    rw [cast, val_natCast_lt (by omega)]
  rw [value]
  cases e
  · exact (decide_eq_false (by show ¬(0 + 2 * w.val) % 2 = 1; omega)).symm
  · exact (decide_eq_true (by show (1 + 2 * w.val) % 2 = 1; omega)).symm

theorem satisfies_assign_bit (hint : Bool) :
    Satisfies (assignBit hint : Circuit (ZMod modulus)) (bit hint) where
  honest := honest_assign_bit hint
  allowed := by
    simp only [assignBit, bind_allows, assign_allows, constrain_allows, pure_allows, true_and]
    refine ⟨bit hint, (), ?_, rfl⟩
    cases hint <;> simp [bit]

theorem satisfies_assign_lower_than_fixed {hint : ZMod modulus} {bound : Nat}
    (pos : bound ≠ 0) (fits : bound ≤ modulus) (below : hint.val < bound) :
    Satisfies (assignLowerThanFixed hint bound) hint where
  honest := honest_assign_lower_than_fixed pos fits below
  allowed := (assign_lower_than_fixed_iff pos fits).mpr below

theorem computes_is_zero (x : ZMod modulus) : Computes (isZero x) (bit (decide (x = 0))) :=
  computes_is_equal_to_fixed x 0

theorem computes_sign (x : ZMod modulus) (e : Bool) :
    Computes (do
      let xIsZero ← isZero x
      let xIsNotZero ← NativeGadget.not xIsZero
      NativeGadget.and [xIsNotZero, bit e]) (bit (! decide (x = 0) && e)) := by
  refine (computes_is_zero x).bind ?_
  refine (computes_not _).bind ?_
  simpa using computes_and [! decide (x = 0), e] (cons_ne_nil _ _)

theorem computes_sgn0 (odd : modulus % 2 = 1) (x : ZMod modulus) :
    Computes (sgn0 x) (bit (decide (x.val % 2 = 1))) := by
  have below : x.val < modulus := ZMod.val_lt x
  have sign : (! decide (x = 0) && decide (x.val % 2 = 1)) = decide (x.val % 2 = 1) := by
    by_cases zero : x = 0
    · rw [zero, ZMod.val_zero]
      simp
    · simp [zero]
  apply Satisfies.computes
  · unfold sgn0
    refine (satisfies_assign_bit _).bind ?_
    refine (satisfies_assign_lower_than_fixed (by omega) (by omega) ?_).bind ?_
    · rw [val_natCast_lt (by omega)]
      omega
    refine (computes_linear_combination _ _).satisfies.bind ?_
    refine (computes_constrain ?_).satisfies.bind ?_
    · have cast : ((x.val : Nat) : ZMod modulus) = x := ZMod.natCast_zmod_val x
      have halves : x.val = (x.val % 2) + 2 * (x.val / 2) := by omega
      have parity : (bit (decide (x.val % 2 = 1)) : ZMod modulus) = ((x.val % 2 : Nat) : ZMod modulus) := by
        rcases Nat.mod_two_eq_zero_or_one x.val with even | odd
        · rw [even]
          simp [bit]
        · rw [odd]
          simp [bit]
      rw [parity]
      conv_lhs => rw [← cast, halves]
      push_cast
      simp
    · have computed := (computes_sign x (decide (x.val % 2 = 1))).satisfies
      rwa [sign] at computed
  · intro result allowed
    unfold sgn0 at allowed
    rcases allowed with ⟨first, firstAllowed, w, wAllowed, sum, sumAllowed, _, same, rest⟩
    rcases ensures_assign_bit _ first firstAllowed with ⟨e, rfl⟩
    rw [assign_lower_than_fixed_iff (by omega) (by omega)] at wAllowed
    rw [(computes_linear_combination _ _).allows] at sumAllowed
    subst sumAllowed
    have computed := ((computes_sign x e).allows result).mp rest
    rw [computed]
    by_cases zero : x = 0
    · rw [zero, ZMod.val_zero]
      simp
    · have parity := halves_unique odd (e := e) wAllowed (by simpa [assertEqual] using same) zero
      rw [← parity]
      simp [zero]

theorem limb_sizes_one (count : Nat) : fixedLimbSizes count 1 = replicate count 1 := by
  simp [fixedLimbSizes, Nat.mod_one]

theorem weighted_bits (bits : List Bool) (shift : Nat) :
    (((((variableLimbsizeCoefficients shift (replicate bits.length 1)).map
      fun weight : Nat => (weight : ZMod modulus)).zip (bits.map bit)).map
        fun term => term.1 * term.2).sum : ZMod modulus) =
          ((2 ^ shift * fromLeBits bits : Nat) : ZMod modulus) := by
  induction bits generalizing shift with
  | nil => simp [variableLimbsizeCoefficients, fromLeBits]
  | cons first bits ih =>
    rw [length_cons, replicate_succ, variableLimbsizeCoefficients, map_cons,
      map_cons, zip_cons_cons, map_cons, sum_cons, ih, fromLeBits]
    push_cast
    cases first
    · simp [bit]
      ring
    · simp [bit]
      ring

theorem decompose_bits (value count : Nat) :
    (decomposeInVariableLimbsizes value (replicate count 1)).map
      (fun limb : Nat => (limb : ZMod modulus)) = (toLeBits count value).map bit := by
  induction count generalizing value with
  | zero => rfl
  | succ count ih =>
    rw [replicate_succ, decomposeInVariableLimbsizes, toLeBits, map_cons, map_cons,
      Nat.shiftRight_one, ih]
    rcases Nat.mod_two_eq_zero_or_one value with even | odd
    · simp [even, bit]
    · simp [odd, bit]

theorem decompose_length (value : Nat) (sizes : List Nat) :
    (decomposeInVariableLimbsizes value sizes).length = sizes.length := by
  induction sizes generalizing value with
  | nil => rfl
  | cons size sizes ih =>
    rw [decomposeInVariableLimbsizes, length_cons, length_cons, ih]

theorem ensures_assign_less_than_two (hint : ZMod modulus) :
    Ensures (assignLessThanPow2 hint 1) fun limb => ∃ value : Bool, limb = bit value := by
  rintro limb ⟨found, -, _, small, rfl⟩
  have cast : ((limb.val : Nat) : ZMod modulus) = limb := ZMod.natCast_zmod_val limb
  have below : limb.val < 2 ^ 1 := small
  have cases_ : limb.val = 0 ∨ limb.val = 1 := by omega
  rcases cases_ with zero | one
  · exact ⟨false, by rw [← cast, zero]; simp [bit]⟩
  · exact ⟨true, by rw [← cast, one]; simp [bit]⟩

theorem decompose_limb_lt (value width count : Nat) :
    ∀ limb ∈ decomposeInVariableLimbsizes value (replicate count width), limb < 2 ^ width := by
  induction count generalizing value with
  | zero => simp [decomposeInVariableLimbsizes]
  | succ count ih =>
    intro limb mem
    rw [replicate_succ, decomposeInVariableLimbsizes] at mem
    rcases mem_cons.mp mem with rfl | later
    · exact Nat.mod_lt _ (Nat.two_pow_pos _)
    · exact ih _ limb later

theorem decompose_bits_ensures (x : ZMod modulus) (count : Nat) :
    Ensures (decomposeFixedLimbSize x count 1) fun result =>
      ∃ bits : List Bool, bits.length = count ∧ result = bits.map bit ∧
        ((fromLeBits bits : Nat) : ZMod modulus) = x := by
  unfold decomposeFixedLimbSize
  rw [limb_sizes_one]
  rintro result ⟨limbs, limbsAllowed, sum, sumAllowed, _, same, rfl⟩
  have sizes : ∀ entry ∈ (decomposeInVariableLimbsizes x.val (replicate count 1)).zip
      (replicate count 1), entry.2 = 1 := fun entry mem =>
    eq_of_mem_replicate (of_mem_zip mem).2
  have limbs := ensures_loop _ (fun entry mem => by
    rw [sizes entry mem]
    exact ensures_assign_less_than_two _) result limbsAllowed
  rw [length_zip, decompose_length, length_replicate, Nat.min_self] at limbs
  have bits : ∃ bits : List Bool, result = bits.map bit := by
    have all := limbs.2
    clear limbs limbsAllowed sumAllowed
    induction result with
    | nil => exact ⟨[], rfl⟩
    | cons limb result ih =>
      rcases ih (forall_mem_cons.mp all).2 with
        ⟨bits, rfl⟩
      rcases all limb mem_cons_self with ⟨value, rfl⟩
      exact ⟨value :: bits, rfl⟩
  rcases bits with ⟨bits, rfl⟩
  rw [length_map] at limbs
  refine ⟨bits, limbs.1, rfl, ?_⟩
  rw [(computes_linear_combination _ _).allows, ← limbs.1, weighted_bits, pow_zero, Nat.one_mul,
    zero_add] at sumAllowed
  have equal : x = sum := same
  rw [equal, sumAllowed]

theorem satisfies_decompose_bits {x : ZMod modulus} {count : Nat} (fits : x.val < 2 ^ count) :
    Satisfies (decomposeFixedLimbSize x count 1) ((toLeBits count x.val).map bit) := by
  have cast : ((x.val : Nat) : ZMod modulus) = x := ZMod.natCast_zmod_val x
  unfold decomposeFixedLimbSize
  rw [limb_sizes_one]
  have hints := @decompose_bits modulus _ x.val count
  have limbs : Satisfies (((decomposeInVariableLimbsizes x.val (replicate count 1)).zip
      (replicate count 1)).mapM fun entry =>
        assignLessThanPow2 ((entry.1 : Nat) : ZMod modulus) entry.2)
      ((toLeBits count x.val).map bit) := by
    have values : ((decomposeInVariableLimbsizes x.val (replicate count 1)).zip
        (replicate count 1)).map (fun entry => ((entry.1 : Nat) : ZMod modulus)) =
          (toLeBits count x.val).map bit := by
      rw [← hints]
      conv_rhs => rw [← map_fst_zip (Nat.le_of_eq (decompose_length x.val _)), map_map]
      rfl
    rw [← values]
    apply satisfies_loop
    intro entry mem
    have pair := of_mem_zip mem
    have small := decompose_limb_lt x.val 1 count entry.1 pair.1
    rw [eq_of_mem_replicate pair.2]
    refine (satisfies_assign _).bind ?_
    refine (computes_assert_less_than_pow2 ?_).satisfies.returning _
    rw [ZMod.val_natCast]
    exact lt_of_le_of_lt (Nat.mod_le _ _) small
  refine limbs.bind ?_
  refine (computes_linear_combination _ _).satisfies.bind ?_
  refine (computes_constrain ?_).satisfies.returning _
  have weighted := @weighted_bits modulus _ (toLeBits count x.val) 0
  rw [to_le_bits_length, from_to_le_bits fits] at weighted
  rw [weighted, pow_zero, Nat.one_mul, zero_add, cast]

theorem canonical_bits (odd : modulus % 2 = 1) {x : ZMod modulus} {bits : List Bool}
    (length : bits.length = modulus.size) (value : ((fromLeBits bits : Nat) : ZMod modulus) = x)
    (parity : fromLeBits bits % 2 = x.val % 2) : bits = toLeBits modulus.size x.val := by
  have below : x.val < modulus := ZMod.val_lt x
  have bound := from_le_bits_lt bits
  have pos : 0 < modulus.size := Nat.size_pos.mpr (Nat.pos_of_ne_zero (NeZero.ne modulus))
  have tight : 2 ^ modulus.size ≤ 2 * modulus := by
    have half : 2 ^ (modulus.size - 1) ≤ modulus := Nat.lt_size.mp (by omega)
    calc 2 ^ modulus.size = 2 * 2 ^ (modulus.size - 1) := by
          rw [← pow_succ', Nat.sub_add_cancel pos]
      _ ≤ 2 * modulus := Nat.mul_le_mul_left 2 half
  have same : fromLeBits bits = x.val := by
    have residue : fromLeBits bits % modulus = x.val := by rw [← value, ZMod.val_natCast]
    have division := Nat.mod_add_div (fromLeBits bits) modulus
    have twice : fromLeBits bits / modulus < 2 := by
      apply Nat.div_lt_of_lt_mul
      rw [length] at bound
      omega
    rcases Nat.le_one_iff_eq_zero_or_eq_one.mp (Nat.le_of_lt_succ twice) with zero | one
    · rw [zero, Nat.mul_zero] at division
      omega
    · rw [one, Nat.mul_one] at division
      omega
  rw [← same, ← length, to_from_le_bits]

theorem lowest_bit (bits : List Bool) :
    (bits.map (bit : Bool → ZMod modulus)).headD 0 = bit (decide (fromLeBits bits % 2 = 1)) := by
  cases bits with
  | nil => rfl
  | cons first bits =>
    rw [map_cons, headD_cons, fromLeBits]
    cases first
    · rw [decide_eq_false (by show ¬(0 + 2 * fromLeBits bits) % 2 = 1; omega)]
    · rw [decide_eq_true (by show (1 + 2 * fromLeBits bits) % 2 = 1; omega)]

theorem computes_assigned_to_le_bits (odd : modulus % 2 = 1) (x : ZMod modulus) :
    Computes (assignedToLeBits x none true) ((toLeBits modulus.size x.val).map bit) := by
  have below : x.val < 2 ^ modulus.size := lt_trans (ZMod.val_lt x) (Nat.lt_size_self modulus)
  unfold assignedToLeBits
  rw [Option.getD_none, if_neg (Nat.lt_irrefl _)]
  simp only [and_self, ↓reduceIte]
  apply Satisfies.computes
  · refine (satisfies_decompose_bits below).bind ?_
    refine (computes_sgn0 odd x).satisfies.bind ?_
    refine (computes_constrain ?_).satisfies.returning _
    rw [lowest_bit, from_to_le_bits below]
  · rintro result ⟨found, decomposed, b0, sign, _, same, rfl⟩
    rcases decompose_bits_ensures x _ result decomposed with ⟨bits, length, rfl, value⟩
    rw [(computes_sgn0 odd x).allows] at sign
    have equal : (bits.map (bit : Bool → ZMod modulus)).headD 0 = b0 := same
    rw [lowest_bit, sign] at equal
    have parity := bit_injective equal
    rw [decide_eq_decide] at parity
    rw [canonical_bits odd length value (by omega)]

theorem decompose_of_digits (value width count : Nat) :
    Nat.ofDigits (2 ^ width) (decomposeInVariableLimbsizes value (replicate count width)) =
      value % 2 ^ (width * count) := by
  induction count generalizing value with
  | zero => rw [Nat.mul_zero, pow_zero, Nat.mod_one]; rfl
  | succ count ih =>
    rw [replicate_succ, decomposeInVariableLimbsizes, Nat.ofDigits_cons, ih,
      Nat.shiftRight_eq_div_pow, Nat.mul_succ, Nat.add_comm (width * count), pow_add, Nat.mod_mul]

theorem weighted_limbs (limbs : List Nat) (width shift : Nat) :
    ((((variableLimbsizeCoefficients shift (replicate limbs.length width)).map
      fun weight : Nat => (weight : ZMod modulus)).zip
        (limbs.map fun limb : Nat => (limb : ZMod modulus))).map
          fun term => term.1 * term.2).sum =
            ((2 ^ shift * Nat.ofDigits (2 ^ width) limbs : Nat) : ZMod modulus) := by
  induction limbs generalizing shift with
  | nil => simp [variableLimbsizeCoefficients]
  | cons limb limbs ih =>
    rw [length_cons, replicate_succ, variableLimbsizeCoefficients, map_cons, map_cons,
      zip_cons_cons, map_cons, sum_cons, ih, Nat.ofDigits_cons]
    push_cast
    ring

theorem fixed_limb_sizes {width : Nat} (pos : 0 < width) (count : Nat) :
    fixedLimbSizes (width * count) width = replicate count width := by
  unfold fixedLimbSizes
  rw [Nat.mul_div_cancel_left _ pos, if_pos (Nat.mul_mod_right _ _), append_nil]

omit [Fact modulus.Prime] in
theorem ensures_assign_less_than (hint : ZMod modulus) (bits : Nat) :
    Ensures (assignLessThanPow2 hint bits) fun limb => limb.val < 2 ^ bits := by
  rintro limb ⟨found, -, _, small, same⟩
  have equal : limb = found := same
  rw [equal]
  exact small

theorem decompose_allows {width count : Nat} (pos : 0 < width)
    (fits : 2 ^ (width * count) ≤ modulus) {x : ZMod modulus} {result : List (ZMod modulus)}
    (allowed : (decomposeFixedLimbSize x (width * count) width).allows result) :
    result.length = count ∧ (∀ limb ∈ result.map ZMod.val, limb < 2 ^ width) ∧
      x.val = Nat.ofDigits (2 ^ width) (result.map ZMod.val) := by
  have length := decompose_length x.val (replicate count width)
  rw [length_replicate] at length
  unfold decomposeFixedLimbSize at allowed
  rw [fixed_limb_sizes pos] at allowed
  dsimp only at allowed
  generalize decomposeInVariableLimbsizes x.val (replicate count width) = limbs at *
  rcases allowed with ⟨found, foundAllowed, sum, sumAllowed, _, same, returned⟩
  rw [pure_allows] at returned
  subst returned
  have ranges := ensures_loop _ (fun entry mem => by
    rw [eq_of_mem_replicate (of_mem_zip mem).2]
    exact ensures_assign_less_than _ width) result foundAllowed
  rw [length_zip, length, length_replicate, Nat.min_self] at ranges
  have cells : result = (result.map ZMod.val).map fun limb : Nat => (limb : ZMod modulus) := by
    rw [map_map]
    exact (map_id'' (fun limb => ZMod.natCast_zmod_val limb) result).symm
  have resultLength : (result.map ZMod.val).length = count := by
    rw [length_map, ranges.1]
  have weighted := @weighted_limbs modulus _ (result.map ZMod.val) width 0
  rw [← cells, resultLength, pow_zero, Nat.one_mul] at weighted
  rw [(computes_linear_combination _ _).allows, weighted, zero_add] at sumAllowed
  have inRange : ∀ limb ∈ result.map ZMod.val, limb < 2 ^ width := by
    intro limb mem
    rcases mem_map.mp mem with ⟨element, inResult, rfl⟩
    exact ranges.2 element inResult
  have base : 1 < 2 ^ width := Nat.one_lt_two_pow pos.ne'
  have total := Nat.ofDigits_lt_base_pow_length base inRange
  rw [resultLength, ← pow_mul] at total
  have equal : x = sum := same
  refine ⟨ranges.1, inRange, ?_⟩
  rw [equal, sumAllowed, val_natCast_lt (lt_of_lt_of_le total fits)]

/-- Limbs with fewer bits in all than the modulus are the digits. -/
theorem computes_decompose {width count : Nat} (pos : 0 < width)
    (fits : 2 ^ (width * count) ≤ modulus) {x : ZMod modulus} (below : x.val < 2 ^ (width * count)) :
    Computes (decomposeFixedLimbSize x (width * count) width)
      ((decomposeInVariableLimbsizes x.val (replicate count width)).map
        fun limb : Nat => (limb : ZMod modulus)) := by
  have digits := decompose_of_digits x.val width count
  have small := decompose_limb_lt x.val width count
  have length := decompose_length x.val (replicate count width)
  rw [Nat.mod_eq_of_lt below] at digits
  rw [length_replicate] at length
  have cast : ((x.val : Nat) : ZMod modulus) = x := ZMod.natCast_zmod_val x
  apply Satisfies.computes
  · unfold decomposeFixedLimbSize
    rw [fixed_limb_sizes pos]
    dsimp only
    generalize decomposeInVariableLimbsizes x.val (replicate count width) = limbs at *
    have values : (limbs.zip (replicate count width)).map
        (fun entry => ((entry.1 : Nat) : ZMod modulus)) =
          limbs.map fun limb : Nat => (limb : ZMod modulus) := by
      have firsts : (limbs.zip (replicate count width)).map Prod.fst = limbs :=
        map_fst_zip (by rw [length_replicate, length])
      conv_rhs => rw [← firsts, map_map]
      rfl
    have loop : Satisfies ((limbs.zip (replicate count width)).mapM fun entry =>
        assignLessThanPow2 ((entry.1 : Nat) : ZMod modulus) entry.2)
        (limbs.map fun limb : Nat => (limb : ZMod modulus)) := by
      rw [← values]
      apply satisfies_loop
      intro entry mem
      have pair := of_mem_zip mem
      rw [eq_of_mem_replicate pair.2]
      refine (satisfies_assign _).bind ?_
      refine (computes_assert_less_than_pow2 ?_).satisfies.returning _
      rw [ZMod.val_natCast]
      exact lt_of_le_of_lt (Nat.mod_le _ _) (small entry.1 pair.1)
    refine loop.bind ?_
    refine (computes_linear_combination _ _).satisfies.bind ?_
    refine (computes_constrain ?_).satisfies.returning _
    rw [← length, weighted_limbs, pow_zero, Nat.one_mul, zero_add, digits, cast]
  · intro result allowed
    rcases decompose_allows pos fits allowed with ⟨resultLength, inRange, value⟩
    have cells : result = (result.map ZMod.val).map fun limb : Nat => (limb : ZMod modulus) := by
      rw [map_map]
      exact (map_id'' (fun limb => ZMod.natCast_zmod_val limb) result).symm
    have base : 1 < 2 ^ width := Nat.one_lt_two_pow pos.ne'
    have unique := Nat.ofDigits_inj_of_len_eq base
      ((length_map _).trans (resultLength.trans length.symm)) inRange small
      (value.symm.trans digits.symm)
    rw [cells, unique]

/-- `2 b y - b + x - 2 b x - y` is `x - y` or `y - 1 - x`. -/
def difference (x y result : ZMod modulus) : Circuit (ZMod modulus) := do
  let bx ← mul x result
  let byResult ← mul y result
  linearCombination [(((2 : Nat) : ZMod modulus), byResult), (-1, result), (1, x),
    (-((2 : Nat) : ZMod modulus), bx), (-1, y)] 0

/-- `b (2 y - 1) + x - 2 b x - y`, for a constant. -/
def fixedDifference (x y result : ZMod modulus) : Circuit (ZMod modulus) := do
  let bx ← mul x result
  linearCombination [(((2 : Nat) : ZMod modulus) * y - 1, result), (1, x),
    (-((2 : Nat) : ZMod modulus), bx)] (-y)

/-- The difference is never negative. -/
def lowerThan (x y : ZMod modulus) (bound : Nat) : Circuit (ZMod modulus) := do
  let result ← assignBit (decide (x.val < y.val))
  let z ← difference x y result
  assertLessThanPow2 z bound
  return result

def compareFixed (x : ZMod modulus) (bound : Nat) (y : ZMod modulus) : Circuit (ZMod modulus) := do
  let result ← assignBit (decide (x.val < y.val))
  let z ← fixedDifference x y result
  assertLessThanPow2 z bound
  return result

/-- Elements below `2^bound` are lower than every constant from there on. -/
def lowerThanFixed (x : ZMod modulus) (bound : Nat) (y : ZMod modulus) : Circuit (ZMod modulus) :=
  if 2 ^ bound ≤ y.val then assignFixed (bit true) else compareFixed x bound y

def leq (x y : ZMod modulus) (bound : Nat) : Circuit (ZMod modulus) := do
  let b1 ← lowerThan x y bound
  let b2 ← isEqual x y
  NativeGadget.or [b1, b2]

def greaterThan (x y : ZMod modulus) (bound : Nat) : Circuit (ZMod modulus) := do
  let b ← leq x y bound
  NativeGadget.not b

theorem computes_difference (x y : ZMod modulus) (result : Bool) :
    Computes (difference x y (bit result)) (if result then y - 1 - x else x - y) := by
  refine (computes_mul _ _).bind ?_
  refine (computes_mul _ _).bind ?_
  have combination := computes_linear_combination [(((2 : Nat) : ZMod modulus), y * bit result),
    (-1, bit result), (1, x), (-((2 : Nat) : ZMod modulus), x * bit result), (-1, y)] 0
  have value : (if result then y - 1 - x else x - y) = 0 + ([(((2 : Nat) : ZMod modulus),
      y * bit result), (-1, bit result), (1, x), (-((2 : Nat) : ZMod modulus), x * bit result),
        (-1, y)].map fun term : ZMod modulus × ZMod modulus => term.1 * term.2).sum := by
    cases result
    · simp [bit]
      ring
    · simp [bit]
      ring
  rwa [← value] at combination

theorem computes_fixed_difference (x y : ZMod modulus) (result : Bool) :
    Computes (fixedDifference x y (bit result)) (if result then y - 1 - x else x - y) := by
  refine (computes_mul _ _).bind ?_
  have combination := computes_linear_combination [(((2 : Nat) : ZMod modulus) * y - 1, bit result),
    (1, x), (-((2 : Nat) : ZMod modulus), x * bit result)] (-y)
  have value : (if result then y - 1 - x else x - y) =
      -y + ([(((2 : Nat) : ZMod modulus) * y - 1, bit result), (1, x),
        (-((2 : Nat) : ZMod modulus), x * bit result)].map
          fun term : ZMod modulus × ZMod modulus => term.1 * term.2).sum := by
    cases result
    · simp [bit]
      ring
    · simp [bit]
      ring
  rwa [← value] at combination

variable {bound : Nat} {x y : ZMod modulus}

section

variable (fits : 2 ^ (bound + 1) ≤ modulus) (xSmall : x.val < 2 ^ bound)
  (ySmall : y.val < 2 ^ bound)

include fits xSmall ySmall

theorem difference_small :
    ((x - y).val < 2 ^ bound ↔ y.val ≤ x.val) ∧
      ((y - 1 - x).val < 2 ^ bound ↔ x.val < y.val) := by
  have xCast : ((x.val : Nat) : ZMod modulus) = x := ZMod.natCast_zmod_val x
  have yCast : ((y.val : Nat) : ZMod modulus) = y := ZMod.natCast_zmod_val y
  rw [pow_succ] at fits
  have down : ∀ {low high : Nat}, low ≤ high → high < modulus →
      (((high : Nat) : ZMod modulus) - ((low : Nat) : ZMod modulus)).val = high - low := by
    intro low high order below
    rw [← Nat.cast_sub order, val_natCast_lt (by omega)]
  have wrapped : ∀ {low high : Nat}, low < high → high ≤ modulus →
      (((low : Nat) : ZMod modulus) - ((high : Nat) : ZMod modulus)).val =
        modulus - (high - low) := by
    intro low high order below
    have shifted : ((low : Nat) : ZMod modulus) - ((high : Nat) : ZMod modulus) =
        ((modulus - (high - low) : Nat) : ZMod modulus) := by
      rw [Nat.cast_sub (by omega), Nat.cast_sub order.le, ZMod.natCast_self]
      ring
    rw [shifted, val_natCast_lt (by omega)]
  constructor
  · rw [← xCast, ← yCast]
    rcases Nat.lt_or_ge x.val y.val with less | atLeast
    · rw [wrapped less (by omega), xCast, yCast]
      omega
    · rw [down atLeast (by omega), xCast, yCast]
      omega
  · have successor : y - 1 - x = ((y.val : Nat) : ZMod modulus) - ((x.val + 1 : Nat) : ZMod modulus) := by
      push_cast
      rw [xCast, yCast]
      ring
    rw [successor]
    rcases Nat.lt_or_ge x.val y.val with less | atLeast
    · rw [down less (by omega)]
      omega
    · rw [wrapped (by omega) (by omega)]
      omega

/-- What the comparisons share: the bit selects a difference that must be small. -/
theorem computes_compared {difference : ZMod modulus → Circuit (ZMod modulus)}
    (differs : ∀ result : Bool, Computes (difference (bit result))
      (if result then y - 1 - x else x - y)) :
    Computes (do
      let result ← assignBit (decide (x.val < y.val))
      let z ← difference result
      assertLessThanPow2 z bound
      return result) (bit (decide (x.val < y.val))) := by
  have ranges := difference_small fits xSmall ySmall
  apply Satisfies.computes
  · refine (satisfies_assign_bit _).bind ?_
    refine (differs (decide (x.val < y.val))).satisfies.bind ?_
    refine (computes_assert_less_than_pow2 ?_).satisfies.returning _
    by_cases less : x.val < y.val
    · rw [if_pos (decide_eq_true less)]
      exact ranges.2.mpr less
    · rw [if_neg (by simpa using less)]
      exact ranges.1.mpr (Nat.le_of_not_lt less)
  · rintro result ⟨first, firstAllowed, z, zAllowed, _, small, same⟩
    have returned : result = first := same
    rcases ensures_assign_bit _ first firstAllowed with ⟨value, rfl⟩
    rw [returned]
    have range : z.val < 2 ^ bound := small
    rw [((differs value).allows z).mp zAllowed] at range
    cases value with
    | true =>
      rw [if_pos rfl] at range
      rw [decide_eq_true (ranges.2.mp range)]
    | false =>
      rw [if_neg (by decide)] at range
      rw [decide_eq_false (Nat.not_lt.mpr (ranges.1.mp range))]

theorem computes_lower_than : Computes (lowerThan x y bound) (bit (decide (x.val < y.val))) :=
  computes_compared fits xSmall ySmall (computes_difference x y)

theorem computes_compare_fixed :
    Computes (compareFixed x bound y) (bit (decide (x.val < y.val))) :=
  computes_compared fits xSmall ySmall (computes_fixed_difference x y)

theorem computes_greater_than :
    Computes (greaterThan x y bound) (bit (decide (y.val < x.val))) := by
  unfold greaterThan leq
  rw [bind_assoc]
  refine (computes_lower_than fits xSmall ySmall).bind ?_
  rw [bind_assoc]
  refine (computes_is_equal x y).bind ?_
  refine (computes_or _ _).bind ?_
  have value : (! (decide (x.val < y.val) || decide (x = y))) = decide (y.val < x.val) := by
    have equal : x = y ↔ x.val = y.val := (ZMod.val_injective modulus).eq_iff.symm
    rw [Bool.eq_iff_iff]
    simp only [Bool.not_eq_true', Bool.or_eq_false_iff, decide_eq_false_iff_not, decide_eq_true_iff,
      equal]
    omega
  rw [← value]
  exact computes_not _

end

theorem computes_lower_than_fixed (fits : 2 ^ (bound + 1) ≤ modulus) (xSmall : x.val < 2 ^ bound) :
    Computes (lowerThanFixed x bound y) (bit (decide (x.val < y.val))) := by
  unfold lowerThanFixed
  split_ifs with beyond
  · rw [decide_eq_true (lt_of_lt_of_le xSmall beyond)]
    exact computes_assign_fixed _
  · exact computes_compare_fixed fits xSmall (Nat.lt_of_not_le beyond)

end Midfall.NativeDecomposition
