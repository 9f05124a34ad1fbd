import Midfall.BoothDigits
import Midfall.BucketSums
import Midfall.ListLoops
import Midfall.ProofReadOrder

/-!
# Multi-scalar multiplication by windows

`msm_serial` and `msm_parallel` of the curves crate: Booth digits of the scalars
select buckets, window by window from the highest, and the chunks of the threads
are added. The size of a window is chosen from the number of bases.
-/

namespace Midfall.CurveMsm

open BoothDigits BucketSums ListLoops ProofReadOrder List

/-- The canonical little-endian bytes of a prime field. -/
structure ScalarRepr (Scalar : Type) where
  numBits : Nat
  value : Scalar → Nat
  toRepr : Scalar → List Nat
  littleEndian : ∀ scalar, Nat.ofDigits 256 (toRepr scalar) = value scalar
  bytes : ∀ scalar, ∀ byte ∈ toRepr scalar, byte < 256
  bounded : ∀ scalar, value scalar < 2 ^ numBits

/-- `⌊e^k⌋` for `k` below 23. -/
def lnThresholds : List Nat :=
  [1, 2, 7, 20, 54, 148, 403, 1096, 2980, 8103, 22026, 59874, 162754, 442413, 1202604, 3269017,
    8886110, 24154952, 65659969, 178482300, 485165195, 1318815734, 3584912846]

/-- `f64::ln` and `ceil` of a number of 32 bits, as `usize`; the logarithm of 0 becomes 0. -/
def lnCeil (n : Nat) : Nat := (lnThresholds.filter fun threshold => decide (threshold < n)).length

/-- The length is cast to 32 bits for the logarithm. -/
def windowSize (len : Nat) : Nat :=
  if len < 4 then 1 else if len < 32 then 3 else lnCeil (len % 2 ^ 32)

section Definitions

variable {Scalar G : Type} [AddCommGroup G]

def orBytes : List Nat → List Nat → List Nat
  | accLimb :: acc, limb :: limbs => (accLimb ||| limb) :: orBytes acc limbs
  | acc, _ => acc

def fieldByteSize (repr : ScalarRepr Scalar) : Nat := (repr.numBits + 7) / 8

def maxByteSize (size : Nat) (coeffs : List (List Nat)) : Nat :=
  size - ((coeffs.foldl orBytes (replicate size 0)).reverse.findIdx?
    fun v => decide (v ≠ 0)).getD size

inductive SerialBucket (G : Type) where
  | none
  | affine (point : G)
  | projective (point : G)

def SerialBucket.addAssign : SerialBucket G → G → SerialBucket G
  | .none, other => .affine other
  | .affine a, other => .projective (a + other)
  | .projective a, other => .projective (a + other)

def SerialBucket.add : SerialBucket G → G → G
  | .none, other => other
  | .affine a, other => other + a
  | .projective a, other => other + a

/-- `Vec` indexing panics outside. -/
def addToBucket (buckets : List (SerialBucket G)) (place : Nat) (other : G) :
    Option (List (SerialBucket G)) :=
  (buckets[place]?).map fun bucket => buckets.set place (bucket.addAssign other)

def serialEntry (currentWindow c : Nat) (buckets : List (SerialBucket G))
    (entry : List Nat × G) : Option (List (SerialBucket G)) :=
  let coeff := getBoothIndex currentWindow c entry.1
  if 0 < coeff then addToBucket buckets (coeff.toNat - 1) entry.2
  else if coeff < 0 then addToBucket buckets (coeff.natAbs - 1) (-entry.2)
  else some buckets

def double (point : G) : G := point + point

def serialWindow (c : Nat) (entries : List (List Nat × G)) (acc : G) (currentWindow : Nat) :
    Option G := do
  let acc := double^[c] acc
  let buckets ← entries.foldlM (serialEntry currentWindow c)
    (replicate (1 <<< (c - 1)) SerialBucket.none)
  return (buckets.reverse.foldl (fun state exp =>
    let runningSum := exp.add state.1
    (runningSum, state.2 + runningSum)) ((0 : G), acc)).2

/-- A window of size 0 divides by zero, unless all scalars are zero. -/
def msmSerial (repr : ScalarRepr Scalar) (coeffs : List Scalar) (bases : List G) (acc : G) :
    Option G :=
  let coeffs := coeffs.map repr.toRepr
  let c := windowSize bases.length
  let bytes := maxByteSize (fieldByteSize repr) coeffs
  if bytes = 0 then some acc
  else if c = 0 then none
  else
    let numberOfWindows := bytes * 8 / c + 1
    (range numberOfWindows).reverse.foldlM (serialWindow c (coeffs.zip bases)) acc

def msmParallel (repr : ScalarRepr Scalar) (numThreads : Nat) (coeffs : List Scalar)
    (bases : List G) : Option G :=
  if coeffs.length ≠ bases.length then none
  else if numThreads < coeffs.length then do
    let chunk := coeffs.length / numThreads
    let results ← ((chunks chunk coeffs).zip (chunks chunk bases)).mapM fun block =>
      msmSerial repr block.1 block.2 0
    return results.foldl (fun a b => a + b) 0
  else msmSerial repr coeffs bases 0

end Definitions

theorem window_size_le (len : Nat) : windowSize len ≤ 23 := by
  unfold windowSize
  split_ifs
  · omega
  · omega
  · exact (length_filter_le _ _)

theorem window_size_zero_iff (len : Nat) : windowSize len = 0 ↔ 32 ≤ len ∧ len % 2 ^ 32 < 2 := by
  unfold windowSize
  split_ifs with few some
  · exact iff_of_false not_false fun wide => by omega
  · exact iff_of_false not_false fun wide => by omega
  · have first : lnCeil (len % 2 ^ 32) = 0 ↔ len % 2 ^ 32 < 2 := by
      unfold lnCeil
      rw [length_eq_zero_iff, filter_eq_nil_iff]
      constructor
      · intro none
        have one := none 1 (by decide)
        simp only [decide_eq_true_eq, Nat.not_lt] at one
        omega
      · intro small threshold mem
        have least : 1 ≤ threshold := by
          have all : ∀ threshold ∈ lnThresholds, 1 ≤ threshold := by decide
          exact all threshold mem
        simp only [decide_eq_true_eq, Nat.not_lt]
        omega
    rw [first]
    omega

section Bytes

theorem or_bytes_length (acc limbs : List Nat) : (orBytes acc limbs).length = acc.length := by
  induction acc generalizing limbs with
  | nil => cases limbs <;> rfl
  | cons accLimb acc ih =>
    cases limbs with
    | nil => rfl
    | cons limb limbs => rw [orBytes, length_cons, ih, length_cons]

theorem or_bytes_zero_iff {acc : List Nat} (limbs : List Nat) {i : Nat} (inside : i < acc.length) :
    (orBytes acc limbs).getD i 0 = 0 ↔ acc.getD i 0 = 0 ∧ limbs.getD i 0 = 0 := by
  induction acc generalizing limbs i with
  | nil => exact absurd inside (Nat.not_lt_zero i)
  | cons accLimb acc ih =>
    cases limbs with
    | nil => simp [orBytes]
    | cons limb limbs =>
      cases i with
      | zero => simp [orBytes, Nat.or_eq_zero_iff]
      | succ i =>
        simp only [orBytes, getD_cons_succ]
        exact ih limbs (Nat.lt_of_succ_lt_succ inside)

theorem or_all_zero_iff (coeffs : List (List Nat)) {acc : List Nat} {i : Nat}
    (inside : i < acc.length) :
    (coeffs.foldl orBytes acc).getD i 0 = 0 ↔
      acc.getD i 0 = 0 ∧ ∀ coeff ∈ coeffs, coeff.getD i 0 = 0 := by
  induction coeffs generalizing acc with
  | nil => simp
  | cons coeff coeffs ih =>
    rw [foldl_cons, ih (by rwa [or_bytes_length]), or_bytes_zero_iff coeff inside,
      forall_mem_cons, and_assoc]

theorem or_all_length (coeffs : List (List Nat)) (acc : List Nat) :
    (coeffs.foldl orBytes acc).length = acc.length := by
  induction coeffs generalizing acc with
  | nil => rfl
  | cons coeff coeffs ih => rw [foldl_cons, ih, or_bytes_length]

theorem last_nonzero (entries : List Nat) :
    (∀ i, entries.length - (entries.reverse.findIdx? fun v => decide (v ≠ 0)).getD entries.length ≤ i →
        entries.getD i 0 = 0) ∧
      (entries.length - (entries.reverse.findIdx? fun v => decide (v ≠ 0)).getD entries.length = 0 →
        ∀ i, entries.getD i 0 = 0) := by
  have beyond : ∀ i, entries.length - (entries.reverse.findIdx?
      fun v => decide (v ≠ 0)).getD entries.length ≤ i → entries.getD i 0 = 0 := by
    intro i after
    by_cases inside : i < entries.length
    · cases found : entries.reverse.findIdx? (fun v => decide (v ≠ 0)) with
      | none =>
        have zero := findIdx?_eq_none_iff.mp found entries[i]
          (mem_reverse.mpr (getElem_mem inside))
        rw [getD_eq_getElem _ _ inside]
        simpa using zero
      | some place =>
        rw [found, Option.getD_some] at after
        rcases findIdx?_eq_some_iff_getElem.mp found with ⟨bound, -, earlier⟩
        rw [length_reverse] at bound
        have zero := earlier (entries.length - 1 - i) (by omega)
        rw [getElem_reverse] at zero
        have place : entries.length - 1 - (entries.length - 1 - i) = i := by omega
        simp only [place] at zero
        rw [getD_eq_getElem _ _ inside]
        simpa using zero
    · exact getD_eq_default _ _ (Nat.not_lt.mp inside)
  exact ⟨beyond, fun none i => beyond i (by omega)⟩

theorem of_digits_zero_iff {digits : List Nat} :
    Nat.ofDigits 256 digits = 0 ↔ ∀ i, digits.getD i 0 = 0 := by
  induction digits with
  | nil => simp
  | cons digit digits ih =>
    have parts : digit + 256 * Nat.ofDigits 256 digits = 0 ↔
        digit = 0 ∧ Nat.ofDigits 256 digits = 0 := by omega
    rw [Nat.ofDigits_cons, parts, ih]
    constructor
    · rintro ⟨first, rest⟩ i
      cases i with
      | zero => exact first
      | succ i => exact rest i
    · intro zeros
      exact ⟨zeros 0, fun i => zeros (i + 1)⟩

variable {Scalar : Type} (repr : ScalarRepr Scalar)

theorem value_lt_bytes (scalar : Scalar) : repr.value scalar < 256 ^ fieldByteSize repr := by
  have base : 256 ^ fieldByteSize repr = 2 ^ (8 * fieldByteSize repr) := by
    rw [pow_mul]
    norm_num
  rw [base]
  refine (repr.bounded scalar).trans_le (Nat.pow_le_pow_right Nat.two_pos ?_)
  unfold fieldByteSize
  omega

theorem value_lt_max {coeffs : List Scalar} {scalar : Scalar} (mem : scalar ∈ coeffs) :
    repr.value scalar <
      256 ^ maxByteSize (fieldByteSize repr) (coeffs.map repr.toRepr) := by
  let size := fieldByteSize repr
  let mask := (coeffs.map repr.toRepr).foldl orBytes (replicate size 0)
  have maskLength : mask.length = size := by rw [or_all_length, length_replicate]
  let used := maxByteSize size (coeffs.map repr.toRepr)
  have usedEq : used = mask.length - (mask.reverse.findIdx? fun v => decide (v ≠ 0)).getD
      mask.length := by
    rw [maskLength]
    rfl
  have unused : ∀ i, used ≤ i → i < size → (repr.toRepr scalar).getD i 0 = 0 := by
    intro i after inside
    have zero := (last_nonzero mask).1 i (usedEq ▸ after)
    exact ((or_all_zero_iff _ (by rwa [length_replicate])).mp zero).2 _
      (mem_map_of_mem mem)
  have whole : repr.value scalar % 256 ^ size = repr.value scalar :=
    Nat.mod_eq_of_lt (value_lt_bytes repr scalar)
  have taken : Nat.ofDigits 256 ((repr.toRepr scalar).take size) = repr.value scalar := by
    rw [← Nat.ofDigits_mod_pow_eq_ofDigits_take size (by norm_num) _ (repr.bytes scalar),
      repr.littleEndian, whole]
  have upper : Nat.ofDigits 256 (((repr.toRepr scalar).take size).drop used) = 0 := by
    apply of_digits_zero_iff.mpr
    intro i
    rw [getD_eq_getElem?_getD, getElem?_drop, getElem?_take]
    split_ifs with inside
    · rw [← getD_eq_getElem?_getD]
      exact unused _ (Nat.le_add_right used i) inside
    · rfl
  have digits : ∀ byte ∈ (repr.toRepr scalar).take size, byte < 256 := fun byte inTaken =>
    repr.bytes scalar byte (mem_of_mem_take inTaken)
  have quotient := Nat.ofDigits_div_pow_eq_ofDigits_drop used (by norm_num : 0 < 256) _ digits
  rw [taken, upper] at quotient
  exact (Nat.div_eq_zero_iff_lt (Nat.pow_pos (by norm_num))).mp quotient

theorem max_byte_size_zero_iff (coeffs : List Scalar) :
    maxByteSize (fieldByteSize repr) (coeffs.map repr.toRepr) = 0 ↔
      ∀ scalar ∈ coeffs, repr.value scalar = 0 := by
  constructor
  · intro none scalar mem
    have below := value_lt_max repr mem
    rw [none, pow_zero] at below
    exact Nat.lt_one_iff.mp below
  · intro zeros
    let mask := (coeffs.map repr.toRepr).foldl orBytes (replicate (fieldByteSize repr) 0)
    have maskLength : mask.length = fieldByteSize repr := by
      rw [or_all_length, length_replicate]
    have zeroBytes : ∀ scalar ∈ coeffs, ∀ i, (repr.toRepr scalar).getD i 0 = 0 :=
      fun scalar mem =>
        of_digits_zero_iff.mp ((repr.littleEndian scalar).trans (zeros scalar mem))
    have empty : ∀ v ∈ mask.reverse, v = 0 := by
      intro v mem
      rcases getElem_of_mem (mem_reverse.mp mem) with ⟨i, inside, rfl⟩
      rw [← getD_eq_getElem mask 0 inside]
      apply (or_all_zero_iff _ (by rwa [length_replicate, ← maskLength])).mpr
      refine ⟨?_, ?_⟩
      · rw [maskLength] at inside
        exact getD_replicate 0 inside
      · intro coeff inCoeffs
        rcases mem_map.mp inCoeffs with ⟨scalar, inScalars, rfl⟩
        exact zeroBytes scalar inScalars i
    have absent : mask.reverse.findIdx? (fun v => decide (v ≠ 0)) = none := by
      rw [findIdx?_eq_none_iff]
      intro v mem
      rw [empty v mem]
      rfl
    show fieldByteSize repr - (mask.reverse.findIdx? fun v => decide (v ≠ 0)).getD _ = 0
    rw [absent, Option.getD_none, Nat.sub_self]

end Bytes

section Serial

variable {Scalar G : Type} [AddCommGroup G]

theorem double_iterate (count : Nat) (point : G) :
    double^[count] point = 2 ^ count • point := by
  induction count with
  | zero => rw [Function.iterate_zero_apply, pow_zero, one_smul]
  | succ count ih =>
    rw [Function.iterate_succ_apply', ih, double, pow_succ', mul_smul, two_smul]

namespace SerialBucket

def point : SerialBucket G → G
  | none => 0
  | affine a => a
  | projective a => a

theorem add_assign_point (bucket : SerialBucket G) (other : G) :
    (bucket.addAssign other).point = bucket.point + other := by
  cases bucket with
  | none => exact (zero_add other).symm
  | affine a => rfl
  | projective a => rfl

theorem add_eq (bucket : SerialBucket G) (other : G) : bucket.add other = other + bucket.point := by
  cases bucket with
  | none => exact (add_zero other).symm
  | affine a => rfl
  | projective a => rfl

end SerialBucket

def serialTotal (buckets : List (SerialBucket G)) : G :=
  weighted buckets.length fun i => (buckets.map SerialBucket.point).getD i 0

variable {buckets : List (SerialBucket G)} {currentWindow c : Nat}

theorem add_to_bucket_total {place : Nat} (inside : place < buckets.length) (other : G) :
    ∃ result, addToBucket buckets place other = some result ∧ result.length = buckets.length ∧
      serialTotal result = serialTotal buckets + (place + 1) • other := by
  refine ⟨buckets.set place (buckets[place].addAssign other), ?_, length_set, ?_⟩
  · rw [addToBucket, getElem?_eq_getElem inside, Option.map_some]
  · unfold serialTotal
    rw [length_set]
    apply weighted_grow inside
    · rw [map_set, getD_eq_getElem _ _ (by simpa using inside),
        getD_eq_getElem _ _ (by simpa using inside), getElem_set_self, getElem_map,
        SerialBucket.add_assign_point]
    · intro i other
      rw [map_set, getD_eq_getElem?_getD, getD_eq_getElem?_getD, getElem?_set_ne (Ne.symm other)]

theorem serial_entry_total (length : buckets.length = 2 ^ (c - 1)) {entry : List Nat × G}
    (bound : (getBoothIndex currentWindow c entry.1).natAbs ≤ 2 ^ (c - 1)) :
    ∃ result, serialEntry currentWindow c buckets entry = some result ∧
      result.length = 2 ^ (c - 1) ∧
      serialTotal result =
        serialTotal buckets + getBoothIndex currentWindow c entry.1 • entry.2 := by
  unfold serialEntry
  generalize getBoothIndex currentWindow c entry.1 = digit at bound ⊢
  dsimp only
  rcases lt_trichotomy digit 0 with negative | zero | pos
  · have inside : digit.natAbs - 1 < buckets.length := by omega
    rcases add_to_bucket_total inside (-entry.2) with ⟨result, added, resultLength, total⟩
    have place : digit.natAbs - 1 + 1 = digit.natAbs := by omega
    have value : digit = -(digit.natAbs : Int) := by omega
    refine ⟨result, ?_, by omega, ?_⟩
    · rw [if_neg (by omega), if_pos negative, added]
    · rw [total, place]
      nth_rewrite 2 [value]
      rw [neg_smul, natCast_zsmul, smul_neg]
  · refine ⟨buckets, ?_, length, ?_⟩
    · rw [if_neg (by omega), if_neg (by omega)]
    · rw [zero, zero_smul, add_zero]
  · have inside : digit.toNat - 1 < buckets.length := by omega
    rcases add_to_bucket_total inside entry.2 with ⟨result, added, resultLength, total⟩
    have place : digit.toNat - 1 + 1 = digit.toNat := by omega
    have value : digit = (digit.toNat : Int) := by omega
    refine ⟨result, ?_, by omega, ?_⟩
    · rw [if_pos pos, added]
    · rw [total, place]
      nth_rewrite 2 [value]
      rw [natCast_zsmul]

section

variable {entries : List (List Nat × G)}
  (bounds : ∀ entry ∈ entries, (getBoothIndex currentWindow c entry.1).natAbs ≤ 2 ^ (c - 1))

include bounds

theorem serial_entries_total (length : buckets.length = 2 ^ (c - 1)) :
    ∃ result, entries.foldlM (serialEntry currentWindow c) buckets = some result ∧
      result.length = 2 ^ (c - 1) ∧ serialTotal result = serialTotal buckets +
        (entries.map fun entry => getBoothIndex currentWindow c entry.1 • entry.2).sum := by
  induction entries generalizing buckets with
  | nil => exact ⟨buckets, rfl, length, by rw [map_nil, sum_nil, add_zero]⟩
  | cons entry entries ih =>
    rcases serial_entry_total length (bounds entry mem_cons_self) with
      ⟨next, step, nextLength, nextTotal⟩
    rcases ih (forall_mem_cons.mp bounds).2
      nextLength with ⟨result, run, resultLength, total⟩
    refine ⟨result, ?_, resultLength, ?_⟩
    · rw [foldlM_cons, step]
      exact run
    · rw [total, nextTotal, map_cons, sum_cons, add_assoc]

theorem serial_window_eq (acc : G) :
    serialWindow c entries acc currentWindow = some (2 ^ c • acc +
      (entries.map fun entry => getBoothIndex currentWindow c entry.1 • entry.2).sum) := by
  let start : List (SerialBucket G) := replicate (1 <<< (c - 1)) SerialBucket.none
  have startLength : start.length = 2 ^ (c - 1) := by
    rw [length_replicate, Nat.one_shiftLeft]
  have startTotal : serialTotal start = 0 := by
    unfold serialTotal
    have empty : (fun i => (start.map SerialBucket.point).getD i 0) = fun _ => (0 : G) := by
      funext i
      rw [map_replicate, getD_eq_getElem?_getD, getElem?_replicate]
      split_ifs <;> rfl
    rw [empty, weighted_zero]
  rcases serial_entries_total bounds startLength with ⟨buckets, run, length, total⟩
  have running : buckets.reverse.foldl (fun state exp =>
      (SerialBucket.add exp state.1, state.2 + SerialBucket.add exp state.1))
        ((0 : G), double^[c] acc) =
      (buckets.map SerialBucket.point).reverse.foldl addRunning (0, double^[c] acc) := by
    rw [← map_reverse, foldl_map]
    congr 1
    funext state exp
    rw [SerialBucket.add_eq]
    rfl
  unfold serialWindow
  rw [show entries.foldlM (serialEntry currentWindow c)
    (replicate (1 <<< (c - 1)) SerialBucket.none) = some buckets from run]
  show some _ = some _
  rw [running, fold_running, smul_zero, add_zero, length_map, double_iterate]
  rw [startTotal, zero_add] at total
  exact congrArg (fun sum => some (2 ^ c • acc + sum)) total

end

/-- Each base as often as the value of its scalar. -/
def msmSum (repr : ScalarRepr Scalar) (coeffs : List Scalar) (bases : List G) : G :=
  ((coeffs.zip bases).map fun entry => repr.value entry.1 • entry.2).sum

/-- The cast leaves a length with a window, or there is nothing to do. -/
def WindowAvailable (repr : ScalarRepr Scalar) (coeffs : List Scalar) (bases : List G) : Prop :=
  ¬(32 ≤ bases.length ∧ bases.length % 2 ^ 32 < 2) ∨ ∀ scalar ∈ coeffs, repr.value scalar = 0

theorem digit_of_scalar (repr : ScalarRepr Scalar) (pos : 0 < c) (fits : c ≤ 24)
    (currentWindow : Nat) (scalar : Scalar) :
    getBoothIndex currentWindow c (repr.toRepr scalar) =
      boothDigit currentWindow c (repr.value scalar) := by
  rw [get_booth_index_eq (repr.bytes scalar) pos fits, repr.littleEndian]

theorem recombines_within {value bits : Nat} (bounded : value < 2 ^ bits) (pos : 0 < c) :
    2 * value < 2 ^ (c * (bits / c + 1)) :=
  calc 2 * value < 2 ^ (bits + 1) := by
        rw [pow_succ]
        omega
    _ ≤ 2 ^ (c * (bits / c + 1)) :=
        Nat.pow_le_pow_right Nat.two_pos (Nat.lt_mul_div_succ bits pos)

section

variable (repr : ScalarRepr Scalar)

include repr

theorem windows_sum {windows : Nat} (pos : 0 < c) (fits : c ≤ 24) {entries : List (Scalar × G)}
    (enough : ∀ entry ∈ entries, 2 * repr.value entry.1 < 2 ^ (c * windows)) :
    ∑ w ∈ Finset.range windows, 2 ^ (c * w) •
        (entries.map fun entry => getBoothIndex w c (repr.toRepr entry.1) • entry.2).sum =
      (entries.map fun entry => repr.value entry.1 • entry.2).sum := by
  induction entries with
  | nil => simp
  | cons entry entries ih =>
    have recombined := booth_digits_recombine (enough entry mem_cons_self)
    have scalar : ∑ w ∈ Finset.range windows, 2 ^ (c * w) •
        getBoothIndex w c (repr.toRepr entry.1) • entry.2 = repr.value entry.1 • entry.2 := by
      rw [← natCast_zsmul, ← recombined, Finset.sum_smul]
      apply Finset.sum_congr rfl
      intro w _
      rw [digit_of_scalar repr pos fits, mul_smul, ← natCast_zsmul, Nat.cast_pow, Nat.cast_ofNat]
    simp only [map_cons, sum_cons, smul_add, Finset.sum_add_distrib]
    rw [scalar, ih (forall_mem_cons.mp enough).2]

theorem sum_of_zeros {coeffs : List Scalar} (bases : List G)
    (zeros : ∀ scalar ∈ coeffs, repr.value scalar = 0) : msmSum repr coeffs bases = 0 := by
  unfold msmSum
  apply sum_eq_zero
  intro term mem
  rcases mem_map.mp mem with ⟨entry, inZip, rfl⟩
  rw [zeros entry.1 (of_mem_zip inZip).1, zero_smul]

theorem msm_serial_eq (coeffs : List Scalar) (bases : List G) :
    (WindowAvailable repr coeffs bases →
      msmSerial repr coeffs bases 0 = some (msmSum repr coeffs bases)) ∧
      (¬WindowAvailable repr coeffs bases → msmSerial repr coeffs bases 0 = none) := by
  unfold msmSerial WindowAvailable
  dsimp only
  rw [← max_byte_size_zero_iff, ← window_size_zero_iff]
  by_cases unused : maxByteSize (fieldByteSize repr) (coeffs.map repr.toRepr) = 0
  · refine ⟨fun _ => ?_, fun missing => absurd (Or.inr unused) missing⟩
    rw [if_pos unused, sum_of_zeros repr bases ((max_byte_size_zero_iff repr coeffs).mp unused)]
  · by_cases noWindow : windowSize bases.length = 0
    · refine ⟨fun available => absurd available (not_or.mpr ⟨not_not.mpr noWindow, unused⟩), ?_⟩
      intro _
      rw [if_neg unused, if_pos noWindow]
    · refine ⟨fun _ => ?_, fun missing => absurd (Or.inl noWindow) missing⟩
      rw [if_neg unused, if_neg noWindow]
      have fits : windowSize bases.length ≤ 24 := (window_size_le _).trans (by omega)
      have pos := Nat.pos_of_ne_zero noWindow
      generalize windowSize bases.length = c at fits pos
      generalize used : maxByteSize (fieldByteSize repr) (coeffs.map repr.toRepr) = bytes
      have entries : (coeffs.map repr.toRepr).zip bases =
          (coeffs.zip bases).map fun entry => (repr.toRepr entry.1, entry.2) := by
        rw [zip_map_left]
        rfl
      have bounds : ∀ w, ∀ entry ∈ (coeffs.map repr.toRepr).zip bases,
          (getBoothIndex w c entry.1).natAbs ≤ 2 ^ (c - 1) := by
        intro w entry mem
        rcases mem_map.mp (of_mem_zip mem).1 with ⟨scalar, -, bytesEq⟩
        rw [← bytesEq, digit_of_scalar repr pos fits]
        exact booth_digit_bound pos _ _
      have run := fold_windows c (fun w => (((coeffs.map repr.toRepr).zip bases).map fun entry =>
        getBoothIndex w c entry.1 • entry.2).sum) (bytes * 8 / c + 1) 0
        (serialWindow c ((coeffs.map repr.toRepr).zip bases))
        fun current w _ => serial_window_eq (bounds w) current
      have enough : ∀ entry ∈ coeffs.zip bases,
          2 * repr.value entry.1 < 2 ^ (c * (bytes * 8 / c + 1)) := by
        intro entry mem
        have below := value_lt_max repr (of_mem_zip mem).1
        have base : 256 ^ bytes = 2 ^ (bytes * 8) := by
          rw [Nat.mul_comm, pow_mul]
          norm_num
        rw [used, base] at below
        exact recombines_within below pos
      have recombined := windows_sum repr pos fits enough
      rw [run, smul_zero, zero_add, entries]
      simp only [map_map, Function.comp_def]
      rw [recombined]
      rfl

theorem chunks_zip_sum {size : Nat} (pos : 0 < size) (coeffs : List Scalar) (bases : List G)
    (same : coeffs.length = bases.length) :
    (((chunks size coeffs).zip (chunks size bases)).map fun block =>
      msmSum repr block.1 block.2).sum = msmSum repr coeffs bases := by
  induction coeffs using chunks.induct size generalizing bases with
  | case1 coeffs stop =>
    have empty := stop.resolve_right (Nat.pos_iff_ne_zero.mp pos)
    rw [chunks, if_pos stop, empty]
    rfl
  | case2 coeffs going ih =>
    have nonempty := (not_or.mp going).1
    have basesNonempty : bases ≠ [] := by
      apply ne_nil_of_length_pos
      rw [← same]
      exact length_pos_of_ne_nil nonempty
    have rest := ih (bases.drop size) (by rw [length_drop, length_drop, same])
    have split : msmSum repr coeffs bases = msmSum repr (coeffs.take size) (bases.take size) +
        msmSum repr (coeffs.drop size) (bases.drop size) := by
      unfold msmSum
      rw [← sum_append, ← map_append, ← zip_append (by
        rw [length_take, length_take, same]), take_append_drop,
        take_append_drop]
    have first : chunks size coeffs = coeffs.take size :: chunks size (coeffs.drop size) := by
      rw [chunks, if_neg going]
    have second : chunks size bases = bases.take size :: chunks size (bases.drop size) := by
      rw [chunks, if_neg (not_or.mpr ⟨basesNonempty, (not_or.mp going).2⟩)]
    rw [first, second, zip_cons_cons, map_cons, sum_cons, rest, split]

end

/-- Every run of the serial algorithm has a window. -/
def ParallelAvailable (repr : ScalarRepr Scalar) (numThreads : Nat) (coeffs : List Scalar)
    (bases : List G) : Prop :=
  if numThreads < coeffs.length then
    ∀ block ∈ (chunks (coeffs.length / numThreads) coeffs).zip
      (chunks (coeffs.length / numThreads) bases), WindowAvailable repr block.1 block.2
  else WindowAvailable repr coeffs bases

theorem msm_parallel_eq (repr : ScalarRepr Scalar) {numThreads : Nat} (pos : 0 < numThreads)
    {coeffs : List Scalar} {bases : List G} (same : coeffs.length = bases.length) :
    (ParallelAvailable repr numThreads coeffs bases →
      msmParallel repr numThreads coeffs bases = some (msmSum repr coeffs bases)) ∧
      (¬ParallelAvailable repr numThreads coeffs bases →
        msmParallel repr numThreads coeffs bases = none) := by
  unfold msmParallel ParallelAvailable
  rw [if_neg (not_not.mpr same)]
  by_cases many : numThreads < coeffs.length
  · rw [if_pos many, if_pos many]
    have size : 0 < coeffs.length / numThreads := Nat.div_pos many.le pos
    constructor
    · intro available
      have results := @map_m_of_forall (List Scalar × List G) G Option _ _
        (fun block => msmSerial repr block.1 block.2 0) (fun block => msmSum repr block.1 block.2)
        ((chunks (coeffs.length / numThreads) coeffs).zip
          (chunks (coeffs.length / numThreads) bases))
        fun block mem => (msm_serial_eq repr block.1 block.2).1 (available block mem)
      dsimp only
      rw [results]
      show some _ = some _
      rw [← sum_eq_foldl, chunks_zip_sum repr size coeffs bases same]
    · intro missing
      push Not at missing
      rcases missing with ⟨block, mem, unavailable⟩
      dsimp only
      cases ran : ((chunks (coeffs.length / numThreads) coeffs).zip
          (chunks (coeffs.length / numThreads) bases)).mapM fun block =>
            msmSerial repr block.1 block.2 0 with
      | none => rfl
      | some results =>
        rcases map_m_returns ran mem with ⟨result, returned, -⟩
        rw [(msm_serial_eq repr block.1 block.2).2 unavailable] at returned
        cases returned
  · rw [if_neg many, if_neg many]
    exact msm_serial_eq repr coeffs bases

end Serial

end Midfall.CurveMsm
