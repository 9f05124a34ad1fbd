import Midfall.BigUintProducts

/-!
# Selection, constants, bits and bytes

Limbs and their digits are two readings of one integer: ninety-six bits or
twelve bytes make a limb.
-/

namespace Midfall.BigUint

open CircuitPrograms NativeGadget NativeDecomposition List
open CellPrograms ProofReadOrder
open ListLoops (forall₂_mem_left)

variable {modulus : Nat} [Fact modulus.Prime] {cells : List (ZMod modulus)}

theorem zip_with_merged {operation : Nat → Nat → Nat} {firsts seconds : List Nat}
    (length : firsts.length = seconds.length) :
    firsts.zipWith operation seconds = merged operation firsts seconds := by
  have whole := merged_eq operation firsts seconds
  rw [length, Nat.min_self, drop_length, append_nil, ← length, drop_length, append_nil] at whole
  exact whole

theorem largest_pad (bounds : List Nat) (count : Nat) :
    largest (bounds ++ replicate count 0) = largest bounds := by
  unfold largest
  rw [map_append, map_replicate]
  exact of_limbs_pad _ _

theorem small_max_left {digits bounds others : List Nat} (length : bounds.length = others.length)
    (small : Forall₂ (fun digit bound => digit < 2 ^ bound) digits bounds) :
    Forall₂ (fun digit bound => digit < 2 ^ bound) digits (bounds.zipWith max others) := by
  induction small generalizing others with
  | nil => exact Forall₂.nil
  | @cons digit bound digits bounds below _ ih =>
    cases others with
    | nil => cases length
    | cons other others =>
      rw [zipWith_cons_cons]
      refine Forall₂.cons ?_ (ih (Nat.succ.inj length))
      exact lt_of_lt_of_le below (Nat.pow_le_pow_right (by decide) (Nat.le_max_left _ _))

theorem small_max_right {digits bounds others : List Nat} (length : others.length = bounds.length)
    (small : Forall₂ (fun digit bound => digit < 2 ^ bound) digits bounds) :
    Forall₂ (fun digit bound => digit < 2 ^ bound) digits (others.zipWith max bounds) := by
  rw [zipWith_comm_of_comm max_comm]
  exact small_max_left length.symm small

theorem digits_transfer {earlier : List (ZMod modulus)} {limbs results : List (AssignedNative modulus)}
    {digits : List Nat} (hold : Forall₂ (IsDigit earlier) limbs digits)
    (same : Forall₂ (fun limb result => result.value = limb.value ∧ Holds cells result)
      limbs results) : Forall₂ (IsDigit cells) results digits := by
  induction hold generalizing results with
  | nil =>
    cases same
    exact Forall₂.nil
  | cons isDigit _ ih =>
    cases same with
    | cons here rest => exact Forall₂.cons ⟨here.1.trans isDigit.1, here.2⟩ (ih rest)

omit [Fact modulus.Prime] in
theorem select_bounds {x y : AssignedBigUint modulus} {m n : Nat} (first : Number cells x m)
    (second : Number cells y n) {count : Nat} (isMax : count = max x.limbs.length y.limbs.length) :
    Reaches (merged max (x.limbSizeBounds ++ replicate (count - x.limbs.length) 0)
      (y.limbSizeBounds ++ replicate (count - y.limbs.length) 0)) := by
  have lengths := And.intro first.lengths second.lengths
  have larger := largest_merged (fun first second =>
    And.intro (Nat.le_max_left first second) (Nat.le_max_right first second))
    (x.limbSizeBounds ++ replicate (count - x.limbs.length) 0)
    (y.limbSizeBounds ++ replicate (count - y.limbs.length) 0)
  rw [largest_pad, largest_pad] at larger
  have length := merged_length max (x.limbSizeBounds ++ replicate (count - x.limbs.length) 0)
    (y.limbSizeBounds ++ replicate (count - y.limbs.length) 0)
  rw [length_append, length_append, length_replicate, length_replicate] at length
  rcases Nat.le_total x.limbs.length y.limbs.length with shorter | longer
  · exact second.reaches.mono (by omega) larger.2
  · exact first.reaches.mono (by omega) larger.1

theorem exact_select {cond : AssignedNative modulus} {value : Bool} {x y : AssignedBigUint modulus}
    {m n : Nat} (isBit : IsBit cells cond value) (first : Number cells x m)
    (second : Number cells y n) (wide : log2Base < modulus.size) :
    Exact (select cond x y) cells fun z cells => Number cells z (if value then m else n) := by
  have lengths := And.intro first.lengths second.lengths
  unfold select
  dsimp only
  generalize isMax : max x.limbs.length y.limbs.length = count
  have firstResize := @exact_resize _ _ _ _ _ count first.represents
    (by rw [length_map]; omega)
  rw [length_map] at firstResize
  refine firstResize.bind fun padded added isFirst => ?_
  have secondResize := @exact_resize _ _ _ _ _ count (second.append added).represents
    (by rw [length_map]; omega)
  rw [length_map] at secondResize
  refine secondResize.bind fun other more isSecond => ?_
  have limbs := @exact_loop _ _ _ ((cells ++ added) ++ more)
    (fun pair : AssignedNative modulus × AssignedNative modulus =>
      fillCell (NativeGadget.select cond.value pair.1.value pair.2.value))
    (fun pair limb after => limb.value = (if value then pair.1.value else pair.2.value) ∧
      Holds after limb)
    (fun pair limb after added holds => ⟨holds.1, holds.2.append added⟩)
    (padded.limbs.zip other.limbs) fun pair _ added => by
      have computes := computes_select value pair.1.value pair.2.value
      rw [← isBit.1] at computes
      exact exact_fill computes
  refine limbs.returning fun results last holds => ?_
  have boundLengths := And.intro isFirst.1.lengths isSecond.1.lengths
  have bounds : padded.limbSizeBounds.length = other.limbSizeBounds.length := by
    rw [isFirst.2, isSecond.2, length_append, length_append, length_replicate, length_replicate]
    omega
  have sameLength : padded.limbs.length = other.limbs.length := by omega
  have small : ∀ bound ∈ merged max padded.limbSizeBounds other.limbSizeBounds, bound ≤ log2Base := by
    have each : ∀ {z : AssignedBigUint modulus} {value : Nat}, Number cells z value →
        ∀ bound ∈ z.limbSizeBounds ++ replicate (count - z.limbs.length) 0, bound ≤ log2Base := by
      intro z value number bound mem
      rcases mem_append.mp mem with own | zero
      · exact number.bounds bound own
      · rw [eq_of_mem_replicate zero]
        exact Nat.zero_le _
    rw [isFirst.2, isSecond.2, ← zip_with_merged (by rw [← isFirst.2, ← isSecond.2, bounds])]
    intro bound mem
    rcases mem_iff_getElem.mp mem with ⟨position, inside, rfl⟩
    rw [getElem_zipWith]
    exact Nat.max_le.mpr ⟨each first _ (getElem_mem _), each second _ (getElem_mem _)⟩
  have reaches := select_bounds first second isMax.symm
  rw [← isFirst.2, ← isSecond.2] at reaches
  rw [zip_with_merged bounds]
  have views := And.intro (@map_fst_zip _ _ padded.limbs other.limbs (by omega))
    (@map_snd_zip _ _ padded.limbs other.limbs (by omega))
  have number : ∀ {earlier : List (ZMod modulus)} {limbs : List (AssignedNative modulus)} {digits : List Nat},
      Forall₂ (IsDigit earlier) limbs digits → Forall₂ (fun limb result => result.value = limb.value ∧
        Holds (((cells ++ added) ++ more) ++ last) result) limbs results →
      Forall₂ (fun digit bound => digit < 2 ^ bound) digits
        (padded.limbSizeBounds.zipWith max other.limbSizeBounds) →
      Number (((cells ++ added) ++ more) ++ last)
        (AssignedBigUint.mk results (merged max padded.limbSizeBounds other.limbSizeBounds))
        (ofLimbs digits) := fun isDigits same below =>
    Represents.number ⟨digits_transfer isDigits same, zip_with_merged bounds ▸ below⟩ wide small reaches
  cases value with
  | true =>
    have chosen := number isFirst.1.limbs (by
      rw [← views.1, forall₂_map_left_iff]
      exact holds) (small_max_left bounds isFirst.1.bounds)
    rw [of_limbs_pad, ← value_eq, first.value] at chosen
    exact chosen
  | false =>
    have chosen := number isSecond.1.limbs (by
      rw [← views.2, forall₂_map_left_iff]
      exact holds) (small_max_right bounds isSecond.1.bounds)
    rw [of_limbs_pad, ← value_eq, second.value] at chosen
    exact chosen

theorem big_to_limbs_full {count value : Nat} (small : value < base ^ count) :
    ∃ limbs, bigToLimbs count value = some limbs ∧ ofLimbs limbs = value ∧
      ∀ limb ∈ limbs, limb < base := by
  induction count generalizing value with
  | zero =>
    have zero : value = 0 := by
      rw [pow_zero] at small
      omega
    exact ⟨[], by rw [bigToLimbs, if_pos zero], zero.symm, fun limb mem =>
      absurd mem not_mem_nil⟩
  | succ count ih =>
    have pos : 0 < base := Nat.two_pow_pos _
    have quotient : value / base < base ^ count := by
      rw [Nat.div_lt_iff_lt_mul pos, ← pow_succ]
      exact small
    rcases ih quotient with ⟨limbs, found, total, inBase⟩
    refine ⟨value % base :: limbs, by rw [bigToLimbs, found, Option.map_some], ?_, ?_⟩
    · rw [of_limbs_cons, total, Nat.mod_add_div]
    · rw [forall_mem_cons]
      exact ⟨Nat.mod_lt _ pos, inBase⟩

theorem constant_limbs (constant : Nat) :
    (biguintToLimbs constant).length = limbsOf constant ∧
      ofLimbs (biguintToLimbs constant) = constant ∧
        ∀ limb ∈ biguintToLimbs constant, limb < base := by
  rcases big_to_limbs_full (limbs_enough constant) with ⟨limbs, found, total, inBase⟩
  have same : biguintToLimbs constant = limbs := by
    unfold biguintToLimbs
    unfold limbsOf at found
    rw [found, Option.getD_some]
  rw [same]
  exact ⟨big_to_limbs_length found, total, inBase⟩

theorem more_limbs {constant count : Nat} (more : count < limbsOf constant) :
    base ^ count ≤ constant := by
  unfold base
  rw [← pow_mul]
  refine Nat.lt_size.mp ?_
  unfold limbsOf log2Base at more
  unfold log2Base
  omega

variable {x : AssignedBigUint modulus} {n width perLimb : Nat}

omit [Fact modulus.Prime] in
theorem Number.below (number : Number cells x n) :
    (∀ digit ∈ x.limbs.map fun limb => limb.value.val, digit < base) ∧ n < base ^ x.limbs.length := by
  have inBase : ∀ digit ∈ x.limbs.map fun limb => limb.value.val, digit < base := by
    intro digit mem
    rcases mem_map.mp mem with ⟨limb, inside, rfl⟩
    rcases forall₂_mem_left number.limbs inside with ⟨bound, isBound, -, small⟩
    exact lt_of_lt_of_le small (Nat.pow_le_pow_right (by decide) (number.bounds bound isBound))
  have total := of_limbs_lt inBase
  rw [length_map, ← value_eq, number.value] at total
  exact ⟨inBase, total⟩

theorem exact_is_equal_to_fixed {constant : Nat} (number : Number cells x n)
    (wide : log2Base < modulus.size) (present : x.limbs ≠ [] ∨ constant ≠ 0) :
    Exact (isEqualToFixed x constant) cells fun result cells =>
      IsBit cells result (decide (n = constant)) := by
  rcases constant_limbs constant with ⟨length, total, inBase⟩
  have below := number.below
  unfold isEqualToFixed
  refine (exact_normalized number).bind fun _ added _ => ?_
  dsimp only
  rw [length]
  split_ifs with short
  · have larger := more_limbs short
    rw [decide_eq_false (by omega : n ≠ constant)]
    exact exact_constant (0 : ZMod modulus)
  · generalize isPadded : biguintToLimbs constant ++
      replicate (x.limbs.length - limbsOf constant) 0 = padded
    have paddedLength : padded.length = x.limbs.length := by
      rw [← isPadded, length_append, length_replicate, length]
      omega
    have paddedTotal : ofLimbs padded = constant := by rw [← isPadded, of_limbs_pad, total]
    have paddedBase : ∀ limb ∈ padded, limb < base := by
      intro limb mem
      rw [← isPadded] at mem
      rcases mem_append.mp mem with own | zero
      · exact inBase limb own
      · rw [eq_of_mem_replicate zero]
        exact Nat.two_pow_pos _
    have bits := @exact_loop _ _ _ (cells ++ added)
      (fun pair : AssignedNative modulus × Nat =>
        fillCell (NativeGadget.isEqualToFixed pair.1.value ((pair.2 : Nat) : ZMod modulus)))
      (fun pair result after => IsBit after result
        (decide (pair.1.value = ((pair.2 : Nat) : ZMod modulus))))
      (fun pair result after more holds => holds.append more) (x.limbs.zip padded)
      fun pair _ more => exact_fill (computes_is_equal_to_fixed _ _)
    refine bits.bind fun results more all => ?_
    have hold : Forall₂ (IsBit ((cells ++ added) ++ more)) results
        ((x.limbs.zip padded).map fun pair => decide (pair.1.value = ((pair.2 : Nat) : ZMod modulus))) := by
      rw [forall₂_map_right_iff]
      exact all.flip
    have nonempty : results ≠ [] := by
      intro empty
      have count := all.length_eq
      rw [empty, length_nil, length_zip, paddedLength, Nat.min_self] at count
      have nil := length_eq_zero_iff.mp count
      refine present.elim (fun some => some nil) fun pos => pos ?_
      rw [nil, length_nil, Nat.not_lt, Nat.le_zero] at short
      have small := limbs_enough constant
      rw [short, pow_zero] at small
      omega
    have fits : base ≤ modulus := pow_le_modulus wide
    have agree : (∀ pair ∈ x.limbs.zip padded, pair.1.value = ((pair.2 : Nat) : ZMod modulus)) ↔
        (x.limbs.map fun limb => limb.value.val) = padded := by
      rw [← forall₂_eq_eq_eq, forall₂_map_left_iff, forall₂_iff_zip]
      constructor
      · intro each
        refine ⟨paddedLength.symm, fun {limb digit} mem => ?_⟩
        have small := paddedBase digit (of_mem_zip mem).2
        rw [each _ mem, val_natCast_lt (lt_of_lt_of_le small fits)]
      · intro each pair mem
        rw [← each.2 mem, ZMod.natCast_zmod_val]
    have integers : n = constant ↔ (x.limbs.map fun limb => limb.value.val) = padded := by
      rw [← number.value, value_eq, ← paddedTotal]
      constructor
      · exact Nat.ofDigits_inj_of_len_eq (by decide) (by rw [length_map, paddedLength]) below.1
          paddedBase
      · exact fun same => congrArg ofLimbs same
    have same : (((x.limbs.zip padded).map fun pair =>
        decide (pair.1.value = ((pair.2 : Nat) : ZMod modulus))).all id) = decide (n = constant) := by
      rw [Bool.eq_iff_iff, decide_eq_true_iff, integers, ← agree, all_map, all_eq_true]
      simp only [Function.comp_apply, id_eq, decide_eq_true_iff]
    rw [← same]
    exact exact_and hold nonempty

theorem exact_is_not_equal {y : AssignedBigUint modulus} {m : Nat} (first : Number cells x m)
    (second : Number cells y n) (wide : log2Base < modulus.size)
    (present : x.limbs ≠ [] ∨ y.limbs ≠ []) :
    Exact (isNotEqual x y) cells fun result cells => IsBit cells result (! decide (m = n)) :=
  (exact_is_equal first second wide present).bind fun _ _ isBit => exact_not isBit

theorem exact_is_not_equal_to_fixed {constant : Nat} (number : Number cells x n)
    (wide : log2Base < modulus.size) (present : x.limbs ≠ [] ∨ constant ≠ 0) :
    Exact (isNotEqualToFixed x constant) cells fun result cells =>
      IsBit cells result (! decide (n = constant)) :=
  (exact_is_equal_to_fixed number wide present).bind fun _ _ isBit => exact_not isBit

/-- The lowest digits of an integer, each of some bits. -/
def lowDigits (width count value : Nat) : List Nat :=
  decomposeInVariableLimbsizes value (replicate count width)

theorem low_digits_succ (width count value : Nat) :
    lowDigits width (count + 1) value =
      value % 2 ^ width :: lowDigits width count (value / 2 ^ width) := by
  unfold lowDigits
  rw [replicate_succ, decomposeInVariableLimbsizes, Nat.shiftRight_eq_div_pow]

theorem low_digits_append (width count more limb rest : Nat) (small : limb < 2 ^ (width * count)) :
    lowDigits width (count + more) (limb + 2 ^ (width * count) * rest) =
      lowDigits width count limb ++ lowDigits width more rest := by
  induction count generalizing limb with
  | zero =>
    rw [Nat.mul_zero, pow_zero] at small
    rw [Nat.mul_zero, pow_zero, Nat.one_mul, Nat.zero_add, Nat.eq_zero_of_le_zero (Nat.le_of_lt_succ small),
      Nat.zero_add]
    rfl
  | succ count ih =>
    have split : 2 ^ (width * (count + 1)) = 2 ^ width * 2 ^ (width * count) := by
      rw [← pow_add]
      congr 1
      ring
    have pos := Nat.two_pow_pos width
    have below : limb / 2 ^ width < 2 ^ (width * count) := by
      rw [Nat.div_lt_iff_lt_mul pos, Nat.mul_comm, ← split]
      exact small
    rw [Nat.add_right_comm, low_digits_succ, low_digits_succ, split, Nat.mul_assoc,
      Nat.add_mul_mod_self_left, Nat.add_mul_div_left _ _ pos, ih _ below]
    rfl

theorem limb_digits (whole : width * perLimb = log2Base) {limbs : List Nat}
    (small : ∀ limb ∈ limbs, limb < base) :
    (limbs.map (lowDigits width perLimb)).flatten =
      lowDigits width (perLimb * limbs.length) (ofLimbs limbs) := by
  induction limbs with
  | nil => rfl
  | cons limb limbs ih =>
    rw [forall_mem_cons] at small
    have power : base = 2 ^ (width * perLimb) := by rw [whole]; rfl
    rw [map_cons, flatten_cons, ih small.2, length_cons, of_limbs_cons, power,
      Nat.mul_succ, Nat.add_comm (perLimb * limbs.length),
      low_digits_append width perLimb _ limb _ (power ▸ small.1)]

theorem exact_digits {decompose : ZMod modulus → Circuit (List (ZMod modulus))}
    (number : Number cells x n) (whole : width * perLimb = log2Base)
    (computes : ∀ limb : ZMod modulus, limb.val < base → Computes (decompose limb)
      ((lowDigits width perLimb limb.val).map fun digit : Nat => (digit : ZMod modulus))) :
    Exact (x.limbs.mapM fun limb => fillCells (decompose limb.value)) cells fun digits cells =>
      Forall₂ (IsDigit cells) digits.flatten
        (lowDigits width (perLimb * x.limbs.length) n) := by
  have below := number.below.1
  have limbs := @exact_loop _ _ _ cells (fun limb : AssignedNative modulus =>
      fillCells (decompose limb.value))
    (fun limb digits after => Forall₂ (IsDigit after) digits
      (lowDigits width perLimb limb.value.val))
    (fun limb digits after added holds => digits_append holds added) x.limbs
    fun limb mem added => by
      have small := below limb.value.val (mem_map_of_mem mem)
      refine (exact_fill_cells (computes limb.value small)).weaken fun digits more all => ?_
      rw [forall₂_map_right_iff] at all
      exact all
  refine limbs.weaken fun digits added all => ?_
  have integers := limb_digits whole below
  rw [map_map, length_map, ← value_eq, number.value] at integers
  rw [← integers]
  refine rel_flatten ?_
  rw [forall₂_map_right_iff]
  exact all.flip

theorem computes_digits (pos : 0 < width) (whole : width * perLimb = log2Base)
    (wide : log2Base < modulus.size) (limb : ZMod modulus) (small : limb.val < base) :
    Computes (decomposeFixedLimbSize limb log2Base width)
      ((lowDigits width perLimb limb.val).map fun digit : Nat => (digit : ZMod modulus)) := by
  have fits : 2 ^ (width * perLimb) ≤ modulus := by
    rw [whole]
    exact pow_le_modulus wide
  have below : limb.val < 2 ^ (width * perLimb) := by
    rw [whole]
    exact small
  have computes := computes_decompose pos fits below
  rw [whole] at computes
  exact computes

theorem exact_to_le_bits (number : Number cells x n) (wide : log2Base < modulus.size) :
    Exact (toLeBits x) cells fun bits cells =>
      Forall₂ (IsDigit cells) bits (lowDigits 1 (log2Base * x.limbs.length) n) := by
  unfold toLeBits
  refine (exact_normalized number).bind fun _ added _ => ?_
  have computes : ∀ limb : ZMod modulus, limb.val < base →
      Computes (assignedToLeBits limb (some log2Base) true)
        ((lowDigits 1 log2Base limb.val).map fun digit : Nat => (digit : ZMod modulus)) := by
    intro limb small
    unfold assignedToLeBits
    dsimp only
    rw [Option.getD_some, if_neg (by omega)]
    refine (computes_digits Nat.one_pos (Nat.one_mul log2Base) wide limb small).bind ?_
    rw [if_neg fun both => absurd both.2 (Nat.ne_of_lt wide)]
    exact computes_pure _
  exact (exact_digits (number.append added) (Nat.one_mul log2Base) computes).returning
    fun bits more holds => holds

theorem exact_to_le_bytes (number : Number cells x n) (wide : log2Base < modulus.size) :
    Exact (toLeBytes x) cells fun bytes cells =>
      Forall₂ (IsDigit cells) bytes (lowDigits 8 (12 * x.limbs.length) n) := by
  unfold toLeBytes
  refine (exact_normalized number).bind fun _ added _ => ?_
  exact (exact_digits (number.append added) rfl fun limb small =>
    computes_digits (by decide) rfl wide limb small).returning fun bytes more holds => holds

theorem digits_lt {width : Nat} {digits : List Nat} (small : ∀ digit ∈ digits, digit < 2 ^ width) :
    Nat.ofDigits (2 ^ width) digits < 2 ^ (width * digits.length) := by
  induction digits with
  | nil => exact Nat.one_pos
  | cons digit digits ih =>
    rw [forall_mem_cons] at small
    have rest := ih small.2
    rw [Nat.ofDigits_cons, length_cons, Nat.mul_succ, pow_add]
    calc digit + 2 ^ width * Nat.ofDigits (2 ^ width) digits
        < 2 ^ width + 2 ^ width * Nat.ofDigits (2 ^ width) digits := by
          have first := small.1
          omega
      _ = 2 ^ width * (Nat.ofDigits (2 ^ width) digits + 1) := by ring
      _ ≤ 2 ^ width * 2 ^ (width * digits.length) := Nat.mul_le_mul_left _ rest
      _ = 2 ^ (width * digits.length) * 2 ^ width := Nat.mul_comm _ _

variable {digits : List (AssignedNative modulus)}

section

variable (factor : Nat) {values : List Nat} (hold : Forall₂ (IsDigit cells) digits values)

include factor hold

theorem weighted_digits (start : Nat) :
    (((digits.zipIdx start).map fun entry =>
      (((factor : Nat) : ZMod modulus) ^ entry.2, entry.1)).map
        fun term => term.1 * term.2.value).sum =
          ((factor ^ start * Nat.ofDigits factor values : Nat) : ZMod modulus) := by
  induction hold generalizing start with
  | nil => simp
  | @cons digit value digits values isDigit _ ih =>
    rw [zipIdx_cons, map_cons, map_cons, sum_cons, ih, isDigit.1, Nat.ofDigits_cons]
    push_cast
    ring

theorem exact_from_digits :
    Exact (fromDigits ((factor : Nat) : ZMod modulus) digits) cells fun limb cells =>
      IsDigit cells limb (Nat.ofDigits factor values) := by
  unfold fromDigits
  refine (exact_linear_combination _ _ ?_).weaken fun limb added holds => ⟨?_, holds.2⟩
  · intro term mem
    rcases mem_map.mp mem with ⟨entry, inside, rfl⟩
    rcases forall₂_mem_left hold (fst_mem_of_mem_zipIdx inside) with ⟨_, -, isDigit⟩
    exact isDigit.2
  · rw [holds.1, weighted_digits factor hold 0, pow_zero, Nat.one_mul, zero_add]

end

theorem chunk_bounds {Entry : Type} {size : Nat} (entries : List Entry) :
    ∀ chunk ∈ chunks size entries, 0 < chunk.length ∧ chunk.length ≤ size ∧
      ∀ entry ∈ chunk, entry ∈ entries := by
  induction entries using chunks.induct size with
  | case1 entries stop =>
    intro chunk mem
    rw [chunks, if_pos stop] at mem
    exact absurd mem not_mem_nil
  | case2 entries going ih =>
    intro chunk mem
    rw [chunks, if_neg going] at mem
    have nonempty := length_pos_of_ne_nil (not_or.mp going).1
    have pos := Nat.pos_of_ne_zero (not_or.mp going).2
    rcases mem_cons.mp mem with rfl | later
    · rw [length_take]
      exact ⟨by omega, by omega, fun entry inside => mem_of_mem_take inside⟩
    · rcases ih chunk later with ⟨some, short, inside⟩
      exact ⟨some, short, fun entry holds => mem_of_mem_drop (inside entry holds)⟩

theorem of_limbs_chunks (whole : width * perLimb = log2Base) (digits : List Nat) :
    ofLimbs ((chunks perLimb digits).map (Nat.ofDigits (2 ^ width))) =
      Nat.ofDigits (2 ^ width) digits := by
  have perLimbPositive : perLimb ≠ 0 := by
    rintro rfl
    rw [Nat.mul_zero] at whole
    exact absurd whole (by decide)
  induction digits using chunks.induct perLimb with
  | case1 digits stop =>
    rw [chunks, if_pos stop, stop.resolve_right perLimbPositive]
    rfl
  | case2 digits going ih =>
    rw [chunks, if_neg going, map_cons, of_limbs_cons, ih]
    by_cases short : digits.length ≤ perLimb
    · rw [drop_eq_nil_of_le short, take_of_length_le short, Nat.ofDigits_nil, Nat.mul_zero,
        Nat.add_zero]
    · have length : (digits.take perLimb).length = perLimb := by
        rw [length_take]
        omega
      have power : base = (2 ^ width) ^ perLimb := by
        rw [← pow_mul, whole]
        rfl
      conv_rhs => rw [← take_append_drop perLimb digits, Nat.ofDigits_append, length]
      rw [power]

theorem exact_from_chunks {width perLimb : Nat} (pos : 0 < width)
    (whole : width * perLimb = log2Base) (wide : log2Base < modulus.size)
    {digits : List (AssignedNative modulus)}
    (hold : ∀ digit ∈ digits, Holds cells digit ∧ digit.value.val < 2 ^ width) :
    Exact ((chunks perLimb digits).mapM (fromDigits ((2 ^ width : Nat) : ZMod modulus))) cells
      fun limbs cells => Number cells
        (AssignedBigUint.mk limbs ((chunks perLimb digits).map fun chunk => width * chunk.length))
          (Nat.ofDigits (2 ^ width) (digits.map fun digit => digit.value.val)) := by
  have bounds := @chunk_bounds _ perLimb digits
  have loop := @exact_loop _ _ _ cells (fun chunk : List (AssignedNative modulus) =>
      fromDigits ((2 ^ width : Nat) : ZMod modulus) chunk)
    (fun chunk limb after => IsDigit after limb
      (Nat.ofDigits (2 ^ width) (chunk.map fun digit : AssignedNative modulus => digit.value.val)))
    (fun chunk limb after added holds => holds.append added)
    (chunks perLimb digits) fun chunk mem added => by
      refine exact_from_digits (2 ^ width) ?_
      rw [forall₂_map_right_iff, forall₂_same]
      intro digit inside
      have holds := hold digit ((bounds chunk mem).2.2 digit inside)
      exact ⟨(ZMod.natCast_zmod_val _).symm, holds.1.append added⟩
  refine loop.weaken fun limbs added all => ?_
  have represents : Represents (cells ++ added)
      (AssignedBigUint.mk limbs ((chunks perLimb digits).map fun chunk => width * chunk.length))
      ((chunks perLimb digits).map fun chunk =>
        Nat.ofDigits (2 ^ width) (chunk.map fun digit => digit.value.val)) := by
    constructor
    · rw [forall₂_map_right_iff]
      exact all.flip
    · rw [forall₂_map_left_iff, forall₂_map_right_iff, forall₂_same]
      intro chunk mem
      have small := @digits_lt width (chunk.map fun digit => digit.value.val) fun value inside => by
        rcases mem_map.mp inside with ⟨digit, inChunk, rfl⟩
        exact (hold digit ((bounds chunk mem).2.2 digit inChunk)).2
      rw [length_map] at small
      exact small
  have number := represents.number wide
    (fun bound mem => by
      rcases mem_map.mp mem with ⟨chunk, inside, rfl⟩
      rw [← whole]
      exact Nat.mul_le_mul_left _ (bounds chunk inside).2.1)
    (reaches_positive fun bound mem => by
      rcases mem_map.mp mem with ⟨chunk, inside, rfl⟩
      exact Nat.mul_pos pos (bounds chunk inside).1)
  have total : (chunks perLimb digits).map (fun chunk =>
      Nat.ofDigits (2 ^ width) (chunk.map fun digit => digit.value.val)) =
        (chunks perLimb (digits.map fun digit => digit.value.val)).map (Nat.ofDigits (2 ^ width)) := by
    rw [chunks_map, map_map]
    rfl
  rw [total, of_limbs_chunks whole] at number
  exact number

theorem exact_from_le_bits {bits : List (AssignedNative modulus)}
    (hold : ∀ bit ∈ bits, Holds cells bit ∧ bit.value.val < 2) (wide : log2Base < modulus.size) :
    Exact (fromLeBits bits) cells fun x cells =>
      Number cells x (Nat.ofDigits 2 (bits.map fun bit => bit.value.val)) := by
  unfold fromLeBits
  have chunked := @exact_from_chunks _ _ _ 1 log2Base Nat.one_pos (Nat.one_mul _) wide bits hold
  refine Exact.returning chunked fun limbs added number => ?_
  have bounds : (chunks log2Base bits).map List.length =
      (chunks log2Base bits).map fun chunk => 1 * chunk.length :=
    map_congr_left fun chunk _ => (Nat.one_mul _).symm
  rw [bounds]
  exact number

theorem exact_from_le_bytes {bytes : List (AssignedNative modulus)}
    (hold : ∀ byte ∈ bytes, Holds cells byte ∧ byte.value.val < 256)
    (wide : log2Base < modulus.size) :
    Exact (fromLeBytes bytes) cells fun x cells =>
      Number cells x (Nat.ofDigits 256 (bytes.map fun byte => byte.value.val)) := by
  unfold fromLeBytes
  have chunked := @exact_from_chunks _ _ _ 8 12 (by decide) rfl wide bytes hold
  exact Exact.returning chunked fun limbs added number => number

end Midfall.BigUint
