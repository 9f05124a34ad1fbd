import Midfall.BigUintCorrect

/-!
# Arithmetic on big unsigned integers

A fresh integer takes any value within its bits. Sums and products of numbers
are exact; a difference exists when the result is not negative, a quotient and
remainder when the divisor is not zero.
-/

namespace Midfall.BigUint

open CircuitPrograms NativeGadget NativeDecomposition List
open CellPrograms ProofReadOrder
open ListLoops (forall₂_mem_left)

variable {modulus : Nat} [Fact modulus.Prime] {cells : List (ZMod modulus)}

/-! ### Assignment -/

theorem largest_full (count : Nat) :
    largest (replicate count log2Base) + 1 = base ^ count := by
  induction count with
  | zero => rfl
  | succ count ih =>
    have pos : 0 < base := Nat.two_pow_pos _
    have step : largest (replicate (count + 1) log2Base) =
        (base - 1) + base * largest (replicate count log2Base) := by
      unfold largest
      rw [replicate_succ, map_cons, of_limbs_cons]
      rfl
    rw [step, pow_succ, ← ih, Nat.add_mul, Nat.one_mul, Nat.mul_comm base]
    omega

variable {nbBits : Nat}

theorem largest_bits (pos : nbBits ≠ 0) : largest (boundsOfBits nbBits) + 1 = 2 ^ nbBits := by
  have full := largest_full ((max nbBits 1 + log2Base - 1) / log2Base - 1)
  have split : nbBits = log2Base * ((max nbBits 1 + log2Base - 1) / log2Base - 1) +
      ((nbBits - 1) % log2Base + 1) := by
    unfold log2Base
    omega
  unfold boundsOfBits
  generalize (max nbBits 1 + log2Base - 1) / log2Base - 1 = count at full split ⊢
  generalize (nbBits - 1) % log2Base + 1 = last at split ⊢
  have whole : largest (replicate count log2Base ++ [last]) =
      largest (replicate count log2Base) + base ^ count * (2 ^ last - 1) := by
    unfold largest
    rw [map_append, of_limbs_append, length_map, length_replicate, map_cons,
      map_nil, of_limbs_cons, of_limbs_nil, Nat.mul_zero, Nat.add_zero]
  have one := Nat.two_pow_pos last
  calc largest (replicate count log2Base ++ [last]) + 1
      = base ^ count + base ^ count * (2 ^ last - 1) := by rw [whole, ← full]; omega
    _ = base ^ count * (2 ^ last - 1 + 1) := by ring
    _ = base ^ count * 2 ^ last := by rw [Nat.sub_add_cancel one]
    _ = 2 ^ nbBits := by rw [split, pow_add, pow_mul]; rfl

theorem bounds_of_bits_le : ∀ bound ∈ boundsOfBits nbBits, bound ≤ log2Base := by
  intro bound mem
  unfold boundsOfBits at mem
  rcases mem_append.mp mem with full | last
  · rw [eq_of_mem_replicate full]
  · rw [mem_singleton.mp last]
    exact Nat.mod_lt _ (by decide)

theorem reaches_bits (nbBits : Nat) : Reaches (boundsOfBits nbBits) :=
  reaches_last (Nat.succ_pos _)

theorem big_to_limbs_length {count value : Nat} {limbs : List Nat}
    (found : bigToLimbs count value = some limbs) : limbs.length = count := by
  induction count generalizing value limbs with
  | zero =>
    unfold bigToLimbs at found
    split_ifs at found
    rw [← Option.some.inj found]
    rfl
  | succ count ih =>
    rw [bigToLimbs, Option.map_eq_some_iff] at found
    rcases found with ⟨rest, later, rfl⟩
    rw [length_cons, ih later]

theorem big_to_limbs_bounds {count last value : Nat}
    (small : value < 2 ^ (log2Base * count + last)) (lastSmall : last ≤ log2Base) :
    ∃ limbs, bigToLimbs (count + 1) value = some limbs ∧ ofLimbs limbs = value ∧
      Forall₂ (fun limb bound => limb < 2 ^ bound) limbs
        (replicate count log2Base ++ [last]) := by
  have basePositive : 0 < base := Nat.two_pow_pos _
  induction count generalizing value with
  | zero =>
    rw [Nat.mul_zero, Nat.zero_add] at small
    have below : value < base := lt_of_lt_of_le small (Nat.pow_le_pow_right (by decide) lastSmall)
    refine ⟨[value], ?_, ?_, Forall₂.cons small Forall₂.nil⟩
    · rw [bigToLimbs, bigToLimbs, Nat.div_eq_of_lt below, if_pos rfl, Option.map_some,
        Nat.mod_eq_of_lt below]
    · rw [of_limbs_cons, of_limbs_nil, Nat.mul_zero, Nat.add_zero]
  | succ count ih =>
    have quotient : value / base < 2 ^ (log2Base * count + last) := by
      rw [Nat.div_lt_iff_lt_mul basePositive]
      unfold base
      rw [← pow_add]
      refine lt_of_lt_of_le small (Nat.pow_le_pow_right (by decide) ?_)
      rw [Nat.mul_succ]
      omega
    rcases ih quotient with ⟨limbs, found, total, bounded⟩
    refine ⟨value % base :: limbs, ?_, ?_, Forall₂.cons (Nat.mod_lt _ basePositive) bounded⟩
    · rw [bigToLimbs, found, Option.map_some]
    · rw [of_limbs_cons, total, Nat.mod_add_div]

theorem bits_to_limbs {value nbBits : Nat} (pos : nbBits ≠ 0) (small : value < 2 ^ nbBits) :
    ∃ limbs, bigToLimbs (boundsOfBits nbBits).length value = some limbs ∧ ofLimbs limbs = value ∧
      Forall₂ (fun limb bound => limb < 2 ^ bound) limbs (boundsOfBits nbBits) := by
  have split : nbBits = log2Base * ((max nbBits 1 + log2Base - 1) / log2Base - 1) +
      ((nbBits - 1) % log2Base + 1) := by
    unfold log2Base
    omega
  rw [split] at small
  have found := big_to_limbs_bounds small (Nat.mod_lt _ (by decide))
  unfold boundsOfBits
  rw [length_append, length_replicate, length_singleton]
  exact found

theorem forall₂_bounds {Hint Limb : Type} {relation : Limb → Nat → Prop} {hints : List Hint}
    {bounds : List Nat} {limbs : List Limb} (length : hints.length = bounds.length)
    (all : Forall₂ (fun entry limb => relation limb entry.2) (hints.zip bounds) limbs) :
    Forall₂ relation limbs bounds := by
  have views : (hints.zip bounds).map Prod.snd = bounds := map_snd_zip (by omega)
  rw [← views, forall₂_map_right_iff]
  exact all.flip

theorem allowed_assign_bounded (value : Nat) (wide : log2Base < modulus.size) :
    Allowed (assignBounded value nbBits) cells fun x after =>
      Number after x x.value ∧ x.value < 2 ^ nbBits ∧ x.limbSizeBounds = boundsOfBits nbBits ∧
        ∀ limb ∈ x.limbs, Fresh cells limb := by
  unfold assignBounded
  split_ifs with none
  · rintro outcome stopped
    exact absurd stopped id
  · dsimp only
    refine (allowed_prover_checks _).bind fun _ first _ => ?_
    have length : ((bigToLimbs (boundsOfBits nbBits).length value).getD
        (replicate (boundsOfBits nbBits).length 0)).length = (boundsOfBits nbBits).length := by
      cases found : bigToLimbs (boundsOfBits nbBits).length value with
      | none => rw [Option.getD_none, length_replicate]
      | some limbs => rw [Option.getD_some, big_to_limbs_length found]
    generalize (bigToLimbs (boundsOfBits nbBits).length value).getD
      (replicate (boundsOfBits nbBits).length 0) = hints at length
    have limbs := @allowed_loop _ _ _ (cells ++ first)
      (fun entry : Nat × Nat => assignLowerThanFixed entry.1 (2 ^ entry.2))
      (fun entry limb after => Holds after limb ∧ limb.value.val < 2 ^ entry.2)
      (fun entry limb after added holds => ⟨holds.1.append added, holds.2⟩)
      (hints.zip (boundsOfBits nbBits)) fun entry mem added => by
        have bound := bounds_of_bits_le entry.2 (of_mem_zip mem).2
        have fits : 2 ^ entry.2 ≤ modulus := pow_le_modulus (by omega)
        exact (allowed_assign_lower (Nat.two_pow_pos _).ne' fits).weaken fun limb _ holds =>
          ⟨holds.1.2, holds.2⟩
    have fresh := @allowed_loop _ _ _ (cells ++ first)
      (fun entry : Nat × Nat => assignLowerThanFixed entry.1 (2 ^ entry.2))
      (fun entry limb _ => Fresh cells limb) (fun entry limb after added holds => holds)
      (hints.zip (boundsOfBits nbBits)) fun entry mem added => by
        rw [append_assoc]
        exact allowed_fresh _ _
    refine (limbs.and fresh).returning fun results more holds => ?_
    have hold := @forall₂_bounds _ _ (fun (limb : AssignedNative modulus) bound =>
      Holds ((cells ++ first) ++ more) limb ∧ limb.value.val < 2 ^ bound) _ _ _ length holds.1
    have number : Number ((cells ++ first) ++ more)
        (AssignedBigUint.mk results (boundsOfBits nbBits)) (AssignedBigUint.mk results _).value :=
      ⟨hold, bounds_of_bits_le, reaches_bits nbBits, rfl⟩
    refine ⟨number, ?_, rfl, ?_⟩
    · have digits := of_limbs_le_largest number.represents.bounds
      rw [← value_eq] at digits
      have total := largest_bits none
      dsimp only at digits
      omega
    · intro limb mem
      have all := @forall₂_bounds _ _ (fun (limb : AssignedNative modulus) _ => Fresh cells limb)
        _ _ _ length holds.2
      rcases forall₂_mem_left all mem with ⟨_, -, found⟩
      exact found

theorem honest_assign_bounded {value nbBits : Nat} (wide : log2Base < modulus.size)
    (pos : nbBits ≠ 0) (small : value < 2 ^ nbBits) :
    Honest (assignBounded value nbBits) cells fun x cells =>
      Number cells x value ∧ x.limbSizeBounds = boundsOfBits nbBits := by
  rcases bits_to_limbs pos small with ⟨digits, found, total, bounded⟩
  unfold assignBounded
  rw [if_neg pos]
  dsimp only
  rw [found, Option.getD_some]
  refine (exact_prover_checks rfl).honest.bind fun _ first _ => ?_
  have limbs := @honest_loop _ _ _ (cells ++ first)
    (fun entry : Nat × Nat => assignLowerThanFixed entry.1 (2 ^ entry.2))
    (fun entry limb after => IsDigit after limb entry.1)
    (fun entry limb after added holds => holds.append added)
    (digits.zip (boundsOfBits nbBits)) fun entry mem added => by
      have bound := bounds_of_bits_le entry.2 (of_mem_zip mem).2
      exact honest_assign_lower (pow_le_modulus (by omega)) ((forall₂_iff_zip.mp bounded).2 mem)
  refine limbs.returning fun results more holds => ?_
  have hold : Forall₂ (IsDigit ((cells ++ first) ++ more)) results digits := by
    have views : (digits.zip (boundsOfBits nbBits)).map Prod.fst = digits :=
      map_fst_zip (le_of_eq bounded.length_eq)
    rw [← views, forall₂_map_right_iff]
    exact holds.flip
  have represents : Represents ((cells ++ first) ++ more)
      (AssignedBigUint.mk results (boundsOfBits nbBits)) digits := ⟨hold, bounded⟩
  rw [← total]
  exact ⟨represents.number wide bounds_of_bits_le (reaches_bits nbBits), rfl⟩

theorem exact_assign_fixed {constant : Nat} (wide : log2Base < modulus.size) :
    Exact (assignFixedBiguint constant) cells fun x cells => Number cells x constant := by
  have small : constant < 2 ^ max constant.size 1 :=
    lt_of_lt_of_le (Nat.lt_size_self constant)
      (Nat.pow_le_pow_right (by decide) (Nat.le_max_left _ _))
  rcases bits_to_limbs (by omega) small with ⟨digits, found, total, bounded⟩
  unfold assignFixedBiguint
  dsimp only
  rw [found, Option.getD_some]
  have limbs := @exact_loop _ _ _ cells
    (fun limb : Nat => constantCell ((limb : Nat) : ZMod modulus))
    (fun digit limb after => IsDigit after limb digit)
    (fun digit limb after added holds => holds.append added) digits fun digit _ added =>
      exact_constant _
  refine limbs.returning fun results more holds => ?_
  have represents : Represents (cells ++ more)
      (AssignedBigUint.mk results (boundsOfBits (max constant.size 1))) digits :=
    ⟨holds.flip, bounded⟩
  have number := represents.number wide bounds_of_bits_le (reaches_bits _)
  rwa [total] at number

/-! ### Addition -/

section Merged

variable {Entry : Type}

def merged (operation : Entry → Entry → Entry) : List Entry → List Entry → List Entry
  | [], seconds => seconds
  | first :: firsts, [] => first :: firsts
  | first :: firsts, second :: seconds => operation first second :: merged operation firsts seconds

theorem merged_eq (operation : Entry → Entry → Entry) (firsts seconds : List Entry) :
    firsts.zipWith operation seconds ++ firsts.drop (min firsts.length seconds.length) ++
      seconds.drop (min firsts.length seconds.length) = merged operation firsts seconds := by
  induction firsts generalizing seconds with
  | nil =>
    rw [length_nil, Nat.zero_min, zipWith_nil_left, merged]
    rfl
  | cons first firsts ih =>
    cases seconds with
    | nil =>
      rw [length_nil, Nat.min_zero, zipWith_nil_right, merged]
      exact append_nil _
    | cons second seconds =>
      rw [length_cons, length_cons, Nat.succ_min_succ, zipWith_cons_cons,
        drop_succ_cons, drop_succ_cons, merged, ← ih]
      rfl

theorem merged_length (operation : Entry → Entry → Entry) (firsts seconds : List Entry) :
    (merged operation firsts seconds).length = max firsts.length seconds.length := by
  induction firsts generalizing seconds with
  | nil => rw [merged, length_nil, Nat.zero_max]
  | cons first firsts ih =>
    cases seconds with
    | nil => rw [merged, length_nil, Nat.max_zero]
    | cons second seconds =>
      rw [merged, length_cons, length_cons, length_cons, ih]
      omega

end Merged

theorem of_limbs_merged (firsts seconds : List Nat) :
    ofLimbs (merged (fun first second => first + second) firsts seconds) =
      ofLimbs firsts + ofLimbs seconds := by
  induction firsts generalizing seconds with
  | nil => rw [merged, of_limbs_nil, Nat.zero_add]
  | cons first firsts ih =>
    cases seconds with
    | nil => rw [merged, of_limbs_nil, Nat.add_zero]
    | cons second seconds =>
      rw [merged, of_limbs_cons, of_limbs_cons, of_limbs_cons, ih]
      ring

theorem merged_bounds {firsts seconds bounds1 bounds2 : List Nat}
    (first : Forall₂ (fun digit bound => digit < 2 ^ bound) firsts bounds1)
    (second : Forall₂ (fun digit bound => digit < 2 ^ bound) seconds bounds2) :
    Forall₂ (fun digit bound => digit < 2 ^ bound)
      (merged (fun first second => first + second) firsts seconds)
      (merged boundOfAddition bounds1 bounds2) := by
  induction first generalizing seconds bounds2 with
  | nil => exact second
  | cons small rest ih =>
    cases second with
    | nil => exact Forall₂.cons small rest
    | cons other later => exact Forall₂.cons (sum_bound small other) (ih later)

theorem bound_of_addition_le (bound1 bound2 : Nat) :
    bound1 ≤ boundOfAddition bound1 bound2 ∧ bound2 ≤ boundOfAddition bound1 bound2 ∧
      boundOfAddition bound1 bound2 ≤ 1 + max bound1 bound2 := by
  unfold boundOfAddition
  split_ifs <;> omega

theorem largest_cons_le {bound larger : Nat} {bounds others : List Nat} (first : bound ≤ larger)
    (rest : largest bounds ≤ largest others) : largest (bound :: bounds) ≤ largest (larger :: others) := by
  unfold largest at rest ⊢
  rw [map_cons, map_cons, of_limbs_cons, of_limbs_cons]
  have powers := Nat.pow_le_pow_right (by decide : 0 < 2) first
  have scaled := Nat.mul_le_mul_left base rest
  omega

variable {operation : Nat → Nat → Nat}

theorem largest_merged
    (grows : ∀ first second, first ≤ operation first second ∧ second ≤ operation first second)
    (bounds1 bounds2 : List Nat) :
    largest bounds1 ≤ largest (merged operation bounds1 bounds2) ∧
      largest bounds2 ≤ largest (merged operation bounds1 bounds2) := by
  induction bounds1 generalizing bounds2 with
  | nil => exact ⟨Nat.zero_le _, le_refl _⟩
  | cons bound1 bounds1 ih =>
    cases bounds2 with
    | nil => exact ⟨le_refl _, Nat.zero_le _⟩
    | cons bound2 bounds2 =>
      rw [merged]
      exact ⟨largest_cons_le (grows bound1 bound2).1 (ih bounds2).1,
        largest_cons_le (grows bound1 bound2).2 (ih bounds2).2⟩

variable {bounds1 bounds2 : List Nat}

theorem reaches_merged
    (grows : ∀ first second, first ≤ operation first second ∧ second ≤ operation first second)
    (first : Reaches bounds1) (second : Reaches bounds2) :
    Reaches (merged operation bounds1 bounds2) := by
  have length := merged_length operation bounds1 bounds2
  have larger := largest_merged grows bounds1 bounds2
  rcases Nat.le_total bounds1.length bounds2.length with shorter | longer
  · exact second.mono (by rw [length, Nat.max_eq_right shorter]) larger.2
  · exact first.mono (by rw [length, Nat.max_eq_left longer]) larger.1

theorem merged_small {limit : Nat} (first : ∀ bound ∈ bounds1, bound ≤ limit)
    (second : ∀ bound ∈ bounds2, bound ≤ limit) :
    ∀ bound ∈ merged boundOfAddition bounds1 bounds2, bound ≤ limit + 1 := by
  induction bounds1 generalizing bounds2 with
  | nil => exact fun bound mem => Nat.le_succ_of_le (second bound mem)
  | cons bound1 bounds1 ih =>
    cases bounds2 with
    | nil => exact fun bound mem => Nat.le_succ_of_le (first bound mem)
    | cons bound2 bounds2 =>
      rw [forall_mem_cons] at first second
      have sum := (bound_of_addition_le bound1 bound2).2.2
      rw [merged, forall_mem_cons]
      exact ⟨by omega, ih first.2 second.2⟩

theorem exact_add_biguint {x y : AssignedBigUint modulus} {m n : Nat} (first : Number cells x m)
    (second : Number cells y n) (room : log2Base + 2 < modulus.size) :
    Exact (addBiguint x y) cells fun z cells => Number cells z (m + n) := by
  unfold addBiguint
  have sums := @exact_loop _ _ _ cells
    (fun pair : AssignedNative modulus × AssignedNative modulus => add pair.1 pair.2)
    (fun pair limb after => IsDigit after limb (pair.1.value.val + pair.2.value.val))
    (fun pair limb after added holds => holds.append added) (x.limbs.zip y.limbs)
    fun pair mem added => by
      have parts := of_mem_zip mem
      rcases forall₂_mem_left first.represents.limbs parts.1 with ⟨_, -, _, holdsFirst⟩
      rcases forall₂_mem_left second.represents.limbs parts.2 with ⟨_, -, _, holdsSecond⟩
      exact exact_add ⟨(ZMod.natCast_zmod_val _).symm, holdsFirst.append added⟩
        ⟨(ZMod.natCast_zmod_val _).symm, holdsSecond.append added⟩
  refine sums.bind fun limbs added holds => ?_
  have lengths := And.intro first.lengths second.lengths
  have firstHolds := (first.append added).represents
  have secondHolds := (second.append added).represents
  have represents : Represents (cells ++ added)
      { limbs := limbs ++ x.limbs.drop (min x.limbs.length y.limbs.length) ++
          y.limbs.drop (min x.limbs.length y.limbs.length)
        limbSizeBounds := merged boundOfAddition x.limbSizeBounds y.limbSizeBounds }
      (merged (fun first second => first + second) (x.limbs.map fun limb => limb.value.val)
        (y.limbs.map fun limb => limb.value.val)) := by
    refine ⟨?_, merged_bounds firstHolds.bounds secondHolds.bounds⟩
    dsimp only
    rw [← merged_eq (fun first second => first + second), length_map, length_map]
    refine rel_append (rel_append ?_ ?_) ?_
    · rw [zipWith_map, ← map_uncurry_zip_eq_zipWith, forall₂_map_right_iff]
      exact holds.flip
    · exact forall₂_drop _ firstHolds.limbs
    · exact forall₂_drop _ secondHolds.limbs
  have bounds : (x.limbSizeBounds.take (min x.limbs.length y.limbs.length)).zipWith boundOfAddition
      (y.limbSizeBounds.take (min x.limbs.length y.limbs.length)) ++
        x.limbSizeBounds.drop (min x.limbs.length y.limbs.length) ++
          y.limbSizeBounds.drop (min x.limbs.length y.limbs.length) =
            merged boundOfAddition x.limbSizeBounds y.limbSizeBounds := by
    rw [lengths.1, lengths.2, ← zipWith_eq_zipWith_take_min, merged_eq]
  rw [bounds]
  have grows := fun first second => And.intro (bound_of_addition_le first second).1
    (bound_of_addition_le first second).2.1
  have total := exact_normalize represents (by omega)
    (reaches_merged grows first.reaches second.reaches)
    (carries_fit_small room (by omega) (merged_small first.bounds second.bounds))
  rw [of_limbs_merged, ← value_eq, ← value_eq, first.value, second.value] at total
  exact total

/-! ### Operands of one length -/

/-- A number with zeros behind it. -/
structure Padded (cells : List (ZMod modulus)) (x : AssignedBigUint modulus) (count n : Nat) :
    Prop where
  limbs : ∀ limb ∈ x.limbs, Holds cells limb ∧ limb.value.val < base
  length : x.limbs.length = count
  value : ofLimbs (x.limbs.map fun limb => limb.value.val) = n

omit [Fact modulus.Prime] in
theorem Padded.append {x : AssignedBigUint modulus} {count n : Nat} (padded : Padded cells x count n)
    (added : List (ZMod modulus)) : Padded (cells ++ added) x count n :=
  ⟨fun limb mem => ⟨(padded.limbs limb mem).1.append added, (padded.limbs limb mem).2⟩,
    padded.length, padded.value⟩

theorem exact_pad {x : AssignedBigUint modulus} {n count : Nat} (number : Number cells x n)
    (enough : x.limbs.length ≤ count) (wide : log2Base < modulus.size) :
    Exact (resize count x) cells fun padded cells => Padded cells padded count n := by
  have represents := number.represents
  have resized := @exact_resize _ _ _ _ _ count represents (by rw [length_map]; exact enough)
  refine resized.weaken fun padded added holds => ?_
  have bounds : ∀ bound ∈ padded.limbSizeBounds, bound ≤ log2Base := by
    intro bound mem
    rw [holds.2] at mem
    rcases mem_append.mp mem with own | zero
    · exact number.bounds bound own
    · rw [eq_of_mem_replicate zero]
      exact Nat.zero_le _
  have below : ∀ digit ∈ (x.limbs.map fun limb => limb.value.val) ++ replicate
      (count - (x.limbs.map fun limb => limb.value.val).length) 0, digit < base := by
    intro digit mem
    obtain ⟨bound, boundMember, small⟩ := forall₂_mem_left holds.1.bounds mem
    exact lt_of_lt_of_le small (Nat.pow_le_pow_right (by decide) (bounds bound boundMember))
  have baseFits : base ≤ modulus := pow_le_modulus wide
  have values := digits_are_values holds.1.limbs fun digit mem =>
    lt_of_lt_of_le (below digit mem) baseFits
  refine ⟨fun limb mem => ⟨?_, ?_⟩, ?_, ?_⟩
  · obtain ⟨digit, -, isDigit⟩ := forall₂_mem_left holds.1.limbs mem
    exact isDigit.2
  · refine below _ ?_
    rw [← values]
    exact mem_map_of_mem mem
  · rw [holds.1.lengths.1, length_append, length_replicate, length_map]
    omega
  · rw [values, of_limbs_pad, ← value_eq, number.value]

theorem Padded.equal_iff {x y : AssignedBigUint modulus} {count m n : Nat}
    (first : Padded cells x count m) (second : Padded cells y count n) :
    (∀ pair ∈ x.limbs.zip y.limbs, pair.1.value = pair.2.value) ↔ m = n := by
  have lengths : (x.limbs.map fun limb => limb.value.val).length =
      (y.limbs.map fun limb => limb.value.val).length := by
    rw [length_map, length_map, first.length, second.length]
  have below : ∀ {z : AssignedBigUint modulus} {value : Nat}, Padded cells z count value →
      ∀ digit ∈ z.limbs.map fun limb => limb.value.val, digit < base := by
    intro z value padded digit mem
    rcases mem_map.mp mem with ⟨limb, inside, rfl⟩
    exact (padded.limbs limb inside).2
  have values : m = n ↔ (x.limbs.map fun limb => limb.value.val) =
      y.limbs.map fun limb => limb.value.val := by
    rw [← first.value, ← second.value]
    constructor
    · exact Nat.ofDigits_inj_of_len_eq (by decide) lengths (below first) (below second)
    · exact fun same => congrArg ofLimbs same
  rw [values, ← forall₂_eq_eq_eq, forall₂_map_left_iff, forall₂_map_right_iff, forall₂_iff_zip]
  rw [length_map, length_map] at lengths
  constructor
  · intro all
    exact ⟨lengths, fun mem => congrArg ZMod.val (all _ mem)⟩
  · intro all pair mem
    exact ZMod.val_injective modulus (all.2 mem)

variable {x y : AssignedBigUint modulus} {n : Nat}

omit [Fact modulus.Prime] in
theorem exact_normalized (number : Number cells x n) :
    Exact (assertNormalized x) cells fun _ _ => True := by
  unfold assertNormalized
  rw [if_pos number.normalized]
  exact exact_pure trivial

/-- Both operands get as many limbs, after a check that they are normalized. -/
def paired (x y : AssignedBigUint modulus) :
    Program modulus (AssignedBigUint modulus × AssignedBigUint modulus) := do
  assertNormalized x
  assertNormalized y
  let padded ← resize (max x.limbs.length y.limbs.length) x
  let other ← resize (max x.limbs.length y.limbs.length) y
  return (padded, other)

theorem exact_paired {m : Nat} (first : Number cells x m) (second : Number cells y n)
    (wide : log2Base < modulus.size) :
    Exact (paired x y) cells fun pair cells =>
      Padded cells pair.1 (max x.limbs.length y.limbs.length) m ∧
        Padded cells pair.2 (max x.limbs.length y.limbs.length) n := by
  unfold paired
  refine (exact_normalized first).bind fun _ start _ => ?_
  refine (exact_normalized (second.append start)).bind fun _ added _ => ?_
  refine (exact_pad ((first.append start).append added) (Nat.le_max_left _ _) wide).bind
    fun padded more isFirst => ?_
  have isOther := (((second.append start).append added).append more)
  refine (exact_pad isOther (Nat.le_max_right _ _) wide).returning fun other last isSecond => ?_
  exact ⟨isFirst.append last, isSecond⟩

theorem assert_equal_eq (x y : AssignedBigUint modulus) :
    assertEqual x y = paired x y >>= fun pair => (pair.1.limbs.zip pair.2.limbs).forM
      fun pair => emit (NativeGadget.assertEqual pair.1.value pair.2.value) := by
  unfold assertEqual paired
  simp only [bind_assoc, pure_bind]

theorem honest_assert_equal (first : Number cells x n) (second : Number cells y n)
    (wide : log2Base < modulus.size) :
    Honest (assertEqual x y) cells fun _ _ => True := by
  rw [assert_equal_eq]
  refine (exact_paired first second wide).honest.bind fun pair added holds => ?_
  have same := (holds.1.equal_iff holds.2).mpr rfl
  exact honest_each _ fun limbs mem more =>
    ((exact_emit (computes_constrain (same limbs mem))).weaken fun _ _ _ => trivial).honest

theorem allowed_assert_equal {m : Nat} (first : Number cells x m) (second : Number cells y n)
    (wide : log2Base < modulus.size) :
    Allowed (assertEqual x y) cells fun _ _ => m = n := by
  rw [assert_equal_eq]
  refine (exact_paired first second wide).allowed.bind fun pair added holds => ?_
  have all := @allowed_each _ _ (cells ++ added)
    (fun pair : AssignedNative modulus × AssignedNative modulus =>
      emit (NativeGadget.assertEqual pair.1.value pair.2.value))
    (fun pair => pair.1.value = pair.2.value) (pair.1.limbs.zip pair.2.limbs)
    fun limbs _ more => by
      have constrained : Ensures (NativeGadget.assertEqual limbs.1.value limbs.2.value)
        fun _ => limbs.1.value = limbs.2.value := fun _ allowed => allowed
      exact allowed_emit constrained
  exact all.weaken fun _ _ same => (holds.1.equal_iff holds.2).mp same

/-! ### Subtraction -/

variable {m : Nat}

omit [Fact modulus.Prime] in
theorem bits_positive (number : Number cells x n) (present : x.limbs ≠ []) : x.nbBits ≠ 0 := by
  have length := length_pos_iff.mpr present
  have reaches := number.reaches
  have lengths := number.lengths
  intro zero
  rw [nb_bits_eq] at zero
  unfold Reaches limbsOf log2Base at reaches
  omega

theorem honest_sub (first : Number cells x m) (second : Number cells y n) (present : x.limbs ≠ [])
    (ordered : n ≤ m) (room : log2Base + 2 < modulus.size) :
    Honest (sub x y) cells fun z cells => Number cells z (m - n) := by
  have wide : log2Base < modulus.size := by omega
  unfold sub
  rw [first.value, second.value]
  have small : m - n < 2 ^ x.nbBits := lt_of_le_of_lt (Nat.sub_le m n) first.small
  refine (honest_assign_bounded wide (bits_positive first present) small).bind
    fun res added holds => ?_
  refine (exact_add_biguint holds.1 (second.append added) room).honest.bind fun z more sum => ?_
  rw [Nat.sub_add_cancel ordered] at sum
  have checked := honest_assert_equal ((first.append added).append more) sum wide
  exact checked.returning fun _ last _ => (holds.1.append more).append last

theorem allowed_sub (first : Number cells x m) (second : Number cells y n)
    (room : log2Base + 2 < modulus.size) :
    Allowed (sub x y) cells fun z cells => n ≤ m ∧ Number cells z (m - n) := by
  have wide : log2Base < modulus.size := by omega
  unfold sub
  refine (allowed_assign_bounded _ wide).bind fun res added holds => ?_
  refine (exact_add_biguint holds.1 (second.append added) room).allowed.bind fun z more sum => ?_
  refine (allowed_assert_equal ((first.append added).append more) sum wide).returning
    fun _ last same => ?_
  have result := (holds.1.append more).append last
  have value : res.value = m - n := by omega
  rw [value] at result
  exact ⟨by omega, result⟩

/-! ### Comparison -/

def IsBit (cells : List (ZMod modulus)) (limb : AssignedNative modulus) (value : Bool) : Prop :=
  limb.value = bit value ∧ Holds cells limb

theorem IsBit.append {limb : AssignedNative modulus} {value : Bool}
    (isBit : IsBit cells limb value) (added : List (ZMod modulus)) :
    IsBit (cells ++ added) limb value := ⟨isBit.1, isBit.2.append added⟩

theorem exact_mul_bits {x y : AssignedNative modulus} {first second : Bool}
    (isFirst : IsBit cells x first) (isSecond : IsBit cells y second) :
    Exact (mul x y) cells fun result cells => IsBit cells result (first && second) := by
  unfold mul
  have one : ∀ {z : AssignedNative modulus} {value : Bool}, IsBit cells z value →
      z.cell = .fixed 1 → value = true := by
    intro z value isBit cell
    have holds := isBit.2
    unfold Holds at holds
    rw [cell] at holds
    have same : (bit value : ZMod modulus) = bit true := isBit.1.symm.trans holds
    exact bit_injective same
  split_ifs with firstOne secondOne
  · rw [one isFirst firstOne, Bool.true_and]
    exact exact_pure isSecond
  · rw [one isSecond secondOne, Bool.and_true]
    exact exact_pure isFirst
  · have product := computes_mul x.value y.value
    rw [isFirst.1, isSecond.1, bit_mul, ← isFirst.1, ← isSecond.1] at product
    exact exact_fill product

theorem exact_and {bits : List (AssignedNative modulus)} {values : List Bool}
    (hold : Forall₂ (IsBit cells) bits values) (present : bits ≠ []) :
    Exact (and bits) cells fun result cells => IsBit cells result (values.all id) := by
  have folded : ∀ (bits : List (AssignedNative modulus)) (values : List Bool)
      (cells : List (ZMod modulus)) (acc : AssignedNative modulus) (start : Bool),
      Forall₂ (IsBit cells) bits values → IsBit cells acc start →
        Exact (bits.foldlM mul acc) cells fun result cells =>
          IsBit cells result (start && values.all id) := by
    intro bits
    induction bits with
    | nil =>
      intro values cells acc start hold isAcc
      cases hold
      rw [all_nil, Bool.and_true]
      exact exact_pure isAcc
    | cons first bits ih =>
      intro values cells acc start hold isAcc
      cases hold with
      | @cons _ value _ values isFirst rest =>
        rw [foldlM_cons, all_cons, id_eq, ← Bool.and_assoc]
        refine (exact_mul_bits isAcc isFirst).bind fun product added isProduct => ?_
        exact ih values _ product _ (rest.imp fun _ _ holds => holds.append added) isProduct
  cases hold with
  | nil => exact absurd rfl present
  | @cons first start bits values isFirst rest =>
    rw [all_cons, id_eq]
    exact folded bits values cells first start rest isFirst

theorem exact_not {x : AssignedNative modulus} {value : Bool} (isBit : IsBit cells x value) :
    Exact (not x) cells fun result cells => IsBit cells result (! value) := by
  unfold not
  refine (exact_linear_combination _ _ ?_).weaken fun result added holds => ⟨?_, holds.2⟩
  · intro term mem
    rw [mem_singleton.mp mem]
    exact isBit.2
  · rw [holds.1, map_singleton, sum_singleton, isBit.1]
    cases value <;> simp [bit]

theorem exact_or {x y : AssignedNative modulus} {first second : Bool}
    (isFirst : IsBit cells x first) (isSecond : IsBit cells y second) :
    Exact (or [x, y]) cells fun result cells => IsBit cells result (first || second) := by
  have row := @computes_or modulus _ first second
  rw [← isFirst.1, ← isSecond.1] at row
  unfold NativeGadget.or NativeGadget.foldBits at row
  dsimp only at row
  rw [foldlM_cons, bind_congr fun value => foldlM_nil, bind_pure] at row
  unfold or foldBits
  dsimp only
  rw [foldlM_cons, bind_congr fun value => foldlM_nil, bind_pure]
  exact exact_fill row

theorem exact_is_equal (first : Number cells x m) (second : Number cells y n)
    (wide : log2Base < modulus.size) (present : x.limbs ≠ [] ∨ y.limbs ≠ []) :
    Exact (isEqual x y) cells fun result cells => IsBit cells result (decide (m = n)) := by
  have program : isEqual x y = paired x y >>= fun pair =>
      (pair.1.limbs.zip pair.2.limbs).mapM (fun limbs =>
        fillCell (NativeGadget.isEqual limbs.1.value limbs.2.value)) >>= and := by
    unfold isEqual paired
    simp only [bind_assoc, pure_bind]
  rw [program]
  refine (exact_paired first second wide).bind fun pair added holds => ?_
  have bits := @exact_loop _ _ _ (cells ++ added)
    (fun limbs : AssignedNative modulus × AssignedNative modulus =>
      fillCell (NativeGadget.isEqual limbs.1.value limbs.2.value))
    (fun limbs result after => IsBit after result (decide (limbs.1.value = limbs.2.value)))
    (fun limbs result after more holds => holds.append more) (pair.1.limbs.zip pair.2.limbs)
    fun limbs _ more => exact_fill (computes_is_equal limbs.1.value limbs.2.value)
  refine bits.bind fun results more all => ?_
  have hold : Forall₂ (IsBit ((cells ++ added) ++ more)) results
      ((pair.1.limbs.zip pair.2.limbs).map fun limbs => decide (limbs.1.value = limbs.2.value)) := by
    rw [forall₂_map_right_iff]
    exact all.flip
  have nonempty : results ≠ [] := by
    intro empty
    have length := all.length_eq
    rw [empty, length_nil, length_zip, holds.1.length, holds.2.length, Nat.min_self] at length
    rcases present with left | right
    · have pos := length_pos_iff.mpr left
      omega
    · have pos := length_pos_iff.mpr right
      omega
  have same : (((pair.1.limbs.zip pair.2.limbs).map
      fun limbs => decide (limbs.1.value = limbs.2.value)).all id) = decide (m = n) := by
    rw [Bool.eq_iff_iff, decide_eq_true_iff, ← holds.1.equal_iff holds.2, all_map, all_eq_true]
    simp only [Function.comp_apply, id_eq, decide_eq_true_iff]
  rw [← same]
  exact exact_and hold nonempty

theorem higher_digit {lowX lowY digitX digitY scale : Nat} (xSmall : lowX < scale)
    (ySmall : lowY < scale) :
    (decide (digitY < digitX) || (decide (digitX = digitY) && decide (lowY ≤ lowX))) =
      decide (lowY + scale * digitY ≤ lowX + scale * digitX) := by
  rw [Bool.eq_iff_iff]
  simp only [Bool.or_eq_true, Bool.and_eq_true, decide_eq_true_iff]
  rcases Nat.lt_trichotomy digitX digitY with less | same | greater
  · have scaled := Nat.mul_le_mul_left scale less
    rw [Nat.mul_succ] at scaled
    omega
  · subst same
    omega
  · have scaled := Nat.mul_le_mul_left scale greater
    rw [Nat.mul_succ] at scaled
    omega

section

variable (first : Number cells x m) (second : Number cells y n) (wide : log2Base + 1 < modulus.size)

include first second wide

theorem exact_geq :
    Exact (geq x y) cells fun result cells => IsBit cells result (decide (n ≤ m)) := by
  have program : geq x y = paired x y >>= fun pair => constantCell 1 >>= fun init =>
      (pair.1.limbs.zip pair.2.limbs).foldlM geqLimb init := by
    unfold geq paired
    simp only [bind_assoc, pure_bind]
  rw [program]
  refine (exact_paired first second (by omega)).bind fun pair added holds => ?_
  refine (exact_constant (1 : ZMod modulus)).bind fun init more isInit => ?_
  have views : ∀ limbs ∈ pair.1.limbs.zip pair.2.limbs,
      limbs.1.value.val < base ∧ limbs.2.value.val < base := fun limbs mem =>
    ⟨(holds.1.limbs _ (of_mem_zip mem).1).2, (holds.2.limbs _ (of_mem_zip mem).2).2⟩
  have below : ∀ before after, pair.1.limbs.zip pair.2.limbs = before ++ after →
      ofLimbs (before.map fun limbs => limbs.1.value.val) < base ^ before.length ∧
        ofLimbs (before.map fun limbs => limbs.2.value.val) < base ^ before.length := by
    intro before after split
    have small := fun limbs mem => views limbs (by rw [split]; exact mem_append_left _ mem)
    have firsts := @of_limbs_lt (before.map fun limbs => limbs.1.value.val) fun digit mem => by
      rcases mem_map.mp mem with ⟨limbs, inside, rfl⟩
      exact (small limbs inside).1
    have seconds := @of_limbs_lt (before.map fun limbs => limbs.2.value.val) fun digit mem => by
      rcases mem_map.mp mem with ⟨limbs, inside, rfl⟩
      exact (small limbs inside).2
    rw [length_map] at firsts seconds
    exact ⟨firsts, seconds⟩
  have fold := @exact_fold _ _ _ ((cells ++ added) ++ more) geqLimb (pair.1.limbs.zip pair.2.limbs)
    (fun before acc after => IsBit after acc
      (decide (ofLimbs (before.map fun limbs => limbs.2.value.val) ≤
        ofLimbs (before.map fun limbs => limbs.1.value.val)))) init isInit
    fun before limbs after acc grown split isAcc => by
      have small := below before _ split
      have digits := views limbs (by rw [split]; exact mem_append_right _ mem_cons_self)
      rw [map_append, map_append, of_limbs_append, of_limbs_append, map_singleton,
        map_singleton, of_limbs_cons, of_limbs_cons, of_limbs_nil, Nat.mul_zero, Nat.add_zero,
        Nat.add_zero, length_map, length_map, ← higher_digit small.1 small.2]
      have fits : 2 ^ (log2Base + 1) ≤ modulus := pow_le_modulus wide
      unfold geqLimb
      refine (exact_fill (computes_is_equal limbs.1.value limbs.2.value)).bind fun equal one isEqual => ?_
      refine (exact_fill (computes_greater_than fits digits.1 digits.2)).bind
        fun greater two isGreater => ?_
      have bits : Forall₂ (IsBit _) [equal, acc] [_, _] :=
        Forall₂.cons (IsBit.append isEqual two)
          (Forall₂.cons ((IsBit.append isAcc one).append two) Forall₂.nil)
      refine (exact_and bits (cons_ne_nil _ _)).bind fun both three isBoth => ?_
      have result := exact_or (IsBit.append isGreater three) isBoth
      have same : decide (limbs.1.value = limbs.2.value) =
          decide (limbs.1.value.val = limbs.2.value.val) := by
        rw [decide_eq_decide]
        exact (ZMod.val_injective modulus).eq_iff.symm
      rw [all_cons, all_cons, all_nil, Bool.and_true, id_eq, id_eq, same] at result
      exact result
  have lengths : pair.1.limbs.length = pair.2.limbs.length := by
    rw [holds.1.length, holds.2.length]
  have values : ((pair.1.limbs.zip pair.2.limbs).map fun limbs => limbs.1.value.val) =
      pair.1.limbs.map (fun limb => limb.value.val) ∧
        ((pair.1.limbs.zip pair.2.limbs).map fun limbs => limbs.2.value.val) =
          pair.2.limbs.map (fun limb => limb.value.val) := by
    have fst := @map_fst_zip _ _ pair.1.limbs pair.2.limbs (by omega)
    have snd := @map_snd_zip _ _ pair.1.limbs pair.2.limbs (by omega)
    constructor
    · conv_rhs => rw [← fst, map_map]
      rfl
    · conv_rhs => rw [← snd, map_map]
      rfl
  rw [values.1, values.2, holds.1.value, holds.2.value] at fold
  exact fold

theorem exact_lower_than :
    Exact (lowerThan x y) cells fun result cells => IsBit cells result (decide (m < n)) := by
  unfold lowerThan
  refine (exact_geq first second wide).bind fun isGeq added holds => ?_
  have result := exact_not holds
  have negated : (! decide (n ≤ m)) = decide (m < n) := by
    rw [Bool.eq_iff_iff, Bool.not_eq_true', decide_eq_false_iff_not, decide_eq_true_iff, Nat.not_le]
  rwa [negated] at result

end

end Midfall.BigUint
