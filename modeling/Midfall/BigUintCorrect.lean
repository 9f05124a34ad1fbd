import Midfall.BigUint
import Midfall.ListLoops

/-!
# Big unsigned integers are exact

Each limb is the image of a digit below its bound. While a product is built the
digits may exceed the modulus; normalization checks that they do not, and its
carries are exact. Every operation on normalized operands returns the
normalized result of the integers.
-/

namespace Midfall.BigUint

open CircuitPrograms NativeGadget NativeDecomposition List
open CellPrograms ProofReadOrder
open ListLoops (forall₂_mem_left)

variable {modulus : Nat} [Fact modulus.Prime] {cells : List (ZMod modulus)}

omit [Fact modulus.Prime] in
theorem pow_le_modulus {bits : Nat} (below : bits < modulus.size) : 2 ^ bits ≤ modulus :=
  Nat.lt_size.mp below

theorem dropped_terms (terms : List (ZMod modulus × AssignedNative modulus))
    (hold : ∀ term ∈ terms, Holds cells term.2) :
    ((terms.filter fun term => term.1 ≠ 0 ∧ term.2.cell ≠ .fixed 0).map
      fun term => term.1 * term.2.value).sum =
        (terms.map fun term => term.1 * term.2.value).sum := by
  induction terms with
  | nil => rfl
  | cons term terms ih =>
    have rest := ih (forall_mem_cons.mp hold).2
    rw [filter_cons, map_cons, sum_cons, ← rest]
    split_ifs with kept
    · rw [map_cons, sum_cons]
    · have zero : term.1 * term.2.value = 0 := by
        rw [decide_eq_true_iff, not_and_or, not_not, not_not] at kept
        rcases kept with coefficient | cell
        · rw [coefficient, zero_mul]
        · have holds := hold term mem_cons_self
          unfold Holds at holds
          rw [cell] at holds
          rw [holds, mul_zero]
      rw [zero, zero_add]

theorem exact_linear_combination (terms : List (ZMod modulus × AssignedNative modulus))
    (constant : ZMod modulus) (hold : ∀ term ∈ terms, Holds cells term.2) :
    Exact (linearCombination terms constant) cells fun result cells =>
      result.value = constant + (terms.map fun term => term.1 * term.2.value).sum ∧
        Holds cells result := by
  have same := dropped_terms terms hold
  have kept : ∀ term ∈ terms.filter fun term => term.1 ≠ 0 ∧ term.2.cell ≠ .fixed 0,
      Holds cells term.2 := fun term mem => hold term (mem_of_mem_filter mem)
  rw [← same]
  unfold linearCombination
  dsimp only
  generalize terms.filter (fun term => term.1 ≠ 0 ∧ term.2.cell ≠ .fixed 0) = remaining at kept ⊢
  rcases remaining with _ | ⟨first, _ | ⟨second, rest⟩⟩
  · refine (exact_constant constant).weaken fun result added holds => ?_
    rw [map_nil, sum_nil, add_zero]
    exact holds
  · dsimp only
    split_ifs with alone
    · refine exact_pure ⟨?_, kept first mem_cons_self⟩
      rw [alone.2, map_cons, map_nil, sum_singleton, alone.1, one_mul, zero_add]
    · exact exact_fill (computes_linear_combination [(first.1, first.2.value)] constant)
  · have computes := computes_linear_combination
      ((first :: second :: rest).map fun term => (term.1, term.2.value)) constant
    rw [map_map] at computes
    exact exact_fill computes

def IsDigit (cells : List (ZMod modulus)) (limb : AssignedNative modulus) (digit : Nat) : Prop :=
  limb.value = ((digit : Nat) : ZMod modulus) ∧ Holds cells limb

variable {digit bound numBits carrySizeBound : Nat} {digits : List Nat}

variable {limb : AssignedNative modulus}

theorem IsDigit.append (isDigit : IsDigit cells limb digit) (added : List (ZMod modulus)) :
    IsDigit (cells ++ added) limb digit := ⟨isDigit.1, isDigit.2.append added⟩

theorem IsDigit.val (isDigit : IsDigit cells limb digit) (below : digit < modulus) :
    limb.value.val = digit := by
  rw [isDigit.1, val_natCast_lt below]

theorem exact_add {x y : AssignedNative modulus} {first second : Nat}
    (isFirst : IsDigit cells x first) (isSecond : IsDigit cells y second) :
    Exact (add x y) cells fun result cells => IsDigit cells result (first + second) := by
  unfold add
  refine (exact_linear_combination _ _ ?_).weaken fun result added holds => ⟨?_, holds.2⟩
  · intro term mem
    rcases mem_cons.mp mem with rfl | later
    · exact isFirst.2
    · rw [mem_singleton.mp later]
      exact isSecond.2
  · rw [holds.1, map_cons, map_cons, map_nil, sum_cons, sum_singleton,
      one_mul, one_mul, isFirst.1, isSecond.1, zero_add]
    push_cast
    rfl

theorem exact_zero : Exact (constantCell (0 : ZMod modulus)) cells fun zero cells =>
    IsDigit cells zero 0 := by
  refine (exact_constant (0 : ZMod modulus)).weaken fun zero added holds => ⟨?_, holds.2⟩
  rw [holds.1, Nat.cast_zero]

theorem allowed_assign_lower {hint : Nat} (pos : bound ≠ 0) (fits : bound ≤ modulus) :
    Allowed (assignLowerThanFixed hint bound) cells fun limb cells =>
      IsDigit cells limb limb.value.val ∧ limb.value.val < bound := by
  have ensures : Ensures (NativeGadget.assignLowerThanFixed ((hint : Nat) : ZMod modulus) bound)
      fun value => value.val < bound := fun value allowed =>
    (assign_lower_than_fixed_iff pos fits).mp allowed
  refine (allowed_fill ensures).weaken fun limb added holds => ⟨⟨?_, holds.2⟩, holds.1⟩
  exact (ZMod.natCast_zmod_val limb.value).symm

theorem honest_assign_lower {hint : Nat} (fits : bound ≤ modulus) (below : hint < bound) :
    Honest (assignLowerThanFixed hint bound) cells fun limb cells => IsDigit cells limb hint := by
  have satisfies := @satisfies_assign_lower_than_fixed modulus _ ((hint : Nat) : ZMod modulus) bound
    (by omega) fits (by rwa [val_natCast_lt (by omega)])
  exact (honest_fill satisfies).weaken fun limb added holds => ⟨holds.1, holds.2⟩

theorem exact_div_rem_native {x : AssignedNative modulus} (isDigit : IsDigit cells x digit)
    (small : digit < 2 ^ bound) (fits : bound < modulus.size) (wide : log2Base < modulus.size) :
    Exact (divRemNativeByBase x bound) cells fun parts cells =>
      IsDigit cells parts.1 (digit / base) ∧ IsDigit cells parts.2 (digit % base) := by
  have room : 2 ^ (max bound log2Base) ≤ modulus := pow_le_modulus (by omega)
  have split : 2 ^ (max bound log2Base) = 2 ^ (max bound log2Base - log2Base) * base := by
    unfold base
    rw [← pow_add]
    congr 1
    omega
  have grows : digit < 2 ^ (max bound log2Base) :=
    lt_of_lt_of_le small (Nat.pow_le_pow_right (by decide) (Nat.le_max_left _ _))
  have basePositive : 0 < base := Nat.two_pow_pos _
  have quotientSmall : digit / base < 2 ^ (max bound log2Base - log2Base) := by
    rw [Nat.div_lt_iff_lt_mul basePositive, ← split]
    exact grows
  have restSmall : digit % base < base := Nat.mod_lt _ basePositive
  have quotientFits : 2 ^ (max bound log2Base - log2Base) ≤ modulus :=
    le_trans (Nat.le_mul_of_pos_right _ basePositive) (split ▸ room)
  have baseFits : base ≤ modulus :=
    le_trans (Nat.le_mul_of_pos_left _ (Nat.two_pow_pos _)) (split ▸ room)
  have value := isDigit.val (lt_of_lt_of_le grows room)
  have sum : ∀ {cells : List (ZMod modulus)} {q r : AssignedNative modulus} {quotient rest : Nat},
      IsDigit cells q quotient → IsDigit cells r rest →
        Exact (linearCombination [(((base : Nat) : ZMod modulus), q), (1, r)] 0) cells
          fun total _ => total.value = ((base * quotient + rest : Nat) : ZMod modulus) := by
    intro cells q r quotient rest isQuotient isRest
    refine (exact_linear_combination _ _ ?_).weaken fun total added holds => ?_
    · intro term mem
      rcases mem_cons.mp mem with rfl | later
      · exact isQuotient.2
      · rw [mem_singleton.mp later]
        exact isRest.2
    · rw [holds.1, map_cons, map_cons, map_nil, sum_cons, sum_singleton,
        one_mul, zero_add, isQuotient.1, isRest.1]
      push_cast
      rfl
  unfold divRemNativeByBase
  rw [if_neg (by omega), value]
  constructor
  · refine (honest_assign_lower quotientFits quotientSmall).bind fun q _ isQuotient => ?_
    refine (honest_assign_lower baseFits restSmall).bind fun r added isRest => ?_
    refine (sum (isQuotient.append added) isRest).honest.bind fun total more holds => ?_
    have same : x.value = total.value := by
      rw [isDigit.1, holds, Nat.div_add_mod]
    refine (exact_emit (computes_constrain same)).honest.returning fun _ last _ => ?_
    exact ⟨((isQuotient.append added).append more).append last, (isRest.append more).append last⟩
  · refine (allowed_assign_lower (Nat.two_pow_pos _).ne' quotientFits).bind
      fun q _ isQuotient => ?_
    refine (allowed_assign_lower basePositive.ne' baseFits).bind fun r added isRest => ?_
    refine (sum (isQuotient.1.append added) isRest.1).allowed.bind fun total more holds => ?_
    have constrained : Ensures (NativeGadget.assertEqual x.value total.value)
        fun _ => x.value = total.value := fun _ allowed => allowed
    refine (allowed_emit constrained).returning fun _ last same => ?_
    have below : base * q.value.val + r.value.val < modulus := by
      have quotientRange := isQuotient.2
      have restRange := isRest.2
      calc base * q.value.val + r.value.val < base * q.value.val + base := by omega
        _ = (q.value.val + 1) * base := by ring
        _ ≤ 2 ^ (max bound log2Base - log2Base) * base := Nat.mul_le_mul_right _ quotientRange
        _ ≤ modulus := split ▸ room
    have integers : digit = base * q.value.val + r.value.val := by
      rw [← value, same, holds, val_natCast_lt below]
    have quotient : digit / base = q.value.val := by
      rw [integers, Nat.mul_add_div basePositive, Nat.div_eq_of_lt isRest.2, Nat.add_zero]
    have rest : digit % base = r.value.val := by
      rw [integers, Nat.mul_add_mod, Nat.mod_eq_of_lt isRest.2]
    rw [quotient, rest]
    exact ⟨((isQuotient.1.append added).append more).append last,
      (isRest.1.append more).append last⟩

structure Represents (cells : List (ZMod modulus)) (x : AssignedBigUint modulus)
    (digits : List Nat) : Prop where
  limbs : Forall₂ (IsDigit cells) x.limbs digits
  bounds : Forall₂ (fun digit bound => digit < 2 ^ bound) digits x.limbSizeBounds

variable {limbs : List (AssignedNative modulus)}

theorem digits_append (all : Forall₂ (IsDigit cells) limbs digits) (added : List (ZMod modulus)) :
    Forall₂ (IsDigit (cells ++ added)) limbs digits :=
  all.imp fun _ _ isDigit => isDigit.append added

variable {x : AssignedBigUint modulus}

theorem Represents.append (represents : Represents cells x digits) (added : List (ZMod modulus)) :
    Represents (cells ++ added) x digits :=
  ⟨digits_append represents.limbs added, represents.bounds⟩

theorem Represents.lengths (represents : Represents cells x digits) :
    x.limbs.length = digits.length ∧ x.limbSizeBounds.length = digits.length :=
  ⟨represents.limbs.length_eq, represents.bounds.length_eq.symm⟩

def ofLimbs (digits : List Nat) : Nat := Nat.ofDigits base digits

theorem of_limbs_nil : ofLimbs [] = 0 := rfl

theorem of_limbs_cons (digit : Nat) (digits : List Nat) :
    ofLimbs (digit :: digits) = digit + base * ofLimbs digits := by
  unfold ofLimbs
  rw [Nat.ofDigits_cons]

theorem of_limbs_append (first second : List Nat) :
    ofLimbs (first ++ second) = ofLimbs first + base ^ first.length * ofLimbs second :=
  Nat.ofDigits_append

theorem big_from_limbs_eq (digits : List Nat) : bigFromLimbs digits = ofLimbs digits := by
  unfold bigFromLimbs
  rw [foldl_reverse]
  induction digits with
  | nil => rfl
  | cons digit digits ih =>
    rw [foldr_cons, ih, of_limbs_cons]
    ring

theorem of_limbs_zeros (count : Nat) : ofLimbs (replicate count 0) = 0 := by
  induction count with
  | zero => rfl
  | succ count ih => rw [replicate_succ, of_limbs_cons, ih, Nat.mul_zero]

theorem of_limbs_pad (digits : List Nat) (count : Nat) :
    ofLimbs (digits ++ replicate count 0) = ofLimbs digits := by
  rw [of_limbs_append, of_limbs_zeros, Nat.mul_zero, Nat.add_zero]

theorem of_limbs_lt {digits : List Nat} (small : ∀ digit ∈ digits, digit < base) :
    ofLimbs digits < base ^ digits.length :=
  Nat.ofDigits_lt_base_pow_length (by decide) small

theorem exact_resize {x : AssignedBigUint modulus} {digits : List Nat} {n : Nat}
    (represents : Represents cells x digits) (enough : digits.length ≤ n) :
    Exact (resize n x) cells fun padded cells =>
      Represents cells padded (digits ++ replicate (n - digits.length) 0) ∧
        padded.limbSizeBounds =
          x.limbSizeBounds ++ replicate (n - digits.length) 0 := by
  have lengths := represents.lengths
  unfold resize
  rw [if_neg (by omega)]
  refine exact_zero.returning fun zero added isZero => ?_
  rw [lengths.1, lengths.2]
  refine ⟨⟨?_, ?_⟩, rfl⟩
  · refine rel_append (digits_append represents.limbs added) ?_
    exact forall₂_replicate _ isZero
  · refine rel_append represents.bounds ?_
    exact forall₂_replicate _ (by decide)

/-- The payload bounds of a normalization stay below the bits of the modulus. -/
def carriesFit (numBits : Nat) : Nat → List Nat → Bool
  | _, [] => true
  | carrySizeBound, bound :: bounds =>
    decide (boundOfAddition carrySizeBound bound < numBits) &&
      carriesFit numBits (max (boundOfAddition carrySizeBound bound) log2Base - log2Base) bounds

theorem sum_bound {first second bound1 bound2 : Nat} (firstSmall : first < 2 ^ bound1)
    (secondSmall : second < 2 ^ bound2) : first + second < 2 ^ boundOfAddition bound1 bound2 := by
  unfold boundOfAddition
  split_ifs with zero1 zero2
  · rw [zero1, pow_zero] at firstSmall
    omega
  · rw [zero2, pow_zero] at secondSmall
    omega
  · have first' := lt_of_lt_of_le firstSmall
      (Nat.pow_le_pow_right (by decide : 0 < 2) (Nat.le_max_left bound1 bound2))
    have second' := lt_of_lt_of_le secondSmall
      (Nat.pow_le_pow_right (by decide : 0 < 2) (Nat.le_max_right bound1 bound2))
    rw [Nat.add_comm 1, pow_succ]
    omega

/-- A carry in front of limbs that are not processed, behind limbs in the base. -/
structure Carries (cells : List (ZMod modulus)) (state : Carrying modulus) (carry : Nat)
    (digits : List Nat) : Prop where
  holdsCarry : IsDigit cells state.carry carry
  bounded : carry < 2 ^ state.carrySizeBound
  limbs : Forall₂ (IsDigit cells) state.limbs digits
  inBase : ∀ digit ∈ digits, digit < base

theorem carry_bound {payload : Nat} (small : payload < 2 ^ bound) :
    payload / base < 2 ^ (max bound log2Base - log2Base) := by
  have basePositive : 0 < base := Nat.two_pow_pos _
  rw [Nat.div_lt_iff_lt_mul basePositive]
  unfold base
  rw [← pow_add]
  refine lt_of_lt_of_le small (Nat.pow_le_pow_right (by decide) ?_)
  omega

variable {state : Carrying modulus}

theorem exact_normalize_limb {carry : Nat} {limb : AssignedNative modulus × Nat}
    (carries : Carries cells state carry digits) (isDigit : IsDigit cells limb.1 digit)
    (small : digit < 2 ^ limb.2) (fits : boundOfAddition state.carrySizeBound limb.2 < modulus.size)
    (wide : log2Base < modulus.size) :
    Exact (normalizeLimb state limb) cells fun next cells =>
      Carries cells next ((carry + digit) / base) (digits ++ [(carry + digit) % base]) ∧
        next.carrySizeBound =
          max (boundOfAddition state.carrySizeBound limb.2) log2Base - log2Base := by
  unfold normalizeLimb
  refine (exact_add carries.holdsCarry isDigit).bind fun payload added isPayload => ?_
  rw [if_neg (by omega)]
  have bound := sum_bound carries.bounded small
  refine (exact_div_rem_native isPayload bound fits wide).returning fun parts more holds => ?_
  refine ⟨⟨holds.1, carry_bound bound, ?_, ?_⟩, rfl⟩
  · refine rel_append (digits_append (digits_append carries.limbs added) more) ?_
    exact Forall₂.cons holds.2 Forall₂.nil
  · intro other mem
    rcases mem_append.mp mem with earlier | last
    · exact carries.inBase other earlier
    · rw [mem_singleton.mp last]
      exact Nat.mod_lt _ (Nat.two_pow_pos _)

def LimbsHold (cells : List (ZMod modulus)) : List (AssignedNative modulus × Nat) → List Nat → Prop :=
  Forall₂ fun limb digit => IsDigit cells limb.1 digit ∧ digit < 2 ^ limb.2

theorem exact_normalize_loop (wide : log2Base < modulus.size)
    (limbs : List (AssignedNative modulus × Nat)) {rest : List Nat} {carry : Nat}
    (carries : Carries cells state carry digits) (hold : LimbsHold cells limbs rest)
    (fits : carriesFit modulus.size state.carrySizeBound (limbs.map Prod.snd) = true) :
    Exact (limbs.foldlM normalizeLimb state) cells fun final cells =>
      ∃ last more, Carries cells final last (digits ++ more) ∧ more.length = limbs.length ∧
        ofLimbs more + base ^ limbs.length * last = carry + ofLimbs rest := by
  induction limbs generalizing cells state carry digits rest with
  | nil =>
    cases hold
    refine exact_pure ⟨carry, [], ?_, rfl, ?_⟩
    · rw [append_nil]
      exact carries
    · rw [length_nil, pow_zero, Nat.one_mul, of_limbs_nil]
      omega
  | cons limb limbs ih =>
    cases hold with
    | @cons _ digit _ rest isDigit later =>
      rw [map_cons, carriesFit, Bool.and_eq_true, decide_eq_true_iff] at fits
      rw [foldlM_cons]
      refine (exact_normalize_limb carries isDigit.1 isDigit.2 fits.1 wide).bind
        fun next added reached => ?_
      have laterHold : LimbsHold (cells ++ added) limbs rest :=
        later.imp fun _ _ holds => ⟨holds.1.append added, holds.2⟩
      rw [← reached.2] at fits
      refine (ih reached.1 laterHold fits.2).weaken fun final more onward => ?_
      rcases onward with ⟨last, others, carriesLast, length, sum⟩
      refine ⟨last, (carry + digit) % base :: others, ?_, ?_, ?_⟩
      · rw [append_assoc digits] at carriesLast
        exact carriesLast
      · rw [length_cons, length, length_cons]
      · have division := Nat.mod_add_div (carry + digit) base
        rw [of_limbs_cons, of_limbs_cons, length_cons, pow_succ]
        calc (carry + digit) % base + base * ofLimbs others + base ^ limbs.length * base * last
            = (carry + digit) % base +
                base * (ofLimbs others + base ^ limbs.length * last) := by ring
          _ = (carry + digit) % base + base * ((carry + digit) / base + ofLimbs rest) := by
              rw [sum]
          _ = (carry + digit) % base + base * ((carry + digit) / base) +
                base * ofLimbs rest := by ring
          _ = carry + (digit + base * ofLimbs rest) := by rw [division]; ring

theorem carries_fit_zeros (count : Nat) (fits : carrySizeBound < numBits) :
    carriesFit numBits carrySizeBound (replicate count 0) = true := by
  induction count generalizing carrySizeBound with
  | zero => rfl
  | succ count ih =>
    have same : boundOfAddition carrySizeBound 0 = carrySizeBound := by
      unfold boundOfAddition
      split_ifs with zero
      · exact zero.symm
      · rfl
      · exact absurd rfl ‹_›
    rw [replicate_succ, carriesFit, same, Bool.and_eq_true, decide_eq_true_iff]
    exact ⟨fits, ih (by omega)⟩

variable {bounds : List Nat}

theorem carries_fit_pad (count : Nat) (start : carrySizeBound < numBits)
    (fits : carriesFit numBits carrySizeBound bounds = true) :
    carriesFit numBits carrySizeBound (bounds ++ replicate count 0) = true := by
  induction bounds generalizing carrySizeBound with
  | nil => exact carries_fit_zeros count start
  | cons bound bounds ih =>
    rw [carriesFit, Bool.and_eq_true, decide_eq_true_iff] at fits
    rw [cons_append, carriesFit, Bool.and_eq_true, decide_eq_true_iff]
    exact ⟨fits.1, ih (by omega) fits.2⟩

theorem carries_fit_small (room : log2Base + 2 < numBits) (start : carrySizeBound ≤ 2)
    (small : ∀ bound ∈ bounds, bound ≤ log2Base + 1) :
    carriesFit numBits carrySizeBound bounds = true := by
  induction bounds generalizing carrySizeBound with
  | nil => rfl
  | cons bound bounds ih =>
    have first := small bound mem_cons_self
    have payload : boundOfAddition carrySizeBound bound ≤ log2Base + 2 := by
      unfold boundOfAddition log2Base at *
      split_ifs <;> omega
    rw [carriesFit, Bool.and_eq_true, decide_eq_true_iff]
    exact ⟨by omega, ih (by omega) (forall_mem_cons.mp small).2⟩

def largest (bounds : List Nat) : Nat := ofLimbs (bounds.map fun bound => 2 ^ bound - 1)

omit [Fact modulus.Prime] in
theorem nb_bits_eq (x : AssignedBigUint modulus) :
    x.nbBits = (largest x.limbSizeBounds).size := by
  unfold AssignedBigUint.nbBits largest
  rw [foldl_reverse]
  congr 1
  induction x.limbSizeBounds with
  | nil => rfl
  | cons bound bounds ih =>
    have pos := Nat.two_pow_pos bound
    rw [foldr_cons, ih, map_cons, of_limbs_cons, Nat.add_sub_assoc pos, Nat.mul_comm, Nat.add_comm]

theorem of_limbs_le_largest {digits bounds : List Nat}
    (small : Forall₂ (fun digit bound => digit < 2 ^ bound) digits bounds) :
    ofLimbs digits ≤ largest bounds := by
  induction small with
  | nil => exact le_refl 0
  | @cons digit bound digits bounds first _ ih =>
    unfold largest at ih ⊢
    rw [map_cons, of_limbs_cons, of_limbs_cons]
    have scaled := Nat.mul_le_mul_left base ih
    omega

theorem largest_reaches {last : Nat} (pos : 0 < last) :
    base ^ bounds.length ≤ largest (bounds ++ [last]) := by
  unfold largest
  have one : 1 ≤ 2 ^ last - 1 := by
    have two := Nat.pow_le_pow_right (by decide : 0 < 2) pos
    omega
  rw [map_append, of_limbs_append, length_map, map_cons, map_nil, of_limbs_cons,
    of_limbs_nil, Nat.mul_zero, Nat.add_zero]
  exact le_trans (Nat.le_mul_of_pos_right _ one) (Nat.le_add_left _ _)

def limbsOf (value : Nat) : Nat := (value.size + log2Base - 1) / log2Base

theorem limbs_enough (value : Nat) : value < base ^ limbsOf value := by
  refine lt_of_lt_of_le (Nat.lt_size_self value) ?_
  unfold base
  rw [← pow_mul]
  refine Nat.pow_le_pow_right (by decide) ?_
  unfold limbsOf log2Base
  omega

theorem limbs_needed {value count : Nat} (reaches : base ^ count ≤ value) :
    count < limbsOf value := by
  unfold base at reaches
  rw [← pow_mul] at reaches
  have size := Nat.lt_size.mpr reaches
  unfold limbsOf log2Base at *
  omega

def Reaches (bounds : List Nat) : Prop := bounds.length ≤ limbsOf (largest bounds)

theorem reaches_last {last : Nat} (pos : 0 < last) : Reaches (bounds ++ [last]) := by
  unfold Reaches
  rw [length_append, length_singleton]
  exact limbs_needed (largest_reaches pos)

theorem reaches_positive (pos : ∀ bound ∈ bounds, 0 < bound) : Reaches bounds := by
  rcases eq_nil_or_concat bounds with empty | ⟨before, last, split⟩
  · rw [empty]
    exact Nat.zero_le _
  · rw [concat_eq_append] at split
    rw [split]
    exact reaches_last (pos last (by rw [split]; exact mem_concat_self))

theorem Reaches.mono {bounds larger : List Nat} (reaches : Reaches bounds)
    (length : larger.length = bounds.length) (le : largest bounds ≤ largest larger) :
    Reaches larger := by
  have sizes := Nat.size_le_size le
  unfold Reaches limbsOf log2Base at *
  omega

section Pairs

variable {First Second Third : Type}

theorem forall₂_zip {first : First → Third → Prop} {second : Third → Second → Prop}
    {firsts : List First} {seconds : List Second} {thirds : List Third}
    (all : Forall₂ first firsts thirds) (others : Forall₂ second thirds seconds) :
    Forall₂ (fun pair third => first pair.1 third ∧ second third pair.2)
      (firsts.zip seconds) thirds := by
  induction all generalizing seconds with
  | nil =>
    cases others
    exact Forall₂.nil
  | cons related _ ih =>
    cases others with
    | cons next rest => exact Forall₂.cons ⟨related, next⟩ (ih rest)

theorem forall₂_replicate_right {bound : Nat} {digits : List Nat}
    (small : ∀ digit ∈ digits, digit < 2 ^ bound) :
    Forall₂ (fun digit bound => digit < 2 ^ bound) digits
      (replicate digits.length bound) := by
  induction digits with
  | nil => exact Forall₂.nil
  | cons digit digits ih =>
    rw [length_cons, replicate_succ]
    exact Forall₂.cons (small digit mem_cons_self) (ih (forall_mem_cons.mp small).2)

end Pairs

/-- Every limb is below its bound and the bounds are at most the base. -/
structure Number (cells : List (ZMod modulus)) (x : AssignedBigUint modulus) (n : Nat) : Prop where
  limbs : Forall₂ (fun limb bound => Holds cells limb ∧ limb.value.val < 2 ^ bound)
    x.limbs x.limbSizeBounds
  bounds : ∀ bound ∈ x.limbSizeBounds, bound ≤ log2Base
  reaches : Reaches x.limbSizeBounds
  value : x.value = n

variable {n : Nat}

omit [Fact modulus.Prime] in
theorem Number.append (number : Number cells x n) (added : List (ZMod modulus)) :
    Number (cells ++ added) x n :=
  ⟨number.limbs.imp fun _ _ holds => ⟨holds.1.append added, holds.2⟩, number.bounds,
    number.reaches, number.value⟩

omit [Fact modulus.Prime] in
theorem Number.normalized (number : Number cells x n) : x.isNormalized = true := by
  unfold AssignedBigUint.isNormalized
  rw [all_eq_true]
  intro bound mem
  exact decide_eq_true (number.bounds bound mem)

omit [Fact modulus.Prime] in
theorem value_eq (x : AssignedBigUint modulus) :
    x.value = ofLimbs (x.limbs.map fun limb => limb.value.val) := big_from_limbs_eq _

theorem Number.represents (number : Number cells x n) :
    Represents cells x (x.limbs.map fun limb => limb.value.val) := by
  constructor
  · rw [forall₂_map_right_iff, forall₂_same]
    intro limb mem
    obtain ⟨bound, -, holds⟩ := forall₂_mem_left number.limbs mem
    exact ⟨(ZMod.natCast_zmod_val limb.value).symm, holds.1⟩
  · rw [forall₂_map_left_iff]
    exact number.limbs.imp fun _ _ holds => holds.2

theorem digits_are_values {digits : List Nat} (hold : Forall₂ (IsDigit cells) limbs digits)
    (small : ∀ digit ∈ digits, digit < modulus) :
    limbs.map (fun limb => limb.value.val) = digits := by
  induction hold with
  | nil => rfl
  | @cons limb digit limbs digits isDigit _ ih =>
    rw [map_cons, isDigit.val (small digit mem_cons_self), ih (forall_mem_cons.mp small).2]

theorem Represents.number {digits : List Nat} (represents : Represents cells x digits)
    (wide : log2Base < modulus.size) (bounds : ∀ bound ∈ x.limbSizeBounds, bound ≤ log2Base)
    (reaches : Reaches x.limbSizeBounds) :
    Number cells x (ofLimbs digits) := by
  have below : ∀ digit ∈ digits, digit < modulus := by
    intro digit mem
    obtain ⟨bound, boundMember, small⟩ := forall₂_mem_left represents.bounds mem
    exact lt_of_lt_of_le small (pow_le_modulus (lt_of_le_of_lt (bounds bound boundMember) wide))
  have values := digits_are_values represents.limbs below
  refine ⟨?_, bounds, reaches, by rw [value_eq, values]⟩
  have all := represents.bounds
  have hold := represents.limbs
  rw [← values, forall₂_map_left_iff] at all
  rw [forall₂_iff_zip] at all ⊢
  refine ⟨all.1, fun {limb bound} mem => ⟨?_, all.2 mem⟩⟩
  obtain ⟨digit, -, isDigit⟩ := forall₂_mem_left hold (of_mem_zip mem).1
  exact isDigit.2

omit [Fact modulus.Prime] in
theorem Number.lengths (number : Number cells x n) :
    x.limbs.length = x.limbSizeBounds.length := number.limbs.length_eq

theorem Number.small (number : Number cells x n) : n < 2 ^ x.nbBits := by
  have digits := of_limbs_le_largest number.represents.bounds
  rw [← value_eq, number.value] at digits
  rw [nb_bits_eq]
  exact lt_of_le_of_lt digits (Nat.lt_size_self _)

theorem exact_normalize {digits : List Nat} (represents : Represents cells x digits)
    (wide : log2Base < modulus.size) (reaches : Reaches x.limbSizeBounds)
    (fits : carriesFit modulus.size 0 x.limbSizeBounds = true) :
    Exact (normalize x) cells fun result cells => Number cells result (ofLimbs digits) := by
  unfold normalize
  split_ifs with normalized
  · refine exact_pure (represents.number wide (fun bound mem => ?_) reaches)
    exact of_decide_eq_true (all_eq_true.mp normalized bound mem)
  · have lengths := represents.lengths
    have total := lt_of_le_of_lt (of_limbs_le_largest represents.bounds) (limbs_enough _)
    have count_eq : (x.nbBits + log2Base - 1) / log2Base = limbsOf (largest x.limbSizeBounds) := by
      rw [nb_bits_eq]
      rfl
    unfold Reaches at reaches
    rw [lengths.2] at reaches
    dsimp only
    rw [count_eq]
    generalize limbsOf (largest x.limbSizeBounds) = count at reaches total
    refine (exact_resize represents reaches).bind fun padded added holds => ?_
    refine exact_zero.bind fun zero more isZero => ?_
    have start : Carries ((cells ++ added) ++ more) { carry := zero, carrySizeBound := 0, limbs := [] }
        0 [] :=
      ⟨isZero, Nat.one_pos, Forall₂.nil, fun digit mem => absurd mem not_mem_nil⟩
    have paddedLengths := holds.1.lengths
    have bounds : (padded.limbs.zip padded.limbSizeBounds).map Prod.snd = padded.limbSizeBounds :=
      map_snd_zip (by omega)
    have paddedFits : carriesFit modulus.size 0
        ((padded.limbs.zip padded.limbSizeBounds).map Prod.snd) = true := by
      rw [bounds, holds.2]
      exact carries_fit_pad _ (by omega) fits
    have all := holds.1.append more
    have hold : LimbsHold ((cells ++ added) ++ more) (padded.limbs.zip padded.limbSizeBounds)
        (digits ++ replicate (count - digits.length) 0) :=
      forall₂_zip all.limbs all.bounds
    have length : (padded.limbs.zip padded.limbSizeBounds).length = count := by
      rw [length_zip, paddedLengths.1, paddedLengths.2, Nat.min_self, length_append,
        length_replicate]
      omega
    refine (exact_normalize_loop wide _ start hold paddedFits).bind fun final further reached => ?_
    rcases reached with ⟨last, others, carries, othersLength, sum⟩
    rw [nil_append] at carries
    rw [length, of_limbs_pad, Nat.zero_add] at sum
    have noCarry : last = 0 := by
      by_contra pos
      have large := Nat.le_mul_of_pos_right (base ^ count) (Nat.pos_of_ne_zero pos)
      omega
    rw [noCarry, Nat.mul_zero, Nat.add_zero] at sum
    have zeroValue : final.carry.value = 0 := by
      rw [carries.holdsCarry.1, noCarry, Nat.cast_zero]
    refine (exact_emit (computes_constrain zeroValue)).returning fun _ ended _ => ?_
    rw [← sum]
    have normalizedResult : Represents ((((cells ++ added) ++ more) ++ further) ++ ended)
        { limbs := final.limbs, limbSizeBounds := replicate count log2Base } others := by
      refine ⟨digits_append carries.limbs ended, ?_⟩
      rw [← length, ← othersLength]
      exact forall₂_replicate_right carries.inBase
    refine normalizedResult.number wide (fun bound mem => ?_) (reaches_positive fun bound mem => ?_)
    · rw [eq_of_mem_replicate mem]
    · rw [eq_of_mem_replicate mem]
      decide

end Midfall.BigUint
