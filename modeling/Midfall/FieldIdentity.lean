import Midfall.ListLoops

/-!
# Identities of an emulated field

`foreign/util.rs`: an expression is a multiple of the emulated modulus. The
circuit checks it in the native field and modulo auxiliary moduli; when their
least common multiple exceeds the range of the expression, it holds over the
integers.
-/

namespace Midfall.FieldIdentity

open ListLoops List

def divCeil (value : Int) (divisor : Nat) : Int := -(-value / divisor)

def divFloor (value : Int) (divisor : Nat) : Int := value / divisor

/-- Always in `0..modulus`. -/
def urem (value : Int) (modulus : Nat) : Int := value % modulus

def ceilLog2 (value : Int) : Nat := (value - 1).natAbs.size

/-- The rows of optimal range checks, from `bound` down to no bits. -/
def limbRows (nbParallelRangeChecks maxBitLen : Nat) : Nat → List Nat
  | 0 => [0]
  | bound + 1 =>
    let smaller := limbRows nbParallelRangeChecks maxBitLen bound
    let rows := (range nbParallelRangeChecks).flatMap fun lookups =>
      (range maxBitLen).filterMap fun bits =>
        (smaller[(lookups + 1) * (bits + 1) - 1]?).map (· + 1)
    (rows.min?.getD 0) :: smaller

/-- A larger candidate is taken when it is cheaper than the best one so far. -/
def cheaper (cost : Nat → Nat) (baseLog : Nat) (best : Nat × Nat) (i : Nat) : Nat × Nat :=
  if cost (baseLog + (i + 1)) < best.2 then (baseLog + (i + 1), cost (baseLog + (i + 1))) else best

def nextCheapestPowerOfTwo (nbParallelRangeChecks maxBitLen : Nat) (x : Int) : Nat :=
  let baseLog := ceilLog2 x
  let cost := fun bound => (limbRows nbParallelRangeChecks maxBitLen bound).headD 0
  2 ^ ((range 128).foldl (cheaper cost baseLog) (baseLog, cost baseLog)).1

/-- The range of the quotients by the emulated modulus and by the auxiliary moduli. -/
structure AuxiliaryBounds where
  kMin : Int
  uMax : Nat
  vs : List (Int × Nat)
  deriving DecidableEq

/-- Moduli are taken until their least common multiple exceeds the bounds. -/
def necessaryModuli (lower upper : Int) (lcm : Nat) : List Nat → List Nat × Nat
  | [] => ([], lcm)
  | mj :: rest =>
    if -lower < lcm ∧ upper < lcm then ([], lcm)
    else
      let found := necessaryModuli lower upper (lcm.lcm mj) rest
      (mj :: found.1, found.2)

def auxiliaryModulusBounds (nbParallelRangeChecks maxBitLen modulus m : Nat) (kMin : Int)
    (uMax mj : Nat) (bounds : Int × Int) : Option (Int × Nat) :=
  let kMinMod := urem (kMin * m) mj
  let ljMin := divCeil (bounds.1 - uMax * urem m mj - kMinMod) mj
  let ljMax := divFloor (bounds.2 - kMinMod) mj
  let vjMax := nextCheapestPowerOfTwo nbParallelRangeChecks maxBitLen (ljMax - ljMin + 1)
  let lower := bounds.1 - uMax * urem m mj - kMinMod - (vjMax + ljMin) * mj
  let upper := bounds.2 - kMinMod - ljMin * mj
  if modulus ≤ -lower ∨ modulus ≤ upper then none else some (ljMin, vjMax)

/-- Panics when the moduli are not enough or an identity may wrap around. -/
def getIdentityAuxiliaryBounds (nbParallelRangeChecks maxBitLen modulus m : Nat) (moduli : List Nat)
    (exprBounds : Int × Int) (exprMjBounds : List (Int × Int)) : Option AuxiliaryBounds :=
  let kMin := divCeil exprBounds.1 m
  let kMax := divFloor exprBounds.2 m
  let uMax := nextCheapestPowerOfTwo nbParallelRangeChecks maxBitLen (kMax - kMin + 1)
  let lower := exprBounds.1 - (uMax + kMin) * m
  let upper := exprBounds.2 - kMin * m
  let necessary := necessaryModuli lower upper modulus moduli
  if necessary.2 ≤ -lower ∨ necessary.2 ≤ upper then none
  else do
    let vs ← (necessary.1.zip exprMjBounds).mapM fun entry =>
      auxiliaryModulusBounds nbParallelRangeChecks maxBitLen modulus m kMin uMax entry.1 entry.2
    return { kMin := kMin, uMax := uMax, vs := vs }

/-- `expr = (u + kMin) m`. -/
def computeU (m : Nat) (expr kMin : Int) : Int := expr.tdiv m - kMin

/-- `exprMj - u (m % mj) - (kMin m) % mj = (vj + ljMin) mj`. -/
def computeVj (m mj : Nat) (exprMj u kMin ljMin : Int) : Int :=
  (exprMj - u * urem m mj - urem (kMin * m) mj).tdiv mj - ljMin

def nativeIdentity (m : Nat) (expr u kMin : Int) : Int := expr - (u + kMin) * m

def modulusIdentity (m mj : Nat) (exprMj u kMin vj ljMin : Int) : Int :=
  exprMj - u * urem m mj - urem (kMin * m) mj - (vj + ljMin) * mj

theorem div_ceil_bounds (value : Int) {divisor : Nat} (pos : 0 < divisor) :
    value ≤ divCeil value divisor * divisor ∧ (divCeil value divisor - 1) * divisor < value := by
  have below := Int.ediv_mul_le (-value) (by omega : (divisor : Int) ≠ 0)
  have above := Int.lt_ediv_add_one_mul_self (-value) (by omega : (0 : Int) < divisor)
  unfold divCeil
  constructor
  · rw [neg_mul]
    omega
  · have negated : (-(-value / (divisor : Int)) - 1) * divisor =
        -((-value / (divisor : Int) + 1) * divisor) := by ring
    rw [negated]
    omega

theorem div_floor_bounds (value : Int) {divisor : Nat} (pos : 0 < divisor) :
    divFloor value divisor * divisor ≤ value ∧ value < (divFloor value divisor + 1) * divisor :=
  ⟨Int.ediv_mul_le _ (by omega), Int.lt_ediv_add_one_mul_self _ (by omega)⟩

theorem le_of_multiple {first second : Int} {divisor : Nat} (pos : 0 < divisor)
    (below : first * divisor < (second + 1) * divisor) : first ≤ second := by
  have compared := lt_of_mul_lt_mul_right below (by omega : (0 : Int) ≤ divisor)
  omega

theorem urem_bounds (value : Int) {modulus : Nat} (pos : 0 < modulus) :
    0 ≤ urem value modulus ∧ urem value modulus < modulus :=
  ⟨Int.emod_nonneg _ (by omega), Int.emod_lt_of_pos _ (by omega)⟩

theorem cheaper_grows (cost : Nat → Nat) (baseLog : Nat) (steps : List Nat) {best : Nat × Nat}
    (reached : baseLog ≤ best.1) : baseLog ≤ (steps.foldl (cheaper cost baseLog) best).1 := by
  refine foldlRecOn (motive := fun best : Nat × Nat => baseLog ≤ best.1) steps _ reached
    fun best reached i _ => ?_
  unfold cheaper
  split_ifs
  · exact Nat.le_add_right _ _
  · exact reached

theorem le_next_cheapest (nbParallelRangeChecks maxBitLen : Nat) (x : Int) :
    x ≤ nextCheapestPowerOfTwo nbParallelRangeChecks maxBitLen x := by
  have size : (x - 1).natAbs < 2 ^ ceilLog2 x := Nat.lt_size_self _
  have log := @cheaper_grows (fun bound => (limbRows nbParallelRangeChecks maxBitLen bound).headD 0)
    (ceilLog2 x) (range 128) (ceilLog2 x,
      (limbRows nbParallelRangeChecks maxBitLen (ceilLog2 x)).headD 0) le_rfl
  have whole : (x - 1).natAbs + 1 ≤ nextCheapestPowerOfTwo nbParallelRangeChecks maxBitLen x :=
    le_trans size (Nat.pow_le_pow_right (by decide) log)
  calc x ≤ ((x - 1).natAbs + 1 : Nat) := by omega
    _ ≤ _ := by exact_mod_cast whole

theorem necessary_prefix (lower upper : Int) (lcm : Nat) (moduli : List Nat) :
    (necessaryModuli lower upper lcm moduli).1 <+: moduli := by
  induction moduli generalizing lcm with
  | nil => exact prefix_refl _
  | cons mj moduli ih =>
    unfold necessaryModuli
    split_ifs
    · exact nil_prefix
    · exact (cons_prefix_cons).mpr ⟨rfl, ih _⟩

theorem necessary_dvd (lower upper : Int) (lcm : Nat) (moduli : List Nat) {value : Int}
    (start : (lcm : Int) ∣ value)
    (each : ∀ mj ∈ (necessaryModuli lower upper lcm moduli).1, (mj : Int) ∣ value) :
    ((necessaryModuli lower upper lcm moduli).2 : Int) ∣ value := by
  induction moduli generalizing lcm with
  | nil => exact start
  | cons mj moduli ih =>
    unfold necessaryModuli at each ⊢
    split_ifs at each ⊢ with enough
    · exact start
    · have divides : (mj : Int) ∣ value := each mj mem_cons_self
      refine ih _ ?_ (forall_mem_cons.mp each).2
      have lcmDivides : lcm.lcm mj ∣ value.natAbs :=
        Nat.lcm_dvd (Int.natCast_dvd.mp start) (Int.natCast_dvd.mp divides)
      exact Int.natCast_dvd.mpr lcmDivides

theorem eq_zero_of_small {modulus : Nat} {value : Int} (divides : (modulus : Int) ∣ value)
    (above : -(modulus : Int) < value) (below : value < modulus) : value = 0 :=
  Int.eq_zero_of_abs_lt_dvd divides (abs_lt.mpr ⟨above, below⟩)

/-- The quotients by an auxiliary modulus fit their range and do not wrap around. -/
structure ModulusChecked (modulus m : Nat) (kMin : Int) (uMax : Nat) (lo hi : Int) (mj : Nat)
    (v : Int × Nat) : Prop where
  least : lo - uMax * urem m mj - urem (kMin * m) mj ≤ v.1 * mj
  tight : (v.1 - 1) * mj < lo - uMax * urem m mj - urem (kMin * m) mj
  most : hi - urem (kMin * m) mj < (v.2 + v.1) * mj
  lower : -(lo - uMax * urem m mj - urem (kMin * m) mj - (v.2 + v.1) * mj) < modulus
  upper : hi - urem (kMin * m) mj - v.1 * mj < modulus
  positive : 0 < v.2

/-- The quotients by the emulated modulus fit their range; `total` exceeds the identity. -/
structure Checked (modulus m : Nat) (moduli : List Nat) (lo hi : Int) (loMod hiMod : Nat → Int)
    (bounds : AuxiliaryBounds) (taken : List Nat) (total : Nat) : Prop where
  taken_prefix : taken <+: moduli
  least : lo ≤ bounds.kMin * m
  tight : (bounds.kMin - 1) * m < lo
  most : hi < (bounds.uMax + bounds.kMin) * m
  vs : Forall₂ (fun mj v =>
    ModulusChecked modulus m bounds.kMin bounds.uMax (loMod mj) (hiMod mj) mj v) taken bounds.vs
  total_dvd : ∀ value : Int, (modulus : Int) ∣ value → (∀ mj ∈ taken, (mj : Int) ∣ value) →
    (total : Int) ∣ value
  lower : -(lo - (bounds.uMax + bounds.kMin) * m) < total
  upper : hi - bounds.kMin * m < total
  positive : 0 < bounds.uMax

section Spec

variable {parallel bitLen modulus m : Nat} {moduli : List Nat} {lo hi : Int}
  {loMod hiMod : Nat → Int} {bounds : AuxiliaryBounds}

variable {kMin : Int} {uMax mj : Nat} {v : Int × Nat}

theorem modulus_checked (pos : 0 < mj)
    (found : auxiliaryModulusBounds parallel bitLen modulus m kMin uMax mj (lo, hi) = some v) :
    ModulusChecked modulus m kMin uMax lo hi mj v := by
  unfold auxiliaryModulusBounds at found
  dsimp only at found
  split_ifs at found with wraps
  have bounded := not_or.mp wraps
  have same := Option.some.inj found
  have rounded := div_ceil_bounds (lo - uMax * urem m mj - urem (kMin * m) mj) pos
  have floor := div_floor_bounds (hi - urem (kMin * m) mj) pos
  have reached := le_next_cheapest parallel bitLen (divFloor (hi - urem (kMin * m) mj) mj -
    divCeil (lo - uMax * urem m mj - urem (kMin * m) mj) mj + 1)
  rw [← same]
  refine ⟨rounded.1, rounded.2, ?_, not_le.mp bounded.1, not_le.mp bounded.2, Nat.two_pow_pos _⟩
  refine lt_of_lt_of_le floor.2 (mul_le_mul_of_nonneg_right ?_ (by omega))
  omega

theorem zip_map_taken {taken : List Nat} (isPrefix : taken <+: moduli) :
    taken.zip (moduli.map fun mj => (loMod mj, hiMod mj)) =
      taken.map fun mj => (mj, (loMod mj, hiMod mj)) := by
  rcases isPrefix with ⟨rest, rfl⟩
  induction taken with
  | nil => rfl
  | cons mj taken ih =>
    rw [cons_append, map_cons, zip_cons_cons, map_cons, ih]

theorem bounds_checked (pos : 0 < m) (moduliPositive : ∀ mj ∈ moduli, 0 < mj)
    (found : getIdentityAuxiliaryBounds parallel bitLen modulus m moduli (lo, hi)
      (moduli.map fun mj => (loMod mj, hiMod mj)) = some bounds) :
    ∃ taken total, Checked modulus m moduli lo hi loMod hiMod bounds taken total := by
  unfold getIdentityAuxiliaryBounds at found
  dsimp only at found
  generalize uMaxIs : nextCheapestPowerOfTwo parallel bitLen
    (divFloor hi m - divCeil lo m + 1) = uMax at found
  generalize takenIs : necessaryModuli (lo - (uMax + divCeil lo m) * m) (hi - divCeil lo m * m)
    modulus moduli = necessary at found
  have isPrefix : necessary.1 <+: moduli := by
    rw [← takenIs]
    exact necessary_prefix _ _ _ _
  split_ifs at found with short
  rw [zip_map_taken isPrefix] at found
  simp only [bind_some_iff, pure_some_iff] at found
  rcases found with ⟨vs, vsFound, rfl⟩
  have enough := not_or.mp short
  have rounded := div_ceil_bounds lo pos
  have floor := div_floor_bounds hi pos
  have reached := le_next_cheapest parallel bitLen (divFloor hi m - divCeil lo m + 1)
  rw [uMaxIs] at reached
  refine ⟨necessary.1, necessary.2, isPrefix, rounded.1, rounded.2, ?_, ?_, ?_,
    not_le.mp enough.1, not_le.mp enough.2, by rw [← uMaxIs]; exact Nat.two_pow_pos _⟩
  · have range : divFloor hi m + 1 ≤ uMax + divCeil lo m := by omega
    exact lt_of_lt_of_le floor.2 (mul_le_mul_of_nonneg_right range (by omega))
  · have each := map_m_forall₂ vsFound
    rw [forall₂_map_left_iff] at each
    have both := (forall₂_and_left necessary.1 vs).mpr
      ⟨fun mj mem => moduliPositive mj (isPrefix.subset mem), each⟩
    exact both.imp fun mj v checked => modulus_checked checked.1 checked.2
  · intro value first others
    rw [← takenIs] at others ⊢
    exact necessary_dvd _ _ _ _ first others

variable {taken : List Nat} {total : Nat} {expr u : Int}

theorem reduced_congruent (kMin u : Int) (mj : Nat) :
    u * urem m mj + urem (kMin * m) mj ≡ (u + kMin) * m [ZMOD mj] := by
  have first : urem (m : Int) mj ≡ m [ZMOD mj] := Int.mod_modEq _ _
  have second : urem (kMin * m) mj ≡ kMin * m [ZMOD mj] := Int.mod_modEq _ _
  rw [add_mul]
  exact (first.mul_left u).add second

theorem ModulusChecked.sound {exprMj vj : Int} (pos : 0 < mj)
    (checked : ModulusChecked modulus m kMin uMax lo hi mj v) (range : lo ≤ exprMj ∧ exprMj ≤ hi)
    (congruent : exprMj ≡ expr [ZMOD mj]) (uSmall : 0 ≤ u ∧ u < uMax) (vjSmall : 0 ≤ vj ∧ vj < v.2)
    (holds : (modulus : Int) ∣ modulusIdentity m mj exprMj u kMin vj v.1) :
    (mj : Int) ∣ nativeIdentity m expr u kMin := by
  have residue := urem_bounds (m : Int) pos
  have product : u * urem m mj ≤ uMax * urem m mj :=
    mul_le_mul_of_nonneg_right uSmall.2.le residue.1
  have nonneg : 0 ≤ u * urem m mj := mul_nonneg uSmall.1 residue.1
  have quotient : (vj + v.1) * mj ≤ (v.2 + v.1) * mj :=
    mul_le_mul_of_nonneg_right (by omega) (by omega)
  have quotientLeast : v.1 * mj ≤ (vj + v.1) * mj :=
    mul_le_mul_of_nonneg_right (by omega) (by omega)
  have lower := checked.lower
  have upper := checked.upper
  have zero : modulusIdentity m mj exprMj u kMin vj v.1 = 0 := by
    apply eq_zero_of_small holds
    · unfold modulusIdentity
      omega
    · unfold modulusIdentity
      omega
  have multiple : exprMj - (u * urem m mj + urem (kMin * m) mj) = (vj + v.1) * mj := by
    unfold modulusIdentity at zero
    omega
  have reduced : exprMj ≡ u * urem m mj + urem (kMin * m) mj [ZMOD mj] :=
    (Int.modEq_iff_dvd.mpr ⟨vj + v.1, by rw [multiple, mul_comm]⟩).symm
  have whole : expr ≡ (u + kMin) * m [ZMOD mj] :=
    (congruent.symm.trans reduced).trans (reduced_congruent kMin u mj)
  exact Int.modEq_iff_dvd.mp whole.symm

theorem Checked.sound (checked : Checked modulus m moduli lo hi loMod hiMod bounds taken total)
    (moduliPositive : ∀ mj ∈ moduli, 0 < mj) {exprMod : Nat → Int} (range : lo ≤ expr ∧ expr ≤ hi)
    (modRange : ∀ mj ∈ moduli, loMod mj ≤ exprMod mj ∧ exprMod mj ≤ hiMod mj)
    (congruent : ∀ mj ∈ moduli, exprMod mj ≡ expr [ZMOD mj]) (uSmall : 0 ≤ u ∧ u < bounds.uMax)
    (native : (modulus : Int) ∣ nativeIdentity m expr u bounds.kMin)
    (auxiliary : ∀ mj ∈ taken, ∃ v : Int × Nat, ∃ vj : Int,
      ModulusChecked modulus m bounds.kMin bounds.uMax (loMod mj) (hiMod mj) mj v ∧
        (0 ≤ vj ∧ vj < v.2) ∧
          (modulus : Int) ∣ modulusIdentity m mj (exprMod mj) u bounds.kMin vj v.1) :
    expr = (u + bounds.kMin) * m := by
  have divides : (total : Int) ∣ nativeIdentity m expr u bounds.kMin := by
    refine checked.total_dvd _ native fun mj mem => ?_
    have inModuli := checked.taken_prefix.subset mem
    rcases auxiliary mj mem with ⟨v, vj, modulusChecked, vjSmall, holds⟩
    exact modulusChecked.sound (moduliPositive mj inModuli) (modRange mj inModuli)
      (congruent mj inModuli) uSmall vjSmall holds
  have least : bounds.kMin * m ≤ (u + bounds.kMin) * m :=
    mul_le_mul_of_nonneg_right (by omega) (by omega)
  have most : (u + bounds.kMin) * m ≤ (bounds.uMax + bounds.kMin) * m :=
    mul_le_mul_of_nonneg_right (by omega) (by omega)
  have lower := checked.lower
  have upper := checked.upper
  have zero : nativeIdentity m expr u bounds.kMin = 0 := by
    apply eq_zero_of_small divides
    · unfold nativeIdentity
      omega
    · unfold nativeIdentity
      omega
  unfold nativeIdentity at zero
  omega

theorem Checked.complete (checked : Checked modulus m moduli lo hi loMod hiMod bounds taken total)
    (pos : 0 < m) (range : lo ≤ expr ∧ expr ≤ hi) (divides : (m : Int) ∣ expr) :
    (0 ≤ computeU m expr bounds.kMin ∧ computeU m expr bounds.kMin < bounds.uMax) ∧
      nativeIdentity m expr (computeU m expr bounds.kMin) bounds.kMin = 0 := by
  have exactQuotient : expr.tdiv m * m = expr := Int.tdiv_mul_cancel divides
  have whole : (computeU m expr bounds.kMin + bounds.kMin) * m = expr := by
    unfold computeU
    rw [sub_add_cancel, exactQuotient]
  have tight := checked.tight
  have most := checked.most
  refine ⟨⟨?_, ?_⟩, ?_⟩
  · have above := @le_of_multiple bounds.kMin (expr.tdiv m) m pos (by
      have stretched : (expr.tdiv m + 1) * m = expr + m := by rw [add_mul, exactQuotient, one_mul]
      have unstretched : (bounds.kMin - 1) * m = bounds.kMin * m - m := by ring
      omega)
    unfold computeU
    omega
  · have below : expr.tdiv m * m < (bounds.uMax + bounds.kMin) * m := by omega
    have compared := lt_of_mul_lt_mul_right below (by omega : (0 : Int) ≤ m)
    unfold computeU
    omega
  · unfold nativeIdentity
    omega

theorem ModulusChecked.complete {exprMj : Int} (pos : 0 < mj)
    (checked : ModulusChecked modulus m kMin uMax lo hi mj v) (range : lo ≤ exprMj ∧ exprMj ≤ hi)
    (congruent : exprMj ≡ expr [ZMOD mj]) (uSmall : 0 ≤ u ∧ u < uMax)
    (whole : nativeIdentity m expr u kMin = 0) :
    (0 ≤ computeVj m mj exprMj u kMin v.1 ∧ computeVj m mj exprMj u kMin v.1 < v.2) ∧
      modulusIdentity m mj exprMj u kMin (computeVj m mj exprMj u kMin v.1) v.1 = 0 := by
  have residue := urem_bounds (m : Int) pos
  have product : u * urem m mj ≤ uMax * urem m mj :=
    mul_le_mul_of_nonneg_right uSmall.2.le residue.1
  have nonneg : 0 ≤ u * urem m mj := mul_nonneg uSmall.1 residue.1
  have multiple : expr = (u + kMin) * m := by
    unfold nativeIdentity at whole
    omega
  have reduced : u * urem m mj + urem (kMin * m) mj ≡ exprMj [ZMOD mj] := by
    refine (reduced_congruent kMin u mj).trans ?_
    rw [← multiple]
    exact congruent.symm
  have divides : (mj : Int) ∣ exprMj - u * urem m mj - urem (kMin * m) mj := by
    rw [sub_sub]
    exact Int.modEq_iff_dvd.mp reduced
  have exactQuotient := Int.tdiv_mul_cancel divides
  have tight := checked.tight
  have most := checked.most
  refine ⟨⟨?_, ?_⟩, ?_⟩
  · have above := @le_of_multiple v.1
      ((exprMj - u * urem m mj - urem (kMin * m) mj).tdiv mj) mj pos (by
        have stretched : ((exprMj - u * urem m mj - urem (kMin * m) mj).tdiv mj + 1) * mj =
            exprMj - u * urem m mj - urem (kMin * m) mj + mj := by
          rw [add_mul, exactQuotient, one_mul]
        have unstretched : (v.1 - 1) * mj = v.1 * mj - mj := by ring
        omega)
    unfold computeVj
    omega
  · have below : (exprMj - u * urem m mj - urem (kMin * m) mj).tdiv mj * mj < (v.2 + v.1) * mj := by
      omega
    have compared := lt_of_mul_lt_mul_right below (by omega : (0 : Int) ≤ mj)
    unfold computeVj
    omega
  · unfold modulusIdentity computeVj
    rw [sub_add_cancel, exactQuotient]
    omega

end Spec

end Midfall.FieldIdentity
