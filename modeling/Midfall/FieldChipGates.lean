import Midfall.FieldChipBounds

/-!
# The gates of the foreign field chip

Cells that hold integers within the bounds of a gate satisfy its identities, with
quotients in their ranges, only if the integers stand for a product, or for the
same element; then the prover's quotients do.
-/

namespace Midfall.FieldChip

open FieldIdentity List

variable {modulus : Nat} {params : EmulationParams}

section Identities

variable {bounds : AuxiliaryBounds} {lo hi : Int} {loMod hiMod : Nat → Int} {taken : List Nat}
  {total : Nat} {expr u : Int} {exprMod : Nat → Int} {vs : List Int}

/-- Within the bounds of `get_identity_auxiliary_bounds`. -/
structure QuotientsInRange (bounds : AuxiliaryBounds) (u : Int) (vs : List Int) : Prop where
  u_small : 0 ≤ u ∧ u < bounds.uMax
  vs_small : Forall₂ (fun (bound : Int × Nat) (vj : Int) => 0 ≤ vj ∧ vj < bound.2) bounds.vs vs

/-- The quotients by the auxiliary moduli, as the prover computes them. -/
def computeVs (params : EmulationParams) (bounds : AuxiliaryBounds) (exprMod : Nat → Int) (u : Int) :
    List Int :=
  (params.moduli.zip bounds.vs).map fun entry =>
    computeVj params.emulated entry.1 (exprMod entry.1) u bounds.kMin entry.2.1

theorem identity_holds_iff : identityHolds params bounds (expr : ZMod modulus)
      (fun mj => (exprMod mj : ZMod modulus)) (u : ZMod modulus)
      (vs.map fun vj : Int => (vj : ZMod modulus)) ↔
    (modulus : Int) ∣ nativeIdentity params.emulated expr u bounds.kMin ∧
      ∀ entry ∈ (params.moduli.zip bounds.vs).zip vs, (modulus : Int) ∣
        modulusIdentity params.emulated entry.1.1 (exprMod entry.1.1) u bounds.kMin entry.2
          entry.1.2.1 := by
  unfold identityHolds
  simp only [zip_map_right, forall_mem_map]
  simp only [← CharP.intCast_eq_zero_iff (ZMod modulus) modulus, nativeIdentity, modulusIdentity]
  push_cast
  rfl

variable {First Second : Type} {firsts : List First} {seconds : List Second}

theorem zip_taken {prefix_ : List First} (isPrefix : prefix_ <+: firsts)
    (lengths : prefix_.length = seconds.length) :
    firsts.zip seconds = prefix_.zip seconds := by
  rcases isPrefix with ⟨rest, rfl⟩
  have split := @zip_append _ _ prefix_ rest seconds [] lengths
  rwa [append_nil, zip_nil_right, append_nil] at split

theorem mem_zips {Third : Type} {relation : First → Second → Prop} {other : Second → Third → Prop}
    {thirds : List Third} (related : Forall₂ relation firsts seconds)
    (others : Forall₂ other seconds thirds) {first : First} (mem : first ∈ firsts) :
    ∃ second third, ((first, second), third) ∈ (firsts.zip seconds).zip thirds ∧
      relation first second ∧ other second third := by
  induction related generalizing thirds with
  | nil => exact absurd mem not_mem_nil
  | cons here _ ih =>
    cases others with
    | cons there later =>
      rcases mem_cons.mp mem with rfl | rest
      · exact ⟨_, _, mem_cons_self, here, there⟩
      · rcases ih later rest with ⟨second, third, inside, both⟩
        exact ⟨second, third, mem_cons_of_mem _ inside, both⟩

theorem related_zip {relation : Second → First × Second → Prop}
    (lengths : firsts.length = seconds.length)
    (each : ∀ entry ∈ firsts.zip seconds, relation entry.2 entry) :
    Forall₂ relation seconds (firsts.zip seconds) := by
  induction firsts generalizing seconds with
  | nil =>
    rw [eq_nil_of_length_eq_zero lengths.symm, zip_nil_left]
    exact Forall₂.nil
  | cons first firsts ih =>
    cases seconds with
    | nil => cases lengths
    | cons second seconds =>
      rw [zip_cons_cons] at each ⊢
      exact Forall₂.cons (each _ mem_cons_self) (ih (Nat.succ.inj lengths)
        (forall_mem_cons.mp each).2)

variable (checked : Checked modulus params.emulated params.moduli lo hi loMod hiMod bounds taken total)
  (range : lo ≤ expr ∧ expr ≤ hi)
  (modRange : ∀ mj ∈ params.moduli, loMod mj ≤ exprMod mj ∧ exprMod mj ≤ hiMod mj)
  (congruent : ∀ mj ∈ params.moduli, exprMod mj ≡ expr [ZMOD mj])

include checked range modRange congruent

theorem identity_sound (small : QuotientsInRange bounds u vs)
    (holds : identityHolds params bounds (expr : ZMod modulus)
      (fun mj => (exprMod mj : ZMod modulus)) (u : ZMod modulus)
      (vs.map fun vj : Int => (vj : ZMod modulus))) :
    expr = (u + bounds.kMin) * params.emulated := by
  rcases identity_holds_iff.mp holds with ⟨native, auxiliary⟩
  rw [zip_taken checked.taken_prefix checked.vs.length_eq] at auxiliary
  refine checked.sound params.moduli_pos range modRange congruent small.u_small native ?_
  intro mj mem
  rcases mem_zips checked.vs small.vs_small mem with ⟨v, vj, inside, modulusChecked, vjSmall⟩
  exact ⟨v, vj, modulusChecked, vjSmall, auxiliary _ inside⟩

theorem identity_complete (pos : 0 < params.emulated) (divides : (params.emulated : Int) ∣ expr) :
    QuotientsInRange bounds (computeU params.emulated expr bounds.kMin)
        (computeVs params bounds exprMod (computeU params.emulated expr bounds.kMin)) ∧
      identityHolds params bounds (expr : ZMod modulus) (fun mj => (exprMod mj : ZMod modulus))
        ((computeU params.emulated expr bounds.kMin : Int) : ZMod modulus)
        ((computeVs params bounds exprMod (computeU params.emulated expr bounds.kMin)).map
          fun vj : Int => (vj : ZMod modulus)) := by
  rcases checked.complete pos range divides with ⟨uSmall, native⟩
  have zipped := zip_taken checked.taken_prefix checked.vs.length_eq
  have each : ∀ entry ∈ taken.zip bounds.vs,
      (0 ≤ computeVj params.emulated entry.1 (exprMod entry.1)
          (computeU params.emulated expr bounds.kMin) bounds.kMin entry.2.1 ∧
        computeVj params.emulated entry.1 (exprMod entry.1)
          (computeU params.emulated expr bounds.kMin) bounds.kMin entry.2.1 < entry.2.2) ∧
      modulusIdentity params.emulated entry.1 (exprMod entry.1)
        (computeU params.emulated expr bounds.kMin) bounds.kMin
        (computeVj params.emulated entry.1 (exprMod entry.1)
          (computeU params.emulated expr bounds.kMin) bounds.kMin entry.2.1) entry.2.1 = 0 := by
    intro entry mem
    have inTaken := (of_mem_zip mem).1
    have inModuli := checked.taken_prefix.subset inTaken
    exact (List.forall₂_zip checked.vs mem).complete (params.moduli_pos _ inModuli)
      (modRange _ inModuli) (congruent _ inModuli) uSmall native
  refine ⟨⟨uSmall, ?_⟩, identity_holds_iff.mpr ⟨by rw [native]; exact dvd_zero _, ?_⟩⟩
  · unfold computeVs
    rw [zipped, forall₂_map_right_iff]
    exact related_zip checked.vs.length_eq fun entry mem => (each entry mem).1
  · unfold computeVs
    rw [zipped]
    have pairs := @zip_map' _ _ _ id (fun entry : Nat × (Int × Nat) =>
      computeVj params.emulated entry.1 (exprMod entry.1)
        (computeU params.emulated expr bounds.kMin) bounds.kMin entry.2.1) (taken.zip bounds.vs)
    rw [map_id] at pairs
    rw [pairs, forall_mem_map]
    intro pair inside
    rw [id_eq, (each pair inside).2]
    exact dvd_zero _

end Identities

def integer (params : EmulationParams) (limbs : List Int) : Int := 1 + biFromLimbs params.base limbs

structure Below (params : EmulationParams) (limbs : List Int) : Prop where
  length : limbs.length = params.nbLimbs
  digits : ∀ limb ∈ limbs, 0 ≤ limb ∧ limb ≤ (params.base : Int) - 1

structure Loose (params : EmulationParams) (limbs : List Int) : Prop where
  length : limbs.length = params.nbLimbs
  bounded : ∀ limb ∈ limbs, -(params.maxLimbBound : Int) ≤ limb ∧ limb ≤ params.maxLimbBound

section Sums

theorem le_replicate {values : List Int} {bound : Int} (le : ∀ value ∈ values, value ≤ bound) :
    Forall₂ (fun value larger => value ≤ larger) values (replicate values.length bound) := by
  induction values with
  | nil => exact Forall₂.nil
  | cons value values ih =>
    exact Forall₂.cons (le value mem_cons_self)
      (ih (forall_mem_cons.mp le).2)

theorem digits_sum (coeffs : List Nat) {limbs : List Int} (below : Below params limbs) :
    0 ≤ sumBigints coeffs limbs ∧ sumBigints coeffs limbs ≤ sumBigints coeffs params.limbsMax := by
  have larger := sum_mono coeffs (le_replicate fun limb mem => (below.digits limb mem).2)
  rw [below.length] at larger
  exact ⟨sum_nonneg coeffs fun limb mem => (below.digits limb mem).1, larger⟩

theorem products_sum (coeffs : List Nat) {xs ys : List Int} (first : Below params xs)
    (second : Below params ys) :
    0 ≤ sumBigints coeffs (pairWiseProd xs ys) ∧
      sumBigints coeffs (pairWiseProd xs ys) ≤ sumBigints coeffs params.productsMax := by
  have each : ∀ product ∈ pairWiseProd xs ys,
      0 ≤ product ∧ product ≤ ((params.base : Int) - 1) ^ 2 := by
    intro product mem
    rcases mem_flatMap.mp mem with ⟨x, inXs, inMap⟩
    rcases mem_map.mp inMap with ⟨y, inYs, rfl⟩
    have xDigit := first.digits x inXs
    have yDigit := second.digits y inYs
    rw [pow_two]
    exact ⟨mul_nonneg xDigit.1 yDigit.1, mul_le_mul xDigit.2 yDigit.2 yDigit.1 (by omega)⟩
  have count : (pairWiseProd xs ys).length = params.nbLimbs * params.nbLimbs := by
    simp [pairWiseProd, length_flatMap, first.length, second.length]
  have larger := sum_mono coeffs (le_replicate fun product mem => (each product mem).2)
  rw [count] at larger
  exact ⟨sum_nonneg coeffs fun product mem => (each product mem).1, larger⟩

theorem shifted_sum (coeffs : List Nat) {xs : List Int} (loose : Loose params xs) :
    sumBigints coeffs (xs.map fun xi => (params.maxLimbBound : Int) + xi) =
        sumBigints coeffs params.shifts + sumBigints coeffs xs ∧
      0 ≤ sumBigints coeffs (xs.map fun xi => (params.maxLimbBound : Int) + xi) ∧
        sumBigints coeffs xs ≤ sumBigints coeffs params.shifts := by
  have split := sum_shifted coeffs params.maxLimbBound xs
  have larger := sum_mono coeffs (le_replicate fun xi mem => (loose.bounded xi mem).2)
  rw [loose.length] at split larger
  refine ⟨split, sum_nonneg coeffs fun value mem => ?_, larger⟩
  rcases mem_map.mp mem with ⟨xi, inside, rfl⟩
  have bounded := loose.bounded xi inside
  omega

theorem reduced_sum (coeffs : List Nat) (values : List Int) (mj : Nat) :
    sumBigints (coeffs.map (· % mj)) values ≡ sumBigints coeffs values [ZMOD mj] :=
  sum_congruent values (reduced_coeffs coeffs mj)

end Sums

/-- The identities of the gate on cells that hold integers. -/
def mulGate (params : EmulationParams) (modulus : Nat) (bounds : AuxiliaryBounds)
    (xs ys zs : List Int) (u : Int) (vs : List Int) : Prop :=
  let cells := fun limbs : List Int => limbs.map fun limb : Int => (limb : ZMod modulus)
  identityHolds params bounds
    (mulCells params.doubleBasePowers params.basePowers (cells xs) (cells ys) (cells zs))
    (fun mj => mulCells (params.doubleBasePowersMod mj) (params.basePowersMod mj) (cells xs)
      (cells ys) (cells zs)) (u : ZMod modulus) (cells vs)

/-- `sum_xy + sum_x + sum_y - sum_z`. -/
def mulSum (params : EmulationParams) (xs ys zs : List Int) : Int :=
  mulExpr params.doubleBasePowers params.basePowers xs ys zs

def mulSumMod (params : EmulationParams) (xs ys zs : List Int) (mj : Nat) : Int :=
  mulExpr (params.doubleBasePowersMod mj) (params.basePowersMod mj) xs ys zs

theorem mul_cells_cast (double single : List Nat) (xs ys zs : List Int) :
    ((mulExpr double single xs ys zs : Int) : ZMod modulus) =
      mulCells double single (xs.map fun limb : Int => (limb : ZMod modulus))
        (ys.map fun limb : Int => (limb : ZMod modulus))
        (zs.map fun limb : Int => (limb : ZMod modulus)) := by
  have products : (pairWiseProd xs ys).map (fun limb : Int => (limb : ZMod modulus)) =
      pairWiseProd (xs.map fun limb : Int => (limb : ZMod modulus))
        (ys.map fun limb : Int => (limb : ZMod modulus)) := by
    simp only [pairWiseProd, map_flatMap, flatMap_map, map_map, Function.comp_def, Int.cast_mul]
  unfold mulExpr mulCells
  rw [Int.cast_sub, Int.cast_add, Int.cast_add, sum_cast, sum_cast, sum_cast, sum_cast, products]

section Gates

variable {mul norm : AuxiliaryBounds} {xs ys zs : List Int} (checked : CheckedParams params)

theorem mul_gate_iff (u : Int) (vs : List Int) : mulGate params modulus mul xs ys zs u vs ↔
    identityHolds params mul (mulSum params xs ys zs : ZMod modulus)
      (fun mj => (mulSumMod params xs ys zs mj : ZMod modulus)) (u : ZMod modulus)
      (vs.map fun vj : Int => (vj : ZMod modulus)) := by
  unfold mulGate mulSum mulSumMod
  simp only [mul_cells_cast]

theorem mul_sum_range (double single : List Nat) (first : Below params xs) (second : Below params ys)
    (third : Below params zs) :
    -(sumBigints single params.limbsMax) ≤ mulExpr double single xs ys zs ∧
      mulExpr double single xs ys zs ≤ sumBigints double params.productsMax +
        sumBigints single params.limbsMax + sumBigints single params.limbsMax := by
  have products := products_sum double first second
  have xSum := digits_sum single first
  have ySum := digits_sum single second
  have zSum := digits_sum single third
  unfold mulExpr
  omega

theorem mul_sum_congruent (mj : Nat) : mulSumMod params xs ys zs mj ≡ mulSum params xs ys zs [ZMOD mj] :=
  (((reduced_sum _ _ mj).add (reduced_sum _ _ mj)).add (reduced_sum _ _ mj)).sub (reduced_sum _ _ mj)

include checked

theorem mul_sum_value (first : xs.length = params.nbLimbs) (second : ys.length = params.nbLimbs)
    (third : zs.length = params.nbLimbs) : mulSum params xs ys zs ≡
      integer params xs * integer params ys - integer params zs [ZMOD params.emulated] := by
  have whole := (((checked.double_powers_congruent first second).add
    (checked.base_powers_congruent first)).add (checked.base_powers_congruent second)).sub
      (checked.base_powers_congruent third)
  have product : integer params xs * integer params ys - integer params zs =
      biFromLimbs params.base xs * biFromLimbs params.base ys + biFromLimbs params.base xs +
        biFromLimbs params.base ys - biFromLimbs params.base zs := by
    unfold integer
    ring
  rw [product]
  exact whole

end Gates

def normGate (params : EmulationParams) (modulus : Nat) (bounds : AuxiliaryBounds) (xs zs : List Int)
    (u : Int) (vs : List Int) : Prop :=
  let cells := fun limbs : List Int => limbs.map fun limb : Int => (limb : ZMod modulus)
  let shifted := (cells xs).map fun xi => xi + ((params.maxLimbBound : Nat) : ZMod modulus)
  let sumShifts := sumBigints params.basePowers params.shifts
  identityHolds params bounds
    (sumExprs params.basePowers shifted - sumExprs params.basePowers (cells zs) -
      ((sumShifts : Int) : ZMod modulus))
    (fun mj => sumExprs (params.basePowersMod mj) shifted -
      sumExprs (params.basePowersMod mj) (cells zs) - ((urem sumShifts mj : Int) : ZMod modulus))
    (u : ZMod modulus) (cells vs)

/-- `sum_shifted_x - sum_z - sum_shifts`. -/
def normSum (params : EmulationParams) (xs zs : List Int) : Int :=
  sumBigints params.basePowers (xs.map fun xi => (params.maxLimbBound : Int) + xi) -
    sumBigints params.basePowers zs - sumBigints params.basePowers params.shifts

def normSumMod (params : EmulationParams) (xs zs : List Int) (mj : Nat) : Int :=
  sumBigints (params.basePowersMod mj) (xs.map fun xi => (params.maxLimbBound : Int) + xi) -
    sumBigints (params.basePowersMod mj) zs - urem (sumBigints params.basePowers params.shifts) mj

section Gates

variable {mul norm : AuxiliaryBounds} {xs zs : List Int} (checked : CheckedParams params)

theorem norm_gate_iff (u : Int) (vs : List Int) : normGate params modulus norm xs zs u vs ↔
    identityHolds params norm (normSum params xs zs : ZMod modulus)
      (fun mj => (normSumMod params xs zs mj : ZMod modulus)) (u : ZMod modulus)
      (vs.map fun vj : Int => (vj : ZMod modulus)) := by
  have shifted : (xs.map fun xi => (params.maxLimbBound : Int) + xi).map
      (fun limb : Int => (limb : ZMod modulus)) =
      (xs.map fun limb : Int => (limb : ZMod modulus)).map
        fun xi => xi + ((params.maxLimbBound : Nat) : ZMod modulus) := by
    simp only [map_map, Function.comp_def, Int.cast_add, Int.cast_natCast, add_comm]
  unfold normGate normSum normSumMod
  simp only [Int.cast_sub, @sum_cast modulus _ (xs.map _), @sum_cast modulus _ zs, shifted]

theorem norm_sum_range (loose : Loose params xs) (below : Below params zs) :
    params.normMin ≤ normSum params xs zs ∧ normSum params xs zs ≤ params.normMax := by
  have shifted := shifted_sum params.basePowers loose
  have zSum := digits_sum params.basePowers below
  unfold EmulationParams.normMin EmulationParams.normMax normSum
  omega

theorem norm_sum_mod_range (loose : Loose params xs) (below : Below params zs) (mj : Nat) :
    params.normModMin mj ≤ normSumMod params xs zs mj ∧
      normSumMod params xs zs mj ≤ params.normModMax mj := by
  have shifted := shifted_sum (params.basePowersMod mj) loose
  have zSum := digits_sum (params.basePowersMod mj) below
  unfold EmulationParams.normModMin EmulationParams.normModMax normSumMod
  omega

theorem norm_sum_congruent (mj : Nat) : normSumMod params xs zs mj ≡ normSum params xs zs [ZMOD mj] :=
  ((reduced_sum _ _ mj).sub (reduced_sum _ _ mj)).sub (Int.mod_modEq _ _)

theorem norm_sum_value (checked : CheckedParams params) (loose : Loose params xs)
    (length : zs.length = params.nbLimbs) :
    normSum params xs zs ≡ integer params xs - integer params zs [ZMOD params.emulated] := by
  have cancelled : normSum params xs zs =
      sumBigints params.basePowers xs - sumBigints params.basePowers zs := by
    unfold normSum
    rw [(shifted_sum params.basePowers loose).1]
    ring
  have difference : integer params xs - integer params zs =
      biFromLimbs params.base xs - biFromLimbs params.base zs := by
    unfold integer
    ring
  rw [cancelled, difference]
  exact (checked.base_powers_congruent loose.length).sub (checked.base_powers_congruent length)

end Gates

/-- What both gates promise, with the bounds of their quotients. -/
structure GatesExact (params : EmulationParams) (modulus : Nat) (mul norm : AuxiliaryBounds) :
    Prop where
  mul_sound : ∀ xs ys zs u vs, Below params xs → Below params ys → Below params zs →
    QuotientsInRange mul u vs → mulGate params modulus mul xs ys zs u vs →
      integer params zs ≡ integer params xs * integer params ys [ZMOD params.emulated]
  mul_complete : ∀ xs ys zs, Below params xs → Below params ys → Below params zs →
    integer params zs ≡ integer params xs * integer params ys [ZMOD params.emulated] →
      let u := computeU params.emulated (mulSum params xs ys zs) mul.kMin
      let vs := computeVs params mul (mulSumMod params xs ys zs) u
      QuotientsInRange mul u vs ∧ mulGate params modulus mul xs ys zs u vs
  norm_sound : ∀ xs zs u vs, Loose params xs → Below params zs → QuotientsInRange norm u vs →
    normGate params modulus norm xs zs u vs →
      integer params zs ≡ integer params xs [ZMOD params.emulated]
  norm_complete : ∀ xs zs, Loose params xs → Below params zs →
    integer params zs ≡ integer params xs [ZMOD params.emulated] →
      let u := computeU params.emulated (normSum params xs zs) norm.kMin
      let vs := computeVs params norm (normSumMod params xs zs) u
      QuotientsInRange norm u vs ∧ normGate params modulus norm xs zs u vs
  honest : ∀ value : Int, ∃ zs, biToLimbs params.nbLimbs params.base
      (urem (value - 1) params.emulated).toNat = some zs ∧ Below params (zs.map Int.ofNat) ∧
        integer params (zs.map Int.ofNat) ≡ value [ZMOD params.emulated]

theorem honest_limbs (checked : CheckedParams params) (value : Int) :
    ∃ zs, biToLimbs params.nbLimbs params.base (urem (value - 1) params.emulated).toNat = some zs ∧
      Below params (zs.map Int.ofNat) ∧
        integer params (zs.map Int.ofNat) ≡ value [ZMOD params.emulated] := by
  have oneLt := checked.one_lt
  have residue := urem_bounds (value - 1) (by omega : 0 < params.emulated)
  have fits : (urem (value - 1) params.emulated).toNat < params.base ^ params.nbLimbs := by
    have covers := checked.covers
    omega
  rcases limbs_of_value (base_pos params) params.nbLimbs fits with ⟨zs, found, length, whole⟩
  refine ⟨zs, found, ⟨by rw [length_map, length], ?_⟩, ?_⟩
  · intro limb mem
    rcases mem_map.mp mem with ⟨digit, inside, rfl⟩
    have small := to_limbs_lt (base_pos params) found digit inside
    have cast : Int.ofNat digit = (digit : Int) := rfl
    omega
  · unfold integer
    rw [whole, Int.toNat_of_nonneg residue.1]
    have shifted : urem (value - 1) params.emulated ≡ value - 1 [ZMOD params.emulated] :=
      Int.mod_modEq _ _
    have sum := shifted.add_left 1
    rwa [add_sub_cancel] at sum

/-- Both gates are sound, and complete for the prover's quotients, whatever parameters pass the
checks and whatever moduli give their bounds. -/
theorem gates_exact {parallel bitLen : Nat} {mul norm : AuxiliaryBounds}
    (checkedParams : params.checkParams = true)
    (mulFound : params.mulBounds modulus parallel bitLen = some mul)
    (normFound : params.normBounds modulus parallel bitLen = some norm) :
    GatesExact params modulus mul norm := by
  have checked := checked_params checkedParams
  have positive : 0 < params.emulated := Nat.lt_of_lt_of_le Nat.one_pos checked.one_lt.le
  rcases bounds_checked positive params.moduli_pos mulFound with ⟨mulTaken, mulTotal, mulChecked⟩
  rcases bounds_checked positive params.moduli_pos normFound with ⟨normTaken, normTotal, normChecked⟩
  constructor
  · intro xs ys zs u vs first second third small holds
    have multiple : mulSum params xs ys zs = _ := identity_sound mulChecked (mul_sum_range _ _ first second third)
      (fun mj _ => mul_sum_range _ _ first second third) (fun mj _ => mul_sum_congruent mj) small
      ((mul_gate_iff u vs).mp holds)
    have value := mul_sum_value checked first.length second.length third.length
    have zero : mulSum params xs ys zs ≡ 0 [ZMOD params.emulated] := by
      rw [multiple]
      exact Int.modEq_zero_iff_dvd.mpr (dvd_mul_left _ _)
    exact Int.modEq_of_dvd (Int.modEq_zero_iff_dvd.mp (value.symm.trans zero))
  · intro xs ys zs first second third same
    have value := mul_sum_value checked first.length second.length third.length
    have divides : (params.emulated : Int) ∣ mulSum params xs ys zs :=
      Int.modEq_zero_iff_dvd.mp (value.trans (Int.modEq_zero_iff_dvd.mpr same.dvd))
    have complete := @identity_complete modulus _ _ _ _ _ _ _ _ _ _ mulChecked
      (mul_sum_range _ _ first second third) (fun mj _ => mul_sum_range _ _ first second third)
      (fun mj _ => mul_sum_congruent mj) positive divides
    exact ⟨complete.1, (mul_gate_iff _ _).mpr complete.2⟩
  · intro xs zs u vs loose below small holds
    have multiple : normSum params xs zs = _ := identity_sound normChecked (norm_sum_range loose below)
      (fun mj _ => norm_sum_mod_range loose below mj) (fun mj _ => norm_sum_congruent mj) small
      ((norm_gate_iff u vs).mp holds)
    have value := norm_sum_value checked loose below.length
    have zero : normSum params xs zs ≡ 0 [ZMOD params.emulated] := by
      rw [multiple]
      exact Int.modEq_zero_iff_dvd.mpr (dvd_mul_left _ _)
    exact Int.modEq_of_dvd (Int.modEq_zero_iff_dvd.mp (value.symm.trans zero))
  · intro xs zs loose below same
    have value := norm_sum_value checked loose below.length
    have divides : (params.emulated : Int) ∣ normSum params xs zs :=
      Int.modEq_zero_iff_dvd.mp (value.trans (Int.modEq_zero_iff_dvd.mpr same.dvd))
    have complete := @identity_complete modulus _ _ _ _ _ _ _ _ _ _ normChecked
      (norm_sum_range loose below) (fun mj _ => norm_sum_mod_range loose below mj)
      (fun mj _ => norm_sum_congruent mj) positive divides
    exact ⟨complete.1, (norm_gate_iff _ _).mpr complete.2⟩
  · exact honest_limbs checked

/-- A prime of 24 bits in three bytes. -/
def threeByteParams : EmulationParams where
  emulated := 16777213
  log2Base := 8
  nbLimbs := 3
  basePowers := [1, 256, 65536]
  doubleBasePowers := [1, 256, 65536, 256, 65536, 3, 65536, 3, 768]
  moduli := [256]
  moduli_pos := by decide
  maxLimbBound := 65536

/-- In a field of 31 bits both identities need the auxiliary modulus. -/
theorem three_byte_gates_exact : GatesExact threeByteParams (2 ^ 31 - 1)
    { kMin := -1, uMax := 1024, vs := [(-1013, 4096)] }
    { kMin := -258, uMax := 1024, vs := [(-1013, 2048)] } :=
  @gates_exact _ threeByteParams 1 1 _ _ (by decide) (by decide +kernel) (by decide +kernel)

end Midfall.FieldChip
