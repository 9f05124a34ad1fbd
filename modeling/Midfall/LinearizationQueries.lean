import Midfall.KzgMultiPrepare
import Midfall.QuotientLimbs
import Midfall.RunningFolds

/-!
# Linearization

The prover adds the polynomials of the simple selectors times the identities
evaluated at `x`, with powers of `y`, and subtracts the limbs of the quotient.
The verifier builds the same combination of commitments and claims its value.
-/

namespace Midfall.LinearizationQueries

open DomainConversions KzgMultiPrepare LimbedPolynomials List
open QuotientLimbs RadixTwo RunningFolds

variable {F : Type} [Field F]

/-- The loop of an update, as long as both slices go. -/
def zipUpdate (op : F → F → F) : List F → List F → List F
  | l :: lhs, r :: rhs => op l r :: zipUpdate op lhs rhs
  | lhs, _ => lhs

/-- `Mul`: factors of zero and one are not multiplied. -/
def mulAssign [DecidableEq F] (threads : Nat) (values : List F) (rhs : F) : List F :=
  if rhs = 0 then parallelize threads (fun lhs _ => lhs.map fun _ => 0) values
  else if rhs ≠ 1 then parallelize threads (fun lhs _ => lhs.map fun value => value * rhs) values
  else values

/-- `Add`: asserts that the lengths agree. -/
def addPolynomials (threads : Nat) (lhs rhs : List F) : Option (List F) :=
  if lhs.length ≠ rhs.length then none
  else some (parallelize threads
    (fun chunk start => zipUpdate (fun l r => l + r) chunk (rhs.drop start)) lhs)

def paddedSub (threads : Nat) (lhs rhs : List F) : List F :=
  parallelize threads (fun chunk start => zipUpdate (fun l r => l - r) chunk (rhs.drop start))
    (padTo rhs.length lhs)

structure LinearizationState (F : Type) where
  poly : List F
  constantTerm : F
  yPow : F

def linearizationStep [DecidableEq F] (threads : Nat) (fixedPolys : List (List F)) (y : F)
    (state : LinearizationState F) (identity : Option Nat × F) : Option (LinearizationState F) :=
  match identity.1 with
  | some colIdx => do
    let column ← fixedPolys[colIdx]?
    let poly ← addPolynomials threads state.poly
      (mulAssign threads column (state.yPow * identity.2))
    return { state with poly := poly, yPow := state.yPow * y }
  | none => some { state with
      constantTerm := state.constantTerm + state.yPow * identity.2
      yPow := state.yPow * y }

def splittingPowers (splittingFactor : F) : F → Nat → List F
  | _, 0 => []
  | power, count + 1 => power :: splittingPowers splittingFactor (power * splittingFactor) count

/-- `compute_linearization_poly`: the polynomial without its constant term, and that term. -/
def computeLinearizationPoly [DecidableEq F] (threads n : Nat) (fixedPolys : List (List F))
    (expressions : List (Option Nat × F)) (y xn splittingFactor : F)
    (quotientLimbs : List (List F)) : Option (List F × F) := do
  let state ← expressions.reverse.foldlM (linearizationStep threads fixedPolys y)
    ⟨replicate n 0, 0, 1⟩
  let powers := splittingPowers splittingFactor (xn - 1) quotientLimbs.length
  let scaled := (quotientLimbs.zip powers).map fun limb => mulAssign threads limb.1 limb.2
  return (scaled.foldl (paddedSub threads) state.poly, state.constantTerm)

structure LinearQuery (F Commitment : Type) where
  point : F
  commitmentLabel : CommitmentLabel
  points : List Commitment
  scalars : List F
  baseLabels : List CommitmentLabel
  eval : F

/-- `VerifierQuery::new_linear`: asserts that the lengths agree. -/
def newLinear {Commitment : Type} (query : LinearQuery F Commitment) :
    Option (LinearQuery F Commitment) :=
  if query.points.length ≠ query.scalars.length ∨ query.points.length ≠ query.baseLabels.length then
    none
  else some query

/-- The order of the keys: the identities without a selector come first. -/
def columnBefore : Option Nat → Option Nat → Bool
  | none, some _ => true
  | some column, some other => decide (column < other)
  | _, none => false

/-- The powers of `y` times the identities, by selector. -/
def groupedPoints (expressions : List (Option Nat × F)) (y : F) : List (Option Nat × F) × F :=
  expressions.reverse.foldl (fun state identity =>
    (addGroup columnBefore identity.1 (state.2 * identity.2) state.1, state.2 * y)) ([], 1)

def pushGroup {Commitment : Type} (fixedCommitments : List Commitment)
    (query : LinearQuery F Commitment) (group : Option Nat × F) :
    Option (LinearQuery F Commitment) :=
  match group.1 with
  | some colIdx => do
    let point ← fixedCommitments[colIdx]?
    return { query with
      points := query.points ++ [point]
      scalars := query.scalars ++ [group.2]
      baseLabels := query.baseLabels ++ [.fixed colIdx] }
  | none => some { query with eval := query.eval - group.2 }

def computeLinearizationCommitment {Commitment : Type} (fixedCommitments : List Commitment)
    (expressions : List (Option Nat × F)) (x y xn splittingFactor : F)
    (quotientLimbCommitments : List Commitment) : Option (LinearQuery F Commitment) := do
  let limbs : LinearQuery F Commitment := {
    point := x
    commitmentLabel := .custom "linearization_poly"
    points := quotientLimbCommitments
    scalars := splittingPowers splittingFactor (1 - xn) quotientLimbCommitments.length
    baseLabels := replicate quotientLimbCommitments.length .noLabel
    eval := 0 }
  let query ← (groupedPoints expressions y).1.foldlM (pushGroup fixedCommitments) limbs
  newLinear query

def updateAt (op : F → F → F) (rhs : List F) (entry : F × Nat) : F :=
  match rhs[entry.2]? with
  | some r => op entry.1 r
  | none => entry.1

omit [Field F] in
theorem zip_update_elementwise (op : F → F → F) (rhs : List F) :
    Elementwise (fun chunk start => zipUpdate op chunk (rhs.drop start)) (updateAt op rhs) := by
  intro chunk start
  induction chunk generalizing start with
  | nil => simp [zipUpdate]
  | cons l lhs ih =>
    have later := ih (start + 1)
    dsimp only at later ⊢
    rw [zipIdx_cons, map_cons, ← later, updateAt]
    by_cases inside : start < rhs.length
    · rw [drop_eq_getElem_cons inside, zipUpdate, getElem?_eq_getElem inside]
    · have here : rhs.drop start = [] := drop_eq_nil_of_le (by omega)
      have after : rhs.drop (start + 1) = [] := drop_eq_nil_of_le (by omega)
      have outside : rhs[start]? = none := getElem?_eq_none (by omega)
      simp [here, after, outside, zipUpdate]

section Views

variable {threads : Nat} (positive : 0 < threads)

include positive

theorem mul_assign_eq [DecidableEq F] (values : List F) (rhs : F) :
    mulAssign threads values rhs = values.map fun value => value * rhs := by
  have zeros : Elementwise (fun (lhs : List F) (_ : Nat) => lhs.map fun _ => (0 : F))
      fun _ => 0 := by
    intro chunk start
    simp
  have products : Elementwise (fun (lhs : List F) (_ : Nat) => lhs.map fun value => value * rhs)
      fun entry => entry.1 * rhs := by
    intro chunk start
    apply ext_getElem (by simp)
    intro i _ _
    simp
  rw [mulAssign]
  split_ifs with zero other
  · rw [parallelize_elementwise zeros positive, zero]
    simp
  · rw [parallelize_elementwise products positive]
    exact (products values 0).symm
  · rw [not_not.mp other]
    simp

theorem add_polynomials_eq {lhs rhs : List F} (same : lhs.length = rhs.length) :
    addPolynomials threads lhs rhs = some (addCoefficients lhs rhs) := by
  rw [addPolynomials, if_neg (not_not.mpr same),
    parallelize_elementwise (zip_update_elementwise _ rhs) positive]
  congr 1
  apply ext_getElem (by simp [addCoefficients, same])
  intro i inside _
  rw [length_map, length_zipIdx, same] at inside
  simp [addCoefficients, updateAt, inside]

theorem padded_sub_eq (lhs rhs : List F) :
    paddedSub threads lhs rhs = addCoefficients (padTo rhs.length lhs)
      ((padTo lhs.length rhs).map fun value => value * -1) := by
  rw [paddedSub, parallelize_elementwise (zip_update_elementwise _ rhs) positive]
  apply ext_getElem
  · simp [addCoefficients, padTo]
    omega
  · intro i _ _
    by_cases inside : i < rhs.length
    · simp [addCoefficients, padTo, updateAt, inside, sub_eq_add_neg]
    · have beyond : rhs.length ≤ i := Nat.not_lt.mp inside
      simp [addCoefficients, padTo, updateAt, beyond]

theorem padded_sub_view {view : List F → F} (linear : LinearView view) (lhs rhs : List F) :
    view (paddedSub threads lhs rhs) = view lhs - view rhs := by
  have same : (padTo rhs.length lhs).length =
      ((padTo lhs.length rhs).map fun value => value * (-1 : F)).length := by
    simp [padTo]
    omega
  rw [padded_sub_eq positive, linear.add _ _ same, linear.scale, padTo, padTo, linear.padded,
    linear.padded]
  ring

end Views

/-- The identities times the powers of `y`. -/
def weights (y : F) : F → List (Option Nat × F) → List (Option Nat × F)
  | _, [] => []
  | yPow, identity :: rest =>
    (identity.1, yPow * identity.2) :: weights y (yPow * y) rest

def selectorValue (constant : F) (view : List F → F) (fixedPolys : List (List F)) :
    Option Nat → F
  | some colIdx => view (fixedPolys.getD colIdx [])
  | none => constant

/-- The identities batched as in the numerator, with the selectors at `x`. -/
def batchedValue (fixedPolys : List (List F)) (x y : F) (expressions : List (Option Nat × F)) : F :=
  expressions.foldl (fun acc identity =>
    acc * y + selectorValue 1 (valueAt x) fixedPolys identity.1 * identity.2) 0

theorem weighted_sum_weights (g : Option Nat → F) (y yPow : F) (identities : List (Option Nat × F)) :
    weightedSum g (weights y yPow identities) =
      yPow * identities.foldr (fun identity acc => acc * y + g identity.1 * identity.2) 0 := by
  induction identities generalizing yPow with
  | nil => simp [weights, weightedSum]
  | cons identity rest ih =>
    rw [weights, weighted_sum_cons, ih, foldr_cons]
    ring

theorem batched_value_eq (fixedPolys : List (List F)) (x y : F)
    (expressions : List (Option Nat × F)) :
    batchedValue fixedPolys x y expressions =
      weightedSum (selectorValue 1 (valueAt x) fixedPolys) (weights y 1 expressions.reverse) := by
  rw [weighted_sum_weights, one_mul, foldr_reverse, batchedValue]

theorem weighted_sum_selectors (view : List F → F) (fixedPolys : List (List F))
    (entries : List (Option Nat × F)) :
    weightedSum (selectorValue 1 view fixedPolys) entries =
      weightedSum (selectorValue 0 view fixedPolys) entries +
        weightedSum (selectorValue 1 (fun _ => 0) fixedPolys) entries := by
  induction entries with
  | nil => simp [weightedSum]
  | cons entry rest ih =>
    rw [weighted_sum_cons, weighted_sum_cons, weighted_sum_cons, ih]
    cases entry.1 with
    | none =>
      simp only [selectorValue]
      ring
    | some colIdx =>
      simp only [selectorValue]
      ring

def ColumnsIn (count : Nat) (identities : List (Option Nat × F)) : Prop :=
  ∀ identity ∈ identities, ∀ colIdx, identity.1 = some colIdx → colIdx < count

section Prover

variable [DecidableEq F] {threads n : Nat} {fixedPolys : List (List F)} {y : F}
  (positive : 0 < threads)
  (lengths : ∀ column ∈ fixedPolys, column.length = n)

include positive lengths

theorem linearization_step_adds {state : LinearizationState F} {identity : Option Nat × F}
    (length : state.poly.length = n)
    (inside : ∀ colIdx, identity.1 = some colIdx → colIdx < fixedPolys.length) :
    ∃ next, linearizationStep threads fixedPolys y state identity = some next ∧
      next.poly.length = n ∧ next.yPow = state.yPow * y ∧
      next.constantTerm = state.constantTerm +
        state.yPow * identity.2 * selectorValue 1 (fun _ => 0) fixedPolys identity.1 ∧
      ∀ view, LinearView view → view next.poly = view state.poly +
        state.yPow * identity.2 * selectorValue 0 view fixedPolys identity.1 := by
  cases column : identity.1 with
  | none =>
    have stepped : linearizationStep threads fixedPolys y state identity = some ⟨state.poly,
        state.constantTerm + state.yPow * identity.2, state.yPow * y⟩ := by
      rw [linearizationStep, column]
    refine ⟨_, stepped, length, rfl, ?_, ?_⟩
    · rw [selectorValue, mul_one]
    · intro view _
      rw [selectorValue, mul_zero, add_zero]
  | some colIdx =>
    have below := inside colIdx column
    have found := getElem?_eq_getElem below
    have column_length := lengths _ (getElem_mem below)
    have same : state.poly.length =
        (fixedPolys[colIdx].map fun value => value * (state.yPow * identity.2)).length := by
      rw [length_map, length, column_length]
    have added := add_polynomials_eq positive same
    have stepped : linearizationStep threads fixedPolys y state identity =
        some ⟨addCoefficients state.poly (fixedPolys[colIdx].map fun value =>
          value * (state.yPow * identity.2)), state.constantTerm, state.yPow * y⟩ := by
      simp only [linearizationStep, column, found, mul_assign_eq positive, added,
        some_bind, Option.pure_def]
    refine ⟨_, stepped, ?_, rfl, ?_, ?_⟩
    · rw [addCoefficients, length_zipWith, ← same, length, Nat.min_self]
    · rw [selectorValue, mul_zero, add_zero]
    · intro view linear
      rw [linear.add _ _ same, linear.scale, selectorValue, getD_eq_getElem?_getD, found,
        Option.getD_some]
      ring

theorem linearization_run_adds {identities : List (Option Nat × F)} (state : LinearizationState F)
    (length : state.poly.length = n) (inside : ColumnsIn fixedPolys.length identities) :
    ∃ final, identities.foldlM (linearizationStep threads fixedPolys y) state = some final ∧
      final.constantTerm = state.constantTerm +
        weightedSum (selectorValue 1 (fun _ => 0) fixedPolys) (weights y state.yPow identities) ∧
      ∀ view, LinearView view → view final.poly = view state.poly +
        weightedSum (selectorValue 0 view fixedPolys) (weights y state.yPow identities) := by
  induction identities generalizing state with
  | nil => exact ⟨state, rfl, by simp [weights, weightedSum], fun _ _ => by simp [weights, weightedSum]⟩
  | cons identity rest ih =>
    rcases linearization_step_adds (y := y) positive lengths length
      (inside identity mem_cons_self) with
      ⟨next, stepped, next_length, yPow, constant, views⟩
    rcases ih next next_length (forall_mem_cons.mp inside).2 with
      ⟨final, ran, final_constant, final_views⟩
    refine ⟨final, ?_, ?_, ?_⟩
    · rw [foldlM_cons, stepped, some_bind, ran]
    · rw [final_constant, constant, yPow, weights, weighted_sum_cons, add_assoc]
    · intro view linear
      rw [final_views view linear, views view linear, yPow, weights, weighted_sum_cons, add_assoc]

end Prover

def limbSum (view : List F → F) (splittingFactor : F) : F → List (List F) → F
  | _, [] => 0
  | power, limb :: rest =>
    view limb * power + limbSum view splittingFactor (power * splittingFactor) rest

theorem limb_sum_neg (view : List F → F) (splittingFactor power : F) (limbs : List (List F)) :
    limbSum view splittingFactor (-power) limbs = -limbSum view splittingFactor power limbs := by
  induction limbs generalizing power with
  | nil => rw [limbSum, limbSum, neg_zero]
  | cons limb rest ih =>
    have next : -power * splittingFactor = -(power * splittingFactor) := by ring
    rw [limbSum, limbSum, next, ih]
    ring

theorem limb_sum_value (x power : F) (step : Nat) (limbs : List (List F)) :
    limbSum (valueAt x) (x ^ step) power limbs = power * limbsValue x step limbs := by
  induction limbs generalizing power with
  | nil => rw [limbSum, limbs_value_nil, mul_zero]
  | cons limb rest ih =>
    rw [limbSum, ih, limbs_value_cons]
    ring

theorem subtract_limbs [DecidableEq F] {threads : Nat} (positive : 0 < threads) {view : List F → F}
    (linear : LinearView view) (splittingFactor power : F) (limbs : List (List F)) (poly : List F) :
    view (((limbs.zip (splittingPowers splittingFactor power limbs.length)).map fun limb =>
        mulAssign threads limb.1 limb.2).foldl (paddedSub threads) poly) =
      view poly - limbSum view splittingFactor power limbs := by
  induction limbs generalizing power poly with
  | nil => simp [limbSum]
  | cons limb rest ih =>
    rw [length_cons, splittingPowers, zip_cons_cons, map_cons, foldl_cons,
      ih, padded_sub_view positive linear, mul_assign_eq positive, linear.scale, limbSum]
    ring

def combination (view : List F → F) (polys : List (List F)) (scalars : List F) : F :=
  ((polys.zip scalars).map fun term => view term.1 * term.2).sum

theorem combination_append (view : List F → F) {polys : List (List F)} {scalars : List F}
    (same : polys.length = scalars.length) (more : List (List F)) (others : List F) :
    combination view (polys ++ more) (scalars ++ others) =
      combination view polys scalars + combination view more others := by
  rw [combination, zip_append same, map_append, sum_append, combination, combination]

theorem splitting_powers_length (splittingFactor power : F) (count : Nat) :
    (splittingPowers splittingFactor power count).length = count := by
  induction count generalizing power with
  | zero => rfl
  | succ count ih => rw [splittingPowers, length_cons, ih]

theorem combination_limbs (view : List F → F) (splittingFactor power : F) (limbs : List (List F)) :
    combination view limbs (splittingPowers splittingFactor power limbs.length) =
      limbSum view splittingFactor power limbs := by
  induction limbs generalizing power with
  | nil => simp [combination, limbSum]
  | cons limb rest ih =>
    rw [length_cons, splittingPowers, limbSum, ← ih, combination, zip_cons_cons,
      map_cons, sum_cons, combination]

def groupPolys (fixedPolys : List (List F)) (groups : List (Option Nat × F)) : List (List F) :=
  groups.filterMap fun group => group.1.map fun colIdx => fixedPolys.getD colIdx []

def groupScalars (groups : List (Option Nat × F)) : List F :=
  groups.filterMap fun group => group.1.map fun _ => group.2

def groupLabels (groups : List (Option Nat × F)) : List CommitmentLabel :=
  groups.filterMap fun group => group.1.map CommitmentLabel.fixed

omit [Field F] in
theorem group_lengths (fixedPolys : List (List F)) (groups : List (Option Nat × F)) :
    (groupPolys fixedPolys groups).length = (groupScalars groups).length ∧
      (groupLabels groups).length = (groupScalars groups).length := by
  induction groups with
  | nil => exact ⟨rfl, rfl⟩
  | cons group rest ih =>
    cases column : group.1 with
    | none | some _ => simpa [groupPolys, groupScalars, groupLabels, column] using ih

theorem combination_groups (view : List F → F) (fixedPolys : List (List F))
    (groups : List (Option Nat × F)) :
    combination view (groupPolys fixedPolys groups) (groupScalars groups) =
      weightedSum (selectorValue 0 view fixedPolys) groups := by
  induction groups with
  | nil => rfl
  | cons group rest ih =>
    rw [weighted_sum_cons, ← ih]
    cases column : group.1 with
    | none => simp [groupPolys, groupScalars, column, selectorValue]
    | some colIdx =>
      simp [groupPolys, groupScalars, column, selectorValue, combination, mul_comm]

theorem grouped_points_eq (expressions : List (Option Nat × F)) (y : F) :
    (groupedPoints expressions y).1 = (weights y 1 expressions.reverse).foldl
      (fun groups weight => addGroup columnBefore weight.1 weight.2 groups) [] := by
  have run : ∀ (identities groups : List (Option Nat × F)) (yPow : F),
      (identities.foldl (fun state identity =>
        (addGroup columnBefore identity.1 (state.2 * identity.2) state.1, state.2 * y))
          (groups, yPow)).1 =
        (weights y yPow identities).foldl
          (fun groups weight => addGroup columnBefore weight.1 weight.2 groups) groups := by
    intro identities
    induction identities with
    | nil => exact fun _ _ => rfl
    | cons identity rest ih =>
      intro groups yPow
      rw [foldl_cons, ih, weights, foldl_cons]
  rw [groupedPoints, run]

theorem weights_columns {count : Nat} {identities : List (Option Nat × F)}
    (inside : ColumnsIn count identities) (y yPow : F) :
    ColumnsIn count (weights y yPow identities) := by
  induction identities generalizing yPow with
  | nil => exact fun _ mem => absurd mem not_mem_nil
  | cons identity rest ih =>
    intro weight mem
    rw [weights] at mem
    rcases mem_cons.mp mem with here | later
    · rw [here]
      exact inside identity mem_cons_self
    · exact ih (fun other inRest => inside other (mem_cons_of_mem identity inRest))
        (yPow * y) weight later

variable {fixedPolys : List (List F)} {expressions : List (Option Nat × F)}

theorem push_groups {Commitment : Type} (commit : List F → Commitment)
    {groups : List (Option Nat × F)} (inside : ColumnsIn fixedPolys.length groups)
    (query : LinearQuery F Commitment) :
    groups.foldlM (pushGroup (fixedPolys.map commit)) query = some { query with
      points := query.points ++ (groupPolys fixedPolys groups).map commit
      scalars := query.scalars ++ groupScalars groups
      baseLabels := query.baseLabels ++ groupLabels groups
      eval := query.eval - weightedSum (selectorValue 1 (fun _ => 0) fixedPolys) groups } := by
  induction groups generalizing query with
  | nil => simp [groupPolys, groupScalars, groupLabels, weightedSum]
  | cons group rest ih =>
    have later := ih (forall_mem_cons.mp inside).2
    rw [foldlM_cons, weighted_sum_cons]
    cases column : group.1 with
    | none =>
      rw [pushGroup, column]
      dsimp only
      rw [some_bind, later]
      simp [groupPolys, groupScalars, groupLabels, column, selectorValue, sub_sub]
    | some colIdx =>
      have below := inside group mem_cons_self colIdx column
      have found : (fixedPolys.map commit)[colIdx]? =
          some (commit (fixedPolys.getD colIdx [])) := by
        simp [getElem?_eq_getElem below]
      rw [pushGroup, column]
      dsimp only
      simp only [found, some_bind, Option.pure_def]
      rw [later]
      simp [groupPolys, groupScalars, groupLabels, column, selectorValue]

theorem grouped_points_sum (g : Option Nat → F) (expressions : List (Option Nat × F)) (y : F) :
    weightedSum g (groupedPoints expressions y).1 =
      weightedSum g (weights y 1 expressions.reverse) := by
  rw [grouped_points_eq, weighted_sum_groups, weightedSum, map_nil, sum_nil, zero_add]

theorem grouped_points_columns {count : Nat} (inside : ColumnsIn count expressions) (y : F) :
    ColumnsIn count (groupedPoints expressions y).1 := by
  have reversed : ColumnsIn count expressions.reverse := fun identity mem =>
    inside identity (mem_reverse.mp mem)
  rw [grouped_points_eq]
  exact groups_keys (fun key => ∀ colIdx, key = some colIdx → colIdx < count)
    (fun _ mem => absurd mem not_mem_nil) (weights_columns reversed y 1)

/-- The query of the verifier, in terms of the prover's polynomials. -/
theorem linearization_commitment_eq {Commitment : Type} (commit : List F → Commitment)
    (inside : ColumnsIn fixedPolys.length expressions) (x y xn splittingFactor : F)
    (limbs : List (List F)) :
    computeLinearizationCommitment (fixedPolys.map commit) expressions x y xn splittingFactor
      (limbs.map commit) = some {
        point := x
        commitmentLabel := .custom "linearization_poly"
        points := (limbs ++ groupPolys fixedPolys (groupedPoints expressions y).1).map commit
        scalars := splittingPowers splittingFactor (1 - xn) limbs.length ++
          groupScalars (groupedPoints expressions y).1
        baseLabels := replicate limbs.length .noLabel ++
          groupLabels (groupedPoints expressions y).1
        eval := -weightedSum (selectorValue 1 (fun _ => 0) fixedPolys)
          (weights y 1 expressions.reverse) } := by
  have both := group_lengths fixedPolys (groupedPoints expressions y).1
  have limb_count := splitting_powers_length splittingFactor (1 - xn) limbs.length
  have pushed := push_groups commit (grouped_points_columns inside y) {
    point := x
    commitmentLabel := .custom "linearization_poly"
    points := limbs.map commit
    scalars := splittingPowers splittingFactor (1 - xn) limbs.length
    baseLabels := replicate limbs.length .noLabel
    eval := 0 }
  rw [computeLinearizationCommitment, length_map, pushed, some_bind, newLinear, if_neg]
  · rw [map_append, zero_sub, grouped_points_sum]
  · simp [limb_count, both.1, both.2]

variable [DecidableEq F]

/-- The query is for the prover's polynomial, and claims its value at `x`. -/
structure Agrees (threads n : Nat) (fixedPolys : List (List F))
    (expressions : List (Option Nat × F)) (x y nu : F) (limbs : List (List F)) (poly : List F)
    (constantTerm : F) : Prop where
  computed : computeLinearizationPoly threads n fixedPolys expressions y (x ^ (n - 1) * x)
    (x ^ (n - 1)) limbs = some (poly, constantTerm)
  value : batchedValue fixedPolys x y expressions = nu → valueAt x poly = -constantTerm
  query : ∃ polys scalars baseLabels, polys.length = scalars.length ∧
    (∀ j, poly.getD j 0 = combination (fun coeffs => coeffs.getD j 0) polys scalars) ∧
    ∀ {Commitment : Type} (commit : List F → Commitment),
      computeLinearizationCommitment (fixedPolys.map commit) expressions x y (x ^ (n - 1) * x)
        (x ^ (n - 1)) (limbs.map commit) = some {
          point := x
          commitmentLabel := .custom "linearization_poly"
          points := polys.map commit
          scalars := scalars
          baseLabels := baseLabels
          eval := -constantTerm }

theorem linearization_agrees {threads n : Nat} {x nu : F} {limbs : List (List F)} (y : F)
    (positive : 0 < threads) (rows : 0 < n) (lengths : ∀ column ∈ fixedPolys, column.length = n)
    (inside : ColumnsIn fixedPolys.length expressions)
    (quotient : (x ^ n - 1) * limbsValue x (n - 1) limbs = nu) :
    ∃ poly constantTerm,
      Agrees threads n fixedPolys expressions x y nu limbs poly constantTerm := by
  have reversed : ColumnsIn fixedPolys.length expressions.reverse := fun identity mem =>
    inside identity (mem_reverse.mp mem)
  rcases linearization_run_adds (y := y) positive lengths ⟨replicate n 0, 0, 1⟩
    length_replicate reversed with ⟨final, ran, constant, views⟩
  rw [zero_add] at constant
  have xn : x ^ (n - 1) * x = x ^ n := by
    rw [← pow_succ, Nat.sub_add_cancel rows]
  have poly_view : ∀ view, LinearView view → view (((limbs.zip (splittingPowers (x ^ (n - 1))
      (x ^ (n - 1) * x - 1) limbs.length)).map fun limb => mulAssign threads limb.1 limb.2).foldl
        (paddedSub threads) final.poly) =
      weightedSum (selectorValue 0 view fixedPolys) (weights y 1 expressions.reverse) -
        limbSum view (x ^ (n - 1)) (x ^ (n - 1) * x - 1) limbs := by
    intro view linear
    rw [subtract_limbs positive linear, views view linear, linear.zeros, zero_add]
  refine ⟨((limbs.zip (splittingPowers (x ^ (n - 1)) (x ^ (n - 1) * x - 1) limbs.length)).map
    fun limb => mulAssign threads limb.1 limb.2).foldl (paddedSub threads) final.poly,
    final.constantTerm, ?_, ?_, ?_⟩
  · rw [computeLinearizationPoly, ran, some_bind, Option.pure_def]
  · intro batched
    rw [batched_value_eq, weighted_sum_selectors, ← constant] at batched
    rw [poly_view _ (value_linear x), limb_sum_value, xn, quotient, ← batched]
    ring
  · have both := group_lengths fixedPolys (groupedPoints expressions y).1
    have limb_count := splitting_powers_length (x ^ (n - 1)) (1 - x ^ (n - 1) * x) limbs.length
    refine ⟨_, _, _, ?_, ?_, fun commit =>
      constant ▸ linearization_commitment_eq commit inside x y _ _ limbs⟩
    · rw [length_append, length_append, limb_count, both.1]
    · intro j
      have opposite : 1 - x ^ (n - 1) * x = -(x ^ (n - 1) * x - 1) := by ring
      rw [poly_view _ (coefficient_linear j), combination_append _ limb_count.symm,
        combination_limbs, combination_groups, grouped_points_sum, opposite, limb_sum_neg]
      ring

/-- What the limbs of a numerator do, for every use of them in a linearization. -/
structure LimbsCancel (threads d : Nat) (domain : EvaluationDomain F) (nu : Polynomial F)
    (limbs : List (List F)) : Prop where
  quotient : Quotient domain d nu limbs
  divided : ∀ x, x ^ domain.n ≠ 1 →
    limbsValue x (domain.n - 1) limbs = nu.eval x / (x ^ domain.n - 1)
  linearized : ∀ (fixedPolys : List (List F)) (expressions : List (Option Nat × F)) (x y : F),
    (∀ column ∈ fixedPolys, column.length = domain.n) →
      ColumnsIn fixedPolys.length expressions →
      ∃ poly constantTerm,
        Agrees threads domain.n fixedPolys expressions x y (nu.eval x) limbs poly constantTerm

/-- Without overflow checks the size of the extended domain must not wrap. -/
theorem limbs_cancel {params : WithSmallOrderMulGroup F} {overflowChecks : Bool} {d k : Nat}
    {domain : EvaluationDomain F}
    (accepted : EvaluationDomain.new params overflowChecks d k = some domain) (degree : 3 ≤ d)
    (rows : 1 ≤ k) (fits : overflowChecks = false → 2 ^ k * (d - 1) < 2 ^ 64)
    (zeta : params.zeta ≠ 1) {threads : Nat} (positive : 0 < threads) (random : Nat → F)
    {nu : Polynomial F} (vanishes : Polynomial.X ^ domain.n - 1 ∣ nu)
    (bound : nu.natDegree ≤ d * (domain.n - 1)) :
    ∃ limbs, computeHPoly overflowChecks threads random domain (numeratorValues domain nu) =
      some limbs ∧ LimbsCancel threads d domain nu limbs := by
  have product := new_product_fits accepted (by omega) fits
  have divides := new_divides accepted (by omega) product zeta
  have size : domain.n = 2 ^ k := (new_rows accepted).1
  have two : 2 ≤ domain.n := by
    rw [size]
    exact Nat.le_self_pow (Nat.one_le_iff_ne_zero.mp rows) 2
  rw [← size] at product
  rcases compute_h_poly_limbs overflowChecks random positive divides two degree product vanishes
    bound with ⟨limbs, ran, quotient⟩
  exact ⟨limbs, ran, {
    quotient := quotient
    divided := fun _ outside => quotient_value quotient outside
    linearized := fun _ _ x y lengths inside =>
      linearization_agrees y positive (by omega) lengths inside (quotient.value x) }⟩

/-- Two rows over the field of 13 elements. -/
theorem limbs_cancel_two_rows :
    ∃ domain : EvaluationDomain (ZMod 13),
      EvaluationDomain.new thirteenGroup true 3 1 = some domain ∧
      ∃ limbs, computeHPoly true 2 (fun _ => 7) domain
          (numeratorValues domain (Polynomial.X ^ domain.n - 1)) = some limbs ∧
        LimbsCancel 2 3 domain (Polynomial.X ^ domain.n - 1) limbs := by
  have accepted : (EvaluationDomain.new thirteenGroup true 3 1).isSome := by decide +kernel
  rcases Option.isSome_iff_exists.mp accepted with ⟨domain, built⟩
  have size : domain.n = 2 := (new_rows built).1
  have zeta : thirteenGroup.zeta ≠ 1 := by decide
  have bound : (Polynomial.X ^ domain.n - 1 : Polynomial (ZMod 13)).natDegree ≤
      3 * (domain.n - 1) := by
    rw [← Polynomial.C_1, Polynomial.natDegree_X_pow_sub_C, size]
    decide
  have unchecked : true = false → 2 ^ 1 * (3 - 1) < 2 ^ 64 := fun _ => by norm_num
  exact ⟨domain, built, limbs_cancel built (Nat.le_refl 3) (Nat.le_refl 1) unchecked zeta
    Nat.two_pos (fun _ => 7) (dvd_refl _) bound⟩

end Midfall.LinearizationQueries
