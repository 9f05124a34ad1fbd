import Midfall.ListLoops
import Midfall.QuotientExprShapes

/-!
# Selector folds of the quotient numerator

The identities of the quotient numerator are folded in order. The main
numerator advances by `y` at every identity; a selector bucket advances only at
its own identities, by the power of the gap since the previous one, and once
more by the power of its tail at the end. The gap and tail schedule, the table
of powers and the folds of the rendered block.
-/

namespace Midfall.QuotientSelectorFold

open ListLoops QuotientExprShapes QuotientVmInterpreter List
open ScalarField (scalarModulus mulmod addmod)

/-! ### Fold schedule -/

inductive QuotientTarget where
  | main
  | selector (idx : Nat)
  deriving DecidableEq, Repr

structure QuotientIdentity where
  globalIndex : Nat
  target : QuotientTarget
  expr : QuotientExpr
  deriving DecidableEq, Repr

structure SelectorFoldPlan where
  gapsByIdentity : List (Option Nat)
  tailExponents : List Nat
  maxPower : Nat
  deriving DecidableEq, Repr

/-- `usize` subtraction, which panics below zero. -/
def checkedSub (left right : Nat) : Option Nat := if right ≤ left then some (left - right) else none

def selectorPositions (identities : List QuotientIdentity) (selectorIdx : Nat) : List Nat :=
  identities.filterMap fun identity =>
    if identity.target = .selector selectorIdx then some identity.globalIndex else none

/-- Each position with its distance from the previous one, zero for the first. -/
def selectorGaps (positions : List Nat) : Option (List (Nat × Nat)) :=
  positions.zipIdx.mapM fun (globalIndex, pos) =>
    match pos with
    | 0 => some (globalIndex, 0)
    | prevPos + 1 => do return (globalIndex, ← checkedSub globalIndex (positions.getD prevPos 0))

/-- The entry of one global index; an absent index or selector panics. -/
def identityGap (targets : List (Nat × QuotientTarget)) (gaps : List (Nat × Nat))
    (globalIndex : Nat) : Option (Option Nat) := do
  match ← collected targets globalIndex with
  | .selector _ => return some (← collected gaps globalIndex)
  | .main => return none

def tailExponent (count : Nat) (positions : List Nat) : Option Nat :=
  match positions.getLast? with
  | none => some 0
  | some lastIndex => checkedSub (count - 1) lastIndex

def selectorFoldPlan (identities : List QuotientIdentity) (selectorCount : Nat) :
    Option SelectorFoldPlan := do
  let positions := (List.range selectorCount).map (selectorPositions identities)
  let targets := identities.map fun identity => (identity.globalIndex, identity.target)
  let gaps ← positions.mapM selectorGaps
  let gapsByIdentity ← (List.range identities.length).mapM (identityGap targets gaps.flatten)
  let tailExponents ← positions.mapM (tailExponent identities.length)
  let maxPower := (gapsByIdentity.filterMap id ++ tailExponents).foldl max 0
  return { gapsByIdentity, tailExponents, maxPower }

def SelectorFoldPlan.gapFor (plan : SelectorFoldPlan) (identity : QuotientIdentity) : Option Nat :=
  (plan.gapsByIdentity[identity.globalIndex]?).join

def selectorTailUpdates (plan : SelectorFoldPlan) : List (Nat × Nat) :=
  plan.tailExponents.zipIdx.filterMap fun (tail, selectorIdx) =>
    if tail ≠ 0 then some (selectorIdx, tail) else none

/-! ### Rendered folds -/

/-- The table of powers `y^1 .. y^maxPower`; other words keep their content. -/
def selectorPowers (y maxPower : Nat) (memory : Nat → Nat) : Nat → Nat :=
  ((range' 1 maxPower).foldl (fun (power, table) i =>
    let power := mulmod power y
    (power, Function.update table i power)) (1, memory)).2

/-- Buckets start at zero, and so does the numerator. -/
def startAccumulators (selectorCount : Nat) (memory : Nat → Nat) : Accumulators where
  evalNumer := 0
  selectorAcc := fun selectorIdx => if selectorIdx < selectorCount then 0 else memory selectorIdx

variable (frame : QuotientFrame)

def foldIdentity (plan : SelectorFoldPlan) (value : QuotientExpr → Nat) (acc : Accumulators)
    (identity : QuotientIdentity) : Option Accumulators :=
  match identity.target with
  | .main => some (frame.foldMainAcc (value identity.expr) acc)
  | .selector selectorIdx => do
    let gap ← plan.gapFor identity
    return frame.foldSelectorAcc selectorIdx gap (value identity.expr) acc

def applyTail (acc : Accumulators) (update : Nat × Nat) : Accumulators :=
  let (selectorIdx, tail) := update
  let selAcc := mulmod (acc.selectorAcc selectorIdx) (frame.selectorPower tail)
  { acc with selectorAcc := Function.update acc.selectorAcc selectorIdx selAcc }

/-- The rendered block: identities in order, then the tails. -/
def foldIdentities (plan : SelectorFoldPlan) (selectorCount : Nat) (value : QuotientExpr → Nat)
    (memory : Nat → Nat) (identities : List QuotientIdentity) : Option Accumulators := do
  let powers := selectorPowers frame.y plan.maxPower frame.selectorPower
  let frame := { frame with selectorPower := powers }
  let acc ← identities.foldlM (foldIdentity frame plan value)
    (startAccumulators selectorCount memory)
  return (selectorTailUpdates plan).foldl (applyTail frame) acc

/-! ### The schedule of ordered identities -/

/-- The identities stand at their global indices. -/
def Ordered (identities : List QuotientIdentity) : Prop :=
  identities.map (·.globalIndex) = List.range identities.length

def gapAfter (earlier : List Nat) (position : Nat) : Nat :=
  match earlier.getLast? with
  | none => 0
  | some last => position - last

theorem selector_positions_append (first later : List QuotientIdentity) (selectorIdx : Nat) :
    selectorPositions (first ++ later) selectorIdx =
      selectorPositions first selectorIdx ++ selectorPositions later selectorIdx := by
  exact filterMap_append

theorem selector_positions_sublist (identities : List QuotientIdentity) (selectorIdx : Nat) :
    (selectorPositions identities selectorIdx).Sublist (identities.map (·.globalIndex)) := by
  induction identities with
  | nil => exact List.Sublist.refl _
  | cons identity identities ih =>
    unfold selectorPositions at ih ⊢
    rw [filterMap_cons, map_cons]
    by_cases same : identity.target = .selector selectorIdx
    · rw [if_pos same]
      exact ih.cons_cons _
    · rw [if_neg same]
      exact ih.cons _

theorem selector_gaps_ascending {positions : List Nat} (ascending : positions.Pairwise (· < ·)) :
    ∃ gaps, selectorGaps positions = some gaps ∧ gaps.map (·.1) = positions ∧
      ∀ earlier position later, positions = earlier ++ position :: later →
        (position, gapAfter earlier position) ∈ gaps := by
  have computed : ∀ entry ∈ positions.zipIdx, (match entry.2 with
      | 0 => some (entry.1, 0)
      | prevPos + 1 => do
        return (entry.1, ← checkedSub entry.1 (positions.getD prevPos 0))) =
      some (entry.1, gapAfter (positions.take entry.2) entry.1) := by
    intro entry mem
    obtain ⟨globalIndex, pos⟩ := entry
    have located : positions[pos]? = some globalIndex := mem_zipIdx_iff_getElem?.mp mem
    cases pos with
    | zero => rfl
    | succ prevPos =>
      obtain ⟨inside, found⟩ := List.getElem?_eq_some_iff.mp located
      have previous : prevPos < positions.length := by omega
      have below : positions[prevPos] < globalIndex := by
        rw [← found]
        exact pairwise_iff_getElem.mp ascending _ _ _ _ (Nat.lt_succ_self prevPos)
      have last : (positions.take (prevPos + 1)).getLast? = some positions[prevPos] := by
        rw [take_succ_eq_append_getElem previous]
        exact getLast?_concat
      have entryAt : positions.getD prevPos 0 = positions[prevPos] := by
        rw [getD_eq_getElem?_getD, getElem?_eq_getElem previous]
        rfl
      simp only [entryAt, checkedSub, if_pos below.le, gapAfter, last]
      rfl
  use positions.zipIdx.map fun entry => (entry.1, gapAfter (positions.take entry.2) entry.1)
  constructor
  · exact map_m_of_forall _ computed
  constructor
  · rw [map_map]
    exact zipIdx_map_fst 0 positions
  · intro earlier position later split
    apply mem_map.mpr
    use (position, earlier.length)
    constructor
    · rw [mem_zipIdx_iff_getElem?, split]
      simp
    · simp [split]

section Schedule

variable {identities : List QuotientIdentity} {selectorCount : Nat}

section

variable (ordered : Ordered identities)

include ordered

theorem ordered_get {position : Nat} {identity : QuotientIdentity}
    (found : identities[position]? = some identity) :
    identity.globalIndex = position := by
  have inside := (List.getElem?_eq_some_iff.mp found).1
  have indices : (identities.map (·.globalIndex))[position]? = some identity.globalIndex := by
    rw [getElem?_map, found]
    rfl
  rw [ordered, getElem?_range inside] at indices
  exact (Option.some.inj indices).symm

theorem ordered_indices_nodup : (identities.map (·.globalIndex)).Nodup := by
  rw [ordered]
  exact nodup_range

theorem ordered_split {first later : List QuotientIdentity} {next : QuotientIdentity}
    (split : identities = first ++ next :: later) :
    next.globalIndex = first.length := by
  apply ordered_get ordered
  rw [split, getElem?_append_right (Nat.le_refl _), Nat.sub_self]
  rfl

theorem selector_positions_ascending (selectorIdx : Nat) :
    (selectorPositions identities selectorIdx).Pairwise (· < ·) := by
  have sublist := selector_positions_sublist identities selectorIdx
  rw [ordered] at sublist
  exact pairwise_lt_range.sublist sublist

end

theorem mem_selector_positions {selectorIdx position : Nat} :
    position ∈ selectorPositions identities selectorIdx ↔
      ∃ identity ∈ identities, identity.target = .selector selectorIdx ∧
        identity.globalIndex = position := by
  simp [selectorPositions]

theorem all_positions_nodup (ordered : Ordered identities) :
    ((List.range selectorCount).flatMap (selectorPositions identities)).Nodup := by
  rw [nodup_flatMap]
  constructor
  · intro selectorIdx mem
    exact (selector_positions_ascending ordered selectorIdx).imp Nat.ne_of_lt
  · apply nodup_range.imp
    intro left right apart position inLeft inRight
    obtain ⟨identity, present, target, index⟩ := mem_selector_positions.mp inLeft
    obtain ⟨other, otherPresent, otherTarget, otherIndex⟩ := mem_selector_positions.mp inRight
    have same : identity = other := by
      apply inj_on_of_nodup_map (ordered_indices_nodup ordered) present otherPresent
      exact index.trans otherIndex.symm
    rw [same, otherTarget] at target
    exact apart (QuotientTarget.selector.inj target).symm

def tailOf (identities : List QuotientIdentity) (selectorIdx : Nat) : Nat :=
  match (selectorPositions identities selectorIdx).getLast? with
  | none => 0
  | some lastIndex => identities.length - 1 - lastIndex

/-- What the plan says of each identity and of each bucket. -/
structure Schedules (identities : List QuotientIdentity) (selectorCount : Nat)
    (plan : SelectorFoldPlan) : Prop where
  gap : ∀ first next later selectorIdx, identities = first ++ next :: later →
    next.target = .selector selectorIdx →
    plan.gapFor next = some (gapAfter (selectorPositions first selectorIdx) next.globalIndex)
  gap_bounded : ∀ identity gap, plan.gapFor identity = some gap → gap ≤ plan.maxPower
  tails : plan.tailExponents = (List.range selectorCount).map (tailOf identities)
  tail_bounded : ∀ tail ∈ plan.tailExponents, tail ≤ plan.maxPower

theorem le_foldl_max {entries : List Nat} {start entry : Nat}
    (mem : entry ≤ start ∨ entry ∈ entries) : entry ≤ entries.foldl max start := by
  induction entries generalizing start with
  | nil =>
    rcases mem with below | absent
    · exact below
    · cases absent
  | cons first entries ih =>
    rw [foldl_cons]
    apply ih
    rcases mem with below | mem
    · exact Or.inl (below.trans (Nat.le_max_left start first))
    · rcases mem_cons.mp mem with rfl | later
      · exact Or.inl (Nat.le_max_right start entry)
      · exact Or.inr later

def gapAt (identities : List QuotientIdentity) (position : Nat) : Option Nat :=
  match identities[position]? with
  | none => none
  | some identity =>
    match identity.target with
    | .main => none
    | .selector selectorIdx =>
      some (gapAfter (selectorPositions (identities.take position) selectorIdx) position)

theorem gap_at_split (ordered : Ordered identities) {first later : List QuotientIdentity}
    {next : QuotientIdentity} {selectorIdx : Nat} (split : identities = first ++ next :: later)
    (target : next.target = .selector selectorIdx) :
    gapAt identities next.globalIndex =
      some (gapAfter (selectorPositions first selectorIdx) next.globalIndex) := by
  have index := ordered_split ordered split
  have found : identities[first.length]? = some next := by
    rw [split, getElem?_append_right (Nat.le_refl _), Nat.sub_self]
    rfl
  have earlier : identities.take first.length = first := by
    rw [split]
    exact take_left
  unfold gapAt
  rw [index, found, earlier]
  simp only [target]

theorem gaps_collected (ordered : Ordered identities) :
    ∃ gaps, ((List.range selectorCount).map (selectorPositions identities)).mapM selectorGaps =
        some gaps ∧
      ∀ first next later selectorIdx, identities = first ++ next :: later →
        next.target = .selector selectorIdx → selectorIdx < selectorCount →
        collected gaps.flatten next.globalIndex =
          some (gapAfter (selectorPositions first selectorIdx) next.globalIndex) := by
  choose gapsOf computed keyed listed using fun selectorIdx =>
    selector_gaps_ascending (selector_positions_ascending ordered selectorIdx)
  use (List.range selectorCount).map gapsOf
  constructor
  · rw [mapM_map]
    apply map_m_of_forall
    intro selectorIdx mem
    exact computed selectorIdx
  · intro first next later selectorIdx split target known
    have keys : (((List.range selectorCount).map gapsOf).flatten).map (·.1) =
        (List.range selectorCount).flatMap (selectorPositions identities) := by
      rw [map_flatten, map_map, flatMap_def]
      congr 1
      apply map_congr_left
      intro selectorIdx mem
      exact keyed selectorIdx
    apply collected_of_mem
    · rw [keys]
      exact all_positions_nodup ordered
    · apply mem_flatten.mpr
      use gapsOf selectorIdx
      constructor
      · exact mem_map_of_mem (mem_range.mpr known)
      · apply listed selectorIdx _ _ (selectorPositions later selectorIdx)
        rw [split, selector_positions_append]
        congr 1
        simp [selectorPositions, target]

theorem identity_gaps (ordered : Ordered identities)
    (known : ∀ identity ∈ identities, ∀ selectorIdx, identity.target = .selector selectorIdx →
      selectorIdx < selectorCount) {gaps : List (Nat × Nat)}
    (recorded : ∀ first next later selectorIdx, identities = first ++ next :: later →
      next.target = .selector selectorIdx → selectorIdx < selectorCount →
      collected gaps next.globalIndex =
        some (gapAfter (selectorPositions first selectorIdx) next.globalIndex)) :
    (List.range identities.length).mapM (identityGap
      (identities.map fun identity => (identity.globalIndex, identity.target)) gaps) =
        some ((List.range identities.length).map (gapAt identities)) := by
  apply map_m_of_forall
  intro position mem
  have inside := mem_range.mp mem
  have found := getElem?_eq_getElem inside
  have present : identities[position] ∈ identities := getElem_mem inside
  have index := ordered_get ordered found
  have split : identities = identities.take position ++ identities[position] ::
      identities.drop (position + 1) := by
    rw [← drop_eq_getElem_cons inside, take_append_drop]
  have targeted : collected (identities.map fun identity =>
      (identity.globalIndex, identity.target)) position = some identities[position].target := by
    apply collected_of_mem
    · rw [map_map]
      exact ordered_indices_nodup ordered
    · apply mem_map.mpr
      exact ⟨_, present, by rw [index]⟩
  unfold identityGap
  rw [targeted]
  cases target : identities[position].target with
  | main =>
    unfold gapAt
    simp only [found, target]
    rfl
  | selector selectorIdx =>
    have gap := recorded _ _ _ _ split target (known _ present _ target)
    have entry := gap_at_split ordered split target
    rw [index] at gap entry
    rw [entry]
    simp only [some_bind, gap]

theorem tail_exponents (ordered : Ordered identities) :
    ((List.range selectorCount).map (selectorPositions identities)).mapM
      (tailExponent identities.length) =
        some ((List.range selectorCount).map (tailOf identities)) := by
  rw [mapM_map]
  apply map_m_of_forall
  intro selectorIdx mem
  simp only [Function.comp_apply, tailExponent, tailOf]
  cases last : (selectorPositions identities selectorIdx).getLast? with
  | none => rfl
  | some lastIndex =>
    have listed := (selector_positions_sublist identities selectorIdx).subset
      (mem_of_getLast? last)
    rw [ordered, mem_range] at listed
    have fits : lastIndex ≤ identities.length - 1 := by omega
    exact if_pos fits

theorem selector_fold_plan_schedules (ordered : Ordered identities)
    (known : ∀ identity ∈ identities, ∀ selectorIdx, identity.target = .selector selectorIdx →
      selectorIdx < selectorCount) :
    ∃ plan, selectorFoldPlan identities selectorCount = some plan ∧
      Schedules identities selectorCount plan := by
  obtain ⟨gaps, computed, recorded⟩ := @gaps_collected _ selectorCount ordered
  have byIdentity := identity_gaps ordered known recorded
  have tails := @tail_exponents _ selectorCount ordered
  have entryOf : ∀ (identity : Nat) (gap : Nat), ((List.range identities.length).map
      (gapAt identities))[identity]?.join = some gap →
        some gap ∈ (List.range identities.length).map (gapAt identities) := by
    intro identity gap found
    exact mem_of_getElem? (Option.join_eq_some_iff.mp found)
  unfold selectorFoldPlan
  simp only [computed, byIdentity, tails, some_bind]
  refine ⟨_, rfl, ?_, ?_, rfl, ?_⟩
  · intro first next later selectorIdx split target
    have inside : next.globalIndex < identities.length := by
      rw [ordered_split ordered split, split]
      simp
    unfold SelectorFoldPlan.gapFor
    rw [getElem?_map, getElem?_range inside, Option.map_some, gap_at_split ordered split target]
    rfl
  · intro identity gap found
    apply le_foldl_max
    right
    apply mem_append_left
    exact mem_filterMap.mpr ⟨some gap, entryOf _ _ found, rfl⟩
  · intro tail mem
    apply le_foldl_max
    right
    exact mem_append_right _ mem

end Schedule

/-! ### Powers -/

/-- The table holds the powers of `y`; its loop keeps the last one. -/
theorem selector_powers_run (y : Nat) (memory : Nat → Nat) (count : Nat) :
    let run := (range' 1 count).foldl (fun (power, table) i =>
      let power := mulmod power y
      (power, Function.update table i power)) (1, memory)
    run.1 ≡ y ^ count [MOD scalarModulus] ∧
      ∀ exponent, 1 ≤ exponent → exponent ≤ count →
        run.2 exponent ≡ y ^ exponent [MOD scalarModulus] := by
  induction count with
  | zero =>
    constructor
    · exact Nat.ModEq.refl 1
    · intro exponent lower upper
      omega
  | succ count ih =>
    obtain ⟨current, written⟩ := ih
    rw [range'_concat, foldl_append]
    have next : mulmod ((range' 1 count).foldl (fun (power, table) i =>
        let power := mulmod power y
        (power, Function.update table i power)) (1, memory)).1 y ≡
          y ^ (count + 1) [MOD scalarModulus] := by
      rw [pow_succ]
      exact (Nat.mod_modEq _ _).trans (current.mul_right y)
    constructor
    · exact next
    · intro exponent lower upper
      simp only [foldl_cons, foldl_nil, Nat.one_mul]
      by_cases here : exponent = 1 + count
      · rw [here, Function.update_self, Nat.add_comm 1 count]
        exact next
      · rw [Function.update_of_ne here]
        apply written exponent lower
        omega

theorem selector_powers_get {y maxPower exponent : Nat} (memory : Nat → Nat) (lower : 1 ≤ exponent)
    (upper : exponent ≤ maxPower) :
    selectorPowers y maxPower memory exponent ≡ y ^ exponent [MOD scalarModulus] := by
  exact (selector_powers_run y memory maxPower).2 exponent lower upper

/-! ### Weighted sums -/

/-- Values of the identities of one target, each times the power of `y` from its
position to `position`. -/
def weighted (value : QuotientExpr → Nat) (y : Nat) (target : QuotientTarget) (position : Nat)
    (identities : List QuotientIdentity) : Nat :=
  ((identities.filter (·.target = target)).map fun identity =>
    value identity.expr * y ^ (position - identity.globalIndex)).sum

section Weighted

variable {value : QuotientExpr → Nat} {y : Nat} {target : QuotientTarget}

theorem weighted_append (position : Nat) (first later : List QuotientIdentity) :
    weighted value y target position (first ++ later) =
      weighted value y target position first + weighted value y target position later := by
  simp [weighted]

theorem weighted_singleton (position : Nat) (identity : QuotientIdentity) :
    weighted value y target position [identity] =
      if identity.target = target then value identity.expr * y ^ (position - identity.globalIndex)
      else 0 := by
  by_cases same : identity.target = target <;> simp [weighted, same]

theorem weighted_advance {identities : List QuotientIdentity} {position : Nat} (distance : Nat)
    (before : ∀ identity ∈ identities, identity.target = target →
      identity.globalIndex ≤ position) :
    weighted value y target (position + distance) identities =
      weighted value y target position identities * y ^ distance := by
  unfold weighted
  rw [← sum_map_mul_right]
  congr 1
  apply map_congr_left
  intro identity mem
  have kept := mem_filter.mp mem
  have reached := before identity kept.1 (of_decide_eq_true kept.2)
  rw [Nat.sub_add_comm reached, pow_add, Nat.mul_assoc]

theorem weighted_absent {identities : List QuotientIdentity} (position : Nat)
    (absent : ∀ identity ∈ identities, identity.target ≠ target) :
    weighted value y target position identities = 0 := by
  unfold weighted
  have none : identities.filter (·.target = target) = [] := by
    apply filter_eq_nil_iff.mpr
    intro identity mem same
    exact absent identity mem (of_decide_eq_true same)
  rw [none]
  rfl

end Weighted

/-! ### Folds -/

section Folds

variable {frame : QuotientFrame} {plan : SelectorFoldPlan} {value : QuotientExpr → Nat}
  {selectorCount : Nat} {identities : List QuotientIdentity}

def lastPosition (identities : List QuotientIdentity) (selectorIdx : Nat) : Nat :=
  (selectorPositions identities selectorIdx).getLast?.getD 0

/-- What the accumulators hold after some identities: the numerator stands at the
last position, a bucket at the last position of its selector. -/
structure Folded (frame : QuotientFrame) (value : QuotientExpr → Nat) (selectorCount : Nat)
    (first : List QuotientIdentity) (acc : Accumulators) : Prop where
  main : acc.evalNumer ≡ weighted value frame.y .main (first.length - 1) first [MOD scalarModulus]
  main_reduced : acc.evalNumer < scalarModulus
  bucket : ∀ selectorIdx < selectorCount, acc.selectorAcc selectorIdx ≡
    weighted value frame.y (.selector selectorIdx) (lastPosition first selectorIdx) first
      [MOD scalarModulus]
  bucket_reduced : ∀ selectorIdx < selectorCount, acc.selectorAcc selectorIdx < scalarModulus

theorem fr_reduced (word : Nat) : word % scalarModulus < scalarModulus := Nat.mod_lt _ (by decide)

theorem folded_start (memory : Nat → Nat) :
    Folded frame value selectorCount [] (startAccumulators selectorCount memory) := by
  constructor
  · exact Nat.ModEq.refl 0
  · exact fr_reduced 0
  · intro selectorIdx inside
    simp only [startAccumulators, if_pos inside]
    exact Nat.ModEq.refl 0
  · intro selectorIdx inside
    simp only [startAccumulators, if_pos inside]
    exact fr_reduced 0

variable {first later : List QuotientIdentity} {selectorIdx : Nat} {next : QuotientIdentity}
  {acc : Accumulators}

theorem global_index_bounded (ordered : Ordered identities) (split : identities = first ++ later) :
    ∀ identity ∈ first, identity.globalIndex ≤ first.length - 1 := by
  intro identity mem
  obtain ⟨position, inside, rfl⟩ := mem_iff_getElem.mp mem
  have found : identities[position]? = some first[position] := by
    rw [split, getElem?_append_left inside]
    exact getElem?_eq_getElem inside
  rw [ordered_get ordered found]
  omega

theorem before_last (ordered : Ordered identities) (split : identities = first ++ later) :
    ∀ identity ∈ first, identity.target = .selector selectorIdx →
      identity.globalIndex ≤ lastPosition first selectorIdx := by
  intro identity mem target
  have listed := mem_selector_positions.mpr ⟨identity, mem, target, rfl⟩
  have ascending : (selectorPositions first selectorIdx).Pairwise (· < ·) := by
    have whole := selector_positions_ascending ordered selectorIdx
    rw [split, selector_positions_append] at whole
    exact (pairwise_append.mp whole).1
  unfold lastPosition
  rcases eq_nil_or_concat (selectorPositions first selectorIdx) with empty | ⟨earlier, last, all⟩
  · rw [empty] at listed
    cases listed
  · rw [all] at listed ascending ⊢
    rw [concat_eq_append] at listed ascending ⊢
    rw [getLast?_concat, Option.getD_some]
    rcases mem_append.mp listed with before | here
    · exact ((pairwise_append.mp ascending).2.2 _ before _ mem_cons_self).le
    · exact (mem_singleton.mp here).le

theorem last_position_snoc (first : List QuotientIdentity) (next : QuotientIdentity)
    (selectorIdx : Nat) :
    lastPosition (first ++ [next]) selectorIdx =
      if next.target = .selector selectorIdx then next.globalIndex
      else lastPosition first selectorIdx := by
  unfold lastPosition
  rw [selector_positions_append]
  by_cases same : next.target = .selector selectorIdx <;> simp [selectorPositions, same]

theorem main_advanced (ordered : Ordered identities) (split : identities = first ++ next :: later) :
    weighted value frame.y .main first.length first =
      weighted value frame.y .main (first.length - 1) first * frame.y := by
  rcases eq_nil_or_concat first with rfl | ⟨earlier, last, rfl⟩
  · simp [weighted]
  · have advanced := @weighted_advance value frame.y .main _ _ 1
      (fun identity mem _ => global_index_bounded ordered split identity mem)
    rw [pow_one] at advanced
    rw [← advanced]
    simp

theorem selector_absent {selectorIdx : Nat}
    (last : (selectorPositions identities selectorIdx).getLast? = none) :
    ∀ identity ∈ identities, identity.target ≠ .selector selectorIdx := by
  intro identity mem target
  have listed := mem_selector_positions.mpr ⟨identity, mem, target, rfl⟩
  rw [getLast?_eq_none_iff.mp last] at listed
  cases listed

theorem bucket_advanced (ordered : Ordered identities) (split : identities = first ++ next :: later)
    (selectorIdx : Nat) :
    weighted value frame.y (.selector selectorIdx) next.globalIndex first =
      weighted value frame.y (.selector selectorIdx) (lastPosition first selectorIdx) first *
        frame.y ^ gapAfter (selectorPositions first selectorIdx) next.globalIndex := by
  cases last : (selectorPositions first selectorIdx).getLast? with
  | none =>
    have absent := selector_absent last
    rw [weighted_absent _ absent, weighted_absent _ absent, Nat.zero_mul]
  | some lastIndex =>
    have gap : gapAfter (selectorPositions first selectorIdx) next.globalIndex =
        next.globalIndex - lastIndex := by
      simp only [gapAfter, last]
    have position : lastPosition first selectorIdx = lastIndex := by
      simp only [lastPosition, last, Option.getD_some]
    obtain ⟨identity, mem, -, index⟩ :=
      mem_selector_positions.mp (mem_of_getLast? last)
    have bounded := global_index_bounded ordered split identity mem
    rw [index] at bounded
    have reached : lastIndex ≤ next.globalIndex := by
      rw [ordered_split ordered split]
      omega
    rw [gap, position, ← weighted_advance _ (position ▸ before_last ordered split),
      Nat.add_sub_cancel' reached]

theorem fold_main_step (ordered : Ordered identities) (split : identities = first ++ next :: later)
    (target : next.target = .main) (folded : Folded frame value selectorCount first acc) :
    Folded frame value selectorCount (first ++ [next])
      (frame.foldMainAcc (value next.expr) acc) := by
  have index := ordered_split ordered split
  constructor
  · have advanced := (Nat.mod_modEq _ _).trans (folded.main.mul_right frame.y)
    have summed := (Nat.mod_modEq _ _).trans (advanced.add_right (value next.expr))
    rw [weighted_append, weighted_singleton, if_pos target, length_append, length_singleton,
      Nat.add_sub_cancel, main_advanced ordered split, index, Nat.sub_self, pow_zero, Nat.mul_one]
    exact summed
  · exact fr_reduced _
  · intro selectorIdx inside
    have other : next.target ≠ .selector selectorIdx := by
      rw [target]
      exact QuotientTarget.noConfusion
    rw [last_position_snoc, if_neg other, weighted_append, weighted_singleton, if_neg other,
      Nat.add_zero]
    exact folded.bucket selectorIdx inside
  · exact folded.bucket_reduced

theorem fold_selector_step (ordered : Ordered identities)
    (powers : ∀ exponent, 1 ≤ exponent → exponent ≤ plan.maxPower →
      frame.selectorPower exponent ≡ frame.y ^ exponent [MOD scalarModulus])
    (split : identities = first ++ next :: later) {gap : Nat}
    (target : next.target = .selector selectorIdx)
    (scheduled : gap = gapAfter (selectorPositions first selectorIdx) next.globalIndex)
    (bounded : gap ≤ plan.maxPower) (folded : Folded frame value selectorCount first acc) :
    Folded frame value selectorCount (first ++ [next])
      (frame.foldSelectorAcc selectorIdx gap (value next.expr) acc) := by
  constructor
  · have other : next.target ≠ .main := by
      rw [target]
      exact QuotientTarget.noConfusion
    have advanced := (Nat.mod_modEq _ _).trans (folded.main.mul_right frame.y)
    rw [weighted_append, weighted_singleton, if_neg other, length_append,
      length_singleton, Nat.add_sub_cancel, main_advanced ordered split, Nat.add_zero]
    exact advanced
  · exact fr_reduced _
  · intro other inside
    rw [last_position_snoc, weighted_append, weighted_singleton]
    by_cases same : other = selectorIdx
    · subst same
      have moved : (if gap ≠ 0 then mulmod (acc.selectorAcc other) (frame.selectorPower gap)
          else acc.selectorAcc other) ≡ weighted value frame.y (.selector other)
            next.globalIndex first [MOD scalarModulus] := by
        rw [bucket_advanced ordered split, ← scheduled]
        by_cases still : gap = 0
        · rw [if_neg (not_not.mpr still), still, pow_zero, Nat.mul_one]
          exact folded.bucket other inside
        · rw [if_pos still]
          have power := powers gap (Nat.one_le_iff_ne_zero.mpr still) bounded
          exact (Nat.mod_modEq _ _).trans ((folded.bucket other inside).mul power)
      rw [if_pos target, if_pos target, Nat.sub_self, pow_zero, Nat.mul_one]
      simp only [QuotientFrame.foldSelectorAcc, Function.update_self]
      exact (Nat.mod_modEq _ _).trans (moved.add_right _)
    · have elsewhere : next.target ≠ .selector other := by
        rw [target]
        intro equal
        exact same (QuotientTarget.selector.inj equal).symm
      rw [if_neg elsewhere, if_neg elsewhere, Nat.add_zero]
      simp only [QuotientFrame.foldSelectorAcc, Function.update_of_ne same]
      exact folded.bucket other inside
  · intro other inside
    simp only [QuotientFrame.foldSelectorAcc, Function.update_apply]
    by_cases same : other = selectorIdx
    · rw [if_pos same]
      exact fr_reduced _
    · rw [if_neg same]
      exact folded.bucket_reduced other inside

theorem folded_run (ordered : Ordered identities)
    (schedules : Schedules identities selectorCount plan)
    (powers : ∀ exponent, 1 ≤ exponent → exponent ≤ plan.maxPower →
      frame.selectorPower exponent ≡ frame.y ^ exponent [MOD scalarModulus])
    (memory : Nat → Nat) (first later : List QuotientIdentity)
    (split : identities = first ++ later) :
    ∃ acc, first.foldlM (foldIdentity frame plan value) (startAccumulators selectorCount memory) =
      some acc ∧ Folded frame value selectorCount first acc := by
  induction first using List.reverseRecOn generalizing later with
  | nil => exact ⟨_, rfl, folded_start memory⟩
  | append_singleton first next ih =>
    have splitNext : identities = first ++ next :: later := by
      rw [split, append_assoc]
      rfl
    obtain ⟨acc, computed, folded⟩ := ih (next :: later) splitNext
    rw [foldlM_append, computed]
    cases target : next.target with
    | main =>
      use frame.foldMainAcc (value next.expr) acc
      constructor
      · simp [foldIdentity, target]
      · exact fold_main_step ordered splitNext target folded
    | selector selectorIdx =>
      have gap := schedules.gap _ _ _ _ splitNext target
      use frame.foldSelectorAcc selectorIdx
        (gapAfter (selectorPositions first selectorIdx) next.globalIndex) (value next.expr) acc
      constructor
      · simp [foldIdentity, target, gap]
      · apply fold_selector_step ordered powers splitNext target rfl _ folded
        exact schedules.gap_bounded _ _ gap

/-! ### Tails -/

theorem tails_keep_numerator (updates : List (Nat × Nat)) (acc : Accumulators) :
    (updates.foldl (applyTail frame) acc).evalNumer = acc.evalNumer := by
  induction updates generalizing acc with
  | nil => rfl
  | cons update updates ih => exact ih (applyTail frame acc update)

theorem tails_absent {updates : List (Nat × Nat)} (absent : selectorIdx ∉ updates.map (·.1))
    (acc : Accumulators) :
    (updates.foldl (applyTail frame) acc).selectorAcc selectorIdx =
      acc.selectorAcc selectorIdx := by
  induction updates generalizing acc with
  | nil => rfl
  | cons update updates ih =>
    rw [map_cons, mem_cons, not_or] at absent
    rw [foldl_cons, ih absent.2]
    exact Function.update_of_ne absent.1 _ _

theorem tails_present {updates : List (Nat × Nat)} (distinct : (updates.map (·.1)).Nodup)
    {tail : Nat} (mem : (selectorIdx, tail) ∈ updates) (acc : Accumulators) :
    (updates.foldl (applyTail frame) acc).selectorAcc selectorIdx =
      mulmod (acc.selectorAcc selectorIdx) (frame.selectorPower tail) := by
  induction updates generalizing acc with
  | nil => cases mem
  | cons update updates ih =>
    rw [map_cons, nodup_cons] at distinct
    rw [foldl_cons]
    rcases mem_cons.mp mem with rfl | later
    · rw [tails_absent distinct.1]
      exact Function.update_self _ _ _
    · have apart : selectorIdx ≠ update.1 := by
        intro same
        apply distinct.1
        rw [← same]
        exact mem_map_of_mem later
      rw [ih distinct.2 later]
      congr 1
      exact Function.update_of_ne apart _ _

theorem mem_selector_tail_updates {tail : Nat} :
    (selectorIdx, tail) ∈ selectorTailUpdates plan ↔
      plan.tailExponents[selectorIdx]? = some tail ∧ tail ≠ 0 := by
  unfold selectorTailUpdates
  rw [mem_filterMap]
  constructor
  · intro found
    obtain ⟨⟨exponent, idx⟩, mem, kept⟩ := found
    dsimp only at kept
    split_ifs at kept with moved
    rw [Option.some.injEq, Prod.mk.injEq] at kept
    rw [← kept.1, ← kept.2]
    exact ⟨mem_zipIdx_iff_getElem?.mp mem, moved⟩
  · intro listed
    use (tail, selectorIdx)
    constructor
    · exact mem_zipIdx_iff_getElem?.mpr listed.1
    · exact if_pos listed.2

theorem selector_tail_updates_distinct : ((selectorTailUpdates plan).map (·.1)).Nodup := by
  have sublist : ∀ entries : List (Nat × Nat), ((entries.filterMap fun (tail, selectorIdx) =>
      if tail ≠ 0 then some (selectorIdx, tail) else none).map (·.1)).Sublist
        (entries.map (·.2)) := by
    intro entries
    induction entries with
    | nil => exact List.Sublist.refl _
    | cons entry entries ih =>
      rw [filterMap_cons, map_cons]
      by_cases moved : entry.1 ≠ 0
      · simp only [if_pos moved, map_cons]
        exact ih.cons_cons _
      · simp only [if_neg moved]
        exact ih.cons _
  have positions := sublist plan.tailExponents.zipIdx
  rw [zipIdx_map_snd] at positions
  apply List.Nodup.sublist positions
  exact nodup_range' 1

theorem tail_advanced (ordered : Ordered identities) (selectorIdx : Nat) :
    weighted value frame.y (.selector selectorIdx) (identities.length - 1) identities =
      weighted value frame.y (.selector selectorIdx) (lastPosition identities selectorIdx)
        identities * frame.y ^ tailOf identities selectorIdx := by
  have split : identities = identities ++ [] := (append_nil identities).symm
  cases last : (selectorPositions identities selectorIdx).getLast? with
  | none =>
    have absent := selector_absent last
    rw [weighted_absent _ absent, weighted_absent _ absent, Nat.zero_mul]
  | some lastIndex =>
    have tail : tailOf identities selectorIdx = identities.length - 1 - lastIndex := by
      simp only [tailOf, last]
    have position : lastPosition identities selectorIdx = lastIndex := by
      simp only [lastPosition, last, Option.getD_some]
    obtain ⟨identity, mem, -, index⟩ :=
      mem_selector_positions.mp (mem_of_getLast? last)
    have bounded := global_index_bounded ordered split identity mem
    rw [index] at bounded
    rw [tail, position, ← weighted_advance _ (position ▸ before_last ordered split),
      Nat.add_sub_cancel' bounded]

theorem bucket_after_tails (ordered : Ordered identities)
    (schedules : Schedules identities selectorCount plan)
    (powers : ∀ exponent, 1 ≤ exponent → exponent ≤ plan.maxPower →
      frame.selectorPower exponent ≡ frame.y ^ exponent [MOD scalarModulus])
    (folded : Folded frame value selectorCount identities acc)
    (inside : selectorIdx < selectorCount) :
    ((selectorTailUpdates plan).foldl (applyTail frame) acc).selectorAcc selectorIdx =
      weighted value frame.y (.selector selectorIdx) (identities.length - 1) identities %
        scalarModulus := by
  have entry : plan.tailExponents[selectorIdx]? = some (tailOf identities selectorIdx) := by
    rw [schedules.tails, getElem?_map, getElem?_range inside]
    rfl
  rw [tail_advanced ordered]
  by_cases still : tailOf identities selectorIdx = 0
  · have absent : selectorIdx ∉ (selectorTailUpdates plan).map (·.1) := by
      intro mem
      rcases mem_map.mp mem with ⟨⟨idx, tail⟩, listed, rfl⟩
      obtain ⟨found, moved⟩ := mem_selector_tail_updates.mp listed
      rw [entry] at found
      exact moved ((Option.some.inj found).symm.trans still)
    rw [tails_absent absent, still, pow_zero, Nat.mul_one]
    rw [← Nat.mod_eq_of_lt (folded.bucket_reduced selectorIdx inside)]
    exact folded.bucket selectorIdx inside
  · have listed := mem_selector_tail_updates.mpr ⟨entry, still⟩
    have power := powers _ (Nat.one_le_iff_ne_zero.mpr still)
      (schedules.tail_bounded _ (mem_of_getElem? entry))
    rw [tails_present selector_tail_updates_distinct listed]
    exact (folded.bucket selectorIdx inside).mul power

end Folds

/-- Under the plan every accumulator ends with the values of its identities at
their powers of `y`. -/
theorem selector_fold_plan_folds (frame : QuotientFrame) (value : QuotientExpr → Nat)
    (memory : Nat → Nat) {identities : List QuotientIdentity} {selectorCount : Nat}
    (ordered : Ordered identities)
    (known : ∀ identity ∈ identities, ∀ selectorIdx, identity.target = .selector selectorIdx →
      selectorIdx < selectorCount) :
    ∃ plan acc, selectorFoldPlan identities selectorCount = some plan ∧
      foldIdentities frame plan selectorCount value memory identities = some acc ∧
      acc.evalNumer =
        weighted value frame.y .main (identities.length - 1) identities % scalarModulus ∧
      ∀ selectorIdx < selectorCount, acc.selectorAcc selectorIdx =
        weighted value frame.y (.selector selectorIdx) (identities.length - 1) identities %
          scalarModulus := by
  obtain ⟨plan, planned, schedules⟩ := selector_fold_plan_schedules ordered known
  let powered := { frame with
    selectorPower := selectorPowers frame.y plan.maxPower frame.selectorPower }
  have powers : ∀ exponent, 1 ≤ exponent → exponent ≤ plan.maxPower →
      powered.selectorPower exponent ≡ powered.y ^ exponent [MOD scalarModulus] :=
    fun exponent lower upper => selector_powers_get frame.selectorPower lower upper
  obtain ⟨acc, computed, folded⟩ := @folded_run _ _ value _ _ ordered schedules powers memory
    identities [] (append_nil identities).symm
  refine ⟨plan, (selectorTailUpdates plan).foldl (applyTail powered) acc, planned, ?_, ?_, ?_⟩
  · unfold foldIdentities
    change (identities.foldlM (foldIdentity powered plan value)
      (startAccumulators selectorCount memory)).bind _ = _
    rw [computed]
    rfl
  · rw [tails_keep_numerator, ← Nat.mod_eq_of_lt folded.main_reduced]
    exact folded.main
  · intro selectorIdx inside
    exact bucket_after_tails ordered schedules powers folded inside

/-- Two buckets, one with a gap of three and the other with a tail of two. -/
def fiveIdentities : List QuotientIdentity :=
  [⟨0, .main, .const 3⟩, ⟨1, .selector 0, .const 5⟩, ⟨2, .selector 1, .const 7⟩,
    ⟨3, .main, .const 11⟩, ⟨4, .selector 0, .const 13⟩]

def constValue : QuotientExpr → Nat
  | .const value => value
  | _ => 0

def emptyFrame (y : Nat) : QuotientFrame where
  code := []
  constants := fun _ => 0
  memory := fun _ => 0
  tokenPtr := fun _ => 0
  y
  selectorPower := fun _ => 0
  usedOps := []
  usedMemTokens := []
  nativePermutation := none
  nativeLookup := none
  nativeIdentities := []

theorem selector_fold_plan_folds_five :
    ∃ plan acc, selectorFoldPlan fiveIdentities 2 = some plan ∧
      foldIdentities (emptyFrame 10) plan 2 constValue (fun _ => 9) fiveIdentities = some acc ∧
      acc.evalNumer = weighted constValue 10 .main 4 fiveIdentities % scalarModulus ∧
      ∀ selectorIdx < 2, acc.selectorAcc selectorIdx =
        weighted constValue 10 (.selector selectorIdx) 4 fiveIdentities % scalarModulus := by
  apply selector_fold_plan_folds (emptyFrame 10) constValue (fun _ => 9)
  · rfl
  · intro identity mem selectorIdx target
    have aimed : ∀ identity ∈ fiveIdentities, identity.target = .main ∨
        identity.target = .selector 0 ∨ identity.target = .selector 1 := by decide
    rcases aimed identity mem with main | first | second
    · rw [main] at target
      cases target
    · rw [first] at target
      cases target
      decide
    · rw [second] at target
      cases target
      decide

example : selectorFoldPlan fiveIdentities 2 =
    some ⟨[none, some 0, some 0, none, some 3], [0, 2], 3⟩ := by rfl

end Midfall.QuotientSelectorFold
