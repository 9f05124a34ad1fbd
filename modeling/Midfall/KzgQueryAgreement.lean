import Midfall.KzgGroupingCorrect
import Midfall.VerifierMemorySafety

/-!
# The generator groups the planned queries as the Rust verifier does

A planned query opens a commitment slot at a rotation. The generator names the
slot by a memory pointer and its value by a word; the Rust verifier names them
by a commitment reference and a field element. Where both namings keep the
planned slots and rotations apart, both groupings are renamings of the batches
of the plan. The generator keeps every committed-instance column at one pointer,
so it keeps the slots apart only while one such column is opened.
-/

namespace Midfall.KzgQueryAgreement

open PlonkConstraintSystem ProtocolLowering ProtocolConsistency List
open ListLoops OpeningGroups VerifierMemory VerifierData
open KzgQueryGrouping KzgGroupingCorrect

/-- What an opening claims: a planned evaluation, or the dummy of an index. -/
inductive EvalSource where
  | planned (eval : Option EvalRead)
  | dummy (index : Nat)
  deriving DecidableEq, Repr

def slotOpening (rotationLast : Int) (source : PcsQuerySource) :
    OpeningGroups.Opening CommitmentSlot Int EvalSource where
  key := source.commitment
  point := source.rotation rotationLast
  value := .planned source.eval

/-- The openings of a plan, before either side names them. -/
def planOpenings (plan : ProtocolPlan) : List (OpeningGroups.Opening CommitmentSlot Int EvalSource) :=
  plan.pcsQueries.map (slotOpening plan.rotationLast)

/-- The openings with the missing shared points, when dummies are in use. -/
def paddedOpenings (fewerPointSets : Bool) (plan : ProtocolPlan) :
    List (OpeningGroups.Opening CommitmentSlot Int EvalSource) :=
  if fewerPointSets then
    padded (planOpenings plan) ((range (missing (planOpenings plan)).length).map .dummy)
  else planOpenings plan

def slotPoint (data : Data) (slot : CommitmentSlot) : EcPoint :=
  (data.commitment slot).getD g1IdentityPoint

def evalWord (data : Data) : EvalSource → Word
  | .planned eval => (data.evaluation eval).getD data.computedQuotientEval
  | .dummy index => data.dummyEvalWords.getD index data.computedQuotientEval

def OpensOneCommittedColumn (plan : ProtocolPlan) : Prop :=
  ∀ first ∈ plan.pcsQueries, ∀ second ∈ plan.pcsQueries, SharesIdentity first.commitment →
    SharesIdentity second.commitment → first.commitment = second.commitment

section Assembled

variable (cs : ConstraintSystem) (nbCommittedInstances : Nat) (singleHCommitment : Bool)
  (csDegree : Nat) (lookupChunks : List Nat)

theorem assembled_well_shaped {vk : Halo2VerifyingKey}
    (fixedComms : vk.fixedComms = cs.numFixedColumns)
    (permutationComms : vk.permutationComms = cs.permutationColumns.length) :
    WellShaped (assemblePlan cs nbCommittedInstances singleHCommitment csDegree lookupChunks) vk where
  adviceIndices := assembled_advice_indices.nodup_iff.mpr nodup_range
  adviceStored := by
    intro index mem
    have below := mem_range.mp (assembled_advice_indices.mem_iff.mp mem)
    have counted := phase_counts_sum
      (max (maxOr 0 cs.adviceColumnPhase) (maxOr 0 cs.challengePhase) + 1) cs.adviceColumnPhase
      (phases_bounded cs)
    show index < (phaseCounts _ cs.adviceColumnPhase).sum
    rwa [counted]
  lookups := rfl
  fixedComms := fixedComms
  permutationComms := permutationComms

variable {source : PcsQuerySource}

section

variable (mem : source ∈ (assemblePlan cs nbCommittedInstances singleHCommitment csDegree
      lookupChunks).pcsQueries)

include mem

theorem assembled_planned :
    Planned (assemblePlan cs nbCommittedInstances singleHCommitment csDegree lookupChunks)
      source.commitment := by
  rcases (mem_assembled_queries _ _ _ _ _).mp mem with ⟨key, inAdvice, rfl⟩ |
    ⟨key, inCommitted, rfl⟩ | sets | lookups | ⟨index, inside, rfl⟩ | ⟨key, inFixed, rfl⟩ |
    ⟨column, listed, rfl⟩ | rfl
  · show key.column < List.length _
    rw [assembled_advice_indices.length_eq, length_range]
    exact cs.adviceQueries_column key inAdvice
  · have committed : decide (key.column < nbCommittedInstances) = true :=
      (mem_filter.mp inCommitted).2
    show key.column < nbCommittedInstances
    exact of_decide_eq_true committed
  · rcases mem_permutation_reads _ sets with ⟨set, kind, -, inside, rfl⟩
    simpa [Planned, PcsQuerySource.commitment] using inside
  · rcases (mem_lookup_schedule _ _ _).mp lookups with
      ⟨lookup, chunks, found, rfl | ⟨chunk, inside, rfl⟩ | rfl | rfl⟩
    · exact (List.getElem?_eq_some_iff.mp found).1
    · exact ⟨chunks, found, inside⟩
    · exact (List.getElem?_eq_some_iff.mp found).1
    · exact (List.getElem?_eq_some_iff.mp found).1
  · exact inside
  · exact cs.fixedQueries_column key (mem_of_mem_filter inFixed)
  · exact listed
  · trivial

theorem assembled_eval_read {read : EvalRead} (reads : source.eval = some read) :
    read ∈ (assemblePlan cs nbCommittedInstances singleHCommitment csDegree lookupChunks).evals := by
  have opened := (assembled_openings cs nbCommittedInstances singleHCommitment csDegree
    lookupChunks).mem_iff.mp (mem_map_of_mem mem)
  rcases mem_append.mp opened with fromProof | linearization
  · rcases mem_map.mp fromProof with ⟨other, listed, same⟩
    have third := congrArg (fun opening => opening.2.2) same
    have named : ∀ rotationLast, (EvalRead.opening rotationLast other).2.2 = some other := by
      intro rotationLast
      cases other <;> rfl
    rw [named] at third
    have sameRead : some other = some read := third.trans reads
    rwa [← Option.some.inj sameRead]
  · rw [mem_singleton] at linearization
    have third := congrArg (fun opening => opening.2.2) linearization
    have noRead : source.eval = none := third
    rw [reads] at noRead
    cases noRead

end

theorem assembled_openings_distinct :
    Distinct (planOpenings (assemblePlan cs nbCommittedInstances singleHCommitment csDegree
      lookupChunks)) := by
  have points := assembled_points_nodup cs nbCommittedInstances singleHCommitment csDegree
    lookupChunks
  unfold Distinct planOpenings
  rw [map_map]
  exact points

end Assembled

/-- A plan whose queries name planned slots and evaluations, each opened once. -/
structure Resolvable (plan : ProtocolPlan) (vk : Halo2VerifyingKey) : Prop where
  shaped : WellShaped plan vk
  planned : ∀ source ∈ plan.pcsQueries, Planned plan source.commitment
  reads : ∀ source ∈ plan.pcsQueries, ∀ read, source.eval = some read → read ∈ plan.evals
  distinct : Distinct (planOpenings plan)

theorem built_plan_resolvable {cs : ConstraintSystem} {nbCommittedInstances : Nat}
    {singleHCommitment : Bool} {plan : ProtocolPlan} {vk : Halo2VerifyingKey}
    (built : fromConstraintSystem cs nbCommittedInstances singleHCommitment = some plan)
    (fixedComms : vk.fixedComms = plan.numFixeds)
    (permutationComms : vk.permutationComms = plan.permutationColumns.length) :
    Resolvable plan vk := by
  cases degree : cs.degree with
  | none => simp [fromConstraintSystem, degree] at built
  | some csDegree =>
    cases chunked : cs.lookupChunks csDegree with
    | none => simp [fromConstraintSystem, degree, chunked] at built
    | some lookupChunks =>
      obtain ⟨-, rfl⟩ := (from_constraint_system_iff degree chunked plan).mp built
      exact
        { shaped := assembled_well_shaped _ _ _ _ _ fixedComms permutationComms
          planned := fun _ mem => assembled_planned _ _ _ _ _ mem
          reads := fun _ mem _ reads => assembled_eval_read _ _ _ _ _ mem reads
          distinct := assembled_openings_distinct _ _ _ _ _ }

section Codegen

variable {plan : ProtocolPlan} {vk : Halo2VerifyingKey} {system : ConstraintSystemMeta}
  {vkMptr : Nat} {config : VerifierMemoryLayoutConfig}

/-- Data bound to a layout, with any dummy words. -/
structure Bound (system : ConstraintSystemMeta) (vk : Halo2VerifyingKey) (vkMptr : Nat)
    (config : VerifierMemoryLayoutConfig) (data : Data) : Prop where
  commitment : data.commitment =
    (Data.new system vk (VerifierMemoryLayout.new system vk vkMptr config)).commitment
  evaluation : data.evaluation =
    (Data.new system vk (VerifierMemoryLayout.new system vk vkMptr config)).evaluation

variable {data : Data}

theorem bound_evaluation (bound : Bound system vk vkMptr config data) {eval : Option EvalRead}
    (reads : ∀ read, eval = some read → read ∈ system.protocol.evals) :
    ∃ word, data.evaluation eval = some word := by
  rw [bound.evaluation]
  cases eval with
  | none => exact ⟨_, rfl⟩
  | some read =>
    apply lookup_of_key
    rw [map_reverse, mem_reverse]
    show read ∈ (system.protocol.evals.zip (Word.range _ system.protocol.evals.length)).map Prod.fst
    rw [map_fst_zip (by simp [Word.range])]
    exact reads read rfl

variable (resolvable : Resolvable system.protocol vk)
include resolvable

section

variable (bound : Bound system vk vkMptr config data)

include bound

theorem slot_point_resolves {source : PcsQuerySource}
    (mem : source ∈ system.protocol.pcsQueries) :
    data.commitment source.commitment = some (slotPoint data source.commitment) := by
  unfold slotPoint
  rw [bound.commitment, commitment_at_place system vk vkMptr config (resolvable.planned source mem)]
  rfl

theorem codegen_queries :
    ∃ raw, queries system data = some raw ∧ raw.map codegenOpening =
      (planOpenings system.protocol).map
        (OpeningGroups.Opening.relabel (slotPoint data) id (evalWord data)) := by
  have resolved : ∀ source ∈ system.protocol.pcsQueries, queryFromPlan system data source =
      pure { rotation := source.rotation system.protocol.rotationLast
             comm := slotPoint data source.commitment
             eval := evalWord data (.planned source.eval) } := by
    intro source mem
    have comm := slot_point_resolves resolvable bound mem
    rcases bound_evaluation bound (resolvable.reads source mem) with ⟨word, found⟩
    simp only [queryFromPlan, comm, found, evalWord, some_bind, Option.getD_some]
  refine ⟨_, map_m_of_forall _ resolved, ?_⟩
  unfold planOpenings
  rw [map_map, map_map]
  rfl

/-- With one committed-instance column the pointers keep the planned slots apart. -/
theorem slot_points_faithful (one : OpensOneCommittedColumn system.protocol) :
    Faithful (slotPoint data) id (planOpenings system.protocol) where
  keys := by
    have slots : ∀ {slot}, slot ∈ (planOpenings system.protocol).map (·.key) →
        ∃ source ∈ system.protocol.pcsQueries, source.commitment = slot := by
      intro slot mem
      unfold planOpenings at mem
      rw [map_map] at mem
      exact mem_map.mp mem
    intro left inLeft right inRight same
    rcases slots inLeft with ⟨first, firstListed, rfl⟩
    rcases slots inRight with ⟨second, secondListed, rfl⟩
    have firstPlanned := resolvable.planned first firstListed
    have secondPlanned := resolvable.planned second secondListed
    simp only [slotPoint, bound.commitment, commitment_at_place system vk vkMptr config firstPlanned,
      commitment_at_place system vk vkMptr config secondPlanned, Option.getD_some] at same
    have samePlace := place_point_injective vkMptr config (place_stored resolvable.shaped firstPlanned)
      (place_stored resolvable.shaped secondPlanned) same
    rcases place_injective resolvable.shaped firstPlanned secondPlanned samePlace with
      equal | ⟨leftShares, rightShares⟩
    · exact equal
    · exact one first firstListed second secondListed leftShares rightShares
  points := Set.injOn_id _

end

end Codegen

section Verifier

variable {Label Commitment Field : Type}

/-- The Rust verifier's names for what the plan opens. -/
structure Names (Label Commitment Field : Type) where
  label : CommitmentSlot → Label
  reference : CommitmentSlot → Commitment
  point : Int → Field
  eval : Option EvalRead → Field
  /-- Evaluation of the i-th dummy, read from the transcript. -/
  dummyEval : Nat → Field

namespace Names

variable (names : Names Label Commitment Field)

def queries (plan : ProtocolPlan) : List (Verifier.VerifierQuery Label Commitment Field) :=
  plan.pcsQueries.map fun source =>
    { point := names.point (source.rotation plan.rotationLast)
      commitmentLabel := names.label source.commitment
      commitment := names.reference source.commitment
      eval := names.eval source.eval }

def value : EvalSource → Field
  | .planned eval => names.eval eval
  | .dummy index => names.dummyEval index

/-- Distinct slots have distinct references and distinct rotations distinct points. -/
structure Apart (plan : ProtocolPlan) : Prop where
  references : Set.InjOn names.reference {slot | ∃ source ∈ plan.pcsQueries, source.commitment = slot}
  points : Set.InjOn names.point
    {rotation | ∃ source ∈ plan.pcsQueries, source.rotation plan.rotationLast = rotation}

variable {names}

theorem queries_openings (plan : ProtocolPlan) : (names.queries plan).map verifierOpening =
    (planOpenings plan).map (OpeningGroups.Opening.relabel names.reference names.point names.value) := by
  unfold queries planOpenings
  rw [map_map, map_map]
  rfl

theorem Apart.faithful {plan : ProtocolPlan} (apart : names.Apart plan) :
    Faithful names.reference names.point (planOpenings plan) where
  keys := by
    refine apart.references.mono fun slot mem => ?_
    have listed : _ ∈ (planOpenings plan).map _ := mem
    unfold planOpenings at listed
    rw [map_map] at listed
    exact mem_map.mp listed
  points := by
    refine apart.points.mono fun rotation mem => ?_
    have listed : _ ∈ (planOpenings plan).map _ := mem
    unfold planOpenings at listed
    rw [map_map] at listed
    exact mem_map.mp listed

end Names

end Verifier

section Renamed

variable {Key Point Value : Type} {onKey : CommitmentSlot → Key} {onPoint : Int → Point}
  {onValue : EvalSource → Value}

theorem renamed_distinct {openings : List (OpeningGroups.Opening CommitmentSlot Int EvalSource)}
    (distinct : Distinct openings) (faithful : Faithful onKey onPoint openings) :
    Distinct (openings.map (OpeningGroups.Opening.relabel onKey onPoint onValue)) := by
  unfold Distinct at distinct ⊢
  rw [map_map]
  have pairs : (fun opening : OpeningGroups.Opening Key Point Value => (opening.key, opening.point)) ∘
      OpeningGroups.Opening.relabel onKey onPoint onValue =
        Prod.map onKey onPoint ∘ fun opening => (opening.key, opening.point) := rfl
  rw [pairs, ← map_map]
  apply distinct.map_on
  intro left inLeft right inRight same
  rcases mem_map.mp inLeft with ⟨first, firstListed, rfl⟩
  rcases mem_map.mp inRight with ⟨second, secondListed, rfl⟩
  simp only [Prod.map_apply, Prod.mk.injEq] at same
  have key : first.key = second.key := faithful.keys (mem_map_of_mem firstListed)
    (mem_map_of_mem secondListed) same.1
  have point : first.point = second.point := faithful.points (mem_map_of_mem firstListed)
    (mem_map_of_mem secondListed) same.2
  exact Prod.ext key point

end Renamed

/-- Missing openings by the first planned query of their slot. -/
def plannedDummies (plan : ProtocolPlan) : List (Nat × Int) :=
  (missing (planOpenings plan)).map fun entry =>
    (((planOpenings plan).map (·.key)).idxOf entry.1, entry.2)

theorem renamed_dummies {Key Point Value : Type} [DecidableEq Key] [DecidableEq Point]
    {plan : ProtocolPlan} {onKey : CommitmentSlot → Key} {onPoint : Int → Point}
    {onValue : EvalSource → Value} (faithful : Faithful onKey onPoint (planOpenings plan))
    {Dummy : Type} (dummy : Nat → Point → Dummy) :
    ((missing ((planOpenings plan).map (OpeningGroups.Opening.relabel onKey onPoint onValue))).map
        fun entry => dummy ((((planOpenings plan).map
          (OpeningGroups.Opening.relabel onKey onPoint onValue)).map (·.key)).idxOf entry.1) entry.2) =
      (plannedDummies plan).map fun entry => dummy entry.1 (onPoint entry.2) := by
  have renamedKeys : ((planOpenings plan).map
      (OpeningGroups.Opening.relabel onKey onPoint onValue)).map (·.key) =
        ((planOpenings plan).map (·.key)).map onKey := by
    rw [map_map, map_map]
    rfl
  rw [missing_relabel onValue faithful, plannedDummies, renamedKeys]
  generalize slots : (planOpenings plan).map (·.key) = keys at *
  generalize renamed : keys.map onKey = names
  rw [map_map, map_map]
  apply map_congr_left
  intro entry mem
  have listed : entry.1 ∈ keys := by
    rw [← slots]
    exact mem_eraseDups.mp ((mem_missing _).mp mem).1
  have injective : Set.InjOn onKey {key | key ∈ keys} := by
    rw [← slots]
    exact faithful.keys
  simp only [Function.comp_apply, ← renamed]
  rw [idx_of_map onKey keys listed injective]

theorem padded_of_none_missing {Key Point Value : Type} [DecidableEq Key] [DecidableEq Point]
    {openings : List (OpeningGroups.Opening Key Point Value)} (none : missing openings = [])
    (values : List Value) : padded openings values = openings := by
  rw [padded, none, zip_nil_left, map_nil, append_nil]

def dummyCount (fewerPointSets : Bool) (plan : ProtocolPlan) : Nat :=
  if fewerPointSets then (missing (planOpenings plan)).length else 0

theorem padded_openings_distinct {fewerPointSets : Bool} {plan : ProtocolPlan}
    (distinct : Distinct (planOpenings plan)) : Distinct (paddedOpenings fewerPointSets plan) := by
  unfold paddedOpenings
  split
  · exact padded_distinct _ distinct _
  · exact distinct

theorem padded_openings_faithful {Key Point : Type} [DecidableEq Key] [DecidableEq Point] {fewerPointSets : Bool} {plan : ProtocolPlan}
    {onKey : CommitmentSlot → Key} {onPoint : Int → Point}
    (faithful : Faithful onKey onPoint (planOpenings plan)) :
    Faithful onKey onPoint (paddedOpenings fewerPointSets plan) := by
  unfold paddedOpenings
  split
  · exact padded_faithful faithful _
  · exact faithful

section Sides

variable (fewerPointSets : Bool)

theorem raw_dummy_count {plan : ProtocolPlan} {vk : Halo2VerifyingKey} (vkMptr : Nat)
    (config : VerifierMemoryLayoutConfig) (resolvable : Resolvable plan vk)
    (one : OpensOneCommittedColumn plan) :
    Codegen.numDummyQueries (ConstraintSystemMeta.new plan)
      (Data.new (ConstraintSystemMeta.new plan) vk
        (VerifierMemoryLayout.new (ConstraintSystemMeta.new plan) vk vkMptr config)) =
      some (dummyCount true plan) := by
  have bound : Bound (ConstraintSystemMeta.new plan) vk vkMptr config
      (Data.new (ConstraintSystemMeta.new plan) vk
        (VerifierMemoryLayout.new (ConstraintSystemMeta.new plan) vk vkMptr config)) := ⟨rfl, rfl⟩
  have rawResolvable : Resolvable (ConstraintSystemMeta.new plan).protocol vk := resolvable
  have faithful := slot_points_faithful rawResolvable bound one
  rcases codegen_queries rawResolvable bound with ⟨raw, resolved, named⟩
  have distinct : Distinct (raw.map codegenOpening) := by
    rw [named]
    exact renamed_distinct resolvable.distinct faithful
  simp only [Codegen.numDummyQueries, resolved, some_bind,
    Option.pure_def, codegen_dummies distinct, length_map, named]
  rw [missing_relabel _ faithful, length_map]
  rfl

/-- The generator's two passes bind as many dummy words as the plan misses openings. -/
theorem codegen_metadata {plan : ProtocolPlan} {vk : Halo2VerifyingKey} (vkMptr : Nat)
    (config : ConstraintSystemMeta → VerifierMemoryLayoutConfig) (resolvable : Resolvable plan vk)
    (one : OpensOneCommittedColumn plan) :
    ∃ system data, Codegen.metaDataForVk fewerPointSets plan vk vkMptr config = some (system, data) ∧
      system.protocol = plan ∧ Bound system vk vkMptr (config system) data ∧
      data.dummyEvalWords.length = dummyCount fewerPointSets plan := by
  cases fewerPointSets with
  | false => exact ⟨_, _, rfl, rfl, ⟨rfl, rfl⟩, rfl⟩
  | true =>
    have counted := raw_dummy_count vkMptr (config (ConstraintSystemMeta.new plan)) resolvable one
    unfold Codegen.metaDataForVk
    simp only [if_true, counted, some_bind, Option.pure_def]
    by_cases missed : dummyCount true plan > 0
    · rw [if_pos missed]
      refine ⟨_, _, rfl, rfl, ⟨rfl, rfl⟩, ?_⟩
      simp [Data.setDummyEvalWords, Word.range]
    · rw [if_neg missed]
      refine ⟨_, _, rfl, rfl, ⟨rfl, rfl⟩, ?_⟩
      exact (Nat.eq_zero_of_not_pos missed).symm

theorem codegen_plan_batches {vk : Halo2VerifyingKey} {system : ConstraintSystemMeta} {vkMptr : Nat}
    {config : VerifierMemoryLayoutConfig} {data : Data} (resolvable : Resolvable system.protocol vk)
    (bound : Bound system vk vkMptr config data) (one : OpensOneCommittedColumn system.protocol)
    (words : data.dummyEvalWords.length = dummyCount fewerPointSets system.protocol) :
    ∃ sets, Codegen.intermediateSets system data = some sets ∧ Codegen.setBatches sets =
      (batches (paddedOpenings fewerPointSets system.protocol)).map
        (Batch.relabel (slotPoint data) id (evalWord data)) := by
  rcases codegen_queries resolvable bound with ⟨raw, resolved, named⟩
  have faithful := slot_points_faithful resolvable bound one
  have distinct : Distinct (raw.map codegenOpening) := by
    rw [named]
    exact renamed_distinct resolvable.distinct faithful
  rw [← batches_relabel (evalWord data) (padded_openings_faithful faithful)]
  by_cases none : data.dummyEvalWords = []
  · rcases codegen_batches distinct with ⟨sets, constructed, sorted⟩
    refine ⟨Codegen.sortSets sets, ?_, ?_⟩
    · simp only [Codegen.intermediateSets, resolved, none, if_true, constructed,
        some_bind, Option.pure_def]
    · rw [sorted, named]
      rw [none, dummyCount] at words
      unfold paddedOpenings
      cases fewerPointSets with
      | false => rfl
      | true =>
        rw [if_pos rfl, padded_of_none_missing (length_eq_zero_iff.mp words.symm)]
  · cases fewerPointSets with
    | false => exact absurd (length_eq_zero_iff.mp words) none
    | true =>
      have dummyWords : data.dummyEvalWords =
          ((range (missing (planOpenings system.protocol)).length).map EvalSource.dummy).map
            (evalWord data) := by
        apply ext_getElem
        · rw [words, length_map, length_map, length_range]
          rfl
        · intro index inside _
          simp [evalWord, inside]
      have counted : data.dummyEvalWords.length = (missing (raw.map codegenOpening)).length := by
        rw [words, named, missing_relabel _ faithful, length_map]
        rfl
      rcases codegen_padded distinct data.dummyEvalWords counted with ⟨padding, added, viewed⟩
      have paddedDistinct : Distinct (padding.map codegenOpening) := by
        rw [viewed]
        exact padded_distinct _ distinct _
      rcases codegen_batches paddedDistinct with ⟨sets, constructed, sorted⟩
      refine ⟨Codegen.sortSets sets, ?_, ?_⟩
      · simp only [Codegen.intermediateSets, resolved, none, if_false, added, constructed,
          some_bind, Option.pure_def]
      · rw [sorted, viewed, named, paddedOpenings, if_pos rfl, dummyWords,
          padded_relabel _ faithful]

variable {Label Commitment Field : Type} [Inhabited Label] [Inhabited Field]
  [DecidableEq Commitment] [DecidableEq Field] {names : Names Label Commitment Field}

theorem verifier_plan_batches {plan : ProtocolPlan} (distinct : Distinct (planOpenings plan))
    (apart : names.Apart plan) :
    ∃ sets, Verifier.prepareSets fewerPointSets (names.queries plan) names.dummyEval = .ok sets ∧
      Verifier.setBatches sets = (batches (paddedOpenings fewerPointSets plan)).map
        (Batch.relabel names.reference names.point names.value) := by
  have faithful := apart.faithful
  have opened := @Names.queries_openings _ _ _ names plan
  have queriesDistinct : Distinct ((names.queries plan).map verifierOpening) := by
    rw [opened]
    exact renamed_distinct distinct faithful
  have withDummies : ∃ padding, Verifier.queriesWithDummies fewerPointSets (names.queries plan)
      names.dummyEval = .ok padding ∧ padding.map verifierOpening =
        (paddedOpenings fewerPointSets plan).map
          (OpeningGroups.Opening.relabel names.reference names.point names.value) := by
    cases fewerPointSets with
    | false => exact ⟨_, rfl, opened⟩
    | true =>
      rcases verifier_padded queriesDistinct names.dummyEval with ⟨padding, accepted, viewed⟩
      refine ⟨padding, accepted, ?_⟩
      rw [viewed, opened, missing_relabel _ faithful, length_map, paddedOpenings, if_pos rfl,
        ← padded_relabel names.value faithful, map_map]
      rfl
  rcases withDummies with ⟨padding, accepted, viewed⟩
  have paddedFaithful : Faithful names.reference names.point (paddedOpenings fewerPointSets plan) :=
    padded_openings_faithful faithful
  rw [← batches_relabel names.value paddedFaithful, ← viewed]
  apply verifier_batches accepted
  rw [viewed]
  exact renamed_distinct (padded_openings_distinct distinct) paddedFaithful

end Sides

theorem dummies_agree {Label Commitment Field : Type} [DecidableEq Commitment]
    [DecidableEq Field] {names : Names Label Commitment Field} {plan : ProtocolPlan} {data : Data}
    {raw : List Query} (distinct : Distinct (planOpenings plan))
    (faithful : Faithful (slotPoint data) id (planOpenings plan)) (apart : names.Apart plan)
    (named : raw.map codegenOpening = (planOpenings plan).map
      (OpeningGroups.Opening.relabel (slotPoint data) id (evalWord data))) :
    Verifier.computeDummyQueries
        ((names.queries plan).map fun query => (query.commitment, query.point)) =
      .ok ((Codegen.computeDummyQueries raw).map fun dummy =>
        (dummy.queryIndex, names.point dummy.rotation)) := by
  have pairs : (names.queries plan).map (fun query => (query.commitment, query.point)) =
      ((planOpenings plan).map (OpeningGroups.Opening.relabel names.reference names.point
        names.value)).map pairOf := by
    rw [← Names.queries_openings, map_map]
    rfl
  have comms : raw.map (·.comm) = (raw.map codegenOpening).map (·.key) := by
    rw [map_map]
    rfl
  have rawDistinct : Distinct (raw.map codegenOpening) := by
    rw [named]
    exact renamed_distinct distinct faithful
  rw [pairs, verifier_dummies (renamed_distinct distinct apart.faithful),
    renamed_dummies apart.faithful Prod.mk, codegen_dummies rawDistinct, comms, named,
    renamed_dummies faithful Codegen.DummyQuery.mk, map_map]
  rfl

/-- Both sides return the batches of one list, each under its own names. -/
def SameBatches {Label Commitment Field : Type} (names : Names Label Commitment Field) (data : Data)
    (sets : Codegen.IntermediateSets) (prepared : Verifier.PreparedSets Commitment Field) : Prop :=
  ∃ planned : List (Batch CommitmentSlot Int EvalSource),
    Codegen.setBatches sets = planned.map (Batch.relabel (slotPoint data) id (evalWord data)) ∧
    Verifier.setBatches prepared =
      planned.map (Batch.relabel names.reference names.point names.value)

/-- Every plan that opens at most one committed-instance column: both sides plan
the same dummies and return the same batches, with and without dummies. -/
theorem planned_queries_group_alike {Label Commitment Field : Type} [Inhabited Label]
    [Inhabited Field] [DecidableEq Commitment] [DecidableEq Field] {cs : ConstraintSystem}
    {nbCommittedInstances : Nat} {singleHCommitment : Bool} {plan : ProtocolPlan}
    (vk : Halo2VerifyingKey)
    (built : fromConstraintSystem cs nbCommittedInstances singleHCommitment = some plan)
    (fixedComms : vk.fixedComms = plan.numFixeds)
    (permutationComms : vk.permutationComms = plan.permutationColumns.length)
    (vkMptr : Nat) (config : ConstraintSystemMeta → VerifierMemoryLayoutConfig)
    (names : Names Label Commitment Field) (apart : names.Apart plan)
    (one : OpensOneCommittedColumn plan) (fewerPointSets : Bool) :
    ∃ system data raw sets prepared,
      Codegen.metaDataForVk fewerPointSets plan vk vkMptr config = some (system, data) ∧
      VerifierData.queries system data = some raw ∧
      Verifier.computeDummyQueries
          ((names.queries plan).map fun query => (query.commitment, query.point)) =
        .ok ((Codegen.computeDummyQueries raw).map fun dummy =>
          (dummy.queryIndex, names.point dummy.rotation)) ∧
      Codegen.intermediateSets system data = some sets ∧
      Verifier.prepareSets fewerPointSets (names.queries plan) names.dummyEval = .ok prepared ∧
      SameBatches names data sets prepared := by
  have resolvable := built_plan_resolvable built fixedComms permutationComms
  rcases codegen_metadata fewerPointSets vkMptr config resolvable one with
    ⟨system, data, planned, rfl, bound, words⟩
  rcases codegen_queries resolvable bound with ⟨raw, resolved, named⟩
  rcases codegen_plan_batches fewerPointSets resolvable bound one words with ⟨sets, constructed, generated⟩
  rcases verifier_plan_batches fewerPointSets resolvable.distinct apart with
    ⟨prepared, accepted, verified⟩
  refine ⟨system, data, raw, sets, prepared, planned, resolved, ?_, constructed, accepted,
    _, generated, verified⟩
  exact dummies_agree resolvable.distinct (slot_points_faithful resolvable bound one) apart named

def slotNames : Names Unit CommitmentSlot Int where
  label _ := ()
  reference := id
  point := id
  eval _ := 0
  dummyEval _ := 0

/-- The same names at the challenge zero, where all rotations meet. -/
def collidingNames : Names Unit CommitmentSlot Int := { slotNames with point := fun _ => 0 }

theorem slot_names_apart (plan : ProtocolPlan) : slotNames.Apart plan :=
  ⟨Set.injOn_id _, Set.injOn_id _⟩

theorem mixed_system_queries_group_alike :
    ∃ system data sets prepared,
      Codegen.metaDataForVk true (assemblePlan mixedSystem 1 false 5 [1]) ⟨60, 2, 4⟩ 0x800
        (fun _ => VerifierMemorySafety.smallConfig) = some (system, data) ∧
      Codegen.intermediateSets system data = some sets ∧
      Verifier.prepareSets true (slotNames.queries (assemblePlan mixedSystem 1 false 5 [1]))
        slotNames.dummyEval = .ok prepared ∧
      SameBatches slotNames data sets prepared := by
  have degree : mixedSystem.degree = some 5 := by decide +kernel
  have chunked : mixedSystem.lookupChunks 5 = some [1] := by decide +kernel
  have guards : PassesGuards mixedSystem 1 false 5 [1] := ⟨by decide, by decide, by decide⟩
  have one : OpensOneCommittedColumn (assemblePlan mixedSystem 1 false 5 [1]) := by
    unfold OpensOneCommittedColumn
    decide +kernel
  rcases planned_queries_group_alike ⟨60, 2, 4⟩
      ((from_constraint_system_iff degree chunked _).mpr ⟨guards, rfl⟩) rfl rfl
      0x800 (fun _ => VerifierMemorySafety.smallConfig) slotNames (slot_names_apart _) one true with
    ⟨system, data, -, sets, prepared, bound, -, -, constructed, accepted, same⟩
  exact ⟨system, data, sets, prepared, bound, constructed, accepted, same⟩

/-- Two committed-instance columns share a pointer, so the generator stops at
their two words where the Rust verifier has two commitments. At the challenge
zero the points of two rotations meet, and the Rust verifier stops instead. -/
theorem mixed_system_groupings_differ :
    (∃ plan, fromConstraintSystem mixedSystem 2 false = some plan ∧
      ((Codegen.metaDataForVk false plan ⟨60, 2, 4⟩ 0x800
        fun _ => VerifierMemorySafety.smallConfig).bind fun bound =>
          Codegen.intermediateSets bound.1 bound.2) = none ∧
      (Verifier.prepareSets false (slotNames.queries plan) slotNames.dummyEval).isOk) ∧
    ∃ plan, fromConstraintSystem mixedSystem 1 false = some plan ∧
      ((Codegen.metaDataForVk false plan ⟨60, 2, 4⟩ 0x800
        fun _ => VerifierMemorySafety.smallConfig).bind fun bound =>
          Codegen.intermediateSets bound.1 bound.2).isSome ∧
      Verifier.prepareSets false (collidingNames.queries plan) collidingNames.dummyEval =
        .error .duplicatedQuery := by
  have degree : mixedSystem.degree = some 5 := by decide +kernel
  have chunked : mixedSystem.lookupChunks 5 = some [1] := by decide +kernel
  constructor
  · have guards : PassesGuards mixedSystem 2 false 5 [1] := ⟨by decide, by decide, by decide⟩
    exact ⟨_, (from_constraint_system_iff degree chunked _).mpr ⟨guards, rfl⟩,
      by decide +kernel, by decide +kernel⟩
  · have guards : PassesGuards mixedSystem 1 false 5 [1] := ⟨by decide, by decide, by decide⟩
    exact ⟨_, (from_constraint_system_iff degree chunked _).mpr ⟨guards, rfl⟩,
      by decide +kernel, by decide +kernel⟩

end Midfall.KzgQueryAgreement
