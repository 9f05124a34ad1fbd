import Midfall.ListLoops
import Midfall.ProofReadOrder

/-!
# Consistency of the protocol plan

The plan built from a constraint system passes `validate` up to the three
checks that look at the constraint system itself, its PCS queries are the
proof evaluations and the linearization query, its advice remapping gives the
phase-packed read positions, and its read schedules are the Rust verifier's.
-/

namespace Midfall.ProtocolConsistency

open PlonkConstraintSystem ProtocolLowering List
open ProofReadOrder ListLoops

/-! ### Remapping -/

theorem modify_get_d (state : List Nat) (phase other : Nat) (inside : other < state.length) :
    (state.modify phase (· + 1)).getD other 0 =
      state.getD other 0 + if phase = other then 1 else 0 := by
  rw [getD_eq_getElem?_getD, getD_eq_getElem?_getD, getElem?_modify, getElem?_eq_getElem inside]
  split <;> simp_all

theorem phase_counts_length (numPhase : Nat) (phases : List Nat) :
    (phaseCounts numPhase phases).length = numPhase := by
  have kept : ∀ nums : List Nat, (phases.foldl (fun nums phase => nums.modify phase (· + 1))
      nums).length = nums.length := by
    induction phases with
    | nil => intro nums; rfl
    | cons phase phases ih =>
      intro nums
      rw [foldl_cons, ih, length_modify]
  rw [phaseCounts, kept, length_replicate]

theorem phase_counts_get (numPhase phase : Nat) (phases : List Nat) (inside : phase < numPhase) :
    (phaseCounts numPhase phases).getD phase 0 = phases.count phase := by
  have counted : ∀ nums : List Nat, phase < nums.length →
      (phases.foldl (fun nums phase => nums.modify phase (· + 1)) nums).getD phase 0 =
        nums.getD phase 0 + phases.count phase := by
    induction phases with
    | nil => intro nums _; rfl
    | cons head phases ih =>
      intro nums bound
      rw [foldl_cons, ih _ (by simpa using bound), modify_get_d _ _ _ bound,
        count_cons]
      simp only [beq_iff_eq]
      omega
  rw [phaseCounts, counted _ (by simpa using inside)]
  simp [inside]

theorem phase_counts_prefix_sum (numPhase phase : Nat) (phases : List Nat)
    (inside : phase ≤ numPhase) :
    ((phaseCounts numPhase phases).take phase).sum = phases.countP (· < phase) := by
  induction phase with
  | zero => simp
  | succ phase ih =>
    have bound : phase < (phaseCounts numPhase phases).length := by
      rw [phase_counts_length]
      omega
    have count := phase_counts_get numPhase phase phases (by omega)
    rw [getD_eq_getElem?_getD, getElem?_eq_getElem bound, Option.getD_some] at count
    rw [take_add_one, sum_append, ih (by omega), getElem?_eq_getElem bound, count, count_below_succ]
    simp

theorem phase_counts_sum (numPhase : Nat) (phases : List Nat)
    (bounded : ∀ phase ∈ phases, phase < numPhase) :
    (phaseCounts numPhase phases).sum = phases.length := by
  have whole := phase_counts_prefix_sum numPhase numPhase phases le_rfl
  rw [take_of_length_le (phase_counts_length numPhase phases).le] at whole
  rw [whole, countP_eq_length]
  intro phase mem
  exact decide_eq_true (bounded phase mem)

theorem running_offsets (counts : List Nat) (position : Nat) (inside : position ≤ counts.length) :
    (counts.foldl (fun offsets count => offsets ++ [offsets.getLastD 0 + count]) [0])[position]? =
      some (counts.take position).sum := by
  induction counts using List.reverseRecOn generalizing position with
  | nil =>
    have first : position = 0 := Nat.le_zero.mp inside
    subst first
    rfl
  | append_singleton counts count ih =>
    rw [foldl_append, foldl_cons, foldl_nil]
    have size : (counts.foldl (fun offsets count => offsets ++ [offsets.getLastD 0 + count])
        [0]).length = counts.length + 1 := by
      clear ih inside
      induction counts using List.reverseRecOn with
      | nil => rfl
      | append_singleton counts count ih =>
        rw [foldl_append, foldl_cons, foldl_nil, length_append, ih]
        simp
    have last := ih counts.length le_rfl
    by_cases old : position ≤ counts.length
    · rw [getElem?_append_left (by omega), ih position old, take_append_of_le_length old]
    · have new : position = counts.length + 1 := by simp at inside; omega
      rw [new, getElem?_append_right size.le, size, Nat.sub_self, take_of_length_le (by simp),
        sum_append, sum_singleton, getLastD_eq_getLast?, getLast?_eq_getElem?, size,
        Nat.add_sub_cancel, last, take_length]
      rfl

theorem phase_offsets_get (numPhase phase : Nat) (phases : List Nat) (inside : phase < numPhase) :
    (phaseOffsets numPhase (phaseCounts numPhase phases))[phase]? =
      some (phases.countP (· < phase)) := by
  rw [phaseOffsets, running_offsets, take_take, ← phase_counts_prefix_sum numPhase phase phases
    inside.le, min_eq_left (by omega)]
  rw [length_take, phase_counts_length]
  omega

theorem scan_phases_get (state phases : List Nat) (column : Nat)
    (inside : column < phases.length) (bounded : ∀ phase ∈ phases, phase < state.length) :
    (scanPhases state phases)[column]? = some (state.getD (phases.getD column 0) 0 +
      (phases.take column).count (phases.getD column 0)) := by
  induction phases generalizing state column with
  | nil => simp at inside
  | cons phase phases ih =>
    cases column with
    | zero => simp [scanPhases]
    | succ column =>
      have shorter : column < phases.length := by simpa using inside
      have rest := ih (state.modify phase (· + 1)) column shorter (by
        intro other mem
        rw [length_modify]
        exact bounded other (mem_cons_of_mem _ mem))
      have listed : phases.getD column 0 ∈ phases := by
        rw [getD_eq_getElem?_getD, getElem?_eq_getElem shorter]
        exact getElem_mem shorter
      rw [scanPhases, getElem?_cons_succ, rest,
        modify_get_d _ _ _ (bounded _ (mem_cons_of_mem _ listed)), getD_cons_succ,
        take_succ_cons, count_cons]
      simp only [beq_iff_eq, Option.some.injEq]
      omega

theorem scan_phases_length (state phases : List Nat) :
    (scanPhases state phases).length = phases.length := by
  induction phases generalizing state with
  | nil => rfl
  | cons phase phases ih => rw [scanPhases, length_cons, ih, length_cons]

theorem remapping_position (numPhase column : Nat) (phases : List Nat)
    (inside : column < phases.length) (bounded : ∀ phase ∈ phases, phase < numPhase) :
    (remapping numPhase phases).2[column]? = some (advicePosition phases column) := by
  have listed : phases.getD column 0 ∈ phases := by
    rw [getD_eq_getElem?_getD, getElem?_eq_getElem inside]
    exact getElem_mem inside
  have offset := phase_offsets_get numPhase _ phases (bounded _ listed)
  have offsetsLength : ∀ phase ∈ phases,
      phase < (phaseOffsets numPhase (phaseCounts numPhase phases)).length := by
    intro phase mem
    exact (List.getElem?_eq_some_iff.mp (phase_offsets_get numPhase phase phases
      (bounded phase mem))).1
  have position := scan_phases_get _ phases column inside offsetsLength
  have start : (phaseOffsets numPhase (phaseCounts numPhase phases)).getD (phases.getD column 0) 0 =
      phases.countP (· < phases.getD column 0) := by
    rw [getD_eq_getElem?_getD, offset, Option.getD_some]
  rw [start] at position
  exact position

/-! ### Schedules -/

section Schedules

variable {Entry : Type} (entry : Nat → PermutationZEval → Entry)

theorem permutation_sets_from (set remaining : Nat) :
    ((range' set remaining).flatMap fun current =>
      [entry current .cur, entry current .next] ++
        if current + 1 ≠ set + remaining then [entry current .last] else []) =
      permutationReads entry set remaining := by
  induction remaining generalizing set with
  | zero => rfl
  | succ remaining ih =>
    have rest := ih (set + 1)
    rw [show set + 1 + remaining = set + (remaining + 1) by omega] at rest
    rw [range'_succ, flatMap_cons, rest, permutationReads]
    by_cases more : 0 < remaining
    · have notLast : set + 1 ≠ set + (remaining + 1) := by omega
      rw [if_pos notLast, if_pos more]
    · have isLast : ¬set + 1 ≠ set + (remaining + 1) := by omega
      rw [if_neg isLast, if_neg more]

theorem permutation_sets_eq (numPermutationZs : Nat) :
    permutationSets numPermutationZs entry = permutationReads entry 0 numPermutationZs := by
  have walked := permutation_sets_from entry 0 numPermutationZs
  rw [← range_eq_range', Nat.zero_add] at walked
  exact walked

theorem permutation_reads_map {Image : Type} (image : Entry → Image) (set remaining : Nat) :
    (permutationReads entry set remaining).map image =
      permutationReads (fun current kind => image (entry current kind)) set remaining := by
  induction remaining generalizing set with
  | zero => rfl
  | succ remaining ih =>
    unfold permutationReads
    rw [map_append, map_append, ih]
    split <;> rfl

theorem permutation_reads_length (set remaining : Nat) :
    (permutationReads entry set remaining).length = 3 * remaining - 1 := by
  induction remaining generalizing set with
  | zero => rfl
  | succ remaining ih =>
    unfold permutationReads
    rw [length_append, length_append, ih]
    split <;> simp <;> omega

theorem mem_permutation_reads {found : Entry} {set remaining : Nat}
    (mem : found ∈ permutationReads entry set remaining) :
    ∃ current kind, set ≤ current ∧ current < set + remaining ∧ found = entry current kind := by
  induction remaining generalizing set with
  | zero => cases mem
  | succ remaining ih =>
    simp only [permutationReads, mem_append, mem_cons, not_mem_nil, or_false] at mem
    rcases mem with ((cur | next) | last) | rest
    · exact ⟨set, .cur, by omega, by omega, cur⟩
    · exact ⟨set, .next, by omega, by omega, next⟩
    · split at last
      · exact ⟨set, .last, by omega, by omega, by simpa using last⟩
      · cases last
    · rcases ih rest with ⟨current, kind, lower, upper, same⟩
      exact ⟨current, kind, by omega, by omega, same⟩

theorem cur_mem_permutation_reads {current set remaining : Nat} (lower : set ≤ current)
    (upper : current < set + remaining) :
    entry current .cur ∈ permutationReads entry set remaining := by
  induction remaining generalizing set with
  | zero => omega
  | succ remaining ih =>
    unfold permutationReads
    by_cases here : current = set
    · subst here
      simp
    · exact mem_append_right _ (ih (by omega) (by omega))

variable (multiplicity : Nat → Entry) (helper : Nat → Nat → Entry) (accumulator : Nat → Int → Entry)

theorem mem_lookup_schedule {found : Entry} {chunks : List Nat} :
    found ∈ lookupSchedule multiplicity helper accumulator chunks ↔
      ∃ lookup count, chunks[lookup]? = some count ∧
        (found = multiplicity lookup ∨ (∃ chunk < count, found = helper lookup chunk) ∨
          found = accumulator lookup 0 ∨ found = accumulator lookup 1) := by
  simp only [lookupSchedule, mem_flatMap, Prod.exists, mem_zipIdx_iff_getElem?,
    mem_append, mem_cons, not_mem_nil, or_false, mem_map, mem_range]
  constructor
  · rintro ⟨count, lookup, listed, (first | ⟨chunk, inside, rfl⟩) | rest⟩
    · exact ⟨lookup, count, listed, Or.inl first⟩
    · exact ⟨lookup, count, listed, Or.inr (Or.inl ⟨chunk, inside, rfl⟩)⟩
    · exact ⟨lookup, count, listed, Or.inr (Or.inr rest)⟩
  · rintro ⟨lookup, count, listed, first | ⟨chunk, inside, rfl⟩ | rest⟩
    · exact ⟨count, lookup, listed, Or.inl (Or.inl first)⟩
    · exact ⟨count, lookup, listed, Or.inl (Or.inr ⟨chunk, inside, rfl⟩)⟩
    · exact ⟨count, lookup, listed, Or.inr rest⟩

theorem lookup_schedule_map {Image : Type} (image : Entry → Image) (chunks : List Nat) :
    (lookupSchedule multiplicity helper accumulator chunks).map image =
      lookupSchedule (image ∘ multiplicity) (fun lookup => image ∘ helper lookup)
        (fun lookup => image ∘ accumulator lookup) chunks := by
  rw [lookupSchedule, lookupSchedule, map_flatMap]
  apply flatMap_congr
  intro entry _
  simp

end Schedules

/-! ### What `validate` accepts -/

/-- The checks of `validate`, in its order. -/
structure Consistent (plan : ProtocolPlan) : Prop where
  simpleSelectors : plan.numSimpleSelectors = plan.simpleSelectorCols.length
  quotients : plan.commitments.countP (· = .quotient) = plan.numQuotients
  groups : plan.commitmentReadGroups.sum = plan.commitments.length
  nonQuotients : plan.numNonQuotientCommitments = plan.adviceIndices.length + plan.numLookups +
    plan.numPermutationZs + plan.lookupChunks.sum + plan.numLookups + plan.numTrashcans
  fixedReads : plan.evals.any plan.isSimpleSelectorRead = false
  permutationEvals : plan.evals.countP ProtocolPlan.isPermutationZ =
    plan.expectedPermutationZEvals
  lookupEvals : plan.evals.countP ProtocolPlan.isLookupRead =
    plan.lookupChunks.sum + 3 * plan.numLookups
  linearizationLast : plan.pcsQueries.getLast? = some .linearization
  adviceOpened : plan.unopenedAdviceColumn = none
  multiplicities : plan.pcsQueries.countP ProtocolPlan.isLookupMultiplicity = plan.numLookups
  helpers : plan.pcsQueries.countP ProtocolPlan.isLookupHelper = plan.lookupChunks.sum
  accumulators : (plan.pcsQueries.filterMap ProtocolPlan.accumulatorLookup).dedup.length =
    plan.numLookups
  permutationSets : (plan.pcsQueries.filterMap ProtocolPlan.permutationSet).dedup.length =
    plan.numPermutationZs
  trashcans : plan.pcsQueries.countP ProtocolPlan.isTrash = plan.numTrashcans
  quotientTraceIds : plan.quotientTraceIds.length = plan.quotient.total
  lookupIdentities : plan.quotient.lookup = (plan.lookupChunks.map (· + 2)).sum
  pcsTraceIds : plan.pcsQueryTraceIds.length = plan.pcsQueries.length
  traceIdsApart : plan.quotientTraceIds.any plan.pcsQueryTraceIds.contains = false
  evalCoverage : plan.pcsQueries.length - 1 = plan.evals.length
  committedReads : ∀ query ∈ plan.evals.filterMap ProtocolPlan.committedInstanceRead,
    query.column < plan.numCommittedInstances

theorem ensure_then_ok_iff (holds : Bool) (message : String) (next : Except String Unit) :
    (ProtocolPlan.ensure holds message >>= fun _ => next) = .ok () ↔
      holds = true ∧ next = .ok () := by
  cases holds <;> simp [ProtocolPlan.ensure, bind, Except.bind]

theorem for_each_ensure_ok_iff {Entry : Type} (entries : List Entry) (holds : Entry → Bool)
    (message : Entry → String) :
    entries.forM (fun entry => ProtocolPlan.ensure (holds entry) (message entry)) = .ok () ↔
      ∀ entry ∈ entries, holds entry = true := by
  induction entries with
  | nil => simp [pure, Except.pure]
  | cons entry entries ih =>
    rw [forM_eq_forM] at ih ⊢
    rw [forM_cons, ensure_then_ok_iff, ih, forall_mem_cons]

theorem validate_ok_iff (plan : ProtocolPlan) : plan.validate = .ok () ↔ Consistent plan := by
  simp only [ProtocolPlan.validate, ensure_then_ok_iff, for_each_ensure_ok_iff,
    decide_eq_true_eq, Bool.not_eq_true', Option.isNone_iff_eq_none]
  constructor
  · rintro ⟨a, b, c, d, e, f, g, h, i, j, k, l, m, n, o, p, q, r, s, t⟩
    exact ⟨a, b, c, d, e, f, g, h, i, j, k, l, m, n, o, p, q, r, s, t⟩
  · rintro ⟨a, b, c, d, e, f, g, h, i, j, k, l, m, n, o, p, q, r, s, t⟩
    exact ⟨a, b, c, d, e, f, g, h, i, j, k, l, m, n, o, p, q, r, s, t⟩

/-! ### The assembled plan -/

section Assembled

variable (cs : ConstraintSystem) (nbCommittedInstances : Nat) (singleHCommitment : Bool)
  (csDegree : Nat) (lookupChunks : List Nat)

/-- The three checks of `validate` that depend on the constraint system: every
simple selector owns a fixed column, every advice column is queried, and the
two trace id ranges stay apart. -/
structure PassesGuards : Prop where
  selectorsConverted : cs.numSimpleSelectors =
    ((range cs.numFixedColumns).filter cs.hasSimpleSelectorCol).length
  adviceOpened : ∀ column < cs.adviceColumnPhase.length,
    column ∈ cs.adviceQueries.map (·.column)
  traceIdsApart :
    let plan := assemblePlan cs nbCommittedInstances singleHCommitment csDegree lookupChunks
    plan.quotient.total = 0 ∨
      plan.pcsQueries.length ≤ traceQuotientIdentityBase - tracePcsQueryBase

theorem phases_bounded :
    ∀ phase ∈ cs.adviceColumnPhase,
      phase < max (maxOr 0 cs.adviceColumnPhase) (maxOr 0 cs.challengePhase) + 1 := by
  intro phase mem
  have bounded : phase ≤ maxOr 0 cs.adviceColumnPhase := le_max_or mem
  omega

theorem advice_indices_length (numPhase : Nat) (phases : List Nat) :
    (remapping numPhase phases).2.length = phases.length := by
  rw [remapping, scan_phases_length]

theorem nonzero_sum (counts : List Nat) : (counts.filter (· ≠ 0)).sum = counts.sum := by
  induction counts with
  | nil => rfl
  | cons count counts ih =>
    by_cases zero : count = 0
    · rw [filter_cons_of_neg (by simpa using zero), ih, sum_cons, zero,
        Nat.zero_add]
    · rw [filter_cons_of_pos (by simpa using zero), sum_cons, sum_cons, ih]

theorem optional_group_sum (count : Nat) : (if count ≠ 0 then [count] else []).sum = count := by
  split <;> simp_all

theorem chunk_groups_sum (chunks : List Nat) :
    (chunks.flatMap fun count => [count, 1]).sum = (chunks.map (· + 1)).sum := by
  induction chunks with
  | nil => rfl
  | cons count chunks ih => simp [ih, Nat.add_assoc]

theorem chunk_sum (chunks : List Nat) (extra : Nat) :
    (chunks.map (· + extra)).sum = chunks.sum + extra * chunks.length := by
  induction chunks with
  | nil => simp
  | cons count chunks ih =>
    rw [map_cons, sum_cons, ih, sum_cons, length_cons]
    ring

theorem lookup_schedule_count {Entry : Type} (multiplicity : Nat → Entry)
    (helper : Nat → Nat → Entry) (accumulator : Nat → Int → Entry) (predicate : Entry → Bool)
    (perLookup : Nat) (perHelper : Bool)
    (fixedPart : ∀ lookup, [multiplicity lookup, accumulator lookup 0,
      accumulator lookup 1].countP predicate = perLookup)
    (helpers : ∀ lookup chunk, predicate (helper lookup chunk) = perHelper) (chunks : List Nat) :
    (lookupSchedule multiplicity helper accumulator chunks).countP predicate =
      (if perHelper then chunks.sum else 0) + perLookup * chunks.length := by
  have block : ∀ lookup count, ((range count).map (helper lookup)).countP predicate =
      if perHelper then count else 0 := by
    intro lookup count
    rw [countP_map, show predicate ∘ helper lookup = fun _ => perHelper from
      funext (helpers lookup)]
    cases perHelper <;> simp
  have schedule : ∀ start, ((chunks.zipIdx start).flatMap fun entry =>
      [multiplicity entry.2] ++ (range entry.1).map (helper entry.2) ++
        [accumulator entry.2 0, accumulator entry.2 1]).countP predicate =
      (if perHelper then chunks.sum else 0) + perLookup * chunks.length := by
    induction chunks with
    | nil => intro start; cases perHelper <;> simp
    | cons count chunks ih =>
      intro start
      have rest := fixedPart start
      have helperCount := block start count
      simp only [countP_cons, countP_nil] at rest
      rw [zipIdx_cons, flatMap_cons, countP_append, ih (start + 1), countP_append,
        countP_append, helperCount, sum_cons, length_cons, Nat.mul_succ]
      simp only [countP_cons, countP_nil]
      split_ifs at * <;> omega
  exact schedule 0

theorem permutation_opening_count (predicate : EvalRead → Bool) (numPermutationZs : Nat)
    (all : ∀ set kind, predicate (.permutationZ set kind) = true) :
    (permutationSets numPermutationZs EvalRead.permutationZ).countP predicate =
      3 * numPermutationZs - 1 := by
  rw [permutation_sets_eq, ← permutation_reads_length EvalRead.permutationZ 0, countP_eq_length]
  intro entry mem
  rcases mem_permutation_reads _ mem with ⟨set, kind, -, -, rfl⟩
  exact all set kind

theorem permutation_opening_none {Entry : Type} (entry : Nat → PermutationZEval → Entry)
    (predicate : Entry → Bool) (numPermutationZs : Nat)
    (none : ∀ set kind, predicate (entry set kind) = false) :
    (permutationSets numPermutationZs entry).countP predicate = 0 := by
  rw [permutation_sets_eq, countP_eq_zero]
  intro found mem
  rcases mem_permutation_reads _ mem with ⟨set, kind, -, -, rfl⟩
  simp [none set kind]

theorem find_none_iff_opened (columns : List Nat) (count : Nat) :
    ((range count).find? fun column => ! columns.contains column) = none ↔
      ∀ column < count, column ∈ columns := by
  simp [find?_eq_none]

theorem trace_ids_apart_iff (identities queries : Nat) :
    ((range identities).map (traceQuotientIdentityBase + ·)).any
        ((range queries).map (tracePcsQueryBase + ·)).contains = false ↔
      identities = 0 ∨ queries ≤ traceQuotientIdentityBase - tracePcsQueryBase := by
  simp only [traceQuotientIdentityBase, tracePcsQueryBase]
  rw [any_eq_false]
  constructor
  · intro apart
    by_contra overlap
    have identity : 30000 ∈ (range identities).map (30000 + ·) :=
      mem_map.mpr ⟨0, mem_range.mpr (by omega), rfl⟩
    apply apart 30000 identity
    rw [contains_iff_mem]
    exact mem_map.mpr ⟨28000, mem_range.mpr (by omega), rfl⟩
  · intro apart identity mem shared
    rcases mem_map.mp mem with ⟨index, inside, rfl⟩
    rcases mem_map.mp (contains_iff_mem.mp shared) with ⟨query, queryInside, same⟩
    have indexBound := mem_range.mp inside
    have queryBound := mem_range.mp queryInside
    omega

theorem commitment_plan_count (numAdvices numLookups numPermutationZs numTrashcans numQuotients : Nat)
    (predicate : CommitmentRead → Bool) :
    (commitmentPlan numAdvices numLookups numPermutationZs numTrashcans numQuotients
        lookupChunks).countP predicate =
      (if predicate .advice then numAdvices else 0) +
      (if predicate .lookupMultiplicity then numLookups else 0) +
      (if predicate .permutationProduct then numPermutationZs else 0) +
      (lookupChunks.map fun chunks => (if predicate .lookupHelper then chunks else 0) +
        if predicate .lookupAccumulator then 1 else 0).sum +
      (if predicate .trash then numTrashcans else 0) +
      (if predicate .quotient then numQuotients else 0) := by
  have blocks : (List.countP predicate ∘ fun chunks : Nat =>
      replicate chunks CommitmentRead.lookupHelper ++ [.lookupAccumulator]) =
      fun chunks => (if predicate .lookupHelper then chunks else 0) +
        if predicate .lookupAccumulator then 1 else 0 := by
    funext chunks
    simp [countP_replicate, countP_singleton]
  simp only [commitmentPlan, lookupCommitments, countP_append, countP_flatMap,
    countP_replicate, blocks]

theorem assembled_commitment_counts :
    let plan := assemblePlan cs nbCommittedInstances singleHCommitment csDegree lookupChunks
    plan.commitments.countP (· = .quotient) = plan.numQuotients ∧
      plan.commitmentReadGroups.sum = plan.commitments.length ∧
      plan.numNonQuotientCommitments = plan.adviceIndices.length + plan.numLookups +
        plan.numPermutationZs + plan.lookupChunks.sum + plan.numLookups + plan.numTrashcans := by
  intro plan
  have commitments : plan.commitments = commitmentPlan plan.adviceIndices.length plan.numLookups
      plan.numPermutationZs plan.numTrashcans plan.numQuotients plan.lookupChunks := rfl
  have lookups : plan.numLookups = plan.lookupChunks.length := rfl
  have advices : plan.numUserAdvices.sum = plan.adviceIndices.length := by
    rw [show plan.numUserAdvices.sum = _ from phase_counts_sum _ _ (phases_bounded cs)]
    exact (advice_indices_length _ _).symm
  have helpers := chunk_sum plan.lookupChunks 1
  refine ⟨?_, ?_, ?_⟩
  · rw [commitments, commitment_plan_count]
    simp
  · rw [ProtocolPlan.commitmentReadGroups, commitments, ← countP_true, commitment_plan_count]
    simp only [sum_append, nonzero_sum, optional_group_sum, chunk_groups_sum,
      sum_singleton, if_true, advices]
  · rw [ProtocolPlan.numNonQuotientCommitments, commitments, commitment_plan_count]
    simp only [ne_eq, reduceCtorEq, not_false_eq_true, decide_true, if_true, not_true_eq_false,
      decide_false, Bool.false_eq_true, if_false, helpers]
    omega

theorem assembled_evals_count (predicate : EvalRead → Bool) :
    let plan := assemblePlan cs nbCommittedInstances singleHCommitment csDegree lookupChunks
    plan.evals.countP predicate =
      (committedInstanceQueries cs.instanceQueries nbCommittedInstances).countP
          (predicate ∘ .committedInstance) +
        cs.adviceQueries.countP (predicate ∘ .advice) +
        (openedFixedQueries cs.fixedQueries plan.simpleSelectorCols).countP (predicate ∘ .fixed) +
        cs.permutationColumns.countP (predicate ∘ .permutationCommon) +
        (permutationSets plan.numPermutationZs EvalRead.permutationZ).countP predicate +
        (lookupEvals lookupChunks).countP predicate +
        (range plan.numTrashcans).countP (predicate ∘ .trash) := by
  intro plan
  simp only [plan, assemblePlan, countP_append, countP_map]

theorem assembled_queries_count (predicate : PcsQuerySource → Bool) :
    let plan := assemblePlan cs nbCommittedInstances singleHCommitment csDegree lookupChunks
    plan.pcsQueries.countP predicate =
      cs.adviceQueries.countP (predicate ∘ .advice) +
        (committedInstanceQueries cs.instanceQueries nbCommittedInstances).countP
          (predicate ∘ .committedInstance) +
        (permutationSets plan.numPermutationZs PcsQuerySource.permutationZ).countP predicate +
        (lookupQueries lookupChunks).countP predicate +
        (range plan.numTrashcans).countP (predicate ∘ .trash) +
        (openedFixedQueries cs.fixedQueries plan.simpleSelectorCols).countP (predicate ∘ .fixed) +
        cs.permutationColumns.countP (predicate ∘ .permutationCommon) +
        [PcsQuerySource.linearization].countP predicate := by
  intro plan
  simp only [plan, assemblePlan, countP_append, countP_map]

theorem assembled_fixed_reads :
    let plan := assemblePlan cs nbCommittedInstances singleHCommitment csDegree lookupChunks
    plan.evals.any plan.isSimpleSelectorRead = false := by
  intro plan
  have opened : (openedFixedQueries cs.fixedQueries plan.simpleSelectorCols).countP
      (plan.isSimpleSelectorRead ∘ .fixed) = 0 := by
    rw [countP_eq_zero]
    intro query mem simple
    have kept := (mem_filter.mp mem).2
    rw [Function.comp_apply, ProtocolPlan.isSimpleSelectorRead] at simple
    rw [simple] at kept
    cases kept
  have lookups := lookup_schedule_count EvalRead.lookupMultiplicity .lookupHelper
    .lookupAccumulator plan.isSimpleSelectorRead 0 false (fun _ => rfl) (fun _ _ => rfl)
    lookupChunks
  have none : plan.evals.countP plan.isSimpleSelectorRead = 0 := by
    rw [assembled_evals_count, opened, permutation_opening_none _ _ _ (fun _ _ => rfl),
      lookupEvals, lookups]
    simp [Function.comp_def, ProtocolPlan.isSimpleSelectorRead]
  rw [any_eq_false]
  exact countP_eq_zero.mp none

theorem assembled_eval_counts :
    let plan := assemblePlan cs nbCommittedInstances singleHCommitment csDegree lookupChunks
    plan.evals.countP ProtocolPlan.isPermutationZ = plan.expectedPermutationZEvals ∧
      plan.evals.countP ProtocolPlan.isLookupRead =
        plan.lookupChunks.sum + 3 * plan.numLookups := by
  intro plan
  constructor
  · have lookups := lookup_schedule_count EvalRead.lookupMultiplicity .lookupHelper
      .lookupAccumulator ProtocolPlan.isPermutationZ 0 false (fun _ => rfl) (fun _ _ => rfl)
      lookupChunks
    rw [assembled_evals_count, permutation_opening_count _ _ (fun _ _ => rfl), lookupEvals, lookups]
    have none : 3 * plan.numPermutationZs - 1 = plan.expectedPermutationZEvals := by
      unfold ProtocolPlan.expectedPermutationZEvals
      split <;> omega
    rw [← none]
    simp [Function.comp_def, ProtocolPlan.isPermutationZ, plan]
  · have lookups := lookup_schedule_count EvalRead.lookupMultiplicity .lookupHelper
      .lookupAccumulator ProtocolPlan.isLookupRead 3 true (fun _ => rfl) (fun _ _ => rfl)
      lookupChunks
    rw [assembled_evals_count, permutation_opening_none _ _ _ (fun _ _ => rfl), lookupEvals, lookups]
    simp [Function.comp_def, ProtocolPlan.isLookupRead, plan, assemblePlan]

theorem assembled_query_counts :
    let plan := assemblePlan cs nbCommittedInstances singleHCommitment csDegree lookupChunks
    plan.pcsQueries.countP ProtocolPlan.isLookupMultiplicity = plan.numLookups ∧
      plan.pcsQueries.countP ProtocolPlan.isLookupHelper = plan.lookupChunks.sum ∧
      plan.pcsQueries.countP ProtocolPlan.isTrash = plan.numTrashcans := by
  intro plan
  have lookups := lookup_schedule_count PcsQuerySource.lookupMultiplicity .lookupHelper
    .lookupAccumulator
  refine ⟨?_, ?_, ?_⟩
  · rw [assembled_queries_count, permutation_opening_none _ _ _ (fun _ _ => rfl), lookupQueries,
      lookups _ 1 false (fun _ => rfl) (fun _ _ => rfl)]
    simp [Function.comp_def, ProtocolPlan.isLookupMultiplicity, plan, assemblePlan]
  · rw [assembled_queries_count, permutation_opening_none _ _ _ (fun _ _ => rfl), lookupQueries,
      lookups _ 0 true (fun _ => rfl) (fun _ _ => rfl)]
    simp [Function.comp_def, ProtocolPlan.isLookupHelper, plan, assemblePlan]
  · rw [assembled_queries_count, permutation_opening_none _ _ _ (fun _ _ => rfl), lookupQueries,
      lookups _ 0 false (fun _ => rfl) (fun _ _ => rfl)]
    simp [Function.comp_def, ProtocolPlan.isTrash, plan, assemblePlan]

theorem assembled_committed_reads :
    let plan := assemblePlan cs nbCommittedInstances singleHCommitment csDegree lookupChunks
    ∀ query ∈ plan.evals.filterMap ProtocolPlan.committedInstanceRead,
      query.column < plan.numCommittedInstances := by
  intro plan query mem
  have none : plan.evals.countP (fun read => (ProtocolPlan.committedInstanceRead read).any
      fun query => ! decide (query.column < plan.numCommittedInstances)) = 0 := by
    have lookups := lookup_schedule_count EvalRead.lookupMultiplicity .lookupHelper
      .lookupAccumulator (fun read => (ProtocolPlan.committedInstanceRead read).any
        fun query => ! decide (query.column < plan.numCommittedInstances)) 0 false
      (fun _ => rfl) (fun _ _ => rfl) lookupChunks
    have committed : (committedInstanceQueries cs.instanceQueries nbCommittedInstances).countP
        (fun query => ! decide (query.column < nbCommittedInstances)) = 0 := by
      rw [countP_eq_zero]
      intro query mem
      have kept := (mem_filter.mp mem).2
      rw [kept]
      simp
    rw [assembled_evals_count, permutation_opening_none _ _ _ (fun _ _ => rfl), lookupEvals,
      lookups]
    simpa [Function.comp_def, ProtocolPlan.committedInstanceRead, plan, assemblePlan] using committed
  rcases mem_filterMap.mp mem with ⟨read, listed, found⟩
  have kept := countP_eq_zero.mp none read listed
  rw [found] at kept
  simpa using kept

theorem dedup_length_of_range {indices : List Nat} {bound : Nat}
    (exact : ∀ index, index ∈ indices ↔ index < bound) : indices.dedup.length = bound := by
  have same : indices.toFinset = Finset.range bound := by
    ext index
    rw [mem_toFinset, Finset.mem_range]
    exact exact index
  rw [← card_toFinset, same, Finset.card_range]

theorem mem_assembled_queries {query : PcsQuerySource} :
    let plan := assemblePlan cs nbCommittedInstances singleHCommitment csDegree lookupChunks
    query ∈ plan.pcsQueries ↔
      (∃ key ∈ cs.adviceQueries, .advice key = query) ∨
      (∃ key ∈ committedInstanceQueries cs.instanceQueries nbCommittedInstances,
        .committedInstance key = query) ∨
      query ∈ permutationReads PcsQuerySource.permutationZ 0 plan.numPermutationZs ∨
      query ∈ lookupQueries lookupChunks ∨
      (∃ index < plan.numTrashcans, .trash index = query) ∨
      (∃ key ∈ openedFixedQueries cs.fixedQueries plan.simpleSelectorCols, .fixed key = query) ∨
      (∃ column ∈ cs.permutationColumns, .permutationCommon column = query) ∨
      query = .linearization := by
  intro plan
  simp only [plan, assemblePlan, permutation_sets_eq, mem_append, mem_map,
    mem_range, mem_singleton, or_assoc]

theorem assembled_coverage :
    let plan := assemblePlan cs nbCommittedInstances singleHCommitment csDegree lookupChunks
    (plan.pcsQueries.filterMap ProtocolPlan.accumulatorLookup).dedup.length = plan.numLookups ∧
      (plan.pcsQueries.filterMap ProtocolPlan.permutationSet).dedup.length =
        plan.numPermutationZs := by
  intro plan
  constructor
  · apply dedup_length_of_range
    intro lookup
    rw [mem_filterMap]
    constructor
    · rintro ⟨query, listed, found⟩
      rcases (mem_assembled_queries _ _ _ _ _).mp listed with ⟨_, -, rfl⟩ | ⟨_, -, rfl⟩ | sets |
        lookups | ⟨_, -, rfl⟩ | ⟨_, -, rfl⟩ | ⟨_, -, rfl⟩ | rfl
      case inr.inr.inl =>
        rcases mem_permutation_reads _ sets with ⟨_, _, -, -, rfl⟩
        cases found
      case inr.inr.inr.inl =>
        rcases (mem_lookup_schedule _ _ _).mp lookups with
          ⟨index, count, inside, rfl | ⟨_, -, rfl⟩ | rfl | rfl⟩
        · cases found
        · cases found
        · cases found
          exact (List.getElem?_eq_some_iff.mp inside).1
        · cases found
          exact (List.getElem?_eq_some_iff.mp inside).1
      all_goals cases found
    · intro inside
      have listed : PcsQuerySource.lookupAccumulator lookup 0 ∈ lookupQueries lookupChunks :=
        (mem_lookup_schedule _ _ _).mpr ⟨lookup, _, getElem?_eq_getElem inside,
          Or.inr (Or.inr (Or.inl rfl))⟩
      exact ⟨_, (mem_assembled_queries _ _ _ _ _).mpr
        (Or.inr (Or.inr (Or.inr (Or.inl listed)))), rfl⟩
  · apply dedup_length_of_range
    intro set
    rw [mem_filterMap]
    constructor
    · rintro ⟨query, listed, found⟩
      rcases (mem_assembled_queries _ _ _ _ _).mp listed with ⟨_, -, rfl⟩ | ⟨_, -, rfl⟩ | sets |
        lookups | ⟨_, -, rfl⟩ | ⟨_, -, rfl⟩ | ⟨_, -, rfl⟩ | rfl
      case inr.inr.inl =>
        rcases mem_permutation_reads _ sets with ⟨_, _, -, inside, rfl⟩
        cases found
        simpa using inside
      case inr.inr.inr.inl =>
        rcases (mem_lookup_schedule _ _ _).mp lookups with
          ⟨index, count, inside, rfl | ⟨_, -, rfl⟩ | rfl | rfl⟩ <;> cases found
      all_goals cases found
    · intro inside
      have listed := cur_mem_permutation_reads PcsQuerySource.permutationZ (Nat.zero_le set)
        (show set < 0 + plan.numPermutationZs by omega)
      exact ⟨_, (mem_assembled_queries _ _ _ _ _).mpr (Or.inr (Or.inr (Or.inl listed))), rfl⟩

/-! ### Openings -/

theorem pcs_queries_eq :
    let plan := assemblePlan cs nbCommittedInstances singleHCommitment csDegree lookupChunks
    plan.pcsQueries = cs.adviceQueries.map .advice ++
      (committedInstanceQueries cs.instanceQueries nbCommittedInstances).map .committedInstance ++
      permutationSets plan.numPermutationZs .permutationZ ++ lookupQueries lookupChunks ++
      (range plan.numTrashcans).map .trash ++
      (openedFixedQueries cs.fixedQueries plan.simpleSelectorCols).map .fixed ++
      cs.permutationColumns.map .permutationCommon ++ [.linearization] := rfl

/-- As a multiset, the planned queries are the proof evaluations and the
linearization query. -/
theorem assembled_openings :
    let plan := assemblePlan cs nbCommittedInstances singleHCommitment csDegree lookupChunks
    (plan.pcsQueries.map (PcsQuerySource.opening plan.rotationLast)).Perm
      (plan.evals.map (EvalRead.opening plan.rotationLast) ++ [(.linearization, 0, none)]) := by
  intro plan
  have evals : plan.evals =
      (committedInstanceQueries cs.instanceQueries nbCommittedInstances).map .committedInstance ++
      cs.adviceQueries.map .advice ++
      (openedFixedQueries cs.fixedQueries plan.simpleSelectorCols).map .fixed ++
      cs.permutationColumns.map .permutationCommon ++
      permutationSets plan.numPermutationZs .permutationZ ++ lookupEvals lookupChunks ++
      (range plan.numTrashcans).map .trash := rfl
  rw [pcs_queries_eq, evals]
  simp only [map_append, map_map, permutation_sets_eq, permutation_reads_map,
    lookupQueries, lookupEvals, lookup_schedule_map, ← Multiset.coe_eq_coe, ← Multiset.coe_add]
  have reorder : ∀ advice committed sets lookups trash fixed common last : Multiset Opening,
      advice + committed + sets + lookups + trash + fixed + common + last =
        committed + advice + fixed + common + sets + lookups + trash + last := by
    intros
    abel
  exact reorder _ _ _ _ _ _ _ _

theorem assembled_eval_coverage :
    let plan := assemblePlan cs nbCommittedInstances singleHCommitment csDegree lookupChunks
    plan.pcsQueries.length = plan.evals.length + 1 := by
  intro plan
  have sameLength := (assembled_openings cs nbCommittedInstances singleHCommitment csDegree
    lookupChunks).length_eq
  simpa using sameLength

/-- Everything `validate` checks beyond the three guards holds by construction. -/
theorem assembled_consistent_iff :
    Consistent (assemblePlan cs nbCommittedInstances singleHCommitment csDegree lookupChunks) ↔
      PassesGuards cs nbCommittedInstances singleHCommitment csDegree lookupChunks := by
  have indices : (assemblePlan cs nbCommittedInstances singleHCommitment csDegree
      lookupChunks).adviceIndices.length = cs.adviceColumnPhase.length :=
    advice_indices_length _ _
  have commitments := assembled_commitment_counts cs nbCommittedInstances singleHCommitment
    csDegree lookupChunks
  have evals := assembled_eval_counts cs nbCommittedInstances singleHCommitment csDegree lookupChunks
  have queries := assembled_query_counts cs nbCommittedInstances singleHCommitment csDegree
    lookupChunks
  have coverage := assembled_coverage cs nbCommittedInstances singleHCommitment csDegree lookupChunks
  constructor
  · intro consistent
    refine ⟨consistent.simpleSelectors, ?_, (trace_ids_apart_iff _ _).mp consistent.traceIdsApart⟩
    rw [← indices]
    exact (find_none_iff_opened _ _).mp consistent.adviceOpened
  · intro guards
    exact
      { simpleSelectors := guards.selectorsConverted
        quotients := commitments.1
        groups := commitments.2.1
        nonQuotients := commitments.2.2
        fixedReads := assembled_fixed_reads _ _ _ _ _
        permutationEvals := evals.1
        lookupEvals := evals.2
        linearizationLast := getLast?_concat
        adviceOpened := (find_none_iff_opened _ _).mpr (by rw [indices]; exact guards.adviceOpened)
        multiplicities := queries.1
        helpers := queries.2.1
        accumulators := coverage.1
        permutationSets := coverage.2
        trashcans := queries.2.2
        quotientTraceIds := by simp [assemblePlan]
        lookupIdentities := rfl
        pcsTraceIds := by simp [assemblePlan]
        traceIdsApart := (trace_ids_apart_iff _ _).mpr guards.traceIdsApart
        evalCoverage := by rw [assembled_eval_coverage, Nat.add_sub_cancel]
        committedReads := assembled_committed_reads _ _ _ _ _ }

/-! ### No polynomial is opened twice at one rotation -/

/-- The block of the query schedule that opens a polynomial. -/
def slotBlock : CommitmentSlot → Nat
  | .advice _ => 0
  | .committedInstance _ => 1
  | .permutationZ _ => 2
  | .lookupMultiplicity _ | .lookupHelper _ _ | .lookupAccumulator _ => 3
  | .trash _ => 4
  | .fixed _ => 5
  | .permutationCommon _ => 6
  | .linearization => 7

/-- Distinct points, all of blocks below `index`. -/
structure DistinctBelow (points : List (CommitmentSlot × Int)) (index : Nat) : Prop where
  nodup : points.Nodup
  below : ∀ point ∈ points, slotBlock point.1 < index

theorem DistinctBelow.append {points block : List (CommitmentSlot × Int)} {index : Nat}
    (earlier : DistinctBelow points index) (next : block.Nodup)
    (inBlock : ∀ point ∈ block, slotBlock point.1 = index) :
    DistinctBelow (points ++ block) (index + 1) where
  nodup := by
    apply List.Nodup.append earlier.nodup next
    intro point first second
    have before := earlier.below point first
    have here := inBlock point second
    omega
  below := by
    intro point mem
    rcases mem_append.mp mem with first | second
    · exact Nat.lt_succ_of_lt (earlier.below point first)
    · rw [inBlock point second]
      exact Nat.lt_succ_self index

theorem DistinctBelow.append_map {Key : Type} {points : List (CommitmentSlot × Int)} {index : Nat}
    {keys : List Key} {point : Key → CommitmentSlot × Int} (earlier : DistinctBelow points index)
    (distinct : keys.Nodup) (injective : Function.Injective point)
    (inBlock : ∀ key, slotBlock (point key).1 = index) :
    DistinctBelow (points ++ keys.map point) (index + 1) := by
  apply earlier.append (distinct.map injective)
  intro found mem
  rcases mem_map.mp mem with ⟨key, -, rfl⟩
  exact inBlock key

theorem query_point_injective (slot : Nat → CommitmentSlot)
    (injective : Function.Injective slot) :
    Function.Injective fun query : QueryKey => (slot query.column, query.rotation) := by
  intro left right same
  rw [Prod.mk.injEq] at same
  cases left
  cases right
  simp_all [injective.eq_iff]

theorem permutation_points_nodup (rotationLast : Int) (notCur : rotationLast ≠ 0)
    (notNext : rotationLast ≠ 1) (set remaining : Nat) :
    (permutationReads (fun current kind => (CommitmentSlot.permutationZ current,
      PermutationZEval.rotation rotationLast kind)) set remaining).Nodup := by
  induction remaining generalizing set with
  | zero => exact nodup_nil
  | succ remaining ih =>
    apply List.Nodup.append _ (ih (set + 1))
    · intro point here later
      rcases mem_permutation_reads _ later with ⟨current, kind, lower, -, rfl⟩
      have sameSet : current = set := by
        by_cases more : 0 < remaining
        · simp only [more, if_true, mem_append, mem_cons, not_mem_nil, or_false,
            Prod.mk.injEq, CommitmentSlot.permutationZ.injEq] at here
          omega
        · simp only [more, if_false, append_nil, mem_cons, not_mem_nil, or_false,
            Prod.mk.injEq, CommitmentSlot.permutationZ.injEq] at here
          omega
      omega
    · split <;> simp [PermutationZEval.rotation, Ne.symm notCur, Ne.symm notNext]

theorem lookup_points_nodup (chunks : List Nat) :
    (lookupSchedule (fun lookup => (CommitmentSlot.lookupMultiplicity lookup, (0 : Int)))
      (fun lookup chunk => (.lookupHelper lookup chunk, 0))
      (fun lookup rotation => (.lookupAccumulator lookup, rotation)) chunks).Nodup := by
  unfold lookupSchedule
  rw [nodup_flatMap]
  constructor
  · intro entry _
    have helpers : ((range entry.1).map fun chunk =>
        (CommitmentSlot.lookupHelper entry.2 chunk, (0 : Int))).Nodup := by
      apply nodup_range.map
      intro left right same
      simpa using same
    simp [nodup_append, helpers]
  · have indices : (chunks.zipIdx.map Prod.snd).Nodup := by
      rw [zipIdx_map_snd]
      exact nodup_range'
    rw [List.Nodup, pairwise_map] at indices
    apply indices.imp
    intro left right different point first second
    simp only [mem_append, mem_cons, not_mem_nil, or_false, mem_map] at first second
    rcases first with (rfl | ⟨chunk, -, rfl⟩) | (rfl | rfl) <;> simp_all

theorem assembled_points_nodup :
    let plan := assemblePlan cs nbCommittedInstances singleHCommitment csDegree lookupChunks
    (plan.pcsQueries.map (PcsQuerySource.point plan.rotationLast)).Nodup := by
  intro plan
  have last : plan.rotationLast = -(cs.blindingFactors lookupChunks + 1) := rfl
  have notCur : plan.rotationLast ≠ 0 := by omega
  have notNext : plan.rotationLast ≠ 1 := by omega
  rw [pcs_queries_eq]
  simp only [map_append, map_map, permutation_sets_eq, permutation_reads_map,
    lookupQueries, lookup_schedule_map]
  have advice : DistinctBelow (cs.adviceQueries.map
      (PcsQuerySource.point plan.rotationLast ∘ .advice)) 1 := by
    have start : DistinctBelow [] 0 := ⟨nodup_nil, fun _ mem => by cases mem⟩
    exact start.append_map cs.adviceQueries_nodup
      (query_point_injective .advice fun _ _ same => by cases same; rfl) fun _ => rfl
  have committed := advice.append_map
    (cs.instanceQueries_nodup.filter fun query => decide (query.column < nbCommittedInstances))
    (query_point_injective .committedInstance fun _ _ same => by cases same; rfl) fun _ => rfl
  have sets := committed.append
    (permutation_points_nodup plan.rotationLast notCur notNext 0 plan.numPermutationZs) (by
      intro point mem
      rcases mem_permutation_reads _ mem with ⟨_, _, -, -, rfl⟩
      rfl)
  have lookups := sets.append (lookup_points_nodup lookupChunks) (by
    intro point mem
    rcases (mem_lookup_schedule _ _ _).mp mem with ⟨_, _, -, rfl | ⟨_, -, rfl⟩ | rfl | rfl⟩ <;>
      rfl)
  have trash := lookups.append_map (nodup_range (n := plan.numTrashcans))
    (show Function.Injective fun index => (CommitmentSlot.trash index, (0 : Int)) from
      fun _ _ same => by cases same; rfl) fun _ => rfl
  have fixed := trash.append_map
    (cs.fixedQueries_nodup.filter fun query => ! plan.simpleSelectorCols.contains query.column)
    (query_point_injective .fixed fun _ _ same => by cases same; rfl) fun _ => rfl
  have common := fixed.append_map cs.permutationColumns_nodup
    (show Function.Injective fun column => (CommitmentSlot.permutationCommon column, (0 : Int)) from
      fun _ _ same => by cases same; rfl) fun _ => rfl
  exact (common.append (nodup_singleton (CommitmentSlot.linearization, (0 : Int)))
    (by simp [slotBlock])).nodup

theorem assembled_evals_nodup :
    (assemblePlan cs nbCommittedInstances singleHCommitment csDegree lookupChunks).evals.Nodup := by
  have openings := assembled_openings cs nbCommittedInstances singleHCommitment csDegree lookupChunks
  have points := assembled_points_nodup cs nbCommittedInstances singleHCommitment csDegree
    lookupChunks
  have firsts := openings.map fun opening => (opening.1, opening.2.1)
  rw [map_map] at firsts
  have distinct := firsts.nodup_iff.mp points
  rw [map_append] at distinct
  exact (List.Nodup.of_append_left distinct).of_map _ |>.of_map _

/-! ### The Rust verifier's order -/

theorem permutation_sets_count (pos : 0 < csDegree - 2) :
    (assemblePlan cs nbCommittedInstances singleHCommitment csDegree
      lookupChunks).numPermutationZs = (chunks (csDegree - 2) cs.permutationColumns).length := by
  rw [chunks_length _ _ pos]
  unfold assemblePlan
  by_cases empty : cs.permutationColumns = []
  · simp only [empty, if_true, length_nil, divCeil]
    exact (Nat.div_eq_of_lt (by omega)).symm
  · simp only [empty, if_false]

theorem assembled_commitment_order (degree : cs.degree = some csDegree)
    (chunked : cs.lookupChunks csDegree = some lookupChunks) :
    (assemblePlan cs nbCommittedInstances singleHCommitment csDegree lookupChunks).commitments =
      verifierCommitmentReads cs singleHCommitment csDegree lookupChunks := by
  have bound := cs.degree_bound degree
  have sets := permutation_sets_count cs nbCommittedInstances singleHCommitment csDegree lookupChunks
    (by omega)
  have commitments : (assemblePlan cs nbCommittedInstances singleHCommitment csDegree
      lookupChunks).commitments = commitmentPlan (remapping _ cs.adviceColumnPhase).2.length
        lookupChunks.length (assemblePlan cs nbCommittedInstances singleHCommitment csDegree
          lookupChunks).numPermutationZs cs.trashcans.length
        (if singleHCommitment then 1 else csDegree - 1) lookupChunks := rfl
  have lookups : lookupCommitments lookupChunks = lookupChunks.flatMap (fun numChunks =>
      (range numChunks).map (fun _ => CommitmentRead.lookupHelper) ++
        [.lookupAccumulator]) := by
    apply flatMap_congr
    intro count _
    rw [map_const', length_range]
  rw [commitments]
  unfold commitmentPlan verifierCommitmentReads
  rw [sets, advice_indices_length, lookups, map_const', map_const', map_const',
    map_const', map_const', advice_read_columns_length, length_range,
    show cs.lookups.length = lookupChunks.length from map_m_length chunked]

theorem assembled_eval_order (degree : cs.degree = some csDegree)
    (counted : (cs.fixedQueries.filter (opensFixed cs)).length = fixedReadCount cs) :
    verifierEvalReads cs nbCommittedInstances csDegree lookupChunks =
      some (assemblePlan cs nbCommittedInstances singleHCommitment csDegree
        lookupChunks).evals := by
  have bound := cs.degree_bound degree
  have sets := permutation_sets_count cs nbCommittedInstances singleHCommitment csDegree lookupChunks
    (by omega)
  have opened : openedFixedQueries cs.fixedQueries
      ((range cs.numFixedColumns).filter cs.hasSimpleSelectorCol) =
        cs.fixedQueries.filter (opensFixed cs) := by
    apply filter_congr
    intro query mem
    rw [opensFixed]
    congr 1
    rw [Bool.eq_iff_iff, contains_iff_mem, mem_filter, mem_range]
    exact and_iff_right (cs.fixedQueries_column query mem)
  have reads := verifier_fixed_reads counted
  unfold verifierEvalReads
  rw [reads, ← sets, ← permutation_sets_eq, ← opened]
  rfl

variable {cs nbCommittedInstances singleHCommitment csDegree lookupChunks}

theorem from_constraint_system_iff (degree : cs.degree = some csDegree)
    (chunked : cs.lookupChunks csDegree = some lookupChunks) (plan : ProtocolPlan) :
    fromConstraintSystem cs nbCommittedInstances singleHCommitment = some plan ↔
      PassesGuards cs nbCommittedInstances singleHCommitment csDegree lookupChunks ∧
        plan = assemblePlan cs nbCommittedInstances singleHCommitment csDegree lookupChunks := by
  rw [← assembled_consistent_iff, ← validate_ok_iff]
  simp only [fromConstraintSystem, degree, chunked, some_bind]
  cases validated : (assemblePlan cs nbCommittedInstances singleHCommitment csDegree
      lookupChunks).validate with
  | ok _ => simp [eq_comm]
  | error message => simp

theorem indices_perm_range {indices inverse : List Nat} {bound : Nat}
    (length : indices.length = bound)
    (inverted : ∀ column < bound, ∃ position, indices[column]? = some position ∧
      inverse[position]? = some column ∧ position < bound) :
    indices.Perm (range bound) := by
  have distinct : indices.Nodup := by
    rw [nodup_iff_injective_get]
    intro left right same
    rcases inverted left (by omega) with ⟨leftPosition, leftFound, leftInverse, -⟩
    rcases inverted right (by omega) with ⟨rightPosition, rightFound, rightInverse, -⟩
    rw [getElem?_eq_getElem left.isLt, Option.some.injEq] at leftFound
    rw [getElem?_eq_getElem right.isLt, Option.some.injEq] at rightFound
    rw [get_eq_getElem, get_eq_getElem] at same
    rw [← leftFound, same, rightFound, rightInverse, Option.some.injEq] at leftInverse
    exact Fin.ext leftInverse.symm
  have bounded : indices ⊆ range bound := by
    intro position mem
    rcases mem_iff_getElem.mp mem with ⟨column, inside, rfl⟩
    rcases inverted column (by omega) with ⟨position, found, -, below⟩
    rw [getElem?_eq_getElem inside, Option.some.injEq] at found
    rw [found]
    exact mem_range.mpr below
  exact (subperm_of_subset distinct bounded).perm_of_length_le (by simp [length])

theorem assembled_advice_position {column : Nat} (inside : column < cs.adviceColumnPhase.length) :
    (assemblePlan cs nbCommittedInstances singleHCommitment csDegree
      lookupChunks).adviceIndices[column]? = some (advicePosition cs.adviceColumnPhase column) := by
  exact remapping_position _ _ _ inside (phases_bounded cs)

theorem assembled_advice_indices :
    (assemblePlan cs nbCommittedInstances singleHCommitment csDegree
      lookupChunks).adviceIndices.Perm (range cs.adviceColumnPhase.length) := by
  apply indices_perm_range
  · exact advice_indices_length _ _
  · intro column inside
    refine ⟨_, assembled_advice_position inside, advice_read_position cs column inside, ?_⟩
    rw [← advice_read_columns_length cs]
    exact (List.getElem?_eq_some_iff.mp (advice_read_position cs column inside)).1

/-- The plan of every constraint system that passes the guards: it is valid, it
opens exactly the proof evaluations and the linearization query, each once, the
advice remapping is the phase-packed read order, and proof commitments and
evaluations are read in the Rust verifier's order. -/
theorem protocol_plan_consistent (degree : cs.degree = some csDegree)
    (chunked : cs.lookupChunks csDegree = some lookupChunks)
    (guards : PassesGuards cs nbCommittedInstances singleHCommitment csDegree lookupChunks) :
    ∃ plan, fromConstraintSystem cs nbCommittedInstances singleHCommitment = some plan ∧
      plan.validate = .ok () ∧
      (plan.evals.Nodup ∧ (plan.pcsQueries.map (PcsQuerySource.opening plan.rotationLast)).Perm
        (plan.evals.map (EvalRead.opening plan.rotationLast) ++ [(.linearization, 0, none)])) ∧
      (plan.adviceIndices.Perm (range cs.adviceColumnPhase.length) ∧
        ∀ column (_ : column < cs.adviceColumnPhase.length), ∃ position,
          plan.adviceIndices[column]? = some position ∧
            (adviceReadColumns cs)[position]? = some column) ∧
      plan.commitments = verifierCommitmentReads cs singleHCommitment csDegree lookupChunks ∧
      ((cs.fixedQueries.filter (opensFixed cs)).length = fixedReadCount cs →
        verifierEvalReads cs nbCommittedInstances csDegree lookupChunks = some plan.evals) := by
  refine ⟨assemblePlan cs nbCommittedInstances singleHCommitment csDegree lookupChunks,
    (from_constraint_system_iff degree chunked _).mpr ⟨guards, rfl⟩,
    (validate_ok_iff _).mpr ((assembled_consistent_iff _ _ _ _ _).mpr guards),
    ⟨assembled_evals_nodup _ _ _ _ _, assembled_openings _ _ _ _ _⟩,
    ⟨assembled_advice_indices, ?_⟩,
    assembled_commitment_order _ _ _ _ _ degree chunked, assembled_eval_order _ _ _ _ _ degree⟩
  intro column inside
  exact ⟨_, assembled_advice_position inside, advice_read_position cs column inside⟩

end Assembled

/-- Three advice columns in two phases, a simple selector, a lookup and a trashcan. -/
def mixedSystem : ConstraintSystem where
  numFixedColumns := 2
  selectorFlags := [⟨true, some 1⟩]
  adviceColumnPhase := [0, 1, 0]
  challengePhase := [0]
  gates := [[3], [2]]
  adviceQueries := [⟨0, 0⟩, ⟨1, 0⟩, ⟨1, 1⟩, ⟨2, 0⟩]
  instanceQueries := [⟨0, 0⟩, ⟨1, 0⟩]
  fixedQueries := [⟨0, 0⟩, ⟨1, 0⟩]
  permutationColumns := [.advice 0, .instance 1, .advice 2, .fixed 0]
  lookups := [⟨[[1], [1], [1]], 1, [1]⟩]
  trashcans := [[2]]
  minimumDegree := none
  adviceQueries_nodup := by decide
  adviceQueries_column := by decide
  instanceQueries_nodup := by decide
  fixedQueries_nodup := by decide
  fixedQueries_column := by decide
  permutationColumns_nodup := by decide
  challengePhase_allocated := by decide

theorem mixed_system_plan_consistent :
    ∃ plan, fromConstraintSystem mixedSystem 1 false = some plan ∧ plan.validate = .ok () := by
  have degree : mixedSystem.degree = some 5 := by decide +kernel
  have chunked : mixedSystem.lookupChunks 5 = some [1] := by decide +kernel
  have guards : PassesGuards mixedSystem 1 false 5 [1] :=
    ⟨by decide, by decide, by decide⟩
  rcases protocol_plan_consistent degree chunked guards with ⟨plan, built, valid, -⟩
  exact ⟨plan, built, valid⟩

/-- A column that is absorbed and never opened stops the lowering. -/
def unopenedSystem : ConstraintSystem :=
  { mixedSystem with
    adviceQueries := [⟨0, 0⟩, ⟨1, 0⟩]
    adviceQueries_nodup := by decide
    adviceQueries_column := by decide }

theorem unopened_system_has_no_plan : fromConstraintSystem unopenedSystem 1 false = none := by
  have degree : unopenedSystem.degree = some 5 := by decide +kernel
  have chunked : unopenedSystem.lookupChunks 5 = some [1] := by decide +kernel
  rw [Option.eq_none_iff_forall_ne_some]
  intro plan built
  have opened := ((from_constraint_system_iff degree chunked plan).mp built).1.adviceOpened 2
    (by decide)
  revert opened
  decide

end Midfall.ProtocolConsistency
