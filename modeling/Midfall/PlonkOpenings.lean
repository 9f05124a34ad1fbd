import Midfall.ListLoops
import Midfall.PlonkVerifier

/-!
# Which evaluations are opened

Every evaluation that enters `partially_evaluate_identities` should be claimed
in the query list as well. The identities zip the evaluations read for each
proof; the queries zip them with the committed instances of the caller, and so
stop after as many proofs as the caller supplied committed instances for.
-/

namespace Midfall.PlonkOpenings

open ListLoops PlonkConstraintSystem PlonkVerifier
open Option (bind_eq_bind bind_eq_some_iff isSome_iff_exists)
open List hiding set
open ProofReadOrder TranscriptReader

variable {State Commitment Scalar : Type}

/-! ### Evaluations that enter the identities -/

/-- The zip chain of `partially_evaluate_identities`. -/
def identityProofs (evals : Evaluations Scalar) : List (ProofEvals Scalar) :=
  ((((evals.adviceEvals.zip evals.instanceEvals).zip evals.permutations).zip
    evals.lookups).zip evals.trashcans).map
      fun ((((adviceEvals, instanceEvals), permutation), lookups), trash) =>
        { instanceEvals, adviceEvals, permutation, lookups, trash }

def columnEntries (cell : Nat → Cell) (queries : List QueryKey) (evals : List Scalar) :
    List (VerifierQuery Scalar) :=
  (queries.zip evals).map fun (query, eval) =>
    { commitment := cell query.column, at_ := query.rotation, eval }

def permutationEntries (rotationLast : Int) (proof : Nat)
    (sets : List (PermutationEvaluated Scalar)) : List (VerifierQuery Scalar) :=
  sets.zipIdx.flatMap fun (set, index) =>
    [{ commitment := .permutationProduct proof index, at_ := 0, eval := set.productEval },
     { commitment := .permutationProduct proof index, at_ := 1, eval := set.productNextEval }] ++
      set.productLastEval.toList.map fun eval =>
        { commitment := .permutationProduct proof index, at_ := rotationLast, eval }

/-- The evaluations of committed polynomials that the identities of one proof use. -/
def proofEntries (vk : VerifyingKey Scalar) (nbCommittedInstances proof : Nat)
    (evals : ProofEvals Scalar) : List (VerifierQuery Scalar) :=
  columnEntries (.advice proof) vk.cs.adviceQueries evals.adviceEvals ++
    ((vk.cs.instanceQueries.zip evals.instanceEvals).filter fun entry =>
      entry.1.column < nbCommittedInstances).map (fun (query, eval) =>
        { commitment := .instance proof query.column, at_ := query.rotation, eval }) ++
    permutationEntries vk.rotationLast proof evals.permutation ++
    evals.lookups.zipIdx.flatMap (fun (lookup, index) => lookupQueries proof index lookup) ++
    evals.trash.zipIdx.map fun (eval, index) =>
      { commitment := .trash proof index, at_ := 0, eval }

/-- The shared evaluations: fixed columns outside simple selectors, permutation columns. -/
def sharedEntries (vk : VerifyingKey Scalar) (evals : Evaluations Scalar) :
    List (VerifierQuery Scalar) :=
  ((vk.cs.fixedQueries.zip evals.fixedEvals).filter fun entry =>
      ! vk.cs.hasSimpleSelectorCol entry.1.column).map (fun (query, eval) =>
        { commitment := .fixed query.column, at_ := query.rotation, eval }) ++
    evals.permutationsCommon.zipIdx.map fun (eval, index) =>
      { commitment := .permutationCommon index, at_ := 0, eval }

def enteringEvaluations (vk : VerifyingKey Scalar) (nbCommittedInstances : Nat)
    (evals : Evaluations Scalar) : List (VerifierQuery Scalar) :=
  (identityProofs evals).zipIdx.flatMap (fun (proofEvals, proof) =>
    proofEntries vk nbCommittedInstances proof proofEvals) ++ sharedEntries vk evals

/-- Every evaluation that enters the identities is claimed in the query list. -/
def EvaluationsOpened (vk : VerifyingKey Scalar) (nbCommittedInstances : Nat)
    (prepared : Prepared Commitment Scalar) : Prop :=
  ∀ entry ∈ enteringEvaluations vk nbCommittedInstances prepared.evals, entry ∈ prepared.queries

def OpensNothing (vk : VerifyingKey Scalar) (nbCommittedInstances : Nat) : Prop :=
  vk.cs.adviceQueries = [] ∧
    (∀ query ∈ vk.cs.instanceQueries, ¬query.column < nbCommittedInstances) ∧
    vk.permutationSets = [] ∧ vk.cs.lookups = [] ∧ vk.cs.trashcans = []

/-! ### One proof -/

variable {cell : Nat → Cell} {evals : List Scalar} {opened : List (VerifierQuery Scalar)}
  {query entry : VerifierQuery Scalar} {proof nbCommittedInstances : Nat}
  {sets : List (PermutationEvaluated Scalar)} {vk : VerifyingKey Scalar}

theorem column_queries_mem {queries : List (QueryKey × Nat)}
    (built : columnQueries cell queries evals = some opened) :
    query ∈ opened ↔ ∃ entry ∈ queries, ∃ eval, evals[entry.2]? = some eval ∧
      query = { commitment := cell entry.1.column, at_ := entry.1.rotation, eval } := by
  rw [mem_map_m built]
  simp only [bind_eq_bind, bind_eq_some_iff, Option.pure_def, Option.some.injEq]
  constructor
  · rintro ⟨entry, mem, eval, stored, rfl⟩
    exact ⟨entry, mem, eval, stored, rfl⟩
  · rintro ⟨entry, mem, eval, stored, rfl⟩
    exact ⟨entry, mem, eval, stored, rfl⟩

theorem zip_position {Left Right : Type} {left : List Left} {right : List Right}
    {entry : Left × Right} (mem : entry ∈ left.zip right) :
    ∃ index, (entry.1, index) ∈ left.zipIdx ∧ right[index]? = some entry.2 := by
  rcases mem_iff_getElem?.mp mem with ⟨index, found⟩
  rcases getElem?_zip_eq_some.mp found with ⟨inLeft, inRight⟩
  exact ⟨index, mem_zipIdx_iff_getElem?.mpr inLeft, inRight⟩

theorem column_entries_opened (chosen : QueryKey → Bool) {queries : List QueryKey}
    (built : columnQueries cell (queries.zipIdx.filter fun query => chosen query.1) evals =
      some opened) {entry : QueryKey × Scalar} (mem : entry ∈ queries.zip evals)
    (kept : chosen entry.1 = true) :
    { commitment := cell entry.1.column, at_ := entry.1.rotation, eval := entry.2 } ∈ opened := by
  rcases zip_position mem with ⟨index, indexed, stored⟩
  rw [column_queries_mem built]
  exact ⟨(entry.1, index), mem_filter.mpr ⟨indexed, kept⟩, entry.2, stored, rfl⟩

/-- Exactly the sets before the last one carry a `last` evaluation. -/
def LastLinked (sets : List (PermutationEvaluated Scalar)) : Prop :=
  ∀ index set, sets[index]? = some set →
    (set.productLastEval.isSome ↔ index + 1 < sets.length)

theorem before_last_kept {Entry : Type} {entries : List Entry} {index : Nat} {entry : Entry}
    (found : entries[index]? = some entry) (before : index + 1 < entries.length) :
    (entry, index) ∈ entries.zipIdx.reverse.drop 1 := by
  have dropped : entries.zipIdx.reverse.drop 1 = entries.zipIdx.dropLast.reverse := by
    rw [drop_one, tail_reverse]
  rw [dropped, mem_reverse, dropLast_eq_take, mem_take_iff_getElem]
  have inside : index < min (entries.zipIdx.length - 1) entries.zipIdx.length := by
    rw [length_zipIdx]
    omega
  refine ⟨index, inside, ?_⟩
  rw [getElem?_eq_getElem (by omega), Option.some.injEq] at found
  rw [getElem_zipIdx, found, Nat.zero_add]

theorem permutation_entries_opened {rotationLast : Int} (linked : LastLinked sets)
    (built : permutationQueries rotationLast proof sets = some opened)
    (mem : entry ∈ permutationEntries rotationLast proof sets) : entry ∈ opened := by
  simp only [permutationQueries, bind_eq_bind, bind_eq_some_iff, Option.pure_def,
    Option.some.injEq] at built
  rcases built with ⟨last, lastBuilt, rfl⟩
  rcases mem_flatMap.mp mem with ⟨⟨set, index⟩, indexed, claimed⟩
  rcases mem_append.mp claimed with current | linkedEval
  · exact mem_append_left _ (mem_flatMap.mpr ⟨(set, index), indexed, current⟩)
  · rcases mem_map.mp linkedEval with ⟨eval, present, rfl⟩
    have stored : set.productLastEval = some eval := Option.mem_toList.mp present
    have found := mem_zipIdx_iff_getElem?.mp indexed
    have before := (linked index set found).mp (by rw [stored]; rfl)
    apply mem_append_right
    rw [mem_map_m lastBuilt]
    refine ⟨(set, index), before_last_kept found before, ?_⟩
    simp only [stored, Option.bind_some]

theorem proof_entries_opened {evals : ProofEvals Scalar} (linked : LastLinked evals.permutation)
    (built : proofQueries vk nbCommittedInstances proof evals = some opened)
    (mem : entry ∈ proofEntries vk nbCommittedInstances proof evals) : entry ∈ opened := by
  simp only [proofQueries, bind_eq_bind, bind_eq_some_iff, Option.pure_def,
    Option.some.injEq] at built
  rcases built with ⟨advice, adviceBuilt, instances, instancesBuilt, permutation,
    permutationBuilt, rfl⟩
  have everyAdvice : columnQueries (.advice proof)
      (vk.cs.adviceQueries.zipIdx.filter fun _ => true) evals.adviceEvals = some advice := by
    rwa [filter_true]
  simp only [proofEntries, mem_append] at mem ⊢
  rcases mem with (((inAdvice | inInstances) | inPermutation) | inLookups) | inTrash
  · rcases mem_map.mp inAdvice with ⟨pair, zipped, rfl⟩
    have claimed := column_entries_opened (fun _ => true) everyAdvice zipped rfl
    exact Or.inl (Or.inl (Or.inl (Or.inl claimed)))
  · rcases mem_map.mp inInstances with ⟨pair, kept, rfl⟩
    rcases mem_filter.mp kept with ⟨zipped, committed⟩
    have claimed := column_entries_opened
      (fun query => decide (query.column < nbCommittedInstances)) instancesBuilt zipped committed
    exact Or.inl (Or.inl (Or.inl (Or.inr claimed)))
  · exact Or.inl (Or.inl (Or.inr (permutation_entries_opened linked permutationBuilt
      inPermutation)))
  · exact Or.inl (Or.inr inLookups)
  · exact Or.inr inTrash

theorem column_queries_proof {queries : List (QueryKey × Nat)}
    (built : columnQueries cell queries evals = some opened) {proof : Option Nat}
    (cells : ∀ column, (cell column).proof = proof) (mem : query ∈ opened) :
    query.commitment.proof = proof := by
  rcases (column_queries_mem built).mp mem with ⟨entry, -, eval, -, rfl⟩
  exact cells entry.1.column

theorem permutation_queries_proof {rotationLast : Int}
    (built : permutationQueries rotationLast proof sets = some opened) (mem : query ∈ opened) :
    query.commitment.proof = some proof := by
  simp only [permutationQueries, bind_eq_bind, bind_eq_some_iff, Option.pure_def,
    Option.some.injEq] at built
  rcases built with ⟨last, lastBuilt, rfl⟩
  rcases mem_append.mp mem with current | linked
  · rcases mem_flatMap.mp current with ⟨entry, -, claimed⟩
    simp only [mem_cons, not_mem_nil, or_false] at claimed
    rcases claimed with rfl | rfl <;> rfl
  · rcases (mem_map_m lastBuilt).mp linked with ⟨entry, -, claimed⟩
    simp only [bind_eq_some_iff, Option.some.injEq] at claimed
    rcases claimed with ⟨eval, -, rfl⟩
    rfl

theorem lookup_queries_proof {index : Nat} {lookup : LookupEvaluated Scalar}
    (mem : query ∈ lookupQueries proof index lookup) :
    query.commitment.proof = some proof := by
  simp only [lookupQueries, mem_append, mem_cons, mem_map, not_mem_nil, or_false] at mem
  rcases mem with (rfl | ⟨entry, -, rfl⟩) | (rfl | rfl) <;> rfl

/-! No index is out of range on vectors of the right shape. -/

theorem column_queries_built (chosen : QueryKey → Bool) (cell : Nat → Cell)
    {queries : List QueryKey} (enough : queries.length ≤ evals.length) :
    ∃ opened, columnQueries cell (queries.zipIdx.filter fun query => chosen query.1) evals =
      some opened := by
  refine ⟨_, map_m_filter_map _ ?_⟩
  rintro ⟨query, index⟩ mem
  have inside : index < evals.length := by
    have bound := (mem_zipIdx (mem_of_mem_filter mem)).2.1
    omega
  refine ⟨{ commitment := cell query.column, at_ := query.rotation, eval := evals[index] }, ?_⟩
  simp [getElem?_eq_getElem inside]

theorem kept_before_last {Entry : Type} {entries : List Entry} {entry : Entry × Nat}
    (mem : entry ∈ entries.zipIdx.reverse.drop 1) :
    entries[entry.2]? = some entry.1 ∧ entry.2 + 1 < entries.length := by
  rw [drop_one, tail_reverse, mem_reverse, dropLast_eq_take, mem_take_iff_getElem] at mem
  rcases mem with ⟨index, inside, rfl⟩
  rw [length_zipIdx] at inside
  rw [getElem_zipIdx, Nat.zero_add]
  exact ⟨getElem?_eq_getElem (by omega), by omega⟩

theorem permutation_queries_built (rotationLast : Int) (proof : Nat) (linked : LastLinked sets) :
    ∃ opened, permutationQueries rotationLast proof sets = some opened := by
  have last : ∃ opened, (sets.zipIdx.reverse.drop 1).mapM (fun (set, index) => do
      let eval ← set.productLastEval
      return { commitment := .permutationProduct proof index, at_ := rotationLast, eval :
               VerifierQuery Scalar }) = some opened := by
    refine ⟨_, map_m_filter_map _ ?_⟩
    rintro ⟨set, index⟩ mem
    have kept := kept_before_last mem
    have present := (linked index set kept.1).mpr kept.2
    rcases isSome_iff_exists.mp present with ⟨eval, stored⟩
    exact ⟨_, by simp only [stored, some_bind]; rfl⟩
  rcases last with ⟨opened, built⟩
  unfold permutationQueries
  rw [built]
  exact ⟨_, rfl⟩

theorem proof_queries_proof {evals : ProofEvals Scalar}
    (built : proofQueries vk nbCommittedInstances proof evals = some opened)
    (mem : query ∈ opened) :
    query.commitment.proof = some proof := by
  simp only [proofQueries, bind_eq_bind, bind_eq_some_iff, Option.pure_def,
    Option.some.injEq] at built
  rcases built with ⟨advice, adviceBuilt, instances, instancesBuilt, permutation,
    permutationBuilt, rfl⟩
  simp only [mem_append] at mem
  rcases mem with (((inAdvice | inInstances) | inPermutation) | inLookups) | inTrash
  · exact column_queries_proof adviceBuilt (fun _ => rfl) inAdvice
  · exact column_queries_proof instancesBuilt (fun _ => rfl) inInstances
  · exact permutation_queries_proof permutationBuilt inPermutation
  · rcases mem_flatMap.mp inLookups with ⟨entry, -, claimed⟩
    exact lookup_queries_proof claimed
  · rcases mem_map.mp inTrash with ⟨entry, -, rfl⟩
    rfl

theorem proof_entries_proof {evals : ProofEvals Scalar}
    (mem : entry ∈ proofEntries vk nbCommittedInstances proof evals) :
    entry.commitment.proof = some proof := by
  simp only [proofEntries, mem_append] at mem
  rcases mem with (((inAdvice | inInstances) | inPermutation) | inLookups) | inTrash
  · rcases mem_map.mp inAdvice with ⟨pair, -, rfl⟩
    rfl
  · rcases mem_map.mp inInstances with ⟨pair, -, rfl⟩
    rfl
  · rcases mem_flatMap.mp inPermutation with ⟨pair, -, claimed⟩
    simp only [mem_append, mem_cons, mem_map, not_mem_nil, or_false]
      at claimed
    rcases claimed with (rfl | rfl) | ⟨eval, -, rfl⟩ <;> rfl
  · rcases mem_flatMap.mp inLookups with ⟨pair, -, claimed⟩
    exact lookup_queries_proof claimed
  · rcases mem_map.mp inTrash with ⟨pair, -, rfl⟩
    rfl

/-! ### What a run guarantees of its vectors -/

/-- The evaluations read for one proof fit the constraint system. -/
structure ProofShape (vk : VerifyingKey Scalar) (evals : ProofEvals Scalar) : Prop where
  instances : evals.instanceEvals.length = vk.cs.instanceQueries.length
  advice : evals.adviceEvals.length = vk.cs.adviceQueries.length
  permutation : evals.permutation.length = vk.permutationSets.length
  linked : LastLinked evals.permutation
  lookups : evals.lookups.length = vk.cs.lookups.length
  trash : evals.trash.length = vk.cs.trashcans.length

theorem entries_nil_iff {vk : VerifyingKey Scalar} {nbCommittedInstances proof : Nat}
    {evals : ProofEvals Scalar} (shape : ProofShape vk evals) :
    proofEntries vk nbCommittedInstances proof evals = [] ↔
      OpensNothing vk nbCommittedInstances := by
  have advice : columnEntries (.advice proof) vk.cs.adviceQueries evals.adviceEvals = [] ↔
      vk.cs.adviceQueries = [] := by
    rw [columnEntries, map_eq_nil_iff, ← length_eq_zero_iff, length_zip,
      shape.advice, Nat.min_self, length_eq_zero_iff]
  have instances : ((vk.cs.instanceQueries.zip evals.instanceEvals).filter fun entry =>
      entry.1.column < nbCommittedInstances) = [] ↔
        ∀ query ∈ vk.cs.instanceQueries, ¬query.column < nbCommittedInstances := by
    rw [filter_eq_nil_iff]
    constructor
    · intro none query mem
      rcases mem_iff_getElem?.mp mem with ⟨index, found⟩
      have inside : index < evals.instanceEvals.length := by
        rw [shape.instances]
        exact (List.getElem?_eq_some_iff.mp found).1
      have zipped : (query, evals.instanceEvals[index]) ∈
          vk.cs.instanceQueries.zip evals.instanceEvals := by
        rw [mem_iff_getElem?]
        exact ⟨index, getElem?_zip_eq_some.mpr ⟨found, getElem?_eq_getElem inside⟩⟩
      simpa using none _ zipped
    · intro none entry mem
      have plain := none entry.1 (of_mem_zip mem).1
      simpa using plain
  have permutation : permutationEntries vk.rotationLast proof evals.permutation = [] ↔
      vk.permutationSets = [] := by
    rw [← length_eq_zero_iff (l := vk.permutationSets), ← shape.permutation]
    cases evals.permutation with
    | nil => simp [permutationEntries]
    | cons set sets => simp [permutationEntries]
  have lookups : evals.lookups.zipIdx.flatMap
      (fun (lookup, index) => lookupQueries proof index lookup) = [] ↔ vk.cs.lookups = [] := by
    rw [← length_eq_zero_iff (l := vk.cs.lookups), ← shape.lookups]
    cases evals.lookups with
    | nil => simp
    | cons lookup lookups => simp [lookupQueries]
  have trash : evals.trash.zipIdx = [] ↔ vk.cs.trashcans = [] := by
    rw [← length_eq_zero_iff, length_zipIdx, shape.trash, length_eq_zero_iff]
  simp only [proofEntries, OpensNothing, append_eq_nil_iff, map_eq_nil_iff, advice,
    instances, permutation, lookups, trash, and_assoc]

/-- The vectors of the trace have one entry for each proof. -/
structure TraceShape (vk : VerifyingKey Scalar) (numProofs : Nat)
    (trace : VerifierTrace Commitment Scalar) : Prop where
  advice : trace.adviceCommitments.length = numProofs
  permutations : trace.permutations.length = numProofs ∧
    ∀ products ∈ trace.permutations, products.length = vk.permutationSets.length
  lookups : trace.lookups.length = numProofs ∧
    ∀ lookups ∈ trace.lookups, lookups.length = vk.cs.lookups.length
  trashcans : trace.trashcans.length = numProofs ∧
    ∀ trashcans ∈ trace.trashcans, trashcans.length = vk.cs.trashcans.length

section Shapes

variable {transcript : Transcript State Commitment Scalar} {arithmetic : Arithmetic Scalar}
  {vk : VerifyingKey Scalar}

theorem ensures_read_commitments (count : Nat) :
    Ensures (readCommitments transcript count) fun values => values.length = count := by
  refine (ensures_each (fun _ => ensures_any transcript.readCommitment) _).weaken ?_
  intro values shape
  rw [shape.1, length_range]

theorem ensures_read_scalars (count : Nat) :
    Ensures (readScalars transcript count) fun values => values.length = count := by
  refine (ensures_each (fun _ => ensures_any transcript.readScalar) _).weaken ?_
  intro values shape
  rw [shape.1, length_range]

theorem ensures_read_for_proofs (numProofs count : Nat) :
    Ensures ((range numProofs).mapM fun _ => readCommitments transcript count) fun values =>
      values.length = numProofs ∧ ∀ value ∈ values, value.length = count := by
  refine (ensures_each (fun _ => ensures_read_commitments count) _).weaken ?_
  intro values shape
  rwa [length_range] at shape

theorem ensures_read_phase (numProofs currentPhase : Nat)
    (state : List (List Commitment) × List Scalar) (held : state.1.length = numProofs) :
    Ensures (readPhase transcript vk state currentPhase) fun next =>
      next.1.length = numProofs := by
  refine (ensures_each (fun _ => ensures_any _) _).bind ?_
  intro adviceCommitments shape
  refine (ensures_any _).bind ?_
  intro challenges _
  exact ensures_pure (shape.1.trans held)

theorem ensures_parse_trace [Inhabited Commitment] [Inhabited Scalar]
    (committedInstances : List (List Commitment)) (instances : List (List (List Scalar))) :
    Ensures (parseTrace transcript arithmetic vk committedInstances instances)
      (TraceShape vk instances.length) := by
  have chunkCount : vk.cs.lookups.length = vk.lookupChunks.length :=
    map_m_length vk.chunks_cached
  refine (ensures_any _).bind fun _ _ => ?_
  refine (ensures_any _).bind fun _ _ => ?_
  refine (ensures_fold (fun state phase => ensures_read_phase instances.length phase state) _
    (by simp)).bind ?_
  rintro ⟨adviceCommitments, challenges⟩ advice
  refine (ensures_any _).bind fun theta _ => ?_
  refine (ensures_read_for_proofs _ _).bind fun multiplicities multiplicitiesShape => ?_
  refine (ensures_any _).bind fun beta _ => ?_
  refine (ensures_any _).bind fun gamma _ => ?_
  refine (ensures_read_for_proofs _ _).bind fun permutations permutationsShape => ?_
  have lookupsEnsured := @ensures_loop State _ _ (fun (lookups : List Commitment) =>
    (lookups.zip vk.lookupChunks).mapM fun (multiplicities, numChunks) =>
      readLookup transcript multiplicities numChunks)
    (fun input output => output.length = (input.zip vk.lookupChunks).length)
    (fun input => (ensures_each (fun _ => ensures_any _) _).weaken fun _ shape => shape.1)
    multiplicities
  refine lookupsEnsured.bind fun lookups lookupsShape => ?_
  refine (ensures_any _).bind fun trashChallenge _ => ?_
  refine (ensures_read_for_proofs _ _).bind fun trashcans trashShape => ?_
  refine (ensures_any _).bind fun y _ => ?_
  apply ensures_pure
  refine ⟨advice, permutationsShape, ⟨?_, ?_⟩, trashShape⟩
  · exact lookupsShape.length_eq.symm.trans multiplicitiesShape.1
  · intro entry mem
    rcases mem_iff_getElem.mp mem with ⟨index, inside, rfl⟩
    have bound : index < multiplicities.length := lookupsShape.length_eq ▸ inside
    have length := lookupsShape.get bound inside
    have full := multiplicitiesShape.2 _ (getElem_mem bound)
    rw [get_eq_getElem, get_eq_getElem, length_zip, full, chunkCount, Nat.min_self] at length
    rw [length, chunkCount]

theorem ensures_evaluate_permutation (products : List Commitment) :
    Ensures (evaluatePermutation transcript products) fun sets =>
      sets.length = products.length ∧ LastLinked sets := by
  induction products with
  | nil =>
    apply ensures_pure
    refine ⟨rfl, ?_⟩
    intro index set found
    simp at found
  | cons product remaining ih =>
    unfold evaluatePermutation
    refine (ensures_any _).bind fun productEval _ => ?_
    refine (ensures_any _).bind fun productNextEval _ => ?_
    have last : Ensures (readLastEval transcript remaining) fun eval =>
        eval.isSome ↔ 0 < remaining.length := by
      unfold readLastEval
      split_ifs with more
      · rw [← bind_pure_comp]
        exact (ensures_any _).bind fun value _ => ensures_pure (iff_of_true rfl more)
      · exact ensures_pure (iff_of_false (by simp) more)
    refine last.bind fun productLastEval linked => ?_
    refine ih.bind fun sets shape => ?_
    apply ensures_pure
    refine ⟨by rw [length_cons, length_cons, shape.1], ?_⟩
    intro index set found
    cases index with
    | zero =>
      rw [getElem?_cons_zero, Option.some.injEq] at found
      subst found
      rw [linked, length_cons, shape.1]
      omega
    | succ index =>
      rw [getElem?_cons_succ] at found
      rw [shape.2 index set found, length_cons]
      omega

/-- The evaluations have one entry for each proof, of the shape of the system. -/
structure EvaluationsShape (vk : VerifyingKey Scalar) (numProofs : Nat)
    (evals : Evaluations Scalar) : Prop where
  instances : evals.instanceEvals.length = numProofs ∧
    ∀ proof ∈ evals.instanceEvals, proof.length = vk.cs.instanceQueries.length
  advice : evals.adviceEvals.length = numProofs ∧
    ∀ proof ∈ evals.adviceEvals, proof.length = vk.cs.adviceQueries.length
  permutations : evals.permutations.length = numProofs ∧
    ∀ sets ∈ evals.permutations, sets.length = vk.permutationSets.length ∧ LastLinked sets
  lookups : evals.lookups.length = numProofs ∧
    ∀ lookups ∈ evals.lookups, lookups.length = vk.cs.lookups.length
  trashcans : evals.trashcans.length = numProofs ∧
    ∀ trash ∈ evals.trashcans, trash.length = vk.cs.trashcans.length

theorem ensures_same_length {Input Output : Type} {body : List Input → Reader State (List Output)}
    {post : List Output → Prop}
    (ensures : ∀ inputs, Ensures (body inputs) fun outputs =>
      outputs.length = inputs.length ∧ post outputs)
    {groups : List (List Input)} {numProofs count : Nat} (groupCount : groups.length = numProofs)
    (groupLength : ∀ group ∈ groups, group.length = count) :
    Ensures (groups.mapM body) fun outputs => outputs.length = numProofs ∧
      ∀ output ∈ outputs, output.length = count ∧ post output := by
  refine (ensures_loop ensures groups).weaken fun outputs related => ?_
  refine ⟨related.length_eq.symm.trans groupCount, fun output mem => ?_⟩
  rcases mem_iff_getElem.mp mem with ⟨index, inside, rfl⟩
  have bound : index < groups.length := related.length_eq ▸ inside
  have holds := related.get bound inside
  rw [get_eq_getElem, get_eq_getElem] at holds
  exact ⟨holds.1.trans (groupLength _ (getElem_mem bound)), holds.2⟩

theorem ensures_read_arguments {numProofs : Nat} {trace : VerifierTrace Commitment Scalar}
    (shape : TraceShape vk numProofs trace) :
    Ensures (readArgumentEvals transcript vk trace) fun arguments =>
      (arguments.permutations.length = numProofs ∧ ∀ sets ∈ arguments.permutations,
        sets.length = vk.permutationSets.length ∧ LastLinked sets) ∧
      (arguments.lookups.length = numProofs ∧ ∀ lookups ∈ arguments.lookups,
        lookups.length = vk.cs.lookups.length ∧ True) ∧
      (arguments.trashcans.length = numProofs ∧ ∀ trash ∈ arguments.trashcans,
        trash.length = vk.cs.trashcans.length ∧ True) := by
  refine (ensures_any _).bind fun permutationsCommon _ => ?_
  refine (ensures_same_length ensures_evaluate_permutation shape.permutations.1
    shape.permutations.2).bind fun permutations permutationsShape => ?_
  have lookupsEnsured : Ensures (trace.lookups.mapM fun lookups =>
      lookups.mapM (evaluateLookup transcript)) fun outputs => outputs.length = numProofs ∧
        ∀ output ∈ outputs, output.length = vk.cs.lookups.length ∧ True :=
    ensures_same_length (fun lookups => (ensures_each (fun _ => ensures_any _) lookups).weaken
      fun _ read => ⟨read.1, trivial⟩) shape.lookups.1 shape.lookups.2
  refine lookupsEnsured.bind fun lookups lookupsShape => ?_
  have trashEnsured : Ensures (trace.trashcans.mapM fun trashcans =>
      trashcans.mapM fun _ => transcript.readScalar) fun outputs => outputs.length = numProofs ∧
        ∀ output ∈ outputs, output.length = vk.cs.trashcans.length ∧ True :=
    ensures_same_length (fun trashcans => (ensures_each (fun _ => ensures_any _) trashcans).weaken
      fun _ read => ⟨read.1, trivial⟩) shape.trashcans.1 shape.trashcans.2
  refine trashEnsured.bind fun trashcans trashShape => ?_
  exact ensures_pure ⟨permutationsShape, lookupsShape, trashShape⟩

theorem ensures_read_evaluations (nbCommittedInstances : Nat)
    (instances : List (List (List Scalar))) {trace : VerifierTrace Commitment Scalar}
    (shape : TraceShape vk instances.length trace) :
    Ensures (readEvaluations transcript arithmetic vk nbCommittedInstances instances trace)
      fun outcome => EvaluationsShape vk instances.length outcome.2.2 := by
  refine (ensures_any _).bind fun quotientLimbComs _ => ?_
  refine (ensures_any _).bind fun x _ => ?_
  have instanceLength : ∀ columns, Ensures
      (readInstanceEvals transcript arithmetic vk nbCommittedInstances x columns)
      fun evals => evals.length = vk.cs.instanceQueries.length := fun columns =>
    (ensures_each (fun _ => ensures_any _) _).weaken fun _ read => read.1
  refine (ensures_each instanceLength _).bind fun instanceEvals instanceShape => ?_
  refine (ensures_each (fun _ => ensures_read_scalars _) _).bind fun adviceEvals adviceShape => ?_
  refine (ensures_any _).bind fun fixedEvals _ => ?_
  refine (ensures_read_arguments shape).bind fun arguments argumentShape => ?_
  apply ensures_pure
  rw [length_range] at adviceShape
  exact ⟨instanceShape, adviceShape, argumentShape.1,
    ⟨argumentShape.2.1.1, fun lookup mem => (argumentShape.2.1.2 lookup mem).1⟩,
    ⟨argumentShape.2.2.1, fun trash mem => (argumentShape.2.2.2 trash mem).1⟩⟩

theorem ensures_prepare [Inhabited Commitment] [Inhabited Scalar]
    (committedInstances : List (List Commitment)) (instances : List (List (List Scalar))) :
    Ensures (prepare transcript arithmetic vk committedInstances instances) fun prepared =>
      TraceShape vk instances.length prepared.trace ∧
      EvaluationsShape vk instances.length prepared.evals ∧
      verifierQueries arithmetic vk (committedInstances.headD []).length committedInstances
        prepared.trace prepared.x prepared.evals = some prepared.queries := by
  refine (ensures_parse_trace committedInstances instances).bind fun trace traceShape => ?_
  refine (ensures_read_evaluations _ instances traceShape).bind fun outcome evalsShape => ?_
  refine (ensures_unwrap _).bind fun queries built => ?_
  exact ensures_pure ⟨traceShape, evalsShape, built⟩

end Shapes

/-! ### Proofs that are opened -/

theorem proof_queries_built {vk : VerifyingKey Scalar} (nbCommittedInstances proof : Nat)
    {evals : ProofEvals Scalar} (shape : ProofShape vk evals) :
    ∃ opened, proofQueries vk nbCommittedInstances proof evals = some opened := by
  rcases column_queries_built (fun _ => true) (.advice proof) (Nat.le_of_eq shape.advice.symm) with
    ⟨advice, adviceBuilt⟩
  rcases column_queries_built (fun query => decide (query.column < nbCommittedInstances))
    (.instance proof) (Nat.le_of_eq shape.instances.symm) with ⟨instances, instancesBuilt⟩
  rcases permutation_queries_built vk.rotationLast proof shape.linked with
    ⟨permutation, permutationBuilt⟩
  rw [filter_true] at adviceBuilt
  unfold proofQueries
  rw [adviceBuilt, instancesBuilt, permutationBuilt]
  exact ⟨_, rfl⟩

section Opened

variable {vk : VerifyingKey Scalar} {numProofs : Nat} {evals : Evaluations Scalar}

section

variable (shape : EvaluationsShape vk numProofs evals)

include shape

theorem identity_proofs_length : (identityProofs evals).length = numProofs := by
  simp [identityProofs, shape.advice.1, shape.instances.1, shape.permutations.1,
    shape.lookups.1, shape.trashcans.1]

theorem identity_proof_shape {proofEvals : ProofEvals Scalar}
    (mem : proofEvals ∈ identityProofs evals) :
    ProofShape vk proofEvals := by
  rcases mem_map.mp mem with ⟨⟨⟨⟨⟨adviceEvals, instanceEvals⟩, permutation⟩, lookups⟩,
    trash⟩, zipped, rfl⟩
  have inTrash := of_mem_zip zipped
  have inLookups := of_mem_zip inTrash.1
  have inPermutations := of_mem_zip inLookups.1
  have inAdvice := of_mem_zip inPermutations.1
  exact {
    instances := shape.instances.2 instanceEvals inAdvice.2
    advice := shape.advice.2 adviceEvals inAdvice.1
    permutation := (shape.permutations.2 permutation inPermutations.2).1
    linked := (shape.permutations.2 permutation inPermutations.2).2
    lookups := shape.lookups.2 lookups inLookups.2
    trash := shape.trashcans.2 trash inTrash.2 }

/-- The zip chain of the queries stops with the committed instances. -/
theorem zipped_proofs_take {trace : VerifierTrace Commitment Scalar}
    (traceShape : TraceShape vk numProofs trace) (committedInstances : List (List Commitment)) :
    zippedProofs committedInstances trace evals =
      (identityProofs evals).take committedInstances.length := by
  apply ext_getElem
  · simp [zippedProofs, identityProofs, shape.advice.1, shape.instances.1,
      shape.permutations.1, shape.lookups.1, shape.trashcans.1, traceShape.advice]
  · intro proof inZipped inTaken
    simp [zippedProofs, identityProofs]

end

theorem verifier_queries_built (arithmetic : Arithmetic Scalar)
    (shape : EvaluationsShape vk numProofs evals) {trace : VerifierTrace Commitment Scalar}
    (traceShape : TraceShape vk numProofs trace)
    (covered : vk.cs.fixedQueries.length ≤ evals.fixedEvals.length) (nbCommittedInstances : Nat)
    (committedInstances : List (List Commitment)) (x : Scalar) :
    ∃ queries, verifierQueries arithmetic vk nbCommittedInstances committedInstances trace x evals =
      some queries := by
  rcases column_queries_built (fun query => ! vk.cs.hasSimpleSelectorCol query.column) .fixed
    covered with ⟨fixed, fixedBuilt⟩
  have perProof : ∀ entry ∈ (zippedProofs committedInstances trace evals).zipIdx,
      ∃ opened, proofQueries vk nbCommittedInstances entry.2 entry.1 = some opened := by
    intro entry mem
    rw [zipped_proofs_take shape traceShape] at mem
    have inProofs := mem_of_mem_take (fst_mem_of_mem_zipIdx mem)
    exact proof_queries_built nbCommittedInstances entry.2 (identity_proof_shape shape inProofs)
  have perProofBuilt := map_m_filter_map _ perProof
  unfold verifierQueries openedFixed
  rw [perProofBuilt, fixedBuilt]
  exact ⟨_, rfl⟩

variable {arithmetic : Arithmetic Scalar} {committedInstances : List (List Commitment)}
  {trace : VerifierTrace Commitment Scalar} {x : Scalar}
  {queries : List (VerifierQuery Scalar)} {nbCommittedInstances : Nat}

theorem shared_entries_opened
    (built : verifierQueries arithmetic vk nbCommittedInstances committedInstances trace x evals =
      some queries) {entry : VerifierQuery Scalar} (mem : entry ∈ sharedEntries vk evals) :
    entry ∈ queries := by
  simp only [verifierQueries, bind_eq_bind, bind_eq_some_iff, Option.pure_def,
    Option.some.injEq] at built
  rcases built with ⟨perProof, -, fixed, fixedBuilt, rfl⟩
  simp only [mem_append, sharedEntries] at mem ⊢
  rcases mem with inFixed | inCommon
  · rcases mem_map.mp inFixed with ⟨pair, kept, rfl⟩
    rcases mem_filter.mp kept with ⟨zipped, opened⟩
    have claimed := column_entries_opened
      (fun query => ! vk.cs.hasSimpleSelectorCol query.column) fixedBuilt zipped opened
    exact Or.inl (Or.inl (Or.inr claimed))
  · exact Or.inl (Or.inr inCommon)

section

variable (shape : EvaluationsShape vk numProofs evals) (traceShape : TraceShape vk numProofs trace)
  (built : verifierQueries arithmetic vk nbCommittedInstances committedInstances trace x evals =
      some queries) {proof : Nat}

include shape traceShape built

theorem reached_proof_opened {proofEvals : ProofEvals Scalar}
    (found : (identityProofs evals)[proof]? = some proofEvals)
    (reached : proof < committedInstances.length) {entry : VerifierQuery Scalar}
    (mem : entry ∈ proofEntries vk nbCommittedInstances proof proofEvals) :
    entry ∈ queries := by
  simp only [verifierQueries, bind_eq_bind, bind_eq_some_iff, Option.pure_def,
    Option.some.injEq] at built
  rcases built with ⟨perProof, perProofBuilt, fixed, -, rfl⟩
  rw [zipped_proofs_take shape traceShape] at perProofBuilt
  have indexed : (proofEvals, proof) ∈
      ((identityProofs evals).take committedInstances.length).zipIdx := by
    rw [mem_zipIdx_iff_getElem?, getElem?_take_of_lt reached]
    exact found
  rcases (map_m_returns perProofBuilt indexed) with ⟨opened, proofBuilt, inPerProof⟩
  have linked := (identity_proof_shape shape (mem_of_getElem? found)).linked
  have claimed := proof_entries_opened linked proofBuilt mem
  simp only [mem_append]
  exact Or.inl (Or.inl (Or.inl (mem_flatten.mpr ⟨opened, inPerProof, claimed⟩)))

theorem opened_proof_reached {query : VerifierQuery Scalar} (mem : query ∈ queries)
    (owned : query.commitment.proof = some proof) : proof < committedInstances.length := by
  simp only [verifierQueries, bind_eq_bind, bind_eq_some_iff, Option.pure_def,
    Option.some.injEq] at built
  rcases built with ⟨perProof, perProofBuilt, fixed, fixedBuilt, rfl⟩
  rw [zipped_proofs_take shape traceShape] at perProofBuilt
  simp only [mem_append] at mem
  rcases mem with ((inProofs | inFixed) | inCommon) | inLinearization
  · rcases mem_flatten.mp inProofs with ⟨opened, inPerProof, claimed⟩
    rcases (mem_map_m perProofBuilt).mp inPerProof with ⟨⟨proofEvals, index⟩, indexed, proofBuilt⟩
    have same := proof_queries_proof proofBuilt claimed
    rw [owned, Option.some.injEq] at same
    have inside := (mem_zipIdx indexed).2.1
    rw [length_take] at inside
    omega
  · have shared := column_queries_proof fixedBuilt (fun _ => rfl) inFixed
    rw [owned] at shared
    cases shared
  · rcases mem_map.mp inCommon with ⟨pair, -, rfl⟩
    cases owned
  · rw [mem_singleton] at inLinearization
    subst inLinearization
    cases owned

end

end Opened

/-- Exactly when every evaluation that enters the identities is opened. -/
theorem evaluations_opened_iff [Inhabited Commitment] [Inhabited Scalar]
    (transcript : Transcript State Commitment Scalar) (arithmetic : Arithmetic Scalar)
    (vk : VerifyingKey Scalar) (committedInstances : List (List Commitment))
    (instances : List (List (List Scalar))) (before after : State)
    (prepared : Prepared Commitment Scalar)
    (accepted : prepare transcript arithmetic vk committedInstances instances before =
      some (prepared, after)) :
    EvaluationsOpened vk (committedInstances.headD []).length prepared ↔
      instances.length ≤ committedInstances.length ∨
        OpensNothing vk (committedInstances.headD []).length := by
  rcases ensures_prepare committedInstances instances before prepared after accepted with
    ⟨traceShape, shape, built⟩
  constructor
  · intro opened
    by_cases enough : instances.length ≤ committedInstances.length
    · exact Or.inl enough
    · right
      -- the first proof behind the committed instances has no entry
      have inside : committedInstances.length < (identityProofs prepared.evals).length := by
        rw [identity_proofs_length shape]
        omega
      have found := getElem?_eq_getElem inside
      have proofShape := identity_proof_shape shape (getElem_mem inside)
      have entriesNil := @entries_nil_iff _ vk (committedInstances.headD []).length
        committedInstances.length _ proofShape
      rw [← entriesNil, eq_nil_iff_forall_not_mem]
      intro entry mem
      have entering : entry ∈ enteringEvaluations vk (committedInstances.headD []).length
          prepared.evals := by
        apply mem_append_left
        exact mem_flatMap.mpr ⟨(_, committedInstances.length),
          mem_zipIdx_iff_getElem?.mpr found, mem⟩
      have reached := opened_proof_reached shape traceShape built (opened entry entering)
        (proof_entries_proof mem)
      omega
  · intro condition entry mem
    rcases mem_append.mp mem with inProofs | inShared
    · rcases mem_flatMap.mp inProofs with ⟨⟨proofEvals, proof⟩, indexed, claimed⟩
      have found : (identityProofs prepared.evals)[proof]? = some proofEvals :=
        mem_zipIdx_iff_getElem?.mp indexed
      change entry ∈ proofEntries vk _ proof proofEvals at claimed
      rcases condition with enough | nothing
      · have inside := (List.getElem?_eq_some_iff.mp found).1
        rw [identity_proofs_length shape] at inside
        exact reached_proof_opened shape traceShape built found (by omega) claimed
      · have proofShape := identity_proof_shape shape (mem_of_getElem? found)
        rw [(entries_nil_iff proofShape).mpr nothing] at claimed
        cases claimed
    · exact shared_entries_opened built inShared

/-! ### A system with one advice column -/

def oneColumnSystem : ConstraintSystem where
  numFixedColumns := 0
  selectorFlags := []
  adviceColumnPhase := [0]
  challengePhase := []
  gates := [[1]]
  adviceQueries := [⟨0, 0⟩]
  instanceQueries := []
  fixedQueries := []
  permutationColumns := []
  lookups := []
  trashcans := []
  minimumDegree := none
  adviceQueries_nodup := by decide
  adviceQueries_column := by decide
  instanceQueries_nodup := by decide
  fixedQueries_nodup := by decide
  fixedQueries_column := by decide
  permutationColumns_nodup := by decide
  challengePhase_allocated := by decide

def oneColumnKey : VerifyingKey Nat where
  cs := oneColumnSystem
  numInstanceColumns := 0
  csDegree := 3
  lookupChunks := []
  transcriptRepr := 0
  singleHCommitment := false
  instanceQueries_column := by decide
  degree_cached := by decide
  chunks_cached := by decide

def popValue : Reader (List Nat) Nat
  | [] => none
  | value :: rest => some (value, rest)

def valueTranscript : Transcript (List Nat) Nat Nat where
  commonScalar := fun _ proof => proof
  commonCommitment := fun _ proof => proof
  readCommitment := popValue
  readScalar := popValue
  squeezeChallenge := fun proof => (0, proof)

def valueArithmetic : Arithmetic Nat where
  one := 1
  fromLength := id
  instanceEval := fun _ values _ => values.sum
  linearizationEval := fun _ _ => 0

/-- Two proofs, but the committed instances of one: two advice commitments, two
quotient limbs, two advice evaluations. -/
def oneCommittedInstance : Option (Prepared Nat Nat × List Nat) :=
  prepare valueTranscript valueArithmetic oneColumnKey [[]] [[], []] [10, 11, 20, 21, 30, 31]

instance (vk : VerifyingKey Nat) (nbCommittedInstances : Nat) (prepared : Prepared Nat Nat) :
    Decidable (EvaluationsOpened vk nbCommittedInstances prepared) := by
  unfold EvaluationsOpened
  exact inferInstance

theorem second_proof_not_opened : ∃ prepared after,
    oneCommittedInstance = some (prepared, after) ∧
      ¬EvaluationsOpened oneColumnKey 0 prepared := by
  have accepted : oneCommittedInstance.isSome := by decide +kernel
  have unopened : ∀ outcome ∈ oneCommittedInstance,
      ¬EvaluationsOpened oneColumnKey 0 outcome.1 := by decide +kernel
  rcases isSome_iff_exists.mp accepted with ⟨⟨prepared, after⟩, run⟩
  exact ⟨prepared, after, run, unopened _ run⟩

theorem two_proofs_opened_with_two_committed : ∃ prepared after,
    prepare valueTranscript valueArithmetic oneColumnKey [[], []] [[], []]
      [10, 11, 20, 21, 30, 31] = some (prepared, after) ∧
        EvaluationsOpened oneColumnKey 0 prepared := by
  have accepted : (prepare valueTranscript valueArithmetic oneColumnKey [[], []] [[], []]
      [10, 11, 20, 21, 30, 31]).isSome := by decide +kernel
  rcases isSome_iff_exists.mp accepted with ⟨⟨prepared, after⟩, run⟩
  have opened := evaluations_opened_iff valueTranscript valueArithmetic oneColumnKey [[], []]
    [[], []] [10, 11, 20, 21, 30, 31] after prepared run
  exact ⟨prepared, after, run, opened.mpr (Or.inl (by decide))⟩

end Midfall.PlonkOpenings
