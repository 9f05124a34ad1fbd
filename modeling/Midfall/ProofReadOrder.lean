import Midfall.ProtocolLowering

/-!
# The order in which the Rust verifier reads a proof

`parse_trace` and `verify_algebraic_constraints` for one proof, kept to their
transcript reads: commitments phase by phase, then the scalar evaluations. A
read is labelled by the query that uses it. The fixed evaluations are read as
anonymous scalars and spread over the fixed queries by inserting ones at the
simple selectors, so their labels are found after the fact.
-/

namespace Midfall.ProofReadOrder

open PlonkConstraintSystem ProtocolLowering
open List hiding set

section Chunks

variable {Entry : Type}

def chunks (size : Nat) (entries : List Entry) : List (List Entry) :=
  if entries = [] ∨ size = 0 then []
  else entries.take size :: chunks size (entries.drop size)
termination_by entries.length
decreasing_by
  rename_i nonempty
  have positive := length_pos_of_ne_nil (not_or.mp nonempty).1
  have step := Nat.pos_of_ne_zero (not_or.mp nonempty).2
  rw [length_drop]
  omega

theorem chunks_length (size : Nat) (entries : List Entry) (positive : 0 < size) :
    (chunks size entries).length = divCeil entries.length size := by
  induction entries using chunks.induct size with
  | case1 entries stop =>
    have empty : entries = [] := stop.resolve_right (Nat.pos_iff_ne_zero.mp positive)
    subst empty
    unfold chunks divCeil
    rw [if_pos (Or.inl rfl), length_nil, length_nil]
    exact (Nat.div_eq_of_lt (by omega)).symm
  | case2 entries going ih =>
    have nonempty := length_pos_of_ne_nil (not_or.mp going).1
    rw [chunks, if_neg going, length_cons, ih, length_drop]
    unfold divCeil
    rw [← Nat.add_div_right _ positive]
    by_cases short : entries.length ≤ size
    · have quotient : (entries.length - size + size - 1 + size) / size = 1 := by
        rw [Nat.sub_eq_zero_of_le short, Nat.zero_add]
        exact Nat.div_eq_of_lt_le (by omega) (by omega)
      rw [quotient]
      exact (Nat.div_eq_of_lt_le (by omega) (by omega)).symm
    · congr 1
      omega

theorem chunks_single {size : Nat} {entries : List Entry} (nonempty : entries ≠ [])
    (short : entries.length ≤ size) : chunks size entries = [entries] := by
  have positive : size ≠ 0 := by
    have some := length_pos_of_ne_nil nonempty
    omega
  rw [chunks, if_neg (by simp [nonempty, positive]), take_of_length_le short,
    drop_of_length_le short, chunks, if_pos (Or.inl rfl)]

theorem chunks_map {Image : Type} {size : Nat} (view : Entry → Image) (entries : List Entry) :
    chunks size (entries.map view) = (chunks size entries).map (List.map view) := by
  induction entries using chunks.induct size with
  | case1 entries stop =>
    have mapped : entries.map view = [] ∨ size = 0 := stop.imp map_eq_nil_iff.mpr id
    rw [chunks, if_pos mapped, chunks, if_pos stop]
    rfl
  | case2 entries going ih =>
    have mapped : ¬(entries.map view = [] ∨ size = 0) := fun either =>
      going (either.imp map_eq_nil_iff.mp id)
    have whole : chunks size entries = entries.take size :: chunks size (entries.drop size) := by
      rw [chunks, if_neg going]
    rw [chunks, if_neg mapped, whole, map_cons, ← ih, map_take, map_drop]

theorem mem_chunks_length {size : Nat} {entries chunk : List Entry}
    (mem : chunk ∈ chunks size entries) : chunk.length ≤ size := by
  induction entries using chunks.induct size with
  | case1 entries stop =>
    rw [chunks, if_pos stop] at mem
    exact absurd mem not_mem_nil
  | case2 entries going ih =>
    rw [chunks, if_neg going] at mem
    rcases mem_cons.mp mem with rfl | later
    · rw [length_take]
      exact Nat.min_le_left _ _
    · exact ih later

theorem chunks_full {size : Nat} (positive : 0 < size) (groups : Nat) {entries : List Entry}
    (whole : entries.length = groups * size) :
    (chunks size entries).length = groups ∧ ∀ chunk ∈ chunks size entries, chunk.length = size := by
  induction groups generalizing entries with
  | zero =>
    rw [Nat.zero_mul, length_eq_zero_iff] at whole
    subst whole
    rw [chunks, if_pos (Or.inl rfl)]
    simp
  | succ groups ih =>
    rw [Nat.succ_mul] at whole
    have nonempty : entries ≠ [] := by
      intro empty
      rw [empty, length_nil] at whole
      omega
    have later := @ih (entries.drop size) (by rw [length_drop]; omega)
    rw [chunks, if_neg (by simp [nonempty, Nat.ne_of_gt positive])]
    refine ⟨by rw [length_cons, later.1], ?_⟩
    intro chunk mem
    rcases mem_cons.mp mem with rfl | inLater
    · rw [length_take]
      omega
    · exact later.2 chunk inLater

theorem chunks_before_last {size : Nat} (entries : List Entry) {c : Nat} {chunk : List Entry}
    (stored : (chunks size entries)[c]? = some chunk)
    (before : c + 1 < (chunks size entries).length) : chunk.length = size := by
  induction entries using chunks.induct size generalizing c with
  | case1 entries stop =>
    rw [chunks, if_pos stop] at stored
    cases stored
  | case2 entries going ih =>
    rw [chunks, if_neg going] at stored before
    cases c with
    | zero =>
      rw [getElem?_cons_zero, Option.some.injEq] at stored
      by_cases short : entries.length ≤ size
      · rw [drop_eq_nil_of_le short, chunks, if_pos (Or.inl rfl)] at before
        simp at before
      · rw [← stored, length_take]
        omega
    | succ c =>
      rw [getElem?_cons_succ] at stored
      rw [length_cons] at before
      exact ih stored (by omega)

section Positive

variable {size : Nat} (positive : 0 < size)

include positive

theorem chunks_flatten_eq (entries : List Entry) : (chunks size entries).flatten = entries := by
  induction entries using chunks.induct size with
  | case1 entries stop =>
    rw [chunks, if_pos stop, stop.resolve_right positive.ne']
    rfl
  | case2 entries going ih =>
    rw [chunks, if_neg going, flatten_cons, ih, take_append_drop]

theorem mem_chunk {entries chunk : List Entry} (mem : chunk ∈ chunks size entries) {entry : Entry}
    (inside : entry ∈ chunk) : entry ∈ entries := by
  rw [← chunks_flatten_eq positive entries]
  exact mem_flatten.mpr ⟨chunk, mem, inside⟩

end Positive

/-- `chunk_by_degree` on the inputs or on their degrees; `chunks(0)` panics. -/
def chunkByDegree (lookup : BatchedArgument) (inputs : List Entry) (csDegree : Nat) :
    Option (List (List Entry)) := do
  let nb ← lookup.nbParallelLookupsPerChunk csDegree
  if nb = 0 then none else return chunks nb inputs

end Chunks

variable (cs : ConstraintSystem)

def adviceReadColumns : List Nat :=
  cs.phases.flatMap fun currentPhase =>
    (range cs.adviceColumnPhase.length).filter fun column =>
      cs.adviceColumnPhase.getD column 0 = currentPhase

/-- Advice, multiplicities, permutation products, helpers and accumulators,
trashcans, quotient limbs. -/
def verifierCommitmentReads (singleHCommitment : Bool) (csDegree : Nat)
    (lookupChunks : List Nat) : List CommitmentRead :=
  (adviceReadColumns cs).map (fun _ => CommitmentRead.advice) ++
    cs.lookups.map (fun _ => CommitmentRead.lookupMultiplicity) ++
    (chunks (csDegree - 2) cs.permutationColumns).map (fun _ => CommitmentRead.permutationProduct) ++
    lookupChunks.flatMap (fun numChunks =>
      (range numChunks).map (fun _ => CommitmentRead.lookupHelper) ++ [CommitmentRead.lookupAccumulator]) ++
    cs.trashcans.map (fun _ => CommitmentRead.trash) ++
    (range (if singleHCommitment then 1 else csDegree - 1)).map (fun _ => CommitmentRead.quotient)

/-- `Committed::evaluate` of the permutation argument: `last` only while sets remain. -/
def permutationReads {Entry : Type} (entry : Nat → PermutationZEval → Entry) :
    Nat → Nat → List Entry
  | _, 0 => []
  | set, remaining + 1 =>
    [entry set .cur, entry set .next] ++ (if 0 < remaining then [entry set .last] else []) ++
      permutationReads entry (set + 1) remaining

/-- `Committed::evaluate` of one lookup. -/
def lookupReads (lookup numChunks : Nat) : List EvalRead :=
  [EvalRead.lookupMultiplicity lookup] ++ (range numChunks).map (EvalRead.lookupHelper lookup) ++
    [EvalRead.lookupAccumulator lookup 0, .lookupAccumulator lookup 1]

def fixedReadCount : Nat := cs.numFixedColumns - cs.numSimpleSelectors

/-- One pass of `fixed_evals.insert(idx, F::ONE)`; `none` entries are the ones. -/
def insertSimpleSelector (evals : List (Option Nat)) (query : QueryKey × Nat) :
    Option (List (Option Nat)) :=
  if cs.hasSimpleSelectorCol query.1.column then
    if query.2 ≤ evals.length then some (evals.insertIdx query.2 none) else none
  else some evals

/-- `fixed_evals`, where `some k` is the `k`-th scalar read. -/
def verifierFixedEvals : Option (List (Option Nat)) :=
  cs.fixedQueries.zipIdx.foldlM (insertSimpleSelector cs)
    ((range (fixedReadCount cs)).map some)

/-- The fixed query that uses the `k`-th fixed scalar. -/
def fixedReadLabel (evals : List (Option Nat)) (scalar : Nat) : Option EvalRead :=
  cs.fixedQueries[evals.idxOf (some scalar)]?.map .fixed

def verifierFixedReads : Option (List EvalRead) := do
  let evals ← verifierFixedEvals cs
  (range (fixedReadCount cs)).mapM (fixedReadLabel cs evals)

/-- Every scalar read behind the challenge `x`, in order. -/
def verifierEvalReads (nbCommittedInstances csDegree : Nat) (lookupChunks : List Nat) :
    Option (List EvalRead) := do
  let fixedReads ← verifierFixedReads cs
  return (cs.instanceQueries.filter (·.column < nbCommittedInstances)).map .committedInstance ++
    cs.adviceQueries.map .advice ++ fixedReads ++
    cs.permutationColumns.map .permutationCommon ++
    permutationReads .permutationZ 0 (chunks (csDegree - 2) cs.permutationColumns).length ++
    lookupChunks.zipIdx.flatMap (fun (numChunks, lookup) => lookupReads lookup numChunks) ++
    (range cs.trashcans.length).map .trash

variable {cs}

/-- Scalars counted off along the queries that are not simple selectors. -/
def fixedRanks (cs : ConstraintSystem) : Nat → List QueryKey → List (Option Nat)
  | _, [] => []
  | rank, query :: queries =>
    if cs.hasSimpleSelectorCol query.column then none :: fixedRanks cs rank queries
    else some rank :: fixedRanks cs (rank + 1) queries

def opensFixed (cs : ConstraintSystem) (query : QueryKey) : Bool :=
  ! cs.hasSimpleSelectorCol query.column

theorem insert_behind_prefix {Entry : Type} (processed rest : List Entry) (entry : Entry) :
    (processed ++ rest).insertIdx processed.length entry = processed ++ entry :: rest := by
  induction processed with
  | nil => rfl
  | cons head processed ih =>
    rw [cons_append, length_cons, insertIdx_succ_cons, ih, cons_append]

theorem map_m_of_map {Input Output : Type} {lookup : Input → Option Output} {inputs : List Input}
    {outputs : List Output} (found : inputs.map lookup = outputs.map some) :
    inputs.mapM lookup = some outputs := by
  induction inputs generalizing outputs with
  | nil =>
    cases outputs with
    | nil => rfl
    | cons output outputs => cases found
  | cons input inputs ih =>
    cases outputs with
    | nil => cases found
    | cons output outputs =>
      rw [map_cons, map_cons, List.cons.injEq] at found
      rw [mapM_cons, found.1, ih found.2]
      rfl

theorem insertion_loop_ranks (queries : List QueryKey) (processed : List (Option Nat))
    (rank count : Nat) (enough : (queries.filter (opensFixed cs)).length = count) :
    (queries.zipIdx processed.length).foldlM (insertSimpleSelector cs)
        (processed ++ (range' rank count).map some) =
      some (processed ++ fixedRanks cs rank queries) := by
  induction queries generalizing processed rank count with
  | nil =>
    subst enough
    simp [fixedRanks]
  | cons query queries ih =>
    rw [zipIdx_cons, foldlM_cons]
    cases simple : cs.hasSimpleSelectorCol query.column with
    | true =>
      have inserted : insertSimpleSelector cs
          (processed ++ (range' rank count).map some) (query, processed.length) =
          some ((processed ++ [none]) ++ (range' rank count).map some) := by
        simp [insertSimpleSelector, simple, insert_behind_prefix]
      have rest := ih (processed ++ [none]) rank count
        (by simpa [opensFixed, simple] using enough)
      rw [length_append, length_singleton] at rest
      rw [inserted]
      simpa [fixedRanks, simple] using rest
    | false =>
      cases count with
      | zero => simp [opensFixed, simple] at enough
      | succ count =>
        have kept : insertSimpleSelector cs
            (processed ++ (range' rank (count + 1)).map some)
            (query, processed.length) =
            some ((processed ++ [some rank]) ++
              (range' (rank + 1) count).map some) := by
          simp [insertSimpleSelector, simple, range'_succ]
        have rest := ih (processed ++ [some rank]) (rank + 1) count
          (by simpa [opensFixed, simple] using enough)
        rw [length_append, length_singleton] at rest
        rw [kept]
        simpa [fixedRanks, simple] using rest

theorem ranks_label_queries (queries : List QueryKey) (rank : Nat) :
    (range' rank (queries.filter (opensFixed cs)).length).map (fun scalar =>
        queries[(fixedRanks cs rank queries).idxOf (some scalar)]?) =
      (queries.filter (opensFixed cs)).map some := by
  induction queries generalizing rank with
  | nil => simp
  | cons query queries ih =>
    cases simple : cs.hasSimpleSelectorCol query.column with
    | true =>
      have skip : ∀ scalar : Nat,
          (fixedRanks cs rank (query :: queries)).idxOf (some scalar) =
            (fixedRanks cs rank queries).idxOf (some scalar) + 1 := by
        intro scalar
        simp [fixedRanks, simple]
      have closed : opensFixed cs query = false := by simp [opensFixed, simple]
      rw [filter_cons_of_neg (by simp [closed])]
      simpa only [skip, getElem?_cons_succ] using ih rank
    | false =>
      have opened : opensFixed cs query = true := by simp [opensFixed, simple]
      have here : (fixedRanks cs rank (query :: queries)).idxOf (some rank) = 0 := by
        simp [fixedRanks, simple]
      have later : ∀ scalar ∈ range' (rank + 1) (queries.filter (opensFixed cs)).length,
          (query :: queries)[(fixedRanks cs rank (query :: queries)).idxOf (some scalar)]? =
            queries[(fixedRanks cs (rank + 1) queries).idxOf (some scalar)]? := by
        intro scalar mem
        have above := (mem_range'_1.mp mem).1
        have different : (some rank == some scalar) = false := by
          simp only [beq_eq_false_iff_ne, ne_eq, Option.some.injEq]
          omega
        simp [fixedRanks, simple, idxOf_cons, different]
      rw [filter_cons_of_pos opened, length_cons, range'_succ, map_cons,
        here, map_congr_left later, ih (rank + 1)]
      rfl

theorem verifier_fixed_reads
    (counted : (cs.fixedQueries.filter (opensFixed cs)).length = fixedReadCount cs) :
    verifierFixedReads cs = some ((cs.fixedQueries.filter (opensFixed cs)).map .fixed) := by
  have evals := insertion_loop_ranks cs.fixedQueries [] 0 (fixedReadCount cs) counted
  have labels := @ranks_label_queries cs cs.fixedQueries 0
  rw [nil_append, nil_append, length_nil, ← range_eq_range'] at evals
  rw [counted, ← range_eq_range'] at labels
  have computed : verifierFixedEvals cs = some (fixedRanks cs 0 cs.fixedQueries) := evals
  unfold verifierFixedReads
  rw [computed]
  apply map_m_of_map
  calc (range (fixedReadCount cs)).map (fixedReadLabel cs (fixedRanks cs 0 cs.fixedQueries))
      = ((range (fixedReadCount cs)).map fun scalar => cs.fixedQueries[
          (fixedRanks cs 0 cs.fixedQueries).idxOf (some scalar)]?).map (Option.map .fixed) := by
        rw [map_map]
        rfl
    _ = ((cs.fixedQueries.filter (opensFixed cs)).map .fixed).map some := by
        rw [labels, map_map, map_map]
        rfl

def advicePosition (phases : List Nat) (column : Nat) : Nat :=
  phases.countP (· < phases.getD column 0) +
    (phases.take column).count (phases.getD column 0)

def phaseColumns (phases : List Nat) (phase : Nat) : List Nat :=
  (range phases.length).filter fun column => phases.getD column 0 = phase

section

variable (phases : List Nat)

include phases

theorem phase_of_prefix (count : Nat) (inside : count ≤ phases.length) :
    (range count).map (fun column => phases.getD column 0) = phases.take count := by
  apply ext_getElem
  · simp [inside]
  · intro column left right
    have bound : column < phases.length := by simp at left; omega
    simp [getElem?_eq_getElem bound]

theorem prefix_phase_count (phase count : Nat) (inside : count ≤ phases.length) :
    ((range count).filter fun column => phases.getD column 0 = phase).length =
      (phases.take count).count phase := by
  rw [← phase_of_prefix phases count inside, List.count, countP_map, countP_eq_length_filter]
  rfl

theorem phase_columns_length (phase : Nat) :
    (phaseColumns phases phase).length = phases.count phase := by
  have counted := prefix_phase_count phases phase phases.length le_rfl
  rwa [take_length] at counted

theorem count_below_succ (phase : Nat) :
    phases.countP (· < phase + 1) = phases.countP (· < phase) + phases.count phase := by
  induction phases with
  | nil => rfl
  | cons head phases ih =>
    simp only [countP_cons, count_cons, beq_iff_eq, decide_eq_true_eq]
    split_ifs <;> omega

theorem earlier_phases_length (phase : Nat) :
    ((range phase).flatMap (phaseColumns phases)).length = phases.countP (· < phase) := by
  induction phase with
  | zero => simp
  | succ phase ih =>
    rw [range_succ, flatMap_append, length_append, ih,
      flatMap_singleton, phase_columns_length, count_below_succ]

theorem phase_columns_position (column : Nat) (inside : column < phases.length) :
    (phaseColumns phases (phases.getD column 0))[
      (phases.take column).count (phases.getD column 0)]? = some column := by
  have split : range phases.length = range column ++
      column :: (range (phases.length - column - 1)).map (column + 1 + ·) := by
    have total : phases.length = column + (1 + (phases.length - column - 1)) := by omega
    conv_lhs => rw [total, range_add, range_add]
    simp [Nat.add_assoc]
  have before := prefix_phase_count phases (phases.getD column 0) column inside.le
  rw [phaseColumns, split, filter_append, getElem?_append_right (by rw [before]),
    before, Nat.sub_self, filter_cons_of_pos (by simp), getElem?_cons_zero]

end

theorem advice_read_position (cs : ConstraintSystem) (column : Nat)
    (inside : column < cs.adviceColumnPhase.length) :
    (adviceReadColumns cs)[advicePosition cs.adviceColumnPhase column]? = some column := by
  have listed : cs.adviceColumnPhase.getD column 0 ∈ cs.adviceColumnPhase := by
    rw [getD_eq_getElem?_getD, getElem?_eq_getElem inside]
    exact getElem_mem inside
  have bounded : cs.adviceColumnPhase.getD column 0 ≤ maxOr 0 cs.adviceColumnPhase :=
    le_max_or listed
  have total : maxOr 0 cs.adviceColumnPhase + 1 = cs.adviceColumnPhase.getD column 0 +
      (1 + (maxOr 0 cs.adviceColumnPhase - cs.adviceColumnPhase.getD column 0)) := by omega
  have order : adviceReadColumns cs =
      (range (maxOr 0 cs.adviceColumnPhase + 1)).flatMap
        (phaseColumns cs.adviceColumnPhase) := rfl
  rw [order, total, range_add, flatMap_append, range_add, map_append, flatMap_append,
    advicePosition, getElem?_append_right (by rw [earlier_phases_length]; omega),
    earlier_phases_length, Nat.add_sub_cancel_left]
  have here := phase_columns_position cs.adviceColumnPhase column inside
  have bound := (List.getElem?_eq_some_iff.mp here).1
  rw [getElem?_append_left]
  · simpa using here
  · simpa using bound

theorem advice_read_columns_length (cs : ConstraintSystem) :
    (adviceReadColumns cs).length = cs.adviceColumnPhase.length := by
  have order : adviceReadColumns cs =
      (range (maxOr 0 cs.adviceColumnPhase + 1)).flatMap
        (phaseColumns cs.adviceColumnPhase) := rfl
  rw [order, earlier_phases_length, countP_eq_length]
  intro phase mem
  have bounded : phase ≤ maxOr 0 cs.adviceColumnPhase := le_max_or mem
  exact decide_eq_true (by omega)

end Midfall.ProofReadOrder
