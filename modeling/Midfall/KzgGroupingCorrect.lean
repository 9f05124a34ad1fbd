import Midfall.KzgQueryGrouping

/-!
# Both groupings compute the batches of their openings

When no commitment is opened twice at one point, the generator and the Rust
verifier accept the queries, add the missing shared points as dummies, and
return the batches of `OpeningGroups`.
-/

namespace Midfall.KzgGroupingCorrect

open ListLoops OpeningGroups VerifierMemory VerifierData
open Option (bind_eq_bind bind_some getD_some map_some)
open List hiding keys mem_keys
open KzgQueryGrouping

set_option autoImplicit false
/-! ### Lists and loops -/

theorem group_by_set_eq {Entry : Type} (setIndex : Entry → Nat) (count : Nat)
    (entries : List Entry) :
    groupBySet setIndex count entries =
      (range count).map fun set => entries.filter fun entry => decide (setIndex entry = set) := by
  unfold groupBySet
  induction entries using List.reverseRecOn with
  | nil =>
    simp only [foldl_nil, filter_nil, map_const', length_range]
  | append_singleton entries last ih =>
    rw [foldl_append, ih, foldl_cons, foldl_nil]
    apply ext_getElem?
    intro set
    rw [getElem?_modify, getElem?_map, getElem?_map]
    by_cases inside : set < count
    · rw [getElem?_range inside]
      simp only [map_some, filter_append, filter_singleton]
      by_cases here : setIndex last = set <;> simp [here]
    · rw [getElem?_eq_none (by simpa using inside)]
      simp

theorem sort_order_perm {Point : Type} (sets : List (List Point)) :
    (sortOrder sets).Perm (range sets.length) := by
  exact perm_insertionSort _ _

theorem sort_order_congr {Left Right : Type} {left : List (List Left)} {right : List (List Right)}
    (sizes : left.map List.length = right.map List.length) : sortOrder left = sortOrder right := by
  have counts : left.length = right.length := by simpa using congrArg List.length sizes
  have size : ∀ position, (left.getD position []).length = (right.getD position []).length := by
    intro position
    have entry := congrArg (fun lengths => lengths[position]?) sizes
    simp only [getElem?_map] at entry
    rw [getD_eq_getElem?_getD, getD_eq_getElem?_getD]
    cases first : left[position]? <;> cases second : right[position]? <;> simp_all
  unfold sortOrder
  rw [counts]
  congr 1
  · funext first second
    simp only [Precedes, size]

theorem remap_get {order : List Nat} (permuted : order.Perm (range order.length))
    {old : Nat} (mem : old ∈ order) :
    (Codegen.remap order).getD old 0 = order.idxOf old := by
  have below : ∀ position ∈ order, position < order.length := by
    intro position found
    exact mem_range.mp (permuted.mem_iff.mp found)
  have distinct : order.Nodup := permuted.nodup_iff.mpr nodup_range
  have positions : Codegen.remap order = order.zipIdx.foldl (fun remap entry =>
      remap.set entry.1 entry.2) (replicate order.length 0) := rfl
  have written : order.zipIdx.foldl (fun remap entry => remap.set entry.1 entry.2)
        (replicate order.length 0) =
      order.zipIdx.foldl (fun remap entry =>
        remap.set ((range order.length).idxOf entry.1) entry.2)
        ((range order.length).map fun _ => 0) := by
    rw [map_const', length_range]
    apply foldl_ext
    intro remap entry found
    obtain ⟨position, new⟩ := entry
    have listed : position ∈ order := by
      have inFirst := mem_map_of_mem (f := Prod.fst) found
      rwa [zipIdx_map_fst] at inFirst
    rw [idx_of_range (below position listed)]
  have firsts : (order.zipIdx.map (·.1)).Nodup := by
    rw [zipIdx_map_fst]
    exact distinct
  rw [positions, written, fill_slots nodup_range _ firsts, getD_eq_getElem?_getD,
    getElem?_map, getElem?_range (below old mem), map_some, getD_some,
    zipIdx_eq_zip_range', lookup_zip_range _ _ mem (by simp), ← range_eq_range',
    getElem?_range (idxOf_lt_length_of_mem mem), getD_some]

/-! ### Dummy queries -/

section Dummies

variable {Key Point Value : Type} [DecidableEq Key] [DecidableEq Point]

def pairOf (opening : Opening Key Point Value) : Key × Point := (opening.key, opening.point)

def groupAt (openings : List (Opening Key Point Value)) (key : Key)
    (group : List (Opening Key Point Value)) : Nat × List Point :=
  ((openings.map (·.key)).idxOf key, group.map (·.point))

variable {openings : List (Opening Key Point Value)}

variable {first later : List (Opening Key Point Value)}

omit [DecidableEq Point] in
theorem group_test (split : openings = first ++ later) (key : Key) : ∀ other ∈ keys first,
      decide (((openings.map pairOf)[(groupAt openings other (ofKey first other)).1]?).map (·.1) =
        some key) = decide (other = key) := by
  intro other mem
  have listed : other ∈ openings.map (·.key) := by
    rw [split, map_append]
    exact mem_append_left _ (mem_eraseDups.mp mem)
  have found : ((openings.map pairOf)[(openings.map (·.key)).idxOf other]?).map (·.1) =
      some other := by
    rw [← getElem?_map, map_map]
    exact getElem?_idxOf listed
  rw [groupAt, found, decide_eq_decide, Option.some.injEq]

omit [DecidableEq Point] in
theorem fresh_point (distinct : Distinct openings) {next : Opening Key Point Value}
    (split : openings = first ++ next :: later) :
    next.point ∉ (ofKey first next.key).map (·.point) := by
  intro repeated
  have earlier := (mem_points_of first).mp repeated
  rw [split, Distinct, map_append, map_cons] at distinct
  exact (nodup_append.mp distinct).2.2 _ earlier _ mem_cons_self rfl

theorem verifier_groups (distinct : Distinct openings) (first later : List (Opening Key Point Value))
    (split : openings = first ++ later) :
    (first.map pairOf).zipIdx.foldlM (Verifier.groupPair (openings.map pairOf)) [] =
      .ok (table first (groupAt openings)) := by
  induction first using List.reverseRecOn generalizing later with
  | nil => rfl
  | append_singleton first next ih =>
    have splitNext : openings = first ++ next :: later := by rw [split]; simp
    rw [map_append, zipIdx_append, foldlM_append, ih (next :: later) splitNext]
    have step : Verifier.groupPair (openings.map pairOf) (table first (groupAt openings))
        (pairOf next, first.length) = .ok (table (first ++ [next]) (groupAt openings)) := by
      have tested := group_test splitNext next.key
      unfold Verifier.groupPair pairOf
      dsimp only
      rw [find_table _ _ tested]
      by_cases seen : next.key ∈ keys first
      · rw [if_pos seen]
        dsimp only [groupAt]
        rw [if_neg (fresh_point distinct splitNext)]
        congr 1
        symm
        apply table_snoc_seen _ _ _ seen tested
        intro group
        simp [groupAt]
      · rw [if_neg seen]
        dsimp only
        rw [table_snoc_fresh _ _ seen]
        have position : (openings.map (·.key)).idxOf next.key = first.length := by
          have absent : next.key ∉ first.map (·.key) := fun mem =>
            seen (mem_eraseDups.mpr mem)
          rw [splitNext, map_append, map_cons, idxOf_append_of_notMem absent,
            idxOf_cons_self, length_map, Nat.add_zero]
        simp [groupAt, position]
    simp only [map_singleton, length_map, zipIdx_singleton, Nat.zero_add]
    exact (bind_pure _).trans step

omit [DecidableEq Point] in
theorem points_of_nonempty {key : Key} (mem : key ∈ keys openings) :
    0 < (pointsOf openings key).length := by
  rcases (mem_keys openings).mp mem with ⟨opening, present, rfl⟩
  apply length_pos_of_mem
  exact (mem_points_of openings).mpr (mem_map_of_mem present)

/-- Shared points, from the groups; the planners skip singletons. -/
theorem groups_union {loop : List Point → Nat × List Point → List Point}
    (step : ∀ union group, 0 < group.2.length → loop union group =
      if 1 < group.2.length then group.2.foldl pushNew union else union) :
    (table openings (groupAt openings)).foldl loop [] = sharedPoints openings := by
  unfold sharedPoints table
  rw [← foldl_push_new, ← foldl_push_new_flat_map, foldl_filter, foldl_map]
  apply foldl_ext
  intro union key mem
  rw [step _ _ (by simpa [groupAt, pointsOf] using points_of_nonempty mem)]
  simp [groupAt, pointsOf]

theorem groups_missing {Dummy : Type} (dummy : Nat → Point → Dummy) :
    ((table openings (groupAt openings)).flatMap fun group =>
        ((sharedPoints openings).filter fun point => decide (point ∉ group.2)).map
          (dummy group.1)) =
      (missing openings).map fun entry => dummy ((openings.map (·.key)).idxOf entry.1) entry.2 := by
  unfold missing table
  rw [flatMap_map, map_flatMap]
  apply flatMap_congr
  intro key mem
  rw [map_map]
  rfl

/-- The Rust planner returns the missing openings by first query and point. -/
theorem verifier_dummies (distinct : Distinct openings) :
    Verifier.computeDummyQueries (openings.map pairOf) =
      .ok ((missing openings).map fun entry =>
        ((openings.map (·.key)).idxOf entry.1, entry.2)) := by
  have groups := verifier_groups distinct openings [] (by simp)
  have skips_singletons : ∀ (union : List Point) (group : Nat × List Point), 0 < group.2.length →
      (if group.2.length = 1 then union else group.2.foldl pushNew union) =
        if 1 < group.2.length then group.2.foldl pushNew union else union := by
    intro union group pos
    split_ifs <;> first | rfl | omega
  simp only [Verifier.computeDummyQueries, groups, bind, Except.bind, pure, Except.pure]
  rw [groups_union skips_singletons]
  exact congrArg Except.ok (groups_missing Prod.mk)

end Dummies

def codegenOpening (query : Query) : Opening EcPoint Int Word :=
  { key := query.comm, point := query.rotation, value := query.eval }

/-- Where the Rust planner accepts a pair, the generator's planner does the same. -/
theorem group_query_of_pair {queries : List Query} {groups next : List (Nat × List Int)}
    {entry : Query × Nat}
    (accepted : Verifier.groupPair (queries.map fun query => (query.comm, query.rotation)) groups
      ((entry.1.comm, entry.1.rotation), entry.2) = .ok next) :
    Codegen.groupQuery queries groups entry = next := by
  have sameTest : (fun group : Nat × List Int =>
        decide (((queries.map fun query => (query.comm, query.rotation))[group.1]?).map (·.1) =
          some entry.1.comm)) =
      fun group => decide (queries[group.1]?.map (·.comm) = some entry.1.comm) := by
    funext group
    rw [getElem?_map, Option.map_map]
    rfl
  unfold Verifier.groupPair at accepted
  unfold Codegen.groupQuery
  dsimp only at accepted ⊢
  rw [sameTest] at accepted
  split at accepted
  · rename_i points found
    rw [found]
    split_ifs at accepted with repeated
    simp only [Except.ok.injEq] at accepted
    rw [← accepted]
    exact if_neg repeated
  · rename_i absent
    rw [absent]
    simpa using accepted

theorem codegen_groups {queries : List Query} (entries : List (Query × Nat))
    (groups final : List (Nat × List Int))
    (accepted : (entries.map fun entry => ((entry.1.comm, entry.1.rotation), entry.2)).foldlM
      (Verifier.groupPair (queries.map fun query => (query.comm, query.rotation))) groups =
        .ok final) :
    entries.foldl (Codegen.groupQuery queries) groups = final := by
  induction entries generalizing groups with
  | nil => exact Except.ok.inj accepted
  | cons entry entries ih =>
    rw [map_cons, foldlM_cons] at accepted
    rw [foldl_cons]
    cases step : Verifier.groupPair (queries.map fun query => (query.comm, query.rotation)) groups
        ((entry.1.comm, entry.1.rotation), entry.2) with
    | error failure =>
      rw [step] at accepted
      cases accepted
    | ok next =>
      rw [step] at accepted
      rw [group_query_of_pair step]
      exact ih next accepted

theorem codegen_dummies {queries : List Query} (distinct : Distinct (queries.map codegenOpening)) :
    Codegen.computeDummyQueries queries =
      (missing (queries.map codegenOpening)).map fun entry =>
        { queryIndex := (queries.map (·.comm)).idxOf entry.1, rotation := entry.2 } := by
  have groups := verifier_groups distinct (queries.map codegenOpening) [] (by simp)
  have indexed : queries.zipIdx.map (fun entry => ((entry.1.comm, entry.1.rotation), entry.2)) =
      (((queries.map codegenOpening).map pairOf)).zipIdx := by
    rw [map_map, zipIdx_map]
    rfl
  have pairs : queries.map (fun query => (query.comm, query.rotation)) =
      (queries.map codegenOpening).map pairOf := by
    rw [map_map]
    rfl
  have planned := codegen_groups queries.zipIdx [] _ (by rw [indexed, pairs, groups])
  have comms : (queries.map codegenOpening).map (·.key) = queries.map (·.comm) := by
    rw [map_map]
    rfl
  have skips_small : ∀ (union : List Int) (group : Nat × List Int), 0 < group.2.length →
      (if group.2.length ≤ 1 then union else group.2.foldl pushNew union) =
        if 1 < group.2.length then group.2.foldl pushNew union else union := by
    intro union group pos
    split_ifs <;> first | rfl | omega
  unfold Codegen.computeDummyQueries
  rw [planned]
  dsimp only
  rw [groups_union skips_small, ← comms]
  exact groups_missing Codegen.DummyQuery.mk

theorem first_query_of_key {Query Key Point Value : Type} [DecidableEq Key] [DecidableEq Point]
    {queries : List Query} (opening : Query → Opening Key Point Value) {key : Key}
    (mem : key ∈ keys (queries.map opening)) :
    ∃ query, queries[((queries.map opening).map (·.key)).idxOf key]? = some query ∧
      (opening query).key = key := by
  have found := getElem?_idxOf (mem_eraseDups.mp mem)
  rw [map_map, getElem?_map, Option.map_eq_some_iff] at found
  rw [map_map]
  exact found

theorem codegen_padded {queries : List Query} (distinct : Distinct (queries.map codegenOpening))
    (words : List Word) (counted : words.length = (missing (queries.map codegenOpening)).length) :
    ∃ padding, Codegen.augmentQueriesWithDummies queries words = some padding ∧
      padding.map codegenOpening = padded (queries.map codegenOpening) words := by
  have comms : (queries.map codegenOpening).map (·.key) = queries.map (·.comm) := by
    rw [map_map]
    rfl
  have added : ((missing (queries.map codegenOpening)).zip words).mapM (fun entry => do
        let raw ← queries[(queries.map (·.comm)).idxOf entry.1.1]?
        return ({ rotation := entry.1.2, comm := raw.comm, eval := entry.2 } : Query)) =
      some (((missing (queries.map codegenOpening)).zip words).map fun entry =>
        { rotation := entry.1.2, comm := entry.1.1, eval := entry.2 }) := by
    apply map_m_of_forall
    intro entry mem
    have inKeys := ((mem_missing _).mp (of_mem_zip mem).1).1
    rcases first_query_of_key codegenOpening inKeys with ⟨raw, found, sameComm⟩
    rw [comms] at found
    have rawComm : raw.comm = entry.1.1 := sameComm
    rw [found]
    simp [rawComm]
  refine ⟨queries ++ ((missing (queries.map codegenOpening)).zip words).map fun entry =>
    { rotation := entry.1.2, comm := entry.1.1, eval := entry.2 }, ?_, ?_⟩
  · unfold Codegen.augmentQueriesWithDummies
    rw [codegen_dummies distinct]
    simp only [length_map, counted, guard_true, Option.pure_def, bind_eq_bind,
      bind_some, zip_map_left, mapM_map] at added ⊢
    simp only [Prod.map, id, Function.comp_def, added, bind_some]
  · unfold padded
    rw [map_append, map_map]
    rfl

section Verifier

variable {Label Commitment Field : Type} [DecidableEq Commitment] [DecidableEq Field]

def verifierOpening (query : Verifier.VerifierQuery Label Commitment Field) :
    Opening Commitment Field Field :=
  { key := query.commitment, point := query.point, value := query.eval }

theorem verifier_padded {queries : List (Verifier.VerifierQuery Label Commitment Field)}
    (distinct : Distinct (queries.map verifierOpening)) (readEval : Nat → Field) :
    ∃ padding, Verifier.queriesWithDummies true queries readEval = .ok padding ∧
      padding.map verifierOpening = padded (queries.map verifierOpening)
        ((range (missing (queries.map verifierOpening)).length).map readEval) := by
  have pairs : queries.map (fun query => (query.commitment, query.point)) =
      (queries.map verifierOpening).map pairOf := by
    rw [map_map]
    rfl
  have returned : ∀ entry ∈ (missing (queries.map verifierOpening)).zipIdx,
      ∃ query, (do
        let query ← Verifier.unwrap
          queries[((queries.map verifierOpening).map (·.key)).idxOf entry.1.1]?
        return { query with point := entry.1.2, eval := readEval entry.2 } :
          Except Verifier.Failure (Verifier.VerifierQuery Label Commitment Field)) = pure query ∧
        verifierOpening query =
          { key := entry.1.1, point := entry.1.2, value := readEval entry.2 } := by
    intro entry mem
    have listed : entry.1 ∈ missing (queries.map verifierOpening) := by
      have inFirst := mem_map_of_mem (f := Prod.fst) mem
      rwa [zipIdx_map_fst] at inFirst
    rcases first_query_of_key verifierOpening ((mem_missing _).mp listed).1 with
      ⟨query, found, sameKey⟩
    refine ⟨{ query with point := entry.1.2, eval := readEval entry.2 }, ?_, ?_⟩
    · rw [found]
      rfl
    · rw [← sameKey]
      rfl
  rcases map_m_exists _ returned with ⟨added, computed, viewed⟩
  refine ⟨queries ++ added, ?_, ?_⟩
  · unfold Verifier.queriesWithDummies
    rw [if_pos rfl, pairs, verifier_dummies distinct]
    simp only [bind, Except.bind, zipIdx_map, mapM_map]
    simp only [bind, Except.bind] at computed
    simp only [Function.comp_def, Prod.map, id, computed]
    rfl
  · unfold padded
    rw [map_append, viewed, zipIdx_eq_zip_range', ← range_eq_range', zip_map_right, map_map]
    rfl

end Verifier

/-! ### Recording the queries -/

section Recording

variable {Key Point Value : Type} [DecidableEq Key] [DecidableEq Point]
  {openings : List (Opening Key Point Value)}

theorem fresh_index (distinct : Distinct openings) {first later : List (Opening Key Point Value)}
    {next : Opening Key Point Value} (split : openings = first ++ next :: later) :
    pointIndex openings next.point ∉
      (ofKey first next.key).map fun opening => pointIndex openings opening.point := by
  intro repeated
  rcases mem_map.mp repeated with ⟨opening, present, same⟩
  have inOpenings : opening ∈ openings := by
    rw [split]
    exact mem_append_left _ (mem_of_mem_filter present)
  have samePoint := point_index_injective openings (mem_map_of_mem inOpenings) same
  exact fresh_point distinct split (samePoint ▸ mem_map_of_mem present)

/-- Each query adds its point, and its claim to the entry of its key. -/
theorem recorded_table {Query Entry : Type} {M : Type → Type} [Monad M] [LawfulMonad M]
    {opening : Query → Opening Key Point Value} {entry : Key → List (Opening Key Point Value) → Entry}
    {record : List Point × List Entry → Query → M (List Point × List Entry)} {queries : List Query}
    (step : ∀ first next later, queries = first ++ next :: later →
      queries.map opening = first.map opening ++ opening next :: later.map opening →
        record (points (first.map opening), table (first.map opening) entry) next =
          pure (pushNew (points (first.map opening)) (opening next).point,
            table (first.map opening ++ [opening next]) entry)) :
    queries.foldlM record ([], []) = pure (points (queries.map opening), table (queries.map opening) entry) := by
  have prefixes : ∀ first later, queries = first ++ later → first.foldlM record ([], []) =
      pure (points (first.map opening), table (first.map opening) entry) := by
    intro first
    induction first using List.reverseRecOn with
    | nil => exact fun _ _ => rfl
    | append_singleton first next ih =>
      intro later split
      rw [append_assoc] at split
      rw [foldlM_append, ih _ split, map_append, map_singleton, points_snoc, pure_bind, foldlM_cons,
        step first next later split (by rw [split]; simp), pure_bind, foldlM_nil]
  exact prefixes queries [] (append_nil _).symm

end Recording

/-- Entry of a commitment in the generator's map. -/
def entryAt (openings : List (Opening EcPoint Int Word)) (comm : EcPoint)
    (group : List (Opening EcPoint Int Word)) : Codegen.MapEntry where
  comm := comm
  pointIndices := group.map fun opening => pointIndex openings opening.point
  evals := group.map (·.value)

theorem codegen_recorded {queries : List Query} (distinct : Distinct (queries.map codegenOpening)) :
    queries.foldlM Codegen.recordQuery ([], []) =
      some (points (queries.map codegenOpening),
        table (queries.map codegenOpening) (entryAt (queries.map codegenOpening))) := by
  apply recorded_table
  intro first next later _ split
  have index := next_point_index (first.map codegenOpening) (codegenOpening next)
    (later.map codegenOpening)
  rw [← split] at index
  have tested : ∀ comm ∈ keys (first.map codegenOpening),
      decide ((entryAt (queries.map codegenOpening) comm
        (ofKey (first.map codegenOpening) comm)).comm = next.comm) =
      decide (comm = (codegenOpening next).key) := fun comm _ => rfl
  unfold Codegen.recordQuery
  dsimp only
  rw [find_table _ _ tested]
  by_cases seen : (codegenOpening next).key ∈ keys (first.map codegenOpening)
  · rw [if_pos seen]
    dsimp only
    have absent : (points (first.map codegenOpening)).idxOf next.rotation ∉
        (entryAt (queries.map codegenOpening) (codegenOpening next).key
          (ofKey (first.map codegenOpening) (codegenOpening next).key)).pointIndices := by
      rw [show (points (first.map codegenOpening)).idxOf next.rotation =
        pointIndex (queries.map codegenOpening) (codegenOpening next).point from index]
      exact fresh_index distinct split
    rw [if_neg absent]
    congr 2
    symm
    apply table_snoc_seen _ _ _ seen tested
    intro group
    simp only [entryAt, map_append, map_singleton, ← index]
    rfl
  · rw [if_neg seen]
    dsimp only
    rw [table_snoc_fresh _ _ seen]
    simp only [entryAt, map_singleton, ← index]
    rfl

/-! ### Sets and values -/

section Sets

variable {Key Point Value : Type} [DecidableEq Key] [DecidableEq Point]
  {openings : List (Opening Key Point Value)}

def groupIndices (openings group : List (Opening Key Point Value)) : List Nat :=
  group.map fun opening => pointIndex openings opening.point

theorem group_indices_eq (key : Key) :
    groupIndices openings (ofKey openings key) = (claims openings key).map (·.1) := by
  unfold groupIndices claims
  rw [map_map]
  rfl

theorem sorted_indices_eq (distinct : Distinct openings) (key : Key) :
    Codegen.sortedIndices (groupIndices openings (ofKey openings key)) = indexSet openings key := by
  unfold Codegen.sortedIndices
  rw [group_indices_eq]
  exact destutter_of_isChain _ _ (index_set_nodup distinct key).isChain

theorem btree_set_eq (distinct : Distinct openings) (key : Key) :
    Verifier.btreeSet (groupIndices openings (ofKey openings key)) = indexSet openings key := by
  unfold Verifier.btreeSet indexSet
  rw [group_indices_eq, dedup_eq_self.mpr (claims_nodup distinct key)]

theorem mem_index_sets {set : List Nat} :
    set ∈ indexSets openings ↔ ∃ key ∈ keys openings, indexSet openings key = set := by
  rw [indexSets, mem_foldl_push_new, mem_map]

def setPoints (openings : List (Opening Key Point Value)) (set : List Nat) : List Point :=
  set.filterMap fun index => (points openings)[index]?

theorem point_sets_found :
    (indexSets openings).mapM (fun set => set.mapM fun index => (points openings)[index]?) =
      some ((indexSets openings).map (setPoints openings)) := by
  apply map_m_of_forall
  intro set mem
  rcases mem_index_sets.mp mem with ⟨key, -, rfl⟩
  apply map_m_filter_map
  intro index inSet
  exact ⟨_, getElem?_eq_getElem (index_set_below inSet)⟩

theorem set_points_length {set : List Nat} (mem : set ∈ indexSets openings) :
    (setPoints openings set).length = set.length := by
  rcases mem_index_sets.mp mem with ⟨key, -, rfl⟩
  have present : ∀ index ∈ indexSet openings key, ∃ point, (points openings)[index]? = some point :=
    fun index inSet => ⟨_, getElem?_eq_getElem (index_set_below inSet)⟩
  have found := map_m_filter_map (indexSet openings key) present
  exact (map_m_length found).symm

theorem set_sizes :
    ((indexSets openings).map (setPoints openings)).map List.length =
      (indexSets openings).map List.length := by
  rw [map_map]
  apply map_congr_left
  intro set mem
  exact set_points_length mem

end Sets

theorem codegen_aligned {openings : List (Opening EcPoint Int Word)} (distinct : Distinct openings)
    (comm : EcPoint) :
    Codegen.alignedEvals (indexSet openings comm)
        (entryAt openings comm (ofKey openings comm)) = some (values openings comm) := by
  have zipped : (groupIndices openings (ofKey openings comm)).zip
      ((ofKey openings comm).map (·.value)) = claims openings comm := by
    unfold groupIndices claims
    rw [zip_map']
  have written : ((claims openings comm).map fun claim => (claim.1, some claim.2)).foldl
        (fun aligned entry => aligned.set ((indexSet openings comm).idxOf entry.1) entry.2)
        ((indexSet openings comm).map fun _ => none) =
      (indexSet openings comm).map fun index => (claims openings comm).lookup index := by
    rw [fill_slots (index_set_nodup distinct comm)]
    · apply map_congr_left
      intro index mem
      rcases claims_lookup mem with ⟨value, found⟩
      rw [lookup_map_value some, found]
      rfl
    · rw [map_map]
      exact claims_nodup distinct comm
  unfold Codegen.alignedEvals
  have entries : (entryAt openings comm (ofKey openings comm)).pointIndices.zip
      (entryAt openings comm (ofKey openings comm)).evals = claims openings comm := zipped
  rw [foldl_map] at written
  rw [entries]
  have aligned := congrArg (List.mapM id) written
  refine Eq.trans aligned ?_
  rw [mapM_map]
  exact map_m_filter_map _ fun index mem => claims_lookup mem

theorem codegen_constructed {queries : List Query}
    (distinct : Distinct (queries.map codegenOpening)) :
    Codegen.constructIntermediateSets queries = some {
      commitments := (keys (queries.map codegenOpening)).map fun comm =>
        { setIndex := (indexSets (queries.map codegenOpening)).idxOf
            (indexSet (queries.map codegenOpening) comm)
          comm
          evals := values (queries.map codegenOpening) comm }
      pointSets := (indexSets (queries.map codegenOpening)).map
        (setPoints (queries.map codegenOpening)) } := by
  have recorded := codegen_recorded distinct
  generalize queries.map codegenOpening = openings at *
  have sets : ((table openings (entryAt openings)).map fun entry =>
      Codegen.sortedIndices entry.pointIndices).foldl pushNew [] = indexSets openings := by
    rw [table, map_map, indexSets]
    congr 1
    apply map_congr_left
    intro comm mem
    exact sorted_indices_eq distinct comm
  unfold Codegen.constructIntermediateSets
  simp only [recorded, sets, bind_eq_bind, bind_some, Option.pure_def]
  have commitments : (table openings (entryAt openings)).mapM (fun entry =>
        ((indexSets openings).idxOf? (Codegen.sortedIndices entry.pointIndices)).bind fun setIndex =>
          (Codegen.alignedEvals (Codegen.sortedIndices entry.pointIndices) entry).bind fun evals =>
            some ({ setIndex, comm := entry.comm, evals } : Codegen.CommitmentEntry)) =
      some ((keys openings).map fun comm =>
        { setIndex := (indexSets openings).idxOf (indexSet openings comm), comm
          evals := values openings comm }) := by
    unfold table
    rw [mapM_map]
    apply map_m_of_forall
    intro comm mem
    have sorted : Codegen.sortedIndices
        (entryAt openings comm (ofKey openings comm)).pointIndices = indexSet openings comm :=
      sorted_indices_eq distinct comm
    have position : (indexSets openings).idxOf? (indexSet openings comm) =
        some ((indexSets openings).idxOf (indexSet openings comm)) :=
      idx_of_some (mem_index_sets.mpr ⟨comm, mem, rfl⟩)
    rw [Function.comp_apply, sorted, position, codegen_aligned distinct]
    rfl
  rw [commitments, point_sets_found]
  rfl

/-! ### Sorted sets -/

section Sorted

variable {Key Point Value : Type} [DecidableEq Key] [DecidableEq Point]
  (openings : List (Opening Key Point Value))

theorem range_eq_positions {order : List Nat} (distinct : order.Nodup) :
    range order.length = order.map order.idxOf := by
  apply ext_getElem
  · simp
  · intro position inside _
    rw [getElem_range, getElem_map]
    rw [length_range] at inside
    exact (distinct.idxOf_getElem position inside).symm

theorem sort_order_nodup : (sortOrder (indexSets openings)).Nodup := by
  exact (sort_order_perm _).nodup_iff.mpr nodup_range

theorem sort_order_length : (sortOrder (indexSets openings)).length = (indexSets openings).length := by
  simpa using (sort_order_perm (indexSets openings)).length_eq

theorem mem_sort_order {position : Nat} :
    position ∈ sortOrder (indexSets openings) ↔ position < (indexSets openings).length := by
  rw [(sort_order_perm _).mem_iff, mem_range]

theorem set_position_iff {key : Key} {position : Nat}
    (mem : indexSet openings key ∈ indexSets openings)
    (inside : position < (indexSets openings).length) :
    (indexSets openings).idxOf (indexSet openings key) = position ↔
      indexSet openings key = (indexSets openings).getD position [] := by
  rw [getD_eq_getElem?_getD, getElem?_eq_getElem inside, getD_some]
  constructor
  · rintro rfl
    exact (getElem_idxOf (idxOf_lt_length_of_mem mem)).symm
  · intro same
    rw [same]
    exact (nodup_foldl_push_new _).idxOf_getElem position inside

end Sorted

theorem codegen_batches {queries : List Query} (distinct : Distinct (queries.map codegenOpening)) :
    ∃ sets, Codegen.constructIntermediateSets queries = some sets ∧
      Codegen.setBatches (Codegen.sortSets sets) = batches (queries.map codegenOpening) := by
  refine ⟨_, codegen_constructed distinct, ?_⟩
  generalize queries.map codegenOpening = openings at distinct ⊢
  have sameOrder : sortOrder ((indexSets openings).map (setPoints openings)) =
      sortOrder (indexSets openings) := sort_order_congr set_sizes
  have permuted : (sortOrder (indexSets openings)).Perm
      (range (sortOrder (indexSets openings)).length) := by
    rw [sort_order_length]
    exact sort_order_perm _
  unfold Codegen.setBatches Codegen.sortSets batches
  dsimp only
  rw [sameOrder, group_by_set_eq, length_map, range_eq_positions (sort_order_nodup openings),
    map_map, zip_map', map_map]
  apply map_congr_left
  intro position mem
  have inside := (mem_sort_order openings).mp mem
  simp only [Function.comp_apply, batch, Batch.mk.injEq]
  constructor
  · rw [getD_eq_getElem?_getD, getElem?_map, getD_eq_getElem?_getD, getElem?_eq_getElem inside]
    rfl
  · rw [map_map, filter_map, map_map]
    have chosen : (keys openings).filter ((fun entry : Codegen.CommitmentEntry =>
          decide (entry.setIndex = (sortOrder (indexSets openings)).idxOf position)) ∘
        ((fun entry : Codegen.CommitmentEntry => { entry with
          setIndex := (Codegen.remap (sortOrder (indexSets openings))).getD entry.setIndex 0 }) ∘
          fun comm => { setIndex := (indexSets openings).idxOf (indexSet openings comm), comm
                        evals := values openings comm })) =
        (keys openings).filter fun comm =>
          decide (indexSet openings comm = (indexSets openings).getD position []) := by
      apply filter_congr
      intro comm inKeys
      have known : (indexSets openings).idxOf (indexSet openings comm) ∈
          sortOrder (indexSets openings) := by
        rw [mem_sort_order]
        exact idxOf_lt_length_of_mem (mem_index_sets.mpr ⟨comm, inKeys, rfl⟩)
      apply decide_eq_decide.mpr
      simp only [Function.comp_apply]
      rw [remap_get permuted known, idxOf_inj known]
      exact set_position_iff openings (mem_index_sets.mpr ⟨comm, inKeys, rfl⟩) inside
    rw [chosen]
    rfl

/-! ### The Rust verifier's passes -/

section VerifierPasses

variable {Label Commitment Field : Type} [Inhabited Label] [DecidableEq Commitment]
  [DecidableEq Field]

def labelOf (queries : List (Verifier.VerifierQuery Label Commitment Field))
    (commitment : Commitment) : Label :=
  ((queries.find? fun query => decide (query.commitment = commitment)).map
    (·.commitmentLabel)).getD default

def verifierEntryAt (queries : List (Verifier.VerifierQuery Label Commitment Field))
    (commitment : Commitment) (group : List (Opening Commitment Field Field)) :
    Verifier.CommitmentData Label Commitment Field where
  commitmentLabel := labelOf queries commitment
  commitment := commitment
  setIndex := 0
  pointIndices := groupIndices (queries.map verifierOpening) group
  evals := []

variable {queries : List (Verifier.VerifierQuery Label Commitment Field)}

theorem verifier_recorded (distinct : Distinct (queries.map verifierOpening)) :
    queries.foldlM Verifier.recordQuery ([], []) =
      .ok (points (queries.map verifierOpening),
        table (queries.map verifierOpening) (verifierEntryAt queries)) := by
  apply recorded_table
  intro first next later whole split
  have index := next_point_index (first.map verifierOpening) (verifierOpening next)
    (later.map verifierOpening)
  rw [← split] at index
  have tested : ∀ commitment ∈ keys (first.map verifierOpening),
      decide ((verifierEntryAt queries commitment
        (ofKey (first.map verifierOpening) commitment)).commitment = next.commitment) =
      decide (commitment = (verifierOpening next).key) := fun commitment _ => rfl
  unfold Verifier.recordQuery
  dsimp only
  rw [find_table _ _ tested]
  by_cases seen : (verifierOpening next).key ∈ keys (first.map verifierOpening)
  · rw [if_pos seen]
    dsimp only
    have absent : (points (first.map verifierOpening)).idxOf next.point ∉
        (verifierEntryAt queries (verifierOpening next).key
          (ofKey (first.map verifierOpening) (verifierOpening next).key)).pointIndices := by
      rw [show (points (first.map verifierOpening)).idxOf next.point =
        pointIndex (queries.map verifierOpening) (verifierOpening next).point from index]
      exact fresh_index distinct split
    rw [if_neg absent]
    congr 2
    symm
    apply table_snoc_seen _ _ _ seen tested
    intro group
    simp only [verifierEntryAt, groupIndices, map_append, map_singleton, ← index]
    rfl
  · rw [if_neg seen]
    dsimp only
    rw [table_snoc_fresh _ _ seen]
    have unseen : first.find? (fun query => decide (query.commitment = next.commitment)) =
        none := by
      rw [find?_eq_none]
      intro query mem same
      apply seen
      rw [mem_keys]
      exact ⟨verifierOpening query, mem_map_of_mem mem, of_decide_eq_true same⟩
    have label : labelOf queries next.commitment = next.commitmentLabel := by
      rw [labelOf, whole, find?_append, unseen]
      simp
    simp only [verifierEntryAt, groupIndices, map_singleton, ← index]
    rw [← label]
    rfl

def applyQuery (openings : List (Opening Commitment Field Field))
    (entry : Verifier.CommitmentData Label Commitment Field)
    (query : Verifier.VerifierQuery Label Commitment Field) :
    Verifier.CommitmentData Label Commitment Field :=
  if query.commitment = entry.commitment then
    { entry with
      setIndex := (indexSets openings).idxOf (indexSet openings query.commitment)
      evals := entry.evals.set ((indexSet openings query.commitment).idxOf
        (pointIndex openings query.point)) query.eval }
  else entry

variable {openings : List (Opening Commitment Field Field)}

omit [Inhabited Label] in
theorem populate_step (opens : queries.map verifierOpening = openings)
    {query : Verifier.VerifierQuery Label Commitment Field}
    (mem : query ∈ queries) (entries : List (Verifier.CommitmentData Label Commitment Field)) :
    Verifier.populateQuery (points openings) (indexSets openings)
        ((keys openings).map fun commitment => (commitment, indexSet openings commitment))
        entries query =
      .ok (entries.map fun entry => applyQuery openings entry query) := by
  have opened : verifierOpening query ∈ openings := opens ▸ mem_map_of_mem mem
  have inKeys : query.commitment ∈ keys openings := (mem_keys _).mpr ⟨_, opened, rfl⟩
  have point : (points openings).idxOf? query.point = some (pointIndex openings query.point) := by
    apply idx_of_some
    exact mem_eraseDups.mpr (mem_map.mpr ⟨_, opened, rfl⟩)
  have set : (((keys openings).map fun commitment =>
        (commitment, indexSet openings commitment)).find? fun entry =>
          decide (entry.1 = query.commitment)).map (·.2) =
      some (indexSet openings query.commitment) := by
    rw [find_in_table _ query.commitment fun _ _ => rfl, if_pos inKeys]
    rfl
  have setPosition := idx_of_some (mem_index_sets.mpr ⟨query.commitment, inKeys, rfl⟩)
  have claimed : pointIndex openings query.point ∈ indexSet openings query.commitment := by
    rw [mem_index_set]
    refine ⟨query.eval, mem_map.mpr ⟨verifierOpening query, ?_, rfl⟩⟩
    exact mem_filter.mpr ⟨opened, decide_eq_true rfl⟩
  have pointPosition := idx_of_some claimed
  unfold Verifier.populateQuery
  simp only [point, set, setPosition, pointPosition, Verifier.unwrap, bind, Except.bind]
  rfl

omit [Inhabited Label] in
theorem populate_run (opens : queries.map verifierOpening = openings)
    {later : List (Verifier.VerifierQuery Label Commitment Field)}
    (subset : later ⊆ queries)
    (entries : List (Verifier.CommitmentData Label Commitment Field)) :
    later.foldlM (Verifier.populateQuery (points openings) (indexSets openings)
        ((keys openings).map fun commitment => (commitment, indexSet openings commitment)))
        entries =
      .ok (entries.map fun entry => later.foldl (applyQuery openings) entry) := by
  induction later generalizing entries with
  | nil =>
    simp only [foldlM_nil, foldl_nil, map_id']
    rfl
  | cons query later ih =>
    rw [foldlM_cons, populate_step opens (subset mem_cons_self)]
    refine Eq.trans (ih (fun other mem => subset (mem_cons_of_mem query mem)) _) ?_
    rw [map_map]
    rfl

omit [Inhabited Label] in
theorem apply_queries (openings : List (Opening Commitment Field Field))
    (later : List (Verifier.VerifierQuery Label Commitment Field))
    (entry : Verifier.CommitmentData Label Commitment Field) {commitment : Commitment}
    (named : entry.commitment = commitment) :
    later.foldl (applyQuery openings) entry =
      { entry with
        setIndex := if (later.filter fun query => decide (query.commitment = commitment)) = []
          then entry.setIndex else (indexSets openings).idxOf (indexSet openings commitment)
        evals := (later.filter fun query => decide (query.commitment = commitment)).foldl
          (fun evals query => evals.set ((indexSet openings commitment).idxOf
            (pointIndex openings query.point)) query.eval) entry.evals } := by
  subst named
  induction later generalizing entry with
  | nil => rfl
  | cons query later ih =>
    rw [foldl_cons, ih]
    by_cases same : query.commitment = entry.commitment
    · simp [applyQuery, same]
    · simp [applyQuery, same]

section

variable (opens : queries.map verifierOpening = openings)

include opens

omit [Inhabited Label] [DecidableEq Field] in
theorem filter_opening (commitment : Commitment) :
    ofKey openings commitment =
      (queries.filter fun query => decide (query.commitment = commitment)).map verifierOpening := by
  subst opens
  unfold ofKey
  rw [filter_map]
  rfl

theorem populated_entry [Inhabited Field] (distinct : Distinct openings) {commitment : Commitment}
    (mem : commitment ∈ keys openings) :
    queries.foldl (applyQuery openings)
        { verifierEntryAt queries commitment (ofKey openings commitment) with
          evals := replicate (verifierEntryAt queries commitment
            (ofKey openings commitment)).pointIndices.length default } =
      { commitmentLabel := labelOf queries commitment
        commitment
        setIndex := (indexSets openings).idxOf (indexSet openings commitment)
        pointIndices := groupIndices openings (ofKey openings commitment)
        evals := values openings commitment } := by
  have opened : (queries.filter fun query => decide (query.commitment = commitment)) ≠ [] := by
    rcases (mem_keys _).mp mem with ⟨opening, present, sameKey⟩
    rcases mem_map.mp (opens ▸ present) with ⟨query, inQueries, rfl⟩
    exact ne_nil_of_mem (mem_filter.mpr ⟨inQueries, decide_eq_true sameKey⟩)
  have emptied : replicate (groupIndices openings (ofKey openings commitment)).length
      (default : Field) = (indexSet openings commitment).map fun _ => default := by
    rw [map_const', group_indices_eq, indexSet, length_insertionSort]
  have written : (queries.filter fun query => decide (query.commitment = commitment)).foldl
        (fun evals query => evals.set ((indexSet openings commitment).idxOf
          (pointIndex openings query.point)) query.eval)
        ((indexSet openings commitment).map fun _ => (default : Field)) =
      values openings commitment := by
    have filled := fill_slots (index_set_nodup distinct commitment) (claims openings commitment)
      (claims_nodup distinct commitment) fun _ => (default : Field)
    rw [← values_eq] at filled
    rw [← filled, claims, filter_opening opens, map_map, foldl_map]
    rfl
  have applied := @apply_queries _ _ _ _ _ openings queries
    { verifierEntryAt queries commitment (ofKey openings commitment) with
      evals := replicate (verifierEntryAt queries commitment
        (ofKey openings commitment)).pointIndices.length default }
    commitment rfl
  rw [if_neg opened] at applied
  dsimp only [verifierEntryAt] at applied ⊢
  rw [opens] at applied ⊢
  rw [emptied, written] at applied
  rw [emptied]
  exact applied

theorem verifier_constructed [Inhabited Field] (distinct : Distinct openings) :
    Verifier.constructIntermediateSets queries = .ok
      ((keys openings).map fun commitment =>
        { commitmentLabel := labelOf queries commitment
          commitment
          setIndex := (indexSets openings).idxOf (indexSet openings commitment)
          pointIndices := groupIndices openings (ofKey openings commitment)
          evals := values openings commitment },
        (indexSets openings).map (setPoints openings)) := by
  have recorded : queries.foldlM Verifier.recordQuery ([], []) =
      .ok (points openings, table openings (verifierEntryAt queries)) := by
    subst opens
    exact verifier_recorded distinct
  have setOf : ∀ commitment, Verifier.btreeSet (verifierEntryAt queries commitment
      (ofKey openings commitment)).pointIndices = indexSet openings commitment := by
    subst opens
    exact btree_set_eq distinct
  have sets : ((table openings (verifierEntryAt queries)).map fun entry =>
      Verifier.btreeSet entry.pointIndices).foldl pushNew [] =
        indexSets openings := by
    rw [table, map_map, indexSets]
    congr 1
    apply map_congr_left
    intro commitment mem
    exact setOf commitment
  have setMap : ((table openings (verifierEntryAt queries)).map fun entry =>
      (entry.commitment, Verifier.btreeSet entry.pointIndices)) =
        (keys openings).map fun commitment => (commitment, indexSet openings commitment) := by
    rw [table, map_map]
    apply map_congr_left
    intro commitment mem
    exact Prod.ext rfl (setOf commitment)
  have populated := populate_run opens (List.Subset.refl queries)
    ((table openings (verifierEntryAt queries)).map fun entry =>
      { entry with evals := replicate entry.pointIndices.length default })
  unfold Verifier.constructIntermediateSets
  simp only [recorded, sets, setMap, populated, point_sets_found, Verifier.unwrap, bind,
    Except.bind, pure, Except.pure]
  rw [table, map_map, map_map]
  congr 2
  apply map_congr_left
  intro commitment mem
  exact populated_entry opens distinct mem

end

theorem verifier_batches [Inhabited Field] {padding : List (Verifier.VerifierQuery Label Commitment Field)}
    {fewerPointSets : Bool} {readEval : Nat → Field}
    (padded : Verifier.queriesWithDummies fewerPointSets queries readEval = .ok padding)
    (distinct : Distinct (padding.map verifierOpening)) :
    ∃ sets, Verifier.prepareSets fewerPointSets queries readEval = .ok sets ∧
      Verifier.setBatches sets = batches (padding.map verifierOpening) := by
  have constructed := verifier_constructed rfl distinct
  simp only [Verifier.prepareSets, padded, constructed, bind, Except.bind, pure, Except.pure]
  refine ⟨_, rfl, ?_⟩
  generalize padding.map verifierOpening = openings at distinct ⊢
  have sameOrder : sortOrder ((indexSets openings).map (setPoints openings)) =
      sortOrder (indexSets openings) := sort_order_congr set_sizes
  unfold Verifier.setBatches batches
  dsimp only
  rw [sameOrder, group_by_set_eq, length_map, map_map, map_map, zip_map', zip_map', map_map]
  apply map_congr_left
  intro position mem
  have inside := (mem_sort_order openings).mp mem
  simp only [Function.comp_apply, batch, Batch.mk.injEq]
  constructor
  · rw [getD_eq_getElem?_getD, getElem?_map, getD_eq_getElem?_getD, getElem?_eq_getElem inside]
    rfl
  · rw [getD_eq_getElem?_getD, getD_eq_getElem?_getD, getElem?_map, getElem?_map,
      getElem?_range inside, map_some, map_some, getD_some, getD_some]
    simp only [Function.comp_apply]
    rw [filter_map, map_map, map_map, zip_map']
    have chosen : ∀ commitment ∈ keys openings,
        decide ((indexSets openings).idxOf (indexSet openings commitment) = position) =
          decide (indexSet openings commitment = (indexSets openings).getD position []) := by
      intro commitment inKeys
      apply decide_eq_decide.mpr
      exact set_position_iff openings (mem_index_sets.mpr ⟨commitment, inKeys, rfl⟩) inside
    rw [← filter_congr chosen]
    rfl

end VerifierPasses

end Midfall.KzgGroupingCorrect
