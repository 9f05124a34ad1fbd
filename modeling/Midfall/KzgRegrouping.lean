import Midfall.KzgGroupingCorrect

/-!
# What the grouping of the Rust verifier returns

The commitments of `construct_intermediate_sets` are those of the queries in
order of first occurrence, each with the number of the set of its points and
its evaluations in the order of that set. After the dummy queries every set
holds all shared points.
-/

namespace Midfall.KzgRegrouping

open ListLoops OpeningGroups KzgQueryGrouping KzgGroupingCorrect
open List hiding keys mem_keys
open Verifier

theorem filter_map_get {Entry Image : Type} {step : Entry → Option Image} {entries : List Entry}
    (present : ∀ entry ∈ entries, ∃ image, step entry = some image) (position : Nat) :
    (entries.filterMap step)[position]? = entries[position]?.bind step := by
  induction entries generalizing position with
  | nil => rfl
  | cons entry entries ih =>
    obtain ⟨image, found⟩ := present entry mem_cons_self
    rw [filterMap_cons_some found]
    cases position with
    | zero => simp [found]
    | succ position =>
      simp only [getElem?_cons_succ]
      apply ih
      intro other mem
      exact present other (mem_cons_of_mem entry mem)

section Sets

variable {Key Point Value : Type} [DecidableEq Key] [DecidableEq Point]
  {openings : List (Opening Key Point Value)}

theorem set_points_get (key : Key) (position : Nat) :
    (setPoints openings (indexSet openings key))[position]? =
      (indexSet openings key)[position]?.bind fun index => (points openings)[index]? := by
  apply filter_map_get
  intro index mem
  exact ⟨_, getElem?_eq_getElem (index_set_below mem)⟩

theorem values_get (key : Key) (position : Nat) :
    (values openings key)[position]? =
      (indexSet openings key)[position]?.bind fun index =>
        (claims openings key).lookup index := by
  apply filter_map_get
  intro index mem
  exact claims_lookup mem

theorem values_length (key : Key) :
    (values openings key).length = (indexSet openings key).length := by
  have looked : ∀ index ∈ indexSet openings key, ∃ value, (claims openings key).lookup index = some value :=
    fun index => claims_lookup
  have found := map_m_filter_map (indexSet openings key) looked
  exact (map_m_length found).symm

theorem claims_of_index {key : Key} {index : Nat} {value : Value}
    (found : (claims openings key).lookup index = some value) :
    ∃ opening ∈ ofKey openings key,
      (points openings)[index]? = some opening.point ∧ opening.value = value := by
  have claimed := mem_of_lookup found
  rcases mem_map.mp claimed with ⟨opening, mem, same⟩
  have sameIndex : pointIndex openings opening.point = index := (Prod.mk.inj same).1
  have sameValue : opening.value = value := (Prod.mk.inj same).2
  have listed : opening.point ∈ points openings := by
    apply mem_eraseDups.mpr
    exact mem_map_of_mem (mem_of_mem_filter mem)
  use opening, mem
  constructor
  · rw [← sameIndex]
    exact getElem?_idxOf listed
  · exact sameValue

theorem set_points_aligned {key : Key} {position : Nat} {point : Point}
    (found : (setPoints openings (indexSet openings key))[position]? = some point) :
    ∃ opening ∈ ofKey openings key, opening.point = point ∧
      (values openings key)[position]? = some opening.value := by
  rw [set_points_get] at found
  obtain ⟨index, inSet, pointFound⟩ := bind_some_iff.mp found
  obtain ⟨value, valueFound⟩ := claims_lookup (mem_of_getElem? inSet)
  obtain ⟨opening, mem, located, claimed⟩ := claims_of_index valueFound
  use opening, mem
  constructor
  · rw [pointFound] at located
    exact (Option.some.inj located).symm
  · rw [values_get, inSet, claimed]
    exact valueFound

theorem mem_set_points {key : Key} {point : Point} :
    point ∈ setPoints openings (indexSet openings key) ↔ point ∈ pointsOf openings key := by
  constructor
  · intro mem
    obtain ⟨position, found⟩ := mem_iff_getElem?.mp mem
    obtain ⟨opening, opened, same, -⟩ := set_points_aligned found
    rw [← same]
    exact mem_map_of_mem opened
  · intro mem
    rcases mem_map.mp mem with ⟨opening, opened, rfl⟩
    have listed : opening.point ∈ points openings := by
      apply mem_eraseDups.mpr
      exact mem_map_of_mem (mem_of_mem_filter opened)
    apply mem_filterMap.mpr
    use pointIndex openings opening.point
    constructor
    · apply mem_index_set.mpr
      exact ⟨opening.value, mem_map.mpr ⟨opening, opened, rfl⟩⟩
    · exact getElem?_idxOf listed

theorem set_points_nodup (distinct : Distinct openings) (key : Key) :
    (setPoints openings (indexSet openings key)).Nodup := by
  apply List.Nodup.filterMap
  · intro left right point first second
    have inLeft := List.getElem?_eq_some_iff.mp first
    have inRight := List.getElem?_eq_some_iff.mp second
    exact ((erase_dups_nodup _).getElem_inj_iff).mp (inLeft.2.trans inRight.2.symm)
  · exact index_set_nodup distinct key

theorem index_set_of_points (distinct : Distinct openings) {left right : Key}
    (same : ∀ point, point ∈ pointsOf openings left ↔ point ∈ pointsOf openings right) :
    indexSet openings left = indexSet openings right := by
  have subset : ∀ {first second : Key}, (∀ point, point ∈ pointsOf openings first →
      point ∈ pointsOf openings second) → indexSet openings first ⊆ indexSet openings second := by
    intro first second included index mem
    obtain ⟨value, claimed⟩ := mem_index_set.mp mem
    rcases mem_map.mp claimed with ⟨opening, opened, sameIndex⟩
    have shared := included opening.point (mem_map_of_mem opened)
    rcases mem_map.mp shared with ⟨other, otherOpened, samePoint⟩
    apply mem_index_set.mpr
    use other.value
    apply mem_map.mpr
    use other, otherOpened
    rw [samePoint, (Prod.mk.inj sameIndex).1]
  apply List.Perm.eq_of_pairwise' (r := (· ≤ ·))
  · exact pairwise_insertionSort _ _
  · exact pairwise_insertionSort _ _
  · apply (perm_ext_iff_of_nodup (index_set_nodup distinct left)
      (index_set_nodup distinct right)).mpr
    intro index
    constructor
    · intro mem
      exact subset (fun point => (same point).mp) mem
    · intro mem
      exact subset (fun point => (same point).mpr) mem

end Sets

section Padding

variable {Key Point Value : Type} [DecidableEq Key] [DecidableEq Point]
  {openings : List (Opening Key Point Value)}

variable {point : Point}

theorem mem_points_of_padded {words : List Value}
    (counted : words.length = (missing openings).length) {key : Key} :
    point ∈ pointsOf (padded openings words) key ↔
      point ∈ pointsOf openings key ∨ (key ∈ keys openings ∧ point ∈ sharedPoints openings) := by
  have added : ((missing openings).zip words).map (·.1) = missing openings := by
    apply map_fst_zip
    omega
  have pairs : (padded openings words).map (fun opening => (opening.key, opening.point)) =
      openings.map (fun opening => (opening.key, opening.point)) ++ missing openings := by
    unfold padded
    rw [map_append, map_map]
    congr 1
  rw [mem_points_of, pairs, mem_append, ← mem_points_of, mem_missing]
  by_cases opened : point ∈ pointsOf openings key
  · simp [opened]
  · simp [opened]

theorem mem_shared_points :
    point ∈ sharedPoints openings ↔
      ∃ key ∈ keys openings, 1 < (pointsOf openings key).length ∧
        point ∈ pointsOf openings key := by
  simp [sharedPoints, and_assoc]

theorem points_of_padded {words : List Value} (counted : words.length = (missing openings).length)
    {key : Key} (mem : key ∈ keys openings) (several : 1 < (pointsOf openings key).length) :
    point ∈ pointsOf (padded openings words) key ↔ point ∈ sharedPoints openings := by
  rw [mem_points_of_padded counted]
  constructor
  · intro opened
    rcases opened with own | shared
    · exact mem_shared_points.mpr ⟨key, mem, several, own⟩
    · exact shared.2
  · intro shared
    exact Or.inr ⟨mem, shared⟩

end Padding

section Queries

variable {Label Commitment Field : Type} [DecidableEq Commitment] [DecidableEq Field]

/-- The entries and point sets regroup the queries. -/
structure Regroups (queries : List (VerifierQuery Label Commitment Field))
    (entries : List (CommitmentData Label Commitment Field)) (sets : List (List Field)) :
    Prop where
  commitments : entries.map (·.commitment) = (queries.map (·.commitment)).eraseDups
  queried : ∀ entry ∈ entries, ∃ set : List Field, sets[entry.setIndex]? = some set ∧ set.Nodup ∧
    ∀ point, point ∈ set ↔
      ∃ query ∈ queries, query.commitment = entry.commitment ∧ query.point = point
  aligned : ∀ entry ∈ entries, ∀ set : List Field, sets[entry.setIndex]? = some set →
    entry.evals.length = set.length ∧
    ∀ (position : Nat) (point : Field), set[position]? = some point →
      ∃ query ∈ queries, query.commitment = entry.commitment ∧ query.point = point ∧
        entry.evals[position]? = some query.eval
  used : ∀ set ∈ sets, ∃ entry ∈ entries, sets[entry.setIndex]? = some set
  apart : ∀ (left right : Nat) (leftSet rightSet : List Field), sets[left]? = some leftSet →
    sets[right]? = some rightSet → (∀ point, point ∈ leftSet ↔ point ∈ rightSet) → left = right

/-- The commitment is queried at more than one point. -/
def Several (queries : List (VerifierQuery Label Commitment Field)) (commitment : Commitment) :
    Prop :=
  ∃ first ∈ queries, ∃ second ∈ queries, first.commitment = commitment ∧
    second.commitment = commitment ∧ first.point ≠ second.point

/-- Every set holds the points of the commitments queried at several points, and
these commitments have one set. -/
structure SharesPoints (queries : List (VerifierQuery Label Commitment Field))
    (entries : List (CommitmentData Label Commitment Field)) (sets : List (List Field)) :
    Prop where
  union : ∀ set ∈ sets, ∀ query ∈ queries, Several queries query.commitment → query.point ∈ set
  shared : ∀ left ∈ entries, ∀ right ∈ entries, Several queries left.commitment →
    Several queries right.commitment → left.setIndex = right.setIndex

variable {queries : List (VerifierQuery Label Commitment Field)}

variable {commitment : Commitment}

omit [DecidableEq Field] in
theorem mem_of_key {opening : Opening Commitment Field Field} :
    opening ∈ ofKey (queries.map verifierOpening) commitment ↔
      ∃ query ∈ queries, query.commitment = commitment ∧ verifierOpening query = opening := by
  rw [ofKey, mem_filter, mem_map]
  constructor
  · intro found
    obtain ⟨⟨query, present, rfl⟩, same⟩ := found
    exact ⟨query, present, of_decide_eq_true same, rfl⟩
  · intro asked
    obtain ⟨query, present, same, rfl⟩ := asked
    exact ⟨⟨query, present, rfl⟩, decide_eq_true same⟩

omit [DecidableEq Field] in
theorem mem_points_of_queries {point : Field} :
    point ∈ pointsOf (queries.map verifierOpening) commitment ↔
      ∃ query ∈ queries, query.commitment = commitment ∧ query.point = point := by
  constructor
  · intro mem
    rcases mem_map.mp mem with ⟨opening, opened, rfl⟩
    obtain ⟨query, present, same, rfl⟩ := mem_of_key.mp opened
    exact ⟨query, present, same, rfl⟩
  · intro asked
    obtain ⟨query, present, same, rfl⟩ := asked
    apply mem_map.mpr
    exact ⟨verifierOpening query, mem_of_key.mpr ⟨query, present, same, rfl⟩, rfl⟩

omit [DecidableEq Field] in
theorem several_points (several : Several queries commitment) :
    commitment ∈ keys (queries.map verifierOpening) ∧
      1 < (pointsOf (queries.map verifierOpening) commitment).length := by
  obtain ⟨first, inFirst, second, inSecond, sameFirst, sameSecond, differ⟩ := several
  constructor
  · apply (mem_keys _).mpr
    exact ⟨verifierOpening first, mem_map_of_mem inFirst, sameFirst⟩
  · have firstPoint := mem_points_of_queries.mpr ⟨first, inFirst, sameFirst, rfl⟩
    have secondPoint := mem_points_of_queries.mpr ⟨second, inSecond, sameSecond, rfl⟩
    by_contra single
    obtain ⟨point, only⟩ := length_eq_one_iff.mp (Nat.le_antisymm (Nat.not_lt.mp single)
      (length_pos_of_mem firstPoint))
    rw [only, mem_singleton] at firstPoint secondPoint
    exact differ (firstPoint.trans secondPoint.symm)

variable {entries : List (CommitmentData Label Commitment Field)} {sets : List (List Field)}

theorem constructed_regroups [Inhabited Label] [Inhabited Field]
    (distinct : Distinct (queries.map verifierOpening))
    (constructed : constructIntermediateSets queries = .ok (entries, sets)) :
    Regroups queries entries sets := by
  rw [verifier_constructed rfl distinct] at constructed
  have returned := Prod.mk.inj (Except.ok.inj constructed)
  rw [← returned.1, ← returned.2]
  generalize opened : queries.map verifierOpening = openings at *
  have setOf : ∀ commitment ∈ keys openings,
      ((indexSets openings).map (setPoints openings))[(indexSets openings).idxOf
        (indexSet openings commitment)]? = some (setPoints openings
          (indexSet openings commitment)) := by
    intro commitment mem
    have listed : indexSet openings commitment ∈ indexSets openings :=
      mem_index_sets.mpr ⟨commitment, mem, rfl⟩
    rw [getElem?_map, getElem?_idxOf listed]
    rfl
  constructor
  · rw [map_map]
    subst opened
    unfold keys
    rw [map_map]
    exact map_id _
  · intro entry mem
    rcases mem_map.mp mem with ⟨commitment, inKeys, rfl⟩
    refine ⟨_, setOf commitment inKeys, set_points_nodup distinct commitment, ?_⟩
    intro point
    rw [mem_set_points]
    subst opened
    exact mem_points_of_queries
  · intro entry mem set found
    rcases mem_map.mp mem with ⟨commitment, inKeys, rfl⟩
    have same := Option.some.inj ((setOf commitment inKeys).symm.trans found)
    subst same
    constructor
    · rw [set_points_length (mem_index_sets.mpr ⟨commitment, inKeys, rfl⟩)]
      exact values_length commitment
    · intro position point located
      obtain ⟨opening, ofCommitment, samePoint, value⟩ := set_points_aligned located
      subst opened
      obtain ⟨query, present, sameKey, rfl⟩ := mem_of_key.mp ofCommitment
      exact ⟨query, present, sameKey, samePoint, value⟩
  · intro set mem
    rcases mem_map.mp mem with ⟨indices, listed, rfl⟩
    obtain ⟨commitment, inKeys, rfl⟩ := mem_index_sets.mp listed
    exact ⟨_, mem_map_of_mem inKeys, setOf commitment inKeys⟩
  · intro left right leftSet rightSet first second same
    rw [getElem?_map] at first second
    obtain ⟨leftIndices, inLeft, rfl⟩ := Option.map_eq_some_iff.mp first
    obtain ⟨rightIndices, inRight, rfl⟩ := Option.map_eq_some_iff.mp second
    obtain ⟨leftKey, -, rfl⟩ := mem_index_sets.mp (mem_of_getElem? inLeft)
    obtain ⟨rightKey, -, rfl⟩ := mem_index_sets.mp (mem_of_getElem? inRight)
    have samePoints : ∀ point, point ∈ pointsOf openings leftKey ↔
        point ∈ pointsOf openings rightKey := by
      intro point
      rw [← mem_set_points, ← mem_set_points]
      exact same point
    rw [← index_set_of_points distinct samePoints] at inRight
    have inLeft' := List.getElem?_eq_some_iff.mp inLeft
    have inRight' := List.getElem?_eq_some_iff.mp inRight
    exact (nodup_foldl_push_new _).getElem_inj_iff.mp (inLeft'.2.trans inRight'.2.symm)

theorem padded_shares_points {padding : List (VerifierQuery Label Commitment Field)}
    {words : List Field} (counted : words.length = (missing (queries.map verifierOpening)).length)
    (viewed : padding.map verifierOpening = padded (queries.map verifierOpening) words)
    (regroups : Regroups padding entries sets) : SharesPoints queries entries sets := by
  have ofPadding : ∀ {commitment point}, (∃ query ∈ padding, query.commitment = commitment ∧
      query.point = point) ↔ point ∈ pointsOf (queries.map verifierOpening) commitment ∨
        (commitment ∈ keys (queries.map verifierOpening) ∧
          point ∈ sharedPoints (queries.map verifierOpening)) := by
    intro commitment point
    rw [← mem_points_of_queries, viewed, mem_points_of_padded counted]
  have known : ∀ entry ∈ entries, entry.commitment ∈ keys (queries.map verifierOpening) := by
    intro entry mem
    have listed : entry.commitment ∈ entries.map (·.commitment) := mem_map_of_mem mem
    rw [regroups.commitments, mem_eraseDups, mem_map] at listed
    obtain ⟨query, present, same⟩ := listed
    rcases ofPadding.mp ⟨query, present, same, rfl⟩ with own | shared
    · obtain ⟨original, inQueries, sameKey, -⟩ := mem_points_of_queries.mp own
      exact (mem_keys _).mpr ⟨_, mem_map_of_mem inQueries, sameKey⟩
    · exact shared.1
  constructor
  · intro set mem query present several
    obtain ⟨entry, inEntries, found⟩ := regroups.used set mem
    obtain ⟨same, located, -, queried⟩ := regroups.queried entry inEntries
    rw [found] at located
    rw [Option.some.inj located, queried, ofPadding]
    obtain ⟨inKeys, plural⟩ := several_points several
    right
    constructor
    · exact known entry inEntries
    · apply mem_shared_points.mpr
      exact ⟨_, inKeys, plural, mem_points_of_queries.mpr ⟨query, present, rfl, rfl⟩⟩
  · intro left inLeft right inRight severalLeft severalRight
    obtain ⟨leftSet, leftFound, -, leftQueried⟩ := regroups.queried left inLeft
    obtain ⟨rightSet, rightFound, -, rightQueried⟩ := regroups.queried right inRight
    have allShared : ∀ commitment, Several queries commitment → ∀ point,
        (∃ query ∈ padding, query.commitment = commitment ∧ query.point = point) ↔
          point ∈ sharedPoints (queries.map verifierOpening) := by
      intro commitment several point
      obtain ⟨inKeys, plural⟩ := several_points several
      rw [← mem_points_of_queries, viewed, points_of_padded counted inKeys plural]
    apply regroups.apart _ _ _ _ leftFound rightFound
    intro point
    rw [leftQueried, rightQueried, allShared _ severalLeft, allShared _ severalRight]

/-- Queries without a repeated pair are regrouped, alone and with the dummy
queries, which put the shared points in every set. -/
theorem queries_regrouped [Inhabited Label] [Inhabited Field]
    (distinct : (queries.map fun query => (query.commitment, query.point)).Nodup)
    (readEval : Nat → Field) :
    (∃ entries sets, constructIntermediateSets queries = .ok (entries, sets) ∧
      Regroups queries entries sets) ∧
    ∃ padding entries sets, queriesWithDummies true queries readEval = .ok padding ∧
      constructIntermediateSets padding = .ok (entries, sets) ∧
      Regroups padding entries sets ∧ SharesPoints queries entries sets := by
  have opened : Distinct (queries.map verifierOpening) := by
    unfold Distinct
    rw [map_map]
    exact distinct
  constructor
  · have constructed := verifier_constructed rfl opened
    exact ⟨_, _, constructed, constructed_regroups opened constructed⟩
  · obtain ⟨padding, planned, viewed⟩ := verifier_padded opened readEval
    have paddingOpened : Distinct (padding.map verifierOpening) := by
      rw [viewed]
      exact padded_distinct _ opened _
    have constructed := verifier_constructed rfl paddingOpened
    have regroups := constructed_regroups paddingOpened constructed
    refine ⟨padding, _, _, planned, constructed, regroups, ?_⟩
    apply padded_shares_points _ viewed regroups
    rw [length_map, length_range]

/-- Three commitments over three points; the first two share a set once padded. -/
theorem queries_regrouped_three :
    let queries : List (VerifierQuery Nat Nat Nat) :=
      [⟨7, 0, 10, 1⟩, ⟨8, 1, 11, 2⟩, ⟨9, 0, 10, 3⟩, ⟨9, 1, 11, 4⟩, ⟨9, 2, 12, 5⟩]
    (∃ entries sets, constructIntermediateSets queries = .ok (entries, sets) ∧
      Regroups queries entries sets) ∧
    ∃ padding entries sets, queriesWithDummies true queries id = .ok padding ∧
      constructIntermediateSets padding = .ok (entries, sets) ∧
      Regroups padding entries sets ∧ SharesPoints queries entries sets :=
  queries_regrouped (by decide) id

end Queries

end Midfall.KzgRegrouping
