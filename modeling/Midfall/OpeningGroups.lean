import Midfall.ListLoops

/-!
# Grouping openings by commitment and by point set

A batched opening protocol receives a list of claims "this key opens at this
point to this value". Keys opened at the same set of points form one batch. The
file fixes what the batches are, independently of how a program computes them,
and how they behave when keys, points and values are renamed.
-/

namespace Midfall.OpeningGroups

open ListLoops List

/-- A claim that the polynomial of a key takes a value at a point. -/
structure Opening (Key Point Value : Type) where
  key : Key
  point : Point
  value : Value
  deriving DecidableEq, Repr

/-- One set of points with the keys opened there, in order, and their values in
the order of the points. -/
structure Batch (Key Point Value : Type) where
  points : List Point
  openings : List (Key × List Value)
  deriving DecidableEq, Repr

section Batches

variable {Key Point Value : Type} [DecidableEq Key] [DecidableEq Point]
  (openings : List (Opening Key Point Value))

def Distinct : Prop := (openings.map fun opening => (opening.key, opening.point)).Nodup

def keys : List Key := (openings.map (·.key)).eraseDups

def points : List Point := (openings.map (·.point)).eraseDups

def ofKey (key : Key) : List (Opening Key Point Value) :=
  openings.filter fun opening => decide (opening.key = key)

def pointIndex (point : Point) : Nat := (points openings).idxOf point

def claims (key : Key) : List (Nat × Value) :=
  (ofKey openings key).map fun opening => (pointIndex openings opening.point, opening.value)

def indexSet (key : Key) : List Nat := ((claims openings key).map (·.1)).insertionSort (· ≤ ·)

/-- Distinct sets of points in order of first occurrence. -/
def indexSets : List (List Nat) := ((keys openings).map (indexSet openings)).foldl pushNew []

def values (key : Key) : List Value :=
  (indexSet openings key).filterMap fun index => (claims openings key).lookup index

def batch (set : List Nat) : Batch Key Point Value where
  points := set.filterMap fun index => (points openings)[index]?
  openings := ((keys openings).filter fun key => decide (indexSet openings key = set)).map
    fun key => (key, values openings key)

/-- Order of the sort keys `(length, position)`. -/
def Precedes {Point : Type} (sets : List (List Point)) (left right : Nat) : Prop :=
  (sets.getD left []).length < (sets.getD right []).length ∨
    ((sets.getD left []).length = (sets.getD right []).length ∧ left ≤ right)

instance {Point : Type} (sets : List (List Point)) : DecidableRel (Precedes sets) := by
  intro left right
  unfold Precedes
  exact inferInstance

/-- Positions sorted by the number of points, then by position. -/
def sortOrder {Point : Type} (sets : List (List Point)) : List Nat :=
  (range sets.length).insertionSort (Precedes sets)

def batches : List (Batch Key Point Value) :=
  (sortOrder (indexSets openings)).map fun position =>
    batch openings ((indexSets openings).getD position [])

/-! The lists grow with the openings. -/

omit [DecidableEq Point] in
theorem keys_snoc (last : Opening Key Point Value) :
    keys (openings ++ [last]) =
      if last.key ∈ keys openings then keys openings else keys openings ++ [last.key] := by
  unfold keys
  rw [map_append, map_singleton, erase_dups_snoc]
  simp only [mem_eraseDups]

omit [DecidableEq Key] in
theorem points_snoc (last : Opening Key Point Value) :
    points (openings ++ [last]) = pushNew (points openings) last.point := by
  unfold points pushNew
  rw [map_append, map_singleton, erase_dups_snoc]
  simp only [mem_eraseDups]

omit [DecidableEq Key] in
theorem next_point_index (next : Opening Key Point Value)
    (later : List (Opening Key Point Value)) :
    (points openings).idxOf next.point = pointIndex (openings ++ next :: later) next.point := by
  have split : openings ++ next :: later = (openings ++ [next]) ++ later := by simp
  have present : next.point ∈ (openings ++ [next]).map (·.point) := by simp
  unfold pointIndex
  rw [split]
  conv_rhs => rw [points, map_append, idx_of_erase_dups_append _ present]
  rw [show ((openings ++ [next]).map (·.point)).eraseDups = points (openings ++ [next]) from rfl,
    points_snoc]
  unfold pushNew
  by_cases seen : next.point ∈ points openings
  · rw [if_pos seen]
  · rw [if_neg seen, idxOf_append_of_notMem seen, idxOf_cons_self,
      idxOf_eq_length seen, Nat.add_zero]

omit [DecidableEq Point] in
theorem of_key_snoc (last : Opening Key Point Value) (key : Key) :
    ofKey (openings ++ [last]) key =
      if last.key = key then ofKey openings key ++ [last] else ofKey openings key := by
  unfold ofKey
  rw [filter_append, filter_singleton]
  by_cases same : last.key = key <;> simp [same]

variable {key : Key}

omit [DecidableEq Point] in
theorem of_key_fresh (fresh : key ∉ keys openings) : ofKey openings key = [] := by
  rw [ofKey, filter_eq_nil_iff]
  intro opening mem same
  apply fresh
  rw [keys, mem_eraseDups]
  exact mem_map.mpr ⟨opening, mem, of_decide_eq_true same⟩

section Growing

variable {Entry : Type} (entryAt : Key → List (Opening Key Point Value) → Entry)

def table : List Entry := (keys openings).map fun key => entryAt key (ofKey openings key)

variable {last : Opening Key Point Value}

omit [DecidableEq Point] in
theorem table_snoc_seen {test : Entry → Bool} (update : Entry → Entry)
    (seen : last.key ∈ keys openings) (tested : ∀ key ∈ keys openings,
      test (entryAt key (ofKey openings key)) = decide (key = last.key))
    (updated : ∀ group, entryAt last.key (group ++ [last]) = update (entryAt last.key group)) :
    table (openings ++ [last]) entryAt = updateFirst test update (table openings entryAt) := by
  have distinct : (keys openings).Nodup := erase_dups_nodup _
  unfold table
  rw [update_in_table distinct last.key update tested, keys_snoc, if_pos seen]
  apply map_congr_left
  intro key mem
  rw [of_key_snoc]
  by_cases same : last.key = key
  · rw [if_pos same, if_pos same.symm, ← same, updated]
  · rw [if_neg same, if_neg fun other => same other.symm]

omit [DecidableEq Point] in
theorem table_snoc_fresh (fresh : last.key ∉ keys openings) :
    table (openings ++ [last]) entryAt = table openings entryAt ++ [entryAt last.key [last]] := by
  unfold table
  rw [keys_snoc, if_neg fresh, map_append, map_singleton, of_key_snoc, if_pos rfl,
    of_key_fresh _ fresh, nil_append]
  congr 1
  apply map_congr_left
  intro key mem
  rw [of_key_snoc, if_neg]
  rintro rfl
  exact fresh mem

omit [DecidableEq Point] in
theorem find_table {key : Key} {test : Entry → Bool}
    (tested : ∀ other ∈ keys openings,
      test (entryAt other (ofKey openings other)) = decide (other = key)) :
    (table openings entryAt).find? test =
      if key ∈ keys openings then some (entryAt key (ofKey openings key)) else none := by
  unfold table
  exact find_in_table (keys openings) key tested

end Growing

/-! What a key claims, when no opening is repeated. -/

omit [DecidableEq Key] in
theorem point_index_injective {left right : Point} (mem : left ∈ openings.map (·.point))
    (same : pointIndex openings left = pointIndex openings right) : left = right := by
  exact (idxOf_inj (mem_eraseDups.mpr mem)).mp same

variable {openings}

theorem claims_nodup (distinct : Distinct openings) (key : Key) :
    ((claims openings key).map (·.1)).Nodup := by
  have pointsDistinct : ((ofKey openings key).map (·.point)).Nodup := by
    have pairs : ((ofKey openings key).map fun opening => (opening.key, opening.point)).Nodup :=
      distinct.sublist (filter_sublist.map _)
    have sameKey : (ofKey openings key).map (fun opening => (opening.key, opening.point)) =
        ((ofKey openings key).map (·.point)).map (key, ·) := by
      rw [map_map]
      apply map_congr_left
      intro opening mem
      exact Prod.ext (of_decide_eq_true (mem_filter.mp mem).2) rfl
    rw [sameKey] at pairs
    exact pairs.of_map _
  have indices : (claims openings key).map (·.1) =
      ((ofKey openings key).map (·.point)).map (pointIndex openings) := by
    unfold claims
    rw [map_map, map_map]
    rfl
  rw [indices]
  apply List.Nodup.map_on _ pointsDistinct
  intro left inLeft right _ same
  rcases mem_map.mp inLeft with ⟨opening, mem, rfl⟩
  exact point_index_injective openings (mem_map_of_mem (mem_of_mem_filter mem)) same

theorem index_set_nodup (distinct : Distinct openings) (key : Key) :
    (indexSet openings key).Nodup := by
  exact (perm_insertionSort _ _).nodup_iff.mpr (claims_nodup distinct key)

variable {index : Nat}

theorem mem_index_set :
    index ∈ indexSet openings key ↔ ∃ value, (index, value) ∈ claims openings key := by
  unfold indexSet
  rw [mem_insertionSort, mem_map]
  constructor
  · rintro ⟨⟨found, value⟩, mem, rfl⟩
    exact ⟨value, mem⟩
  · rintro ⟨value, mem⟩
    exact ⟨(index, value), mem, rfl⟩

theorem claims_lookup (mem : index ∈ indexSet openings key) :
    ∃ value, (claims openings key).lookup index = some value := by
  rcases mem_index_set.mp mem with ⟨value, claimed⟩
  rw [← Option.isSome_iff_exists, lookup_isSome_iff]
  exact ⟨(index, value), claimed, by simp⟩

theorem values_eq (key : Key) (default : Value) :
    values openings key = (indexSet openings key).map fun index =>
      ((claims openings key).lookup index).getD default := by
  unfold values
  rw [← filterMap_eq_map]
  apply filterMap_congr
  intro index mem
  rcases claims_lookup mem with ⟨value, found⟩
  rw [Function.comp_apply, found, Option.getD_some]

theorem index_set_below (mem : index ∈ indexSet openings key) :
    index < (points openings).length := by
  rcases mem_index_set.mp mem with ⟨value, claimed⟩
  rcases mem_map.mp claimed with ⟨opening, present, same⟩
  rw [← (Prod.mk.inj same).1]
  apply idxOf_lt_length_of_mem
  exact mem_eraseDups.mpr (mem_map_of_mem (mem_of_mem_filter present))

end Batches

section Dummies

variable {Key Point Value : Type} [DecidableEq Key] [DecidableEq Point]
  (openings : List (Opening Key Point Value))

def pointsOf (key : Key) : List Point := (ofKey openings key).map (·.point)

def sharedPoints : List Point :=
  (((keys openings).filter fun key => decide (1 < (pointsOf openings key).length)).flatMap
    (pointsOf openings)).eraseDups

def missing : List (Key × Point) :=
  (keys openings).flatMap fun key =>
    ((sharedPoints openings).filter fun point => decide (point ∉ pointsOf openings key)).map
      (key, ·)

def padded (values : List Value) : List (Opening Key Point Value) :=
  openings ++ ((missing openings).zip values).map fun (entry, value) =>
    { key := entry.1, point := entry.2, value }

omit [DecidableEq Point] in
theorem mem_keys {key : Key} : key ∈ keys openings ↔ ∃ opening ∈ openings, opening.key = key := by
  simp [keys]

omit [DecidableEq Point] in
theorem mem_points_of {key : Key} {point : Point} :
    point ∈ pointsOf openings key ↔
      (key, point) ∈ openings.map fun opening => (opening.key, opening.point) := by
  simp only [pointsOf, ofKey, mem_map, mem_filter, decide_eq_true_eq, Prod.mk.injEq]
  constructor
  · rintro ⟨opening, ⟨mem, sameKey⟩, samePoint⟩
    exact ⟨opening, mem, sameKey, samePoint⟩
  · rintro ⟨opening, mem, sameKey, samePoint⟩
    exact ⟨opening, ⟨mem, sameKey⟩, samePoint⟩

theorem mem_missing {key : Key} {point : Point} :
    (key, point) ∈ missing openings ↔
      key ∈ keys openings ∧ point ∈ sharedPoints openings ∧ point ∉ pointsOf openings key := by
  simp [missing]

theorem map_fst_zip_sublist {Left Right : Type} (left : List Left) (right : List Right) :
    ((left.zip right).map (·.1)).Sublist left := by
  induction left generalizing right with
  | nil => simp
  | cons first left ih =>
    cases right with
    | nil => simp
    | cons second right => exact (ih right).cons_cons first

theorem missing_nodup : (missing openings).Nodup := by
  unfold missing
  rw [nodup_flatMap]
  constructor
  · intro key mem
    apply List.Nodup.map
    · intro left right same
      exact (Prod.mk.inj same).2
    · exact (erase_dups_nodup _).filter _
  · apply List.Pairwise.imp _ (erase_dups_nodup _)
    intro left right apart entry inLeft inRight
    rcases mem_map.mp inLeft with ⟨first, -, rfl⟩
    rcases mem_map.mp inRight with ⟨second, -, same⟩
    exact apart (Prod.mk.inj same).1.symm

theorem padded_distinct (distinct : Distinct openings) (values : List Value) :
    Distinct (padded openings values) := by
  have added : (((missing openings).zip values).map fun (entry, value) =>
      ({ key := entry.1, point := entry.2, value } : Opening Key Point Value)).map
        (fun opening => (opening.key, opening.point)) =
      ((missing openings).zip values).map (·.1) := by
    rw [map_map]
    rfl
  have prefixOf := map_fst_zip_sublist (missing openings) values
  unfold Distinct padded
  rw [map_append, added]
  refine nodup_append.mpr ⟨distinct, (missing_nodup openings).sublist prefixOf, ?_⟩
  intro present inOpenings absent inMissing same
  have lacking := (mem_missing openings).mp (prefixOf.subset inMissing)
  rw [← same] at lacking
  exact lacking.2.2 ((mem_points_of openings).mpr inOpenings)

end Dummies

section Relabel

variable {Key Point Value Key' Point' Value' : Type} [DecidableEq Key] [DecidableEq Point]
  [DecidableEq Key'] [DecidableEq Point'] (onKey : Key → Key') (onPoint : Point → Point')
  (onValue : Value → Value')

def Opening.relabel (opening : Opening Key Point Value) : Opening Key' Point' Value' where
  key := onKey opening.key
  point := onPoint opening.point
  value := onValue opening.value

def Batch.relabel (batch : Batch Key Point Value) : Batch Key' Point' Value' where
  points := batch.points.map onPoint
  openings := batch.openings.map fun (key, values) => (onKey key, values.map onValue)

/-- Different keys and points of the openings keep different names. -/
structure Faithful (openings : List (Opening Key Point Value)) : Prop where
  keys : Set.InjOn onKey {key | key ∈ openings.map (·.key)}
  points : Set.InjOn onPoint {point | point ∈ openings.map (·.point)}

variable {onKey onPoint} {openings : List (Opening Key Point Value)}

omit [DecidableEq Point] [DecidableEq Point'] in
theorem keys_relabel (faithful : Faithful onKey onPoint openings) :
    keys (openings.map (Opening.relabel onKey onPoint onValue)) = (keys openings).map onKey := by
  unfold keys
  rw [← erase_dups_map onKey _ faithful.keys, map_map, map_map]
  rfl

omit [DecidableEq Key] [DecidableEq Key'] in
theorem points_relabel (faithful : Faithful onKey onPoint openings) :
    points (openings.map (Opening.relabel onKey onPoint onValue)) =
      (points openings).map onPoint := by
  unfold points
  rw [← erase_dups_map onPoint _ faithful.points, map_map, map_map]
  rfl

variable {key : Key}

section

variable (faithful : Faithful onKey onPoint openings)

include faithful

omit [DecidableEq Point] [DecidableEq Point'] in
theorem of_key_relabel (mem : key ∈ openings.map (·.key)) :
    ofKey (openings.map (Opening.relabel onKey onPoint onValue)) (onKey key) =
      (ofKey openings key).map (Opening.relabel onKey onPoint onValue) := by
  unfold ofKey
  rw [filter_map]
  congr 1
  apply filter_congr
  intro opening present
  rw [Function.comp_apply, decide_eq_decide]
  exact faithful.keys.eq_iff (mem_map_of_mem present) mem

omit [DecidableEq Key] [DecidableEq Key'] in
theorem point_index_relabel {point : Point} (mem : point ∈ openings.map (·.point)) :
    pointIndex (openings.map (Opening.relabel onKey onPoint onValue)) (onPoint point) =
      pointIndex openings point := by
  unfold pointIndex
  rw [points_relabel onValue faithful]
  apply idx_of_map onPoint _ (mem_eraseDups.mpr mem)
  intro left inLeft right inRight
  exact faithful.points (mem_eraseDups.mp inLeft) (mem_eraseDups.mp inRight)

theorem claims_relabel (mem : key ∈ openings.map (·.key)) :
    claims (openings.map (Opening.relabel onKey onPoint onValue)) (onKey key) =
      (claims openings key).map fun (index, value) => (index, onValue value) := by
  unfold claims
  rw [of_key_relabel onValue faithful mem, map_map, map_map]
  apply map_congr_left
  intro opening present
  have inOpenings : opening ∈ openings := mem_of_mem_filter present
  have index := point_index_relabel onValue faithful (mem_map_of_mem inOpenings)
  exact Prod.ext index rfl

theorem index_set_relabel (mem : key ∈ openings.map (·.key)) :
    indexSet (openings.map (Opening.relabel onKey onPoint onValue)) (onKey key) =
      indexSet openings key := by
  unfold indexSet
  rw [claims_relabel onValue faithful mem, map_map]
  rfl

theorem index_sets_relabel :
    indexSets (openings.map (Opening.relabel onKey onPoint onValue)) = indexSets openings := by
  unfold indexSets
  rw [keys_relabel onValue faithful, map_map]
  congr 1
  apply map_congr_left
  intro key mem
  exact index_set_relabel onValue faithful (mem_eraseDups.mp mem)

end

theorem lookup_map_value {Index Image : Type} [BEq Index] (image : Value → Image)
    (table : List (Index × Value)) (index : Index) :
    (table.map fun (index, value) => (index, image value)).lookup index =
      (table.lookup index).map image := by
  induction table with
  | nil => rfl
  | cons entry table ih =>
    rw [map_cons, lookup_cons, lookup_cons, ih]
    cases index == entry.1 <;> rfl

section

variable (faithful : Faithful onKey onPoint openings)

include faithful

theorem values_relabel (mem : key ∈ openings.map (·.key)) :
    values (openings.map (Opening.relabel onKey onPoint onValue)) (onKey key) =
      (values openings key).map onValue := by
  unfold values
  rw [index_set_relabel onValue faithful mem, claims_relabel onValue faithful mem, map_filterMap]
  congr 1
  funext index
  exact lookup_map_value onValue _ index

theorem batch_relabel (set : List Nat) :
    batch (openings.map (Opening.relabel onKey onPoint onValue)) set =
      (batch openings set).relabel onKey onPoint onValue := by
  unfold batch Batch.relabel
  rw [points_relabel onValue faithful, keys_relabel onValue faithful, filter_map,
    map_map, map_map, map_filterMap]
  congr 1
  · simp only [getElem?_map]
  · have sameSet : (keys openings).filter ((fun key => decide
          (indexSet (openings.map (Opening.relabel onKey onPoint onValue)) key = set)) ∘ onKey) =
        (keys openings).filter fun key => decide (indexSet openings key = set) := by
      apply filter_congr
      intro key mem
      rw [Function.comp_apply, index_set_relabel onValue faithful (mem_eraseDups.mp mem)]
    rw [sameSet]
    apply map_congr_left
    intro key mem
    have inKeys := mem_eraseDups.mp (mem_of_mem_filter mem)
    rw [Function.comp_apply, Function.comp_apply, values_relabel onValue faithful inKeys]

theorem batches_relabel :
    batches (openings.map (Opening.relabel onKey onPoint onValue)) =
      (batches openings).map (Batch.relabel onKey onPoint onValue) := by
  unfold batches
  rw [index_sets_relabel onValue faithful, map_map]
  apply map_congr_left
  intro position mem
  exact batch_relabel onValue faithful _

omit [DecidableEq Point] [DecidableEq Point'] in
theorem points_of_relabel (mem : key ∈ openings.map (·.key)) :
    pointsOf (openings.map (Opening.relabel onKey onPoint onValue)) (onKey key) =
      (pointsOf openings key).map onPoint := by
  unfold pointsOf
  rw [of_key_relabel onValue faithful mem, map_map, map_map]
  rfl

end

omit [DecidableEq Point] in
theorem points_of_subset (key : Key) : pointsOf openings key ⊆ openings.map (·.point) := by
  intro point mem
  rcases mem_map.mp mem with ⟨opening, present, rfl⟩
  exact mem_map_of_mem (mem_of_mem_filter present)

theorem shared_points_subset : sharedPoints openings ⊆ openings.map (·.point) := by
  intro point mem
  rcases mem_flatMap.mp (mem_eraseDups.mp mem) with ⟨key, -, present⟩
  exact points_of_subset key present

section

variable (faithful : Faithful onKey onPoint openings)

include faithful

theorem shared_points_relabel :
    sharedPoints (openings.map (Opening.relabel onKey onPoint onValue)) =
      (sharedPoints openings).map onPoint := by
  have flattened : ((keys (openings.map (Opening.relabel onKey onPoint onValue))).filter
        fun key => decide (1 < (pointsOf
          (openings.map (Opening.relabel onKey onPoint onValue)) key).length)).flatMap
        (pointsOf (openings.map (Opening.relabel onKey onPoint onValue))) =
      (((keys openings).filter fun key => decide (1 < (pointsOf openings key).length)).flatMap
        (pointsOf openings)).map onPoint := by
    rw [keys_relabel onValue faithful, filter_map, flatMap_map, map_flatMap]
    have sameFilter : (keys openings).filter ((fun key => decide (1 < (pointsOf
          (openings.map (Opening.relabel onKey onPoint onValue)) key).length)) ∘ onKey) =
        (keys openings).filter fun key => decide (1 < (pointsOf openings key).length) := by
      apply filter_congr
      intro key mem
      rw [Function.comp_apply, points_of_relabel onValue faithful (mem_eraseDups.mp mem),
        length_map]
    rw [sameFilter]
    apply flatMap_congr
    intro key mem
    exact points_of_relabel onValue faithful
      (mem_eraseDups.mp (mem_of_mem_filter mem))
  unfold sharedPoints
  rw [flattened]
  apply erase_dups_map
  intro left inLeft right inRight
  exact faithful.points (shared_points_subset (mem_eraseDups.mpr inLeft))
    (shared_points_subset (mem_eraseDups.mpr inRight))

theorem missing_relabel :
    missing (openings.map (Opening.relabel onKey onPoint onValue)) =
      (missing openings).map fun (key, point) => (onKey key, onPoint point) := by
  unfold missing
  rw [keys_relabel onValue faithful, shared_points_relabel onValue faithful, flatMap_map,
    map_flatMap]
  apply flatMap_congr
  intro key mem
  rw [points_of_relabel onValue faithful (mem_eraseDups.mp mem), filter_map, map_map, map_map]
  have sameFilter : (sharedPoints openings).filter
        ((fun point => decide (point ∉ (pointsOf openings key).map onPoint)) ∘ onPoint) =
      (sharedPoints openings).filter fun point => decide (point ∉ pointsOf openings key) := by
    apply filter_congr
    intro point inShared
    rw [Function.comp_apply, decide_eq_decide, not_iff_not]
    constructor
    · intro renamed
      rcases mem_map.mp renamed with ⟨other, present, same⟩
      rwa [← faithful.points (points_of_subset key present) (shared_points_subset inShared) same]
    · exact mem_map_of_mem
  rw [sameFilter]
  rfl

theorem padded_relabel (values : List Value) :
    padded (openings.map (Opening.relabel onKey onPoint onValue)) (values.map onValue) =
      (padded openings values).map (Opening.relabel onKey onPoint onValue) := by
  unfold padded
  rw [missing_relabel onValue faithful, zip_map, map_append, map_map, map_map]
  rfl

omit [DecidableEq Key'] [DecidableEq Point'] in
theorem padded_faithful (values : List Value) :
    Faithful onKey onPoint (padded openings values) := by
  have added : ∀ opening ∈ padded openings values,
      opening.key ∈ openings.map (·.key) ∧ opening.point ∈ openings.map (·.point) := by
    intro opening mem
    rcases mem_append.mp mem with present | dummy
    · exact ⟨mem_map_of_mem present, mem_map_of_mem present⟩
    · rcases mem_map.mp dummy with ⟨⟨⟨key, point⟩, value⟩, zipped, rfl⟩
      have inMissing := (mem_missing openings).mp (of_mem_zip zipped).1
      exact ⟨mem_eraseDups.mp inMissing.1, shared_points_subset inMissing.2.1⟩
  constructor
  · apply faithful.keys.mono
    intro key mem
    rcases mem_map.mp mem with ⟨opening, present, rfl⟩
    exact (added opening present).1
  · apply faithful.points.mono
    intro point mem
    rcases mem_map.mp mem with ⟨opening, present, rfl⟩
    exact (added opening present).2

end

end Relabel

end Midfall.OpeningGroups
