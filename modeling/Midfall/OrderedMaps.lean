import Mathlib

/-!
# Ordered maps

Association lists with increasing keys: lookup, insertion, a change of all
values and the sum of a function of the entries. Maps with the same lookups are
equal, and insertion adds to a sum what it puts in and takes what it replaces.
-/

namespace Midfall.OrderedMaps

open List

variable {Key Value Other : Type} [LinearOrder Key]

@[ext]
structure OrderedMap (Key Value : Type) [LinearOrder Key] where
  entries : List (Key × Value)
  increasing : (entries.map Prod.fst).Pairwise (· < ·)

def insertEntry (key : Key) (value : Value) : List (Key × Value) → List (Key × Value)
  | [] => [(key, value)]
  | first :: rest =>
    if key < first.1 then (key, value) :: first :: rest
    else if key = first.1 then (key, value) :: rest
    else first :: insertEntry key value rest

theorem mem_insert_keys {key other : Key} {value : Value} {entries : List (Key × Value)}
    (mem : other ∈ (insertEntry key value entries).map Prod.fst) :
    other = key ∨ other ∈ entries.map Prod.fst := by
  induction entries with
  | nil =>
    left
    simpa [insertEntry] using mem
  | cons first rest ih =>
    rw [insertEntry] at mem
    split_ifs at mem with before same
    · simpa using mem
    · simp only [map_cons, mem_cons] at mem ⊢
      tauto
    · simp only [map_cons, mem_cons] at mem ⊢
      rcases mem with here | later
      · exact Or.inr (Or.inl here)
      · exact (ih later).imp_right Or.inr

theorem insert_increasing (key : Key) (value : Value) {entries : List (Key × Value)}
    (increasing : (entries.map Prod.fst).Pairwise (· < ·)) :
    ((insertEntry key value entries).map Prod.fst).Pairwise (· < ·) := by
  induction entries with
  | nil => simp [insertEntry]
  | cons first rest ih =>
    rw [map_cons, pairwise_cons] at increasing
    rw [insertEntry]
    split_ifs with before same
    · simp only [map_cons, pairwise_cons, mem_cons]
      refine ⟨?_, increasing⟩
      rintro other (rfl | later)
      · exact before
      · exact before.trans (increasing.1 other later)
    · rw [map_cons, pairwise_cons, same]
      exact increasing
    · rw [map_cons, pairwise_cons]
      refine ⟨fun other mem => ?_, ih increasing.2⟩
      rcases mem_insert_keys mem with rfl | later
      · exact lt_of_le_of_ne (not_lt.mp before) (Ne.symm same)
      · exact increasing.1 other later

omit [LinearOrder Key] in
theorem zip_keys_sublist (keys : List Key) (others : List Other) :
    ((keys.zip others).map Prod.fst).Sublist keys := by
  induction keys generalizing others with
  | nil => simp
  | cons key keys ih =>
    cases others with
    | nil => simp
    | cons other others => simpa using ih others

namespace OrderedMap

def empty : OrderedMap Key Value := ⟨[], List.Pairwise.nil⟩

def keys (map : OrderedMap Key Value) : List Key := map.entries.map Prod.fst

def values (map : OrderedMap Key Value) : List Value := map.entries.map Prod.snd

def get? (map : OrderedMap Key Value) (key : Key) : Option Value :=
  (map.entries.find? fun entry => decide (entry.1 = key)).map Prod.snd

def insert (map : OrderedMap Key Value) (key : Key) (value : Value) : OrderedMap Key Value :=
  ⟨insertEntry key value map.entries, insert_increasing key value map.increasing⟩

def ofList (entries : List (Key × Value)) : OrderedMap Key Value :=
  entries.foldl (fun map entry => map.insert entry.1 entry.2) empty

def withValues (map : OrderedMap Key Value) (others : List Other) : OrderedMap Key Other :=
  ⟨map.keys.zip others, map.increasing.sublist (zip_keys_sublist map.keys others)⟩

def mapValues (map : OrderedMap Key Value) (view : Value → Other) : OrderedMap Key Other :=
  ⟨map.entries.map fun entry => (entry.1, view entry.2), by
    rw [map_map]
    exact map.increasing⟩

@[simp]
theorem get_empty (key : Key) : (empty : OrderedMap Key Value).get? key = none := rfl

theorem find_insert (key other : Key) (value : Value) (entries : List (Key × Value)) :
    ((insertEntry key value entries).find? fun entry => decide (entry.1 = other)).map Prod.snd =
      if other = key then some value
      else (entries.find? fun entry => decide (entry.1 = other)).map Prod.snd := by
  induction entries with
  | nil =>
    by_cases same : other = key
    · simp [insertEntry, same]
    · simp [insertEntry, same, Ne.symm same]
  | cons first rest ih =>
    rw [insertEntry]
    by_cases before : key < first.1
    · rw [if_pos before]
      by_cases same : other = key
      · simp [same]
      · simp [same, Ne.symm same]
    by_cases place : key = first.1
    · rw [if_neg before, if_pos place]
      by_cases same : other = key
      · simp [same]
      · have elsewhere : ¬first.1 = other := fun here => same (here.symm.trans place.symm)
        simp [same, Ne.symm same, elsewhere]
    rw [if_neg before, if_neg place]
    by_cases here : first.1 = other
    · have elsewhere : ¬other = key := fun same => place (same.symm.trans here.symm)
      rw [find?_cons_of_pos (by simpa using here),
        find?_cons_of_pos (by simpa using here), if_neg elsewhere]
    · rw [find?_cons_of_neg (by simpa using here), ih,
        find?_cons_of_neg (by simpa using here)]

theorem get_insert (map : OrderedMap Key Value) (key other : Key) (value : Value) :
    (map.insert key value).get? other = if other = key then some value else map.get? other :=
  find_insert key other value map.entries

variable {map : OrderedMap Key Value} {key : Key}

theorem mem_iff_get {value : Value} :
    (key, value) ∈ map.entries ↔ map.get? key = some value := by
  rcases map with ⟨entries, increasing⟩
  unfold get?
  induction entries with
  | nil => simp
  | cons first rest ih =>
    rw [map_cons, pairwise_cons] at increasing
    by_cases here : first.1 = key
    · rw [find?_cons_of_pos (by simpa using here), mem_cons, Option.map_some,
        Option.some.injEq]
      constructor
      · rintro (same | later)
        · rw [← same]
        · have above := increasing.1 key (mem_map_of_mem later)
          exact absurd here (ne_of_lt above)
      · intro same
        exact Or.inl (Prod.ext here.symm same.symm)
    · rw [find?_cons_of_neg (by simpa using here), mem_cons, ← ih increasing.2]
      constructor
      · rintro (same | later)
        · exact absurd (congrArg Prod.fst same).symm here
        · exact later
      · exact Or.inr

theorem mem_keys_iff :
    key ∈ map.keys ↔ ∃ value, map.get? key = some value := by
  unfold keys
  simp only [mem_map, Prod.exists, exists_and_right, exists_eq_right, mem_iff_get]

theorem get_eq_none_iff :
    map.get? key = none ↔ key ∉ map.keys := by
  rw [mem_keys_iff, Option.eq_none_iff_forall_ne_some, not_exists]

theorem mem_keys_insert {other : Key} {value : Value} :
    other ∈ (map.insert key value).keys ↔ other = key ∨ other ∈ map.keys := by
  simp only [mem_keys_iff, get_insert]
  by_cases same : other = key <;> simp [same]

theorem ext_get {first second : OrderedMap Key Value}
    (same : ∀ key, first.get? key = second.get? key) : first = second := by
  have nodup : ∀ map : OrderedMap Key Value, map.entries.Nodup := fun map =>
    List.Nodup.of_map _ (map.increasing.imp ne_of_lt)
  have members : first.entries.Perm second.entries := by
    rw [perm_ext_iff_of_nodup (nodup first) (nodup second)]
    rintro ⟨key, value⟩
    rw [mem_iff_get, mem_iff_get, same]
  have increasing : ∀ map : OrderedMap Key Value,
      map.entries.Pairwise fun before after => before.1 < after.1 := fun map =>
    pairwise_map.mp map.increasing
  have antisymmetric : ∀ before after : Key × Value, before ∈ first.entries →
      after ∈ second.entries → before.1 < after.1 → after.1 < before.1 → before = after :=
    fun _ _ _ _ less more => absurd (less.trans more) (lt_irrefl _)
  have ordered : first.entries = second.entries :=
    List.Perm.eq_of_pairwise antisymmetric (increasing first) (increasing second) members
  exact OrderedMap.ext ordered

theorem get_insert_all (map : OrderedMap Key Value) (entries : List (Key × Value)) (key : Key) :
    (entries.foldl (fun map entry => map.insert entry.1 entry.2) map).get? key =
      ((ofList entries).get? key).or (map.get? key) := by
  induction entries generalizing map with
  | nil => rfl
  | cons entry entries ih =>
    rw [ofList, foldl_cons, foldl_cons, ih, ih (empty.insert _ _),
      get_insert, get_insert, get_empty]
    cases (ofList entries).get? key with
    | some value => rfl
    | none =>
      by_cases same : key = entry.1
      · rw [if_pos same, if_pos same]
        rfl
      · rw [if_neg same, if_neg same]
        rfl

theorem get_of_list_cons (entry : Key × Value) (entries : List (Key × Value)) (key : Key) :
    (ofList (entry :: entries)).get? key =
      ((ofList entries).get? key).or (if key = entry.1 then some entry.2 else none) := by
  rw [ofList, foldl_cons, get_insert_all, get_insert, get_empty]

theorem mem_keys_of_list {entries : List (Key × Value)} :
    key ∈ (ofList entries).keys ↔ key ∈ entries.map Prod.fst := by
  induction entries with
  | nil => simp [mem_keys_iff, ofList]
  | cons entry entries ih =>
    rw [map_cons, mem_cons, ← ih, mem_keys_iff, mem_keys_iff]
    simp only [get_of_list_cons]
    by_cases same : key = entry.1
    · cases (ofList entries).get? key <;> simp [same]
    · cases (ofList entries).get? key <;> simp [same]

theorem of_list_cons (entry : Key × Value) (entries : List (Key × Value)) :
    ofList (entry :: entries) =
      if entry.1 ∈ entries.map Prod.fst then ofList entries
      else (ofList entries).insert entry.1 entry.2 := by
  apply ext_get
  intro key
  rw [get_of_list_cons]
  by_cases later : entry.1 ∈ entries.map Prod.fst
  · rw [if_pos later]
    by_cases same : key = entry.1
    · rw [← same] at later
      rcases mem_keys_iff.mp (mem_keys_of_list.mpr later) with ⟨value, found⟩
      rw [found]
      rfl
    · rw [if_neg same, Option.or_none]
  · rw [if_neg later, get_insert]
    by_cases same : key = entry.1
    · rw [← same] at later
      rw [get_eq_none_iff.mpr fun mem => later (mem_keys_of_list.mp mem), if_pos same]
      rfl
    · rw [if_neg same, if_neg same, Option.or_none]

theorem get_map_values (map : OrderedMap Key Value) (view : Value → Other) (key : Key) :
    (map.mapValues view).get? key = (map.get? key).map view := by
  unfold get? mapValues
  rw [find?_map, Option.map_map, Option.map_map]
  rfl

theorem map_values_insert (map : OrderedMap Key Value) (view : Value → Other) (key : Key)
    (value : Value) :
    (map.insert key value).mapValues view = (map.mapValues view).insert key (view value) := by
  apply ext_get
  intro other
  simp only [get_map_values, get_insert]
  by_cases same : other = key <;> simp [same]

@[simp]
theorem values_map_values (map : OrderedMap Key Value) (view : Value → Other) :
    (map.mapValues view).values = map.values.map view := by
  unfold values mapValues
  simp only [map_map, Function.comp_def]

theorem with_values_map (map : OrderedMap Key Value) (view : Value → Other) :
    map.withValues (map.values.map view) = map.mapValues view := by
  apply OrderedMap.ext
  show (map.entries.map Prod.fst).zip ((map.entries.map Prod.snd).map view) =
    map.entries.map fun entry => (entry.1, view entry.2)
  rw [map_map, zip_map']
  rfl

section Total

variable {Sum : Type} [AddCommGroup Sum]

def total (map : OrderedMap Key Value) (weight : Key → Value → Sum) : Sum :=
  (map.entries.map fun entry => weight entry.1 entry.2).sum

def share (map : OrderedMap Key Value) (weight : Key → Value → Sum) (key : Key) : Sum :=
  ((map.get? key).map (weight key)).getD 0

theorem total_insert (map : OrderedMap Key Value) (weight : Key → Value → Sum) (key : Key)
    (value : Value) :
    (map.insert key value).total weight =
      map.total weight + weight key value - map.share weight key := by
  rcases map with ⟨entries, increasing⟩
  unfold total insert share get?
  dsimp only
  induction entries with
  | nil => simp [insertEntry]
  | cons first rest ih =>
    rw [map_cons, pairwise_cons] at increasing
    have later := ih increasing.2
    rw [insertEntry]
    split_ifs with before place
    · have absent : ((first :: rest).find? fun entry => decide (entry.1 = key)) = none := by
        rw [find?_eq_none]
        intro entry mem
        have above : key < entry.1 := by
          rcases mem_cons.mp mem with rfl | inRest
          · exact before
          · exact before.trans (increasing.1 _ (mem_map_of_mem inRest))
        simpa using (ne_of_lt above).symm
      rw [absent]
      simp only [map_cons, sum_cons, Option.map_none, Option.getD_none]
      abel
    · rw [find?_cons_of_pos (by simpa using place.symm)]
      simp only [map_cons, sum_cons, Option.map_some, Option.getD_some, ← place]
      abel
    · rw [find?_cons_of_neg (by simpa using Ne.symm place)]
      simp only [map_cons, sum_cons, later]
      abel

theorem total_of_list_cons (entry : Key × Value) (entries : List (Key × Value))
    (weight : Key → Value → Sum) :
    (ofList (entry :: entries)).total weight = (ofList entries).total weight +
      if entry.1 ∈ entries.map Prod.fst then 0 else weight entry.1 entry.2 := by
  rw [of_list_cons]
  split_ifs with later
  · rw [add_zero]
  · have absent := get_eq_none_iff.mpr fun mem => later (mem_keys_of_list.mp mem)
    rw [total_insert, share, absent, Option.map_none, Option.getD_none, sub_zero]

end Total

end OrderedMap

end Midfall.OrderedMaps
