import Midfall.ByteReader
import Midfall.ListLoops

/-!
# Serialization of automata

The byte encodings of machine integers, options, tuples, vectors, hash sets and
hash maps, and of the automata built from them. Hash collections are finite sets
and finite maps; they are written in sorted order and read back from any list.
-/

namespace Midfall.AutomatonSerialization

open ByteReader ListLoops List

abbrev U8 := Fin 256

/-- A 64-bit word. On a 64-bit platform `usize` has the same values, so the
range check of its reader always passes. -/
abbrev U64 := Fin (2 ^ 64)

def toLeBytes : Nat → Nat → List U8
  | 0, _ => []
  | count + 1, value => Fin.ofNat 256 value :: toLeBytes count (value / 256)

def fromLeBytes : List U8 → Nat
  | [] => 0
  | byte :: bytes => byte + 256 * fromLeBytes bytes

theorem to_le_bytes_length (count value : Nat) : (toLeBytes count value).length = count := by
  induction count generalizing value with
  | zero => rfl
  | succ count ih => exact congrArg Nat.succ (ih (value / 256))

theorem from_to_le_bytes {count value : Nat} (fits : value < 256 ^ count) :
    fromLeBytes (toLeBytes count value) = value := by
  induction count generalizing value with
  | zero =>
    rw [pow_zero] at fits
    exact (Nat.lt_one_iff.mp fits).symm
  | succ count ih =>
    have high : value / 256 < 256 ^ count := by
      apply Nat.div_lt_of_lt_mul
      rwa [pow_succ, Nat.mul_comm] at fits
    rw [toLeBytes, fromLeBytes, ih high]
    exact Nat.mod_add_div value 256

theorem from_le_bytes_lt (bytes : List U8) : fromLeBytes bytes < 256 ^ bytes.length := by
  induction bytes with
  | nil => exact Nat.one_pos
  | cons byte bytes ih =>
    rw [fromLeBytes, length_cons, pow_succ]
    have low := byte.isLt
    omega

theorem to_from_le_bytes (bytes : List U8) :
    toLeBytes bytes.length (fromLeBytes bytes) = bytes := by
  induction bytes with
  | nil => rfl
  | cons byte bytes ih =>
    have low := byte.isLt
    have digit : Fin.ofNat 256 (byte + 256 * fromLeBytes bytes) = byte := by
      apply Fin.ext
      rw [Fin.val_ofNat, Nat.add_mul_mod_self_left, Nat.mod_eq_of_lt low]
    have rest : (byte + 256 * fromLeBytes bytes) / 256 = fromLeBytes bytes := by omega
    rw [length_cons, fromLeBytes, toLeBytes, digit, rest, ih]

/-- A vector's length is a `usize`. -/
abbrev RustVec (Item : Type) := { items : List Item // items.length < 2 ^ 64 }

abbrev FxHashSet (Item : Type) := { items : Finset Item // items.card < 2 ^ 64 }

abbrev FxHashMap (Key Value : Type) :=
  { entries : Finmap fun _ : Key => Value // entries.keys.card < 2 ^ 64 }

section Collections

variable {Key Value : Type} [LinearOrder Key]

def setFromIter (items : RustVec Key) : FxHashSet Key :=
  ⟨items.1.toFinset, (toFinset_card_le items.1).trans_lt items.2⟩

/-- The items as `sort` leaves them. -/
def sortedItems (set : FxHashSet Key) : RustVec Key :=
  ⟨set.1.sort (· ≤ ·), (Finset.length_sort _).trans_lt set.2⟩

/-- A later entry replaces an earlier one of its key. -/
def insertAll (entries : List (Key × Value)) : Finmap fun _ : Key => Value :=
  entries.foldl (fun map entry => map.insert entry.1 entry.2) ∅

theorem insert_all_snoc (entries : List (Key × Value)) (last : Key × Value) :
    insertAll (entries ++ [last]) = (insertAll entries).insert last.1 last.2 := by
  simp [insertAll]

theorem lookup_insert_all (entries : List (Key × Value)) (key : Key) :
    (insertAll entries).lookup key = collected entries key := by
  induction entries using List.reverseRecOn with
  | nil => exact Finmap.lookup_empty key
  | append_singleton entries last ih =>
    unfold collected at ih ⊢
    rw [insert_all_snoc, reverse_append, reverse_singleton, singleton_append, lookup_cons]
    by_cases same : key = last.1
    · subst same
      rw [Finmap.lookup_insert, beq_self_eq_true]
    · rw [Finmap.lookup_insert_of_ne _ same, beq_false_of_ne same, ih]

theorem keys_insert_all (entries : List (Key × Value)) :
    (insertAll entries).keys = (entries.map (·.1)).toFinset := by
  induction entries using List.reverseRecOn with
  | nil => exact Finmap.keys_empty
  | append_singleton entries last ih =>
    apply Finset.ext
    intro key
    rw [insert_all_snoc, Finmap.mem_keys, Finmap.mem_insert, ← Finmap.mem_keys, ih]
    simp

def mapFromIter (entries : RustVec (Key × Value)) : FxHashMap Key Value :=
  ⟨insertAll entries.1, by
    rw [keys_insert_all]
    have bounded := (toFinset_card_le (entries.1.map (·.1))).trans_lt
      ((length_map _).trans_lt entries.2)
    exact bounded⟩

def listing (map : Finmap fun _ : Key => Value) : List (Key × Value) :=
  (map.keys.sort (· ≤ ·)).filterMap fun key => (map.lookup key).map (key, ·)

theorem listing_keys (map : Finmap fun _ : Key => Value) :
    (listing map).map (·.1) = map.keys.sort (· ≤ ·) := by
  have kept : ∀ keys : List Key, (∀ key ∈ keys, key ∈ map) →
      (keys.filterMap fun key => (map.lookup key).map (key, ·)).map (·.1) = keys := by
    intro keys present
    induction keys with
    | nil => rfl
    | cons key keys ih =>
      obtain ⟨value, found⟩ := Finmap.mem_iff.mp (present key mem_cons_self)
      rw [filterMap_cons_some (by rw [found]; rfl), map_cons, ih (forall_mem_cons.mp present).2]
  apply kept
  intro key mem
  exact Finmap.mem_keys.mp ((Finset.mem_sort _).mp mem)

/-- The entries as `sort_by_key` leaves them. -/
def sortedEntries (map : FxHashMap Key Value) : RustVec (Key × Value) :=
  ⟨listing map.1, by
    have keys := congrArg List.length (listing_keys map.1)
    rw [length_map, Finset.length_sort] at keys
    exact keys.trans_lt map.2⟩

theorem listing_lookup {map : Finmap fun _ : Key => Value} {key : Key} {value : Value}
    (found : map.lookup key = some value) : (key, value) ∈ listing map := by
  apply mem_filterMap.mpr
  use key
  constructor
  · apply (Finset.mem_sort _).mpr
    exact Finmap.mem_keys.mpr (Finmap.mem_iff.mpr ⟨value, found⟩)
  · rw [found]
    rfl

theorem insert_all_listing (map : Finmap fun _ : Key => Value) :
    insertAll (listing map) = map := by
  apply Finmap.ext_lookup
  intro key
  rw [lookup_insert_all]
  cases found : map.lookup key with
  | some value =>
    apply collected_of_mem
    · rw [listing_keys]
      exact Finset.sort_nodup _ _
    · exact listing_lookup found
  | none =>
    cases recorded : collected (listing map) key with
    | none => rfl
    | some value =>
      have mem := mem_map_of_mem (f := Prod.fst)
        (mem_reverse.mp (mem_of_lookup recorded))
      rw [listing_keys, Finset.mem_sort, Finmap.mem_keys] at mem
      exact absurd mem (Finmap.lookup_eq_none.mp found)

theorem listing_insert_all (entries : List (Key × Value)) :
    listing (insertAll entries) = entries ↔ (entries.map (·.1)).Pairwise (· < ·) := by
  constructor
  · intro same
    rw [← same, listing_keys]
    exact (Finset.sortedLT_sort _).pairwise
  · intro ascending
    have distinct : (entries.map (·.1)).Nodup := ascending.imp ne_of_lt
    have sorted : (insertAll entries).keys.sort (· ≤ ·) = entries.map (·.1) := by
      rw [keys_insert_all]
      exact (toFinset_sort _ distinct).mpr (ascending.imp le_of_lt)
    unfold listing
    have found : ∀ entry ∈ entries,
        ((insertAll entries).lookup entry.1).map (entry.1, ·) = some entry := by
      intro entry mem
      rw [lookup_insert_all, collected_of_mem distinct mem]
      rfl
    rw [sorted, filterMap_map]
    exact (filterMap_congr found).trans filterMap_some

theorem set_from_sorted (set : FxHashSet Key) : setFromIter (sortedItems set) = set := by
  apply Subtype.ext
  exact Finset.sort_toFinset _ _

theorem map_from_sorted (map : FxHashMap Key Value) : mapFromIter (sortedEntries map) = map := by
  apply Subtype.ext
  exact insert_all_listing map.1

/-- A set is written as its list exactly when that list ascends. -/
theorem sorted_items_eq_iff (items : RustVec Key) :
    sortedItems (setFromIter items) = items ↔ items.1.Pairwise (· < ·) := by
  constructor
  · intro same
    have listed : items.1.toFinset.sort (· ≤ ·) = items.1 := congrArg Subtype.val same
    rw [← listed]
    exact (Finset.sortedLT_sort _).pairwise
  · intro ascending
    apply Subtype.ext
    exact (toFinset_sort _ (ascending.imp ne_of_lt)).mpr (ascending.imp le_of_lt)

theorem sorted_entries_eq_iff (entries : RustVec (Key × Value)) :
    sortedEntries (mapFromIter entries) = entries ↔
      (entries.1.map (·.1)).Pairwise (· < ·) := by
  rw [← listing_insert_all]
  constructor
  · intro same
    exact congrArg Subtype.val same
  · intro same
    exact Subtype.ext same

end Collections

/-- Buffer underflow: the required length and the buffer. -/
structure Underflow where
  required : Nat
  buffer : List U8
  deriving DecidableEq, Repr

class Serialize (Item : Type) where
  serialize : Item → List U8
  deserialize : List U8 → Except Underflow (Item × List U8)

open Serialize

def ensureBufLen (buffer : List U8) (required : Nat) : Except Underflow Unit :=
  if buffer.length < required then .error ⟨required, buffer⟩ else .ok ()

instance : Serialize U8 where
  serialize byte := [byte]
  deserialize buffer :=
    match buffer with
    | [] => .error ⟨1, buffer⟩
    | byte :: rest => .ok (byte, rest)

instance : Serialize U64 where
  serialize word := toLeBytes 8 word
  deserialize buffer := do
    ensureBufLen buffer 8
    return (Fin.ofNat (2 ^ 64) (fromLeBytes (buffer.take 8)), buffer.drop 8)

section Generic

variable {First Second : Type} [Serialize First] [Serialize Second]

/-- A triple is a pair whose second item is a pair: it has the same bytes. -/
instance : Serialize (First × Second) where
  serialize pair := serialize pair.1 ++ serialize pair.2
  deserialize buffer := do
    let (first, rest) ← deserialize buffer
    let (second, rest) ← deserialize rest
    return ((first, second), rest)

def deserializeItems : (count : Nat) → List U8 →
    Except Underflow ({ items : List First // items.length = count } × List U8)
  | 0, buffer => .ok (⟨[], rfl⟩, buffer)
  | count + 1, buffer => do
    let (item, rest) ← deserialize buffer
    let (items, rest) ← deserializeItems count rest
    return (⟨item :: items.1, congrArg Nat.succ items.2⟩, rest)

/-- A capacity that cannot be reserved stops the program; no buffer holds that
many items, so the loop fails as well. -/
instance : Serialize (RustVec First) where
  serialize items :=
    serialize (Fin.ofNat (2 ^ 64) items.1.length) ++ items.1.flatMap serialize
  deserialize buffer := do
    let (len, rest) ← @deserialize U64 _ buffer
    let (items, rest) ← deserializeItems len rest
    return (⟨items.1, items.2.trans_lt len.isLt⟩, rest)

theorem serialize_vec (items : RustVec First) :
    serialize items =
      serialize (Fin.ofNat (2 ^ 64) items.1.length) ++ items.1.flatMap serialize := rfl

theorem deserialize_vec (buffer : List U8) :
    deserialize buffer = (do
      let (len, rest) ← @deserialize U64 _ buffer
      let (items, rest) ← deserializeItems len rest
      return (⟨items.1, items.2.trans_lt len.isLt⟩, rest) :
        Except Underflow (RustVec First × List U8)) := rfl

end Generic

section Hashed

variable {Key Value : Type} [Serialize Key] [Serialize Value] [LinearOrder Key]

instance : Serialize (FxHashSet Key) where
  serialize set := serialize (sortedItems set)
  deserialize buffer := do
    let (items, rest) ← @deserialize (RustVec Key) _ buffer
    return (setFromIter items, rest)

instance : Serialize (FxHashMap Key Value) where
  serialize map := serialize (sortedEntries map)
  deserialize buffer := do
    let (entries, rest) ← @deserialize (RustVec (Key × Value)) _ buffer
    return (mapFromIter entries, rest)

theorem serialize_set (set : FxHashSet Key) : serialize set = serialize (sortedItems set) := rfl

theorem deserialize_set (buffer : List U8) :
    deserialize buffer = (do
      let (items, rest) ← @deserialize (RustVec Key) _ buffer
      return (setFromIter items, rest) : Except Underflow (FxHashSet Key × List U8)) := rfl

theorem serialize_map (map : FxHashMap Key Value) :
    serialize map = serialize (sortedEntries map) := rfl

theorem deserialize_map (buffer : List U8) :
    deserialize buffer = (do
      let (entries, rest) ← @deserialize (RustVec (Key × Value)) _ buffer
      return (mapFromIter entries, rest) :
        Except Underflow (FxHashMap Key Value × List U8)) := rfl

end Hashed

/-- Transitions are keyed by state and byte, in the order of tuples. -/
structure Automaton where
  nbStates : U64
  initialState : U64
  finalStates : FxHashSet U64
  transitions : FxHashMap (U64 ×ₗ U8) (U64 × U64)

/-- A key has the bytes of its tuple. -/
instance : Serialize (U64 ×ₗ U8) := inferInstanceAs (Serialize (U64 × U8))

instance : Serialize Automaton where
  serialize automaton :=
    serialize automaton.nbStates ++ serialize automaton.initialState ++
      serialize automaton.finalStates ++ serialize automaton.transitions
  deserialize buffer := do
    let (nbStates, rest) ← deserialize buffer
    let (initialState, rest) ← deserialize rest
    let (finalStates, rest) ← deserialize rest
    let (transitions, rest) ← deserialize rest
    return ({ nbStates, initialState, finalStates, transitions }, rest)

/-- Reading back what was written, whatever follows. -/
class RoundTrip (Item : Type) [Serialize Item] : Prop where
  read_written : ∀ (item : Item) (suffix : List U8),
    deserialize (serialize item ++ suffix) = .ok (item, suffix)

/-- Accepted bytes are the ones written for the value. -/
class Exact (Item : Type) [Serialize Item] : Prop where
  written_read : ∀ {buffer : List U8} {item : Item} {rest : List U8},
    deserialize buffer = .ok (item, rest) → buffer = serialize item ++ rest

open RoundTrip Exact

instance : RoundTrip U8 where
  read_written _ _ := rfl

instance : Exact U8 where
  written_read := by
    intro buffer item rest accepted
    cases buffer with
    | nil => cases accepted
    | cons byte bytes =>
      cases accepted
      rfl

instance : RoundTrip U64 where
  read_written := by
    intro word suffix
    have length := to_le_bytes_length 8 word
    have enough : ¬ (toLeBytes 8 word ++ suffix).length < 8 := by
      rw [length_append, length]
      omega
    have fits : (word : Nat) < 256 ^ 8 := word.isLt
    have written : (toLeBytes 8 word ++ suffix).take 8 = toLeBytes 8 word := by
      rw [take_append_of_le_length (by omega), take_of_length_le (by omega)]
    have left : (toLeBytes 8 word ++ suffix).drop 8 = suffix := by
      rw [drop_append, length, Nat.sub_self, drop_zero, drop_eq_nil_of_le (by omega), nil_append]
    simp only [serialize, deserialize, ensureBufLen, if_neg enough, written, left,
      from_to_le_bytes fits, bind, Except.bind, pure, Except.pure]
    congr 2
    exact Fin.ext (Nat.mod_eq_of_lt word.isLt)

instance : Exact U64 where
  written_read := by
    intro buffer word rest accepted
    by_cases short : buffer.length < 8
    · simp [deserialize, ensureBufLen, short, bind, Except.bind] at accepted
    · simp only [deserialize, ensureBufLen, if_neg short, bind, Except.bind, pure, Except.pure,
        Except.ok.injEq, Prod.mk.injEq] at accepted
      obtain ⟨rfl, rfl⟩ := accepted
      have eight : (buffer.take 8).length = 8 := by
        rw [length_take]
        omega
      have fits : fromLeBytes (buffer.take 8) < 2 ^ 64 := by
        have bounded := from_le_bytes_lt (buffer.take 8)
        rwa [eight] at bounded
      have written := to_from_le_bytes (buffer.take 8)
      rw [eight] at written
      have word : ((Fin.ofNat (2 ^ 64) (fromLeBytes (buffer.take 8)) : U64) : Nat) =
          fromLeBytes (buffer.take 8) := Nat.mod_eq_of_lt fits
      simp only [serialize, word, written, take_append_drop]

section Generic

variable {First Second : Type} [Serialize First] [Serialize Second]

instance [RoundTrip First] [RoundTrip Second] : RoundTrip (First × Second) where
  read_written := by
    intro pair suffix
    simp only [serialize, deserialize, append_assoc, read_written, bind, Except.bind, pure,
      Except.pure]

instance [Exact First] [Exact Second] : Exact (First × Second) where
  written_read := by
    intro buffer pair rest accepted
    simp only [deserialize, bind_ok_iff, pure_ok_iff, Prod.exists, Prod.mk.injEq] at accepted
    obtain ⟨first, middle, readFirst, second, last, readSecond, rfl, rfl⟩ := accepted
    rw [written_read readFirst, written_read readSecond]
    exact (append_assoc _ _ _).symm

theorem read_written_items [RoundTrip First] (items : List First) (suffix : List U8)
    {count : Nat} (counted : items.length = count) :
    deserializeItems count (items.flatMap serialize ++ suffix) = .ok (⟨items, counted⟩, suffix) := by
  subst counted
  induction items with
  | nil => rfl
  | cons item items ih =>
    simp only [length_cons, flatMap_cons, deserializeItems, append_assoc,
      read_written, ih, bind, Except.bind, pure, Except.pure]

theorem written_read_items [Exact First] {count : Nat} {buffer : List U8}
    {decoded : { items : List First // items.length = count } × List U8}
    (accepted : deserializeItems count buffer = .ok decoded) :
    buffer = decoded.1.1.flatMap serialize ++ decoded.2 := by
  induction count generalizing buffer with
  | zero =>
    cases accepted
    rfl
  | succ count ih =>
    simp only [deserializeItems, bind_ok_iff, pure_ok_iff, Prod.exists] at accepted
    obtain ⟨item, middle, first, others, last, later, rfl⟩ := accepted
    rw [written_read first, ih later, flatMap_cons, append_assoc]

instance [RoundTrip First] : RoundTrip (RustVec First) where
  read_written := by
    intro items suffix
    have len : items.1.length = (Fin.ofNat (2 ^ 64) items.1.length).val := by
      rw [Fin.val_ofNat, Nat.mod_eq_of_lt items.2]
    have read := read_written_items items.1 suffix len
    rw [deserialize_vec, serialize_vec, append_assoc, read_written]
    simp only [bind, Except.bind, read]
    rfl

instance [Exact First] : Exact (RustVec First) where
  written_read := by
    intro buffer items rest accepted
    rw [deserialize_vec] at accepted
    simp only [bind_ok_iff, pure_ok_iff, Prod.exists, Prod.mk.injEq] at accepted
    obtain ⟨len, middle, readLen, decoded, last, readItems, rfl, rfl⟩ := accepted
    have word : Fin.ofNat (2 ^ 64) decoded.1.length = len := by
      apply Fin.ext
      rw [Fin.val_ofNat, decoded.2, Nat.mod_eq_of_lt len.isLt]
    rw [written_read readLen, written_read_items readItems, serialize_vec, word, append_assoc]

end Generic

section Hashed

variable {Key Value : Type} [Serialize Key] [Serialize Value] [LinearOrder Key]

instance [RoundTrip Key] : RoundTrip (FxHashSet Key) where
  read_written := by
    intro set suffix
    rw [deserialize_set, serialize_set, read_written]
    exact congrArg (fun set => Except.ok (set, suffix)) (set_from_sorted set)

instance [RoundTrip Key] [RoundTrip Value] : RoundTrip (FxHashMap Key Value) where
  read_written := by
    intro map suffix
    rw [deserialize_map, serialize_map, read_written]
    exact congrArg (fun map => Except.ok (map, suffix)) (map_from_sorted map)

theorem read_set [Exact Key] {buffer rest : List U8} {set : FxHashSet Key}
    (accepted : deserialize buffer = .ok (set, rest)) :
    ∃ items : RustVec Key, buffer = serialize items ++ rest ∧ set = setFromIter items := by
  rw [deserialize_set] at accepted
  simp only [bind_ok_iff, pure_ok_iff, Prod.exists, Prod.mk.injEq] at accepted
  obtain ⟨items, middle, readItems, rfl, rfl⟩ := accepted
  exact ⟨items, written_read readItems, rfl⟩

theorem read_map [Exact Key] [Exact Value] {buffer rest : List U8} {map : FxHashMap Key Value}
    (accepted : deserialize buffer = .ok (map, rest)) :
    ∃ entries : RustVec (Key × Value), buffer = serialize entries ++ rest ∧
      map = mapFromIter entries := by
  rw [deserialize_map] at accepted
  simp only [bind_ok_iff, pure_ok_iff, Prod.exists, Prod.mk.injEq] at accepted
  obtain ⟨entries, middle, readEntries, rfl, rfl⟩ := accepted
  exact ⟨entries, written_read readEntries, rfl⟩

end Hashed

theorem written_injective {Item : Type} [Serialize Item] [RoundTrip Item] {left right : Item}
    {afterLeft afterRight : List U8}
    (same : serialize left ++ afterLeft = serialize right ++ afterRight) :
    left = right ∧ afterLeft = afterRight := by
  have read := read_written left afterLeft
  rw [same, read_written] at read
  exact ⟨(Prod.mk.inj (Except.ok.inj read)).1.symm, (Prod.mk.inj (Except.ok.inj read)).2.symm⟩

instance : RoundTrip (U64 ×ₗ U8) := inferInstanceAs (RoundTrip (U64 × U8))

instance : Exact (U64 ×ₗ U8) := inferInstanceAs (Exact (U64 × U8))

theorem serialize_automaton (automaton : Automaton) :
    serialize automaton = serialize automaton.nbStates ++ serialize automaton.initialState ++
      serialize automaton.finalStates ++ serialize automaton.transitions := rfl

theorem deserialize_automaton (buffer : List U8) :
    deserialize buffer = (do
      let (nbStates, rest) ← deserialize buffer
      let (initialState, rest) ← deserialize rest
      let (finalStates, rest) ← deserialize rest
      let (transitions, rest) ← deserialize rest
      return ({ nbStates, initialState, finalStates, transitions }, rest) :
        Except Underflow (Automaton × List U8)) := rfl

theorem read_written_automaton (automaton : Automaton) (suffix : List U8) :
    deserialize (serialize automaton ++ suffix) = .ok (automaton, suffix) := by
  rw [deserialize_automaton, serialize_automaton]
  simp only [append_assoc, read_written, bind, Except.bind, pure, Except.pure]

/-- The lists that an accepted automaton was read from. -/
structure ReadFrom (bytes : List U8) (automaton : Automaton) (finals : RustVec U64)
    (entries : RustVec ((U64 ×ₗ U8) × (U64 × U64))) : Prop where
  bytes_eq : bytes = serialize automaton.nbStates ++ serialize automaton.initialState ++
    serialize finals ++ serialize entries
  finals_eq : automaton.finalStates = setFromIter finals
  entries_eq : automaton.transitions = mapFromIter entries

theorem read_automaton {bytes : List U8} {automaton : Automaton}
    (accepted : deserialize bytes = .ok (automaton, [])) :
    ∃ finals entries, ReadFrom bytes automaton finals entries := by
  rw [deserialize_automaton] at accepted
  simp only [bind_ok_iff, pure_ok_iff, Prod.exists, Prod.mk.injEq] at accepted
  obtain ⟨nbStates, first, readNb, initialState, second, readInitial, finalStates, third,
    readFinals, transitions, last, readTransitions, rfl, rfl⟩ := accepted
  obtain ⟨finals, finalBytes, rfl⟩ := read_set readFinals
  obtain ⟨entries, entryBytes, rfl⟩ := read_map readTransitions
  use finals, entries
  constructor
  · rw [written_read readNb, written_read readInitial, finalBytes, entryBytes, append_nil]
    simp only [append_assoc]
  · rfl
  · rfl

theorem written_again_iff {bytes : List U8} {automaton : Automaton} {finals : RustVec U64}
    {entries : RustVec ((U64 ×ₗ U8) × (U64 × U64))}
    (read : ReadFrom bytes automaton finals entries) :
    serialize automaton = bytes ↔
      finals.1.Pairwise (· < ·) ∧ (entries.1.map (·.1)).Pairwise (· < ·) := by
  rw [read.bytes_eq, serialize_automaton, read.finals_eq, read.entries_eq, serialize_set,
    serialize_map, ← sorted_items_eq_iff, ← sorted_entries_eq_iff]
  constructor
  · intro same
    simp only [append_assoc, append_cancel_left_eq] at same
    obtain ⟨sameFinals, sameEntries⟩ := written_injective same
    have padded := congrArg (· ++ []) sameEntries
    exact ⟨sameFinals, (written_injective padded).1⟩
  · intro same
    rw [same.1, same.2]

/-- Written automata are read back, and accepted bytes are written again exactly
when their final states and transition keys ascend. -/
theorem automaton_round_trip :
    (∀ (automaton : Automaton) (suffix : List U8),
      deserialize (serialize automaton ++ suffix) = .ok (automaton, suffix)) ∧
    ∀ (bytes : List U8) (automaton : Automaton), deserialize bytes = .ok (automaton, []) →
      ∃ finals entries, ReadFrom bytes automaton finals entries ∧
        (serialize automaton = bytes ↔
          finals.1.Pairwise (· < ·) ∧ (entries.1.map (·.1)).Pairwise (· < ·)) := by
  constructor
  · exact read_written_automaton
  · intro bytes automaton accepted
    obtain ⟨finals, entries, read⟩ := read_automaton accepted
    exact ⟨finals, entries, read, written_again_iff read⟩

/-- Two states, the first initial, and the final states one and zero in that
order; no transition. -/
def unsortedFinals : List U8 :=
  [2, 0, 0, 0, 0, 0, 0, 0, 0, 0, 0, 0, 0, 0, 0, 0, 2, 0, 0, 0, 0, 0, 0, 0,
    1, 0, 0, 0, 0, 0, 0, 0, 0, 0, 0, 0, 0, 0, 0, 0, 0, 0, 0, 0, 0, 0, 0, 0]

theorem unsorted_finals_not_written_again :
    ∃ automaton : Automaton, deserialize unsortedFinals = .ok (automaton, []) ∧
      serialize automaton ≠ unsortedFinals := by
  let finals : RustVec U64 := ⟨[1, 0], by decide⟩
  let entries : RustVec ((U64 ×ₗ U8) × (U64 × U64)) := ⟨[], by decide⟩
  let automaton : Automaton := ⟨2, 0, setFromIter finals, mapFromIter entries⟩
  have bytes : unsortedFinals = serialize (2 : U64) ++ (serialize (0 : U64) ++
      (serialize finals ++ (serialize entries ++ []))) := by decide
  use automaton
  constructor
  · rw [deserialize_automaton, bytes]
    simp only [read_written, deserialize_set, deserialize_map, bind, Except.bind, pure, Except.pure]
    rfl
  · have read : ReadFrom unsortedFinals automaton finals entries := by
      constructor
      · rw [bytes]
        simp only [automaton, append_assoc, append_nil]
      · rfl
      · rfl
    intro same
    have ascending := ((written_again_iff read).mp same).1
    exact absurd ascending (by decide)

end Midfall.AutomatonSerialization
