import Mathlib

/-!
# Lists that loops build

Loops that may stop, lists of first occurrences, positions, association lists,
and tables with one entry for each key.
-/

namespace Midfall

variable {First Second : Type}

theorem some_bind (value : First) (next : First → Option Second) : (some value >>= next) = next value :=
  rfl

theorem bind_some_iff {step : Option First} {next : First → Option Second} {result : Second} :
    (step >>= next) = some result ↔ ∃ value, step = some value ∧ next value = some result :=
  Option.bind_eq_some_iff

theorem pure_some_iff {value result : First} : (pure value : Option First) = some result ↔ value = result :=
  Option.some_inj

end Midfall

namespace Midfall.ListLoops

open List
open Option (bind_eq_bind bind_eq_some_iff)

theorem map_m_of_forall {Input Output : Type} {monad : Type → Type} [Monad monad] [LawfulMonad monad]
    {step : Input → monad Output} {result : Input → Output} (inputs : List Input)
    (returns : ∀ input ∈ inputs, step input = pure (result input)) :
    inputs.mapM step = pure (inputs.map result) := by
  induction inputs with
  | nil => rw [mapM_nil, map_nil]
  | cons input inputs ih =>
    rw [mapM_cons, returns input mem_cons_self, pure_bind,
      ih (forall_mem_cons.mp returns).2, pure_bind, map_cons]

theorem map_m_exists {Input Output Image : Type} {monad : Type → Type} [Monad monad]
    [LawfulMonad monad] {step : Input → monad Output} {view : Output → Image}
    {result : Input → Image} (inputs : List Input)
    (returns : ∀ input ∈ inputs, ∃ output, step input = pure output ∧ view output = result input) :
    ∃ outputs, inputs.mapM step = pure outputs ∧ outputs.map view = inputs.map result := by
  induction inputs with
  | nil => exact ⟨[], mapM_nil, rfl⟩
  | cons input inputs ih =>
    rcases returns input mem_cons_self with ⟨output, returned, viewed⟩
    rcases ih (forall_mem_cons.mp returns).2 with
      ⟨outputs, rest, restViewed⟩
    refine ⟨output :: outputs, ?_, ?_⟩
    · rw [mapM_cons, returned, pure_bind, rest, pure_bind]
    · rw [map_cons, viewed, restViewed, map_cons]

theorem map_m_filter_map {Input Output : Type} {step : Input → Option Output} (inputs : List Input)
    (returns : ∀ input ∈ inputs, ∃ output, step input = some output) :
    inputs.mapM step = some (inputs.filterMap step) := by
  induction inputs with
  | nil => rfl
  | cons input inputs ih =>
    rcases returns input mem_cons_self with ⟨output, returned⟩
    have rest := ih (forall_mem_cons.mp returns).2
    rw [mapM_cons, returned, rest, filterMap_cons_some returned]
    rfl

variable {Input Output Entry Key : Type} {step : Input → Option Output} {inputs : List Input}
  {outputs : List Output} {entry : Entry} {entries : List (Key × Entry)} {key : Key}

theorem map_m_guarded {guarded : Input → Prop} [DecidablePred guarded] {result : Input → Output}
    (inputs : List Input)
    (steps : ∀ input, step input = if guarded input then some (result input) else none) :
    inputs.mapM step =
      if ∀ input ∈ inputs, guarded input then some (inputs.map result) else none := by
  by_cases all : ∀ input ∈ inputs, guarded input
  · rw [if_pos all]
    exact map_m_of_forall inputs fun input mem => by rw [steps, if_pos (all input mem)]; rfl
  · rw [if_neg all]
    induction inputs with
    | nil => exact absurd (fun input mem => absurd mem not_mem_nil) all
    | cons input inputs ih =>
      rw [mapM_cons, steps]
      by_cases first : guarded input
      · have later : ¬∀ other ∈ inputs, guarded other := by
          intro rest
          apply all
          intro other mem
          rcases mem_cons.mp mem with rfl | inRest
          · exact first
          · exact rest other inRest
        rw [if_pos first, ih later]
        rfl
      · rw [if_neg first]
        rfl

theorem map_m_length {lookup : Input → Option Output} (found : inputs.mapM lookup = some outputs) :
    inputs.length = outputs.length := by
  induction inputs generalizing outputs with
  | nil =>
    cases found
    rfl
  | cons input inputs ih =>
    rw [mapM_cons] at found
    simp only [bind_eq_bind, bind_eq_some_iff, Option.pure_def, Option.some.injEq] at found
    rcases found with ⟨output, -, rest, restFound, rfl⟩
    rw [length_cons, length_cons, ih restFound]

section

variable (ran : inputs.mapM step = some outputs)

include ran

theorem mem_map_m {output : Output} :
    output ∈ outputs ↔ ∃ input ∈ inputs, step input = some output := by
  induction inputs generalizing outputs with
  | nil =>
    cases ran
    simp
  | cons input inputs ih =>
    rw [mapM_cons] at ran
    simp only [bind_eq_bind, bind_eq_some_iff, Option.pure_def, Option.some.injEq] at ran
    rcases ran with ⟨first, returned, rest, restReturned, rfl⟩
    rw [mem_cons, ih restReturned]
    simp only [mem_cons, exists_eq_or_imp, returned, Option.some.injEq]
    constructor
    · rintro (rfl | later)
      · exact Or.inl rfl
      · exact Or.inr later
    · rintro (same | later)
      · exact Or.inl same.symm
      · exact Or.inr later

theorem map_m_returns {input : Input} (mem : input ∈ inputs) :
    ∃ output, step input = some output ∧ output ∈ outputs := by
  induction inputs generalizing outputs with
  | nil => cases mem
  | cons first inputs ih =>
    rw [mapM_cons] at ran
    simp only [bind_eq_bind, bind_eq_some_iff, Option.pure_def, Option.some.injEq] at ran
    rcases ran with ⟨output, returned, rest, restReturned, rfl⟩
    rcases mem_cons.mp mem with rfl | later
    · exact ⟨output, returned, mem_cons_self⟩
    · rcases ih restReturned later with ⟨found, stepped, inRest⟩
      exact ⟨found, stepped, mem_cons_of_mem _ inRest⟩

theorem map_m_get (position : Nat) : outputs[position]? = inputs[position]?.bind step := by
  induction inputs generalizing outputs position with
  | nil =>
    cases ran
    rfl
  | cons input inputs ih =>
    rw [mapM_cons] at ran
    simp only [bind_eq_bind, bind_eq_some_iff, Option.pure_def, Option.some.injEq] at ran
    rcases ran with ⟨output, returned, rest, restReturned, rfl⟩
    cases position with
    | zero => simp [returned]
    | succ position => exact ih restReturned position

end

theorem forall₂_mem_left {First Second : Type} {relation : First → Second → Prop}
    {firsts : List First} {seconds : List Second} (all : Forall₂ relation firsts seconds)
    {first : First} (mem : first ∈ firsts) : ∃ second ∈ seconds, relation first second := by
  induction all with
  | nil => exact absurd mem not_mem_nil
  | @cons head other firsts seconds related _ ih =>
    rcases mem_cons.mp mem with rfl | later
    · exact ⟨other, mem_cons_self, related⟩
    · rcases ih later with ⟨second, inside, holds⟩
      exact ⟨second, mem_cons_of_mem _ inside, holds⟩

theorem map_m_forall₂ (ran : inputs.mapM step = some outputs) :
    Forall₂ (fun input output => step input = some output) inputs outputs := by
  induction inputs generalizing outputs with
  | nil =>
    cases ran
    exact Forall₂.nil
  | cons input inputs ih =>
    rw [mapM_cons] at ran
    simp only [bind_eq_bind, bind_eq_some_iff, Option.pure_def, Option.some.injEq] at ran
    rcases ran with ⟨output, returned, rest, restReturned, rfl⟩
    exact Forall₂.cons returned (ih restReturned)

theorem idx_of_range {position count : Nat} (inside : position < count) :
    (range count).idxOf position = position := by
  have found := nodup_range (n := count)
  have same := found.idxOf_getElem position (by simpa using inside)
  rwa [getElem_range] at same

theorem idx_of_some [BEq Entry] [LawfulBEq Entry] {entries : List Entry} (mem : entry ∈ entries) :
    entries.idxOf? entry = some (entries.idxOf entry) := by
  induction entries with
  | nil => simp at mem
  | cons first entries ih =>
    rw [idxOf?_cons, idxOf_cons]
    by_cases same : first = entry
    · simp [same]
    · have later := (mem_cons.mp mem).resolve_left fun other => same other.symm
      simp [ih later, beq_eq_false_iff_ne.mpr same]

theorem lookup_of_mem [BEq Key] [LawfulBEq Key] (distinct : (entries.map Prod.fst).Nodup)
    (mem : (key, entry) ∈ entries) : entries.lookup key = some entry := by
  induction entries with
  | nil => cases mem
  | cons first entries ih =>
    rw [map_cons, nodup_cons] at distinct
    rw [lookup_cons]
    rcases mem_cons.mp mem with rfl | later
    · simp
    · have apart : key ≠ first.1 := by
        intro same
        apply distinct.1
        rw [← same]
        exact mem_map_of_mem (f := Prod.fst) later
      rw [beq_false_of_ne apart]
      exact ih distinct.2 later

theorem lookup_of_key [BEq Key] [LawfulBEq Key] (mem : key ∈ entries.map Prod.fst) :
    ∃ entry, entries.lookup key = some entry := by
  induction entries with
  | nil => cases mem
  | cons entry entries ih =>
    rw [lookup_cons]
    by_cases here : key = entry.1
    · exact ⟨entry.2, by simp [here]⟩
    · rcases ih ((mem_cons.mp mem).resolve_left here) with ⟨found, looked⟩
      exact ⟨found, by simp [beq_false_of_ne here, looked]⟩

theorem mem_of_lookup [BEq Key] [LawfulBEq Key] (found : entries.lookup key = some entry) :
    (key, entry) ∈ entries := by
  induction entries with
  | nil => cases found
  | cons first entries ih =>
    rw [lookup_cons] at found
    by_cases here : key = first.1
    · subst here
      simp only [beq_self_eq_true, Option.some.injEq] at found
      rw [← found]
      exact mem_cons_self
    · rw [beq_false_of_ne here] at found
      exact mem_cons_of_mem first (ih found)

/-- The content of a hash map collected from pairs: a later pair replaces an
earlier one. -/
def collected {Key Entry : Type} [BEq Key] (pairs : List (Key × Entry)) (key : Key) :
    Option Entry := pairs.reverse.lookup key

theorem collected_of_mem [BEq Key] [LawfulBEq Key] {pairs : List (Key × Entry)}
    (distinct : (pairs.map Prod.fst).Nodup) (mem : (key, entry) ∈ pairs) :
    collected pairs key = some entry := by
  unfold collected
  apply lookup_of_mem
  · rw [map_reverse]
    exact nodup_reverse.mpr distinct
  · exact mem_reverse.mpr mem

section FirstOccurrence

variable {Entry : Type} [DecidableEq Entry]

theorem erase_dups_snoc (entries : List Entry) (last : Entry) :
    (entries ++ [last]).eraseDups =
      if last ∈ entries then entries.eraseDups else entries.eraseDups ++ [last] := by
  rw [eraseDups_append]
  by_cases seen : last ∈ entries
  · simp [List.removeAll, seen]
  · simp [List.removeAll, seen, eraseDups_cons]

theorem erase_dups_nodup (entries : List Entry) : entries.eraseDups.Nodup := by
  induction entries using List.reverseRecOn with
  | nil => simp
  | append_singleton entries last ih =>
    rw [erase_dups_snoc]
    split_ifs with seen
    · exact ih
    · refine nodup_append.mpr ⟨ih, nodup_singleton last, ?_⟩
      intro earlier mem other isLast same
      rw [mem_singleton.mp isLast] at same
      exact seen (same ▸ mem_eraseDups.mp mem)

theorem erase_dups_map {Image : Type} [DecidableEq Image] (image : Entry → Image)
    (entries : List Entry) (injective : Set.InjOn image {entry | entry ∈ entries}) :
    (entries.map image).eraseDups = entries.eraseDups.map image := by
  induction entries using List.reverseRecOn with
  | nil => rfl
  | append_singleton entries last ih =>
    have earlier : Set.InjOn image {entry | entry ∈ entries} := by
      apply injective.mono
      intro entry mem
      exact mem_append_left _ mem
    have seen : image last ∈ entries.map image ↔ last ∈ entries := by
      constructor
      · intro mem
        rcases mem_map.mp mem with ⟨entry, found, same⟩
        rwa [← injective (mem_append_left _ found) (by simp) same]
      · exact mem_map_of_mem
    rw [map_append, map_singleton, erase_dups_snoc, erase_dups_snoc, ih earlier]
    by_cases mem : last ∈ entries
    · rw [if_pos (seen.mpr mem), if_pos mem]
    · rw [if_neg (mt seen.mp mem), if_neg mem, map_append, map_singleton]

theorem idx_of_erase_dups_append {entry : Entry} {entries : List Entry} (later : List Entry)
    (mem : entry ∈ entries) :
    (entries ++ later).eraseDups.idxOf entry = entries.eraseDups.idxOf entry := by
  rw [eraseDups_append]
  exact idxOf_append_of_mem (mem_eraseDups.mpr mem)

theorem idx_of_map {Image : Type} [DecidableEq Image] (image : Entry → Image)
    (entries : List Entry) {entry : Entry} (mem : entry ∈ entries)
    (injective : Set.InjOn image {entry | entry ∈ entries}) :
    (entries.map image).idxOf (image entry) = entries.idxOf entry := by
  induction entries with
  | nil => simp at mem
  | cons first entries ih =>
    rw [map_cons, idxOf_cons, idxOf_cons]
    by_cases found : first = entry
    · simp [found]
    · have apart : image first ≠ image entry := by
        intro same
        exact found (injective mem_cons_self mem same)
      have later : entry ∈ entries :=
        (mem_cons.mp mem).resolve_left fun same => found same.symm
      rw [beq_false_of_ne found, beq_false_of_ne apart]
      simp only [cond_false, Nat.add_right_cancel_iff]
      apply ih later
      exact injective.mono fun entry mem => mem_cons_of_mem first mem

/-- Append an entry that is not there yet. -/
def pushNew (seen : List Entry) (entry : Entry) : List Entry :=
  if entry ∈ seen then seen else seen ++ [entry]

theorem foldl_push_new (entries : List Entry) : entries.foldl pushNew [] = entries.eraseDups := by
  induction entries using List.reverseRecOn with
  | nil => rfl
  | append_singleton entries last ih =>
    rw [foldl_append, ih, erase_dups_snoc]
    simp [pushNew]

theorem mem_foldl_push_new {entries : List Entry} {entry : Entry} :
    entry ∈ entries.foldl pushNew [] ↔ entry ∈ entries := by
  rw [foldl_push_new, mem_eraseDups]

theorem nodup_foldl_push_new (entries : List Entry) : (entries.foldl pushNew []).Nodup := by
  rw [foldl_push_new]
  exact erase_dups_nodup entries

theorem foldl_push_new_flat_map {Group : Type} (groups : List Group)
    (members : Group → List Entry) (seen : List Entry) :
    groups.foldl (fun seen group => (members group).foldl pushNew seen) seen =
      (groups.flatMap members).foldl pushNew seen := by
  induction groups generalizing seen with
  | nil => rfl
  | cons group groups ih => rw [foldl_cons, ih, flatMap_cons, foldl_append]

end FirstOccurrence

section Table

variable {Key Entry : Type} [DecidableEq Key]

def updateFirst (test : Entry → Bool) (update : Entry → Entry) : List Entry → List Entry
  | [] => []
  | entry :: table => if test entry then update entry :: table
      else entry :: updateFirst test update table

variable {entryAt : Key → Entry} {test : Entry → Bool}

theorem find_in_table (keys : List Key) (key : Key)
    (tested : ∀ other ∈ keys, test (entryAt other) = decide (other = key)) :
    (keys.map entryAt).find? test = if key ∈ keys then some (entryAt key) else none := by
  induction keys with
  | nil => rfl
  | cons first keys ih =>
    rw [map_cons, find?_cons, tested first mem_cons_self]
    by_cases found : first = key
    · simp [found]
    · have other : ¬ key = first := fun same => found same.symm
      simp [found, other, ih (forall_mem_cons.mp tested).2]

theorem update_in_table {keys : List Key} (distinct : keys.Nodup) (key : Key)
    (update : Entry → Entry)
    (tested : ∀ other ∈ keys, test (entryAt other) = decide (other = key)) :
    updateFirst test update (keys.map entryAt) =
      keys.map fun other => if other = key then update (entryAt other) else entryAt other := by
  induction keys with
  | nil => rfl
  | cons first keys ih =>
    rw [nodup_cons] at distinct
    rw [map_cons, updateFirst, tested first mem_cons_self, map_cons]
    by_cases found : first = key
    · rw [decide_eq_true found, if_pos rfl, if_pos found]
      congr 1
      apply map_congr_left
      intro other mem
      have apart : other ≠ key := fun same => distinct.1 (found ▸ same ▸ mem)
      rw [if_neg apart]
    · rw [decide_eq_false found, if_neg (by simp), if_neg found,
        ih distinct.2 (forall_mem_cons.mp tested).2]

theorem fill_slots {Slot Value : Type} [DecidableEq Slot] {slots : List Slot}
    (distinct : slots.Nodup) (written : List (Slot × Value)) (once : (written.map (·.1)).Nodup)
    (start : Slot → Value) :
    written.foldl (fun values entry => values.set (slots.idxOf entry.1) entry.2)
        (slots.map start) =
      slots.map fun slot => (written.lookup slot).getD (start slot) := by
  induction written generalizing start with
  | nil => simp
  | cons entry written ih =>
    obtain ⟨target, value⟩ := entry
    rw [map_cons, nodup_cons] at once
    have stored : (slots.map start).set (slots.idxOf target) value =
        slots.map fun slot => if slot = target then value else start slot := by
      apply ext_getElem
      · simp
      · intro position inside bounded
        rw [length_map] at bounded
        rw [getElem_set, getElem_map, getElem_map]
        by_cases here : slots[position] = target
        · rw [if_pos here, if_pos]
          rw [← here]
          exact distinct.idxOf_getElem position bounded
        · rw [if_neg here, if_neg]
          rintro rfl
          exact here (getElem_idxOf bounded)
    rw [foldl_cons, stored, ih once.2]
    apply map_congr_left
    intro slot mem
    rw [lookup_cons]
    by_cases here : slot = target
    · have later : written.lookup slot = none := by
        rw [lookup_eq_none_iff]
        intro entry found
        rw [bne_iff_ne, here]
        intro same
        exact once.1 (mem_map.mpr ⟨entry, found, same.symm⟩)
      rw [later]
      simp [here]
    · simp [here, beq_false_of_ne here]

end Table

end Midfall.ListLoops
