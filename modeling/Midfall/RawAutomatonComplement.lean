import Midfall.RawAutomatonPowerset

/-!
# Complement

Determinisation with completion, then the other states become final. The
completion only knows the markers of the automaton, so that without a
transition nothing is completed.
-/

namespace Midfall.RawAutomata.RawAutomaton

open AutomatonLanguages Worklists List
open ScannerAutomaton (alphabetMaxSize)

variable {order : HashOrder} {automaton : RawAutomaton} {alphabetSize : Nat}

def swapped (automaton : RawAutomaton) : RawAutomaton :=
  { automaton with
    finalStates := (Finset.range automaton.nbStates).filter fun i => i ∉ automaton.finalStates }

theorem swapped_range (inRange : InRange automaton) : InRange automaton.swapped where
  initial := inRange.initial
  finals := fun _ final => Finset.mem_range.mp (Finset.mem_filter.mp final).1
  targets := inRange.targets

variable {state last : Nat} {word : List Letter}

/-- Words over the letters that every state reads, and no other letter is read. -/
theorem swapped_accepts {letters : Letter → Prop} (inRange : InRange automaton)
    (deterministic : IsDeterministic automaton) (reads : automaton.ReadsAll letters)
    (only : ∀ state, ∀ entry ∈ automaton.outgoing state, letters entry.1) (word : List Letter)
    (inside : state < automaton.nbStates) :
    word ∈ acceptsAt automaton.swapped.nfa state ↔
      (∀ letter ∈ word, letters letter) ∧ word ∉ acceptsAt automaton.nfa state := by
  induction word generalizing state with
  | nil =>
    rw [nil_at, nil_at, swapped, Finset.mem_filter, Finset.mem_range]
    exact ⟨fun both => ⟨fun letter mem => absurd mem not_mem_nil, both.2⟩,
      fun both => ⟨inside, both.2⟩⟩
  | cons letter word ih =>
    rw [cons_at, cons_at, forall_mem_cons]
    constructor
    · rintro ⟨target, step, rest⟩
      have oldStep : (letter, target) ∈ automaton.outgoing state := step
      rcases (ih (inRange.targets state _ oldStep)).mp rest with ⟨all, rejected⟩
      refine ⟨⟨only state _ oldStep, all⟩, ?_⟩
      rintro ⟨other, otherStep, accepted⟩
      have same : target = other := by
        have pairs := inj_on_of_nodup_map (deterministic state) oldStep otherStep rfl
        exact congrArg Prod.snd pairs
      rw [← same] at accepted
      exact rejected accepted
    · rintro ⟨⟨here, all⟩, rejected⟩
      rcases reads state inside letter here with ⟨target, step⟩
      refine ⟨target, step, (ih (inRange.targets state _ step)).mpr ⟨all, ?_⟩⟩
      exact fun accepted => rejected ⟨target, step, accepted⟩

def complemented (order : HashOrder) (alphabetSize : Nat) (automaton : RawAutomaton) :
    Option RawAutomaton := do
  let determinised ← automaton.determinise order true alphabetSize
  determinised.complement order

/-- Markers are only needed when the powerset construction runs. -/
def Encodes (automaton : RawAutomaton) : Prop :=
  (automaton.deterministic && automaton.complete) = false → Marked automaton

/-- Bytes of the alphabet, a set of markers that the completion can work with, and one target for a
letter where nothing is determinised. -/
structure Encodable (alphabetSize : Nat) (automaton : RawAutomaton) : Prop where
  bytes : ∀ state, ∀ entry ∈ automaton.outgoing state, entry.1.char.toNat < alphabetSize
  encodes : Encodes automaton
  distinct : (automaton.deterministic && automaton.complete) = true → IsDeterministic automaton

theorem complement_language (inRange : InRange automaton.swapped) (deterministic : automaton.deterministic = true)
    (complete : automaton.complete = true) :
    ∃ result, automaton.complement order = some result ∧
      result.language = automaton.swapped.language := by
  rcases @remove_dead_states_trims order automaton.swapped inRange with ⟨result, found, trimmed⟩
  refine ⟨result, ?_, trimmed.language⟩
  have flags : (automaton.deterministic && automaton.complete) = true := by
    rw [deterministic, complete, Bool.and_self]
  unfold complement
  rw [if_pos flags]
  exact found

theorem swapped_range_of_complement {result : RawAutomaton} (found : automaton.complement order = some result) :
    InRange automaton.swapped := by
  unfold complement at found
  split_ifs at found
  unfold removeDeadStates at found
  rcases bind_some_iff.mp found with ⟨live, liveIs, -⟩
  unfold liveStates at liveIs
  split_ifs at liveIs with targets
  rcases bind_some_iff.mp liveIs with ⟨reachable, run, -⟩
  refine ⟨?_, fun state final => Finset.mem_range.mp (Finset.mem_filter.mp final).1, ?_⟩
  · have explored := explored_of_run run
    have initialIn := explored.served _ (mem_singleton_self _)
    rcases explored.expanded _ initialIn not_mem_nil with ⟨edges, edgesIs, -⟩
    unfold forwardEdges at edgesIs
    rcases Option.map_eq_some_iff.mp edgesIs with ⟨succ, succIs, -⟩
    exact (List.getElem?_eq_some_iff.mp succIs).1
  · intro state entry step
    exact targets _ (outgoing_mem (lt_of_outgoing step)) entry step

/-- The marked words of the complement of an automaton that had to be determinised or completed. -/
theorem completed_language (encodable : Encodable alphabetSize automaton)
    (unflagged : (automaton.deterministic && automaton.complete) = false)
    (traversable : Traversable automaton) (small : alphabetSize ≤ alphabetMaxSize) :
    ∃ result, complemented order alphabetSize automaton = some result ∧ ∀ word,
      word ∈ result.language ↔ (∀ letter ∈ word, letter.char.toNat < alphabetSize ∧
        letter.marker ∈ automaton.markers) ∧ word ∉ automaton.language := by
  rcases @Traversable.powered order automaton alphabetSize traversable encodable.bytes
    (fun state entry step => encodable.encodes unflagged _ ⟨state, entry, step, rfl⟩) small true with
    ⟨power, powerIs, powered⟩
  have complete : power.complete = true := by rw [powered.complete, Bool.or_true]
  rcases @complement_language order power (swapped_range powered.range) powered.deterministic complete with
    ⟨result, found, language⟩
  refine ⟨result, ?_, fun word => ?_⟩
  · unfold complemented determinise
    simp only [Bool.not_true, Bool.false_or, unflagged, Bool.false_eq_true, if_false,
      Option.bind_eq_bind, powerIs, Option.bind_some]
    exact found
  · have same : word ∈ power.language ↔ word ∈ automaton.language := by
      rw [powered.language]
      constructor
      · rintro ⟨state, mem, accepted⟩
        rw [mem_singleton.mp mem] at accepted
        exact accepted
      · exact fun accepted => ⟨automaton.initialState, mem_singleton_self _, accepted⟩
    rw [language, ← same, language_eq, language_eq]
    exact swapped_accepts powered.range powered.distinct (powered.completes rfl)
      (fun state entry step => ⟨(powered.letters state entry step).1,
        (powered.letters state entry step).2.1⟩) word powered.range.initial

theorem traversable_of_complemented {result : RawAutomaton} (encodable : Encodable alphabetSize automaton)
    (unflagged : (automaton.deterministic && automaton.complete) = false)
    (small : alphabetSize ≤ alphabetMaxSize)
    (found : complemented order alphabetSize automaton = some result) : Traversable automaton := by
  unfold complemented determinise at found
  simp only [Bool.not_true, Bool.false_or, unflagged, Bool.false_eq_true, if_false] at found
  rcases bind_some_iff.mp found with ⟨power, powerIs, -⟩
  exact traversable_of_powerset encodable.bytes small powerIs

/-- The complement accepts the byte words that are rejected. -/
def ComplementsBytes (order : HashOrder) (alphabetSize : Nat) (automaton : RawAutomaton) : Prop :=
  ∃ result, complemented order alphabetSize automaton = some result ∧
    ∀ bytes : List UInt8, (∀ byte ∈ bytes, byte.toNat < alphabetSize) →
      (bytes ∈ result.byteLanguage ↔ bytes ∉ automaton.byteLanguage)

theorem accepted_letters (accepted : word ∈ acceptsAt automaton.nfa state) :
    ∀ letter ∈ word, ∃ source target, (letter, target) ∈ automaton.outgoing source := by
  induction word generalizing state with
  | nil => exact fun letter mem => absurd mem not_mem_nil
  | cons letter word ih =>
    rcases cons_at.mp accepted with ⟨target, step, rest⟩
    rw [forall_mem_cons]
    exact ⟨⟨state, target, step⟩, ih rest⟩

theorem marked_bytes (bytes : List UInt8) (marker : Nat) :
    (bytes.map fun byte => Letter.mk byte marker).map Letter.char = bytes := by
  rw [map_map]
  exact map_id' bytes

def RunsTo (automaton : RawAutomaton) : Nat → List Letter → Nat → Prop
  | state, [], last => state = last
  | state, letter :: word, last =>
    ∃ target, (letter, target) ∈ automaton.outgoing state ∧ RunsTo automaton target word last

theorem accepts_iff_run :
    word ∈ acceptsAt automaton.nfa state ↔
      ∃ last ∈ automaton.finalStates, automaton.RunsTo state word last := by
  induction word generalizing state with
  | nil =>
    rw [nil_at]
    constructor
    · exact fun final => ⟨state, final, rfl⟩
    · rintro ⟨last, final, rfl⟩
      exact final
  | cons letter word ih =>
    rw [cons_at]
    constructor
    · rintro ⟨target, step, accepted⟩
      rcases ih.mp accepted with ⟨last, final, run⟩
      exact ⟨last, final, target, step, run⟩
    · rintro ⟨last, final, target, step, run⟩
      exact ⟨target, step, ih.mpr ⟨last, final, run⟩⟩

theorem run_in_range (inRange : InRange automaton.swapped) (inside : state < automaton.nbStates)
    (run : automaton.RunsTo state word last) :
    last < automaton.nbStates := by
  induction word generalizing state with
  | nil =>
    have same : state = last := run
    rw [← same]
    exact inside
  | cons letter word ih =>
    rcases run with ⟨target, step, rest⟩
    exact ih (inRange.targets state _ step) rest

theorem swapped_run :
    automaton.swapped.RunsTo state word last ↔ automaton.RunsTo state word last := by
  induction word generalizing state with
  | nil => exact Iff.rfl
  | cons letter word ih =>
    constructor
    · rintro ⟨target, step, rest⟩
      exact ⟨target, step, ih.mp rest⟩
    · rintro ⟨target, step, rest⟩
      exact ⟨target, step, ih.mpr rest⟩

theorem run_append {letter : Letter} :
    automaton.RunsTo state (word ++ [letter]) last ↔
      ∃ before, automaton.RunsTo state word before ∧ (letter, last) ∈ automaton.outgoing before := by
  induction word generalizing state with
  | nil =>
    constructor
    · rintro ⟨target, step, same⟩
      cases (same : target = last)
      exact ⟨state, rfl, step⟩
    · rintro ⟨before, same, step⟩
      cases (same : state = before)
      exact ⟨last, step, rfl⟩
  | cons first word ih =>
    constructor
    · rintro ⟨target, step, rest⟩
      rcases ih.mp rest with ⟨before, run, read⟩
      exact ⟨before, ⟨target, step, run⟩, read⟩
    · rintro ⟨before, ⟨target, step, run⟩, read⟩
      exact ⟨target, step, ih.mpr ⟨before, run, read⟩⟩

theorem run_of_reachable (reachable : automaton.Reachable state) :
    ∃ word, automaton.RunsTo automaton.initialState word state := by
  induction reachable with
  | refl => exact ⟨[], rfl⟩
  | tail _ edge ih =>
    rcases ih with ⟨word, run⟩
    rcases edge with ⟨letter, step⟩
    exact ⟨word ++ [letter], run_append.mpr ⟨_, run, step⟩⟩

theorem run_letters (run : automaton.RunsTo state word last) :
    ∀ letter ∈ word, ∃ source target, (letter, target) ∈ automaton.outgoing source := by
  induction word generalizing state with
  | nil => exact fun letter mem => absurd mem not_mem_nil
  | cons letter word ih =>
    rcases run with ⟨target, step, rest⟩
    rw [forall_mem_cons]
    exact ⟨⟨state, target, step⟩, ih rest⟩

/-- No letter and no set carries a second marker. -/
def SingleMarker (automaton : RawAutomaton) : Prop :=
  ∃ marker, (∀ used, automaton.Uses used → used = marker) ∧ ∀ other ∈ automaton.markers, other = marker

theorem single_words {marker : Nat} {other : List Letter}
    (same : other.map Letter.char = word.map Letter.char)
    (wordMarker : ∀ letter ∈ word, letter.marker = marker)
    (otherMarker : ∀ letter ∈ other, letter.marker = marker) :
    other = word := by
  induction other generalizing word with
  | nil =>
    rw [map_nil, eq_comm, map_eq_nil_iff] at same
    exact same.symm
  | cons letter other ih =>
    cases word with
    | nil => cases same
    | cons first word =>
      rw [map_cons, map_cons, List.cons.injEq] at same
      rw [forall_mem_cons] at wordMarker otherMarker
      have here : letter = first := by
        cases letter
        cases first
        simp only at same wordMarker otherMarker
        rw [same.1, wordMarker.1, otherMarker.1]
      rw [here, ih same.2 wordMarker.2 otherMarker.2]

theorem run_unique (distinct : IsDeterministic automaton) {otherLast : Nat}
    (run : automaton.RunsTo state word last) (other : automaton.RunsTo state word otherLast) :
    last = otherLast := by
  induction word generalizing state with
  | nil =>
    have first : state = last := run
    have second : state = otherLast := other
    rw [← first, second]
  | cons letter word ih =>
    rcases run with ⟨target, step, rest⟩
    rcases other with ⟨otherTarget, otherStep, otherRest⟩
    have pairs := inj_on_of_nodup_map (distinct state) step otherStep rfl
    have same : target = otherTarget := congrArg Prod.snd pairs
    rw [← same] at otherRest
    exact ih rest otherRest

/-- Every state that is reached reads every byte of the alphabet. -/
def ReadsBytes (alphabetSize : Nat) (automaton : RawAutomaton) : Prop :=
  ∀ state, automaton.Reachable state → ∀ byte : UInt8, byte.toNat < alphabetSize →
    ∃ entry ∈ automaton.outgoing state, entry.1.char = byte

theorem ReadsBytes.run (reads : automaton.ReadsBytes alphabetSize) {bytes : List UInt8}
    (below : ∀ byte ∈ bytes, byte.toNat < alphabetSize) (reachable : automaton.Reachable state) :
    ∃ word last, word.map Letter.char = bytes ∧ automaton.RunsTo state word last := by
  induction bytes generalizing state with
  | nil => exact ⟨[], state, rfl, rfl⟩
  | cons byte bytes ih =>
    rw [forall_mem_cons] at below
    rcases reads state reachable byte below.1 with ⟨⟨letter, target⟩, step, rfl⟩
    rcases ih below.2 (reachable.tail ⟨letter, step⟩) with ⟨word, last, same, run⟩
    exact ⟨letter :: word, last, by rw [map_cons, same], target, step, run⟩

/-- Nothing is completed when both flags are set; otherwise there must be a marker to complete with.
What the complement works with is in range. -/
def Completable (alphabetSize : Nat) (automaton : RawAutomaton) : Prop :=
  if automaton.deterministic && automaton.complete then
    InRange automaton.swapped ∧ automaton.ReadsBytes alphabetSize
  else Traversable automaton ∧ automaton.markers.Nonempty

section Conditions

variable (encodable : Encodable alphabetSize automaton) (single : SingleMarker automaton)

include encodable single

theorem flagged_complements_iff (deterministic : automaton.deterministic = true)
    (complete : automaton.complete = true) : ComplementsBytes order alphabetSize automaton ↔
      InRange automaton.swapped ∧ automaton.ReadsBytes alphabetSize := by
  have distinct := encodable.distinct (by rw [deterministic, complete, Bool.and_self])
  rcases single with ⟨marker, uses, -⟩
  have marked : ∀ {source word last}, automaton.RunsTo source word last →
      ∀ letter ∈ word, letter.marker = marker := by
    intro source word last run letter mem
    rcases run_letters run letter mem with ⟨old, target, step⟩
    exact uses _ ⟨old, _, step, rfl⟩
  have returns : ∀ result, complemented order alphabetSize automaton = some result →
      automaton.complement order = some result := by
    intro result found
    unfold complemented determinise at found
    rw [deterministic, complete] at found
    exact found
  constructor
  · rintro ⟨result, found, complements⟩
    have inRange := swapped_range_of_complement (returns result found)
    refine ⟨inRange, fun state reachable byte below => ?_⟩
    rcases @complement_language order automaton inRange deterministic complete with
      ⟨other, otherFound, language⟩
    rw [returns result found, Option.some.injEq] at otherFound
    rw [← otherFound] at language
    rcases run_of_reachable reachable with ⟨word, run⟩
    have bytesIn : ∀ b ∈ word.map Letter.char ++ [byte], b.toNat < alphabetSize := by
      intro b mem
      rcases mem_append.mp mem with before | last
      · rcases mem_map.mp before with ⟨letter, inside, rfl⟩
        rcases run_letters run letter inside with ⟨old, target, step⟩
        exact encodable.bytes old _ step
      · rw [mem_singleton.mp last]
        exact below
    -- one of the two accepts the bytes that lead to the state, and the byte
    have either : ∃ read last, read.map Letter.char = word.map Letter.char ++ [byte] ∧
        automaton.RunsTo automaton.initialState read last := by
      by_cases inside : word.map Letter.char ++ [byte] ∈ automaton.byteLanguage
      · rcases mem_byte_language.mp inside with ⟨read, mem, same⟩
        rcases accepts_iff_run.mp mem with ⟨last, -, runs⟩
        exact ⟨read, last, same, runs⟩
      · rcases mem_byte_language.mp ((complements _ bytesIn).mpr inside) with ⟨read, mem, same⟩
        rw [language] at mem
        rcases accepts_iff_run.mp mem with ⟨last, -, runs⟩
        exact ⟨read, last, same, swapped_run.mp runs⟩
    rcases either with ⟨read, last, same, runs⟩
    rcases map_eq_append_iff.mp same with ⟨first, rest, rfl, firstIs, restIs⟩
    rcases map_eq_singleton_iff.mp restIs with ⟨letter, rfl, char⟩
    rcases run_append.mp runs with ⟨before, beforeRun, step⟩
    rw [single_words firstIs (marked run) (marked beforeRun)] at beforeRun
    rw [run_unique distinct run beforeRun]
    exact ⟨(letter, last), step, char⟩
  · rintro ⟨inRange, reads⟩
    rcases @complement_language order automaton inRange deterministic complete with
      ⟨result, found, language⟩
    refine ⟨result, ?_, fun bytes below => ?_⟩
    · unfold complemented determinise
      rw [deterministic, complete]
      exact found
    rcases reads.run below .refl with ⟨word, last, rfl, run⟩
    have accepted : word.map Letter.char ∈ automaton.byteLanguage ↔ last ∈ automaton.finalStates := by
      rw [mem_byte_language]
      constructor
      · rintro ⟨other, mem, same⟩
        rcases accepts_iff_run.mp mem with ⟨otherLast, final, otherRun⟩
        rw [single_words same (marked run) (marked otherRun)] at otherRun
        rw [run_unique distinct run otherRun]
        exact final
      · exact fun final => ⟨word, accepts_iff_run.mpr ⟨last, final, run⟩, rfl⟩
    have rejected : word.map Letter.char ∈ result.byteLanguage ↔ last ∉ automaton.finalStates := by
      rw [mem_byte_language]
      constructor
      · rintro ⟨other, mem, same⟩
        rw [language] at mem
        rcases accepts_iff_run.mp mem with ⟨otherLast, final, otherRun⟩
        rw [swapped_run] at otherRun
        rw [single_words same (marked run) (marked otherRun)] at otherRun
        rw [run_unique distinct run otherRun]
        exact (Finset.mem_filter.mp final).2
      · intro other
        refine ⟨word, ?_, rfl⟩
        rw [language]
        exact accepts_iff_run.mpr ⟨last, Finset.mem_filter.mpr
          ⟨Finset.mem_range.mpr (run_in_range inRange inRange.initial run), other⟩, swapped_run.mpr run⟩
    rw [accepted, rejected]

theorem unflagged_complements_iff (unflagged : (automaton.deterministic && automaton.complete) = false)
    (pos : 0 < alphabetSize) (small : alphabetSize ≤ alphabetMaxSize) :
    ComplementsBytes order alphabetSize automaton ↔
      Traversable automaton ∧ automaton.markers.Nonempty := by
  have uses : ∀ source, ∀ entry ∈ automaton.outgoing source, entry.1.marker ∈ automaton.markers :=
    fun source entry step => encodable.encodes unflagged _ ⟨source, entry, step, rfl⟩
  constructor
  · rintro ⟨result, found, complements⟩
    have traversable := traversable_of_complemented encodable unflagged small found
    refine ⟨traversable, ?_⟩
    rcases @completed_language order automaton alphabetSize encodable unflagged traversable small with
      ⟨other, otherFound, language⟩
    rw [found, Option.some.injEq] at otherFound
    rw [← otherFound] at language
    have bytesIn : ∀ byte ∈ [UInt8.ofNat 0], byte.toNat < alphabetSize := fun byte mem => by
      rw [mem_singleton.mp mem]
      exact pos
    by_cases accepted : [UInt8.ofNat 0] ∈ automaton.byteLanguage
    · rcases mem_byte_language.mp accepted with ⟨word, wordIn, mapped⟩
      rcases map_eq_singleton_iff.mp mapped with ⟨letter, rfl, -⟩
      rcases accepted_letters wordIn letter mem_cons_self with ⟨source, target, step⟩
      exact ⟨letter.marker, uses source _ step⟩
    · rcases mem_byte_language.mp ((complements _ bytesIn).mpr accepted) with ⟨word, wordIn, mapped⟩
      rcases map_eq_singleton_iff.mp mapped with ⟨letter, rfl, -⟩
      exact ⟨letter.marker, (((language _).mp wordIn).1 letter mem_cons_self).2⟩
  · rintro ⟨traversable, marker, completes⟩
    rcases @completed_language order automaton alphabetSize encodable unflagged traversable small with
      ⟨result, found, language⟩
    refine ⟨result, found, fun bytes bytesIn => ?_⟩
    rcases single with ⟨only, used, others⟩
    constructor
    · intro complemented accepted
      rcases mem_byte_language.mp complemented with ⟨other, otherIn, otherMapped⟩
      rcases mem_byte_language.mp accepted with ⟨word, wordIn, mapped⟩
      rcases (language other).mp otherIn with ⟨letters, rejected⟩
      apply rejected
      have equal : other = word := by
        apply single_words (otherMapped.trans mapped.symm)
        · intro letter mem
          rcases accepted_letters wordIn letter mem with ⟨source, target, step⟩
          exact used _ ⟨source, _, step, rfl⟩
        · exact fun letter mem => others _ (letters letter mem).2
      rw [equal]
      exact wordIn
    · intro rejected
      refine mem_byte_language.mpr ⟨_, (language _).mpr ⟨fun letter mem => ?_, ?_⟩,
        marked_bytes bytes marker⟩
      · rcases mem_map.mp mem with ⟨byte, inside, rfl⟩
        exact ⟨bytesIn byte inside, completes⟩
      · exact fun accepted => rejected (mem_byte_language.mpr ⟨_, accepted, marked_bytes bytes marker⟩)

/-- An automaton of one marker is complemented exactly when there is something to complete with, or
nothing to complete. -/
theorem complements_iff (pos : 0 < alphabetSize) (small : alphabetSize ≤ alphabetMaxSize) :
    ComplementsBytes order alphabetSize automaton ↔ automaton.Completable alphabetSize := by
  unfold Completable
  cases shortcut : automaton.deterministic && automaton.complete with
  | true =>
    rw [Bool.and_eq_true] at shortcut
    rw [if_pos rfl]
    exact flagged_complements_iff encodable single shortcut.1 shortcut.2
  | false =>
    rw [if_neg Bool.false_ne_true]
    exact unflagged_complements_iff encodable single shortcut pos small

end Conditions

end Midfall.RawAutomata.RawAutomaton
