import Midfall.RawAutomatonRuns

/-!
# Languages and letters of the operations

What every operation reads, over all bytes, from what its arguments read. The
markers of an automaton are bounded by those of its letters, since completing it
reads every byte with each of them.
-/

namespace Midfall.RawAutomata.RawAutomaton

open AutomatonLanguages List
open ScannerAutomaton (alphabetMaxSize)
open Computability

variable {order : HashOrder} {automaton result : RawAutomaton}

def plainLetters : Set Letter := {letter | letter.marker = 0}

def wordsOver (letters : Set Letter) : Language Letter := {word | ∀ letter ∈ word, letter ∈ letters}

def rangeWords (ranges : List (List Letter)) : Language Letter :=
  {word | Forall₂ (fun letter byteRange => letter ∈ byteRange) word ranges}

def joins (letters others : Set Letter) : Set Letter :=
  {letter | ∃ letter1 ∈ letters, ∃ letter2 ∈ others, join letter1 letter2 = some letter}

def overlay (words others : Language Letter) : Language Letter :=
  {word | ∃ word1 ∈ words, ∃ word2 ∈ others, joinWords word1 word2 = some word}

theorem joined_induction {holds : List Letter → List Letter → List Letter → Prop} (nil : holds [] [] [])
    (cons : ∀ letter1 letter2 letter word1 word2 word, join letter1 letter2 = some letter →
      joinWords word1 word2 = some word → holds word1 word2 word →
        holds (letter1 :: word1) (letter2 :: word2) (letter :: word))
    {word1 word2 word : List Letter} (joined : joinWords word1 word2 = some word) :
    holds word1 word2 word := by
  induction word generalizing word1 word2 with
  | nil =>
    have lengths := join_words_length joined
    rw [eq_nil_of_length_eq_zero lengths.1, eq_nil_of_length_eq_zero lengths.2]
    exact nil
  | cons letter word ih =>
    have lengths := join_words_length joined
    cases word1 with
    | nil => cases lengths.1
    | cons letter1 word1 =>
      cases word2 with
      | nil => cases lengths.2
      | cons letter2 word2 =>
        rcases join_words_cons.mp joined with ⟨here, later⟩
        exact cons _ _ _ _ _ _ here later (ih later)

theorem joined_words_over {bound others : Set Letter} {word1 word2 word : List Letter}
    (joined : joinWords word1 word2 = some word) (first : word1 ∈ wordsOver bound)
    (second : word2 ∈ wordsOver others) : word ∈ wordsOver (joins bound others) := by
  revert first second
  apply @joined_induction (fun word1 word2 word => word1 ∈ wordsOver bound →
    word2 ∈ wordsOver others → word ∈ wordsOver (joins bound others)) _ _ _ _ _ joined
  · exact fun _ _ _ mem => absurd mem not_mem_nil
  · intro letter1 letter2 letter word1 word2 word here later ih first second
    have firsts := forall_mem_cons.mp first
    have seconds := forall_mem_cons.mp second
    exact forall_mem_cons.mpr ⟨⟨letter1, firsts.1, letter2, seconds.1, here⟩,
      ih firsts.2 seconds.2⟩

/-- Every byte, with the markers of the letters. -/
def remarked (letters : Set Letter) : Set Letter :=
  {letter | ∃ other ∈ letters, other.marker = letter.marker}

theorem byte_small (byte : UInt8) : byte.toNat < alphabetMaxSize := byte.toNat_lt

/-- An automaton of some words, with its letters and markers among these letters. -/
structure Carries (letters : Set Letter) (words : Language Letter) (automaton : RawAutomaton) : Prop
    extends InRange automaton where
  words : automaton.language = words
  reads : ∀ state, ∀ entry ∈ automaton.outgoing state, entry.1 ∈ letters
  markers : ∀ marker ∈ automaton.markers, ∃ letter ∈ letters, letter.marker = marker

variable {letters others : Set Letter} {words otherWords : Language Letter}

theorem Carries.mono (carries : Carries letters words automaton)
    (larger : ∀ letter ∈ letters, letter ∈ others) : Carries others words automaton := by
  refine ⟨carries.toInRange, carries.words, fun state entry step => ?_, fun marker mem => ?_⟩
  · exact larger _ (carries.reads state entry step)
  · rcases carries.markers marker mem with ⟨letter, inside, same⟩
    exact ⟨letter, larger letter inside, same⟩

section

variable (reads : ∀ state, ∀ entry ∈ automaton.outgoing state, entry.1 ∈ letters)

include reads

theorem used_markers {marker : Nat}
    (used : ∃ state, ∃ entry ∈ automaton.outgoing state, entry.1.marker = marker) :
    ∃ letter ∈ letters, letter.marker = marker := by
  rcases used with ⟨state, entry, step, same⟩
  exact ⟨entry.1, reads state entry step, same⟩

theorem reads_from (from_ : LettersFrom automaton result) :
    ∀ state, ∀ entry ∈ result.outgoing state, entry.1 ∈ letters :=
  @LettersFrom.holds automaton result (fun letter => letter ∈ letters) from_ reads

end

theorem mem_kstar_split {word : List Letter} : word ∈ words∗ ↔ word = [] ∨ word ∈ words * words∗ := by
  rw [← Language.mem_one, ← Language.mem_add, Language.one_add_self_mul_kstar_eq_kstar]

theorem range_words_nil : rangeWords [] = 1 := by
  apply Language.ext
  intro word
  rw [Language.mem_one]
  exact forall₂_nil_right_iff

theorem range_words_append (ranges later : List (List Letter)) :
    rangeWords (ranges ++ later) = rangeWords ranges * rangeWords later := by
  apply Language.ext
  intro word
  rw [Language.mem_mul]
  constructor
  · intro all
    refine ⟨word.take ranges.length, forall₂_take_append _ _ _ all, word.drop ranges.length,
      forall₂_drop_append _ _ _ all, take_append_drop _ _⟩
  · rintro ⟨first, firstIn, second, secondIn, rfl⟩
    exact rel_append firstIn secondIn

theorem mem_range_words_singleton {byteRange : List Letter} {word : List Letter} :
    word ∈ rangeWords [byteRange] ↔ ∃ letter ∈ byteRange, word = [letter] := by
  constructor
  · intro all
    rcases forall₂_cons_right_iff.mp all with ⟨letter, rest, inside, none, rfl⟩
    rw [forall₂_nil_right_iff.mp none]
    exact ⟨letter, inside, rfl⟩
  · rintro ⟨letter, inside, rfl⟩
    exact Forall₂.cons inside Forall₂.nil

theorem range_words_proper {ranges : List (List Letter)} (some_ : ranges ≠ []) : rangeWords ranges ≠ 1 := by
  intro same
  have mem : [] ∈ rangeWords ranges := by
    rw [same, Language.mem_one]
  exact some_ (forall₂_nil_left_iff.mp mem)

theorem byte_concat_carries (ranges : List (List Letter)) :
    Carries {letter | ∃ byteRange ∈ ranges, letter ∈ byteRange} (rangeWords ranges)
      (byteConcat ranges alphabetMaxSize) := by
  have reads : ∀ state, ∀ entry ∈ (byteConcat ranges alphabetMaxSize).outgoing state,
      ∃ byteRange ∈ ranges, entry.1 ∈ byteRange := by
    rintro state ⟨letter, target⟩ step
    rcases byte_concat_step.mp step with ⟨byteRange, found, inside, -, -⟩
    exact ⟨byteRange, mem_of_getElem? found, inside⟩
  refine ⟨byte_concat_in_range, ?_, reads, fun marker mem => ?_⟩
  · apply Language.ext
    intro word
    rw [byte_concat_language]
    constructor
    · exact fun all => all.imp fun _ _ both => both.1
    · exact fun all => all.imp fun letter _ inside => ⟨inside, byte_small letter.char⟩
  · have collected : marker ∈ (((ranges.map (rangeOf alphabetMaxSize)).flatten).map (·.marker)).toFinset :=
      mem
    rw [mem_toFinset, mem_map] at collected
    rcases collected with ⟨letter, inside, same⟩
    rcases mem_flatten.mp inside with ⟨row, rowIn, letterIn⟩
    rcases mem_map.mp rowIn with ⟨byteRange, rangeIn, rfl⟩
    exact ⟨letter, ⟨byteRange, rangeIn, (mem_filter.mp letterIn).1⟩, same⟩

theorem universal_carries : ∃ automaton, universal alphabetMaxSize = some automaton ∧
    Carries plainLetters (wordsOver plainLetters) automaton := by
  have small : alphabetMaxSize ≤ alphabetMaxSize := le_rfl
  generalize shape : RawAutomaton.mk true true 0 {0} [(List.range alphabetMaxSize).map fun b =>
    (Letter.ofByte (UInt8.ofNat b), 0)] ∅ = automaton
  have found : universal alphabetMaxSize = some automaton := universal_some.mpr ⟨small, shape.symm⟩
  have step := @universal_step alphabetMaxSize automaton found
  refine ⟨automaton, found, (universal_sound found).toInRange, ?_, ?_, ?_⟩
  · have accepts : ∀ word, word ∈ acceptsAt automaton.nfa 0 ↔ word ∈ wordsOver plainLetters := by
      intro word
      induction word with
      | nil =>
        rw [nil_at, ← shape]
        exact iff_of_true (Finset.mem_singleton_self 0) fun _ mem => absurd mem not_mem_nil
      | cons letter word ih =>
        rw [cons_at]
        constructor
        · rintro ⟨target, taken, rest⟩
          have plain := step.mp taken
          rw [plain.2.1, ih] at rest
          exact forall_mem_cons.mpr ⟨plain.2.2.1, rest⟩
        · intro all
          have both := forall_mem_cons.mp all
          exact ⟨0, step.mpr ⟨rfl, rfl, both.1, byte_small _⟩, ih.mpr both.2⟩
    apply Language.ext
    intro word
    rw [language_eq, ← accepts, ← shape]
  · rintro state ⟨letter, target⟩ taken
    exact (step.mp taken).2.2.1
  · intro marker mem
    rw [universal_markers found] at mem
    exact absurd mem (Finset.notMem_empty marker)

theorem make_optional_carries (carries : Carries letters words automaton) :
    ∃ result, automaton.makeOptional = some result ∧ Carries letters (1 + words) result ∧
      result.complete = automaton.complete := by
  rcases make_optional_optional carries.toInRange with ⟨result, found, optional⟩
  rcases make_optional_rows found with ⟨rows, markers, -⟩
  refine ⟨result, found, ⟨optional.range, ?_, reads_from carries.reads rows.letters, ?_⟩, optional.complete⟩
  · rw [optional.language, carries.words]
  · rw [markers]
    exact carries.markers

theorem strict_repeat_carries (carries : Carries letters words automaton) :
    ∃ result, automaton.strictRepeat order = some result ∧ Carries letters (words * words∗) result ∧
      result.complete = automaton.complete := by
  rcases @strict_repeat_repeats order automaton carries.initial carries.finals with
    ⟨result, found, repeated⟩
  refine ⟨result, found, ⟨repeated.range.mpr carries.toInRange, ?_,
    reads_from carries.reads repeated.letters, ?_⟩, repeated.complete⟩
  · rw [repeated.language, carries.words]
  · rw [repeated.markers]
    exact carries.markers

theorem Merged.reads (merged : Merged automaton result)
    (reads : ∀ state, ∀ entry ∈ automaton.outgoing state, entry.1 ∈ letters) :
    ∀ state, ∀ entry ∈ result.outgoing state, entry.1 ∈ letters := by
  rintro state ⟨letter, target⟩ step
  rcases merged.step.mp step with ⟨old, oldTarget, redirected, -⟩
  rcases redirected_step.mp redirected with ⟨before, oldStep, -⟩
  exact reads old (letter, before) oldStep

theorem weak_repeat_carries (carries : Carries letters words automaton) (proper : words ≠ 1) :
    ∃ result, automaton.weakRepeat order = some result ∧ Carries letters words∗ result ∧
      result.complete = automaton.complete := by
  have inRange := carries.toInRange
  by_cases redirects : Redirects automaton
  · have unfinal : automaton.initialState ∉ automaton.finalStates := by
      intro final
      apply proper
      rw [← carries.words]
      exact initial_final_language redirects final
    have below : ∀ state ∈ automaton.unmerged, automaton.unmerged.idxOf state <
        automaton.nbStates - automaton.finalStates.card := by
      intro state mem
      have length := unmerged_length inRange
      rw [if_neg unfinal] at length
      rw [← length]
      exact idxOf_lt_length_of_mem mem
    rcases redirect_some inRange (fun source letter target step image renamed => by
      rcases rename_eq_some.mp renamed with ⟨mem, rfl⟩
      exact below source mem) with ⟨result, found, merged⟩
    have reads := merged.reads carries.reads
    refine ⟨result, ?_, ⟨?_, ?_, reads, fun marker mem => ?_⟩, merged.complete⟩
    · rw [weak_repeat_redirects inRange redirects]
      exact found
    · rw [merged.in_range_iff inRange redirects]
      intro state mem image renamed _
      rcases rename_eq_some.mp renamed with ⟨-, rfl⟩
      exact below state mem
    · rw [merged.language inRange redirects, carries.words]
    · exact used_markers reads ((merged.updated.markers marker).mp mem)
  · rcases @strict_repeat_carries order _ _ _ carries with ⟨strict, strictIs, repeated, complete⟩
    rcases make_optional_carries repeated with ⟨weak, weakIs, optional, weakComplete⟩
    refine ⟨weak, ?_, ?_, weakComplete.trans complete⟩
    · rw [weak_repeat_copies inRange redirects, strictIs]
      exact weakIs
    · rw [Language.one_add_self_mul_kstar_eq_kstar] at optional
      exact optional

theorem union_carries {automata : List RawAutomaton}
    (carries : ∀ automaton ∈ automata, Carries letters automaton.language automaton) :
    ∃ result, union order automata alphabetMaxSize = some result ∧
      Carries letters {word | ∃ automaton ∈ automata, word ∈ automaton.language} result ∧
        (result.complete = true → ∃ automaton ∈ automata, automaton.complete = true) := by
  have several : ∃ result, ((automata.foldlM unionStep (empty, [])).bind fun summed =>
      summed.1.powersetConstruction order summed.2 false alphabetMaxSize) =
        some result ∧ Carries letters {word | ∃ automaton ∈ automata, word ∈ automaton.language} result ∧
          (result.complete = true → ∃ automaton ∈ automata, automaton.complete = true) := by
    rcases summed_fold automata summed_nil fun automaton mem => (carries automaton mem).toInRange with
      ⟨⟨sum, initials⟩, run, summed⟩
    rw [nil_append] at summed
    have markers := (@union_fold_fits _ (fun letter => letter ∈ letters) _ _
      (fun automaton mem => (carries automaton mem).reads)
      (fun row mem entry inside => absurd (mem_singleton.mp mem ▸ inside) not_mem_nil)
      (fun marker mem => absurd mem (Finset.notMem_empty marker)) run).2
    rcases @powerset_powers order sum alphabetMaxSize summed.range initials summed.initials
      (fun source entry step => ⟨byte_small _, summed.marked _ ⟨source, entry, step, rfl⟩⟩)
      le_rfl false with ⟨result, found, powered⟩
    refine ⟨result, ?_, ⟨powered.range, ?_, fun source entry step => ?_, ?_⟩, fun flag => ?_⟩
    · rw [run]
      exact found
    · apply Language.ext
      intro word
      rw [powered.language, summed.language]
      rfl
    · rcases (powered.letters source entry step).2.2.resolve_left Bool.false_ne_true with
        ⟨old, target, oldStep⟩
      rcases summed.letters old _ oldStep with ⟨automaton, mem, other, onward, taken⟩
      exact (carries automaton mem).reads other (entry.1, onward) taken
    · rw [powered.markers]
      exact markers
    · rw [powered.complete, summed.complete] at flag
      cases flag
  unfold union
  split
  · rename_i automaton
    refine ⟨automaton, rfl, ?_, fun flag => ⟨automaton, mem_singleton_self _, flag⟩⟩
    have only : {word | ∃ other ∈ [automaton], word ∈ other.language} = automaton.language := by
      apply Set.ext
      intro word
      constructor
      · rintro ⟨other, mem, accepted⟩
        rw [mem_singleton.mp mem] at accepted
        exact accepted
      · exact fun accepted => ⟨automaton, mem_singleton_self _, accepted⟩
    rw [only]
    exact carries automaton (mem_singleton_self _)
  · exact several

theorem degenerate_language (degenerate : Degenerate automaton) : automaton.language = 1 :=
  initial_final_language ⟨degenerate.1, Or.inr degenerate.2⟩ degenerate.2

variable {automata : List RawAutomaton}

theorem concat_uses (found : concat automata = some result) :
    ∀ marker ∈ result.markers, result.Uses marker := by
  unfold concat at found
  rcases bind_some_iff.mp found with ⟨state, -, rest⟩
  rcases bind_some_iff.mp rest with ⟨⟨transitions, markers⟩, updatedIs, rest⟩
  rcases bind_some_iff.mp rest with ⟨initialState, -, same⟩
  have updated := updated_of_filter_map updatedIs
  cases same
  exact fun marker mem => (updated.markers marker).mp mem

/-- The words in sequence, unless one of the languages is the empty word alone. -/
theorem concat_carries
    (carries : ∀ automaton ∈ automata, Carries letters automaton.language automaton)
    (proper : ∀ automaton ∈ automata, automaton.language ≠ 1) :
    ∃ result, concat automata = some result ∧
      Carries letters (automata.map RawAutomaton.language).prod result ∧
        result.complete = automata.all fun automaton => automaton.complete := by
  have inRange : ∀ automaton ∈ automata, InRange automaton := fun automaton mem =>
    (carries automaton mem).toInRange
  have undegenerate : ∀ automaton ∈ automata, ¬ Degenerate automaton := fun automaton mem degenerate =>
    proper automaton mem (degenerate_language degenerate)
  have unstuck : ¬ StuckFirst automata := by
    cases automata with
    | nil => exact id
    | cons automaton automata => exact fun stuck => undegenerate automaton mem_cons_self stuck.1
  rcases concat_concatenates inRange unstuck with ⟨result, found, concatenated⟩
  have reads : ∀ source, ∀ entry ∈ result.outgoing source, entry.1 ∈ letters := by
    intro source entry step
    rcases concatenated.letters source entry step with ⟨automaton, mem, old, target, oldStep⟩
    exact (carries automaton mem).reads old (entry.1, target) oldStep
  refine ⟨result, found, ⟨concatenated.range, ?_, reads, fun marker mem => ?_⟩, concatenated.complete⟩
  · rw [concatenated.language]
    exact product_effective.mpr (Or.inl undegenerate)
  · exact used_markers reads (concat_uses found marker mem)

theorem inter_carries {lhs rhs : RawAutomaton} (carries : Carries letters words lhs)
    (otherCarries : Carries others otherWords rhs) :
    ∃ result, lhs.inter order rhs = some result ∧
      Carries (joins letters others) (overlay words otherWords) result ∧ result.complete = false := by
  rcases @inter_some order lhs rhs carries.toInRange otherCarries.toInRange with ⟨result, found⟩
  have intersected := intersected_of_inter found
  have reads : ∀ source, ∀ entry ∈ result.outgoing source, entry.1 ∈ joins letters others := by
    intro source entry step
    rcases intersected.letters source entry step with
      ⟨source1, source2, letter1, letter2, target1, target2, step1, step2, joined⟩
    exact ⟨letter1, carries.reads source1 _ step1, letter2, otherCarries.reads source2 _ step2, joined⟩
  refine ⟨result, found, ⟨intersected.range, ?_, reads, fun marker mem => ?_⟩, intersected.complete⟩
  · apply Language.ext
    intro word
    rw [intersected.words, carries.words, otherCarries.words]
    rfl
  · exact used_markers reads ((intersected.marked marker).mp mem)

theorem complemented_carries (carries : Carries letters words automaton) (marked : Marked automaton)
    (unflagged : automaton.complete = false) (single : ∀ letter ∈ letters, ∀ other ∈ letters,
      letter.marker = other.marker) (read : ∃ word ∈ words, word ≠ []) :
    ∃ result, automaton.complemented order alphabetMaxSize = some result ∧
      Carries (remarked letters) {word | word ∈ wordsOver (remarked letters) ∧ word ∉ words} result ∧
        result.complete = false := by
  have flags : (automaton.deterministic && automaton.complete) = false := by
    rw [unflagged, Bool.and_false]
  have markers : ∀ letter : Letter, letter.marker ∈ automaton.markers ↔ letter ∈ remarked letters := by
    intro letter
    constructor
    · intro mem
      rcases carries.markers _ mem with ⟨other, inside, same⟩
      exact ⟨other, inside, same⟩
    · rintro ⟨other, inside, same⟩
      rcases read with ⟨word, accepted, some_⟩
      rw [← carries.words, language_eq] at accepted
      rcases exists_mem_of_ne_nil word some_ with ⟨first, firstIn⟩
      rcases accepted_letters accepted first firstIn with ⟨source, target, step⟩
      rw [← same, single other inside first (carries.reads source _ step)]
      exact marked _ ⟨source, _, step, rfl⟩
  rcases @powerset_powers order automaton alphabetMaxSize carries.toInRange [automaton.initialState]
    (fun state mem => by rw [mem_singleton.mp mem]; exact carries.initial)
    (fun source entry step => ⟨byte_small _, marked _ ⟨source, entry, step, rfl⟩⟩) le_rfl true with
    ⟨power, powerIs, powered⟩
  have complete : power.complete = true := by rw [powered.complete, Bool.or_true]
  rcases @remove_dead_states_trims order power.swapped (swapped_range powered.range) with
    ⟨result, trimIs, trimmed⟩
  have found : automaton.complemented order alphabetMaxSize = some result := by
    have completed : (power.deterministic && power.complete) = true := by
      rw [powered.deterministic, complete, Bool.and_self]
    unfold complemented determinise complement
    simp only [Bool.not_true, Bool.false_or, flags, Bool.false_eq_true, if_false,
      Option.bind_eq_bind, powerIs, Option.bind_some]
    rw [if_pos completed]
    exact trimIs
  have reads : ∀ source, ∀ entry ∈ result.outgoing source, entry.1 ∈ remarked letters := by
    intro source entry step
    rcases trimmed.letters source with ⟨old, sublist⟩
    rcases mem_map.mp (sublist.subset (mem_map_of_mem step)) with ⟨oldEntry, oldStep, same⟩
    rw [← same, ← markers]
    exact (powered.letters old oldEntry oldStep).2.1
  refine ⟨result, found, ⟨trimmed.range, ?_, reads, fun marker mem => ?_⟩, trimmed.complete⟩
  · rcases @completed_language order automaton alphabetMaxSize
      ⟨fun _ _ _ => byte_small _, fun _ => marked, fun set => nomatch set.symm.trans flags⟩ flags carries.toInRange.traversable le_rfl with
      ⟨other, otherIs, language⟩
    rw [found, Option.some.injEq] at otherIs
    apply Language.ext
    intro word
    rw [otherIs, language, carries.words]
    apply and_congr_left
    intro _
    apply forall₂_congr
    intro letter _
    rw [markers]
    exact and_iff_right (byte_small _)
  · exact used_markers reads ((trimmed.markers marker).mp mem)

end Midfall.RawAutomata.RawAutomaton
