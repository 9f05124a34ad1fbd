import Midfall.RawAutomatonPowerset

/-!
# Appended automata and unions

The states of an automaton are renumbered behind those of another one. The
states that were there accept the same words as before.
-/

namespace Midfall.RawAutomata.RawAutomaton

open AutomatonLanguages List
open ScannerAutomaton (alphabetMaxSize)

variable {order : HashOrder} {automaton first result : RawAutomaton}

/-- The transitions of an automaton behind those of another one. -/
structure Shifted (automaton : RawAutomaton) (nbStates : Nat) (transitions : Transitions)
    (markers : Finset Nat) : Prop where
  length : transitions.length = automaton.nbStates
  rows : ∀ state : Nat, (transitions[state]?).getD [] =
    (automaton.outgoing state).map fun entry => (entry.1, entry.2 + nbStates)
  markers : ∀ marker, marker ∈ markers ↔ automaton.Uses marker

theorem shift_shifts (automaton : RawAutomaton) (nbStates : Nat) :
    ∃ transitions markers, filterMapTransitions automaton.transitions
      (fun state => some (state + nbStates)) automaton.nbStates nbStates = some (transitions, markers) ∧
        Shifted automaton nbStates transitions markers := by
  have sources : ∀ source image, some (source + nbStates) = some image →
      source < automaton.transitions.length →
        nbStates ≤ image ∧ image - nbStates < automaton.nbStates := by
    intro source image same below
    rw [Option.some.injEq] at same
    rw [← same, Nat.add_sub_cancel]
    exact ⟨Nat.le_add_left _ _, below⟩
  rcases filter_map_some sources with ⟨transitions, markers, found⟩
  have updated := updated_of_filter_map found
  have separates : Separates fun state => some (state + nbStates) := by
    intro first second image firstIs secondIs
    rw [Option.some.injEq] at firstIs secondIs
    omega
  have rows : ∀ state : Nat, (transitions[state]?).getD [] =
      (automaton.outgoing state).map fun entry => (entry.1, entry.2 + nbStates) := by
    intro state
    by_cases below : state < automaton.nbStates
    · rw [updated.outgoing separates state state rfl below, ← filterMap_eq_map']
      rfl
    · rw [outgoing_out_of_range (not_lt.mp below),
        getElem?_eq_none (by rw [updated.length]; exact not_lt.mp below)]
      rfl
  refine ⟨transitions, markers, found, updated.length, rows, fun marker => ?_⟩
  rw [updated.markers]
  constructor
  · rintro ⟨state, entry, step, same⟩
    rw [rows, mem_map] at step
    rcases step with ⟨old, oldStep, rfl⟩
    exact ⟨state, old, oldStep, same⟩
  · rintro ⟨state, entry, step, same⟩
    refine ⟨state, (entry.1, entry.2 + nbStates), ?_, same⟩
    rw [rows]
    exact mem_map_of_mem step

/-- The states of the first automaton are left as they were. -/
structure Extends (first result : RawAutomaton) : Prop where
  rows : ∀ state < first.nbStates, result.outgoing state = first.outgoing state
  finals : ∀ state < first.nbStates, state ∈ result.finalStates ↔ state ∈ first.finalStates

theorem Extends.accepts (extends_ : Extends first result) (inRange : InRange first) {state : Nat}
    (below : state < first.nbStates) : acceptsAt result.nfa state = acceptsAt first.nfa state := by
  have related : state = state ∧ state < first.nbStates := ⟨rfl, below⟩
  refine @languages_agree _ _ _ result.nfa first.nfa
    (fun one other => one = other ∧ one < first.nbStates) ?_ ?_ _ _ related
  · constructor
    · rintro one _ ⟨rfl, inside⟩ final
      exact (extends_.finals one inside).mp final
    · rintro one _ ⟨rfl, inside⟩ letter target step -
      rw [mem_step, extends_.rows one inside] at step
      exact ⟨target, step, rfl, inRange.targets one _ step⟩
  · constructor
    · rintro other _ ⟨rfl, inside⟩ final
      exact (extends_.finals _ inside).mpr final
    · rintro other one ⟨rfl, inside⟩ letter target step -
      refine ⟨target, ?_, rfl, inRange.targets _ _ step⟩
      rw [mem_step, extends_.rows _ inside]
      exact step

theorem outgoing_append {rows1 rows2 : Transitions} (shape : result.transitions = rows1 ++ rows2) :
    (∀ state < rows1.length, result.outgoing state = (rows1[state]?).getD []) ∧
      ∀ state, result.outgoing (state + rows1.length) = (rows2[state]?).getD [] := by
  unfold outgoing
  rw [shape]
  constructor
  · intro state below
    rw [getElem?_append_left below]
  · intro state
    rw [getElem?_append_right (Nat.le_add_left _ _), Nat.add_sub_cancel]

structure Summed (automata : List RawAutomaton) (state : RawAutomaton × List Nat) : Prop where
  range : InRange state.1
  initials : ∀ initial ∈ state.2, initial < state.1.nbStates
  language : ∀ word, (∃ initial ∈ state.2, word ∈ acceptsAt state.1.nfa initial) ↔
    ∃ automaton ∈ automata, word ∈ automaton.language
  letters : ∀ source, ∀ entry ∈ state.1.outgoing source, ∃ automaton ∈ automata,
    ∃ old target, (entry.1, target) ∈ automaton.outgoing old
  marked : Marked state.1
  complete : state.1.complete = false

theorem summed_nil : Summed [] (empty, []) where
  range := empty_in_range
  initials := fun initial mem => absurd mem not_mem_nil
  language := by
    intro word
    constructor
    · rintro ⟨initial, mem, -⟩
      exact absurd mem not_mem_nil
    · rintro ⟨automaton, mem, -⟩
      exact absurd mem not_mem_nil
  letters := by
    intro source entry step
    rw [outgoing_empty] at step
    exact absurd step not_mem_nil
  marked := by
    rintro marker ⟨source, entry, step, -⟩
    rw [outgoing_empty] at step
    exact absurd step not_mem_nil
  complete := rfl

theorem Summed.step {automata : List RawAutomaton} {state : RawAutomaton × List Nat}
    (summed : Summed automata state) (inRange : InRange automaton) :
    ∃ next, unionStep state automaton = some next ∧ Summed (automata ++ [automaton]) next := by
  rcases shift_shifts automaton state.1.nbStates with ⟨transitions, markers, found, shifted⟩
  unfold unionStep
  simp only [Option.bind_eq_bind, found, Option.bind_some, Option.pure_def]
  refine ⟨_, rfl, ?_⟩
  generalize nextIs : RawAutomaton.mk state.1.deterministic state.1.complete state.1.initialState
    (state.1.finalStates ∪ automaton.finalStates.image fun old => old + state.1.nbStates)
    (state.1.transitions ++ transitions) (state.1.markers ∪ markers) = next
  have shape : next.transitions = state.1.transitions ++ transitions := by rw [← nextIs]
  have rows := outgoing_append shape
  have newRows : ∀ old, next.outgoing (old + state.1.nbStates) =
      (automaton.outgoing old).map fun entry => (entry.1, entry.2 + state.1.nbStates) := by
    intro old
    exact (rows.2 old).trans (shifted.rows old)
  have count : next.nbStates = state.1.nbStates + automaton.nbStates := by
    unfold nbStates
    rw [shape, length_append, shifted.length]
    rfl
  have finals : ∀ final, final ∈ next.finalStates ↔ final ∈ state.1.finalStates ∨
      ∃ old ∈ automaton.finalStates, old + state.1.nbStates = final := by
    intro final
    rw [← nextIs, Finset.mem_union, Finset.mem_image]
  have extends_ : Extends state.1 next := by
    constructor
    · exact fun old below => rows.1 old below
    · intro old below
      rw [finals]
      constructor
      · rintro (before | ⟨other, -, same⟩)
        · exact before
        · omega
      · exact Or.inl
  have newAccepts : ∀ old, acceptsAt next.nfa (old + state.1.nbStates) =
      acceptsAt automaton.nfa old := by
    intro old
    refine @languages_agree _ _ _ next.nfa automaton.nfa
      (fun image old => image = old + state.1.nbStates) ?_ ?_ _ _ rfl
    · constructor
      · rintro _ other rfl final
        rcases (finals _).mp final with before | ⟨source, sourceFinal, same⟩
        · have below := summed.range.finals _ before
          omega
        · rw [Nat.add_right_cancel same] at sourceFinal
          exact sourceFinal
      · rintro _ other rfl letter target step -
        rw [mem_step, newRows, mem_map] at step
        rcases step with ⟨entry, oldStep, same⟩
        cases same
        exact ⟨entry.2, oldStep, rfl⟩
    · constructor
      · rintro other _ rfl final
        exact (finals _).mpr (Or.inr ⟨other, final, rfl⟩)
      · rintro other _ rfl letter target step -
        refine ⟨target + state.1.nbStates, ?_, rfl⟩
        rw [mem_step, newRows]
        exact mem_map.mpr ⟨_, step, rfl⟩
  have entries : ∀ source, ∀ entry ∈ next.outgoing source, (source < state.1.nbStates ∧
      entry ∈ state.1.outgoing source) ∨ ∃ old target, source = old + state.1.nbStates ∧
        (entry.1, target) ∈ automaton.outgoing old ∧ entry.2 = target + state.1.nbStates := by
    intro source entry step
    rcases Nat.lt_or_ge source state.1.nbStates with below | above
    · rw [extends_.rows source below] at step
      exact Or.inl ⟨below, step⟩
    · rw [← Nat.sub_add_cancel above, newRows] at step
      rcases mem_map.mp step with ⟨old, oldStep, rfl⟩
      exact Or.inr ⟨_, old.2, (Nat.sub_add_cancel above).symm, oldStep, rfl⟩
  constructor
  · constructor
    · have initialIs : next.initialState = state.1.initialState := by rw [← nextIs]
      rw [initialIs, count]
      exact Nat.lt_add_right _ summed.range.initial
    · intro final mem
      rw [count]
      rcases (finals final).mp mem with before | ⟨old, oldFinal, rfl⟩
      · exact Nat.lt_add_right _ (summed.range.finals final before)
      · have below := inRange.finals old oldFinal
        omega
    · intro source entry step
      rw [count]
      rcases entries source entry step with ⟨-, oldStep⟩ | ⟨old, target, -, oldStep, same⟩
      · exact Nat.lt_add_right _ (summed.range.targets source entry oldStep)
      · have below := inRange.targets old _ oldStep
        dsimp only at below
        omega
  · intro initial mem
    rw [count]
    rcases mem_append.mp mem with before | last
    · exact Nat.lt_add_right _ (summed.initials initial before)
    · rw [mem_singleton.mp last]
      have below := inRange.initial
      omega
  · intro word
    constructor
    · rintro ⟨initial, mem, accepted⟩
      rcases mem_append.mp mem with before | last
      · rw [extends_.accepts summed.range (summed.initials initial before)] at accepted
        rcases (summed.language word).mp ⟨initial, before, accepted⟩ with ⟨other, otherIn, read⟩
        exact ⟨other, mem_append_left _ otherIn, read⟩
      · rw [mem_singleton.mp last, newAccepts] at accepted
        exact ⟨automaton, mem_append_right _ (mem_singleton_self _), accepted⟩
    · rintro ⟨other, mem, accepted⟩
      rcases mem_append.mp mem with before | last
      · rcases (summed.language word).mpr ⟨other, before, accepted⟩ with ⟨initial, initialIn, read⟩
        refine ⟨initial, mem_append_left _ initialIn, ?_⟩
        rw [extends_.accepts summed.range (summed.initials initial initialIn)]
        exact read
      · rw [mem_singleton.mp last] at accepted
        refine ⟨_, mem_append_right _ (mem_singleton_self _), ?_⟩
        rw [newAccepts]
        exact accepted
  · intro source entry step
    rcases entries source entry step with ⟨-, oldStep⟩ | ⟨old, target, -, oldStep, -⟩
    · rcases summed.letters source entry oldStep with ⟨other, mem, taken⟩
      exact ⟨other, mem_append_left _ mem, taken⟩
    · exact ⟨automaton, mem_append_right _ (mem_singleton_self _), old, target, oldStep⟩
  · rintro marker ⟨source, entry, step, same⟩
    have markersAre : next.markers = state.1.markers ∪ markers := by rw [← nextIs]
    rw [markersAre, Finset.mem_union]
    rcases entries source entry step with ⟨-, oldStep⟩ | ⟨old, target, -, oldStep, -⟩
    · exact Or.inl (summed.marked marker ⟨source, entry, oldStep, same⟩)
    · exact Or.inr ((shifted.markers marker).mpr ⟨old, _, oldStep, same⟩)
  · rw [← nextIs]
    exact summed.complete

theorem summed_fold (later : List RawAutomaton) {automata : List RawAutomaton}
    {state : RawAutomaton × List Nat} (summed : Summed automata state)
    (inRange : ∀ automaton ∈ later, InRange automaton) :
    ∃ result, later.foldlM unionStep state = some result ∧ Summed (automata ++ later) result := by
  induction later generalizing automata state with
  | nil =>
    rw [append_nil]
    exact ⟨state, rfl, summed⟩
  | cons automaton later ih =>
    rcases summed.step (inRange automaton mem_cons_self) with ⟨next, stepIs, nextSummed⟩
    rcases ih nextSummed (forall_mem_cons.mp inRange).2 with
      ⟨result, run, holds⟩
    refine ⟨result, ?_, ?_⟩
    · rw [foldlM_cons, stepIs]
      exact run
    · rw [append_assoc] at holds
      exact holds

structure United (alphabetSize : Nat) (automata : List RawAutomaton) (result : RawAutomaton) : Prop
    extends WellFormed alphabetSize result where
  language : ∀ word, word ∈ result.language ↔ ∃ automaton ∈ automata, word ∈ automaton.language

theorem union_unites {alphabetSize : Nat} {automata : List RawAutomaton}
    (sound : ∀ automaton ∈ automata, WellFormed alphabetSize automaton)
    (small : alphabetSize ≤ alphabetMaxSize) :
    ∃ result, union order automata alphabetSize = some result ∧
      United alphabetSize automata result := by
  have several : ∃ result, ((automata.foldlM unionStep (empty, [])).bind fun summed =>
      summed.1.powersetConstruction order summed.2 false alphabetSize) =
        some result ∧ United alphabetSize automata result := by
    rcases summed_fold automata summed_nil fun automaton mem => (sound automaton mem).toInRange with
      ⟨⟨sum, initials⟩, run, summed⟩
    rw [nil_append] at summed
    have bytes : ∀ source, ∀ entry ∈ sum.outgoing source, entry.1.char.toNat < alphabetSize := by
      intro source entry step
      rcases summed.letters source entry step with ⟨automaton, mem, old, target, taken⟩
      exact (sound automaton mem).bytes old (entry.1, target) taken
    rcases @powerset_powers order sum alphabetSize summed.range initials summed.initials
      (fun source entry step => ⟨bytes source entry step, summed.marked _ ⟨source, entry, step, rfl⟩⟩)
      small false with ⟨result, found, powered⟩
    refine ⟨result, ?_, ⟨⟨powered.range, ?_, fun _ => powered.distinct, ?_⟩, ?_⟩, ?_⟩
    · rw [run]
      exact found
    · exact fun state entry step => (powered.letters state entry step).1
    · intro flag
      rw [powered.complete, summed.complete] at flag
      cases flag
    · rintro marker ⟨state, entry, step, same⟩
      rw [powered.markers, ← same]
      exact (powered.letters state entry step).2.1
    · intro word
      rw [powered.language, summed.language]
  unfold union
  split
  · rename_i automaton
    refine ⟨automaton, rfl, sound automaton (mem_singleton_self _), fun word => ?_⟩
    constructor
    · exact fun accepted => ⟨automaton, mem_singleton_self _, accepted⟩
    · rintro ⟨other, mem, accepted⟩
      rw [mem_singleton.mp mem] at accepted
      exact accepted
  · exact several

end Midfall.RawAutomata.RawAutomaton
