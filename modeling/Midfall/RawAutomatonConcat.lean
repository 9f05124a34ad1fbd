import Midfall.RawAutomatonConstructors
import Midfall.RawAutomatonRepeat
import Midfall.RawAutomatonSums

/-!
# Concatenation

The automata are plugged together from the last one. When nothing follows the
final states of an automaton, the transitions to them are redirected to the next
initial state, and a final initial state is lost. States that no transition
leads to any more are removed at the end.
-/

namespace Midfall.RawAutomata.RawAutomaton

open AutomatonLanguages List
open Option (bind_eq_bind bind_some getD_none getD_some map_some)

variable {automaton : RawAutomaton} {automata : List RawAutomaton} {alphabetSize : Nat}

/-! ### Shapes of automata -/

def Ends (automaton : RawAutomaton) : Prop :=
  ∀ state ∈ automaton.finalStates, automaton.outgoing state = []

def Entered (automaton : RawAutomaton) (state : Nat) : Prop :=
  ∃ source letter, (letter, state) ∈ automaton.outgoing source

def Reads (automaton : RawAutomaton) (state : Nat) (letter : Letter) : Prop :=
  ∃ target, (letter, target) ∈ automaton.outgoing state

/-- The redirection loses a final initial state. -/
def Degenerate (automaton : RawAutomaton) : Prop :=
  Ends automaton ∧ automaton.initialState ∈ automaton.finalStates

/-- A lost initial state that is removed as well. -/
def Stuck (automaton : RawAutomaton) : Prop :=
  Degenerate automaton ∧ Entered automaton automaton.initialState

/-- What an automaton contributes to a concatenation. -/
def effective (automaton : RawAutomaton) : Language Letter :=
  {word | word ∈ automaton.language ∧ ¬ Degenerate automaton}

theorem effective_of_proper (proper : ¬ Degenerate automaton) : automaton.effective = automaton.language := by
  apply Language.ext
  intro word
  exact ⟨fun both => both.1, fun accepted => ⟨accepted, proper⟩⟩

theorem effective_of_degenerate (degenerate : Degenerate automaton) : automaton.effective = 0 := by
  apply Language.ext
  intro word
  exact iff_of_false (fun both => both.2 degenerate) (Language.notMem_zero word)

/-- The letters that the initial state of a concatenation reads. -/
def Starts : List RawAutomaton → Letter → Prop
  | [], _ => False
  | automaton :: automata, letter => Reads automaton automaton.initialState letter ∨
      (¬ Ends automaton ∧ automaton.initialState ∈ automaton.finalStates ∧ Starts automata letter)

/-- A state that is kept reads these letters; the first state may be dropped. -/
def RowOf : Prop → List RawAutomaton → (Letter → Prop) → Prop
  | dropped, [], letters => ¬ dropped ∧ ∀ letter, ¬ letters letter
  | dropped, automaton :: automata, letters =>
    (∃ state < automaton.nbStates,
      ¬ (Ends automaton ∧ state ∈ automaton.finalStates ∧ Entered automaton state) ∧
      ¬ (dropped ∧ ¬ Entered automaton automaton.initialState ∧ state = automaton.initialState) ∧
        ∀ letter, letters letter ↔ Reads automaton state letter ∨
          (¬ Ends automaton ∧ state ∈ automaton.finalStates ∧ Starts automata letter)) ∨
    RowOf (¬ Ends automaton) automata letters

theorem ends_iff (inRange : InRange automaton) : ∃ answer, automaton.nothingAfterFinal = some answer ∧
    (answer = true ↔ Ends automaton) := nothing_after_final_iff inRange.finals

/-! ### One more automaton -/

structure Plugged (state : Concatenation) (automaton : RawAutomaton) (next : Concatenation) : Prop where
  states : next.automaton.nbStates = state.automaton.nbStates + automaton.nbStates
  initial : next.automaton.initialState = automaton.initialState + state.automaton.nbStates
  old : Extends state.automaton next.automaton
  step : ∀ (source target : Nat) (letter : Letter),
    (letter, target) ∈ next.automaton.outgoing (source + state.automaton.nbStates) ↔
      (∃ onward, (letter, onward) ∈ automaton.outgoing source ∧
        ((¬ (Ends automaton ∧ onward ∈ automaton.finalStates) ∧
            onward + state.automaton.nbStates = target) ∨
          ((Ends automaton ∧ onward ∈ automaton.finalStates) ∧ state.automaton.initialState = target))) ∨
      (¬ Ends automaton ∧ source ∈ automaton.finalStates ∧
        (letter, target) ∈ state.automaton.outgoing state.automaton.initialState)
  finals : ∀ source, source + state.automaton.nbStates ∈ next.automaton.finalStates ↔
    ¬ Ends automaton ∧ source ∈ automaton.finalStates ∧
      state.automaton.initialState ∈ state.automaton.finalStates
  garbage : ∀ dead, dead ∈ next.garbage ↔ dead ∈ state.garbage ∨
    (∃ source, source + state.automaton.nbStates = dead ∧ Ends automaton ∧
      source ∈ automaton.finalStates ∧ Entered automaton source) ∨
    (¬ Ends automaton ∧ state.loopOnInitial = false ∧ state.automaton.initialState = dead)
  loop : next.loopOnInitial = true ↔ Entered automaton automaton.initialState

section

variable {state : Concatenation} (range : InRange state.automaton) (inRange : InRange automaton)

include range inRange

theorem concat_step_redirects (ends_ : Ends automaton) :
    ∃ next, concatStep state automaton = some next ∧ Plugged state automaton next := by
  rcases shift_shifts automaton state.automaton.nbStates with ⟨transitions, markers, found, shifted⟩
  rcases ends_iff inRange with ⟨answer, answerIs, answers⟩
  have holds : answer = true := answers.mpr ends_
  unfold concatStep
  simp only [bind_eq_bind, found, bind_some, answerIs, holds, if_true, Option.pure_def]
  refine ⟨_, rfl, ?_⟩
  generalize redirectedIs : (transitions.map fun succ => succ.map fun entry =>
    if entry.2 - state.automaton.nbStates ∈ automaton.finalStates then
      (entry.1, state.automaton.initialState) else entry) = redirected
  have length : redirected.length = automaton.nbStates := by
    rw [← redirectedIs, length_map, shifted.length]
  have rows : ∀ source : Nat, (redirected[source]?).getD [] = (automaton.outgoing source).map fun entry =>
      if entry.2 ∈ automaton.finalStates then (entry.1, state.automaton.initialState)
      else (entry.1, entry.2 + state.automaton.nbStates) := by
    intro source
    have shiftedRow := shifted.rows source
    rw [← redirectedIs, getElem?_map]
    cases lookup : transitions[source]? with
    | none =>
      rw [lookup, getD_none, eq_comm, map_eq_nil_iff] at shiftedRow
      rw [shiftedRow]
      rfl
    | some succ =>
      rw [lookup, getD_some] at shiftedRow
      rw [map_some, getD_some, shiftedRow, map_map]
      apply map_congr_left
      intro entry _
      rw [Function.comp_apply]
      simp only [Nat.add_sub_cancel]
  have appended : ∀ source, _ := (@outgoing_append
    { state.automaton with
      initialState := automaton.initialState + state.automaton.nbStates
      transitions := state.automaton.transitions ++ redirected } _ _ rfl).2
  constructor
  · unfold nbStates
    rw [length_append, length]
    rfl
  · rfl
  · constructor
    · exact fun source below => (outgoing_append rfl).1 source below
    · exact fun source _ => Iff.rfl
  · intro source target letter
    refine Iff.trans (Eq.to_iff (congrArg (fun row => (letter, target) ∈ row)
      ((appended source).trans (rows source)))) ?_
    rw [mem_map]
    constructor
    · rintro ⟨⟨label, onward⟩, taken, same⟩
      dsimp only at same
      split_ifs at same with final
      · cases same
        exact Or.inl ⟨onward, taken, Or.inr ⟨⟨ends_, final⟩, rfl⟩⟩
      · cases same
        exact Or.inl ⟨onward, taken, Or.inl ⟨fun both => final both.2, rfl⟩⟩
    · rintro (⟨onward, taken, ⟨other, rfl⟩ | ⟨⟨-, final⟩, rfl⟩⟩ | ⟨continues, -⟩)
      · exact ⟨_, taken, if_neg fun final => other ⟨ends_, final⟩⟩
      · exact ⟨_, taken, if_pos final⟩
      · exact absurd ends_ continues
  · intro source
    apply iff_of_false
    · intro final
      have below := range.finals _ final
      omega
    · exact fun all => all.1 ends_
  · intro dead
    rw [Finset.mem_union, mem_toFinset, mem_filter, decide_eq_true_iff]
    apply or_congr_right
    have targets : dead ∈ (transitions.flatten.map Prod.snd) ↔
        ∃ source, source + state.automaton.nbStates = dead ∧ Entered automaton source := by
      rw [mem_map]
      constructor
      · rintro ⟨entry, mem, rfl⟩
        rcases mem_flatten.mp mem with ⟨succ, succIn, inside⟩
        rcases mem_iff_getElem?.mp succIn with ⟨source, lookup⟩
        have row := shifted.rows source
        rw [lookup, getD_some] at row
        rw [row] at inside
        rcases mem_map.mp inside with ⟨old, taken, rfl⟩
        exact ⟨old.2, rfl, source, old.1, taken⟩
      · rintro ⟨target, rfl, source, letter, taken⟩
        have row := shifted.rows source
        have inside : (letter, target + state.automaton.nbStates) ∈ (transitions[source]?).getD [] := by
          rw [row]
          exact mem_map.mpr ⟨_, taken, rfl⟩
        cases lookup : transitions[source]? with
        | none =>
          rw [lookup] at inside
          exact absurd inside not_mem_nil
        | some succ =>
          rw [lookup, getD_some] at inside
          exact ⟨_, mem_flatten.mpr ⟨succ, mem_of_getElem? lookup, inside⟩, rfl⟩
    rw [targets]
    constructor
    · rintro ⟨⟨source, rfl, entered⟩, final⟩
      rw [Nat.add_sub_cancel] at final
      exact Or.inl ⟨source, rfl, ends_, final, entered⟩
    · rintro (⟨source, rfl, -, final, entered⟩ | ⟨continues, -⟩)
      · refine ⟨⟨source, rfl, entered⟩, ?_⟩
        rw [Nat.add_sub_cancel]
        exact final
      · exact absurd ends_ continues
  · exact loop_on_initial_iff

theorem concat_step_copies (continues : ¬ Ends automaton) :
    ∃ next, concatStep state automaton = some next ∧ Plugged state automaton next := by
  rcases shift_shifts automaton state.automaton.nbStates with ⟨transitions, markers, found, shifted⟩
  rcases ends_iff inRange with ⟨answer, answerIs, answers⟩
  have fails : answer = false := by
    rw [← Bool.not_eq_true, answers]
    exact continues
  have outgoingIs : (state.automaton.transitions ++ transitions)[state.automaton.initialState]? =
      some (state.automaton.outgoing state.automaton.initialState) := by
    rw [getElem?_append_left range.initial]
    exact lookup_of_lt range.initial
  unfold concatStep
  simp only [bind_eq_bind, found, bind_some, answerIs, fails, Bool.false_eq_true, if_false,
    outgoingIs, Option.pure_def]
  refine ⟨_, rfl, ?_⟩
  generalize copiedIs : (transitions.zipIdx.map fun entry =>
    if entry.2 ∈ automaton.finalStates then
      entry.1 ++ state.automaton.outgoing state.automaton.initialState else entry.1) = copied
  have length : copied.length = automaton.nbStates := by
    rw [← copiedIs, length_map, length_zipIdx, shifted.length]
  have rows : ∀ source : Nat, (copied[source]?).getD [] =
      (automaton.outgoing source).map (fun entry => (entry.1, entry.2 + state.automaton.nbStates)) ++
        if source ∈ automaton.finalStates then
          state.automaton.outgoing state.automaton.initialState else [] := by
    intro source
    have shiftedRow := shifted.rows source
    rw [← copiedIs, getElem?_map, getElem?_zipIdx]
    cases lookup : transitions[source]? with
    | none =>
      have outside : source ∉ automaton.finalStates := by
        intro final
        have below := inRange.finals source final
        rw [← shifted.length] at below
        rw [getElem?_eq_getElem below] at lookup
        cases lookup
      rw [lookup, getD_none, eq_comm, map_eq_nil_iff] at shiftedRow
      rw [shiftedRow, if_neg outside]
      rfl
    | some succ =>
      rw [lookup, getD_some] at shiftedRow
      rw [← shiftedRow]
      simp only [map_some, getD_some, Nat.zero_add]
      split_ifs
      · rfl
      · rw [append_nil]
  have appended : ∀ source, _ := (@outgoing_append
    { state.automaton with
      initialState := automaton.initialState + state.automaton.nbStates
      finalStates :=
        if state.automaton.initialState ∈ state.automaton.finalStates then
          state.automaton.finalStates ∪
            automaton.finalStates.image (fun old => old + state.automaton.nbStates)
        else state.automaton.finalStates
      transitions := state.automaton.transitions ++ copied } _ _ rfl).2
  have finals : ∀ final, final ∈ (if state.automaton.initialState ∈ state.automaton.finalStates then
      state.automaton.finalStates ∪ automaton.finalStates.image fun old => old + state.automaton.nbStates
    else state.automaton.finalStates) ↔ final ∈ state.automaton.finalStates ∨
      (state.automaton.initialState ∈ state.automaton.finalStates ∧
        ∃ old ∈ automaton.finalStates, old + state.automaton.nbStates = final) := by
    intro final
    split_ifs with accepts
    · rw [Finset.mem_union, Finset.mem_image]
      exact or_congr_right ⟨fun some_ => ⟨accepts, some_⟩, fun both => both.2⟩
    · exact ⟨Or.inl, fun either => either.elim id fun both => absurd both.1 accepts⟩
  constructor
  · unfold nbStates
    rw [length_append, length]
    rfl
  · rfl
  · constructor
    · exact fun source below => (outgoing_append rfl).1 source below
    · intro source below
      rw [finals]
      constructor
      · rintro (before | ⟨-, other, -, same⟩)
        · exact before
        · omega
      · exact Or.inl
  · intro source target letter
    refine Iff.trans (Eq.to_iff (congrArg (fun row => (letter, target) ∈ row)
      ((appended source).trans (rows source)))) ?_
    rw [mem_append, mem_map]
    apply or_congr
    · constructor
      · rintro ⟨⟨label, onward⟩, taken, same⟩
        cases same
        exact ⟨onward, taken, Or.inl ⟨fun both => continues both.1, rfl⟩⟩
      · rintro ⟨onward, taken, ⟨-, rfl⟩ | ⟨⟨ends_, -⟩, -⟩⟩
        · exact ⟨_, taken, rfl⟩
        · exact absurd ends_ continues
    · split_ifs with final
      · exact ⟨fun first => ⟨continues, final, first⟩, fun all => all.2.2⟩
      · exact iff_of_false not_mem_nil fun all => final all.2.1
  · intro source
    rw [finals]
    constructor
    · rintro (before | ⟨accepts, old, final, same⟩)
      · have below := range.finals _ before
        omega
      · rw [Nat.add_right_cancel same] at final
        exact ⟨continues, final, accepts⟩
    · exact fun all => Or.inr ⟨all.2.2, source, all.2.1, rfl⟩
  · intro dead
    have unredirected : ¬ ∃ source, source + state.automaton.nbStates = dead ∧ Ends automaton ∧
        source ∈ automaton.finalStates ∧ Entered automaton source := by
      rintro ⟨source, -, ends_, -⟩
      exact continues ends_
    rw [or_iff_right unredirected]
    cases looping : state.loopOnInitial with
    | true =>
      rw [if_pos rfl]
      exact ⟨Or.inl, fun either => either.elim id fun all => by cases all.2.1⟩
    | false =>
      rw [if_neg Bool.false_ne_true, Finset.mem_insert]
      constructor
      · rintro (rfl | before)
        · exact Or.inr ⟨continues, rfl, rfl⟩
        · exact Or.inl before
      · rintro (before | ⟨-, -, rfl⟩)
        · exact Or.inr before
        · exact Or.inl rfl
  · exact loop_on_initial_iff

theorem concat_step_plugs :
    ∃ next, concatStep state automaton = some next ∧ Plugged state automaton next := by
  by_cases ends_ : Ends automaton
  · exact concat_step_redirects range inRange ends_
  · exact concat_step_copies range inRange ends_

end

/-! ### The loop over the automata -/

def Dead (automaton : RawAutomaton) (state : Nat) : Prop :=
  automaton.outgoing state = [] ∧ state ∉ automaton.finalStates

theorem Dead.rejects {state : Nat} (dead : Dead automaton state) {word : List Letter} :
    word ∉ acceptsAt automaton.nfa state := by
  intro accepted
  cases word with
  | nil => exact dead.2 (nil_at.mp accepted)
  | cons letter word =>
    rcases cons_at.mp accepted with ⟨target, step, -⟩
    rw [dead.1] at step
    exact absurd step not_mem_nil

def StuckFirst : List RawAutomaton → Prop
  | [] => False
  | automaton :: _ => Stuck automaton

/-- What the loop leaves when the automata are plugged together. -/
structure Chained (automata : List RawAutomaton) (state : Concatenation) : Prop where
  range : InRange state.automaton
  language : state.automaton.language = (automata.map effective).prod
  unentered : state.loopOnInitial = false → ¬ Entered state.automaton state.automaton.initialState
  garbage : ∀ dead ∈ state.garbage, dead < state.automaton.nbStates ∧
    ((Dead state.automaton dead ∧ ∃ automaton ∈ automata, Stuck automaton) ∨
      (dead ≠ state.automaton.initialState ∧ ¬ Entered state.automaton dead))
  initial : state.automaton.initialState ∈ state.garbage ↔ StuckFirst automata
  starts : ∀ letter, Reads state.automaton state.automaton.initialState letter ↔ Starts automata letter
  rows : ∀ (dropped : Prop) (letters : Letter → Prop), (∃ source < state.automaton.nbStates,
      source ∉ state.garbage ∧
        ¬ (dropped ∧ state.loopOnInitial = false ∧ source = state.automaton.initialState) ∧
          ∀ letter, letters letter ↔ Reads state.automaton source letter) ↔
    RowOf dropped automata letters
  letters : ∀ source, ∀ entry ∈ state.automaton.outgoing source, ∃ automaton ∈ automata,
    ∃ old, Reads automaton old entry.1

theorem not_entered_epsilon (state : Nat) : ¬ Entered epsilon state := by
  rintro ⟨source, letter, step⟩
  rw [outgoing_epsilon] at step
  exact absurd step not_mem_nil

theorem chained_nil :
    Chained [] { automaton := epsilon, garbage := ∅, loopOnInitial := false } := by
  have silent : ∀ state letter, ¬ Reads epsilon state letter := by
    rintro state letter ⟨target, step⟩
    rw [outgoing_epsilon] at step
    exact absurd step not_mem_nil
  constructor
  · exact epsilon_in_range
  · exact epsilon_language
  · exact fun _ => not_entered_epsilon _
  · exact fun dead mem => absurd mem (Finset.notMem_empty dead)
  · exact iff_of_false (Finset.notMem_empty _) id
  · exact fun letter => iff_of_false (silent _ letter) id
  · intro dropped letters
    constructor
    · rintro ⟨source, below, -, kept, row⟩
      have zero : source = 0 := Nat.lt_one_iff.mp below
      exact ⟨fun drops => kept ⟨drops, rfl, zero⟩, fun letter read => silent _ letter ((row letter).mp read)⟩
    · rintro ⟨stays, none⟩
      exact ⟨0, Nat.zero_lt_one, Finset.notMem_empty 0, fun both => stays both.1, fun letter =>
        iff_of_false (none letter) (silent 0 letter)⟩
  · intro source entry step
    have silentRow : epsilon.outgoing source = [] := outgoing_epsilon source
    dsimp only at step
    rw [silentRow] at step
    exact absurd step not_mem_nil

section Steps

variable {state next : Concatenation}

/-- The transitions after a step come from one of the automata. -/
theorem Plugged.entries (plugged : Plugged state automaton next) {source : Nat} {entry : Letter × Nat}
    (step : entry ∈ next.automaton.outgoing source) :
    (source < state.automaton.nbStates ∧ entry ∈ state.automaton.outgoing source) ∨
      ∃ old, old + state.automaton.nbStates = source ∧
        ((∃ onward, (entry.1, onward) ∈ automaton.outgoing old ∧
          ((¬ (Ends automaton ∧ onward ∈ automaton.finalStates) ∧
              onward + state.automaton.nbStates = entry.2) ∨
            ((Ends automaton ∧ onward ∈ automaton.finalStates) ∧
              state.automaton.initialState = entry.2))) ∨
        (¬ Ends automaton ∧ old ∈ automaton.finalStates ∧
          entry ∈ state.automaton.outgoing state.automaton.initialState)) := by
  rcases Nat.lt_or_ge source state.automaton.nbStates with below | above
  · rw [plugged.old.rows source below] at step
    exact Or.inl ⟨below, step⟩
  · rw [← Nat.sub_add_cancel above] at step
    exact Or.inr ⟨_, Nat.sub_add_cancel above, (plugged.step _ entry.2 entry.1).mp step⟩

theorem Plugged.range (plugged : Plugged state automaton next) (range : InRange state.automaton)
    (inRange : InRange automaton) : InRange next.automaton := by
  constructor
  · rw [plugged.states, plugged.initial]
    have below := inRange.initial
    omega
  · intro final mem
    rw [plugged.states]
    rcases Nat.lt_or_ge final state.automaton.nbStates with below | above
    · exact Nat.lt_add_right _ below
    · rw [← Nat.sub_add_cancel above] at mem
      have below := inRange.finals _ ((plugged.finals _).mp mem).2.1
      omega
  · intro source entry step
    rw [plugged.states]
    rcases plugged.entries step with ⟨-, before⟩ | ⟨old, -, fresh | ⟨-, -, copied⟩⟩
    · exact Nat.lt_add_right _ (range.targets source entry before)
    · rcases fresh with ⟨onward, taken, ⟨-, same⟩ | ⟨-, same⟩⟩
      · have below := inRange.targets old _ taken
        dsimp only at below
        omega
      · rw [← same]
        exact Nat.lt_add_right _ range.initial
    · exact Nat.lt_add_right _ (range.targets _ entry copied)

theorem Plugged.reads (plugged : Plugged state automaton next) (source : Nat) (letter : Letter) :
    Reads next.automaton (source + state.automaton.nbStates) letter ↔ Reads automaton source letter ∨
      (¬ Ends automaton ∧ source ∈ automaton.finalStates ∧
        Reads state.automaton state.automaton.initialState letter) := by
  constructor
  · rintro ⟨target, step⟩
    rcases (plugged.step source target letter).mp step with ⟨onward, taken, -⟩ | ⟨continues, final, first⟩
    · exact Or.inl ⟨onward, taken⟩
    · exact Or.inr ⟨continues, final, target, first⟩
  · rintro (⟨onward, taken⟩ | ⟨continues, final, target, first⟩)
    · by_cases redirects : Ends automaton ∧ onward ∈ automaton.finalStates
      · exact ⟨_, (plugged.step source _ letter).mpr (Or.inl ⟨onward, taken, Or.inr ⟨redirects, rfl⟩⟩)⟩
      · exact ⟨_, (plugged.step source _ letter).mpr (Or.inl ⟨onward, taken, Or.inl ⟨redirects, rfl⟩⟩)⟩
    · exact ⟨target, (plugged.step source target letter).mpr (Or.inr ⟨continues, final, first⟩)⟩

theorem Plugged.language (plugged : Plugged state automaton next) (range : InRange state.automaton) :
    next.automaton.language = automaton.effective * state.automaton.language := by
  have later : acceptsAt next.automaton.nfa state.automaton.initialState = state.automaton.language :=
    plugged.old.accepts range range.initial
  rw [language_eq, plugged.initial, ← later]
  by_cases ends_ : Ends automaton
  · have redirected : Redirected automaton.nfa next.automaton.nfa
        (fun source => source + state.automaton.nbStates) state.automaton.initialState := by
      constructor
      · intro source final letter
        apply Set.eq_empty_of_forall_notMem
        intro target step
        rw [mem_step, ends_ source final] at step
        exact absurd step not_mem_nil
      · intro source final
        exact ((plugged.finals source).mp final).1 ends_
      · intro source letter target
        rw [mem_step, plugged.step]
        constructor
        · rintro (⟨onward, taken, either⟩ | ⟨continues, -⟩)
          · refine ⟨onward, taken, either.imp ?_ ?_⟩
            · exact fun both => ⟨fun final => both.1 ⟨ends_, final⟩, both.2⟩
            · exact fun both => ⟨both.1.2, both.2⟩
          · exact absurd ends_ continues
        · rintro ⟨onward, taken, either⟩
          refine Or.inl ⟨onward, taken, either.imp ?_ ?_⟩
          · exact fun both => ⟨fun redirects => both.1 redirects.2, both.2⟩
          · exact fun both => ⟨⟨ends_, both.1⟩, both.2⟩
    by_cases final : automaton.initialState ∈ automaton.finalStates
    · rw [effective_of_degenerate ⟨ends_, final⟩, zero_mul]
      exact redirected.accepting_rejects final
    · rw [effective_of_proper fun degenerate => final degenerate.2]
      exact redirected.language final
  · have copied : Copied automaton.nfa next.automaton.nfa
        (fun source => source + state.automaton.nbStates) state.automaton.initialState := by
      constructor
      · intro source
        rw [mem_accept, plugged.finals]
        constructor
        · rintro ⟨-, final, accepts⟩
          exact ⟨final, (plugged.old.finals _ range.initial).mpr accepts⟩
        · rintro ⟨final, accepts⟩
          exact ⟨ends_, final, (plugged.old.finals _ range.initial).mp accepts⟩
      · intro source letter target
        rw [mem_step, mem_step, plugged.step, plugged.old.rows _ range.initial]
        apply or_congr
        · constructor
          · rintro ⟨onward, taken, ⟨-, same⟩ | ⟨redirects, -⟩⟩
            · exact ⟨onward, taken, same⟩
            · exact absurd redirects.1 ends_
          · rintro ⟨onward, taken, same⟩
            exact ⟨onward, taken, Or.inl ⟨fun redirects => ends_ redirects.1, same⟩⟩
        · exact ⟨fun all => ⟨all.2.1, all.2.2⟩, fun both => ⟨ends_, both⟩⟩
    rw [effective_of_proper fun degenerate => ends_ degenerate.1]
    exact copied.language automaton.initialState

theorem Chained.step (chained : Chained automata state) (inRange : InRange automaton)
    (plugged : Plugged state automaton next) : Chained (automaton :: automata) next := by
  have range := chained.range
  -- no step leads back to a state that is not the current initial one
  have entered : ∀ target, target < state.automaton.nbStates → Entered next.automaton target →
      Entered state.automaton target ∨ (Ends automaton ∧ target = state.automaton.initialState) := by
    rintro target below ⟨source, letter, step⟩
    rcases plugged.entries step with ⟨-, before⟩ | ⟨old, -, ⟨onward, taken, either⟩ | ⟨-, -, copied⟩⟩
    · exact Or.inl ⟨source, letter, before⟩
    · rcases either with ⟨-, same⟩ | ⟨redirects, same⟩
      · dsimp only at same
        omega
      · exact Or.inr ⟨redirects.1, same.symm⟩
    · exact Or.inl ⟨_, letter, copied⟩
  have freshEntered : ∀ target, Entered next.automaton (target + state.automaton.nbStates) →
      Entered automaton target ∧ ¬ (Ends automaton ∧ target ∈ automaton.finalStates) := by
    rintro target ⟨source, letter, step⟩
    rcases plugged.entries step with ⟨-, before⟩ | ⟨old, -, ⟨onward, taken, either⟩ | ⟨-, -, copied⟩⟩
    · have below := range.targets source _ before
      dsimp only at below
      omega
    · rcases either with ⟨stays, same⟩ | ⟨-, same⟩
      · rw [Nat.add_right_cancel same] at taken stays
        exact ⟨⟨old, letter, taken⟩, stays⟩
      · have below := range.initial
        dsimp only at same
        omega
    · have below := range.targets _ _ copied
      dsimp only at below
      omega
  have loops : next.loopOnInitial = false ↔ ¬ Entered automaton automaton.initialState := by
    rw [← Bool.not_eq_true, plugged.loop]
  constructor
  · exact plugged.range range inRange
  · rw [plugged.language range, chained.language, map_cons, prod_cons]
  · intro unlooped
    rw [plugged.initial]
    exact fun some_ => loops.mp unlooped (freshEntered _ some_).1
  · intro dead mem
    rw [plugged.states]
    rcases (plugged.garbage dead).mp mem with before | ⟨source, rfl, ends_, final, some_⟩ |
      ⟨continues, unlooped, rfl⟩
    · rcases chained.garbage dead before with ⟨below, ⟨silent, other, otherIn, stuck⟩ | ⟨apart, lonely⟩⟩
      · refine ⟨Nat.lt_add_right _ below, Or.inl ⟨⟨?_, ?_⟩, other, mem_cons_of_mem _ otherIn, stuck⟩⟩
        · rw [plugged.old.rows dead below]
          exact silent.1
        · rw [plugged.old.finals dead below]
          exact silent.2
      · refine ⟨Nat.lt_add_right _ below, Or.inr ⟨?_, fun some_ => ?_⟩⟩
        · rw [plugged.initial]
          omega
        · exact (entered dead below some_).elim lonely fun both => apart both.2
    · have below := inRange.finals source final
      refine ⟨by omega, ?_⟩
      by_cases first : source = automaton.initialState
      · left
        refine ⟨⟨?_, ?_⟩, automaton, mem_cons_self, ?_⟩
        · apply eq_nil_iff_forall_not_mem.mpr
          rintro ⟨letter, target⟩ step
          rcases (plugged.step source target letter).mp step with ⟨onward, taken, -⟩ | ⟨continues, -⟩
          · rw [ends_ source final] at taken
            exact absurd taken not_mem_nil
          · exact continues ends_
        · exact fun accepts => ((plugged.finals source).mp accepts).1 ends_
        · rw [first] at final some_
          exact ⟨⟨ends_, final⟩, some_⟩
      · right
        refine ⟨?_, fun entered_ => (freshEntered source entered_).2 ⟨ends_, final⟩⟩
        rw [plugged.initial]
        omega
    · refine ⟨Nat.lt_add_right _ range.initial, Or.inr ⟨?_, fun some_ => ?_⟩⟩
      · rw [plugged.initial]
        have below := range.initial
        omega
      · exact (entered _ range.initial some_).elim (chained.unentered unlooped)
          fun both => continues both.1
  · rw [plugged.garbage, plugged.initial]
    constructor
    · rintro (before | ⟨source, same, ends_, final, some_⟩ | ⟨-, -, same⟩)
      · have below := (chained.garbage _ before).1
        omega
      · rw [Nat.add_right_cancel same] at final some_
        exact ⟨⟨ends_, final⟩, some_⟩
      · have below := range.initial
        omega
    · rintro ⟨⟨ends_, final⟩, some_⟩
      exact Or.inr (Or.inl ⟨automaton.initialState, rfl, ends_, final, some_⟩)
  · intro letter
    rw [plugged.initial, plugged.reads, chained.starts]
    rfl
  · intro dropped letters
    rw [RowOf, ← chained.rows]
    constructor
    · rintro ⟨source, below, kept, stays, row⟩
      rcases Nat.lt_or_ge source state.automaton.nbStates with old | fresh
      · right
        refine ⟨source, old, ?_, ?_, fun letter => ?_⟩
        · exact fun mem => kept ((plugged.garbage source).mpr (Or.inl mem))
        · rintro ⟨continues, unlooped, rfl⟩
          exact kept ((plugged.garbage _).mpr (Or.inr (Or.inr ⟨continues, unlooped, rfl⟩)))
        · rw [row letter]
          unfold Reads
          rw [plugged.old.rows source old]
      · left
        have split := Nat.sub_add_cancel fresh
        generalize source - state.automaton.nbStates = old at split
        subst split
        refine ⟨old, ?_, ?_, ?_, fun letter => ?_⟩
        · rw [plugged.states] at below
          omega
        · rintro ⟨ends_, final, some_⟩
          exact kept ((plugged.garbage _).mpr (Or.inr (Or.inl ⟨old, rfl, ends_, final, some_⟩)))
        · rintro ⟨drops, unlooped, rfl⟩
          exact stays ⟨drops, loops.mpr unlooped, plugged.initial.symm⟩
        · rw [row letter, plugged.reads, chained.starts]
    · rintro (⟨old, below, kept, stays, row⟩ | ⟨source, below, kept, stays, row⟩)
      · refine ⟨old + state.automaton.nbStates, ?_, ?_, ?_, fun letter => ?_⟩
        · rw [plugged.states]
          omega
        · intro mem
          rcases (plugged.garbage _).mp mem with before | ⟨source, same, ends_, final, some_⟩ |
            ⟨-, -, same⟩
          · have inside := (chained.garbage _ before).1
            omega
          · rw [Nat.add_right_cancel same] at final some_
            exact kept ⟨ends_, final, some_⟩
          · have inside := range.initial
            omega
        · rintro ⟨drops, unlooped, same⟩
          rw [plugged.initial] at same
          exact stays ⟨drops, loops.mp unlooped, Nat.add_right_cancel same⟩
        · rw [row letter, plugged.reads, chained.starts]
      · refine ⟨source, ?_, ?_, ?_, fun letter => ?_⟩
        · rw [plugged.states]
          exact Nat.lt_add_right _ below
        · intro mem
          rcases (plugged.garbage _).mp mem with before | ⟨old, same, -⟩ | ⟨continues, unlooped, same⟩
          · exact kept before
          · omega
          · exact stays ⟨continues, unlooped, same.symm⟩
        · rintro ⟨-, -, same⟩
          rw [plugged.initial] at same
          omega
        · rw [row letter]
          unfold Reads
          rw [plugged.old.rows source below]
  · intro source entry step
    rcases plugged.entries step with ⟨-, before⟩ | ⟨old, -, ⟨onward, taken, -⟩ | ⟨-, -, copied⟩⟩
    · rcases chained.letters source entry before with ⟨other, otherIn, read⟩
      exact ⟨other, mem_cons_of_mem _ otherIn, read⟩
    · exact ⟨automaton, mem_cons_self, old, onward, taken⟩
    · rcases chained.letters _ entry copied with ⟨other, otherIn, read⟩
      exact ⟨other, mem_cons_of_mem _ otherIn, read⟩

end Steps

theorem chained_fold (inRange : ∀ automaton ∈ automata, InRange automaton) :
    ∃ state, automata.reverse.foldlM concatStep
      { automaton := epsilon, garbage := ∅, loopOnInitial := false } = some state ∧
        Chained automata state := by
  induction automata with
  | nil => exact ⟨_, rfl, chained_nil⟩
  | cons automaton automata ih =>
    rcases ih (forall_mem_cons.mp inRange).2 with
      ⟨state, run, chained⟩
    have here := inRange automaton mem_cons_self
    rcases concat_step_plugs chained.range here with ⟨next, stepIs, plugged⟩
    refine ⟨next, ?_, chained.step here plugged⟩
    rw [reverse_cons, foldlM_append, run]
    simp only [some_bind, foldlM_cons, stepIs, foldlM_nil, Option.pure_def]

/-! ### Removing the garbage -/

structure Concatenated (automata : List RawAutomaton) (result : RawAutomaton) : Prop where
  range : InRange result
  language : result.language = (automata.map effective).prod
  deterministic : result.deterministic = true → IsDeterministic result
  complete : result.complete = automata.all fun automaton => automaton.complete
  rows : (∀ automaton ∈ automata, ¬ Stuck automaton) → ∀ letters : Letter → Prop,
    (∃ state < result.nbStates, ∀ letter, letters letter ↔ Reads result state letter) ↔
      RowOf False automata letters
  letters : ∀ state, ∀ entry ∈ result.outgoing state, ∃ automaton ∈ automata,
    ∃ old, Reads automaton old entry.1
  marked : Marked result

theorem concat_stuck (inRange : ∀ automaton ∈ automata, InRange automaton)
    (stuck : StuckFirst automata) : concat automata = none := by
  rcases chained_fold inRange with ⟨state, run, chained⟩
  have dropped : rename ((List.range state.automaton.nbStates).filter fun source =>
      source ∉ state.garbage) state.automaton.initialState = none := by
    cases renamed : rename ((List.range state.automaton.nbStates).filter fun source =>
      source ∉ state.garbage) state.automaton.initialState with
    | none => rfl
    | some image =>
      have mem := (rename_eq_some.mp renamed).1
      rw [mem_filter, decide_eq_true_iff] at mem
      exact absurd (chained.initial.mpr stuck) mem.2
  unfold concat
  simp only [bind_eq_bind, run, bind_some, dropped, Option.bind_none]
  cases filterMapTransitions state.automaton.transitions (rename ((List.range
    state.automaton.nbStates).filter fun source => source ∉ state.garbage)) _ 0 with
  | none => rfl
  | some pair => rfl

theorem concat_concatenates (inRange : ∀ automaton ∈ automata, InRange automaton)
    (proper : ¬ StuckFirst automata) :
    ∃ result, concat automata = some result ∧ Concatenated automata result := by
  rcases chained_fold inRange with ⟨state, run, chained⟩
  generalize keptIs : (List.range state.automaton.nbStates).filter (fun source =>
    source ∉ state.garbage) = kept
  have mem : ∀ source, source ∈ kept ↔ source < state.automaton.nbStates ∧ source ∉ state.garbage := by
    intro source
    rw [← keptIs, mem_filter, mem_range, decide_eq_true_iff]
  have distinct : kept.Nodup := by
    rw [← keptIs]
    exact nodup_range.filter _
  have initialIs : rename kept state.automaton.initialState =
      some (kept.idxOf state.automaton.initialState) := by
    apply rename_of_mem
    rw [mem, chained.initial]
    exact ⟨chained.range.initial, proper⟩
  rcases @filter_map_some state.automaton.transitions (rename kept) kept.length 0
    (fun source image renamed _ => ⟨Nat.zero_le _, rename_lt renamed⟩) with
    ⟨transitions, markers, updatedIs⟩
  unfold concat
  simp only [bind_eq_bind, run, bind_some, keptIs, updatedIs, initialIs, Option.pure_def]
  refine ⟨_, rfl, ?_⟩
  generalize rawIs : RawAutomaton.mk false (automata.all fun automaton => automaton.complete)
    (kept.idxOf state.automaton.initialState) (renameAll kept state.automaton.finalStates) transitions
      markers = raw
  have keeps : Keeps state.automaton kept raw := by
    rw [← rawIs]
    exact ⟨updated_of_filter_map updatedIs, rfl⟩
  have initialAt : raw.initialState = kept.idxOf state.automaton.initialState := by rw [← rawIs]
  constructor
  · apply check_range
    apply keeps.in_range
    rw [initialAt]
    exact rename_lt initialIs
  · rw [check_language, ← chained.language, language_eq, language_eq, initialAt]
    apply keeps.language_at _ initialIs
    intro source member letter target step useful
    rw [mem]
    refine ⟨chained.range.targets source _ step, fun dead => ?_⟩
    rcases (chained.garbage target dead).2 with ⟨silent, -⟩ | ⟨-, lonely⟩
    · exact silent.rejects useful.choose_spec
    · exact lonely ⟨source, letter, step⟩
  · apply check_deterministic
    intro flag
    rw [← rawIs] at flag
    cases flag
  · rw [← rawIs]
    rfl
  · intro unstuck letters
    rw [← chained.rows]
    have reads : ∀ source image, rename kept source = some image → ∀ letter,
        Reads raw image letter ↔ Reads state.automaton source letter := by
      intro source image renamed letter
      constructor
      · rintro ⟨target, step⟩
        rcases keeps.step.mp step with ⟨old, oldTarget, oldStep, same, -⟩
        rw [rename_separates source old image renamed same]
        exact ⟨oldTarget, oldStep⟩
      · rintro ⟨oldTarget, oldStep⟩
        have targetIn : oldTarget ∈ kept := by
          rw [mem]
          refine ⟨chained.range.targets source _ oldStep, fun dead => ?_⟩
          rcases (chained.garbage oldTarget dead).2 with ⟨-, other, otherIn, stuck⟩ | ⟨-, lonely⟩
          · exact unstuck other otherIn stuck
          · exact lonely ⟨source, letter, oldStep⟩
        exact ⟨_, keeps.step.mpr ⟨source, oldTarget, oldStep, renamed, rename_of_mem targetIn⟩⟩
    constructor
    · rintro ⟨image, below, row⟩
      have inside : image < kept.length := by
        rw [← keeps.nb_states]
        exact below
      have renamed := exists_kept distinct inside
      have member := (mem _).mp (getElem_mem inside)
      exact ⟨_, member.1, member.2, fun none => none.1, fun letter =>
        (row letter).trans (reads _ image renamed letter)⟩
    · rintro ⟨source, below, alive, -, row⟩
      have renamed := rename_of_mem ((mem source).mpr ⟨below, alive⟩)
      have count : raw.checkDeterminism.nbStates = kept.length := keeps.nb_states
      refine ⟨kept.idxOf source, ?_, fun letter => (row letter).trans (reads _ _ renamed letter).symm⟩
      rw [count]
      exact rename_lt renamed
  · rintro image ⟨letter, target⟩ step
    rcases keeps.step.mp step with ⟨old, oldTarget, oldStep, -, -⟩
    exact chained.letters old (letter, oldTarget) oldStep
  · rintro marker ⟨image, entry, step, same⟩
    exact keeps.markers.mpr ⟨image, entry, step, same⟩

/-! ### The flags -/

/-- Every state that is kept reads every byte with every marker that one of them reads. -/
def CompleteRows (alphabetSize : Nat) (automata : List RawAutomaton) : Prop :=
  ∀ letters, RowOf False automata letters → ∀ letter : Letter, letter.char.toNat < alphabetSize →
    (∃ others, RowOf False automata others ∧ ∃ other, others other ∧ other.marker = letter.marker) →
      letters letter

theorem Concatenated.complete_iff {result : RawAutomaton} (concatenated : Concatenated automata result)
    (unstuck : ∀ automaton ∈ automata, ¬ Stuck automaton) :
    IsComplete alphabetSize result ↔ CompleteRows alphabetSize automata := by
  have rows := concatenated.rows unstuck
  constructor
  · intro complete letters row letter byte some_
    rcases some_ with ⟨others, otherRow, other, read, same⟩
    rcases (rows letters).mpr row with ⟨state, below, reads⟩
    rcases (rows others).mpr otherRow with ⟨source, -, otherReads⟩
    rw [reads]
    rcases (otherReads other).mp read with ⟨target, step⟩
    exact complete state below letter ⟨byte, source, _, step, same⟩
  · rintro complete state below letter ⟨byte, source, ⟨other, target⟩, step, same⟩
    have row := (rows (Reads result state)).mp ⟨state, below, fun _ => Iff.rfl⟩
    have otherRow := (rows (Reads result source)).mp ⟨source, lt_of_outgoing step, fun _ => Iff.rfl⟩
    exact complete _ row letter byte ⟨_, otherRow, other, ⟨target, step⟩, same⟩

theorem Sound.unstuck (sound : Sound alphabetSize automaton) (complete : automaton.complete = true) :
    ¬ Stuck automaton := by
  rintro ⟨⟨ends_, final⟩, source, letter, step⟩
  rcases sound.complete complete _ sound.initial letter
    ⟨sound.bytes source _ step, source, _, step, rfl⟩ with ⟨target, again⟩
  rw [ends_ _ final] at again
  exact absurd again not_mem_nil

/-! ### The product of the languages -/

theorem product_zero {languages : List (Language Letter)} :
    languages.prod = 0 ↔ (0 : Language Letter) ∈ languages := by
  induction languages with
  | nil =>
    apply iff_of_false
    · intro none
      have mem : [] ∈ (1 : Language Letter) := (Language.mem_one _).mpr rfl
      rw [prod_nil] at none
      rw [none] at mem
      exact Language.notMem_zero _ mem
    · exact not_mem_nil
  | cons language languages ih =>
    rw [prod_cons, mem_cons, ← ih]
    constructor
    · intro none
      by_contra neither
      push Not at neither
      rcases Set.nonempty_iff_ne_empty.mpr (Ne.symm neither.1) with ⟨first, firstIn⟩
      rcases Set.nonempty_iff_ne_empty.mpr neither.2 with ⟨second, secondIn⟩
      have mem := Language.append_mem_mul firstIn secondIn
      rw [none] at mem
      exact Language.notMem_zero _ mem
    · rintro (none | none)
      · rw [← none, zero_mul]
      · rw [none, mul_zero]

theorem product_effective : (automata.map effective).prod = (automata.map language).prod ↔
    (∀ automaton ∈ automata, ¬ Degenerate automaton) ∨ ∃ automaton ∈ automata, automaton.language = 0 := by
  by_cases proper : ∀ automaton ∈ automata, ¬ Degenerate automaton
  · have same : automata.map effective = automata.map language :=
      map_congr_left fun automaton mem => effective_of_proper (proper automaton mem)
    rw [same]
    exact iff_of_true rfl (Or.inl proper)
  · rw [or_iff_right proper]
    push Not at proper
    rcases proper with ⟨automaton, mem, degenerate⟩
    have none : (automata.map effective).prod = 0 := by
      rw [product_zero, ← effective_of_degenerate degenerate]
      exact mem_map_of_mem mem
    rw [none, eq_comm, product_zero, mem_map]

def Concatenates (alphabetSize : Nat) (automata : List RawAutomaton) : Prop :=
  ∃ result, concat automata = some result ∧ result.language = (automata.map language).prod ∧
    (result.deterministic = true → IsDeterministic result) ∧
      (result.complete = true → IsComplete alphabetSize result)

/-- The concatenation is right unless a lost initial state matters or the flag hides a gap. -/
theorem concatenates_iff (alphabetSize : Nat) (automata : List RawAutomaton)
    (wellFormed : ∀ automaton ∈ automata, WellFormed alphabetSize automaton) :
    Concatenates alphabetSize automata ↔ ¬ StuckFirst automata ∧
      ((∀ automaton ∈ automata, ¬ Degenerate automaton) ∨
        ∃ automaton ∈ automata, automaton.language = 0) ∧
      ((∀ automaton ∈ automata, automaton.complete = true) → CompleteRows alphabetSize automata) := by
  have inRange : ∀ automaton ∈ automata, InRange automaton := fun automaton mem =>
    (wellFormed automaton mem).toInRange
  have unstuck : (∀ automaton ∈ automata, automaton.complete = true) →
      ∀ automaton ∈ automata, ¬ Stuck automaton := fun complete automaton mem =>
    (wellFormed automaton mem).toSound.unstuck (complete automaton mem)
  by_cases stuck : StuckFirst automata
  · apply iff_of_false
    · rintro ⟨result, found, -⟩
      rw [concat_stuck inRange stuck] at found
      cases found
    · exact fun all => all.1 stuck
  · rcases concat_concatenates inRange stuck with ⟨result, found, concatenated⟩
    have flag : result.complete = true ↔ ∀ automaton ∈ automata, automaton.complete = true := by
      rw [concatenated.complete, all_eq_true]
    constructor
    · rintro ⟨other, otherFound, language, -, complete⟩
      rw [found, Option.some.injEq] at otherFound
      rw [← otherFound] at language complete
      refine ⟨stuck, ?_, fun flags => ?_⟩
      · rw [← product_effective, ← concatenated.language]
        exact language
      · exact (concatenated.complete_iff (unstuck flags)).mp (complete (flag.mpr flags))
    · rintro ⟨-, words, rows⟩
      refine ⟨result, found, ?_, concatenated.deterministic, fun complete => ?_⟩
      · rw [concatenated.language]
        exact product_effective.mpr words
      · have flags := flag.mp complete
        exact (concatenated.complete_iff (unstuck flags)).mpr (rows flags)

/-- The words over the only byte of an alphabet, the empty one too. -/
def byteWords : RawAutomaton where
  deterministic := true
  complete := true
  initialState := 0
  finalStates := {0}
  transitions := [[(⟨0, 0⟩, 0)]]
  markers := {0}

/-- Words, and then a byte. -/
theorem concatenates_words :
    (∀ automaton ∈ [byteWords, byteConcat [[⟨0, 1⟩]] 1], WellFormed 1 automaton) ∧
      Concatenates 1 [byteWords, byteConcat [[⟨0, 1⟩]] 1] := by
  have step : ∀ state, ∀ entry ∈ byteWords.outgoing state, state = 0 ∧ entry = (⟨0, 0⟩, 0) := by
    rintro (_ | state) entry mem
    · exact ⟨rfl, mem_singleton.mp mem⟩
    · cases mem
  have words : WellFormed 1 byteWords := by
    refine ⟨⟨⟨by decide, by decide, fun state entry mem => ?_⟩, fun state entry mem => ?_, fun _ state => ?_,
      fun _ state below letter reads => ⟨0, ?_⟩⟩, ?_⟩
    · rw [(step state entry mem).2]
      decide
    · rw [(step state entry mem).2]
      decide
    · rcases state with _ | state
      · exact nodup_singleton _
      · exact nodup_nil
    · rcases reads with ⟨small, source, entry, mem, same⟩
      rw [(step source entry mem).2] at same
      have char : letter.char = 0 := UInt8.toNat_inj.mp (Nat.lt_one_iff.mp small)
      cases Nat.lt_one_iff.mp below
      cases letter
      cases same
      cases char
      exact mem_cons_self
    · rintro marker ⟨state, entry, mem, rfl⟩
      rw [(step state entry mem).2]
      decide
  have byte : WellFormed 1 (byteConcat [[⟨0, 1⟩]] 1) := by
    refine ⟨byte_concat_sound.mpr fun byteRange mem => ?_, byte_concat_marked⟩
    rw [mem_singleton.mp mem]
    decide
  have all : ∀ automaton ∈ [byteWords, byteConcat [[⟨0, 1⟩]] 1], WellFormed 1 automaton := by
    rw [forall_mem_cons, forall_mem_singleton]
    exact ⟨words, byte⟩
  refine ⟨all, (concatenates_iff 1 _ all).mpr ⟨?_, Or.inl ?_, fun flags => ?_⟩⟩
  · rintro ⟨⟨ends, -⟩, -⟩
    cases ends 0 (by decide)
  · rw [forall_mem_cons, forall_mem_singleton]
    refine ⟨fun degenerate => ?_, fun degenerate => ?_⟩
    · cases degenerate.1 0 (by decide)
    · exact absurd degenerate.2 (by decide)
  · cases flags _ (mem_cons_of_mem _ mem_cons_self)

/-- The empty word alone: the result accepts nothing. -/
theorem epsilon_not_concatenated :
    (∀ automaton ∈ [epsilon], WellFormed 256 automaton) ∧ ¬ Concatenates 256 [epsilon] := by
  constructor
  · intro automaton mem
    rw [mem_singleton.mp mem]
    refine ⟨⟨epsilon_in_range, ?_, fun _ => ?_, nofun⟩, ?_⟩
    · intro state entry step
      rw [outgoing_epsilon] at step
      exact absurd step not_mem_nil
    · intro state
      rw [outgoing_epsilon]
      exact nodup_nil
    · rintro marker ⟨state, entry, step, -⟩
      rw [outgoing_epsilon] at step
      exact absurd step not_mem_nil
  · rintro ⟨result, found, language, -⟩
    have run : concat [epsilon] = some { epsilon with initialState := 1, transitions := [[], []] } := by
      decide
    rw [run, Option.some.injEq] at found
    have mem : [] ∈ ([epsilon].map RawAutomaton.language).prod := by
      rw [map_singleton, prod_singleton, epsilon_language]
      exact (Language.mem_one _).mpr rfl
    rw [← language, ← found, language_eq, nil_at] at mem
    exact absurd (Finset.mem_singleton.mp mem) Nat.one_ne_zero

end Midfall.RawAutomata.RawAutomaton
