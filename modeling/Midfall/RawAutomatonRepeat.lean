import Midfall.RawAutomatonPowerset

/-!
# Iteration

Repetition copies the first transitions to the final states. When nothing
follows a final state and nothing leads back to the initial one, the final
states are merged into the initial state instead; a count that takes the initial
state for a removed one is off when the initial state is final.
-/

namespace Midfall.RawAutomata.RawAutomaton

open AutomatonLanguages List
open Computability

variable {order : HashOrder} {automaton : RawAutomaton} {alphabetSize : Nat}

/-! ### Tests on the graph -/

theorem loop_on_initial_iff : automaton.loopOnInitial = true ↔
    ∃ source letter, (letter, automaton.initialState) ∈ automaton.outgoing source := by
  unfold loopOnInitial
  rw [any_eq_true]
  constructor
  · rintro ⟨succ, mem, some_⟩
    rw [any_eq_true] at some_
    rcases some_ with ⟨entry, inside, same⟩
    rw [decide_eq_true_iff] at same
    rcases exists_source mem with ⟨source, -, rfl⟩
    refine ⟨source, entry.1, ?_⟩
    rw [← same]
    exact inside
  · rintro ⟨source, letter, step⟩
    refine ⟨_, outgoing_mem (lt_of_outgoing step), ?_⟩
    rw [any_eq_true]
    exact ⟨_, step, decide_eq_true rfl⟩

theorem nothing_after_final_iff (finals : ∀ state ∈ automaton.finalStates, state < automaton.nbStates) :
    ∃ answer, automaton.nothingAfterFinal = some answer ∧
      (answer = true ↔ ∀ state ∈ automaton.finalStates, automaton.outgoing state = []) := by
  unfold nothingAfterFinal
  rw [if_pos finals]
  refine ⟨_, rfl, ?_⟩
  rw [decide_eq_true_iff]
  refine forall₂_congr fun state mem => ?_
  rw [lookup_of_lt (finals state mem), Option.some.injEq]

theorem check_outgoing (state : Nat) : automaton.checkDeterminism.outgoing state =
    automaton.outgoing state := rfl

theorem check_language : automaton.checkDeterminism.language = automaton.language := rfl

theorem deterministic_iff : (automaton.transitions.all fun succ => decide (succ.map Prod.fst).Nodup) =
    true ↔ IsDeterministic automaton := by
  rw [all_eq_true]
  constructor
  · intro all state
    by_cases inside : state < automaton.nbStates
    · exact of_decide_eq_true (all _ (outgoing_mem inside))
    · rw [outgoing_out_of_range (not_lt.mp inside)]
      exact nodup_nil
  · intro deterministic succ mem
    rcases exists_source mem with ⟨state, -, rfl⟩
    exact decide_eq_true (deterministic state)

theorem check_deterministic (truthful : automaton.deterministic = true → IsDeterministic automaton) :
    automaton.checkDeterminism.deterministic = true → IsDeterministic automaton.checkDeterminism := by
  intro flag
  have either : (automaton.deterministic || automaton.transitions.all fun succ =>
    decide (succ.map Prod.fst).Nodup) = true := flag
  rw [Bool.or_eq_true] at either
  exact either.elim truthful deterministic_iff.mp

theorem check_range (inRange : InRange automaton) : InRange automaton.checkDeterminism :=
  ⟨inRange.initial, inRange.finals, inRange.targets⟩

/-! ### Repetition -/

structure Repeated (automaton result : RawAutomaton) : Prop where
  states : result.nbStates = automaton.nbStates
  initial : result.initialState = automaton.initialState
  finals : result.finalStates = automaton.finalStates
  markers : result.markers = automaton.markers
  complete : result.complete = automaton.complete
  step : ∀ state entry, entry ∈ result.outgoing state ↔ entry ∈ automaton.outgoing state ∨
    (state ∈ automaton.finalStates ∧ entry ∈ automaton.outgoing automaton.initialState)
  deterministic : result.deterministic = true → IsDeterministic result

theorem strict_repeat_repeats (initial : automaton.initialState < automaton.nbStates)
    (finals : ∀ state ∈ automaton.finalStates, state < automaton.nbStates) :
    ∃ result, automaton.strictRepeat order = some result ∧ Repeated automaton result := by
  unfold strictRepeat
  rw [lookup_of_lt initial]
  simp only [some_bind]
  rw [if_pos finals]
  refine ⟨_, rfl, ?_, rfl, rfl, rfl, rfl, ?_, check_deterministic fun flag => by cases flag⟩
  · unfold nbStates checkDeterminism
    rw [length_map, length_zipIdx]
  · intro state entry
    rw [check_outgoing]
    by_cases inside : state < automaton.nbStates
    · have lookup : (automaton.transitions.zipIdx.map fun entry =>
          if entry.2 ∈ automaton.finalStates then
            order.arrange (entry.1 ++ automaton.outgoing automaton.initialState).dedup
          else entry.1)[state]? = some (if state ∈ automaton.finalStates then
            order.arrange (automaton.outgoing state ++
              automaton.outgoing automaton.initialState).dedup
          else automaton.outgoing state) := by
        rw [getElem?_map, getElem?_zipIdx, lookup_of_lt inside]
        simp only [Option.map_some, Nat.zero_add]
      rw [outgoing_of_lookup lookup]
      split_ifs with final
      · rw [order.mem_arrange, mem_dedup, mem_append]
        exact or_congr_right ⟨fun mem => ⟨final, mem⟩, fun both => both.2⟩
      · exact ⟨Or.inl, fun either => either.elim id fun both => absurd both.1 final⟩
    · have outside : (automaton.transitions.zipIdx.map fun entry =>
          if entry.2 ∈ automaton.finalStates then
            order.arrange (entry.1 ++ automaton.outgoing automaton.initialState).dedup
          else entry.1).length ≤ state := by
        rw [length_map, length_zipIdx]
        exact not_lt.mp inside
      rw [outgoing_out_of_range outside, outgoing_out_of_range (not_lt.mp inside)]
      refine iff_of_false not_mem_nil ?_
      rintro (none | ⟨final, -⟩)
      · exact absurd none not_mem_nil
      · exact inside (finals state final)

variable {result : RawAutomaton} {state : Nat}

theorem strict_repeat_some (found : automaton.strictRepeat order = some result) :
    automaton.initialState < automaton.nbStates ∧
      ∀ state ∈ automaton.finalStates, state < automaton.nbStates := by
  unfold strictRepeat at found
  rcases bind_some_iff.mp found with ⟨outgoing, lookup, rest⟩
  split_ifs at rest with finals
  exact ⟨(List.getElem?_eq_some_iff.mp lookup).1, finals⟩

theorem Repeated.looped (repeated : Repeated automaton result) :
    Looped automaton.nfa result.nfa automaton.initialState where
  accept := by
    unfold nfa
    rw [repeated.finals]
  step := fun state label target => repeated.step state (label, target)

theorem Repeated.language (repeated : Repeated automaton result) :
    result.language = automaton.language * automaton.language∗ := by
  rw [language_eq, language_eq, repeated.initial]
  exact repeated.looped.language automaton.initialState

theorem Repeated.range (repeated : Repeated automaton result) :
    InRange result ↔ InRange automaton := by
  constructor
  · intro inRange
    refine ⟨?_, fun state final => ?_, fun state entry step => ?_⟩
    · rw [← repeated.initial, ← repeated.states]
      exact inRange.initial
    · rw [← repeated.states]
      exact inRange.finals state (by rw [repeated.finals]; exact final)
    · rw [← repeated.states]
      exact inRange.targets state entry ((repeated.step state entry).mpr (Or.inl step))
  · intro inRange
    refine ⟨?_, fun state final => ?_, fun state entry step => ?_⟩
    · rw [repeated.initial, repeated.states]
      exact inRange.initial
    · rw [repeated.states]
      exact inRange.finals state (by rw [← repeated.finals]; exact final)
    · rw [repeated.states]
      rcases (repeated.step state entry).mp step with old | ⟨-, first⟩
      · exact inRange.targets state entry old
      · exact inRange.targets _ entry first

/-! ### The empty word -/

/-- What accepting the empty word as well leaves. -/
structure Optional (automaton result : RawAutomaton) : Prop where
  range : InRange result
  language : result.language = 1 + automaton.language
  letters : ∀ state, ∃ old, (result.outgoing state).map Prod.fst = (automaton.outgoing old).map Prod.fst ∧
    (state < result.nbStates → old < automaton.nbStates)
  uses : ∀ marker, result.Uses marker ↔ automaton.Uses marker
  deterministic : result.deterministic = automaton.deterministic
  complete : result.complete = automaton.complete
  markers : result.markers = automaton.markers

/-- States other than the initial one do not see that it accepts. -/
theorem opened_at {N : NFA Letter Nat} (accept : N.accept = insert automaton.initialState
      automaton.nfa.accept) (step : N.step = automaton.nfa.step)
    (entered : ∀ source letter, (letter, automaton.initialState) ∉ automaton.outgoing source)
    (other : state ≠ automaton.initialState) :
    acceptsAt N state = acceptsAt automaton.nfa state := by
  have related : state = state ∧ state ≠ automaton.initialState := ⟨rfl, other⟩
  refine @languages_agree _ _ _ N automaton.nfa
    (fun first second => first = second ∧ first ≠ automaton.initialState) ?_ ?_ _ _ related
  · constructor
    · rintro first _ ⟨rfl, apart⟩ accepting
      rw [accept, Set.mem_insert_iff] at accepting
      exact accepting.resolve_left apart
    · rintro first _ ⟨rfl, -⟩ letter target inside -
      rw [step] at inside
      refine ⟨target, inside, rfl, ?_⟩
      rintro rfl
      exact entered first letter inside
  · constructor
    · rintro first _ ⟨rfl, -⟩ accepting
      rw [accept]
      exact Set.mem_insert_of_mem _ accepting
    · rintro first second ⟨rfl, -⟩ letter target inside -
      refine ⟨target, by rw [step]; exact inside, rfl, ?_⟩
      rintro rfl
      exact entered second letter inside

theorem make_optional_optional (inRange : InRange automaton) :
    ∃ result, automaton.makeOptional = some result ∧ Optional automaton result := by
  unfold makeOptional
  by_cases final : automaton.initialState ∈ automaton.finalStates
  · rw [if_pos final]
    refine ⟨automaton, rfl, inRange, ?_, fun state => ⟨state, rfl, id⟩, fun marker => Iff.rfl, rfl,
      rfl, rfl⟩
    apply Language.ext
    intro word
    rw [Language.mem_add, Language.mem_one]
    refine ⟨Or.inr, fun either => either.elim ?_ id⟩
    rintro rfl
    exact nil_at.mpr final
  · rw [if_neg final]
    by_cases looping : automaton.loopOnInitial = true
    · rw [if_pos looping, lookup_of_lt inRange.initial]
      refine ⟨_, rfl, ?_⟩
      generalize resultIs : RawAutomaton.mk automaton.deterministic automaton.complete
        automaton.nbStates (insert automaton.nbStates automaton.finalStates)
        (automaton.transitions ++ [automaton.outgoing automaton.initialState]) automaton.markers = result
      have count : result.nbStates = automaton.nbStates + 1 := by
        rw [← resultIs]
        exact length_append
      have old : ∀ state, state < automaton.nbStates → result.outgoing state = automaton.outgoing state := by
        intro state below
        unfold outgoing
        rw [← resultIs, getElem?_append_left below]
      have fresh : result.outgoing automaton.nbStates = automaton.outgoing automaton.initialState := by
        apply outgoing_of_lookup
        rw [← resultIs]
        exact getElem?_concat_length
      have cases_ : ∀ state, ∃ source, result.outgoing state = automaton.outgoing source ∧
          (state < result.nbStates → source < automaton.nbStates) := by
        intro state
        rcases Nat.lt_trichotomy state automaton.nbStates with below | rfl | above
        · exact ⟨state, old state below, fun _ => below⟩
        · exact ⟨automaton.initialState, fresh, fun _ => inRange.initial⟩
        · refine ⟨state, ?_, fun inside => ?_⟩
          · rw [outgoing_out_of_range (le_of_lt above), outgoing_out_of_range (by omega)]
          · omega
      have finals : result.finalStates = insert automaton.nbStates automaton.finalStates := by
        rw [← resultIs]
      have agree : ∀ state, state < automaton.nbStates →
          acceptsAt result.nfa state = acceptsAt automaton.nfa state := by
        intro state below
        have related : state = state ∧ state < automaton.nbStates := ⟨rfl, below⟩
        refine @languages_agree _ _ _ result.nfa automaton.nfa
          (fun first second => first = second ∧ first < automaton.nbStates) ?_ ?_ _ _ related
        · constructor
          · rintro first _ ⟨rfl, inside⟩ accepting
            rw [mem_accept, finals, Finset.mem_insert] at accepting
            exact accepting.resolve_left inside.ne
          · rintro first _ ⟨rfl, inside⟩ letter target step -
            rw [mem_step, old first inside] at step
            exact ⟨target, step, rfl, inRange.targets first _ step⟩
        · constructor
          · rintro first _ ⟨rfl, -⟩ accepting
            rw [mem_accept, finals]
            exact Finset.mem_insert_of_mem accepting
          · rintro first second ⟨rfl, inside⟩ letter target step -
            refine ⟨target, ?_, rfl, inRange.targets second _ step⟩
            rw [mem_step, old second inside]
            exact step
      refine ⟨⟨?_, ?_, ?_⟩, ?_, ?_, ?_, by rw [← resultIs], by rw [← resultIs], by rw [← resultIs]⟩
      · rw [count, ← resultIs]
        exact Nat.lt_succ_self _
      · intro state mem
        rw [finals, Finset.mem_insert] at mem
        rw [count]
        rcases mem with rfl | before
        · exact Nat.lt_succ_self _
        · exact Nat.lt_succ_of_lt (inRange.finals state before)
      · intro state entry step
        rcases cases_ state with ⟨source, same, -⟩
        rw [same] at step
        rw [count]
        exact Nat.lt_succ_of_lt (inRange.targets source entry step)
      · have initialIs : result.initialState = automaton.nbStates := by rw [← resultIs]
        rw [language_eq, language_eq, initialIs]
        refine @fresh_language _ _ automaton.nfa result.nfa automaton.initialState
          automaton.nbStates ?_ ?_ ?_
        · rw [mem_accept, finals]
          exact Finset.mem_insert_self _ _
        · intro letter
          ext target
          rw [mem_step, mem_step, fresh]
        · intro target letter step
          exact agree target (inRange.targets _ _ step)
      · intro state
        rcases cases_ state with ⟨source, same, below⟩
        exact ⟨source, by rw [same], below⟩
      · intro marker
        constructor
        · rintro ⟨state, entry, step, same⟩
          rcases cases_ state with ⟨source, outgoingIs, -⟩
          rw [outgoingIs] at step
          exact ⟨source, entry, step, same⟩
        · rintro ⟨state, entry, step, same⟩
          refine ⟨state, entry, ?_, same⟩
          rw [old state (lt_of_outgoing step)]
          exact step
    · rw [if_neg looping]
      have entered : ∀ source letter, (letter, automaton.initialState) ∉ automaton.outgoing source :=
        fun source letter step => looping (loop_on_initial_iff.mpr ⟨source, letter, step⟩)
      refine ⟨_, rfl, ⟨inRange.initial, ?_, inRange.targets⟩, ?_, fun state => ⟨state, rfl, id⟩,
        fun marker => Iff.rfl, rfl, rfl, rfl⟩
      · intro state mem
        rcases Finset.mem_insert.mp mem with rfl | before
        · exact inRange.initial
        · exact inRange.finals state before
      · rw [language_eq, language_eq]
        refine @fresh_language _ _ automaton.nfa _ automaton.initialState automaton.initialState
          (Finset.mem_insert_self _ _) (fun _ => rfl) ?_
        intro target letter step
        have other : target ≠ automaton.initialState := by
          rintro rfl
          exact entered _ letter step
        have accept : (nfa { automaton with
            finalStates := insert automaton.initialState automaton.finalStates }).accept =
              insert automaton.initialState automaton.nfa.accept := by
          ext state
          exact Finset.mem_insert
        exact opened_at accept rfl entered other

/-! ### Redirection to the initial state -/

/-- Transitions to a final state go to the initial one, which alone is final. -/
def redirected (automaton : RawAutomaton) : RawAutomaton :=
  { automaton with
    finalStates := {automaton.initialState}
    transitions := automaton.transitions.map fun succ => succ.map fun entry =>
      if entry.2 ∈ automaton.finalStates then (entry.1, automaton.initialState) else entry }

/-- The states other than the final ones, and the initial one. -/
def unmerged (automaton : RawAutomaton) : List Nat :=
  (List.range automaton.nbStates).filter fun source =>
    source ∉ automaton.finalStates ∨ source = automaton.initialState

/-- The final states can be merged into the initial one. -/
def Redirects (automaton : RawAutomaton) : Prop :=
  (∀ state ∈ automaton.finalStates, automaton.outgoing state = []) ∧
    ((∀ source letter, (letter, automaton.initialState) ∉ automaton.outgoing source) ∨
      automaton.initialState ∈ automaton.finalStates)

/-- The last state that is kept is not the initial one and no transition meets it. -/
def HasSpare (automaton : RawAutomaton) : Prop :=
  ∃ spare ∈ automaton.unmerged, automaton.initialState < spare ∧
    (∀ state ∈ automaton.unmerged, state ≤ spare) ∧ automaton.outgoing spare = [] ∧
      ∀ source letter, (letter, spare) ∉ automaton.outgoing source

theorem mem_unmerged : state ∈ automaton.unmerged ↔
    state < automaton.nbStates ∧ (state ∉ automaton.finalStates ∨ state = automaton.initialState) := by
  unfold unmerged
  rw [mem_filter, mem_range, decide_eq_true_iff]

theorem unmerged_sorted : automaton.unmerged.Pairwise (· < ·) := by
  unfold unmerged
  exact pairwise_lt_range.filter _

theorem unmerged_distinct : automaton.unmerged.Nodup := by
  unfold unmerged
  exact nodup_range.filter _

theorem unmerged_length (inRange : InRange automaton) : automaton.unmerged.length =
    if automaton.initialState ∈ automaton.finalStates then
      automaton.nbStates - automaton.finalStates.card + 1
    else automaton.nbStates - automaton.finalStates.card := by
  have inside : automaton.finalStates ⊆ Finset.range automaton.nbStates := fun state final =>
    Finset.mem_range.mpr (inRange.finals state final)
  rw [← toFinset_card_of_nodup unmerged_distinct]
  split_ifs with final
  · have states : automaton.unmerged.toFinset = insert automaton.initialState
        (Finset.range automaton.nbStates \ automaton.finalStates) := by
      ext state
      rw [mem_toFinset, mem_unmerged, Finset.mem_insert, Finset.mem_sdiff, Finset.mem_range]
      constructor
      · rintro ⟨below, other | same⟩
        · exact Or.inr ⟨below, other⟩
        · exact Or.inl same
      · rintro (rfl | ⟨below, other⟩)
        · exact ⟨inRange.initial, Or.inr rfl⟩
        · exact ⟨below, Or.inl other⟩
    rw [states, Finset.card_insert_of_notMem fun mem => (Finset.mem_sdiff.mp mem).2 final,
      Finset.card_sdiff_of_subset inside, Finset.card_range]
  · have states : automaton.unmerged.toFinset =
        Finset.range automaton.nbStates \ automaton.finalStates := by
      ext state
      rw [mem_toFinset, mem_unmerged, Finset.mem_sdiff, Finset.mem_range]
      constructor
      · rintro ⟨below, other | rfl⟩
        · exact ⟨below, other⟩
        · exact ⟨below, final⟩
      · exact fun both => ⟨both.1, Or.inl both.2⟩
    rw [states, Finset.card_sdiff_of_subset inside, Finset.card_range]

theorem redirected_outgoing (state : Nat) : automaton.redirected.outgoing state =
    (automaton.outgoing state).map fun entry =>
      if entry.2 ∈ automaton.finalStates then (entry.1, automaton.initialState) else entry := by
  unfold outgoing redirected
  rw [getElem?_map]
  cases automaton.transitions[state]? with
  | none => rfl
  | some succ => rfl

theorem redirected_letters (state : Nat) : (automaton.redirected.outgoing state).map Prod.fst =
    (automaton.outgoing state).map Prod.fst := by
  rw [redirected_outgoing, map_map]
  apply map_congr_left
  intro entry _
  rw [Function.comp_apply]
  split_ifs <;> rfl

theorem redirected_step {other : Nat} {letter : Letter} :
    (letter, other) ∈ automaton.redirected.outgoing state ↔
      ∃ target, (letter, target) ∈ automaton.outgoing state ∧
        ((target ∉ automaton.finalStates ∧ target = other) ∨
          (target ∈ automaton.finalStates ∧ automaton.initialState = other)) := by
  rw [redirected_outgoing, mem_map]
  constructor
  · rintro ⟨⟨label, target⟩, step, same⟩
    refine ⟨target, ?_⟩
    dsimp only at same
    split_ifs at same with final
    · cases same
      exact ⟨step, Or.inr ⟨final, rfl⟩⟩
    · cases same
      exact ⟨step, Or.inl ⟨final, rfl⟩⟩
  · rintro ⟨target, step, ⟨rejecting, rfl⟩ | ⟨final, rfl⟩⟩
    · exact ⟨_, step, if_neg rejecting⟩
    · exact ⟨_, step, if_pos final⟩

theorem redirected_unmerged (inRange : InRange automaton) (redirects : Redirects automaton)
    {source target : Nat} {letter : Letter}
    (step : (letter, target) ∈ automaton.redirected.outgoing source) :
    source ∈ automaton.unmerged ∧ target ∈ automaton.unmerged := by
  rcases redirected_step.mp step with ⟨old, oldStep, target_⟩
  constructor
  · refine mem_unmerged.mpr ⟨lt_of_outgoing oldStep, Or.inl fun final => ?_⟩
    rw [redirects.1 source final] at oldStep
    exact absurd oldStep not_mem_nil
  · rcases target_ with ⟨rejecting, rfl⟩ | ⟨-, rfl⟩
    · exact mem_unmerged.mpr ⟨inRange.targets source _ oldStep, Or.inl rejecting⟩
    · exact mem_unmerged.mpr ⟨inRange.initial, Or.inr rfl⟩

theorem initial_final_language (redirects : Redirects automaton)
    (final : automaton.initialState ∈ automaton.finalStates) : automaton.language = 1 := by
  apply Language.ext
  intro word
  rw [language_eq, Language.mem_one]
  constructor
  · intro accepted
    cases word with
    | nil => rfl
    | cons letter word =>
      rcases cons_at.mp accepted with ⟨target, step, -⟩
      rw [redirects.1 _ final] at step
      exact absurd step not_mem_nil
  · rintro rfl
    exact nil_at.mpr final

theorem redirected_language (redirects : Redirects automaton) :
    automaton.redirected.language = automaton.language∗ := by
  by_cases final : automaton.initialState ∈ automaton.finalStates
  · rw [initial_final_language redirects final, kstar_one]
    have again : Redirects automaton.redirected := by
      refine ⟨fun state mem => ?_, Or.inr (Finset.mem_singleton_self _)⟩
      rw [Finset.mem_singleton.mp mem, redirected_outgoing, redirects.1 _ final]
      rfl
    exact initial_final_language again (Finset.mem_singleton_self _)
  · have entered := redirects.2.resolve_right final
    have closed : Closed automaton.nfa automaton.redirected.nfa automaton.initialState := by
      refine ⟨fun state accepting letter => ?_, fun state letter => entered state letter, final, ?_,
        fun state letter other => redirected_step⟩
      · apply Set.eq_empty_of_forall_notMem
        intro target step
        rw [mem_step, redirects.1 state accepting] at step
        exact absurd step not_mem_nil
      · ext state
        rw [mem_accept, Set.mem_singleton_iff]
        exact Finset.mem_singleton
    rw [language_eq, language_eq]
    exact closed.language

/-- What merging the final states into the initial one leaves. -/
structure Merged (automaton result : RawAutomaton) : Prop where
  updated : Updated automaton.redirected.transitions (rename automaton.unmerged)
    (automaton.nbStates - automaton.finalStates.card) 0 result.transitions result.markers
  initial : rename automaton.unmerged automaton.initialState = some result.initialState
  finals : result.finalStates = {result.initialState}
  deterministic : result.deterministic = automaton.deterministic
  complete : result.complete = automaton.complete

theorem merged_of_redirect (found : automaton.redirectFinalToInitial = some result) :
    Merged automaton result := by
  unfold redirectFinalToInitial at found
  rcases bind_some_iff.mp found with ⟨initialState, initialIs, rest⟩
  split_ifs at rest with room
  rcases bind_some_iff.mp rest with ⟨⟨transitions, markers⟩, updatedIs, last⟩
  cases last
  exact ⟨updated_of_filter_map updatedIs, initialIs, rfl, rfl, rfl⟩

theorem redirect_some (inRange : InRange automaton)
    (sources : ∀ source letter target, (letter, target) ∈ automaton.redirected.outgoing source →
      ∀ image, rename automaton.unmerged source = some image →
        image < automaton.nbStates - automaton.finalStates.card) :
    ∃ result, automaton.redirectFinalToInitial = some result ∧ Merged automaton result := by
  have initialIs : rename automaton.unmerged automaton.initialState =
      some (automaton.unmerged.idxOf automaton.initialState) :=
    rename_of_mem (mem_unmerged.mpr ⟨inRange.initial, Or.inr rfl⟩)
  have room : automaton.finalStates.card ≤ automaton.nbStates := by
    have inside : automaton.finalStates ⊆ Finset.range automaton.nbStates := fun state final =>
      Finset.mem_range.mpr (inRange.finals state final)
    have bound := Finset.card_le_card inside
    rw [Finset.card_range] at bound
    exact bound
  rcases @filter_map_inside automaton.redirected.transitions (rename automaton.unmerged)
    (automaton.nbStates - automaton.finalStates.card) 0 (by
      rintro ⟨image, letter, target⟩ mem
      rcases mem_updated.mp mem with ⟨source, oldTarget, step, renamed, -⟩
      exact ⟨Nat.zero_le _, sources source letter oldTarget step image renamed⟩)
    with ⟨transitions, markers, updatedIs⟩
  have run : automaton.redirectFinalToInitial = some {
      deterministic := automaton.deterministic
      complete := automaton.complete
      finalStates := {automaton.unmerged.idxOf automaton.initialState}
      initialState := automaton.unmerged.idxOf automaton.initialState
      markers := markers
      transitions := transitions } := by
    unfold redirectFinalToInitial
    refine Option.bind_eq_some_iff.mpr ⟨_, initialIs, ?_⟩
    rw [if_pos room]
    exact Option.bind_eq_some_iff.mpr ⟨_, updatedIs, rfl⟩
  exact ⟨_, run, merged_of_redirect run⟩

section Merging

variable {result : RawAutomaton}

theorem Merged.step (merged : Merged automaton result) {state target : Nat} {letter : Letter} :
    (letter, target) ∈ result.outgoing state ↔ ∃ old oldTarget,
      (letter, oldTarget) ∈ automaton.redirected.outgoing old ∧
        rename automaton.unmerged old = some state ∧
          rename automaton.unmerged oldTarget = some target :=
  merged.updated.mem state letter target

theorem Merged.language (merged : Merged automaton result) (inRange : InRange automaton)
    (redirects : Redirects automaton) : result.language = automaton.language∗ := by
  rw [← redirected_language redirects, language_eq, language_eq]
  refine @languages_agree _ _ _ result.nfa automaton.redirected.nfa
    (fun image state => rename automaton.unmerged state = some image) ?_ ?_ _ _ merged.initial
  · constructor
    · intro image state renamed final
      rw [mem_accept, merged.finals, Finset.mem_singleton] at final
      rw [final] at renamed
      rw [rename_separates state automaton.initialState _ renamed merged.initial]
      exact Finset.mem_singleton_self _
    · intro image state renamed letter target step _
      rcases merged.step.mp step with ⟨old, oldTarget, oldStep, same, targetIs⟩
      rw [← rename_separates state old _ renamed same] at oldStep
      exact ⟨oldTarget, oldStep, targetIs⟩
  · constructor
    · intro state image renamed final
      have initialIs : state = automaton.initialState := Finset.mem_singleton.mp final
      rw [initialIs, merged.initial, Option.some.injEq] at renamed
      rw [mem_accept, merged.finals, renamed]
      exact Finset.mem_singleton_self _
    · intro state image renamed letter target step _
      have kept := redirected_unmerged inRange redirects step
      exact ⟨_, merged.step.mpr ⟨state, target, step, renamed, rename_of_mem kept.2⟩,
        rename_of_mem kept.2⟩

/-- The flag says of the result what it says of the automaton. -/
theorem Merged.distinct (merged : Merged automaton result) (inRange : InRange automaton)
    (redirects : Redirects automaton) : IsDeterministic result ↔ IsDeterministic automaton := by
  have letters : ∀ source, automaton.outgoing source ≠ [] → ∃ image,
      rename automaton.unmerged source = some image ∧
        (result.outgoing image).map Prod.fst = (automaton.outgoing source).map Prod.fst := by
    intro source some_
    have targets : ∀ entry ∈ automaton.redirected.outgoing source, ∃ image,
        rename automaton.unmerged entry.2 = some image := fun entry step =>
      ⟨_, rename_of_mem (redirected_unmerged inRange redirects step).2⟩
    have nonempty : automaton.redirected.outgoing source ≠ [] := by
      rw [redirected_outgoing]
      exact fun none => some_ (map_eq_nil_iff.mp none)
    rcases exists_mem_of_ne_nil _ nonempty with ⟨⟨letter, target⟩, step⟩
    have renamed := rename_of_mem (redirected_unmerged inRange redirects step).1
    rcases targets _ step with ⟨targetImage, targetIs⟩
    have below := (merged.updated.sources source _ renamed nonempty
      ⟨_, step, by rw [targetIs]; rfl⟩).2
    have entries := merged.updated.outgoing rename_separates source _ renamed below
    refine ⟨_, renamed, ?_⟩
    rw [← redirected_letters source]
    refine Eq.trans (congrArg (List.map Prod.fst) entries) ?_
    exact letters_of_renamed targets
  constructor
  · intro distinct source
    by_cases none : automaton.outgoing source = []
    · rw [none]
      exact nodup_nil
    · rcases letters source none with ⟨image, -, same⟩
      rw [← same]
      exact distinct image
  · intro distinct image
    by_cases none : result.outgoing image = []
    · rw [none]
      exact nodup_nil
    · rcases exists_mem_of_ne_nil _ none with ⟨⟨letter, target⟩, step⟩
      rcases merged.step.mp step with ⟨source, oldTarget, oldStep, renamed, -⟩
      have some_ : automaton.outgoing source ≠ [] := by
        intro empty_
        rw [redirected_outgoing, empty_] at oldStep
        exact absurd oldStep not_mem_nil
      rcases letters source some_ with ⟨other, otherIs, same⟩
      rw [renamed, Option.some.injEq] at otherIs
      rw [otherIs, same]
      exact distinct source

theorem Merged.in_range_iff (merged : Merged automaton result) (inRange : InRange automaton)
    (redirects : Redirects automaton) :
    InRange result ↔ ∀ state ∈ automaton.unmerged, ∀ image, rename automaton.unmerged state = some image →
      (state = automaton.initialState ∨
        ∃ source letter, (letter, state) ∈ automaton.redirected.outgoing source) →
          image < automaton.nbStates - automaton.finalStates.card := by
  have count : result.nbStates = automaton.nbStates - automaton.finalStates.card :=
    merged.updated.length
  constructor
  · rintro resultRange state mem image renamed (rfl | ⟨source, letter, step⟩)
    · rw [merged.initial, Option.some.injEq] at renamed
      rw [← renamed, ← count]
      exact resultRange.initial
    · rw [← count]
      have kept := redirected_unmerged inRange redirects step
      exact resultRange.targets _ (letter, image)
        (merged.step.mpr ⟨source, state, step, rename_of_mem kept.1, renamed⟩)
  · intro below
    have initialBelow : result.initialState < result.nbStates := by
      rw [count]
      exact below _ (rename_eq_some.mp merged.initial).1 _ merged.initial (Or.inl rfl)
    refine ⟨initialBelow, fun state final => ?_, ?_⟩
    · rw [merged.finals, Finset.mem_singleton] at final
      rw [final]
      exact initialBelow
    · rintro state ⟨letter, target⟩ step
      rcases merged.step.mp step with ⟨old, oldTarget, oldStep, -, targetIs⟩
      rw [count]
      exact below oldTarget (rename_eq_some.mp targetIs).1 target targetIs (Or.inr ⟨old, letter, oldStep⟩)

end Merging

/-! ### States that the merging needs -/

/-- The initial state and the states that some transition meets. -/
def Needed (automaton : RawAutomaton) (state : Nat) : Prop :=
  state = automaton.initialState ∨
    (∃ source letter, (letter, state) ∈ automaton.redirected.outgoing source) ∨
      automaton.redirected.outgoing state ≠ []

theorem unmerged_max {last : Nat} (mem : last ∈ automaton.unmerged)
    (max : ∀ state ∈ automaton.unmerged, state ≤ last) :
    automaton.unmerged.idxOf last + 1 = automaton.unmerged.length := by
  have position := idxOf_lt_length_of_mem mem
  have at_ := getElem_idxOf position
  by_contra other
  have later : automaton.unmerged.idxOf last < automaton.unmerged.length - 1 := by omega
  have inside : automaton.unmerged.length - 1 < automaton.unmerged.length := by omega
  have above := pairwise_iff_getElem.mp unmerged_sorted _ _ position inside later
  rw [at_] at above
  exact absurd (max _ (getElem_mem inside)) (not_le.mpr above)

/-- The count is one too small when the initial state is final. -/
theorem has_spare_iff (inRange : InRange automaton)
    (final : automaton.initialState ∈ automaton.finalStates) :
    HasSpare automaton ↔ ∀ state ∈ automaton.unmerged, Needed automaton state →
      automaton.unmerged.idxOf state < automaton.nbStates - automaton.finalStates.card := by
  have length := unmerged_length inRange
  rw [if_pos final] at length
  have initialKept : automaton.initialState ∈ automaton.unmerged :=
    mem_unmerged.mpr ⟨inRange.initial, Or.inr rfl⟩
  constructor
  · rintro ⟨spare, mem, later, max, silent, unreached⟩ state stateIn needed
    have position := idxOf_lt_length_of_mem stateIn
    have last := unmerged_max mem max
    have other : state ≠ spare := by
      rintro rfl
      rcases needed with same | ⟨source, letter, step⟩ | some_
      · exact later.ne same.symm
      · rcases redirected_step.mp step with ⟨target, oldStep, ⟨-, rfl⟩ | ⟨-, same⟩⟩
        · exact unreached source letter oldStep
        · exact later.ne same
      · apply some_
        rw [redirected_outgoing, silent]
        rfl
    have apart : automaton.unmerged.idxOf state ≠ automaton.unmerged.idxOf spare := fun same =>
      other ((idxOf_inj stateIn).mp same)
    omega
  · intro below
    have inside : automaton.nbStates - automaton.finalStates.card < automaton.unmerged.length := by
      omega
    generalize spareIs : automaton.unmerged[automaton.nbStates - automaton.finalStates.card] = spare
    have mem : spare ∈ automaton.unmerged := by
      rw [← spareIs]
      exact getElem_mem inside
    have at_ : automaton.unmerged.idxOf spare = automaton.nbStates - automaton.finalStates.card := by
      rw [← spareIs]
      exact unmerged_distinct.idxOf_getElem _ inside
    have useless : ¬ Needed automaton spare := fun needed => by
      have less := below spare mem needed
      omega
    have different : spare ≠ automaton.initialState := fun same => useless (Or.inl same)
    have max : ∀ state ∈ automaton.unmerged, state ≤ spare := by
      intro state stateIn
      have position := idxOf_lt_length_of_mem stateIn
      have spareAt := idxOf_lt_length_of_mem mem
      by_contra above
      have before : automaton.unmerged.idxOf state < automaton.unmerged.idxOf spare := by
        rw [at_]
        refine lt_of_le_of_ne (by omega) fun same => ?_
        rw [← at_] at same
        exact above ((idxOf_inj stateIn).mp same).le
      have order_ := pairwise_iff_getElem.mp unmerged_sorted _ _ position spareAt before
      rw [getElem_idxOf, getElem_idxOf] at order_
      exact above order_.le
    refine ⟨spare, mem, lt_of_le_of_ne (max _ initialKept) (Ne.symm different), max, ?_, ?_⟩
    · by_contra some_
      refine useless (Or.inr (Or.inr ?_))
      rw [redirected_outgoing]
      exact fun none => some_ (map_eq_nil_iff.mp none)
    · intro source letter step
      refine useless (Or.inr (Or.inl ⟨source, letter, redirected_step.mpr ⟨spare, step, Or.inl ⟨?_, rfl⟩⟩⟩))
      exact (mem_unmerged.mp mem).2.resolve_right different

theorem redirect_repeats_iff (inRange : InRange automaton) (redirects : Redirects automaton) :
    (∃ result, automaton.redirectFinalToInitial = some result ∧
      result.language = automaton.language∗ ∧ InRange result ∧
        (result.deterministic = true → IsDeterministic result)) ↔
      (automaton.deterministic = true → IsDeterministic automaton) ∧
        (automaton.initialState ∈ automaton.finalStates → HasSpare automaton) := by
  constructor
  · rintro ⟨result, found, -, resultRange, truthful⟩
    have merged := merged_of_redirect found
    constructor
    · intro flag
      rw [← merged.distinct inRange redirects]
      exact truthful (merged.deterministic.trans flag)
    · intro final
      rw [has_spare_iff inRange final]
      intro state mem needed
      have renamed := rename_of_mem mem
      rcases needed with same | reached | some_
      · exact (merged.in_range_iff inRange redirects).mp resultRange state mem _ renamed (Or.inl same)
      · exact (merged.in_range_iff inRange redirects).mp resultRange state mem _ renamed (Or.inr reached)
      · rcases exists_mem_of_ne_nil _ some_ with ⟨entry, step⟩
        have kept := redirected_unmerged inRange redirects step
        exact (merged.updated.sources state _ renamed some_
          ⟨entry, step, by rw [rename_of_mem kept.2]; rfl⟩).2
  · rintro ⟨truthful, spare⟩
    have below : ∀ state ∈ automaton.unmerged, Needed automaton state →
        automaton.unmerged.idxOf state < automaton.nbStates - automaton.finalStates.card := by
      by_cases final : automaton.initialState ∈ automaton.finalStates
      · exact (has_spare_iff inRange final).mp (spare final)
      · intro state mem _
        have length := unmerged_length inRange
        rw [if_neg final] at length
        rw [← length]
        exact idxOf_lt_length_of_mem mem
    rcases redirect_some inRange (fun source letter target step image renamed => by
      rcases rename_eq_some.mp renamed with ⟨mem, rfl⟩
      exact below source mem (Or.inr (Or.inr (ne_nil_of_mem step)))) with
      ⟨result, found, merged⟩
    refine ⟨result, found, merged.language inRange redirects, ?_, fun flag => ?_⟩
    · rw [merged.in_range_iff inRange redirects]
      intro state mem image renamed needed
      rcases rename_eq_some.mp renamed with ⟨-, rfl⟩
      exact below state mem (needed.imp id Or.inl)
    · rw [merged.distinct inRange redirects]
      exact truthful (merged.deterministic.symm.trans flag)

/-! ### Both repetitions -/

/-- Both repetitions accept what they are for, with states in range and a true flag. -/
def Repeats (order : HashOrder) (automaton : RawAutomaton) : Prop :=
  (∃ result, automaton.strictRepeat order = some result ∧
    result.language = automaton.language * automaton.language∗ ∧ InRange result ∧
      (result.deterministic = true → IsDeterministic result)) ∧
  ∃ result, automaton.weakRepeat order = some result ∧
    result.language = automaton.language∗ ∧ InRange result ∧
      (result.deterministic = true → IsDeterministic result)

theorem weak_repeat_redirects (inRange : InRange automaton) (redirects : Redirects automaton) :
    automaton.weakRepeat order = automaton.redirectFinalToInitial := by
  rcases nothing_after_final_iff inRange.finals with ⟨answer, found, nothing⟩
  have shortcut : answer = true ∧
      (! automaton.loopOnInitial ∨ automaton.initialState ∈ automaton.finalStates) := by
    refine ⟨nothing.mpr redirects.1, redirects.2.imp (fun unentered => ?_) id⟩
    rw [Bool.not_eq_true', ← Bool.not_eq_true, loop_on_initial_iff]
    rintro ⟨source, letter, step⟩
    exact unentered source letter step
  unfold weakRepeat
  rw [found]
  simp only [some_bind]
  exact if_pos shortcut

theorem weak_repeat_copies (inRange : InRange automaton) (stays : ¬ Redirects automaton) :
    automaton.weakRepeat order = (automaton.strictRepeat order).bind makeOptional := by
  rcases nothing_after_final_iff inRange.finals with ⟨answer, found, nothing⟩
  have longer : ¬ (answer = true ∧
      (! automaton.loopOnInitial ∨ automaton.initialState ∈ automaton.finalStates)) := by
    rintro ⟨holds, either⟩
    refine stays ⟨nothing.mp holds, either.imp (fun unentered source letter step => ?_) id⟩
    rw [Bool.not_eq_true', ← Bool.not_eq_true, loop_on_initial_iff] at unentered
    exact unentered ⟨source, letter, step⟩
  unfold weakRepeat
  rw [found]
  simp only [some_bind]
  exact if_neg longer

theorem Optional.distinct {result : RawAutomaton} (optional : Optional automaton result)
    (deterministic : IsDeterministic automaton) : IsDeterministic result := by
  intro state
  rcases optional.letters state with ⟨old, same, -⟩
  rw [same]
  exact deterministic old

/-- The repetitions are right unless the states are merged wrongly. -/
theorem repeats_iff (order : HashOrder) (automaton : RawAutomaton) :
    Repeats order automaton ↔ InRange automaton ∧ (Redirects automaton →
      (automaton.deterministic = true → IsDeterministic automaton) ∧
        (automaton.initialState ∈ automaton.finalStates → HasSpare automaton)) := by
  constructor
  · rintro ⟨⟨strict, strictIs, -, strictRange, -⟩, weak⟩
    rcases strict_repeat_some strictIs with ⟨initial, finals⟩
    rcases @strict_repeat_repeats order automaton initial finals with ⟨result, found, repeated⟩
    rw [strictIs, Option.some.injEq] at found
    rw [← found] at repeated
    have inRange := repeated.range.mp strictRange
    refine ⟨inRange, fun redirects => ?_⟩
    rw [weak_repeat_redirects inRange redirects] at weak
    exact (redirect_repeats_iff inRange redirects).mp weak
  · rintro ⟨inRange, merges⟩
    rcases @strict_repeat_repeats order automaton inRange.initial inRange.finals with
      ⟨strict, strictIs, repeated⟩
    refine ⟨⟨strict, strictIs, repeated.language, repeated.range.mpr inRange,
      repeated.deterministic⟩, ?_⟩
    by_cases redirects : Redirects automaton
    · rw [weak_repeat_redirects inRange redirects]
      exact (redirect_repeats_iff inRange redirects).mpr (merges redirects)
    · rcases make_optional_optional (repeated.range.mpr inRange) with ⟨weak, weakIs, optional⟩
      refine ⟨weak, ?_, ?_, optional.range, fun flag => ?_⟩
      · rw [weak_repeat_copies inRange redirects, strictIs]
        exact weakIs
      · rw [optional.language, repeated.language, Language.one_add_self_mul_kstar_eq_kstar]
      · rw [optional.deterministic] at flag
        exact optional.distinct (repeated.deterministic flag)

/-- No state is left when the empty word is repeated. -/
theorem concat_nil_not_repeats :
    ∃ automaton, concat [] = some automaton ∧ ¬ Repeats HashOrder.inOrder automaton := by
  have built : concat [] = some { epsilon with complete := true } := by decide
  refine ⟨_, built, ?_⟩
  rintro ⟨-, result, found, -, inRange, -⟩
  have run : weakRepeat HashOrder.inOrder { epsilon with complete := true } =
      some { epsilon with complete := true, transitions := [] } := by decide
  rw [run, Option.some.injEq] at found
  have inside := inRange.initial
  rw [← found] at inside
  exact absurd inside (Nat.not_lt_zero _)

end Midfall.RawAutomata.RawAutomaton
