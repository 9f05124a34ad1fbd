import Midfall.RawAutomatonComplement
import Midfall.RawAutomatonConcat
import Midfall.RawAutomatonMinimise
import Midfall.RawAutomatonProduct

/-!
# Runs of automaton operations

Automata are built one after the other, each from automata that are already
there. Whatever the order of the operations, the bytes stay in the alphabet, no
marker appears that the ranges do not have, and the markers are collected; only
the universal automaton has none. Automata with both flags have distinct letters.
-/

namespace Midfall.RawAutomata

open ListLoops List
open Option (getD_some map_eq_some_iff)
open ScannerAutomaton (alphabetMaxSize)

inductive Operation where
  | empty
  | epsilon
  | byteConcat (word : List (List Letter))
  | universal
  | makeOptional
  | removeDeadStates
  | checkDeterminism
  | determinise (completion : Bool)
  | union
  | concat
  | inter
  | complement
  | strictRepeat
  | weakRepeat
  | minimise

open RawAutomaton in
/-- Nothing results from the wrong number of arguments. -/
def Operation.apply (order : HashOrder) (alphabetSize : Nat) :
    Operation → List RawAutomaton → Option RawAutomaton
  | .empty, [] => some RawAutomaton.empty
  | .epsilon, [] => some RawAutomaton.epsilon
  | .byteConcat word, [] => some (RawAutomaton.byteConcat word alphabetSize)
  | .universal, [] => RawAutomaton.universal alphabetSize
  | .makeOptional, [automaton] => automaton.makeOptional
  | .removeDeadStates, [automaton] => automaton.removeDeadStates order
  | .checkDeterminism, [automaton] => some automaton.checkDeterminism
  | .determinise completion, [automaton] => automaton.determinise order completion alphabetSize
  | .union, automata => RawAutomaton.union order automata alphabetSize
  | .concat, automata => RawAutomaton.concat automata
  | .inter, [lhs, rhs] => lhs.inter order rhs
  | .complement, [automaton] => automaton.complement order
  | .strictRepeat, [automaton] => automaton.strictRepeat order
  | .weakRepeat, [automaton] => automaton.weakRepeat order
  | .minimise, [automaton] => automaton.minimise order alphabetSize
  | _, _ => none

inductive Run (order : HashOrder) (alphabetSize : Nat) :
    List (Operation × List RawAutomaton) → List RawAutomaton → Prop
  | start : Run order alphabetSize [] []
  | step {steps : List (Operation × List RawAutomaton)} {pool : List RawAutomaton}
      {operation : Operation} {arguments : List RawAutomaton} {result : RawAutomaton} :
      Run order alphabetSize steps pool → (∀ argument ∈ arguments, argument ∈ pool) →
        operation.apply order alphabetSize arguments = some result →
          Run order alphabetSize (steps ++ [(operation, arguments)]) (pool ++ [result])

section Runs

variable {order : HashOrder} {alphabetSize : Nat} {steps otherSteps : List (Operation × List RawAutomaton)}
  {pool otherPool : List RawAutomaton}

theorem Run.invariant {Holds : RawAutomaton → Prop}
    (preserved : ∀ (operation : Operation) (arguments : List RawAutomaton) (result : RawAutomaton),
      (∀ argument ∈ arguments, Holds argument) →
        operation.apply order alphabetSize arguments = some result → Holds result)
    (run : Run order alphabetSize steps pool) : ∀ automaton ∈ pool, Holds automaton := by
  induction run with
  | start => exact fun automaton mem => absurd mem not_mem_nil
  | step _ inside found holds =>
    intro automaton mem
    rcases mem_append.mp mem with before | last
    · exact holds automaton before
    · rw [mem_singleton.mp last]
      exact preserved _ _ _ (fun argument argumentIn => holds argument (inside argument argumentIn)) found

theorem Run.append (run : Run order alphabetSize steps pool)
    (other : Run order alphabetSize otherSteps otherPool) :
    Run order alphabetSize (steps ++ otherSteps) (pool ++ otherPool) := by
  induction other with
  | start =>
    rw [append_nil, append_nil]
    exact run
  | step _ inside found appended =>
    rw [← append_assoc, ← append_assoc]
    apply appended.step _ found
    exact fun argument mem => mem_append_right _ (inside argument mem)

end Runs

def Built (order : HashOrder) (alphabetSize : Nat) (automaton : RawAutomaton) : Prop :=
  ∃ steps pool, Run order alphabetSize steps pool ∧ automaton ∈ pool

theorem built_together {order : HashOrder} {alphabetSize : Nat} (automata : List RawAutomaton)
    (built : ∀ automaton ∈ automata, Built order alphabetSize automaton) :
    ∃ steps pool, Run order alphabetSize steps pool ∧ ∀ automaton ∈ automata, automaton ∈ pool := by
  induction automata with
  | nil => exact ⟨[], [], .start, fun automaton mem => absurd mem not_mem_nil⟩
  | cons automaton automata ih =>
    rw [forall_mem_cons] at built
    rcases built.1 with ⟨steps, pool, run, here⟩
    rcases ih built.2 with ⟨otherSteps, otherPool, otherRun, rest⟩
    refine ⟨_, _, run.append otherRun, ?_⟩
    rw [forall_mem_cons]
    exact ⟨mem_append_left _ here, fun other mem => mem_append_right _ (rest other mem)⟩

theorem Built.apply {order : HashOrder} {alphabetSize : Nat} {operation : Operation}
    {arguments : List RawAutomaton} {result : RawAutomaton}
    (built : ∀ argument ∈ arguments, Built order alphabetSize argument)
    (found : operation.apply order alphabetSize arguments = some result) :
    Built order alphabetSize result := by
  rcases built_together arguments built with ⟨steps, pool, run, inside⟩
  exact ⟨_, _, run.step inside found, mem_append_right _ (mem_singleton_self _)⟩

namespace RawAutomaton

variable {order : HashOrder} {automaton result : RawAutomaton} {alphabetSize : Nat}

structure Whole (automaton : RawAutomaton) : Prop where
  deterministic : automaton.deterministic = true
  complete : automaton.complete = true
  initial : automaton.initialState = 0
  finals : automaton.finalStates = {0}
  states : automaton.nbStates = 1
  distinct : IsDeterministic automaton

/-- A byte of the alphabet with a marker that is allowed. -/
def Permits (alphabetSize : Nat) (allowed : Nat → Prop) (letter : Letter) : Prop :=
  letter.char.toNat < alphabetSize ∧ allowed letter.marker

/-- The letters of a state are distinct where both flags are set; where one is enough, ranges must not
repeat a letter. -/
def Separated (strict : Prop) (automaton : RawAutomaton) : Prop :=
  automaton.deterministic = true → strict ∨ automaton.complete = true → IsDeterministic automaton

def RangeFits (allowed : Nat → Prop) (strict : Prop) (byteRange : List Letter) : Prop :=
  (∀ letter ∈ byteRange, allowed letter.marker) ∧ (strict → byteRange.Nodup)

/-- The markers are collected unless the automaton is the universal one. -/
structure Lettered (alphabetSize : Nat) (allowed : Nat → Prop) (strict : Prop) (automaton : RawAutomaton) :
    Prop where
  letters : ∀ state, ∀ entry ∈ automaton.outgoing state, Permits alphabetSize allowed entry.1
  markers : ∀ marker ∈ automaton.markers, allowed marker
  marked : Marked automaton ∨ Whole automaton
  separated : Separated strict automaton

variable {allowed : Nat → Prop} {strict : Prop}

theorem Lettered.bytes (lettered : Lettered alphabetSize allowed strict automaton) :
    ∀ state, ∀ entry ∈ automaton.outgoing state, entry.1.char.toNat < alphabetSize :=
  fun state entry step => (lettered.letters state entry step).1

def LettersFrom (automaton result : RawAutomaton) : Prop :=
  ∀ state, ∀ entry ∈ result.outgoing state, ∃ old target, (entry.1, target) ∈ automaton.outgoing old

theorem LettersFrom.holds {holds : Letter → Prop} (letters : LettersFrom automaton result)
    (here : ∀ state, ∀ entry ∈ automaton.outgoing state, holds entry.1) :
    ∀ state, ∀ entry ∈ result.outgoing state, holds entry.1 := by
  intro state entry step
  rcases letters state entry step with ⟨old, target, oldStep⟩
  exact here old (entry.1, target) oldStep

theorem LettersFrom.marked (letters : LettersFrom automaton result) (same : result.markers = automaton.markers)
    (marked : Marked automaton) : Marked result := by
  rintro marker ⟨state, entry, step, rfl⟩
  rcases letters state entry step with ⟨old, target, oldStep⟩
  rw [same]
  exact marked _ ⟨old, _, oldStep, rfl⟩

/-- The letters of each state are some of those of a state. -/
def RowsFrom (automaton result : RawAutomaton) : Prop :=
  ∀ state, ∃ old, ((result.outgoing state).map Prod.fst).Sublist ((automaton.outgoing old).map Prod.fst)

theorem RowsFrom.letters (rows : RowsFrom automaton result) : LettersFrom automaton result := by
  intro state entry step
  rcases rows state with ⟨old, sublist⟩
  rcases mem_map.mp (sublist.subset (mem_map_of_mem step)) with ⟨⟨letter, target⟩, oldStep, same⟩
  rw [← same]
  exact ⟨old, target, oldStep⟩

theorem RowsFrom.distinct (rows : RowsFrom automaton result) (distinct : IsDeterministic automaton) :
    IsDeterministic result := by
  intro state
  rcases rows state with ⟨old, sublist⟩
  exact (distinct old).sublist sublist

theorem updated_letters {transitions : Transitions} {f : Nat → Option Nat} {newNbStates offset : Nat}
    (updated : Updated transitions f newNbStates offset result.transitions result.markers)
    (letters : ∀ state : Nat, ∀ entry ∈ (transitions[state]?).getD [], Permits alphabetSize allowed entry.1)
    (separated : Separated strict result) : Lettered alphabetSize allowed strict result := by
  have kept : ∀ state, ∀ entry ∈ result.outgoing state, Permits alphabetSize allowed entry.1 := by
    rintro state ⟨letter, target⟩ step
    rcases (updated.mem state letter target).mp step with ⟨old, oldTarget, oldStep, -⟩
    exact letters old (letter, oldTarget) oldStep
  refine ⟨kept, fun marker mem => ?_, Or.inl ?_, separated⟩
  · rcases (updated.markers marker).mp mem with ⟨state, entry, step, rfl⟩
    exact (kept state entry step).2
  · rintro marker ⟨state, entry, step, same⟩
    exact (updated.markers marker).mpr ⟨state, entry, step, same⟩

theorem unread_letters (unread : ∀ state, automaton.outgoing state = [])
    (markers : automaton.markers = ∅) : Lettered alphabetSize allowed strict automaton := by
  refine ⟨fun state entry step => ?_, fun marker mem => ?_, Or.inl ?_, fun _ _ state => ?_⟩
  · rw [unread] at step
    exact absurd step not_mem_nil
  · rw [markers] at mem
    exact absurd mem (Finset.notMem_empty _)
  · rintro marker ⟨state, entry, step, -⟩
    rw [unread] at step
    exact absurd step not_mem_nil
  · rw [unread]
    exact nodup_nil

theorem byte_concat_letters {word : List (List Letter)}
    (fits : ∀ byteRange ∈ word, RangeFits allowed strict byteRange) :
    Lettered alphabetSize allowed strict (byteConcat word alphabetSize) := by
  refine ⟨?_, fun marker mem => ?_, Or.inl byte_concat_marked, fun _ either => ?_⟩
  · rintro state ⟨letter, target⟩ step
    rcases byte_concat_step.mp step with ⟨byteRange, rangeIs, inside, small, -⟩
    exact ⟨small, (fits byteRange (mem_of_getElem? rangeIs)).1 letter inside⟩
  · rcases mem_map.mp (mem_toFinset.mp mem) with ⟨letter, inside, rfl⟩
    rcases mem_flatten.mp inside with ⟨kept, keptIn, letterIn⟩
    rcases mem_map.mp keptIn with ⟨byteRange, rangeIn, rfl⟩
    exact (fits byteRange rangeIn).1 letter (mem_filter.mp letterIn).1
  · have strict_ := either.resolve_right Bool.false_ne_true
    exact byte_concat_deterministic.mpr fun byteRange mem => ((fits byteRange mem).2 strict_).filter _

theorem universal_letters (zero : allowed 0) (found : universal alphabetSize = some automaton) :
    Lettered alphabetSize allowed strict automaton := by
  have sound := universal_sound found
  rcases universal_some.mp found with ⟨-, shape⟩
  have distinct := sound.deterministic (by rw [shape])
  refine ⟨fun state entry step => ⟨sound.bytes state entry step, ?_⟩, fun marker mem => ?_, Or.inr ?_,
    fun _ _ => distinct⟩
  · rw [shape] at step
    cases state with
    | zero =>
      rcases mem_map.mp step with ⟨b, -, rfl⟩
      exact zero
    | succ state => exact absurd step not_mem_nil
  · rw [shape] at mem
    exact absurd mem (Finset.notMem_empty _)
  · rw [shape] at distinct ⊢
    exact ⟨rfl, rfl, rfl, rfl, rfl, distinct⟩

theorem make_optional_rows (found : automaton.makeOptional = some result) :
    RowsFrom automaton result ∧
      result.markers = automaton.markers ∧ result.deterministic = automaton.deterministic ∧
      result.complete = automaton.complete ∧
      (automaton.initialState ∈ automaton.finalStates → result = automaton) := by
  have same_ : ∀ {other : RawAutomaton}, (∀ state, ∃ old, other.outgoing state = automaton.outgoing old) →
      RowsFrom automaton other := by
    intro other rows state
    rcases rows state with ⟨old, same⟩
    exact ⟨old, by rw [same]⟩
  unfold makeOptional at found
  split_ifs at found with final loops
  · cases found
    exact ⟨same_ fun state => ⟨state, rfl⟩, rfl, rfl, rfl, fun _ => rfl⟩
  · rcases bind_some_iff.mp found with ⟨outgoing, outgoingIs, same⟩
    cases same
    refine ⟨same_ fun state => ?_, rfl, rfl, rfl, fun impossible => absurd impossible final⟩
    have rows := @outgoing_append { automaton with
      initialState := automaton.nbStates
      finalStates := insert automaton.nbStates automaton.finalStates
      transitions := automaton.transitions ++ [outgoing] } automaton.transitions [outgoing] rfl
    rcases Nat.lt_or_ge state automaton.transitions.length with below | above
    · exact ⟨state, rows.1 state below⟩
    · rw [← Nat.sub_add_cancel above, rows.2]
      cases state - automaton.transitions.length with
      | zero => exact ⟨automaton.initialState, (outgoing_of_lookup outgoingIs).symm⟩
      | succ position => exact ⟨automaton.nbStates, (outgoing_out_of_range le_rfl).symm⟩
  · cases found
    exact ⟨same_ fun state => ⟨state, rfl⟩, rfl, rfl, rfl, fun impossible => absurd impossible final⟩

theorem make_optional_letters (lettered : Lettered alphabetSize allowed strict automaton)
    (found : automaton.makeOptional = some result) : Lettered alphabetSize allowed strict result := by
  rcases make_optional_rows found with ⟨rows, markers, deterministic, complete, unchanged⟩
  rcases lettered.marked with marked | whole
  · refine ⟨rows.letters.holds lettered.letters, ?_, Or.inl (rows.letters.marked markers marked),
      fun flag either => rows.distinct ?_⟩
    · rw [markers]
      exact lettered.markers
    · rw [complete] at either
      exact lettered.separated (deterministic.symm.trans flag) either
  · have final : automaton.initialState ∈ automaton.finalStates := by
      rw [whole.initial, whole.finals]
      exact Finset.mem_singleton_self 0
    rw [unchanged final]
    exact lettered

theorem Repeated.letters (repeated : Repeated automaton result) : LettersFrom automaton result := by
  intro state entry step
  rcases (repeated.step state entry).mp step with here | ⟨-, first⟩
  · exact ⟨state, entry.2, here⟩
  · exact ⟨automaton.initialState, entry.2, first⟩

theorem strict_repeat_repeated (found : automaton.strictRepeat order = some result) :
    Repeated automaton result := by
  rcases strict_repeat_some found with ⟨initial, finals⟩
  rcases @strict_repeat_repeats order automaton initial finals with ⟨other, otherFound, repeated⟩
  rw [found, Option.some.injEq] at otherFound
  rw [otherFound]
  exact repeated

theorem Whole.strict_repeat (whole : Whole automaton) (found : automaton.strictRepeat order = some result) :
    Whole result := by
  have repeated := strict_repeat_repeated found
  have rows : ∀ state, ((result.outgoing state).map Prod.fst).Nodup := by
    unfold strictRepeat at found
    rcases bind_some_iff.mp found with ⟨first, firstIs, rest⟩
    split_ifs at rest with finals
    cases rest
    intro state
    rw [check_outgoing]
    unfold outgoing
    dsimp only
    rw [getElem?_map, getElem?_zipIdx]
    have rowIs := whole.distinct state
    unfold outgoing at rowIs
    cases lookup : automaton.transitions[state]? with
    | none => exact nodup_nil
    | some row =>
      have below : state < automaton.nbStates := (List.getElem?_eq_some_iff.mp lookup).1
      rw [whole.states, Nat.lt_one_iff] at below
      rw [whole.initial, ← below, lookup, Option.some.injEq] at firstIs
      rw [lookup, getD_some] at rowIs
      have final : state ∈ automaton.finalStates := by
        rw [whole.finals, below]
        exact Finset.mem_singleton_self 0
      simp only [Option.map_some, getD_some, Nat.zero_add]
      rw [if_pos final, ← firstIs, ((order.perm _).map Prod.fst).nodup_iff]
      apply List.Nodup.map_on
      · intro one oneIn other otherIn same
        rw [mem_dedup, mem_append, or_self] at oneIn otherIn
        exact inj_on_of_nodup_map rowIs oneIn otherIn same
      · exact nodup_dedup _
  refine ⟨?_, ?_, ?_, ?_, ?_, rows⟩
  · unfold strictRepeat at found
    rcases bind_some_iff.mp found with ⟨first, firstIs, rest⟩
    split_ifs at rest with finals
    cases rest
    unfold checkDeterminism
    rw [Bool.or_eq_true]
    exact Or.inr (deterministic_iff.mpr rows)
  · rw [repeated.complete]
    exact whole.complete
  · rw [repeated.initial]
    exact whole.initial
  · rw [repeated.finals]
    exact whole.finals
  · rw [repeated.states]
    exact whole.states

theorem strict_repeat_letters (lettered : Lettered alphabetSize allowed strict automaton)
    (found : automaton.strictRepeat order = some result) : Lettered alphabetSize allowed strict result := by
  have repeated := strict_repeat_repeated found
  refine ⟨repeated.letters.holds lettered.letters, ?_, ?_, fun flag _ => repeated.deterministic flag⟩
  · rw [repeated.markers]
    exact lettered.markers
  · rcases lettered.marked with marked | whole
    · exact Or.inl (repeated.letters.marked repeated.markers marked)
    · exact Or.inr (whole.strict_repeat found)

theorem weak_repeat_cases (found : automaton.weakRepeat order = some result) :
    Merged automaton result ∨
      ∃ repeated, automaton.strictRepeat order = some repeated ∧ repeated.makeOptional = some result := by
  unfold weakRepeat at found
  rcases bind_some_iff.mp found with ⟨nothing, -, rest⟩
  split_ifs at rest with redirects
  · exact Or.inl (merged_of_redirect rest)
  · exact Or.inr (bind_some_iff.mp rest)

theorem updated_rows {kept : List Nat} {newNbStates : Nat} (updated : Updated automaton.transitions
    (rename kept) newNbStates 0 result.transitions result.markers) : RowsFrom automaton result := by
  intro state
  by_cases none : result.outgoing state = []
  · rw [none]
    exact ⟨0, nil_sublist _⟩
  · rcases exists_mem_of_ne_nil _ none with ⟨⟨letter, target⟩, step⟩
    rcases (updated.mem state letter target).mp step with ⟨old, oldTarget, -, renamed, -⟩
    have below := lt_of_outgoing step
    unfold nbStates at below
    rw [updated.length] at below
    have row := updated.outgoing rename_separates old state renamed below
    exact ⟨old, (congrArg (List.map Prod.fst) row) ▸ renamed_letters _⟩

theorem Merged.separated (merged : Merged automaton result) (separated : Separated strict automaton) :
    Separated strict result := by
  intro deterministic either
  rw [merged.deterministic] at deterministic
  rw [merged.complete] at either
  apply (updated_rows merged.updated).distinct
  intro state
  rw [redirected_letters]
  exact separated deterministic either state

theorem Merged.lettered (merged : Merged automaton result)
    (letters : ∀ state, ∀ entry ∈ automaton.outgoing state, Permits alphabetSize allowed entry.1)
    (separated : Separated strict automaton) : Lettered alphabetSize allowed strict result := by
  refine updated_letters merged.updated ?_ (merged.separated separated)
  rintro state ⟨letter, target⟩ step
  rcases redirected_step.mp step with ⟨old, oldStep, -⟩
  exact letters state (letter, old) oldStep

theorem weak_repeat_letters (lettered : Lettered alphabetSize allowed strict automaton)
    (found : automaton.weakRepeat order = some result) : Lettered alphabetSize allowed strict result := by
  rcases weak_repeat_cases found with merged | ⟨repeated, repeatedIs, optional⟩
  · exact merged.lettered lettered.letters lettered.separated
  · exact make_optional_letters (strict_repeat_letters lettered repeatedIs) optional

theorem remove_dead_states_letters
    (letters : ∀ state, ∀ entry ∈ automaton.outgoing state, Permits alphabetSize allowed entry.1)
    (separated : Separated strict automaton)
    (found : automaton.removeDeadStates order = some result) : Lettered alphabetSize allowed strict result := by
  unfold removeDeadStates at found
  rcases bind_some_iff.mp found with ⟨live, -, rest⟩
  split_ifs at rest
  · cases rest
    exact unread_letters outgoing_empty rfl
  · rcases bind_some_iff.mp rest with ⟨initial, -, rest⟩
    rcases bind_some_iff.mp rest with ⟨⟨transitions, markers⟩, updatedIs, same⟩
    cases same
    have updated := updated_of_filter_map updatedIs
    refine updated_letters updated letters fun flag either => ?_
    have strict_ := either.resolve_right Bool.false_ne_true
    exact (@updated_rows automaton _ _ _ updated).distinct (separated flag (Or.inl strict_))

theorem complement_letters
    (letters : ∀ state, ∀ entry ∈ automaton.outgoing state, Permits alphabetSize allowed entry.1)
    (separated : Separated strict automaton)
    (found : automaton.complement order = some result) : Lettered alphabetSize allowed strict result := by
  unfold complement at found
  split_ifs at found
  exact @remove_dead_states_letters order automaton.swapped result alphabetSize allowed strict letters
    separated found

theorem powerset_rows {initials : List Nat} {completion : Bool}
    (found : automaton.powersetConstruction order initials completion alphabetSize = some result) :
    result.markers = automaton.markers ∧ ∀ state, result.outgoing state ≠ [] → ∃ powerState successors,
        automaton.powerSuccessors order completion alphabetSize (order.elements automaton.markers)
          powerState = some successors ∧
        (result.outgoing state).map Prod.fst = successors.map Prod.fst := by
  unfold powersetConstruction at found
  split_ifs at found
  dsimp only at found
  rcases bind_some_iff.mp found with ⟨visited, -, rest⟩
  rcases bind_some_iff.mp rest with ⟨transitions, transitionsIs, same⟩
  cases same
  refine ⟨rfl, fun state some_ => ?_⟩
  rcases exists_mem_of_ne_nil _ some_ with ⟨entry, step⟩
  rcases (mem_map_m transitionsIs).mp (outgoing_mem (lt_of_outgoing step)) with ⟨powerState, -, rowIs⟩
  rcases map_eq_some_iff.mp rowIs with ⟨successors, successorsIs, same⟩
  refine ⟨powerState, successors, successorsIs, ?_⟩
  rw [← same, map_map]
  rfl

section

variable (small : alphabetSize ≤ alphabetMaxSize)

include small

theorem decode_fits {code : Nat} {markers : List Nat} {letter : Letter}
    (decoded : Letter.decode code alphabetSize markers = some letter) :
    letter.Fits alphabetSize markers := by
  unfold Letter.decode at decoded
  split_ifs at decoded with empty_
  rcases map_eq_some_iff.mp decoded with ⟨marker, found, same⟩
  rw [← same]
  constructor
  · have below := Nat.mod_lt code (Nat.pos_of_ne_zero empty_)
    rw [byte_of_small small below]
    exact below
  · exact mem_of_getElem? found

theorem powerset_letters {initials : List Nat} {completion : Bool}
    (markers : ∀ marker ∈ automaton.markers, allowed marker)
    (bytes : ∀ state, ∀ entry ∈ automaton.outgoing state, entry.1.char.toNat < alphabetSize)
    (found : automaton.powersetConstruction order initials completion alphabetSize = some result) :
    Lettered alphabetSize allowed strict result := by
  rcases powerset_rows found with ⟨same, rows⟩
  have fits : ∀ state, ∀ entry ∈ result.outgoing state,
      entry.1.Fits alphabetSize (order.elements automaton.markers) := by
    intro state entry step
    rcases rows state (ne_nil_of_mem step) with ⟨powerState, successors, successorsIs, letters⟩
    have letterIn := mem_map_of_mem (f := Prod.fst) step
    rw [letters] at letterIn
    rcases mem_map.mp letterIn with ⟨successor, successorIn, letterIs⟩
    unfold powerSuccessors at successorsIs
    rcases bind_some_iff.mp successorsIs with ⟨table, -, decodes⟩
    rcases (mem_map_m decodes).mp successorIn with ⟨code, -, decoded⟩
    rcases map_eq_some_iff.mp decoded with ⟨letter, decodedIs, rfl⟩
    rw [← letterIs]
    exact decode_fits small decodedIs
  refine ⟨fun state entry step => ⟨(fits state entry step).1, markers _ ?_⟩, ?_, Or.inl ?_, fun _ _ state => ?_⟩
  · exact order.mem_elements.mp (fits state entry step).2
  · rw [same]
    exact markers
  · rintro marker ⟨state, entry, step, rfl⟩
    rw [same]
    exact order.mem_elements.mp (fits state entry step).2
  · by_cases none : result.outgoing state = []
    · rw [none]
      exact nodup_nil
    · rcases rows state none with ⟨powerState, successors, successorsIs, letters⟩
      rw [letters]
      exact (power_steps_of_some bytes small (order.nodup_elements _) successorsIs).distinct

theorem determinise_letters {completion : Bool} (lettered : Lettered alphabetSize allowed strict automaton)
    (found : automaton.determinise order completion alphabetSize = some result) :
    Lettered alphabetSize allowed strict result := by
  unfold determinise at found
  split_ifs at found
  · cases found
    exact lettered
  · exact powerset_letters small lettered.markers lettered.bytes found

end

theorem updated_fits {transitions newTransitions : Transitions} {f : Nat → Option Nat}
    {newNbStates offset : Nat} {markers : Finset Nat} {fits : Letter → Prop}
    (updated : Updated transitions f newNbStates offset newTransitions markers)
    (reads : ∀ source : Nat, ∀ entry ∈ (transitions[source]?).getD [], fits entry.1) :
    ∀ row ∈ newTransitions, ∀ entry ∈ row, fits entry.1 := by
  intro row mem entry inside
  rcases mem_iff_getElem?.mp mem with ⟨index, lookup⟩
  have step : entry ∈ (newTransitions[index]?).getD [] := by
    rw [lookup]
    exact inside
  rcases (updated.mem index entry.1 entry.2).mp step with ⟨source, target, oldStep, -⟩
  exact reads source (entry.1, target) oldStep

theorem union_fold_fits {automata : List RawAutomaton} {fits : Letter → Prop}
    {start sum : RawAutomaton × List Nat}
    (reads : ∀ automaton ∈ automata, ∀ source, ∀ entry ∈ automaton.outgoing source, fits entry.1)
    (old : ∀ row ∈ start.1.transitions, ∀ entry ∈ row, fits entry.1)
    (markers : ∀ marker ∈ start.1.markers, ∃ letter, fits letter ∧ letter.marker = marker)
    (run : automata.foldlM unionStep start = some sum) :
    (∀ row ∈ sum.1.transitions, ∀ entry ∈ row, fits entry.1) ∧
      ∀ marker ∈ sum.1.markers, ∃ letter, fits letter ∧ letter.marker = marker := by
  induction automata generalizing start with
  | nil =>
    cases run
    exact ⟨old, markers⟩
  | cons automaton automata ih =>
    rw [forall_mem_cons] at reads
    rw [foldlM_cons] at run
    rcases bind_some_iff.mp run with ⟨next, stepIs, rest⟩
    rcases bind_some_iff.mp stepIs with ⟨⟨transitions, added⟩, updatedIs, same⟩
    cases same
    have updated := updated_of_filter_map updatedIs
    have fresh := updated_fits updated reads.1
    refine ih reads.2 ?_ ?_ rest
    · rw [forall_mem_append]
      exact ⟨old, fresh⟩
    · intro marker mem
      rcases Finset.mem_union.mp mem with before | after
      · exact markers marker before
      · rcases (updated.markers marker).mp after with ⟨state, entry, step, same⟩
        rcases (updated.mem state entry.1 entry.2).mp step with ⟨source, target, oldStep, -⟩
        exact ⟨entry.1, reads.1 source (entry.1, target) oldStep, same⟩

theorem union_letters {automata : List RawAutomaton} (small : alphabetSize ≤ alphabetMaxSize)
    (lettered : ∀ automaton ∈ automata, Lettered alphabetSize allowed strict automaton)
    (found : union order automata alphabetSize = some result) : Lettered alphabetSize allowed strict result := by
  unfold union at found
  split at found
  · cases found
    exact lettered _ (mem_singleton_self _)
  · rcases bind_some_iff.mp found with ⟨⟨sum, initials⟩, run, rest⟩
    have summed := union_fold_fits (fun automaton mem => (lettered automaton mem).letters)
      (fun row mem entry inside => absurd (mem_singleton.mp mem ▸ inside) not_mem_nil)
      (fun marker mem => absurd mem (Finset.notMem_empty _)) run
    refine powerset_letters small (fun marker mem => ?_) (fun state entry step => ?_) rest
    · rcases summed.2 marker mem with ⟨letter, permits, rfl⟩
      exact permits.2
    · exact (summed.1 _ (outgoing_mem (lt_of_outgoing step)) entry step).1

theorem inter_letters {lhs rhs : RawAutomaton} (first : Lettered alphabetSize allowed strict lhs)
    (second : Lettered alphabetSize allowed strict rhs) (found : lhs.inter order rhs = some result) :
    Lettered alphabetSize allowed strict result := by
  have intersected := intersected_of_inter found
  have letters : ∀ state, ∀ entry ∈ result.outgoing state, Permits alphabetSize allowed entry.1 := by
    intro state entry step
    rcases intersected.letters state entry step with
      ⟨source1, source2, letter1, letter2, target1, target2, step1, step2, joins⟩
    rcases join_eq_some.mp joins with ⟨char, -, -, marker⟩
    have fits := first.letters source1 (letter1, target1) step1
    refine ⟨char ▸ fits.1, ?_⟩
    rw [marker]
    exact (max_choice letter1.marker letter2.marker).elim (fun same => same.symm ▸ fits.2)
      fun same => same.symm ▸ (second.letters source2 (letter2, target2) step2).2
  refine ⟨letters, fun marker mem => ?_, Or.inl fun marker => (intersected.marked marker).mpr,
    fun flag either => ?_⟩
  · rcases (intersected.marked marker).mp mem with ⟨state, entry, step, rfl⟩
    exact (letters state entry step).2
  · rw [intersected.complete, Bool.false_eq_true, or_false] at either
    exact intersected.deterministic (fun first_ => first.separated first_ (Or.inl either))
      (fun second_ => second.separated second_ (Or.inl either)) flag

theorem concat_step_letters {state next : Concatenation}
    (old : ∀ source, ∀ entry ∈ state.automaton.outgoing source, Permits alphabetSize allowed entry.1)
    (letters : ∀ source, ∀ entry ∈ automaton.outgoing source, Permits alphabetSize allowed entry.1)
    (found : concatStep state automaton = some next) :
    ∀ source, ∀ entry ∈ next.automaton.outgoing source, Permits alphabetSize allowed entry.1 := by
  unfold concatStep at found
  dsimp only at found
  rcases bind_some_iff.mp found with ⟨⟨transitions, markers⟩, updatedIs, rest⟩
  have updated := updated_of_filter_map updatedIs
  have added := updated_fits updated letters
  have first : ∀ row ∈ state.automaton.transitions, ∀ entry ∈ row, Permits alphabetSize allowed entry.1 := by
    intro row mem entry inside
    rcases exists_source mem with ⟨source, -, rfl⟩
    exact old source entry inside
  have all : ∀ row ∈ next.automaton.transitions, ∀ entry ∈ row, Permits alphabetSize allowed entry.1 := by
    rcases bind_some_iff.mp rest with ⟨nothing, -, rest⟩
    cases nothing with
    | true =>
      rw [if_pos rfl] at rest
      cases rest
      intro row mem entry inside
      rcases mem_append.mp mem with before | after
      · exact first row before entry inside
      · rcases mem_map.mp after with ⟨oldRow, oldIn, rfl⟩
        rcases mem_map.mp inside with ⟨oldEntry, entryIn, rfl⟩
        split_ifs
        · exact added oldRow oldIn oldEntry entryIn
        · exact added oldRow oldIn oldEntry entryIn
    | false =>
      rw [if_neg Bool.false_ne_true] at rest
      rcases bind_some_iff.mp rest with ⟨outgoing, outgoingIs, same⟩
      cases same
      intro row mem entry inside
      rcases mem_append.mp mem with before | after
      · exact first row before entry inside
      · rcases mem_map.mp after with ⟨⟨oldRow, index⟩, oldIn, rfl⟩
        have rowIn := mem_of_getElem? (mk_mem_zipIdx_iff_getElem?.mp oldIn)
        dsimp only at inside
        split_ifs at inside
        · rcases mem_append.mp inside with here | copied
          · exact added oldRow rowIn entry here
          · rcases mem_append.mp (mem_of_getElem? outgoingIs) with before | after
            · exact first outgoing before entry copied
            · exact added outgoing after entry copied
        · exact added oldRow rowIn entry inside
  intro source entry step
  exact all _ (outgoing_mem (lt_of_outgoing step)) entry step

theorem concat_letters {automata : List RawAutomaton}
    (lettered : ∀ automaton ∈ automata, Lettered alphabetSize allowed strict automaton)
    (found : concat automata = some result) : Lettered alphabetSize allowed strict result := by
  unfold concat at found
  rcases bind_some_iff.mp found with ⟨state, run, rest⟩
  have fits : ∀ (later : List RawAutomaton) (start : Concatenation),
      (∀ automaton ∈ later, Lettered alphabetSize allowed strict automaton) →
      (∀ source, ∀ entry ∈ start.automaton.outgoing source, Permits alphabetSize allowed entry.1) →
        later.foldlM concatStep start = some state →
          ∀ source, ∀ entry ∈ state.automaton.outgoing source, Permits alphabetSize allowed entry.1 := by
    intro later
    induction later with
    | nil =>
      intro start _ before same
      cases same
      exact before
    | cons automaton later ih =>
      intro start lettered before run
      rw [forall_mem_cons] at lettered
      rw [foldlM_cons] at run
      rcases bind_some_iff.mp run with ⟨next, stepIs, restRun⟩
      exact ih next lettered.2 (concat_step_letters before lettered.1.letters stepIs) restRun
  have all := fits automata.reverse _ (fun automaton mem => lettered automaton (mem_reverse.mp mem))
    (fun source entry step => by
      rw [outgoing_epsilon] at step
      exact absurd step not_mem_nil) run
  dsimp only at rest
  rcases bind_some_iff.mp rest with ⟨⟨transitions, markers⟩, updatedIs, rest⟩
  rcases bind_some_iff.mp rest with ⟨initial, -, same⟩
  cases same
  exact updated_letters (updated_of_filter_map updatedIs) all
    fun flag _ => check_deterministic (fun impossible => nomatch impossible) flag

theorem minimise_rows (found : automaton.minimise order alphabetSize = some result) :
    RowsFrom automaton result ∧ result.markers = automaton.markers ∧
      automaton.deterministic = true ∧ result.complete = automaton.complete := by
  unfold minimise at found
  split_ifs at found with flag
  rcases bind_some_iff.mp found with ⟨partition, -, rest⟩
  rcases bind_some_iff.mp rest with ⟨initial, -, rest⟩
  rcases bind_some_iff.mp rest with ⟨representatives, -, rest⟩
  rcases bind_some_iff.mp rest with ⟨transitions, transitionsIs, same⟩
  cases same
  refine ⟨fun state => ?_, rfl, flag, rfl⟩
  unfold outgoing
  dsimp only
  cases lookup : transitions[state]? with
  | none => exact ⟨0, nil_sublist _⟩
  | some row =>
    rcases (mem_map_m transitionsIs).mp (mem_of_getElem? lookup) with ⟨source, -, rowIs⟩
    rcases bind_some_iff.mp rowIs with ⟨succ, succIs, renamed⟩
    refine ⟨source, ?_⟩
    rw [succIs, getD_some, getD_some]
    clear lookup succIs rowIs
    induction succ generalizing row with
    | nil =>
      cases renamed
      exact Sublist.refl _
    | cons entry succ ih =>
      rw [mapM_cons] at renamed
      rcases bind_some_iff.mp renamed with ⟨first, firstIs, rest⟩
      rcases bind_some_iff.mp rest with ⟨later, laterIs, same⟩
      cases same
      rcases map_eq_some_iff.mp firstIs with ⟨target, -, rfl⟩
      exact (ih later laterIs).cons_cons entry.1

theorem predecessors_encode {markers : List Nat} {dist : Finset Nat} {preds : List (Finset Nat)}
    (found : automaton.predecessors alphabetSize markers dist = some preds) {state : Nat}
    {entry : Letter × Nat} (step : entry ∈ automaton.outgoing state) :
    entry.2 < automaton.nbStates ∧ (entry.2 ∈ dist → entry.1.marker ∈ markers) := by
  have mem : (state, entry) ∈ automaton.transitions.zipIdx.flatMap fun entry =>
      entry.1.map fun transition => (entry.2, transition) := by
    rw [mem_flatMap]
    refine ⟨(automaton.outgoing state, state), ?_, mem_map_of_mem step⟩
    exact mk_mem_zipIdx_iff_getElem?.mpr (lookup_of_lt (lt_of_outgoing step))
  unfold predecessors at found
  dsimp only at found
  split_ifs at found with inside
  refine ⟨inside _ mem, fun reaches => ?_⟩
  rcases bind_some_iff.mp found with ⟨codes, codesAre, -⟩
  have reaching : (state, entry) ∈ (automaton.transitions.zipIdx.flatMap fun entry =>
      entry.1.map fun transition => (entry.2, transition)).filter fun entry => entry.2.2 ∈ dist := by
    rw [mem_filter, decide_eq_true_iff]
    exact ⟨mem, reaches⟩
  rcases map_m_returns codesAre reaching with ⟨code, codeIs, -⟩
  rcases map_eq_some_iff.mp codeIs with ⟨encoding, encoded, -⟩
  exact (Letter.encode_eq_some.mp encoded).1

theorem Whole.minimise_marked (whole : Whole automaton)
    (found : automaton.minimise order alphabetSize = some result) : Marked automaton := by
  rintro marker ⟨state, entry, step, same⟩
  unfold minimise at found
  rw [if_pos whole.deterministic] at found
  rcases bind_some_iff.mp found with ⟨partition, partitionIs, -⟩
  unfold nerodeCongruence at partitionIs
  split_ifs at partitionIs
  have first : [automaton.finalStates, Finset.range automaton.nbStates \ automaton.finalStates].filter
      (fun states => decide (states.card ≠ 0)) = [{0}] := by
    rw [whole.finals, whole.states]
    rfl
  rw [first, whole.states] at partitionIs
  rcases bind_some_iff.mp partitionIs with ⟨preds, predsAre, -⟩
  have encodes := predecessors_encode predsAre step
  have target : entry.2 = 0 := by
    have below := encodes.1
    rw [whole.states] at below
    omega
  rw [← same]
  apply order.mem_elements.mp
  apply encodes.2
  rw [target]
  exact Finset.mem_singleton_self 0

theorem minimise_letters (lettered : Lettered alphabetSize allowed strict automaton)
    (found : automaton.minimise order alphabetSize = some result) : Lettered alphabetSize allowed strict result := by
  rcases minimise_rows found with ⟨rows, markers, deterministic, complete⟩
  refine ⟨rows.letters.holds lettered.letters, ?_, Or.inl (rows.letters.marked markers ?_),
    fun _ either => rows.distinct (lettered.separated deterministic (complete ▸ either))⟩
  · rw [markers]
    exact lettered.markers
  · rcases lettered.marked with marked | whole
    · exact marked
    · exact whole.minimise_marked found

theorem check_letters (lettered : Lettered alphabetSize allowed strict automaton) :
    Lettered alphabetSize allowed strict automaton.checkDeterminism := by
  refine ⟨lettered.letters, lettered.markers, lettered.marked.imp id fun whole => ?_, fun flag complete => ?_⟩
  · refine ⟨?_, whole.complete, whole.initial, whole.finals, whole.states, whole.distinct⟩
    unfold checkDeterminism
    rw [whole.deterministic, Bool.true_or]
  · exact check_deterministic (fun deterministic => lettered.separated deterministic complete) flag

end RawAutomaton

open RawAutomaton

variable {order : HashOrder} {alphabetSize : Nat} {steps : List (Operation × List RawAutomaton)}
  {pool : List RawAutomaton}

def Operation.Marks (allowed : Nat → Prop) (strict : Prop) : Operation → Prop
  | .byteConcat word => ∀ byteRange ∈ word, RangeFits allowed strict byteRange
  | _ => True

theorem Operation.lettered {allowed : Nat → Prop} {strict : Prop} (zero : allowed 0) (small : alphabetSize ≤ alphabetMaxSize)
    (operation : Operation) (arguments : List RawAutomaton) (result : RawAutomaton)
    (marks : operation.Marks allowed strict)
    (lettered : ∀ argument ∈ arguments, Lettered alphabetSize allowed strict argument)
    (found : operation.apply order alphabetSize arguments = some result) :
    Lettered alphabetSize allowed strict result := by
  unfold apply at found
  split at found
  · cases found
    exact unread_letters outgoing_empty rfl
  · cases found
    exact unread_letters outgoing_epsilon rfl
  · cases found
    exact byte_concat_letters marks
  · exact universal_letters zero found
  · exact make_optional_letters (lettered _ mem_cons_self) found
  · exact remove_dead_states_letters (lettered _ mem_cons_self).letters (lettered _ mem_cons_self).separated found
  · cases found
    exact check_letters (lettered _ mem_cons_self)
  · exact determinise_letters small (lettered _ mem_cons_self) found
  · exact union_letters small lettered found
  · exact concat_letters lettered found
  · exact inter_letters (lettered _ mem_cons_self) (lettered _ (mem_cons_of_mem _ mem_cons_self)) found
  · exact complement_letters (lettered _ mem_cons_self).letters (lettered _ mem_cons_self).separated found
  · exact strict_repeat_letters (lettered _ mem_cons_self) found
  · exact weak_repeat_letters (lettered _ mem_cons_self) found
  · exact minimise_letters (lettered _ mem_cons_self) found
  · cases found

theorem RawAutomaton.Lettered.encodable {allowed : Nat → Prop} {strict : Prop} {automaton : RawAutomaton}
    (lettered : Lettered alphabetSize allowed strict automaton) : Encodable alphabetSize automaton := by
  refine ⟨lettered.bytes, fun unflagged => ?_, fun flagged => ?_⟩
  · rcases lettered.marked with marked | whole
    · exact marked
    · rw [whole.deterministic, whole.complete] at unflagged
      cases unflagged
  · rw [Bool.and_eq_true] at flagged
    exact lettered.separated flagged.1 (Or.inr flagged.2)

section

variable (small : alphabetSize ≤ alphabetMaxSize) (run : Run order alphabetSize steps pool)

include small run

theorem Run.lettered : ∀ automaton ∈ pool, Lettered alphabetSize (fun _ => True) False automaton := by
  refine run.invariant fun operation arguments result lettered found => ?_
  apply operation.lettered trivial small arguments result _ lettered found
  cases operation with
  | byteConcat word => exact fun _ _ => ⟨fun _ _ => trivial, False.elim⟩
  | _ => trivial

theorem Run.encodable {automaton : RawAutomaton} (mem : automaton ∈ pool) :
    Encodable alphabetSize automaton := (run.lettered small automaton mem).encodable

end

end Midfall.RawAutomata
