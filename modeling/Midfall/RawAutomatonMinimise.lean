import Midfall.RawAutomatonConstructors
import Midfall.RawAutomatonRefinement

/-!
# Minimisation

The classes of the congruence become the states. The language is kept; when
every state is reachable and every transition leads on to a final state, the
states are told apart by the words they accept, and two such automata for one
language are equal up to the numbers of their states.
-/

namespace Midfall.RawAutomata.RawAutomaton

open AutomatonLanguages ListLoops PartitionRefinement List
open Option (bind_some getD_some map_some)

variable {order : HashOrder} {automaton result : RawAutomaton} {alphabetSize : Nat}
  {classes : List (Finset Nat)}

section

variable (partition : IsPartition (Finset.range automaton.nbStates) classes)

include partition

/-! ### Classes and their states -/

theorem class_of_some {state index : Nat} : classOf classes state = some index ↔
      ∃ class_, classes[index]? = some class_ ∧ state ∈ class_ := by
  unfold classOf
  rw [findIdx?_eq_some_iff_getElem]
  constructor
  · rintro ⟨below, mem, -⟩
    exact ⟨_, getElem?_eq_getElem below, of_decide_eq_true mem⟩
  · rintro ⟨class_, found, mem⟩
    rcases List.getElem?_eq_some_iff.mp found with ⟨below, rfl⟩
    refine ⟨below, decide_eq_true mem, fun earlier before => ?_⟩
    rw [Bool.not_eq_true, decide_eq_false_iff_not]
    intro other
    have disjoint := pairwise_iff_getElem.mp partition.disjoint earlier index (before.trans below)
      below before
    exact Finset.disjoint_left.mp disjoint other mem

theorem class_of_lt {state : Nat} (below : state < automaton.nbStates) :
    ∃ index, classOf classes state = some index := by
  rcases (partition.cover state).mp (Finset.mem_range.mpr below) with ⟨class_, mem, inside⟩
  rcases mem_iff_getElem?.mp mem with ⟨index, found⟩
  exact ⟨index, (class_of_some partition).mpr ⟨class_, found, inside⟩⟩

theorem together_of_class {first second index : Nat} (firstIn : classOf classes first = some index)
    (secondIn : classOf classes second = some index) : Together classes first second := by
  rcases (class_of_some partition).mp firstIn with ⟨class_, found, firstMember⟩
  rcases (class_of_some partition).mp secondIn with ⟨other, otherFound, secondMember⟩
  rw [found, Option.some.injEq] at otherFound
  rw [← otherFound] at secondMember
  exact ⟨class_, mem_of_getElem? found, firstMember, secondMember⟩

theorem representative_some {class_ : Finset Nat} (mem : class_ ∈ classes) :
    ∃ state, representative automaton.nbStates class_ = some state ∧ state ∈ class_ ∧
      state < automaton.nbStates := by
  rcases partition.nonempty class_ mem with ⟨state, inside⟩
  have below := Finset.mem_range.mp ((partition.cover state).mpr ⟨class_, mem, inside⟩)
  have some_ : (representative automaton.nbStates class_).isSome := by
    unfold representative
    rw [find?_isSome]
    exact ⟨state, mem_range.mpr below, decide_eq_true inside⟩
  rcases Option.isSome_iff_exists.mp some_ with ⟨first, found⟩
  have holds := find?_some found
  exact ⟨first, found, of_decide_eq_true holds, mem_range.mp (mem_of_find?_eq_some found)⟩

end

/-- The states of the result are the classes, with the transitions of a state of the class. -/
structure Quotient (automaton : RawAutomaton) (classes : List (Finset Nat)) (result : RawAutomaton) :
    Prop where
  states : result.nbStates = classes.length
  initial : classOf classes automaton.initialState = some result.initialState
  finals : ∀ index ∈ result.finalStates, index < classes.length
  rows : ∀ index < classes.length, ∃ state, classOf classes state = some index ∧
    state < automaton.nbStates ∧ (index ∈ result.finalStates ↔ state ∈ automaton.finalStates) ∧
      (result.outgoing index).map Prod.fst = (automaton.outgoing state).map Prod.fst ∧
        ∀ letter target, (letter, target) ∈ result.outgoing index ↔
          ∃ onward, (letter, onward) ∈ automaton.outgoing state ∧ classOf classes onward = some target
  deterministic : result.deterministic = true
  complete : result.complete = automaton.complete
  markers : result.markers = automaton.markers

theorem minimise_quotient (inRange : InRange automaton) (flag : automaton.deterministic = true)
    (deterministic : IsDeterministic automaton)
    (fits : ∀ state, ∀ entry ∈ automaton.outgoing state,
      entry.1.char.toNat < alphabetSize ∧ entry.1.marker ∈ automaton.markers) :
    ∃ result classes, automaton.minimise order alphabetSize = some result ∧
      Congruent automaton classes ∧ Quotient automaton classes result := by
  have letterFits : ∀ state, ∀ entry ∈ automaton.outgoing state,
      entry.1.Fits alphabetSize (order.elements automaton.markers) := fun state entry step =>
    ⟨(fits state entry step).1, order.mem_elements.mpr (fits state entry step).2⟩
  rcases @nerode_congruence_congruent order automaton alphabetSize (order.elements automaton.markers)
    inRange deterministic letterFits with ⟨classes, classesAre, congruent⟩
  have partition := congruent.partition
  rcases class_of_lt partition inRange.initial with ⟨initialState, initialIs⟩
  have pick : ∀ class_ ∈ classes, ∃ state, representative automaton.nbStates class_ = some state ∧
      state ∈ class_ ∧ state < automaton.nbStates := fun class_ mem =>
    representative_some partition mem
  have representativesAre := @map_m_of_forall _ _ Option _ _ (representative automaton.nbStates)
    (fun class_ => (representative automaton.nbStates class_).getD 0) classes (fun class_ mem => by
      rcases pick class_ mem with ⟨state, found, -⟩
      rw [found]
      rfl)
  generalize representativesIs : classes.map (fun class_ =>
    (representative automaton.nbStates class_).getD 0) = representatives at representativesAre
  have onward : ∀ source, source < automaton.nbStates →
      (automaton.outgoing source).mapM (fun entry => (classOf classes entry.2).map fun target =>
        (entry.1, target)) = some ((automaton.outgoing source).map fun entry =>
          (entry.1, (classOf classes entry.2).getD 0)) := by
    intro source _
    apply map_m_of_forall
    intro entry step
    rcases class_of_lt partition (inRange.targets source entry step) with ⟨target, targetIs⟩
    rw [targetIs]
    rfl
  have representativeAt : ∀ (index : Nat) (class_ : Finset Nat), classes[index]? = some class_ → ∃ state,
      representatives[index]? = some state ∧ state ∈ class_ ∧ state < automaton.nbStates := by
    intro index class_ found
    rcases pick class_ (mem_of_getElem? found) with ⟨state, stateIs, mem, below⟩
    refine ⟨state, ?_, mem, below⟩
    rw [← representativesIs, getElem?_map, found, map_some, stateIs, getD_some]
  have representativesBelow : ∀ source ∈ representatives, source < automaton.nbStates := by
    intro source mem
    rw [← representativesIs] at mem
    rcases mem_map.mp mem with ⟨class_, classIn, rfl⟩
    rcases pick class_ classIn with ⟨state, stateIs, -, below⟩
    rw [stateIs]
    exact below
  have transitionsAre : representatives.mapM (fun source => do
      let succ ← automaton.transitions[source]?
      succ.mapM fun entry => (classOf classes entry.2).map fun target => (entry.1, target)) =
        some (representatives.map fun source => (automaton.outgoing source).map fun entry =>
          (entry.1, (classOf classes entry.2).getD 0)) := by
    apply map_m_of_forall
    intro source mem
    have below := representativesBelow source mem
    rw [lookup_of_lt below]
    exact onward source below
  have run : automaton.minimise order alphabetSize = some { automaton with
      deterministic := true
      initialState := initialState
      finalStates := (Finset.range classes.length).filter fun index =>
        representatives.getD index 0 ∈ automaton.finalStates
      transitions := representatives.map fun source => (automaton.outgoing source).map fun entry =>
        (entry.1, (classOf classes entry.2).getD 0) } := by
    unfold minimise
    rw [if_pos flag]
    simp only [Option.bind_eq_bind] at transitionsAre ⊢
    rw [classesAre, bind_some, initialIs, bind_some]
    refine Option.bind_eq_some_iff.mpr ⟨representatives, representativesAre, ?_⟩
    exact Option.bind_eq_some_iff.mpr ⟨_, transitionsAre, rfl⟩
  refine ⟨_, classes, run, congruent, ?_⟩
  generalize resultIs : RawAutomaton.mk true automaton.complete initialState _ _ automaton.markers = result
  constructor
  · rw [← resultIs]
    unfold nbStates
    rw [length_map, ← representativesIs, length_map]
  · rw [← resultIs]
    exact initialIs
  · intro index final
    rw [← resultIs, Finset.mem_filter, Finset.mem_range] at final
    exact final.1
  · intro index below
    have found := getElem?_eq_getElem below
    rcases representativeAt index _ found with ⟨state, stateIs, mem, stateBelow⟩
    have row : result.outgoing index = (automaton.outgoing state).map fun entry =>
        (entry.1, (classOf classes entry.2).getD 0) := by
      apply outgoing_of_lookup
      rw [← resultIs, getElem?_map, stateIs, map_some]
    refine ⟨state, (class_of_some partition).mpr ⟨_, found, mem⟩, stateBelow, ?_, ?_, ?_⟩
    · rw [← resultIs, Finset.mem_filter, Finset.mem_range, getD_eq_getElem?_getD, stateIs,
        getD_some]
      exact and_iff_right below
    · rw [row, map_map]
      rfl
    · intro letter target
      rw [row, mem_map]
      constructor
      · rintro ⟨⟨label, next⟩, step, same⟩
        cases same
        rcases class_of_lt partition (inRange.targets state _ step) with ⟨class_, classIs⟩
        refine ⟨next, step, ?_⟩
        dsimp only at classIs ⊢
        rw [classIs, getD_some]
      · rintro ⟨next, step, classIs⟩
        refine ⟨_, step, ?_⟩
        dsimp only
        rw [classIs, getD_some]
  · rw [← resultIs]
  · rw [← resultIs]
  · rw [← resultIs]

theorem Quotient.letters (quotient : Quotient automaton classes result) (index : Nat) : result.outgoing index = [] ∨ ∃ state < automaton.nbStates,
    (result.outgoing index).map Prod.fst = (automaton.outgoing state).map Prod.fst := by
  by_cases below : index < classes.length
  · rcases quotient.rows index below with ⟨picked, -, inside, -, letters, -⟩
    exact Or.inr ⟨picked, inside, letters⟩
  · left
    rw [← quotient.states] at below
    exact outgoing_out_of_range (not_lt.mp below)

/-! ### The language -/

section Quotients

variable (congruent : Congruent automaton classes) (quotient : Quotient automaton classes result)

include congruent quotient

theorem quotient_step {state index target : Nat} (inClass : classOf classes state = some index)
    {letter : Letter} : (letter, target) ∈ result.outgoing index ↔
      ∃ onward, (letter, onward) ∈ automaton.outgoing state ∧ classOf classes onward = some target := by
  have partition := congruent.partition
  rcases (class_of_some partition).mp inClass with ⟨class_, found, -⟩
  rcases quotient.rows index (List.getElem?_eq_some_iff.mp found).1 with ⟨picked, pickedIn, -, -, -, row⟩
  rw [row]
  have transfer : ∀ first second, Together classes first second →
      (∃ onward, (letter, onward) ∈ automaton.outgoing first ∧ classOf classes onward = some target) →
        ∃ onward, (letter, onward) ∈ automaton.outgoing second ∧ classOf classes onward = some target := by
    rintro first second together ⟨onward, step, onwardIs⟩
    rcases (class_of_some partition).mp onwardIs with ⟨set, setIs, mem⟩
    have inPre := mem_pre.mpr ⟨onward, mem, step⟩
    have stays := (congruent.stable letter first second together set (mem_of_getElem? setIs)).mp inPre
    rcases mem_pre.mp stays with ⟨other, otherIn, otherStep⟩
    exact ⟨other, otherStep, (class_of_some partition).mpr ⟨set, setIs, otherIn⟩⟩
  exact ⟨transfer _ _ (together_of_class partition pickedIn inClass),
    transfer _ _ (together_of_class partition inClass pickedIn)⟩

theorem quotient_final {state index : Nat} (inClass : classOf classes state = some index) :
    index ∈ result.finalStates ↔ state ∈ automaton.finalStates := by
  have partition := congruent.partition
  rcases (class_of_some partition).mp inClass with ⟨class_, found, -⟩
  rcases quotient.rows index (List.getElem?_eq_some_iff.mp found).1 with ⟨picked, pickedIn, -, final, -⟩
  rw [final]
  exact congruent.finals picked state (together_of_class partition pickedIn inClass)

theorem quotient_accepts (inRange : InRange automaton) {state index : Nat}
    (inClass : classOf classes state = some index) :
    acceptsAt result.nfa index = acceptsAt automaton.nfa state := by
  refine @languages_agree _ _ _ result.nfa automaton.nfa
    (fun index state => classOf classes state = some index) ?_ ?_ _ _ inClass
  · constructor
    · intro index state related final
      exact (quotient_final congruent quotient related).mp final
    · intro index state related letter target step _
      rcases (quotient_step congruent quotient related).mp step with ⟨onward, taken, onwardIs⟩
      exact ⟨onward, taken, onwardIs⟩
  · constructor
    · intro state index related final
      exact (quotient_final congruent quotient related).mpr final
    · intro state index related letter target step _
      rcases class_of_lt congruent.partition (inRange.targets state _ step) with ⟨image, imageIs⟩
      exact ⟨image, (quotient_step congruent quotient related).mpr ⟨target, step, imageIs⟩, imageIs⟩

theorem quotient_language (inRange : InRange automaton) : result.language = automaton.language := by
  rw [language_eq, language_eq]
  exact quotient_accepts congruent quotient inRange quotient.initial

theorem quotient_range : InRange result := by
  have partition := congruent.partition
  have below : ∀ state index, classOf classes state = some index → index < classes.length := by
    intro state index inClass
    rcases (class_of_some partition).mp inClass with ⟨class_, found, -⟩
    exact (List.getElem?_eq_some_iff.mp found).1
  refine ⟨?_, fun index final => ?_, ?_⟩
  · rw [quotient.states]
    exact below _ _ quotient.initial
  · rw [quotient.states]
    exact quotient.finals index final
  · rintro index ⟨letter, target⟩ step
    have inside := lt_of_outgoing step
    rw [quotient.states] at inside ⊢
    rcases quotient.rows index inside with ⟨picked, -, -, -, -, row⟩
    rcases (row letter target).mp step with ⟨onward, -, onwardIs⟩
    exact below _ _ onwardIs

theorem quotient_well_formed (wellFormed : WellFormed alphabetSize automaton)
    (deterministic : IsDeterministic automaton) : WellFormed alphabetSize result := by
  have letters := quotient.letters
  have entries : ∀ index, ∀ entry ∈ result.outgoing index, ∃ state target,
      (entry.1, target) ∈ automaton.outgoing state := by
    intro index entry step
    rcases letters index with none | ⟨state, -, same⟩
    · rw [none] at step
      exact absurd step not_mem_nil
    · have mem : entry.1 ∈ (automaton.outgoing state).map Prod.fst := by
        rw [← same]
        exact mem_map_of_mem step
      rcases mem_map.mp mem with ⟨⟨letter, target⟩, taken, rfl⟩
      exact ⟨state, target, taken⟩
  have uses : ∀ marker, result.Uses marker → automaton.Uses marker := by
    rintro marker ⟨index, entry, step, same⟩
    rcases entries index entry step with ⟨state, target, taken⟩
    exact ⟨state, _, taken, same⟩
  refine ⟨⟨quotient_range congruent quotient, ?_, fun _ index => ?_, fun flag index below letter read => ?_⟩,
    fun marker used => ?_⟩
  · intro index entry step
    rcases entries index entry step with ⟨state, target, taken⟩
    exact wellFormed.bytes state (entry.1, target) taken
  · rcases letters index with none | ⟨state, -, same⟩
    · rw [none]
      exact nodup_nil
    · rw [same]
      exact deterministic state
  · rw [quotient.complete] at flag
    rw [quotient.states] at below
    rcases quotient.rows index below with ⟨picked, -, inside, -, same, -⟩
    rcases wellFormed.complete flag picked inside letter ⟨read.1, uses _ read.2⟩ with ⟨target, taken⟩
    have mem : letter ∈ (result.outgoing index).map Prod.fst := by
      rw [same]
      exact mem_map_of_mem taken
    rcases mem_map.mp mem with ⟨⟨label, next⟩, step, rfl⟩
    exact ⟨next, step⟩
  · rw [quotient.markers]
    exact wellFormed.marked marker (uses marker used)

end Quotients

/-! ### Minimal automata -/

/-- Every state is reachable and words are accepted after every transition. -/
structure Trim (automaton : RawAutomaton) : Prop where
  reachable : ∀ state < automaton.nbStates, automaton.Reachable state
  useful : Useful automaton

/-- States that are live and accept different words; without a word only the initial state is left. -/
structure Minimal (automaton : RawAutomaton) : Prop where
  reachable : ∀ state < automaton.nbStates, automaton.Reachable state
  accepting : ∀ state < automaton.nbStates, (∃ word, word ∈ acceptsAt automaton.nfa state) ∨
    (automaton.language = 0 ∧ automaton.nbStates = 1)
  distinct : ∀ first < automaton.nbStates, ∀ second < automaton.nbStates,
    acceptsAt automaton.nfa first = acceptsAt automaton.nfa second → first = second

theorem Trim.accepting (trim : Trim automaton) (inRange : InRange automaton) {state : Nat}
    (below : state < automaton.nbStates) : (∃ word, word ∈ acceptsAt automaton.nfa state) ∨
      (automaton.language = 0 ∧ automaton.nbStates = 1) := by
  have entered : ∀ other < automaton.nbStates, other ≠ automaton.initialState →
      ∃ word, word ∈ acceptsAt automaton.nfa other := by
    intro other inside different
    rcases Relation.ReflTransGen.cases_tail (trim.reachable other inside) with same | ⟨source, -, edge⟩
    · exact absurd same different
    · exact trim.useful source edge.choose other edge.choose_spec
  by_cases some_ : ∃ word, word ∈ automaton.language
  · left
    by_cases first : state = automaton.initialState
    · rw [first]
      exact some_
    · exact entered state below first
  · have silent : automaton.outgoing automaton.initialState = [] := by
      apply eq_nil_iff_forall_not_mem.mpr
      rintro ⟨letter, target⟩ step
      rcases trim.useful _ letter target step with ⟨word, accepted⟩
      exact some_ ⟨letter :: word, cons_at.mpr ⟨target, step, accepted⟩⟩
    have only : ∀ other < automaton.nbStates, other = automaton.initialState := by
      intro other inside
      rcases Relation.ReflTransGen.cases_head (trim.reachable other inside) with same | ⟨next, edge, -⟩
      · exact same.symm
      · rcases edge with ⟨letter, step⟩
        rw [silent] at step
        exact absurd step not_mem_nil
    right
    constructor
    · apply Language.ext
      exact fun word => iff_of_false (fun accepted => some_ ⟨word, accepted⟩) (Language.notMem_zero word)
    · have zero := only 0 (by omega)
      by_contra more
      have one := only 1 (by have inside := inRange.initial; omega)
      omega

section

variable (congruent : Congruent automaton classes) (quotient : Quotient automaton classes result)
  (inRange : InRange automaton) (trim : Trim automaton)

include congruent quotient inRange trim

theorem quotient_trim : Trim result := by
  have partition := congruent.partition
  constructor
  · intro index below
    rw [quotient.states] at below
    rcases quotient.rows index below with ⟨state, inClass, inside, -⟩
    have reaches := trim.reachable state inside
    clear inside below
    induction reaches generalizing index with
    | refl =>
      have same := quotient.initial
      rw [inClass, Option.some.injEq] at same
      rw [same]
      exact Relation.ReflTransGen.refl
    | @tail source target _ edge ih =>
      rcases class_of_lt partition (inRange.edge edge).1 with ⟨before, beforeIs⟩
      rcases edge with ⟨letter, step⟩
      exact (ih before beforeIs).tail
        ⟨letter, (quotient_step congruent quotient beforeIs).mpr ⟨target, step, inClass⟩⟩
  · intro index letter target step
    have below := lt_of_outgoing step
    rw [quotient.states] at below
    rcases quotient.rows index below with ⟨state, -, -, -, -, row⟩
    rcases (row letter target).mp step with ⟨onward, taken, onwardIs⟩
    rw [quotient_accepts congruent quotient inRange onwardIs]
    exact trim.useful state letter onward taken

theorem quotient_minimal : Minimal result := by
  have partition := congruent.partition
  have trimmed := quotient_trim congruent quotient inRange trim
  refine ⟨trimmed.reachable, fun state below =>
    trimmed.accepting (quotient_range congruent quotient) below, fun first firstBelow second secondBelow same => ?_⟩
  rw [quotient.states] at firstBelow secondBelow
  rcases quotient.rows first firstBelow with ⟨firstState, firstIn, -⟩
  rcases quotient.rows second secondBelow with ⟨secondState, secondIn, inside, -⟩
  rw [quotient_accepts congruent quotient inRange firstIn,
    quotient_accepts congruent quotient inRange secondIn] at same
  rcases (class_of_some partition).mp firstIn with ⟨class_, found, mem⟩
  have together := congruent.respects trim.useful class_ (mem_of_getElem? found) firstState mem
    secondState (Finset.mem_range.mpr inside) same
  have again := (class_of_some partition).mpr ⟨class_, found, together⟩
  rw [secondIn, Option.some.injEq] at again
  exact again.symm

end

/-! ### Equal up to numbering -/

/-- A numbering of one automaton's states by those of another one. -/
structure Renumbers (renumber : Nat → Nat) (automaton other : RawAutomaton) : Prop where
  bijective : Set.BijOn renumber (Set.Iio automaton.nbStates) (Set.Iio other.nbStates)
  initial : renumber automaton.initialState = other.initialState
  finals : ∀ state < automaton.nbStates,
    renumber state ∈ other.finalStates ↔ state ∈ automaton.finalStates
  steps : ∀ state < automaton.nbStates, ∀ target < automaton.nbStates, ∀ letter,
    (letter, renumber target) ∈ other.outgoing (renumber state) ↔
      (letter, target) ∈ automaton.outgoing state

section Isomorphic

variable {other : RawAutomaton}

theorem reachable_counterpart (deterministic : IsDeterministic automaton)
    (otherDeterministic : IsDeterministic other) (useful : Useful automaton)
    (same : automaton.language = other.language) {state : Nat} (reachable : automaton.Reachable state) :
    ∃ image, other.Reachable image ∧
      acceptsAt automaton.nfa state = acceptsAt other.nfa image := by
  induction reachable with
  | refl => exact ⟨other.initialState, Relation.ReflTransGen.refl, same⟩
  | @tail source target _ edge ih =>
    rcases ih with ⟨image, imageReachable, agree⟩
    rcases edge with ⟨letter, step⟩
    rcases useful source letter target step with ⟨word, accepted⟩
    have again : letter :: word ∈ acceptsAt other.nfa image := by
      rw [← agree]
      exact cons_at.mpr ⟨target, step, accepted⟩
    rcases cons_at.mp again with ⟨next, nextStep, -⟩
    exact ⟨next, imageReachable.tail ⟨letter, nextStep⟩,
      targets_agree deterministic otherDeterministic agree step nextStep⟩

/-- Minimal automata for one language are equal up to the numbers of their states. -/
theorem minimal_renumbers (range : InRange automaton) (otherRange : InRange other)
    (deterministic : IsDeterministic automaton) (otherDeterministic : IsDeterministic other)
    (minimal : Minimal automaton) (otherMinimal : Minimal other) (useful : Useful automaton)
    (otherUseful : Useful other) (same : automaton.language = other.language) :
    ∃ renumber, Renumbers renumber automaton other := by
  have counterpart : ∀ state, ∃ image, state < automaton.nbStates →
      image < other.nbStates ∧ acceptsAt automaton.nfa state = acceptsAt other.nfa image := by
    intro state
    by_cases below : state < automaton.nbStates
    · rcases reachable_counterpart deterministic otherDeterministic useful same
        (minimal.reachable state below) with ⟨image, imageReachable, agree⟩
      exact ⟨image, fun _ => ⟨otherRange.reachable imageReachable, agree⟩⟩
    · exact ⟨0, fun inside => absurd inside below⟩
  choose renumber renumbers using counterpart
  have unique : ∀ state < automaton.nbStates, ∀ image < other.nbStates,
      acceptsAt automaton.nfa state = acceptsAt other.nfa image → renumber state = image := by
    intro state below image imageBelow agree
    have mine := renumbers state below
    exact otherMinimal.distinct _ mine.1 image imageBelow (mine.2.symm.trans agree)
  refine ⟨renumber, ⟨⟨?_, ?_, ?_⟩, ?_, ?_, ?_⟩⟩
  · exact fun state below => (renumbers state below).1
  · intro first firstBelow second secondBelow equal
    apply minimal.distinct first firstBelow second secondBelow
    rw [(renumbers first firstBelow).2, equal, (renumbers second secondBelow).2]
  · intro image imageBelow
    rcases reachable_counterpart otherDeterministic deterministic otherUseful same.symm
      (otherMinimal.reachable image imageBelow) with ⟨state, stateReachable, agree⟩
    have below := range.reachable stateReachable
    exact ⟨state, below, unique state below image imageBelow agree.symm⟩
  · exact unique _ range.initial _ otherRange.initial same
  · intro state below
    rw [← nil_at, ← nil_at, (renumbers state below).2]
  · intro state below target targetBelow letter
    have agree := (renumbers state below).2
    constructor
    · intro step
      rcases otherUseful _ letter _ step with ⟨word, accepted⟩
      have again : letter :: word ∈ acceptsAt automaton.nfa state := by
        rw [agree]
        exact cons_at.mpr ⟨_, step, accepted⟩
      rcases cons_at.mp again with ⟨next, nextStep, -⟩
      have nextAgree := targets_agree deterministic otherDeterministic agree nextStep step
      have equal := minimal.distinct next (range.targets state _ nextStep) target targetBelow
        (nextAgree.trans (renumbers target targetBelow).2.symm)
      rw [← equal]
      exact nextStep
    · intro step
      rcases useful state letter target step with ⟨word, accepted⟩
      have again : letter :: word ∈ acceptsAt other.nfa (renumber state) := by
        rw [← agree]
        exact cons_at.mpr ⟨target, step, accepted⟩
      rcases cons_at.mp again with ⟨next, nextStep, -⟩
      have nextAgree := targets_agree deterministic otherDeterministic agree step nextStep
      rw [unique target targetBelow next (otherRange.targets _ _ nextStep) nextAgree]
      exact nextStep

end Isomorphic

/-! ### Normal forms -/

/-- A byte is read with one marker only. -/
def OutputDeterministic (automaton : RawAutomaton) : Prop :=
  ∀ state, ((automaton.outgoing state).map fun entry => entry.1.char).Nodup

theorem insert_transitions (entries : List (Nat × Letter × Nat))
    {done : List ((Nat × UInt8) × (Nat × Nat))} (distinct : (done.map Prod.fst).Nodup) :
    entries.foldlM insertTransition done =
      if ((done.map Prod.fst) ++ entries.map fun entry => (entry.1, entry.2.1.char)).Nodup then
        some (done ++ entries.map fun entry =>
          ((entry.1, entry.2.1.char), (entry.2.2, entry.2.1.marker)))
      else none := by
  induction entries generalizing done with
  | nil =>
    rw [map_nil, append_nil, if_pos distinct, map_nil, append_nil]
    rfl
  | cons entry entries ih =>
    rw [foldlM_cons, insertTransition]
    by_cases repeated : (entry.1, entry.2.1.char) ∈ done.map Prod.fst
    · rw [if_pos repeated, if_neg]
      · rfl
      · intro nodup
        rw [map_cons] at nodup
        exact disjoint_of_nodup_append nodup repeated mem_cons_self
    · rw [if_neg repeated]
      have grown : ((done ++ [((entry.1, entry.2.1.char), (entry.2.2, entry.2.1.marker))]).map
          Prod.fst).Nodup := by
        rw [map_append, map_singleton, nodup_append]
        refine ⟨distinct, nodup_singleton _, ?_⟩
        rintro key inside _ single rfl
        rw [mem_singleton.mp single] at inside
        exact repeated inside
      simp only [some_bind]
      rw [ih grown]
      simp only [map_append, map_cons, map_nil, append_assoc, singleton_append]

structure Normalised (automaton : RawAutomaton) (normal : ScannerAutomaton.Automaton) : Prop where
  states : normal.nbStates = automaton.nbStates
  initial : normal.initialState = automaton.initialState
  finals : ∀ state, state ∈ normal.finalStates ↔ state ∈ automaton.finalStates
  transitions : ∀ source byte target marker, ((source, byte), (target, marker)) ∈ normal.transitions ↔
    (⟨byte, marker⟩, target) ∈ automaton.outgoing source

theorem mem_entries {transition : Nat × Letter × Nat} :
    transition ∈ (automaton.transitions.zipIdx.flatMap fun entry =>
      entry.1.map fun transition => (entry.2, transition.1, transition.2)) ↔
        transition.2 ∈ automaton.outgoing transition.1 := by
  rw [mem_flatMap]
  constructor
  · rintro ⟨⟨succ, index⟩, inside, mem⟩
    rcases mem_map.mp mem with ⟨taken, step, rfl⟩
    rw [outgoing_of_lookup (mem_zipIdx_iff_getElem?.mp inside)]
    exact step
  · intro step
    exact ⟨(automaton.outgoing transition.1, transition.1),
      mem_zipIdx_iff_getElem?.mpr (lookup_of_lt (lt_of_outgoing step)),
      mem_map.mpr ⟨transition.2, step, rfl⟩⟩

theorem keys_nodup : ((automaton.transitions.zipIdx.flatMap fun entry =>
      entry.1.map fun transition => (entry.2, transition.1, transition.2)).map fun entry =>
        (entry.1, entry.2.1.char)).Nodup ↔ OutputDeterministic automaton := by
  rw [map_flatMap, nodup_flatMap]
  have rows : ∀ succ : List (Letter × Nat), ∀ index : Nat,
      ((succ.map fun transition => (index, transition.1, transition.2)).map fun entry =>
        (entry.1, entry.2.1.char)) = (succ.map fun entry => entry.1.char).map fun byte => (index, byte) := by
    intro succ index
    rw [map_map, map_map]
    rfl
  constructor
  · rintro ⟨each, -⟩ state
    by_cases below : state < automaton.nbStates
    · have here := each (automaton.outgoing state, state)
        (mem_zipIdx_iff_getElem?.mpr (lookup_of_lt below))
      dsimp only at here
      rw [rows] at here
      exact here.of_map
    · rw [outgoing_out_of_range (not_lt.mp below)]
      exact nodup_nil
  · intro deterministic
    constructor
    · rintro ⟨succ, index⟩ inside
      have single := deterministic index
      rw [outgoing_of_lookup (mem_zipIdx_iff_getElem?.mp inside)] at single
      dsimp only at single ⊢
      rw [rows]
      exact single.map fun first second same => congrArg Prod.snd same
    · have indices : (automaton.transitions.zipIdx.map Prod.snd).Nodup := by
        rw [zipIdx_map_snd]
        exact nodup_range'
      have pairs := pairwise_map.mp indices
      apply pairs.imp
      intro first second different key inFirst inSecond
      rcases mem_map.mp inFirst with ⟨entry, entryIn, rfl⟩
      rcases mem_map.mp inSecond with ⟨other, otherIn, same⟩
      rcases mem_map.mp entryIn with ⟨transition, -, rfl⟩
      rcases mem_map.mp otherIn with ⟨otherTransition, -, rfl⟩
      exact different (congrArg Prod.fst same).symm

/-- The bytes are below the size of the alphabet that the normal form works with. -/
theorem byte_below_max {state : Nat} {entry : Letter × Nat} (step : entry ∈ automaton.outgoing state) :
    entry.1.char.toNat < ((automaton.transitions.flatten.map fun entry =>
      entry.1.char.toNat + 1).max?).getD 0 := by
  have mem : entry.1.char.toNat + 1 ∈ automaton.transitions.flatten.map fun entry =>
      entry.1.char.toNat + 1 :=
    mem_map.mpr ⟨entry, mem_flatten.mpr
      ⟨_, outgoing_mem (lt_of_outgoing step), step⟩, rfl⟩
  cases largest : (automaton.transitions.flatten.map fun entry => entry.1.char.toNat + 1).max? with
  | none =>
    rw [max?_eq_none_iff] at largest
    rw [largest] at mem
    exact absurd mem not_mem_nil
  | some bound =>
    rw [getD_some]
    exact (max?_eq_some_iff.mp largest).2 _ mem

theorem normalise_normalises (inRange : InRange automaton) (flag : automaton.deterministic = true)
    (deterministic : IsDeterministic automaton) (marked : Marked automaton) :
    ∃ base classes, Congruent automaton classes ∧ Quotient automaton classes base ∧
      (OutputDeterministic base → ∃ normal, automaton.normalise order = some normal ∧
        Normalised base normal) ∧
      ∀ normal, automaton.normalise order = some normal →
        OutputDeterministic base ∧ Normalised base normal := by
  generalize sizeIs : ((automaton.transitions.flatten.map fun entry =>
    entry.1.char.toNat + 1).max?).getD 0 = size
  rcases @minimise_quotient order automaton size inRange flag deterministic (fun state entry step => by
    refine ⟨?_, marked _ ⟨state, entry, step, rfl⟩⟩
    rw [← sizeIs]
    exact byte_below_max step) with ⟨base, classes, minimised, congruent, quotient⟩
  have determinised : automaton.determinise order false size = some automaton := by
    unfold determinise
    rw [flag]
    rfl
  generalize entriesAre : (base.transitions.zipIdx.flatMap fun entry =>
    entry.1.map fun transition => (entry.2, transition.1, transition.2)) = entries
  have single : (entries.map fun entry => (entry.1, entry.2.1.char)).Nodup ↔ OutputDeterministic base := by
    rw [← entriesAre]
    exact keys_nodup
  have run : automaton.normalise order =
      if (entries.map fun entry => (entry.1, entry.2.1.char)).Nodup then some {
        nbStates := base.nbStates
        initialState := base.initialState
        finalStates := order.elements base.finalStates
        transitions := order.arrange (entries.map fun entry =>
          ((entry.1, entry.2.1.char), (entry.2.2, entry.2.1.marker))) }
      else none := by
    unfold normalise
    dsimp only
    rw [sizeIs, determinised]
    simp only [some_bind, minimised, entriesAre]
    rw [@insert_transitions entries [] nodup_nil, map_nil, nil_append, nil_append]
    split_ifs
    · rfl
    · rfl
  have shows : Normalised base {
      nbStates := base.nbStates
      initialState := base.initialState
      finalStates := order.elements base.finalStates
      transitions := order.arrange (entries.map fun entry =>
        ((entry.1, entry.2.1.char), (entry.2.2, entry.2.1.marker))) } := by
    refine ⟨rfl, rfl, fun state => order.mem_elements, fun source byte target marker => ?_⟩
    rw [order.mem_arrange, mem_map]
    constructor
    · rintro ⟨⟨state, letter, onward⟩, mem, same⟩
      cases same
      rw [← entriesAre] at mem
      exact mem_entries.mp mem
    · intro step
      refine ⟨(source, ⟨byte, marker⟩, target), ?_, rfl⟩
      rw [← entriesAre]
      exact mem_entries.mpr step
  refine ⟨base, classes, congruent, quotient, fun outputs => ?_, fun normal found => ?_⟩
  · rw [run, if_pos (single.mpr outputs)]
    exact ⟨_, rfl, shows⟩
  · rw [run] at found
    split_ifs at found with distinct
    cases found
    exact ⟨single.mp distinct, shows⟩

/-- Normal forms that are equal up to the numbers of their states. -/
def Renumbered (normal other : ScannerAutomaton.Automaton) : Prop :=
  ∃ renumber : Nat → Nat, Set.BijOn renumber (Set.Iio normal.nbStates) (Set.Iio other.nbStates) ∧
    renumber normal.initialState = other.initialState ∧
    (∀ state < normal.nbStates, renumber state ∈ other.finalStates ↔ state ∈ normal.finalStates) ∧
    ∀ source < normal.nbStates, ∀ target < normal.nbStates, ∀ byte marker,
      ((renumber source, byte), (renumber target, marker)) ∈ other.transitions ↔
        ((source, byte), (target, marker)) ∈ normal.transitions

theorem Normalised.renumbered {other : RawAutomaton} {normal otherNormal : ScannerAutomaton.Automaton}
    (normalised : Normalised automaton normal) (otherNormalised : Normalised other otherNormal)
    {renumber : Nat → Nat} (renumbers : Renumbers renumber automaton other) :
    Renumbered normal otherNormal := by
  refine ⟨renumber, ?_, ?_, fun state below => ?_, fun source sourceBelow target targetBelow byte marker => ?_⟩
  · rw [normalised.states, otherNormalised.states]
    exact renumbers.bijective
  · rw [normalised.initial, otherNormalised.initial]
    exact renumbers.initial
  · rw [normalised.states] at below
    rw [normalised.finals, otherNormalised.finals]
    exact renumbers.finals state below
  · rw [normalised.states] at sourceBelow targetBelow
    rw [normalised.transitions, otherNormalised.transitions]
    exact renumbers.steps source sourceBelow target targetBelow _

theorem Renumbers.outputs {other : RawAutomaton} {renumber : Nat → Nat}
    (renumbers : Renumbers renumber automaton other) (otherRange : InRange other)
    (otherDeterministic : IsDeterministic other) (outputs : OutputDeterministic automaton) :
    OutputDeterministic other := by
  intro image
  by_cases below : image < other.nbStates
  · rcases renumbers.bijective.surjOn below with ⟨state, stateBelow, rfl⟩
    have back : ∀ entry ∈ other.outgoing (renumber state), ∃ target < automaton.nbStates,
        renumber target = entry.2 ∧ (entry.1, target) ∈ automaton.outgoing state := by
      rintro ⟨letter, onward⟩ step
      have onwardBelow := otherRange.targets _ _ step
      rcases renumbers.bijective.surjOn onwardBelow with ⟨target, targetBelow, same⟩
      dsimp only at same
      subst same
      exact ⟨target, targetBelow, rfl, (renumbers.steps state stateBelow target targetBelow letter).mp step⟩
    have distinct := (otherDeterministic (renumber state)).of_map
    apply distinct.map_on
    intro first firstIn second secondIn same
    rcases back first firstIn with ⟨firstTarget, -, firstIs, firstStep⟩
    rcases back second secondIn with ⟨secondTarget, -, secondIs, secondStep⟩
    have equal := inj_on_of_nodup_map (outputs state) firstStep secondStep same
    rw [Prod.mk.injEq] at equal
    apply Prod.ext
    · exact equal.1
    · rw [← firstIs, ← secondIs, equal.2]
  · rw [outgoing_out_of_range (not_lt.mp below)]
    exact nodup_nil

/-- The language and its markings are kept; a trim automaton becomes minimal, and its normal form is
determined by its language up to the numbers of the states. -/
theorem minimise_minimal (order otherOrder : HashOrder) (alphabetSize : Nat) (automaton : RawAutomaton)
    (wellFormed : WellFormed alphabetSize automaton) (flag : automaton.deterministic = true) :
    (∃ result, automaton.minimise order alphabetSize = some result ∧
      result.language = automaton.language ∧ (Trim automaton → Minimal result)) ∧
    ∀ other, WellFormed alphabetSize other → other.deterministic = true → Trim automaton → Trim other →
      automaton.language = other.language → ∀ normal, automaton.normalise order = some normal →
        ∃ otherNormal, other.normalise otherOrder = some otherNormal ∧ Renumbered normal otherNormal := by
  have inRange := wellFormed.toInRange
  have deterministic := wellFormed.deterministic flag
  constructor
  · rcases @minimise_quotient order automaton alphabetSize inRange flag deterministic
      (wellFormed.toSound.fits wellFormed.marked) with ⟨result, classes, found, congruent, quotient⟩
    exact ⟨result, found, quotient_language congruent quotient inRange,
      quotient_minimal congruent quotient inRange⟩
  · intro other otherWellFormed otherFlag trim otherTrim same normal found
    have otherRange := otherWellFormed.toInRange
    have otherDeterministic := otherWellFormed.deterministic otherFlag
    rcases @normalise_normalises order automaton inRange flag deterministic wellFormed.marked with
      ⟨base, classes, congruent, quotient, -, shows⟩
    rcases @normalise_normalises otherOrder other otherRange otherFlag otherDeterministic
      otherWellFormed.marked with ⟨otherBase, otherClasses, otherCongruent, otherQuotient, normalises, -⟩
    have baseFormed := quotient_well_formed congruent quotient wellFormed deterministic
    have otherBaseFormed := quotient_well_formed otherCongruent otherQuotient otherWellFormed
      otherDeterministic
    have baseDeterministic := baseFormed.deterministic quotient.deterministic
    have otherBaseDeterministic := otherBaseFormed.deterministic otherQuotient.deterministic
    have languages : base.language = otherBase.language := by
      rw [quotient_language congruent quotient inRange,
        quotient_language otherCongruent otherQuotient otherRange, same]
    rcases minimal_renumbers baseFormed.toInRange otherBaseFormed.toInRange baseDeterministic
      otherBaseDeterministic (quotient_minimal congruent quotient inRange trim)
      (quotient_minimal otherCongruent otherQuotient otherRange otherTrim)
      (quotient_trim congruent quotient inRange trim).useful
      (quotient_trim otherCongruent otherQuotient otherRange otherTrim).useful languages with
      ⟨renumber, renumbers⟩
    rcases shows normal found with ⟨outputs, normalised⟩
    rcases normalises (renumbers.outputs otherBaseFormed.toInRange otherBaseDeterministic outputs) with
      ⟨otherNormal, otherFound, otherNormalised⟩
    exact ⟨otherNormal, otherFound, normalised.renumbered otherNormalised renumbers⟩

/-! ### Numbers that differ -/

def lasso (targets : List Nat) (final : Nat) : RawAutomaton where
  deterministic := true
  complete := false
  initialState := 0
  finalStates := {final}
  transitions := targets.map fun target => [(Letter.ofByte 0, target)]
  markers := {0}

section Lassos

variable {targets : List Nat} {final : Nat}

theorem lasso_step {state target : Nat} {letter : Letter} :
    (letter, target) ∈ (lasso targets final).outgoing state ↔
      letter = Letter.ofByte 0 ∧ targets[state]? = some target := by
  unfold outgoing lasso
  rw [getElem?_map]
  cases targets[state]? with
  | none => exact iff_of_false not_mem_nil nofun
  | some next =>
    rw [map_some, getD_some, mem_singleton, Prod.mk.injEq, Option.some.injEq]
    exact and_congr_right fun _ => eq_comm

theorem lasso_edge {state target : Nat} (next : targets[state]? = some target) :
    (lasso targets final).Edge state target := ⟨_, lasso_step.mpr ⟨rfl, next⟩⟩

theorem lasso_well_formed (some_ : 0 < targets.length) (finalBelow : final < targets.length)
    (below : ∀ target ∈ targets, target < targets.length) : WellFormed 1 (lasso targets final) := by
  have count : (lasso targets final).nbStates = targets.length := length_map _
  refine ⟨⟨⟨?_, ?_, ?_⟩, ?_, fun _ state => ?_, nofun⟩, ?_⟩
  · rw [count]
    exact some_
  · intro state mem
    rw [count, Finset.mem_singleton.mp mem]
    exact finalBelow
  · rintro state ⟨letter, target⟩ step
    rw [count]
    exact below target (mem_of_getElem? (lasso_step.mp step).2)
  · rintro state ⟨letter, target⟩ step
    rw [(lasso_step.mp step).1]
    exact Nat.zero_lt_one
  · unfold outgoing lasso
    rw [getElem?_map]
    cases targets[state]? with
    | none => exact nodup_nil
    | some next => exact nodup_singleton _
  · rintro marker ⟨state, ⟨letter, target⟩, step, same⟩
    rw [← same, (lasso_step.mp step).1]
    exact Finset.mem_singleton_self 0

/-- The states in a row, and the final one is reached from all of them. -/
theorem lasso_trim (row : ∀ state, state + 1 < targets.length → targets[state]? = some (state + 1))
    (onward : ∀ target ∈ targets,
      Relation.ReflTransGen (lasso targets final).Edge target final) : Trim (lasso targets final) := by
  have count : (lasso targets final).nbStates = targets.length := length_map _
  constructor
  · intro state below
    rw [count] at below
    induction state with
    | zero => exact Relation.ReflTransGen.refl
    | succ state ih => exact (ih (by omega)).tail (lasso_edge (row state below))
  · intro source letter target step
    apply accepts_iff_reaches.mpr
    exact ⟨final, Finset.mem_singleton_self final,
      onward target (mem_of_getElem? (lasso_step.mp step).2)⟩

end Lassos

theorem short_lasso_trim : Trim (lasso [1, 2, 3, 2] 3) := by
  have two : Relation.ReflTransGen (lasso [1, 2, 3, 2] 3).Edge 2 3 :=
    Relation.ReflTransGen.single (lasso_edge rfl)
  apply lasso_trim
  · intro state below
    have small : state < 3 := Nat.lt_of_succ_lt_succ below
    interval_cases state <;> rfl
  · intro target mem
    have cases_ : target = 1 ∨ target = 2 ∨ target = 3 := by
      simp only [mem_cons, not_mem_nil, or_false] at mem
      omega
    rcases cases_ with rfl | rfl | rfl
    · exact Relation.ReflTransGen.head (lasso_edge rfl) two
    · exact two
    · exact Relation.ReflTransGen.refl

theorem long_lasso_trim : Trim (lasso [1, 2, 3, 4, 3] 3) := by
  have two : Relation.ReflTransGen (lasso [1, 2, 3, 4, 3] 3).Edge 2 3 :=
    Relation.ReflTransGen.single (lasso_edge rfl)
  apply lasso_trim
  · intro state below
    have small : state < 4 := Nat.lt_of_succ_lt_succ below
    interval_cases state <;> rfl
  · intro target mem
    have cases_ : target = 1 ∨ target = 2 ∨ target = 3 ∨ target = 4 := by
      simp only [mem_cons, not_mem_nil, or_false] at mem
      omega
    rcases cases_ with rfl | rfl | rfl | rfl
    · exact Relation.ReflTransGen.head (lasso_edge rfl) two
    · exact two
    · exact Relation.ReflTransGen.refl
    · exact Relation.ReflTransGen.single (lasso_edge rfl)

theorem lasso_simulates {targets others : List Nat} {final : Nat} (related : List (Nat × Nat))
    (ends : ∀ pair ∈ related, pair.1 = final → pair.2 = final)
    (follows : ∀ pair ∈ related, ∀ target ∈ targets[pair.1]?,
      ∃ image ∈ others[pair.2]?, (target, image) ∈ related) :
    Simulates (lasso targets final).nfa (lasso others final).nfa
      fun state other => (state, other) ∈ related where
  accept := fun state other mem last =>
    Finset.mem_singleton.mpr (ends (state, other) mem (Finset.mem_singleton.mp last))
  step := by
    intro state other mem letter target step _
    rcases lasso_step.mp step with ⟨rfl, next⟩
    rcases follows (state, other) mem target next with ⟨image, found, inside⟩
    exact ⟨image, lasso_step.mpr ⟨rfl, found⟩, inside⟩

theorem lassos_agree : (lasso [1, 2, 3, 2] 3).language = (lasso [1, 2, 3, 4, 3] 3).language := by
  have forth := @lasso_simulates [1, 2, 3, 2] [1, 2, 3, 4, 3] 3
    [(0, 0), (1, 1), (2, 2), (3, 3), (2, 4)] (by decide) (by decide)
  have back := @lasso_simulates [1, 2, 3, 4, 3] [1, 2, 3, 2] 3
    [(0, 0), (1, 1), (2, 2), (3, 3), (4, 2)] (by decide) (by decide)
  apply Language.ext
  intro word
  exact ⟨forth.le mem_cons_self, back.le mem_cons_self⟩

theorem short_lasso_well_formed : WellFormed 1 (lasso [1, 2, 3, 2] 3) :=
  lasso_well_formed (by decide) (by decide) (by decide)

theorem long_lasso_well_formed : WellFormed 1 (lasso [1, 2, 3, 4, 3] 3) :=
  lasso_well_formed (by decide) (by decide) (by decide)

/-- A state that is not reachable stays, and two automata for one language get different numbers. -/
theorem normal_forms_differ :
    (WellFormed 2 (byteConcat [[]] 2) ∧ ∃ result,
      (byteConcat [[]] 2).minimise HashOrder.inOrder 2 = some result ∧ ¬ Minimal result) ∧
    WellFormed 1 (lasso [1, 2, 3, 2] 3) ∧ WellFormed 1 (lasso [1, 2, 3, 4, 3] 3) ∧
      Trim (lasso [1, 2, 3, 2] 3) ∧ Trim (lasso [1, 2, 3, 4, 3] 3) ∧
      (lasso [1, 2, 3, 2] 3).language = (lasso [1, 2, 3, 4, 3] 3).language ∧
      ∃ normal otherNormal, (lasso [1, 2, 3, 2] 3).normalise HashOrder.inOrder = some normal ∧
        (lasso [1, 2, 3, 4, 3] 3).normalise HashOrder.inOrder = some otherNormal ∧
          normal.initialState ≠ otherNormal.initialState := by
  constructor
  · constructor
    · refine ⟨byte_concat_sound.mpr fun byteRange mem => ?_, byte_concat_marked⟩
      rw [mem_singleton.mp mem]
      exact nodup_nil
    · have run : (byteConcat [[]] 2).minimise HashOrder.inOrder 2 = some {
          deterministic := true
          complete := false
          initialState := 1
          finalStates := {0}
          transitions := [[], []]
          markers := ∅ } := by decide
      refine ⟨_, run, fun minimal => ?_⟩
      rcases Relation.ReflTransGen.cases_head (minimal.reachable 0 (by decide)) with same | ⟨next, edge, -⟩
      · exact absurd same Nat.one_ne_zero
      · rcases edge with ⟨letter, step⟩
        exact absurd step not_mem_nil
  · refine ⟨short_lasso_well_formed, long_lasso_well_formed, short_lasso_trim, long_lasso_trim,
      lassos_agree, ?_⟩
    have short : (lasso [1, 2, 3, 2] 3).normalise HashOrder.inOrder = some {
        nbStates := 4
        initialState := 3
        finalStates := [0]
        transitions := [((0, 0), (1, 0)), ((1, 0), (0, 0)), ((2, 0), (1, 0)), ((3, 0), (2, 0))] } := by
      decide
    have long : (lasso [1, 2, 3, 4, 3] 3).normalise HashOrder.inOrder = some {
        nbStates := 4
        initialState := 2
        finalStates := [0]
        transitions := [((0, 0), (1, 0)), ((1, 0), (0, 0)), ((2, 0), (3, 0)), ((3, 0), (1, 0))] } := by
      decide
    exact ⟨_, _, short, long, by decide⟩

/-- The normal forms of these automata are equal up to the numbers of their states. -/
theorem lassos_renumbered : WellFormed 1 (lasso [1, 2, 3, 2] 3) ∧
    ∃ normal otherNormal, (lasso [1, 2, 3, 2] 3).normalise HashOrder.inOrder = some normal ∧
      (lasso [1, 2, 3, 4, 3] 3).normalise HashOrder.inOrder = some otherNormal ∧
        Renumbered normal otherNormal := by
  have both := minimise_minimal HashOrder.inOrder HashOrder.inOrder 1 (lasso [1, 2, 3, 2] 3)
    short_lasso_well_formed rfl
  have some_ : ((lasso [1, 2, 3, 2] 3).normalise HashOrder.inOrder).isSome := by decide
  rcases Option.isSome_iff_exists.mp some_ with ⟨normal, found⟩
  rcases both.2 (lasso [1, 2, 3, 4, 3] 3) long_lasso_well_formed rfl short_lasso_trim long_lasso_trim
    lassos_agree normal found with ⟨otherNormal, otherFound, renumbered⟩
  exact ⟨short_lasso_well_formed, normal, otherNormal, found, otherFound, renumbered⟩

end Midfall.RawAutomata.RawAutomaton
