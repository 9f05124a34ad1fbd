import Midfall.AutomatonLanguages
import Midfall.ListLoops
import Midfall.RawAutomata

/-!
# Graphs of raw automata

The language of a raw automaton, its states in range, and what renaming the
states and removing the dead ones preserve.
-/

namespace Midfall.RawAutomata

open AutomatonLanguages Worklists List
open Option (any_some bind_eq_bind bind_some getD_none getD_some map_some)

variable {Entry : Type}

section

variable (order : HashOrder)

include order

theorem HashOrder.mem_arrange {entries : List Entry} {entry : Entry} :
    entry ∈ order.arrange entries ↔ entry ∈ entries :=
  (order.perm entries).mem_iff

theorem HashOrder.nodup_arrange {entries : List Entry} :
    (order.arrange entries).Nodup ↔ entries.Nodup :=
  (order.perm entries).nodup_iff

theorem HashOrder.length_arrange (entries : List Entry) :
    (order.arrange entries).length = entries.length :=
  (order.perm entries).length_eq

theorem HashOrder.mem_elements {set : Finset Nat} {element : Nat} :
    element ∈ order.elements set ↔ element ∈ set := by
  unfold HashOrder.elements
  rw [order.mem_arrange, mem_filter, mem_range, decide_eq_true_iff]
  constructor
  · exact fun mem => mem.2
  · intro mem
    have below : id element ≤ set.sup id := Finset.le_sup mem
    exact ⟨Nat.lt_succ_of_le below, mem⟩

theorem HashOrder.nodup_elements (set : Finset Nat) : (order.elements set).Nodup := by
  unfold HashOrder.elements
  rw [order.nodup_arrange]
  exact nodup_range.filter _

theorem HashOrder.length_elements (set : Finset Nat) : (order.elements set).length = set.card := by
  rw [← toFinset_card_of_nodup (order.nodup_elements set)]
  congr 1
  ext element
  rw [mem_toFinset, order.mem_elements]

end

namespace RawAutomaton

variable {order : HashOrder} {automaton : RawAutomaton}

/-! ### Languages -/

/-- The transitions of a state; none out of range. -/
def outgoing (automaton : RawAutomaton) (state : Nat) : List (Letter × Nat) :=
  (automaton.transitions[state]?).getD []

def nfa (automaton : RawAutomaton) : NFA Letter Nat where
  step := fun state letter => {target | (letter, target) ∈ automaton.outgoing state}
  start := {automaton.initialState}
  accept := {state | state ∈ automaton.finalStates}

def language (automaton : RawAutomaton) : Language Letter := automaton.nfa.accepts

/-- The byte words that are accepted under some marking. -/
def byteLanguage (automaton : RawAutomaton) : Language UInt8 :=
  Language.map Letter.char automaton.language

theorem language_eq : automaton.language = acceptsAt automaton.nfa automaton.initialState := rfl

theorem mem_byte_language {bytes : List UInt8} :
    bytes ∈ automaton.byteLanguage ↔ ∃ word ∈ automaton.language, word.map Letter.char = bytes :=
  Iff.rfl

variable {state target : Nat}

variable {letter : Letter}

theorem mem_step :
    target ∈ automaton.nfa.step state letter ↔ (letter, target) ∈ automaton.outgoing state := Iff.rfl

theorem mem_accept : state ∈ automaton.nfa.accept ↔ state ∈ automaton.finalStates :=
  Iff.rfl

theorem nil_at :
    [] ∈ acceptsAt automaton.nfa state ↔ state ∈ automaton.finalStates := nil_accepted

theorem cons_at {word : List Letter} :
    letter :: word ∈ acceptsAt automaton.nfa state ↔
      ∃ target, (letter, target) ∈ automaton.outgoing state ∧ word ∈ acceptsAt automaton.nfa target :=
  cons_accepted

variable {succ : List (Letter × Nat)}

theorem outgoing_of_lookup (found : automaton.transitions[state]? = some succ) :
    automaton.outgoing state = succ := by
  unfold outgoing
  rw [found, getD_some]

theorem lookup_of_lt (inside : state < automaton.nbStates) :
    automaton.transitions[state]? = some (automaton.outgoing state) := by
  unfold outgoing
  rw [getElem?_eq_getElem inside, getD_some]

theorem outgoing_out_of_range (outside : automaton.nbStates ≤ state) :
    automaton.outgoing state = [] := by
  unfold outgoing
  rw [getElem?_eq_none outside, getD_none]

theorem lt_of_outgoing {entry : Letter × Nat} (mem : entry ∈ automaton.outgoing state) :
    state < automaton.nbStates := by
  by_contra outside
  rw [outgoing_out_of_range (not_lt.mp outside)] at mem
  exact absurd mem not_mem_nil

theorem outgoing_mem (inside : state < automaton.nbStates) :
    automaton.outgoing state ∈ automaton.transitions := mem_of_getElem? (lookup_of_lt inside)

theorem exists_source (mem : succ ∈ automaton.transitions) :
    ∃ state, state < automaton.nbStates ∧ automaton.outgoing state = succ := by
  rcases mem_iff_getElem.mp mem with ⟨state, inside, found⟩
  refine ⟨state, inside, outgoing_of_lookup ?_⟩
  rw [getElem?_eq_getElem inside, found]

/-- Every state is an index of the transition table. -/
structure InRange (automaton : RawAutomaton) : Prop where
  initial : automaton.initialState < automaton.nbStates
  finals : ∀ state ∈ automaton.finalStates, state < automaton.nbStates
  targets : ∀ state, ∀ entry ∈ automaton.outgoing state, entry.2 < automaton.nbStates

theorem InRange.all_targets (inRange : InRange automaton) :
    ∀ succ ∈ automaton.transitions, ∀ entry ∈ succ, entry.2 < automaton.nbStates := by
  intro succ mem entry inside
  rcases exists_source mem with ⟨state, -, rfl⟩
  exact inRange.targets state entry inside

/-! ### Reachability -/

/-- A transition without its letter. -/
def Edge (automaton : RawAutomaton) (source target : Nat) : Prop :=
  ∃ letter, (letter, target) ∈ automaton.outgoing source

def Reachable (automaton : RawAutomaton) (state : Nat) : Prop :=
  Relation.ReflTransGen automaton.Edge automaton.initialState state

theorem accepts_iff_reaches :
    (∃ word, word ∈ acceptsAt automaton.nfa state) ↔
      ∃ last ∈ automaton.finalStates, Relation.ReflTransGen automaton.Edge state last := by
  constructor
  · rintro ⟨word, accepted⟩
    induction word generalizing state with
    | nil => exact ⟨state, nil_at.mp accepted, Relation.ReflTransGen.refl⟩
    | cons letter word ih =>
      rcases cons_at.mp accepted with ⟨target, step, rest⟩
      rcases ih rest with ⟨last, final, reaches⟩
      exact ⟨last, final, Relation.ReflTransGen.head ⟨letter, step⟩ reaches⟩
  · rintro ⟨last, final, reaches⟩
    induction reaches using Relation.ReflTransGen.head_induction_on with
    | refl => exact ⟨[], nil_at.mpr final⟩
    | head edge _ ih =>
      rcases ih with ⟨word, accepted⟩
      rcases edge with ⟨letter, step⟩
      exact ⟨letter :: word, cons_at.mpr ⟨_, step, accepted⟩⟩

theorem InRange.edge (inRange : InRange automaton) {source : Nat}
    (edge : automaton.Edge source target) :
    source < automaton.nbStates ∧ target < automaton.nbStates := by
  rcases edge with ⟨letter, step⟩
  exact ⟨lt_of_outgoing step, inRange.targets source _ step⟩

theorem InRange.reachable (inRange : InRange automaton) (reachable : automaton.Reachable state) :
    state < automaton.nbStates := by
  rcases Relation.ReflTransGen.cases_tail reachable with rfl | ⟨source, -, edge⟩
  · exact inRange.initial
  · exact (inRange.edge edge).2

theorem length_le_nb_transitions (state : Nat) :
    (automaton.outgoing state).length ≤ automaton.nbTransitions := by
  by_cases inside : state < automaton.nbStates
  · exact le_sum_of_mem (mem_map_of_mem (outgoing_mem inside))
  · rw [outgoing_out_of_range (not_lt.mp inside)]
    exact Nat.zero_le _

theorem mem_forward_edges {source : Nat} (inside : source < automaton.nbStates) :
    ∃ targets, automaton.forwardEdges order source = some targets ∧
      targets.length ≤ automaton.nbTransitions ∧
        ∀ target, target ∈ targets ↔ automaton.Edge source target := by
  refine ⟨_, by rw [forwardEdges, lookup_of_lt inside, map_some], ?_, fun target => ?_⟩
  · rw [order.length_arrange]
    refine le_trans (List.Sublist.length_le (dedup_sublist _)) ?_
    rw [length_map]
    exact length_le_nb_transitions source
  · rw [order.mem_arrange, mem_dedup, mem_map]
    constructor
    · rintro ⟨entry, step, rfl⟩
      exact ⟨entry.1, step⟩
    · rintro ⟨letter, step⟩
      exact ⟨(letter, target), step, rfl⟩

theorem mem_backward_edges {source : Nat} :
    source ∈ automaton.backwardEdges order target ↔ automaton.Edge source target := by
  unfold backwardEdges
  rw [order.mem_arrange, mem_filter, mem_range]
  constructor
  · rintro ⟨inside, some_⟩
    rw [lookup_of_lt inside, any_some, any_eq_true] at some_
    rcases some_ with ⟨entry, step, same⟩
    rw [decide_eq_true_iff] at same
    exact ⟨entry.1, by rw [← same]; exact step⟩
  · rintro ⟨letter, step⟩
    have inside := lt_of_outgoing step
    refine ⟨inside, ?_⟩
    rw [lookup_of_lt inside, any_some, any_eq_true]
    exact ⟨(letter, target), step, decide_eq_true rfl⟩

theorem mem_live_states (inRange : InRange automaton) :
    ∃ live, automaton.liveStates order = some live ∧ live.Nodup ∧
      ∀ state, state ∈ live ↔
        automaton.Reachable state ∧ ∃ word, word ∈ acceptsAt automaton.nfa state := by
  have states : ∀ state ∈ Finset.range automaton.nbStates, ∃ targets,
      automaton.forwardEdges order state = some targets ∧
        targets.length ≤ automaton.nbTransitions ∧
          ∀ target ∈ targets, target ∈ Finset.range automaton.nbStates := by
    intro state inside
    rcases @mem_forward_edges order automaton state (Finset.mem_range.mp inside) with
      ⟨targets, found, short, mem⟩
    exact ⟨targets, found, short, fun target member =>
      Finset.mem_range.mpr (inRange.edge ((mem target).mp member)).2⟩
  have firstRun := @explore_some _ _ (automaton.forwardEdges order)
    (Finset.range automaton.nbStates) automaton.nbTransitions states
    (1 + automaton.nbStates * automaton.nbTransitions) [automaton.initialState] []
    (fun state member => by
      rw [mem_singleton.mp member, Finset.mem_range]
      exact inRange.initial)
    (fun state member => absurd member not_mem_nil) nodup_nil
    (by rw [length_singleton, length_nil, Finset.card_range, Nat.sub_zero])
  rcases firstRun with ⟨reachable, forward⟩
  have reached : ∀ state, state ∈ reachable ↔ automaton.Reachable state := by
    intro state
    rw [mem_explore forward]
    constructor
    · intro reaches
      induction reaches with
      | refl => exact Relation.ReflTransGen.refl
      | @tail source target _ leads ih =>
        rcases leads with ⟨targets, found, member⟩
        rcases @mem_forward_edges order automaton source (inRange.reachable ih) with
          ⟨others, same, -, mem⟩
        rw [found] at same
        cases same
        exact ih.tail ((mem target).mp member)
    · intro reaches
      induction reaches with
      | refl => exact Relation.ReflTransGen.refl
      | @tail source target _ edge ih =>
        rcases @mem_forward_edges order automaton source (inRange.edge edge).1 with
          ⟨targets, found, -, mem⟩
        exact ih.tail ⟨targets, found, (mem target).mpr edge⟩
  have distinct := (explored_of_run forward).distinct nodup_nil
  generalize nextIs : (fun state => some (if state ∈ reachable then
    automaton.backwardEdges order state else [])) = next
  have nextAt : ∀ state, next state = some (if state ∈ reachable then
      automaton.backwardEdges order state else []) := fun state => by rw [← nextIs]
  have secondRun := @explore_some _ _ next
    (automaton.finalStates ∪ Finset.range automaton.nbStates) automaton.nbStates
    (fun state _ => by
      refine ⟨_, nextAt state, ?_, fun source member => ?_⟩
      · split_ifs with expanded
        · unfold backwardEdges
          rw [order.length_arrange]
          exact le_trans (length_filter_le _ _) (by rw [length_range])
        · exact Nat.zero_le _
      · split_ifs at member with expanded
        · exact Finset.mem_union_right _
            (Finset.mem_range.mpr (inRange.edge (mem_backward_edges.mp member)).1)
        · exact absurd member not_mem_nil)
    (automaton.finalStates.card + (automaton.nbStates + automaton.finalStates.card) *
      automaton.nbStates) (order.elements automaton.finalStates).reverse []
    (fun state member => Finset.mem_union_left _
      (order.mem_elements.mp (mem_reverse.mp member)))
    (fun state member => absurd member not_mem_nil) nodup_nil (by
      rw [length_reverse, order.length_elements, length_nil, Nat.sub_zero]
      refine Nat.add_le_add_left (Nat.mul_le_mul_right _ ?_) _
      refine le_trans (Finset.card_union_le _ _) ?_
      rw [Finset.card_range, Nat.add_comm])
  rcases secondRun with ⟨visited, backward⟩
  have explored := explored_of_run backward
  refine ⟨order.arrange (visited.filter fun state => state ∈ reachable), ?_, ?_, fun state => ?_⟩
  · unfold liveStates
    rw [if_pos inRange.all_targets, forward]
    simp only [bind_eq_bind, bind_some, nextIs, backward, Option.pure_def]
  · rw [order.nodup_arrange]
    exact (explored.distinct nodup_nil).filter _
  · rw [order.mem_arrange, mem_filter, decide_eq_true_iff, reached, accepts_iff_reaches]
    constructor
    · rintro ⟨member, reachableHere⟩
      refine ⟨reachableHere, ?_⟩
      rcases explored.origin state member with old | ⟨last, lastIn, reaches⟩
      · exact absurd old not_mem_nil
      · refine ⟨last, order.mem_elements.mp (mem_reverse.mp lastIn), ?_⟩
        clear reachableHere member
        induction reaches with
        | refl => exact Relation.ReflTransGen.refl
        | @tail target source _ leads ih =>
          rcases leads with ⟨sources, found, member⟩
          rw [nextAt target] at found
          cases found
          split_ifs at member with expanded
          · exact Relation.ReflTransGen.head (mem_backward_edges.mp member) ih
          · exact absurd member not_mem_nil
    · rintro ⟨reachableHere, last, final, reaches⟩
      refine ⟨?_, reachableHere⟩
      induction reaches using Relation.ReflTransGen.head_induction_on with
      | refl =>
        exact explored.served last (mem_reverse.mpr (order.mem_elements.mpr final))
      | @head source target edge _ ih =>
        have targetReached : automaton.Reachable target := reachableHere.tail edge
        rcases explored.expanded target (ih targetReached) not_mem_nil with
          ⟨sources, found, inside⟩
        rw [nextAt target, if_pos ((reached target).mpr targetReached)] at found
        cases found
        exact inside source (mem_backward_edges.mpr edge)

/-! ### Renaming -/

theorem flat_map_zip_single {Entry Result : Type} {image : Entry × Nat → List Result} {position : Nat}
    (others : ∀ entry index, index ≠ position → image (entry, index) = []) (entries : List Entry)
    (start : Nat) (later : start ≤ position) :
    (entries.zipIdx start).flatMap image =
      ((entries[position - start]?).map fun entry => image (entry, position)).getD [] := by
  induction entries generalizing start with
  | nil => rfl
  | cons entry entries ih =>
    rw [zipIdx_cons, flatMap_cons]
    by_cases here : start = position
    · subst here
      have rest : (entries.zipIdx (start + 1)).flatMap image = [] := by
        rw [flatMap_eq_nil_iff]
        intro other mem
        exact others other.1 other.2 (by have := le_snd_of_mem_zipIdx mem; omega)
      rw [rest, append_nil, Nat.sub_self, getElem?_cons_zero]
      rfl
    · have offset : position - start = position - (start + 1) + 1 := by omega
      rw [others entry start here, nil_append, ih (start + 1) (by omega), offset,
        getElem?_cons_succ]

variable {transitions : Transitions} {f : Nat → Option Nat}

theorem mem_updated {source target : Nat} :
    (source, letter, target) ∈ updatedTransitions transitions f ↔
      ∃ old oldTarget, (letter, oldTarget) ∈ (transitions[old]?).getD [] ∧
        f old = some source ∧ f oldTarget = some target := by
  unfold updatedTransitions
  rw [mem_flatMap]
  constructor
  · rintro ⟨⟨succ, old⟩, inside, mem⟩
    rcases mem_filterMap.mp mem with ⟨⟨oldLetter, oldTarget⟩, step, updated⟩
    rcases bind_some_iff.mp updated with ⟨newSource, sourceIs, mapped⟩
    rcases Option.map_eq_some_iff.mp mapped with ⟨newTarget, targetIs, same⟩
    cases same
    rw [mem_zipIdx_iff_getElem?] at inside
    refine ⟨old, oldTarget, ?_, sourceIs, targetIs⟩
    rw [inside, getD_some]
    exact step
  · rintro ⟨old, oldTarget, step, sourceIs, targetIs⟩
    cases found : transitions[old]? with
    | none =>
      rw [found] at step
      exact absurd step not_mem_nil
    | some succ =>
      rw [found, getD_some] at step
      refine ⟨(succ, old), mem_zipIdx_iff_getElem?.mpr found, ?_⟩
      refine mem_filterMap.mpr ⟨(letter, oldTarget), step, ?_⟩
      dsimp only
      rw [sourceIs, bind_some, targetIs, map_some]

/-- Two states are not merged. -/
def Separates (f : Nat → Option Nat) : Prop :=
  ∀ first second image, f first = some image → f second = some image → first = second

theorem updated_of_source (separates : Separates f) {source image : Nat}
    (renamed : f source = some image) :
    ((updatedTransitions transitions f).filterMap fun entry =>
      if entry.1 = image then some entry.2 else none) =
        ((transitions[source]?).getD []).filterMap fun transition =>
          (f transition.2).map fun target => (transition.1, target) := by
  have others : ∀ (succ : List (Letter × Nat)) (index : Nat), index ≠ source →
      (((succ, index).1.filterMap fun transition => (f (succ, index).2).bind fun newSource =>
        (f transition.2).map fun newTarget => (newSource, transition.1, newTarget)).filterMap
          fun entry => if entry.1 = image then some entry.2 else none) = [] := by
    intro succ index different
    rw [filterMap_filterMap, filterMap_eq_nil_iff]
    intro transition _
    cases sourceIs : f index with
    | none => rfl
    | some newSource =>
      have apart : newSource ≠ image := by
        rintro rfl
        exact different (separates index source newSource sourceIs renamed)
      cases targetIs : f transition.2 with
      | none => rfl
      | some target => exact if_neg apart
  unfold updatedTransitions
  rw [filterMap_flatMap, flat_map_zip_single others transitions 0 (Nat.zero_le _), Nat.sub_zero]
  cases transitions[source]? with
  | none => rfl
  | some succ =>
    rw [map_some, getD_some, getD_some, filterMap_filterMap]
    congr 1
    funext transition
    dsimp only
    rw [renamed, bind_some]
    cases f transition.2 with
    | none => rfl
    | some target => exact if_pos rfl

variable {newNbStates offset : Nat} {newTransitions : Transitions} {newMarkers : Finset Nat}

structure Updated (transitions : Transitions) (f : Nat → Option Nat) (newNbStates offset : Nat)
    (newTransitions : Transitions) (markers : Finset Nat) : Prop where
  length : newTransitions.length = newNbStates
  sources : ∀ source image, f source = some image → (transitions[source]?).getD [] ≠ [] →
    (∃ entry ∈ (transitions[source]?).getD [], (f entry.2).isSome) →
      offset ≤ image ∧ image - offset < newNbStates
  mem : ∀ (state : Nat) (letter : Letter) (target : Nat), (letter, target) ∈ (newTransitions[state]?).getD [] ↔
    ∃ old oldTarget, (letter, oldTarget) ∈ (transitions[old]?).getD [] ∧
      f old = some (state + offset) ∧ f oldTarget = some target
  outgoing : Separates f → ∀ source state, f source = some (state + offset) → state < newNbStates →
    (newTransitions[state]?).getD [] = ((transitions[source]?).getD []).filterMap fun transition =>
      (f transition.2).map fun target => (transition.1, target)
  markers : ∀ marker, marker ∈ markers ↔
    ∃ state : Nat, ∃ entry ∈ (newTransitions[state]?).getD [], entry.1.marker = marker

theorem updated_of_filter_map
    (found : filterMapTransitions transitions f newNbStates offset = some (newTransitions, newMarkers)) :
    Updated transitions f newNbStates offset newTransitions newMarkers := by
  unfold filterMapTransitions at found
  dsimp only at found
  split_ifs at found with inside
  simp only [Option.some.injEq, Prod.mk.injEq] at found
  rcases found with ⟨transitionsAre, markersAre⟩
  have lookup : ∀ state, (newTransitions[state]?).getD [] =
      if state < newNbStates then (updatedTransitions transitions f).filterMap fun entry =>
        if entry.1 = state + offset then some entry.2 else none
      else [] := by
    intro state
    rw [← transitionsAre, getElem?_map]
    split_ifs with below
    · rw [getElem?_range below, map_some, getD_some]
    · rw [getElem?_eq_none (by rw [length_range]; omega), Option.map_none, getD_none]
  have mem : ∀ (state : Nat) (letter : Letter) (target : Nat), (letter, target) ∈ (newTransitions[state]?).getD [] ↔
      (state + offset, letter, target) ∈ updatedTransitions transitions f := by
    intro state letter target
    rw [lookup state]
    split_ifs with below
    · rw [mem_filterMap]
      constructor
      · rintro ⟨entry, member, same⟩
        split_ifs at same with here
        rw [Option.some.injEq] at same
        rw [← same, ← here]
        exact member
      · intro member
        exact ⟨(state + offset, letter, target), member, if_pos rfl⟩
    · refine iff_of_false not_mem_nil ?_
      intro member
      have room := (inside _ member).2
      dsimp only at room
      omega
  refine ⟨?_, ?_, ?_, ?_, ?_⟩
  · rw [← transitionsAre, length_map, length_range]
  · rintro source image renamed - ⟨⟨letter, oldTarget⟩, step, kept⟩
    rcases Option.isSome_iff_exists.mp kept with ⟨target, targetIs⟩
    exact inside (image, letter, target)
      (mem_updated.mpr ⟨source, oldTarget, step, renamed, targetIs⟩)
  · intro state letter target
    rw [mem, mem_updated]
  · intro separates source state renamed below
    rw [lookup state, if_pos below, updated_of_source separates renamed]
  · intro marker
    rw [← markersAre, mem_toFinset, mem_map]
    constructor
    · rintro ⟨⟨source, letter, target⟩, member, same⟩
      have room := (inside _ member).1
      dsimp only at room same
      refine ⟨source - offset, (letter, target), (mem _ _ _).mpr ?_, same⟩
      rw [Nat.sub_add_cancel room]
      exact member
    · rintro ⟨state, ⟨letter, target⟩, step, same⟩
      exact ⟨(state + offset, letter, target), (mem _ _ _).mp step, same⟩

theorem filter_map_inside (inside : ∀ entry ∈ updatedTransitions transitions f,
      offset ≤ entry.1 ∧ entry.1 - offset < newNbStates) :
    ∃ newTransitions markers,
      filterMapTransitions transitions f newNbStates offset = some (newTransitions, markers) := by
  unfold filterMapTransitions
  dsimp only
  rw [if_pos inside]
  exact ⟨_, _, rfl⟩

theorem filter_map_some (sources : ∀ source image, f source = some image →
    source < transitions.length → offset ≤ image ∧ image - offset < newNbStates) :
    ∃ newTransitions markers,
      filterMapTransitions transitions f newNbStates offset = some (newTransitions, markers) := by
  apply filter_map_inside
  rintro ⟨image, letter, target⟩ mem
  rcases mem_updated.mp mem with ⟨source, oldTarget, step, renamed, -⟩
  refine sources source image renamed ?_
  by_contra outside
  rw [getElem?_eq_none (not_lt.mp outside), getD_none] at step
  exact absurd step not_mem_nil

theorem letters_of_renamed {entries : List (Letter × Nat)}
    (all : ∀ entry ∈ entries, ∃ image, f entry.2 = some image) :
    (entries.filterMap fun transition => (f transition.2).map fun target =>
      (transition.1, target)).map Prod.fst = entries.map Prod.fst := by
  induction entries with
  | nil => rfl
  | cons entry entries ih =>
    rcases all entry mem_cons_self with ⟨image, renamed⟩
    rw [filterMap_cons, renamed, map_some, map_cons, map_cons, ih (forall_mem_cons.mp all).2]

/-! ### Keeping some states -/

section Keeping

variable {kept : List Nat}

theorem rename_eq_some {state image : Nat} :
    rename kept state = some image ↔ state ∈ kept ∧ kept.idxOf state = image := by
  unfold rename
  split_ifs with mem
  · rw [Option.some.injEq]
    exact ⟨fun same => ⟨mem, same⟩, fun both => both.2⟩
  · exact iff_of_false (by simp) fun both => mem both.1

theorem rename_lt {state image : Nat} (renamed : rename kept state = some image) :
    image < kept.length := by
  rcases rename_eq_some.mp renamed with ⟨mem, rfl⟩
  exact idxOf_lt_length_of_mem mem

theorem rename_of_mem {state : Nat} (mem : state ∈ kept) :
    rename kept state = some (kept.idxOf state) := rename_eq_some.mpr ⟨mem, rfl⟩

theorem rename_separates : Separates (rename kept) := by
  intro first second image firstIs secondIs
  rcases rename_eq_some.mp firstIs with ⟨mem, firstAt⟩
  rcases rename_eq_some.mp secondIs with ⟨-, secondAt⟩
  exact (idxOf_inj mem).mp (firstAt.trans secondAt.symm)

theorem renamed_letters (entries : List (Letter × Nat)) :
    ((entries.filterMap fun transition => (rename kept transition.2).map fun target =>
      (transition.1, target)).map Prod.fst).Sublist (entries.map Prod.fst) := by
  induction entries with
  | nil => exact List.Sublist.refl _
  | cons entry entries ih =>
    rw [filterMap_cons, map_cons]
    cases rename kept entry.2 with
    | none => exact ih.cons entry.1
    | some target => exact ih.cons_cons entry.1

theorem mem_rename_all {states : Finset Nat} {image : Nat} :
    image ∈ renameAll kept states ↔ ∃ state ∈ states, rename kept state = some image := by
  unfold renameAll
  rw [Finset.mem_image]
  constructor
  · rintro ⟨state, mem, same⟩
    rw [Finset.mem_filter] at mem
    exact ⟨state, mem.1, rename_eq_some.mpr ⟨mem.2, same⟩⟩
  · rintro ⟨state, mem, renamed⟩
    rcases rename_eq_some.mp renamed with ⟨inside, same⟩
    exact ⟨state, Finset.mem_filter.mpr ⟨mem, inside⟩, same⟩

/-- The states of one automaton that are kept are those of the other. -/
structure Keeps (automaton : RawAutomaton) (kept : List Nat) (result : RawAutomaton) : Prop where
  updated : Updated automaton.transitions (rename kept) kept.length 0 result.transitions result.markers
  finals : result.finalStates = renameAll kept automaton.finalStates

variable {result : RawAutomaton}

theorem Keeps.nb_states (keeps : Keeps automaton kept result) : result.nbStates = kept.length :=
  keeps.updated.length

theorem Keeps.step (keeps : Keeps automaton kept result) {state target : Nat} {letter : Letter} :
    (letter, target) ∈ result.outgoing state ↔ ∃ old oldTarget,
      (letter, oldTarget) ∈ automaton.outgoing old ∧ rename kept old = some state ∧
        rename kept oldTarget = some target := keeps.updated.mem state letter target

section

variable (keeps : Keeps automaton kept result)

include keeps

theorem Keeps.outgoing {source state : Nat} (renamed : rename kept source = some state) :
    result.outgoing state = (automaton.outgoing source).filterMap fun transition =>
      (rename kept transition.2).map fun target => (transition.1, target) :=
  keeps.updated.outgoing rename_separates source state renamed (rename_lt renamed)

theorem Keeps.back :
    Simulates result.nfa automaton.nfa fun state old => rename kept old = some state := by
  constructor
  · intro state old renamed final
    rw [mem_accept, keeps.finals, mem_rename_all] at final
    rcases final with ⟨other, mem, same⟩
    rw [rename_separates old other state renamed same]
    exact mem
  · intro state old renamed letter target step _
    rcases keeps.step.mp step with ⟨other, oldTarget, oldStep, same, targetIs⟩
    rw [← rename_separates old other state renamed same] at oldStep
    exact ⟨oldTarget, oldStep, targetIs⟩

theorem Keeps.language_at
    (closed : ∀ source ∈ kept, ∀ letter target, (letter, target) ∈ automaton.outgoing source →
      (∃ word, word ∈ acceptsAt automaton.nfa target) → target ∈ kept) {state image : Nat}
    (renamed : rename kept state = some image) :
    acceptsAt result.nfa image = acceptsAt automaton.nfa state := by
  refine languages_agree keeps.back ?_ renamed
  constructor
  · intro old image renamed final
    rw [mem_accept, keeps.finals, mem_rename_all]
    exact ⟨old, final, renamed⟩
  · intro old image renamed letter target step useful
    have mem := closed old (rename_eq_some.mp renamed).1 letter target step useful
    exact ⟨kept.idxOf target, keeps.step.mpr ⟨old, target, step, renamed, rename_of_mem mem⟩,
      rename_of_mem mem⟩

theorem Keeps.in_range (initial : result.initialState < kept.length) : InRange result := by
  constructor
  · rw [keeps.nb_states]
    exact initial
  · intro state final
    rw [keeps.finals, mem_rename_all] at final
    rcases final with ⟨old, -, renamed⟩
    rw [keeps.nb_states]
    exact rename_lt renamed
  · rintro state ⟨letter, target⟩ step
    rcases keeps.step.mp step with ⟨old, oldTarget, -, -, targetIs⟩
    rw [keeps.nb_states]
    exact rename_lt targetIs

theorem Keeps.markers {marker : Nat} :
    marker ∈ result.markers ↔
      ∃ state, ∃ entry ∈ result.outgoing state, entry.1.marker = marker :=
  keeps.updated.markers marker

theorem Keeps.letters {source state : Nat} (renamed : rename kept source = some state) :
    ((result.outgoing state).map Prod.fst).Sublist ((automaton.outgoing source).map Prod.fst) := by
  rw [keeps.outgoing renamed]
  exact renamed_letters _

end

theorem exists_kept {state : Nat} (distinct : kept.Nodup) (below : state < kept.length) :
    rename kept kept[state] = some state := by
  rw [rename_eq_some]
  exact ⟨getElem_mem below, distinct.idxOf_getElem state below⟩

end Keeping

/-! ### Dead states -/

structure Trimmed (automaton result : RawAutomaton) : Prop where
  range : InRange result
  language : result.language = automaton.language
  letters : ∀ state, ∃ old,
    ((result.outgoing state).map Prod.fst).Sublist ((automaton.outgoing old).map Prod.fst)
  markers : ∀ marker, marker ∈ result.markers ↔
    ∃ state, ∃ entry ∈ result.outgoing state, entry.1.marker = marker
  deterministic : result.deterministic →
    automaton.deterministic ∨ ∀ state, result.outgoing state = []
  complete : result.complete = false

theorem outgoing_empty (state : Nat) : empty.outgoing state = [] := by
  cases state with
  | zero => rfl
  | succ state => rfl

theorem empty_language : empty.language = 0 := by
  apply Language.ext
  intro word
  refine iff_of_false ?_ (Language.notMem_zero word)
  intro accepted
  rw [language_eq] at accepted
  cases word with
  | nil => exact absurd (nil_at.mp accepted) (Finset.notMem_empty _)
  | cons letter word =>
    rcases cons_at.mp accepted with ⟨target, step, -⟩
    rw [outgoing_empty] at step
    exact absurd step not_mem_nil

theorem empty_in_range : InRange empty := by
  refine ⟨Nat.zero_lt_one, fun state mem => absurd mem (Finset.notMem_empty _),
    fun state entry mem => ?_⟩
  rw [outgoing_empty] at mem
  exact absurd mem not_mem_nil

theorem remove_dead_states_trims (inRange : InRange automaton) :
    ∃ result, automaton.removeDeadStates order = some result ∧ Trimmed automaton result := by
  rcases @mem_live_states order automaton inRange with ⟨live, found, distinct, mem⟩
  unfold removeDeadStates
  rw [found]
  simp only [bind_eq_bind, bind_some]
  by_cases none : live = []
  · rw [if_pos none]
    refine ⟨empty, rfl, empty_in_range, ?_, ?_, ?_, fun _ => Or.inr outgoing_empty, rfl⟩
    · rw [empty_language]
      apply Language.ext
      intro word
      refine iff_of_false (Language.notMem_zero word) fun accepted => ?_
      have initialLive := (mem automaton.initialState).mpr
        ⟨Relation.ReflTransGen.refl, word, accepted⟩
      rw [none] at initialLive
      exact absurd initialLive not_mem_nil
    · intro state
      refine ⟨0, ?_⟩
      rw [outgoing_empty]
      exact nil_sublist _
    · intro marker
      refine iff_of_false (Finset.notMem_empty _) ?_
      rintro ⟨state, entry, step, -⟩
      rw [outgoing_empty] at step
      exact absurd step not_mem_nil
  · rw [if_neg none]
    have initialLive : automaton.initialState ∈ live := by
      rcases exists_mem_of_ne_nil live none with ⟨state, member⟩
      rcases (mem state).mp member with ⟨reachable, accepts⟩
      refine (mem _).mpr ⟨Relation.ReflTransGen.refl, ?_⟩
      rcases accepts_iff_reaches.mp accepts with ⟨last, final, reaches⟩
      exact accepts_iff_reaches.mpr ⟨last, final, reachable.trans reaches⟩
    have initialIs := rename_of_mem initialLive
    rcases @filter_map_some automaton.transitions (rename live) live.length 0
      (fun source image renamed _ => ⟨Nat.zero_le _, by
        rw [Nat.sub_zero]
        exact rename_lt renamed⟩) with ⟨transitions, markers, updatedIs⟩
    rw [initialIs, bind_some, updatedIs, bind_some]
    refine ⟨_, rfl, ?_⟩
    generalize resultIs : RawAutomaton.mk automaton.deterministic false
      (live.idxOf automaton.initialState) (renameAll live automaton.finalStates) transitions markers =
        result
    have keeps : Keeps automaton live result := by
      rw [← resultIs]
      exact ⟨updated_of_filter_map updatedIs, rfl⟩
    have initialAt : result.initialState = live.idxOf automaton.initialState := by rw [← resultIs]
    have deterministicIs : result.deterministic = automaton.deterministic := by rw [← resultIs]
    refine ⟨?_, ?_, ?_, fun marker => keeps.markers, ?_, by rw [← resultIs]⟩
    · apply keeps.in_range
      rw [initialAt]
      exact rename_lt initialIs
    · rw [language_eq, language_eq, initialAt]
      refine keeps.language_at ?_ initialIs
      intro source member letter target step useful
      exact (mem target).mpr ⟨((mem source).mp member).1.tail ⟨letter, step⟩, useful⟩
    · intro state
      by_cases below : state < live.length
      · exact ⟨live[state], keeps.letters (exists_kept distinct below)⟩
      · refine ⟨0, ?_⟩
        rw [← keeps.nb_states] at below
        rw [outgoing_out_of_range (not_lt.mp below)]
        exact nil_sublist _
    · rw [deterministicIs]
      exact Or.inl

end RawAutomaton

end Midfall.RawAutomata
