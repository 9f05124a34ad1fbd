import Midfall.RawAutomatonConstructors
import Midfall.RawAutomatonRepeat

/-!
# Intersection

Pairs of states are joined on the letters with one byte whose markers do not
clash. Two different markers on one position have no join, so that a byte word
needs markings that agree.
-/

namespace Midfall.RawAutomata

open AutomatonLanguages Worklists ListLoops List
open Option (map_some)

namespace RawAutomaton

variable {order : HashOrder} {lhs rhs : RawAutomaton}

variable {letter1 letter2 letter : Letter}

theorem join_eq_some :
    join letter1 letter2 = some letter ↔ letter1.char = letter.char ∧ letter2.char = letter.char ∧
      (letter1.marker = letter2.marker ∨ letter1.marker = 0 ∨ letter2.marker = 0) ∧
        letter.marker = max letter1.marker letter2.marker := by
  unfold join
  split_ifs with joins
  · rw [Option.some.injEq]
    constructor
    · rintro rfl
      exact ⟨rfl, joins.1.symm, joins.2, rfl⟩
    · rintro ⟨char, -, -, marker⟩
      cases letter
      simp only at char marker
      rw [char, marker]
  · apply iff_of_false
    · exact nofun
    · rintro ⟨first, second, compatible, -⟩
      exact joins ⟨first.trans second.symm, compatible⟩

def joinWords : List Letter → List Letter → Option (List Letter)
  | [], [] => some []
  | letter1 :: word1, letter2 :: word2 => do
    let letter ← join letter1 letter2
    let word ← joinWords word1 word2
    return letter :: word
  | _, _ => none

def Compatible (word1 word2 : List Letter) : Prop :=
  Forall₂ (fun letter1 letter2 : Letter => letter1.marker = letter2.marker ∨
    letter1.marker = 0 ∨ letter2.marker = 0) word1 word2

theorem join_words_cons {word1 word2 word : List Letter} :
    joinWords (letter1 :: word1) (letter2 :: word2) = some (letter :: word) ↔
      join letter1 letter2 = some letter ∧ joinWords word1 word2 = some word := by
  rw [joinWords]
  simp only [Option.bind_eq_bind, Option.pure_def]
  constructor
  · intro joined
    rcases bind_some_iff.mp joined with ⟨first, firstIs, later⟩
    rcases bind_some_iff.mp later with ⟨rest, restIs, same⟩
    cases same
    exact ⟨firstIs, restIs⟩
  · rintro ⟨firstIs, restIs⟩
    rw [firstIs, restIs]
    rfl

theorem join_words_length {word1 word2 word : List Letter} (joined : joinWords word1 word2 = some word) :
    word1.length = word.length ∧ word2.length = word.length := by
  induction word1 generalizing word2 word with
  | nil =>
    cases word2 with
    | nil =>
      cases joined
      exact ⟨rfl, rfl⟩
    | cons letter2 word2 => cases joined
  | cons letter1 word1 ih =>
    cases word2 with
    | nil => cases joined
    | cons letter2 word2 =>
      cases word with
      | nil =>
        rw [joinWords] at joined
        rcases bind_some_iff.mp joined with ⟨first, -, later⟩
        rcases bind_some_iff.mp later with ⟨rest, -, same⟩
        cases same
      | cons letter word =>
        have lengths := ih (join_words_cons.mp joined).2
        rw [length_cons, length_cons, length_cons, lengths.1, lengths.2]
        exact ⟨rfl, rfl⟩

theorem join_words_bytes {word1 word2 word : List Letter} (joined : joinWords word1 word2 = some word) :
    word1.map Letter.char = word.map Letter.char ∧ word2.map Letter.char = word.map Letter.char := by
  have lengths := join_words_length joined
  induction word generalizing word1 word2 with
  | nil =>
    rw [eq_nil_of_length_eq_zero lengths.1, eq_nil_of_length_eq_zero lengths.2]
    exact ⟨rfl, rfl⟩
  | cons letter word ih =>
    cases word1 with
    | nil => cases lengths.1
    | cons letter1 word1 =>
      cases word2 with
      | nil => cases lengths.2
      | cons letter2 word2 =>
        rcases join_words_cons.mp joined with ⟨first, rest⟩
        rcases join_eq_some.mp first with ⟨char1, char2, -⟩
        rcases ih rest (join_words_length rest) with ⟨bytes1, bytes2⟩
        simp only [map_cons, char1, char2, bytes1, bytes2, and_self]

theorem join_words_some {word1 word2 : List Letter} (bytes : word1.map Letter.char = word2.map Letter.char) :
    (∃ word, joinWords word1 word2 = some word) ↔ Compatible word1 word2 := by
  induction word1 generalizing word2 with
  | nil =>
    rw [map_nil, eq_comm, map_eq_nil_iff] at bytes
    rw [bytes]
    exact iff_of_true ⟨[], rfl⟩ Forall₂.nil
  | cons letter1 word1 ih =>
    cases word2 with
    | nil => cases bytes
    | cons letter2 word2 =>
      rw [map_cons, map_cons, List.cons.injEq] at bytes
      unfold Compatible
      rw [forall₂_cons]
      constructor
      · rintro ⟨word, joined⟩
        cases word with
        | nil => cases (join_words_length joined).1
        | cons letter word =>
          rcases join_words_cons.mp joined with ⟨first, rest⟩
          exact ⟨(join_eq_some.mp first).2.2.1, (ih bytes.2).mp ⟨word, rest⟩⟩
      · rintro ⟨agree, compatible⟩
        rcases (ih bytes.2).mpr compatible with ⟨word, rest⟩
        refine ⟨⟨letter1.char, max letter1.marker letter2.marker⟩ :: word, ?_⟩
        exact join_words_cons.mpr
          ⟨join_eq_some.mpr ⟨rfl, bytes.1.symm, agree, rfl⟩, rest⟩

theorem mem_join_transitions {succ1 succ2 : List (Letter × Nat)} {letter : Letter} {target : Nat × Nat} :
    (letter, target) ∈ joinTransitions succ1 succ2 ↔ ∃ letter1 letter2,
      (letter1, target.1) ∈ succ1 ∧ (letter2, target.2) ∈ succ2 ∧ join letter1 letter2 = some letter := by
  unfold joinTransitions
  rw [mem_flatMap]
  constructor
  · rintro ⟨⟨letter1, target1⟩, inside1, mem⟩
    rcases mem_filterMap.mp mem with ⟨⟨letter2, target2⟩, inside2, joined⟩
    rcases Option.map_eq_some_iff.mp joined with ⟨other, joins, same⟩
    cases same
    exact ⟨letter1, letter2, inside1, inside2, joins⟩
  · rintro ⟨letter1, letter2, inside1, inside2, joins⟩
    refine ⟨_, inside1, mem_filterMap.mpr ⟨_, inside2, ?_⟩⟩
    rw [joins, map_some]

theorem join_transitions_length (succ1 succ2 : List (Letter × Nat)) :
    (joinTransitions succ1 succ2).length ≤ succ1.length * succ2.length := by
  unfold joinTransitions
  induction succ1 with
  | nil =>
    rw [flatMap_nil]
    exact Nat.zero_le _
  | cons entry succ1 ih =>
    rw [flatMap_cons, length_append, length_cons, Nat.succ_mul, Nat.add_comm]
    exact Nat.add_le_add ih (length_filterMap_le _ _)

theorem pair_transitions_some {source : Nat × Nat}
    {succ : List (Letter × Nat) × List (Letter × Nat)}
    (found : lhs.pairTransitions rhs source = some succ) :
    source.1 < lhs.nbStates ∧ source.2 < rhs.nbStates ∧
      succ = (lhs.outgoing source.1, rhs.outgoing source.2) := by
  unfold pairTransitions at found
  rcases bind_some_iff.mp found with ⟨succ1, first, later⟩
  rcases bind_some_iff.mp later with ⟨succ2, second, same⟩
  cases same
  rw [outgoing_of_lookup first, outgoing_of_lookup second]
  exact ⟨(List.getElem?_eq_some_iff.mp first).1, (List.getElem?_eq_some_iff.mp second).1, rfl⟩

theorem pair_transitions_of_lt {source : Nat × Nat} (inside1 : source.1 < lhs.nbStates)
    (inside2 : source.2 < rhs.nbStates) : lhs.pairTransitions rhs source =
      some (lhs.outgoing source.1, rhs.outgoing source.2) := by
  unfold pairTransitions
  rw [lookup_of_lt inside1, lookup_of_lt inside2]
  rfl

def joined (lhs rhs : RawAutomaton) (source : Nat × Nat) : List (Letter × (Nat × Nat)) :=
  joinTransitions (lhs.outgoing source.1) (rhs.outgoing source.2)

structure Paired (lhs rhs : RawAutomaton) (pairs : List (Nat × Nat)) (product : RawAutomaton) :
    Prop where
  distinct : pairs.Nodup
  start : (lhs.initialState, rhs.initialState) ∈ pairs
  below : ∀ pair ∈ pairs, pair.1 < lhs.nbStates ∧ pair.2 < rhs.nbStates
  closed : ∀ pair ∈ pairs, ∀ entry ∈ joined lhs rhs pair, entry.2 ∈ pairs
  initial : product.initialState = pairs.idxOf (lhs.initialState, rhs.initialState)
  states : product.nbStates = pairs.length
  finals : ∀ state, state ∈ product.finalStates ↔ ∃ pair ∈ pairs, pairs.idxOf pair = state ∧
    pair.1 ∈ lhs.finalStates ∧ pair.2 ∈ rhs.finalStates
  outgoing : ∀ pair ∈ pairs, product.outgoing (pairs.idxOf pair) =
    (joined lhs rhs pair).map fun entry => (entry.1, pairs.idxOf entry.2)
  deterministic : product.deterministic = true → lhs.deterministic = true ∧ rhs.deterministic = true ∧
    ∀ pair ∈ pairs, joinsMarkers (lhs.outgoing pair.1) (rhs.outgoing pair.2) = false

section Pairs

variable {pairs : List (Nat × Nat)} {product : RawAutomaton}

theorem Paired.entries (paired : Paired lhs rhs pairs product) {state : Nat}
    {entry : Letter × Nat} (step : entry ∈ product.outgoing state) :
    ∃ pair ∈ pairs, ∃ target, (entry.1, target) ∈ joined lhs rhs pair ∧
      entry.2 = pairs.idxOf target := by
  have below := lt_of_outgoing step
  rw [paired.states] at below
  have mem := getElem_mem below
  have entries := paired.outgoing _ mem
  rw [paired.distinct.idxOf_getElem state below] at entries
  rw [entries] at step
  rcases mem_map.mp step with ⟨old, inside, rfl⟩
  exact ⟨_, mem, old.2, inside, rfl⟩

theorem Paired.range (paired : Paired lhs rhs pairs product) : InRange product := by
  refine ⟨?_, fun state final => ?_, fun state entry step => ?_⟩
  · rw [paired.initial, paired.states]
    exact idxOf_lt_length_of_mem paired.start
  · rcases (paired.finals state).mp final with ⟨pair, mem, rfl, -⟩
    rw [paired.states]
    exact idxOf_lt_length_of_mem mem
  · rcases paired.entries step with ⟨pair, mem, target, inside, same⟩
    rw [paired.states, same]
    exact idxOf_lt_length_of_mem (paired.closed _ mem _ inside)

theorem Paired.accepts (paired : Paired lhs rhs pairs product) (word : List Letter) {pair : Nat × Nat}
    (mem : pair ∈ pairs) : word ∈ acceptsAt product.nfa (pairs.idxOf pair) ↔
      ∃ word1 ∈ acceptsAt lhs.nfa pair.1, ∃ word2 ∈ acceptsAt rhs.nfa pair.2,
        joinWords word1 word2 = some word := by
  induction word generalizing pair with
  | nil =>
    rw [nil_at, paired.finals]
    constructor
    · rintro ⟨other, otherIn, same, final1, final2⟩
      rw [(idxOf_inj otherIn).mp same] at final1 final2
      exact ⟨[], nil_at.mpr final1, [], nil_at.mpr final2, rfl⟩
    · rintro ⟨word1, accepted1, word2, accepted2, joined⟩
      have lengths := join_words_length joined
      rw [eq_nil_of_length_eq_zero lengths.1] at accepted1
      rw [eq_nil_of_length_eq_zero lengths.2] at accepted2
      exact ⟨pair, mem, rfl, nil_at.mp accepted1, nil_at.mp accepted2⟩
  | cons letter word ih =>
    rw [cons_at, paired.outgoing pair mem]
    constructor
    · rintro ⟨target, step, rest⟩
      rcases mem_map.mp step with ⟨⟨label, next⟩, inside, same⟩
      cases same
      rcases (ih (paired.closed pair mem _ inside)).mp rest with
        ⟨word1, accepted1, word2, accepted2, joined⟩
      rcases mem_join_transitions.mp inside with ⟨letter1, letter2, step1, step2, joins⟩
      exact ⟨letter1 :: word1, cons_at.mpr ⟨next.1, step1, accepted1⟩, letter2 :: word2,
        cons_at.mpr ⟨next.2, step2, accepted2⟩, join_words_cons.mpr ⟨joins, joined⟩⟩
    · rintro ⟨word1, accepted1, word2, accepted2, joined⟩
      cases word1 with
      | nil => cases (join_words_length joined).1
      | cons letter1 word1 =>
        cases word2 with
        | nil => cases (join_words_length joined).2
        | cons letter2 word2 =>
          rcases join_words_cons.mp joined with ⟨joins, rest⟩
          rcases cons_at.mp accepted1 with ⟨target1, step1, rest1⟩
          rcases cons_at.mp accepted2 with ⟨target2, step2, rest2⟩
          have inside : (letter, (target1, target2)) ∈ RawAutomaton.joined lhs rhs pair :=
            mem_join_transitions.mpr ⟨letter1, letter2, step1, step2, joins⟩
          refine ⟨pairs.idxOf (target1, target2), mem_map.mpr ⟨_, inside, rfl⟩, ?_⟩
          exact (ih (paired.closed pair mem _ inside)).mpr
            ⟨word1, rest1, word2, rest2, rest⟩

variable {succ1 succ2 : List (Letter × Nat)}

theorem joined_letters (unmixed : joinsMarkers succ1 succ2 = false) :
    (joinTransitions succ1 succ2).map Prod.fst = (succ1.map Prod.fst).flatMap fun letter1 =>
      (succ2.map Prod.fst).filterMap fun letter2 => if letter2 = letter1 then some letter2 else none := by
  unfold joinTransitions
  rw [map_flatMap, flatMap_map]
  apply flatMap_congr
  intro entry1 inside1
  rw [map_filterMap, filterMap_map]
  apply filterMap_congr
  intro entry2 inside2
  rw [Function.comp_apply, Option.map_map]
  have same : ∀ letter, join entry1.1 entry2.1 = some letter → entry1.1.marker = entry2.1.marker := by
    intro letter joins
    by_contra different
    have mixed : joinsMarkers succ1 succ2 = true := by
      unfold joinsMarkers
      rw [any_eq_true]
      refine ⟨entry1, inside1, any_eq_true.mpr ⟨entry2, inside2, ?_⟩⟩
      rw [joins, Option.isSome_some, Bool.true_and]
      exact decide_eq_true different
    rw [unmixed] at mixed
    cases mixed
  split_ifs with equal
  · have joins : join entry1.1 entry2.1 = some entry2.1 := by
      apply join_eq_some.mpr
      rw [equal, max_self]
      exact ⟨rfl, rfl, Or.inl rfl, rfl⟩
    rw [joins]
    rfl
  · rw [Option.map_eq_none_iff]
    cases joins : join entry1.1 entry2.1 with
    | none => rfl
    | some letter =>
      rcases join_eq_some.mp joins with ⟨char1, char2, -, -⟩
      have markers := same letter joins
      apply absurd _ equal
      cases letterIs : entry1.1
      cases otherIs : entry2.1
      rw [letterIs, otherIs] at markers
      rw [letterIs] at char1
      rw [otherIs] at char2
      simp only at markers char1 char2
      rw [char1, char2, markers]

theorem joined_distinct (unmixed : joinsMarkers succ1 succ2 = false)
    (distinct1 : (succ1.map Prod.fst).Nodup) (distinct2 : (succ2.map Prod.fst).Nodup) :
    ((joinTransitions succ1 succ2).map Prod.fst).Nodup := by
  rw [joined_letters unmixed, nodup_flatMap]
  constructor
  · intro letter1 _
    apply distinct2.filterMap
    intro first second image firstIs secondIs
    rw [Option.mem_def, Option.ite_none_right_eq_some] at firstIs secondIs
    exact firstIs.1.trans secondIs.1.symm
  · apply distinct1.imp
    intro first second different letter firstIn secondIn
    rcases mem_filterMap.mp firstIn with ⟨other1, -, same1⟩
    rcases mem_filterMap.mp secondIn with ⟨other2, -, same2⟩
    split_ifs at same1 same2 with equal1 equal2
    apply different
    rw [← equal1, ← equal2, Option.some.inj same1, Option.some.inj same2]

theorem Paired.distinct_letters (paired : Paired lhs rhs pairs product)
    (truthful1 : lhs.deterministic = true → IsDeterministic lhs)
    (truthful2 : rhs.deterministic = true → IsDeterministic rhs) :
    product.deterministic = true → IsDeterministic product := by
  intro flag
  rcases paired.deterministic flag with ⟨flag1, flag2, unmixed⟩
  intro state
  by_cases below : state < pairs.length
  · have mem := getElem_mem below
    have entries := paired.outgoing _ mem
    rw [paired.distinct.idxOf_getElem state below] at entries
    rw [entries, map_map]
    exact joined_distinct (unmixed _ mem) (truthful1 flag1 _) (truthful2 flag2 _)
  · rw [← paired.states] at below
    rw [outgoing_out_of_range (not_lt.mp below)]
    exact nodup_nil

end Pairs

def pairTargets (lhs rhs : RawAutomaton) (source : Nat × Nat) : Option (List (Nat × Nat)) :=
  (lhs.pairTransitions rhs source).map fun succ => (joinTransitions succ.1 succ.2).map Prod.snd

def pairFuel (lhs rhs : RawAutomaton) : Nat :=
  1 + lhs.nbStates * rhs.nbStates * (lhs.nbTransitions * rhs.nbTransitions)

theorem inter_of_explored {visited : List (Nat × Nat)}
    (run : explore (pairTargets lhs rhs) (pairFuel lhs rhs) [(lhs.initialState, rhs.initialState)] [] =
      some visited) :
    ∃ product, Paired lhs rhs (order.arrange visited) product ∧
      lhs.inter order rhs = (product.removeDeadStates order).map checkDeterminism := by
  have explored := explored_of_run run
  have expands : ∀ pair ∈ visited, pair.1 < lhs.nbStates ∧ pair.2 < rhs.nbStates ∧
      ∀ entry ∈ joined lhs rhs pair, entry.2 ∈ visited := by
    intro pair mem
    rcases explored.expanded pair mem not_mem_nil with ⟨targets, found, inside⟩
    unfold pairTargets at found
    rcases Option.map_eq_some_iff.mp found with ⟨succ, succIs, targetsAre⟩
    rcases pair_transitions_some succIs with ⟨below1, below2, rfl⟩
    refine ⟨below1, below2, fun entry entryIn => inside entry.2 ?_⟩
    rw [← targetsAre]
    exact mem_map_of_mem entryIn
  have arranged : ∀ pair, pair ∈ order.arrange visited ↔ pair ∈ visited := fun pair => order.mem_arrange
  have pairsAre : visited.mapM (lhs.pairTransitions rhs) =
      some (visited.map fun pair => (lhs.outgoing pair.1, rhs.outgoing pair.2)) := by
    apply map_m_of_forall
    intro pair mem
    exact pair_transitions_of_lt (expands pair mem).1 (expands pair mem).2.1
  generalize renamedIs : order.arrange visited = renamed at arranged
  have transitionsAre : renamed.mapM (fun source => (lhs.pairTransitions rhs source).map fun succ =>
      (joinTransitions succ.1 succ.2).map fun entry => (entry.1, renamed.idxOf entry.2)) =
        some (renamed.map fun pair => (joined lhs rhs pair).map fun entry =>
          (entry.1, renamed.idxOf entry.2)) := by
    apply map_m_of_forall
    intro pair mem
    rw [pair_transitions_of_lt (expands pair ((arranged pair).mp mem)).1
      (expands pair ((arranged pair).mp mem)).2.1, map_some]
    rfl
  have distinct : renamed.Nodup := by
    rw [← renamedIs, order.nodup_arrange]
    exact explored.distinct nodup_nil
  unfold inter
  simp only
  unfold pairFuel at run
  unfold pairTargets at run
  rw [run]
  simp only [some_bind, pairsAre, renamedIs, transitionsAre, Option.pure_def]
  generalize productIs : RawAutomaton.mk
    (lhs.deterministic && rhs.deterministic &&
      ! ((visited.map fun pair => (lhs.outgoing pair.1, rhs.outgoing pair.2)).any fun succ =>
        joinsMarkers succ.1 succ.2)) _ _ _ _ _ = product
  refine ⟨product, ?_, ?_⟩
  · constructor
    · exact distinct
    · exact (arranged _).mpr (explored.served _ (mem_singleton_self _))
    · exact fun pair mem => ⟨(expands pair ((arranged pair).mp mem)).1,
        (expands pair ((arranged pair).mp mem)).2.1⟩
    · exact fun pair mem entry inside => (arranged _).mpr
        ((expands pair ((arranged pair).mp mem)).2.2 entry inside)
    · rw [← productIs]
    · rw [← productIs]
      exact length_map _
    · intro state
      rw [← productIs, Finset.mem_image]
      constructor
      · rintro ⟨pair, mem, same⟩
        rw [Finset.mem_filter, Finset.mem_product] at mem
        exact ⟨pair, (arranged pair).mpr mem.2, same, mem.1.1, mem.1.2⟩
      · rintro ⟨pair, mem, same, final1, final2⟩
        refine ⟨pair, ?_, same⟩
        rw [Finset.mem_filter, Finset.mem_product]
        exact ⟨⟨final1, final2⟩, (arranged pair).mp mem⟩
    · intro pair mem
      apply outgoing_of_lookup
      rw [← productIs, getElem?_map, getElem?_idxOf mem, map_some]
    · intro flag
      rw [← productIs, Bool.and_eq_true, Bool.and_eq_true, Bool.not_eq_true'] at flag
      refine ⟨flag.1.1, flag.1.2, fun pair mem => ?_⟩
      by_contra mixed
      rw [Bool.not_eq_false] at mixed
      have some_ : ((visited.map fun pair => (lhs.outgoing pair.1, rhs.outgoing pair.2)).any fun succ =>
          joinsMarkers succ.1 succ.2) = true := by
        rw [any_eq_true]
        exact ⟨_, mem_map.mpr ⟨pair, (arranged pair).mp mem, rfl⟩, mixed⟩
      rw [flag.2] at some_
      cases some_
  · cases product.removeDeadStates order with
    | none => rfl
    | some live => rfl

theorem inter_explores (inRange1 : InRange lhs) (inRange2 : InRange rhs) :
    ∃ visited, explore (pairTargets lhs rhs) (pairFuel lhs rhs)
      [(lhs.initialState, rhs.initialState)] [] = some visited := by
  apply @explore_some _ _ _ (Finset.range lhs.nbStates ×ˢ Finset.range rhs.nbStates)
    (lhs.nbTransitions * rhs.nbTransitions)
  · intro pair mem
    rw [Finset.mem_product, Finset.mem_range, Finset.mem_range] at mem
    refine ⟨(joined lhs rhs pair).map Prod.snd, ?_, ?_, fun target inside => ?_⟩
    · unfold pairTargets
      rw [pair_transitions_of_lt mem.1 mem.2, map_some]
      rfl
    · rw [length_map]
      apply le_trans (join_transitions_length _ _)
      exact Nat.mul_le_mul (length_le_nb_transitions _) (length_le_nb_transitions _)
    · rcases mem_map.mp inside with ⟨⟨letter, next⟩, step, rfl⟩
      rcases mem_join_transitions.mp step with ⟨letter1, letter2, step1, step2, -⟩
      rw [Finset.mem_product, Finset.mem_range, Finset.mem_range]
      exact ⟨inRange1.targets _ _ step1, inRange2.targets _ _ step2⟩
  · intro pair mem
    rw [mem_singleton.mp mem, Finset.mem_product, Finset.mem_range, Finset.mem_range]
    exact ⟨inRange1.initial, inRange2.initial⟩
  · exact fun pair mem => absurd mem not_mem_nil
  · exact nodup_nil
  · rw [length_singleton, length_nil, Finset.card_product, Finset.card_range,
      Finset.card_range, Nat.sub_zero]
    exact le_rfl

structure Intersected (lhs rhs result : RawAutomaton) : Prop where
  range : InRange result
  words : ∀ word, word ∈ result.language ↔ ∃ word1 ∈ lhs.language, ∃ word2 ∈ rhs.language,
    joinWords word1 word2 = some word
  letters : ∀ state, ∀ entry ∈ result.outgoing state, ∃ source1 source2 letter1 letter2 target1 target2,
    (letter1, target1) ∈ lhs.outgoing source1 ∧ (letter2, target2) ∈ rhs.outgoing source2 ∧
      join letter1 letter2 = some entry.1
  marked : ∀ marker, marker ∈ result.markers ↔ result.Uses marker
  deterministic : (lhs.deterministic = true → IsDeterministic lhs) →
    (rhs.deterministic = true → IsDeterministic rhs) →
      result.deterministic = true → IsDeterministic result
  complete : result.complete = false

theorem intersected_of_inter {result : RawAutomaton} (found : lhs.inter order rhs = some result) :
    Intersected lhs rhs result := by
  have explores : ∃ visited, explore (pairTargets lhs rhs) (pairFuel lhs rhs)
      [(lhs.initialState, rhs.initialState)] [] = some visited := by
    unfold inter at found
    rcases bind_some_iff.mp found with ⟨visited, run, -⟩
    exact ⟨visited, run⟩
  rcases explores with ⟨visited, run⟩
  rcases @inter_of_explored order lhs rhs visited run with ⟨product, paired, interIs⟩
  rcases @remove_dead_states_trims order product paired.range with ⟨live, liveIs, trimmed⟩
  rw [interIs, liveIs, map_some, Option.some.injEq] at found
  rw [← found]
  constructor
  · exact check_range trimmed.range
  · intro word
    rw [check_language, trimmed.language, language_eq, paired.initial, paired.accepts word paired.start]
    rfl
  · intro state entry step
    rw [check_outgoing] at step
    rcases trimmed.letters state with ⟨old, sublist⟩
    have letterIn := sublist.subset (mem_map_of_mem step)
    rcases mem_map.mp letterIn with ⟨oldEntry, oldStep, same⟩
    rcases paired.entries oldStep with ⟨pair, -, target, inside, -⟩
    rw [same] at inside
    rcases mem_join_transitions.mp inside with ⟨letter1, letter2, step1, step2, joins⟩
    exact ⟨_, _, letter1, letter2, _, _, step1, step2, joins⟩
  · exact trimmed.markers
  · intro truthful1 truthful2
    apply check_deterministic
    intro flag
    rcases trimmed.deterministic flag with productFlag | silent
    · have distinct := paired.distinct_letters truthful1 truthful2 productFlag
      intro state
      rcases trimmed.letters state with ⟨old, sublist⟩
      exact (distinct old).sublist sublist
    · intro state
      rw [silent state]
      exact nodup_nil
  · exact trimmed.complete

theorem inter_some (inRange1 : InRange lhs) (inRange2 : InRange rhs) :
    ∃ result, lhs.inter order rhs = some result := by
  rcases inter_explores inRange1 inRange2 with ⟨visited, run⟩
  rcases @inter_of_explored order lhs rhs visited run with ⟨product, paired, interIs⟩
  rcases @remove_dead_states_trims order product paired.range with ⟨live, liveIs, -⟩
  rw [interIs, liveIs]
  exact ⟨_, rfl⟩

/-- A marking over two others: no marker is erased. -/
inductive Overlays : List Letter → List Letter → List Letter → Prop
  | nil : Overlays [] [] []
  | left {word1 word2 word : List Letter} (char : UInt8) (marker : Nat) :
      Overlays word1 word2 word →
        Overlays (⟨char, marker⟩ :: word1) (⟨char, 0⟩ :: word2) (⟨char, marker⟩ :: word)
  | right {word1 word2 word : List Letter} (char : UInt8) (marker : Nat) :
      Overlays word1 word2 word →
        Overlays (⟨char, 0⟩ :: word1) (⟨char, marker⟩ :: word2) (⟨char, marker⟩ :: word)
  | both {word1 word2 word : List Letter} (char : UInt8) (marker : Nat) :
      Overlays word1 word2 word →
        Overlays (⟨char, marker⟩ :: word1) (⟨char, marker⟩ :: word2) (⟨char, marker⟩ :: word)

theorem overlays_of_join {word1 word2 word : List Letter}
    (joined : joinWords word1 word2 = some word) : Overlays word1 word2 word := by
  have lengths := join_words_length joined
  induction word generalizing word1 word2 with
  | nil =>
    rw [eq_nil_of_length_eq_zero lengths.1, eq_nil_of_length_eq_zero lengths.2]
    exact Overlays.nil
  | cons letter word ih =>
    cases word1 with
    | nil => cases lengths.1
    | cons letter1 word1 =>
      cases word2 with
      | nil => cases lengths.2
      | cons letter2 word2 =>
        rcases join_words_cons.mp joined with ⟨first, rest⟩
        have later := ih rest (join_words_length rest)
        cases letter with
        | mk char marker =>
          cases letter1 with
          | mk char1 marker1 =>
            cases letter2 with
            | mk char2 marker2 =>
              rcases join_eq_some.mp first with ⟨same1, same2, agree, largest⟩
              simp only at same1 same2 agree largest
              subst same1 same2
              rcases agree with rfl | rfl | rfl
              · rw [max_self] at largest
                rw [largest]
                exact Overlays.both _ _ later
              · rw [Nat.zero_max] at largest
                rw [largest]
                exact Overlays.right _ _ later
              · rw [Nat.max_zero] at largest
                rw [largest]
                exact Overlays.left _ _ later

theorem join_words_iff {word1 word2 word : List Letter} :
    joinWords word1 word2 = some word ↔ Overlays word1 word2 word := by
  constructor
  · exact overlays_of_join
  · intro overlays
    induction overlays with
    | nil => rfl
    | left char marker _ ih =>
      exact join_words_cons.mpr ⟨join_eq_some.mpr
        ⟨rfl, rfl, Or.inr (Or.inr rfl), (Nat.max_zero marker).symm⟩, ih⟩
    | right char marker _ ih =>
      exact join_words_cons.mpr ⟨join_eq_some.mpr
        ⟨rfl, rfl, Or.inr (Or.inl rfl), (Nat.zero_max marker).symm⟩, ih⟩
    | both char marker _ ih =>
      exact join_words_cons.mpr ⟨join_eq_some.mpr
        ⟨rfl, rfl, Or.inl rfl, (max_self marker).symm⟩, ih⟩

theorem Intersected.bytes {result : RawAutomaton} (intersected : Intersected lhs rhs result)
    (bytes : List UInt8) : bytes ∈ result.byteLanguage ↔ ∃ word1 ∈ lhs.language,
      ∃ word2 ∈ rhs.language, word1.map Letter.char = bytes ∧ word2.map Letter.char = bytes ∧
        Compatible word1 word2 := by
  rw [mem_byte_language]
  constructor
  · rintro ⟨word, accepted, rfl⟩
    rcases (intersected.words word).mp accepted with ⟨word1, accepted1, word2, accepted2, joined⟩
    have same := join_words_bytes joined
    exact ⟨word1, accepted1, word2, accepted2, same.1, same.2,
      (join_words_some (same.1.trans same.2.symm)).mp ⟨word, joined⟩⟩
  · rintro ⟨word1, accepted1, word2, accepted2, bytes1, bytes2, compatible⟩
    rcases (join_words_some (bytes1.trans bytes2.symm)).mpr compatible with ⟨word, joined⟩
    exact ⟨word, (intersected.words word).mpr ⟨word1, accepted1, word2, accepted2, joined⟩,
      (join_words_bytes joined).1.symm.trans bytes1⟩

/-- The intersection reads the overlays of the operands' words. -/
theorem inter_overlays (order : HashOrder) (lhs rhs : RawAutomaton) (inRange1 : InRange lhs)
    (inRange2 : InRange rhs) : ∃ result, lhs.inter order rhs = some result ∧
      (∀ word, word ∈ result.language ↔
        ∃ word1 ∈ lhs.language, ∃ word2 ∈ rhs.language, Overlays word1 word2 word) ∧
      ∀ bytes, bytes ∈ result.byteLanguage ↔ ∃ word1 ∈ lhs.language, ∃ word2 ∈ rhs.language,
        word1.map Letter.char = bytes ∧ word2.map Letter.char = bytes ∧ Compatible word1 word2 := by
  rcases @inter_some order lhs rhs inRange1 inRange2 with ⟨result, found⟩
  have intersected := intersected_of_inter found
  refine ⟨result, found, fun word => ?_, intersected.bytes⟩
  rw [intersected.words]
  simp only [join_words_iff]

/-- An unmarked letter and one with marker 3. -/
theorem inter_overlays_marked : InRange (byteConcat [[⟨97, 0⟩]] 256) ∧
    InRange (byteConcat [[⟨97, 3⟩]] 256) ∧ ∃ result,
      (byteConcat [[⟨97, 0⟩]] 256).inter HashOrder.inOrder (byteConcat [[⟨97, 3⟩]] 256) = some result ∧
        [⟨97, 3⟩] ∈ result.language := by
  refine ⟨byte_concat_in_range, byte_concat_in_range, ?_⟩
  rcases inter_overlays HashOrder.inOrder (byteConcat [[⟨97, 0⟩]] 256) (byteConcat [[⟨97, 3⟩]] 256)
    byte_concat_in_range byte_concat_in_range with ⟨result, found, words, -⟩
  refine ⟨result, found, (words _).mpr ⟨[⟨97, 0⟩], ?_, [⟨97, 3⟩], ?_, Overlays.right 97 3 Overlays.nil⟩⟩
  · rw [byte_concat_language]
    exact Forall₂.cons ⟨mem_singleton_self _, by decide⟩ Forall₂.nil
  · rw [byte_concat_language]
    exact Forall₂.cons ⟨mem_singleton_self _, by decide⟩ Forall₂.nil

/-- Both operands read the byte, with markers 1 and 2. -/
theorem clashing_markers_rejected : ∃ lhs rhs : RawAutomaton, InRange lhs ∧ InRange rhs ∧
    [97] ∈ lhs.byteLanguage ∧ [97] ∈ rhs.byteLanguage ∧ ∃ result,
      lhs.inter HashOrder.inOrder rhs = some result ∧ [97] ∉ result.byteLanguage := by
  have reads : ∀ marker : Nat, [97] ∈ (byteConcat [[⟨97, marker⟩]] 256).byteLanguage := by
    intro marker
    have small : (97 : UInt8).toNat < 256 := by decide
    rw [mem_byte_language]
    refine ⟨[⟨97, marker⟩], ?_, rfl⟩
    rw [byte_concat_language]
    exact Forall₂.cons ⟨mem_singleton_self _, small⟩ Forall₂.nil
  have run : (byteConcat [[⟨97, 1⟩]] 256).inter HashOrder.inOrder (byteConcat [[⟨97, 2⟩]] 256) =
      some empty := by decide
  refine ⟨_, _, byte_concat_in_range, byte_concat_in_range, reads 1, reads 2, _, run, ?_⟩
  rintro ⟨word, accepted, -⟩
  rw [empty_language] at accepted
  exact Language.notMem_zero word accepted

end RawAutomaton

end Midfall.RawAutomata
