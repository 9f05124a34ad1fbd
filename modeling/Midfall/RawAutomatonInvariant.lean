import Midfall.RawAutomatonRuns

/-!
# The documented invariant

States in range, collected markers, and flags that are true. Every operation
keeps the invariant under a condition on its arguments, and a run keeps it
exactly when all of its steps meet theirs.
-/

namespace Midfall.RawAutomata

open List

open ScannerAutomaton (alphabetMaxSize)

namespace RawAutomaton

variable {order : HashOrder} {automaton result : RawAutomaton} {alphabetSize : Nat}

theorem unread_well_formed (range : InRange automaton) (unread : ∀ state, automaton.outgoing state = []) :
    WellFormed alphabetSize automaton := by
  have unused : ∀ marker, ¬ automaton.Uses marker := by
    rintro marker ⟨state, entry, step, -⟩
    rw [unread] at step
    exact absurd step not_mem_nil
  refine ⟨⟨range, fun state entry step => ?_, fun _ state => ?_, fun _ state _ letter both => ?_⟩, ?_⟩
  · exact absurd ⟨state, entry, step, rfl⟩ (unused entry.1.marker)
  · rw [unread]
    exact nodup_nil
  · exact absurd both.2 (unused _)
  · exact fun marker uses => absurd uses (unused marker)

theorem byte_concat_well_formed (word : List (List Letter)) :
    WellFormed alphabetSize (byteConcat word alphabetSize) ↔
      ∀ byteRange ∈ word, (rangeOf alphabetSize byteRange).Nodup := by
  rw [← byte_concat_sound]
  exact ⟨fun wellFormed => wellFormed.toSound, fun sound => ⟨sound, byte_concat_marked⟩⟩

/-- The universal automaton reads letters with marker 0, which is not in its set. -/
theorem universal_well_formed (found : universal alphabetSize = some automaton) :
    WellFormed alphabetSize automaton ↔ alphabetSize = 0 := by
  have step := @universal_step alphabetSize automaton found
  constructor
  · intro wellFormed
    by_contra pos
    have below : (UInt8.ofNat 0).toNat < alphabetSize := Nat.pos_of_ne_zero pos
    have taken : (Letter.ofByte (UInt8.ofNat 0), 0) ∈ automaton.outgoing 0 :=
      step.mpr ⟨rfl, rfl, rfl, below⟩
    have marked := wellFormed.marked 0 ⟨0, _, taken, rfl⟩
    rw [universal_markers found] at marked
    exact absurd marked (Finset.notMem_empty 0)
  · intro none
    refine ⟨universal_sound found, ?_⟩
    rintro marker ⟨state, ⟨letter, target⟩, taken, -⟩
    have below := (step.mp taken).2.2.2
    rw [none] at below
    exact absurd below (Nat.not_lt_zero _)

theorem WellFormed.lettered (wellFormed : WellFormed alphabetSize automaton) :
    Lettered alphabetSize (fun _ => True) True automaton :=
  ⟨fun state entry step => ⟨wellFormed.bytes state entry step, trivial⟩, fun _ _ => trivial,
    Or.inl wellFormed.marked, fun flag _ => wellFormed.deterministic flag⟩

theorem make_optional_well_formed (wellFormed : WellFormed alphabetSize automaton)
    (found : automaton.makeOptional = some result) : WellFormed alphabetSize result := by
  rcases make_optional_optional wellFormed.toInRange with ⟨other, otherFound, optional⟩
  rw [found, Option.some.injEq] at otherFound
  rw [← otherFound] at optional
  rcases make_optional_rows found with ⟨rows, markers, -⟩
  have lettered := make_optional_letters wellFormed.lettered found
  refine ⟨⟨optional.range, lettered.bytes, fun flag => ?_, fun flag => ?_⟩,
    rows.letters.marked markers wellFormed.marked⟩
  · rw [optional.deterministic] at flag
    exact optional.distinct (wellFormed.deterministic flag)
  · rw [optional.complete] at flag
    intro state below letter both
    rcases optional.letters state with ⟨old, rows, inside⟩
    rw [optional.uses] at both
    rcases wellFormed.complete flag old (inside below) letter both with ⟨target, step⟩
    have read : letter ∈ (automaton.outgoing old).map Prod.fst := mem_map_of_mem step
    rw [← rows] at read
    rcases mem_map.mp read with ⟨entry, entryIn, same⟩
    refine ⟨entry.2, ?_⟩
    rw [← same]
    exact entryIn

theorem Trimmed.well_formed (trimmed : Trimmed automaton result)
    (bytes : ∀ state, ∀ entry ∈ automaton.outgoing state, entry.1.char.toNat < alphabetSize)
    (deterministic : automaton.deterministic = true → IsDeterministic automaton) :
    WellFormed alphabetSize result := by
  refine ⟨⟨trimmed.range, fun state entry step => ?_, fun flag state => ?_, fun flag => ?_⟩, ?_⟩
  · rcases trimmed.letters state with ⟨old, sublist⟩
    rcases mem_map.mp (sublist.subset (mem_map_of_mem step)) with ⟨oldEntry, oldStep, same⟩
    rw [← same]
    exact bytes old oldEntry oldStep
  · rcases trimmed.deterministic flag with kept | unread
    · rcases trimmed.letters state with ⟨old, sublist⟩
      exact sublist.nodup (deterministic kept old)
    · rw [unread]
      exact nodup_nil
  · rw [trimmed.complete] at flag
    cases flag
  · exact fun marker uses => (trimmed.markers marker).mpr uses

section

variable (wellFormed : WellFormed alphabetSize automaton)

include wellFormed

theorem remove_dead_states_well_formed (found : automaton.removeDeadStates order = some result) :
    WellFormed alphabetSize result := by
  rcases @remove_dead_states_trims order automaton wellFormed.toInRange with ⟨other, otherFound, trimmed⟩
  rw [found, Option.some.injEq] at otherFound
  rw [← otherFound] at trimmed
  exact trimmed.well_formed wellFormed.bytes wellFormed.deterministic

theorem complement_well_formed (found : automaton.complement order = some result) :
    WellFormed alphabetSize result := by
  unfold complement at found
  split_ifs at found
  rcases @remove_dead_states_trims order automaton.swapped (swapped_range wellFormed.toInRange) with
    ⟨other, otherFound, trimmed⟩
  have same : some result = some other := found.symm.trans otherFound
  rw [Option.some.injEq] at same
  rw [same]
  exact trimmed.well_formed wellFormed.bytes wellFormed.deterministic

theorem check_well_formed : WellFormed alphabetSize automaton.checkDeterminism :=
  ⟨⟨check_range wellFormed.toInRange, wellFormed.bytes, check_deterministic wellFormed.deterministic,
    wellFormed.complete⟩, wellFormed.marked⟩

end

theorem determinise_well_formed {completion : Bool} (small : alphabetSize ≤ alphabetMaxSize)
    (wellFormed : WellFormed alphabetSize automaton) :
    ∃ result, automaton.determinise order completion alphabetSize = some result ∧
      WellFormed alphabetSize result ∧ IsDeterministic result ∧ result.deterministic = true := by
  unfold determinise
  split_ifs with shortcut
  · rw [Bool.and_eq_true] at shortcut
    exact ⟨automaton, rfl, wellFormed, wellFormed.deterministic shortcut.1, shortcut.1⟩
  · have initialIn : ∀ state ∈ [automaton.initialState], state < automaton.nbStates := by
      intro state mem
      rw [mem_singleton.mp mem]
      exact wellFormed.initial
    rcases @powerset_powers order automaton alphabetSize wellFormed.toInRange _ initialIn
      (wellFormed.fits wellFormed.marked) small completion with ⟨power, powerIs, powered⟩
    refine ⟨power, powerIs, ⟨⟨powered.range, ?_, fun _ => powered.distinct, fun flag => ?_⟩, ?_⟩,
      powered.distinct, powered.deterministic⟩
    · exact fun state entry step => (powered.letters state entry step).1
    · cases completion with
      | true =>
        rintro state below letter ⟨byte, source, entry, step, same⟩
        apply powered.completes rfl state below letter
        rw [← same]
        exact ⟨byte, (powered.letters source entry step).2.1⟩
      | false =>
        rw [powered.complete, Bool.or_false] at flag
        have reads := powered.inherits rfl (cons_ne_nil _ _) _ (wellFormed.complete flag)
        rintro state below letter ⟨byte, source, entry, step, same⟩
        apply reads state below letter
        rcases (powered.letters source entry step).2.2 with impossible | ⟨old, target, oldStep⟩
        · cases impossible
        · exact ⟨byte, old, _, oldStep, same⟩
    · rintro marker ⟨source, entry, step, same⟩
      rw [powered.markers, ← same]
      exact (powered.letters source entry step).2.1

theorem union_well_formed {automata : List RawAutomaton} (small : alphabetSize ≤ alphabetMaxSize)
    (wellFormed : ∀ automaton ∈ automata, WellFormed alphabetSize automaton)
    (found : union order automata alphabetSize = some result) : WellFormed alphabetSize result := by
  rcases @union_unites order alphabetSize automata wellFormed small with ⟨other, otherFound, united⟩
  rw [found, Option.some.injEq] at otherFound
  rw [otherFound]
  exact united.toWellFormed

theorem inter_well_formed {lhs rhs : RawAutomaton} (wellFormed : WellFormed alphabetSize lhs)
    (otherWellFormed : WellFormed alphabetSize rhs) (found : lhs.inter order rhs = some result) :
    WellFormed alphabetSize result := by
  have intersected := intersected_of_inter found
  have lettered := inter_letters wellFormed.lettered otherWellFormed.lettered found
  refine ⟨⟨intersected.range, lettered.bytes, ?_, fun flag => ?_⟩, fun marker => (intersected.marked marker).mpr⟩
  · exact intersected.deterministic wellFormed.deterministic otherWellFormed.deterministic
  · rw [intersected.complete] at flag
    cases flag

theorem strict_repeat_well_formed (wellFormed : WellFormed alphabetSize automaton)
    (found : automaton.strictRepeat order = some result) : WellFormed alphabetSize result := by
  have repeated := strict_repeat_repeated found
  have lettered := strict_repeat_letters wellFormed.lettered found
  refine ⟨⟨repeated.range.mpr wellFormed.toInRange, lettered.bytes,
    repeated.deterministic, fun flag => ?_⟩, repeated.letters.marked repeated.markers wellFormed.marked⟩
  rw [repeated.complete] at flag
  rintro state below letter ⟨byte, source, entry, step, same⟩
  rw [repeated.states] at below
  rcases repeated.letters source entry step with ⟨old, target, oldStep⟩
  rcases wellFormed.complete flag state below letter ⟨byte, old, _, oldStep, same⟩ with ⟨onward, taken⟩
  exact ⟨onward, (repeated.step state _).mpr (Or.inl taken)⟩

theorem minimise_well_formed (wellFormed : WellFormed alphabetSize automaton)
    (flag : automaton.deterministic = true) :
    ∃ result, automaton.minimise order alphabetSize = some result ∧ WellFormed alphabetSize result := by
  rcases @minimise_quotient order automaton alphabetSize wellFormed.toInRange flag
    (wellFormed.deterministic flag) (wellFormed.fits wellFormed.marked) with
    ⟨result, classes, found, congruent, quotient⟩
  exact ⟨result, found,
    quotient_well_formed congruent quotient wellFormed (wellFormed.deterministic flag)⟩

theorem concat_well_formed {automata : List RawAutomaton}
    (wellFormed : ∀ automaton ∈ automata, WellFormed alphabetSize automaton)
    (found : concat automata = some result) : WellFormed alphabetSize result ↔
      ((∀ automaton ∈ automata, automaton.complete = true) → CompleteRows alphabetSize automata) := by
  have inRange : ∀ automaton ∈ automata, InRange automaton :=
    fun automaton mem => (wellFormed automaton mem).toInRange
  have proper : ¬ StuckFirst automata := by
    intro stuck
    rw [concat_stuck inRange stuck] at found
    cases found
  rcases concat_concatenates inRange proper with ⟨other, otherFound, concatenated⟩
  rw [found, Option.some.injEq] at otherFound
  rw [← otherFound] at concatenated
  have flags : result.complete = true ↔ ∀ automaton ∈ automata, automaton.complete = true := by
    rw [concatenated.complete, all_eq_true]
  have rows : (∀ automaton ∈ automata, automaton.complete = true) →
      (IsComplete alphabetSize result ↔ CompleteRows alphabetSize automata) := fun all =>
    concatenated.complete_iff fun automaton mem =>
      (wellFormed automaton mem).unstuck (all automaton mem)
  constructor
  · exact fun kept all => (rows all).mp (kept.complete (flags.mpr all))
  · intro complete
    refine ⟨⟨concatenated.range, fun state entry step => ?_, concatenated.deterministic, fun flag => ?_⟩,
      concatenated.marked⟩
    · rcases concatenated.letters state entry step with ⟨automaton, mem, old, target, oldStep⟩
      exact (wellFormed automaton mem).bytes old (entry.1, target) oldStep
    · have all := flags.mp flag
      exact (rows all).mpr (complete all)

/-- Without transitions from the final states a complete automaton has none, or it has no final state. -/
theorem Merged.complete_rows (merged : Merged automaton result) (redirects : Redirects automaton)
    (wellFormed : WellFormed alphabetSize automaton) (flag : automaton.complete = true) :
    IsComplete alphabetSize result := by
  rintro state below letter ⟨byte, source, ⟨other, target⟩, step, same⟩
  rcases merged.step.mp step with ⟨old, oldTarget, oldStep, -, -⟩
  rcases redirected_step.mp oldStep with ⟨onward, onwardStep, -⟩
  have reads : ∀ state < automaton.nbStates, ∃ target, (letter, target) ∈ automaton.outgoing state :=
    fun state inside => wellFormed.complete flag state inside letter ⟨byte, old, _, onwardStep, same⟩
  have none : automaton.finalStates = ∅ := by
    apply Finset.eq_empty_of_forall_notMem
    intro final mem
    rcases reads final (wellFormed.finals final mem) with ⟨next, taken⟩
    rw [redirects.1 final mem] at taken
    exact absurd taken not_mem_nil
  have every : ∀ state < automaton.nbStates, state ∈ automaton.unmerged := by
    intro state inside
    rw [mem_unmerged, none]
    exact ⟨inside, Or.inl (Finset.notMem_empty state)⟩
  have count : result.nbStates = automaton.unmerged.length := by
    have final : automaton.initialState ∉ automaton.finalStates := by
      rw [none]
      exact Finset.notMem_empty _
    rw [unmerged_length wellFormed.toInRange, if_neg final]
    exact merged.updated.length
  rw [count] at below
  have renamed := exists_kept unmerged_distinct below
  have inside := (mem_unmerged.mp (getElem_mem below)).1
  rcases reads _ inside with ⟨next, taken⟩
  have nextIn := every next (wellFormed.targets _ _ taken)
  refine ⟨automaton.unmerged.idxOf next, merged.step.mpr ⟨_, next, ?_, renamed, rename_of_mem nextIn⟩⟩
  apply redirected_step.mpr
  refine ⟨next, taken, Or.inl ⟨?_, rfl⟩⟩
  rw [none]
  exact Finset.notMem_empty next

theorem weak_repeat_well_formed (wellFormed : WellFormed alphabetSize automaton)
    (found : automaton.weakRepeat order = some result) : WellFormed alphabetSize result ↔
      (Redirects automaton → automaton.initialState ∈ automaton.finalStates → HasSpare automaton) := by
  by_cases redirects : Redirects automaton
  · rw [weak_repeat_redirects wellFormed.toInRange redirects] at found
    have merged := merged_of_redirect found
    have repeats := redirect_repeats_iff wellFormed.toInRange redirects
    constructor
    · intro kept _
      exact (repeats.mp ⟨result, found, merged.language wellFormed.toInRange redirects, kept.toInRange,
        kept.deterministic⟩).2
    · intro spare
      rcases repeats.mpr ⟨wellFormed.deterministic, spare redirects⟩ with
        ⟨other, otherFound, -, range, deterministic⟩
      rw [found, Option.some.injEq] at otherFound
      rw [← otherFound] at range deterministic
      have bytes := (merged.lettered wellFormed.lettered.letters wellFormed.lettered.separated).bytes
      refine ⟨⟨range, bytes, deterministic, fun flag => ?_⟩, ?_⟩
      · rw [merged.complete] at flag
        exact merged.complete_rows redirects wellFormed flag
      · exact fun marker uses => (merged.updated.markers marker).mpr uses
  · rw [weak_repeat_copies wellFormed.toInRange redirects] at found
    rcases bind_some_iff.mp found with ⟨repeated, repeatedIs, optional⟩
    apply iff_of_true
    · exact make_optional_well_formed (strict_repeat_well_formed wellFormed repeatedIs) optional
    · exact fun impossible => absurd impossible redirects

/-- The size of the alphabet that the normal form works with. -/
def byteBound (automaton : RawAutomaton) : Nat :=
  ((automaton.transitions.flatten.map fun entry => entry.1.char.toNat + 1).max?).getD 0

/-- The table of a normal form, after its last pass. -/
def tabulated (order : HashOrder) (base : RawAutomaton) : Option ScannerAutomaton.Automaton :=
  ((base.transitions.zipIdx.flatMap fun entry =>
    entry.1.map fun transition => (entry.2, transition.1, transition.2)).foldlM insertTransition
      []).bind fun transitions =>
        some { nbStates := base.nbStates
               initialState := base.initialState
               finalStates := order.elements base.finalStates
               transitions := order.arrange transitions }

theorem normalise_eq : automaton.normalise order =
    ((automaton.determinise order false automaton.byteBound).bind fun determinised =>
      determinised.minimise order automaton.byteBound).bind (tabulated order) := by
  rw [Option.bind_assoc]
  rfl

/-- The documented invariant; letters are encoded and decoded without a panic. -/
structure Documented (order : HashOrder) (alphabetSize : Nat) (automaton : RawAutomaton) : Prop extends
    WellFormed alphabetSize automaton where
  letters : ∀ state, ∀ entry ∈ automaton.outgoing state, ∃ code,
    entry.1.encode alphabetSize (order.elements automaton.markers) = some code ∧
      Letter.decode code alphabetSize (order.elements automaton.markers) = some entry.1
  determinises : ∀ completion, ∃ result,
    automaton.determinise order completion alphabetSize = some result
  minimises : automaton.deterministic = true → ∃ result, automaton.minimise order alphabetSize = some result
  normalises : ∃ base, ((automaton.determinise order false automaton.byteBound).bind fun determinised =>
    determinised.minimise order automaton.byteBound) = some base

theorem WellFormed.smaller {smallerSize : Nat} (wellFormed : WellFormed alphabetSize automaton)
    (smaller : smallerSize ≤ alphabetSize)
    (bytes : ∀ state, ∀ entry ∈ automaton.outgoing state, entry.1.char.toNat < smallerSize) :
    WellFormed smallerSize automaton :=
  ⟨⟨wellFormed.toInRange, bytes, wellFormed.deterministic, fun flag state below letter both =>
    wellFormed.complete flag state below letter ⟨lt_of_lt_of_le both.1 smaller, both.2⟩⟩,
    wellFormed.marked⟩

theorem byte_bound_le (bytes : ∀ state, ∀ entry ∈ automaton.outgoing state,
    entry.1.char.toNat < alphabetSize) : automaton.byteBound ≤ alphabetSize := by
  unfold byteBound
  cases found : (automaton.transitions.flatten.map fun entry => entry.1.char.toNat + 1).max? with
  | none => exact Nat.zero_le _
  | some bound =>
    have mem := max?_mem found
    rcases mem_map.mp mem with ⟨entry, inside, rfl⟩
    rcases mem_flatten.mp inside with ⟨row, rowIn, entryIn⟩
    rcases exists_source rowIn with ⟨state, -, rfl⟩
    exact bytes state entry entryIn

theorem WellFormed.documented (wellFormed : WellFormed alphabetSize automaton)
    (small : alphabetSize ≤ alphabetMaxSize) : Documented order alphabetSize automaton := by
  refine ⟨wellFormed, fun state entry step => ?_, fun completion => ?_, fun flag => ?_, ?_⟩
  · have fits := wellFormed.fits wellFormed.marked state entry step
    rcases @Letter.encode_fits alphabetSize (order.elements automaton.markers) entry.1
      ⟨fits.1, order.mem_elements.mpr fits.2⟩ with ⟨code, encoded, -, decoded⟩
    exact ⟨code, encoded, decoded⟩
  · rcases @determinise_well_formed order automaton alphabetSize completion small wellFormed with
      ⟨result, found, -⟩
    exact ⟨result, found⟩
  · rcases @minimise_well_formed order automaton alphabetSize wellFormed flag with ⟨result, found, -⟩
    exact ⟨result, found⟩
  · have bound := byte_bound_le wellFormed.bytes
    have below := wellFormed.smaller bound fun state entry step => byte_below_max step
    rcases @determinise_well_formed order automaton automaton.byteBound false (bound.trans small) below with
      ⟨determinised, found, kept, -, flag⟩
    rcases @minimise_well_formed order determinised automaton.byteBound kept flag with ⟨base, baseIs, -⟩
    refine ⟨base, ?_⟩
    rw [found, Option.bind_some]
    exact baseIs

end RawAutomaton

open RawAutomaton

variable {order : HashOrder} {alphabetSize : Nat} {steps : List (Operation × List RawAutomaton)}
  {pool : List RawAutomaton}

/-- What an operation needs of its arguments to keep the invariant. -/
def Operation.Keeps (alphabetSize : Nat) : Operation → List RawAutomaton → Prop
  | .byteConcat word, _ => ∀ byteRange ∈ word, (rangeOf alphabetSize byteRange).Nodup
  | .universal, _ => alphabetSize = 0
  | .concat, automata =>
    (∀ automaton ∈ automata, automaton.complete = true) → CompleteRows alphabetSize automata
  | .weakRepeat, automata => ∀ automaton ∈ automata, Redirects automaton →
      automaton.initialState ∈ automaton.finalStates → HasSpare automaton
  | _, _ => True

theorem Operation.well_formed_iff (small : alphabetSize ≤ alphabetMaxSize) {operation : Operation}
    {arguments : List RawAutomaton} {result : RawAutomaton}
    (wellFormed : ∀ argument ∈ arguments, WellFormed alphabetSize argument)
    (found : operation.apply order alphabetSize arguments = some result) :
    WellFormed alphabetSize result ↔ operation.Keeps alphabetSize arguments := by
  unfold apply at found
  split at found
  · cases found
    exact iff_of_true (unread_well_formed empty_in_range outgoing_empty) trivial
  · cases found
    exact iff_of_true (unread_well_formed epsilon_in_range outgoing_epsilon) trivial
  · cases found
    exact byte_concat_well_formed _
  · exact universal_well_formed found
  · exact iff_of_true (make_optional_well_formed (wellFormed _ mem_cons_self) found) trivial
  · exact iff_of_true (remove_dead_states_well_formed (wellFormed _ mem_cons_self) found) trivial
  · cases found
    exact iff_of_true (check_well_formed (wellFormed _ mem_cons_self)) trivial
  · rename_i completion automaton
    rcases @determinise_well_formed order automaton alphabetSize completion small
      (wellFormed _ mem_cons_self) with ⟨other, otherFound, kept, -⟩
    rw [found, Option.some.injEq] at otherFound
    rw [otherFound]
    exact iff_of_true kept trivial
  · exact iff_of_true (union_well_formed small wellFormed found) trivial
  · exact concat_well_formed wellFormed found
  · exact iff_of_true (inter_well_formed (wellFormed _ mem_cons_self)
      (wellFormed _ (mem_cons_of_mem _ mem_cons_self)) found) trivial
  · exact iff_of_true (complement_well_formed (wellFormed _ mem_cons_self) found) trivial
  · exact iff_of_true (strict_repeat_well_formed (wellFormed _ mem_cons_self) found) trivial
  · rw [weak_repeat_well_formed (wellFormed _ mem_cons_self) found]
    constructor
    · intro keeps automaton mem
      rw [mem_singleton.mp mem]
      exact keeps
    · exact fun keeps => keeps _ mem_cons_self
  · rename_i automaton
    have flag : automaton.deterministic = true := by
      unfold RawAutomaton.minimise at found
      split_ifs at found with flag
      exact flag
    rcases @minimise_well_formed order automaton alphabetSize (wellFormed _ mem_cons_self) flag with
      ⟨other, otherFound, kept⟩
    rw [found, Option.some.injEq] at otherFound
    rw [otherFound]
    exact iff_of_true kept trivial
  · cases found

theorem Run.well_formed_iff (small : alphabetSize ≤ alphabetMaxSize)
    (run : Run order alphabetSize steps pool) : (∀ automaton ∈ pool, WellFormed alphabetSize automaton) ↔
      ∀ step ∈ steps, step.1.Keeps alphabetSize step.2 := by
  induction run with
  | start =>
    exact iff_of_true (fun automaton mem => absurd mem not_mem_nil)
      fun step mem => absurd mem not_mem_nil
  | @step steps pool operation arguments result _ inside found ih =>
    rw [forall_mem_append, forall_mem_append, forall_mem_singleton, forall_mem_singleton, ← ih]
    apply and_congr_right
    intro wellFormed
    apply Operation.well_formed_iff small _ found
    exact fun argument mem => wellFormed argument (inside argument mem)

/-- The automata of a run are documented exactly when every step meets its condition, and renamed
transitions always come with their markers. -/
theorem run_documented_iff (order : HashOrder) (alphabetSize : Nat) (small : alphabetSize ≤ alphabetMaxSize) :
    (∀ steps pool, Run order alphabetSize steps pool →
      ((∀ automaton ∈ pool, Documented order alphabetSize automaton) ↔
        ∀ step ∈ steps, step.1.Keeps alphabetSize step.2)) ∧
    ∀ transitions f newNbStates offset newTransitions markers,
      filterMapTransitions transitions f newNbStates offset = some (newTransitions, markers) →
        newTransitions.length = newNbStates ∧ ∀ marker, marker ∈ markers ↔
          ∃ state : Nat, ∃ entry ∈ (newTransitions[state]?).getD [], entry.1.marker = marker := by
  constructor
  · intro steps pool run
    rw [← run.well_formed_iff small]
    constructor
    · exact fun documented automaton mem => (documented automaton mem).toWellFormed
    · exact fun wellFormed automaton mem => (wellFormed automaton mem).documented small
  · intro transitions f newNbStates offset newTransitions markers found
    have updated := updated_of_filter_map found
    exact ⟨updated.length, updated.markers⟩

def twoBytes : RawAutomaton := byteConcat [[⟨97, 0⟩, ⟨98, 1⟩]] 256

/-- Two bytes of one range, over all bytes, and their iteration. -/
theorem byte_range_documented : 256 ≤ alphabetMaxSize ∧ ∃ repeated,
    twoBytes.weakRepeat HashOrder.inOrder = some repeated ∧
      ∀ automaton ∈ [twoBytes, repeated], Documented HashOrder.inOrder 256 automaton := by
  have small : 256 ≤ alphabetMaxSize := by decide
  have defined : (twoBytes.weakRepeat HashOrder.inOrder).isSome := by decide
  rcases Option.isSome_iff_exists.mp defined with ⟨repeated, found⟩
  have built := @Run.step HashOrder.inOrder 256 [] [] (.byteConcat [[⟨97, 0⟩, ⟨98, 1⟩]]) [] _ .start
    (fun _ mem => absurd mem not_mem_nil) rfl
  have run := @Run.step _ _ _ _ .weakRepeat [twoBytes] _ built
    (fun _ mem => mem) found
  refine ⟨small, repeated, found, ((run_documented_iff HashOrder.inOrder 256 small).1 _ _ run).mpr ?_⟩
  intro step mem
  rcases mem_pair.mp mem with rfl | rfl
  · intro byteRange inside
    rw [mem_singleton.mp inside]
    decide
  · intro automaton inside _ initial
    rw [mem_singleton.mp inside] at initial
    exact absurd initial (by decide)

/-- The universal automaton has no markers, and its letters cannot be encoded for the normal form. -/
theorem universal_not_documented : ∃ automaton,
    Run HashOrder.inOrder 256 [(.universal, [])] [automaton] ∧
      ¬ Documented HashOrder.inOrder 256 automaton ∧ automaton.normalise HashOrder.inOrder = none := by
  have small : 256 ≤ alphabetMaxSize := by decide
  rcases Option.isSome_iff_exists.mp (by unfold universal; rw [if_pos small]; rfl :
    (universal 256).isSome) with ⟨automaton, found⟩
  have undocumented : ¬ WellFormed 256 automaton := by
    rw [universal_well_formed found]
    decide
  refine ⟨automaton, @Run.step HashOrder.inOrder 256 [] [] .universal [] automaton .start
    (fun _ mem => absurd mem not_mem_nil) found, fun documented =>
      undocumented documented.toWellFormed, ?_⟩
  have lettered := @universal_letters _ _ (fun _ => True) True trivial found
  have sound := universal_sound found
  have unmarked : ¬ Marked automaton := fun marked => undocumented ⟨sound, marked⟩
  have whole := lettered.marked.resolve_left unmarked
  rw [normalise_eq]
  unfold determinise
  rw [whole.deterministic, Bool.not_false, Bool.true_or, Bool.and_self, if_pos rfl, Option.bind_some]
  cases minimised : automaton.minimise HashOrder.inOrder automaton.byteBound with
  | none => rfl
  | some base => exact absurd (whole.minimise_marked minimised) unmarked

end Midfall.RawAutomata
