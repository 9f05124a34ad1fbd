import Midfall.RegexMeanings

/-!
# Complement of a regular expression

A double complement is left out of the conversion, so that one of a regular
expression and its negation is converted by completing and swapping the automaton
below the complements, and the other one is that automaton. Markers are refused
by the negation, so that there is one marker to complete with, if any.
-/

namespace Midfall.Regexes

open RawAutomata RawAutomata.RawAutomaton List
open ScannerAutomaton (alphabetMaxSize)

namespace Regex

variable {order : HashOrder} {alphabetSize : Nat}

def stem : Regex → Regex
  | complement e => stem e
  | regex => regex

/-- One of the regular expression and its negation accepts a byte word, and the other one does not. -/
def Negates (order : HashOrder) (alphabetSize : Nat) (regex : Regex) : Prop :=
  ∃ negation automaton negated, regex.neg = some negation ∧
    regex.toRawAutomaton order alphabetSize = some automaton ∧
    negation.toRawAutomaton order alphabetSize = some negated ∧
      ∀ bytes : List UInt8, (∀ byte ∈ bytes, byte.toNat < alphabetSize) →
        (bytes ∈ negated.byteLanguage ↔ bytes ∉ automaton.byteLanguage)

theorem neg_some {regex : Regex} (unmarked : regex.containsMarkers = false) :
    regex.neg = some (complement regex) := by
  unfold neg
  rw [unmarked]
  rfl

variable {e : Regex}

theorem complement_unmarked :
    (complement e).containsMarkers = false ↔ e.containsMarkers = false := by
  rw [containsMarkers]

theorem negates_of_unmarked {regex : Regex} (unmarked : regex.containsMarkers = false) :
    Negates order alphabetSize regex ↔ ∃ automaton negated,
      regex.toRawAutomaton order alphabetSize = some automaton ∧
      (complement regex).toRawAutomaton order alphabetSize = some negated ∧
        ∀ bytes : List UInt8, (∀ byte ∈ bytes, byte.toNat < alphabetSize) →
          (bytes ∈ negated.byteLanguage ↔ bytes ∉ automaton.byteLanguage) := by
  unfold Negates
  rw [neg_some unmarked]
  constructor
  · rintro ⟨negation, automaton, negated, same, automatonIs, negatedIs, opposite⟩
    cases same
    exact ⟨automaton, negated, automatonIs, negatedIs, opposite⟩
  · rintro ⟨automaton, negated, automatonIs, negatedIs, opposite⟩
    exact ⟨_, automaton, negated, rfl, automatonIs, negatedIs, opposite⟩

theorem negates_plain (plain : ∀ ee, e = complement ee → False)
    (unmarked : e.containsMarkers = false) : Negates order alphabetSize e ↔
      ∃ automaton, e.toRawAutomaton order alphabetSize = some automaton ∧
        ComplementsBytes order alphabetSize automaton := by
  rw [negates_of_unmarked unmarked, to_raw_complement plain]
  constructor
  · rintro ⟨automaton, negated, automatonIs, negatedIs, opposite⟩
    rw [automatonIs, Option.bind_some] at negatedIs
    exact ⟨automaton, automatonIs, negated, negatedIs, opposite⟩
  · rintro ⟨automaton, automatonIs, negated, negatedIs, opposite⟩
    refine ⟨automaton, negated, automatonIs, ?_, opposite⟩
    rw [automatonIs, Option.bind_some]
    exact negatedIs

theorem negates_complement (unmarked : e.containsMarkers = false) :
    Negates order alphabetSize (complement e) ↔ Negates order alphabetSize e := by
  rw [negates_of_unmarked unmarked, negates_of_unmarked (complement_unmarked.mpr unmarked),
    toRawAutomaton.eq_6]
  constructor
  · rintro ⟨automaton, negated, automatonIs, negatedIs, opposite⟩
    refine ⟨negated, automaton, negatedIs, automatonIs, fun bytes below => ?_⟩
    rw [opposite bytes below, not_not]
  · rintro ⟨automaton, negated, automatonIs, negatedIs, opposite⟩
    refine ⟨negated, automaton, negatedIs, automatonIs, fun bytes below => ?_⟩
    rw [opposite bytes below, not_not]

/-- The negation is right when the automaton below the complements is complemented rightly. -/
theorem negates_stem : ∀ (regex : Regex), regex.containsMarkers = false →
    (Negates order alphabetSize regex ↔ ∃ automaton,
      (stem regex).toRawAutomaton order alphabetSize = some automaton ∧
        ComplementsBytes order alphabetSize automaton)
  | complement e, unmarked => by
    have inner := complement_unmarked.mp unmarked
    rw [negates_complement inner, stem]
    exact negates_stem e inner
  | single _, unmarked | concat _, unmarked | union _, unmarked | inter _, unmarked | star _ _, unmarked =>
    negates_plain (by rintro _ ⟨⟩) unmarked

theorem stem_unmarked : ∀ regex : Regex, regex.containsMarkers = false → (stem regex).containsMarkers = false
  | complement e, unmarked => stem_unmarked e (complement_unmarked.mp unmarked)
  | single _, unmarked | concat _, unmarked | union _, unmarked | inter _, unmarked | star _ _, unmarked =>
    unmarked

theorem double_negation {regex negation double : Regex} (first : regex.neg = some negation)
    (second : negation.neg = some double) :
    double.toRawAutomaton order alphabetSize = regex.toRawAutomaton order alphabetSize := by
  unfold neg at first second
  split_ifs at first second
  cases first
  cases second
  rw [toRawAutomaton.eq_6]

/-! ### Markers that are refused -/

theorem any_contains_iff {v : List Regex} :
    anyContainsMarkers v = false ↔ ∀ r ∈ v, r.containsMarkers = false := by
  induction v with
  | nil => exact iff_of_true rfl fun _ mem => absurd mem not_mem_nil
  | cons r v ih => rw [anyContainsMarkers, Bool.or_eq_false_iff, forall_mem_cons, ih]

theorem unmarked_inherited :
    Inherited (fun regex => regex.containsMarkers = false) (fun marker => marker = 0) False where
  single := fun bytes unmarked => by
    rw [containsMarkers, any_eq_false] at unmarked
    exact ⟨fun letter inside => of_not_not fun marked => unmarked letter inside (decide_eq_true marked),
      False.elim⟩
  concat := fun v => by rw [containsMarkers, any_contains_iff]
  union := fun v => by rw [containsMarkers, any_contains_iff]
  inter := fun v unmarked => by
    rw [containsMarkers] at unmarked
    exact any_contains_iff.mp unmarked
  star := fun strict r unmarked => by
    rw [containsMarkers] at unmarked
    exact unmarked
  relaxed := fun r => by
    cases r with
    | star strict r => rw [relaxed, containsMarkers, containsMarkers]
    | _ => exact Iff.rfl
  complement := fun r => complement_unmarked.mp

variable {automaton : RawAutomaton}

theorem single_of_zero (lettered : Lettered alphabetSize (fun marker => marker = 0) False automaton) :
    SingleMarker automaton := by
  refine ⟨0, ?_, lettered.markers⟩
  rintro used ⟨state, entry, step, rfl⟩
  exact (lettered.letters state entry step).2

theorem to_raw_single (small : alphabetSize ≤ alphabetMaxSize) {regex : Regex}
    (unmarked : regex.containsMarkers = false)
    (found : regex.toRawAutomaton order alphabetSize = some automaton) : SingleMarker automaton :=
  single_of_zero (to_raw_keeps unmarked_inherited (Operation.lettered rfl small) regex unmarked found)

theorem negates_iff (pos : 0 < alphabetSize) (small : alphabetSize ≤ alphabetMaxSize) {regex : Regex}
    (unmarked : regex.containsMarkers = false) :
    Negates order alphabetSize regex ↔ ∃ automaton,
      (stem regex).toRawAutomaton order alphabetSize = some automaton ∧
        automaton.Completable alphabetSize := by
  rw [negates_stem regex unmarked]
  apply exists_congr
  intro automaton
  apply and_congr_right
  intro found
  exact complements_iff (to_raw_lettered small _ found).encodable
    (to_raw_single small (stem_unmarked regex unmarked) found) pos small

/-- `any` is complete as it is; anything else that is proper has to read a letter, and not to claim that
it is complete. -/
def Negatable (e : Regex) : Prop :=
  e = inter [] ∨ (e.Proper ∧ e.claimsComplete = false ∧ ∃ word ∈ e.meaning, word ≠ [])

theorem negatable_completable (negatable : e.Negatable) : ∃ automaton,
    e.toRawAutomaton order alphabetMaxSize = some automaton ∧ automaton.Completable alphabetMaxSize := by
  rcases negatable with rfl | ⟨proper, unclaimed, word, inside, some_⟩
  · rcases universal_carries with ⟨automaton, found, carries⟩
    refine ⟨automaton, by rw [toRawAutomaton, found]; rfl, ?_⟩
    have step := @universal_step alphabetMaxSize automaton found
    have flags : (automaton.deterministic && automaton.complete) = true := by
      rw [(universal_some.mp found).2]
      rfl
    unfold Completable
    rw [if_pos flags]
    refine ⟨swapped_range carries.toInRange, fun state reachable byte below => ?_⟩
    have initial : state = 0 := by
      have inside : state < automaton.nbStates := by
        cases reachable with
        | refl => exact carries.initial
        | tail _ edge =>
          rcases edge with ⟨letter, taken⟩
          exact carries.targets _ _ taken
      rw [(universal_some.mp found).2] at inside
      exact Nat.lt_one_iff.mp inside
    refine ⟨(Letter.ofByte byte, 0), step.mpr ⟨initial, rfl, rfl, below⟩, rfl⟩
  · rcases proper_converts order e proper with ⟨automaton, found, carries, claims⟩
    refine ⟨automaton, found, ?_⟩
    have incomplete : automaton.complete = false := by
      rw [← Bool.not_eq_true]
      intro flag
      rw [unclaimed] at claims
      cases claims flag
    have unflagged : (automaton.deterministic && automaton.complete) = false := by
      rw [incomplete, Bool.and_false]
    unfold Completable
    rw [unflagged, if_neg Bool.false_ne_true]
    refine ⟨carries.toInRange.traversable, ?_⟩
    rw [← carries.words] at inside
    rcases exists_mem_of_ne_nil word some_ with ⟨letter, mem⟩
    rcases accepted_letters inside letter mem with ⟨source, target, step⟩
    exact ⟨letter.marker, (to_raw_lettered le_rfl e found).encodable.encodes unflagged _
      ⟨source, _, step, rfl⟩⟩

/-- Complements of built automata, negations of regular expressions, and double negations. -/
theorem complement_iff_completable (order : HashOrder) (alphabetSize : Nat) (positive : 0 < alphabetSize)
    (small : alphabetSize ≤ alphabetMaxSize) :
    (∀ automaton, Built order alphabetSize automaton → automaton.SingleMarker →
      (ComplementsBytes order alphabetSize automaton ↔ automaton.Completable alphabetSize)) ∧
    (∀ automaton, Built order alphabetSize automaton →
      (automaton.deterministic && automaton.complete) = false → Traversable automaton →
        ∃ result, complemented order alphabetSize automaton = some result ∧ ∀ word,
          word ∈ result.language ↔ (∀ letter ∈ word, letter.char.toNat < alphabetSize ∧
            letter.marker ∈ automaton.markers) ∧ word ∉ automaton.language) ∧
    (∀ regex : Regex, regex.containsMarkers = false →
      (Negates order alphabetSize regex ↔ ∃ automaton,
        (stem regex).toRawAutomaton order alphabetSize = some automaton ∧
          automaton.Completable alphabetSize)) ∧
    (∀ regex : Regex, regex.containsMarkers = false → (stem regex).Negatable →
      Negates order alphabetMaxSize regex) ∧
    ∀ regex negation double : Regex, regex.neg = some negation → negation.neg = some double →
      double.toRawAutomaton order alphabetSize = regex.toRawAutomaton order alphabetSize := by
  refine ⟨fun automaton built single => ?_, fun automaton built unflagged traversable => ?_,
    fun regex unmarked => negates_iff positive small unmarked, fun regex unmarked negatable => ?_,
    fun regex negation double first second => double_negation first second⟩
  · rcases built with ⟨steps, pool, run, mem⟩
    exact complements_iff (run.encodable small mem) single positive small
  · rcases built with ⟨steps, pool, run, mem⟩
    exact completed_language (run.encodable small mem) unflagged traversable small
  · exact (negates_iff (by decide) le_rfl unmarked).mpr (negatable_completable negatable)

/-- Without automata the flags of a concatenation are set: the byte 97 is read by neither the empty
word nor its negation. -/
theorem epsilon_not_negated : (∃ automaton, RawAutomaton.concat [] = some automaton ∧
      Built HashOrder.inOrder 256 automaton ∧ ¬ ComplementsBytes HashOrder.inOrder 256 automaton) ∧
    Regex.epsilon.containsMarkers = false ∧ ¬ Negates HashOrder.inOrder 256 Regex.epsilon := by
  have concatenated : RawAutomaton.concat [] = some { RawAutomaton.epsilon with complete := true } := by
    decide
  have built : Built HashOrder.inOrder 256 { RawAutomaton.epsilon with complete := true } :=
    @Built.apply _ 256 .concat [] _ (fun _ mem => absurd mem not_mem_nil) concatenated
  have uncompletable : ¬ Completable 256 { RawAutomaton.epsilon with complete := true } := by
    rintro ⟨-, reads⟩
    rcases reads 0 .refl 97 (by decide) with ⟨entry, step, -⟩
    exact absurd step not_mem_nil
  have lettered : Lettered 256 (fun marker => marker = 0) False { RawAutomaton.epsilon with complete := true } :=
    concat_letters (fun _ absent => absurd absent not_mem_nil) concatenated
  have wrong : ¬ ComplementsBytes HashOrder.inOrder 256 { RawAutomaton.epsilon with complete := true } := by
    rw [complements_iff lettered.encodable (single_of_zero lettered) (by decide) (by decide)]
    exact uncompletable
  have unmarked : Regex.epsilon.containsMarkers = false := by
    rw [Regex.epsilon, containsMarkers, anyContainsMarkers]
  refine ⟨⟨_, concatenated, built, wrong⟩, unmarked, ?_⟩
  rw [negates_stem _ unmarked]
  rintro ⟨automaton, converted, complements⟩
  have pieces : concatPieces (concatMembersOf []) [] = [] := by
    rw [concatMembersOf, concatPieces, if_pos rfl]
  have whole := @to_raw_concat HashOrder.inOrder []
  rw [pieces, mapM_nil] at whole
  cases concatenated.symm.trans (whole.symm.trans converted)
  exact wrong complements

/-- The negation of `ab|c`, and the automaton of `ab`. -/
theorem complement_iff_completable_bytes : 0 < 256 ∧ 256 ≤ alphabetMaxSize ∧
    (∃ automaton, Built HashOrder.inOrder 256 automaton ∧ automaton.SingleMarker ∧
      automaton.Completable 256 ∧ ComplementsBytes HashOrder.inOrder 256 automaton) ∧
    ∃ regex : Regex, regex.containsMarkers = false ∧ (stem regex).Negatable ∧
      Negates HashOrder.inOrder 256 regex := by
  have general := complement_iff_completable HashOrder.inOrder 256 (by decide) (by decide)
  refine ⟨by decide, by decide, ?_, ?_⟩
  · let word := [[Letter.ofByte 97], [Letter.ofByte 98]]
    have built : Built HashOrder.inOrder 256 (byteConcat word 256) :=
      @Built.apply _ 256 (.byteConcat word) [] _ (fun _ mem => absurd mem not_mem_nil) rfl
    have single : SingleMarker (byteConcat word 256) := single_of_zero (byte_concat_letters fun byteRange mem => ⟨by revert byteRange; decide, False.elim⟩)
    have completable : Completable 256 (byteConcat word 256) :=
      ⟨(byte_concat_carries word).toInRange.traversable, ⟨0, by decide⟩⟩
    exact ⟨_, built, single, completable, (general.1 _ built single).mpr completable⟩
  · let regex := complement (union [concat [single [Letter.ofByte 97], single [Letter.ofByte 98]],
      single [Letter.ofByte 99]])
    have unmarked : regex.containsMarkers = false := by decide
    have negatable : (stem regex).Negatable := by
      have proper : ∀ byte, (single [Letter.ofByte byte]).meaning ≠ 1 := by
        intro byte
        rw [meaning]
        exact range_words_proper (cons_ne_nil _ _)
      refine Or.inr ⟨⟨⟨⟨⟨trivial, trivial, trivial⟩, ?_⟩, trivial, trivial⟩, nofun⟩, by decide,
        [Letter.ofByte 99], ?_, cons_ne_nil _ _⟩
      · intro member mem
        simp only [concatMembersOf, concatMembers, append_nil, mem_append, mem_singleton] at mem
        rcases mem with rfl | rfl
        · exact proper 97
        · exact proper 98
      · refine mem_union_meaning.mpr ⟨single [Letter.ofByte 99], by simp [unionMembersOf, unionMembers], ?_⟩
        rw [meaning, mem_range_words_singleton]
        exact ⟨_, mem_singleton_self _, rfl⟩
    exact ⟨regex, unmarked, negatable, general.2.2.2.1 regex unmarked negatable⟩

end Regex

end Midfall.Regexes
