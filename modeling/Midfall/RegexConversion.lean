import Midfall.RawAutomatonRuns
import Midfall.Regexes

/-!
# Conversion of a regular expression

The parts that are converted one by one, and what every operation of the
conversion keeps: it holds of the automaton.
-/

namespace Midfall.Regexes

open RawAutomata RawAutomata.RawAutomaton List

namespace Regex

variable {order : HashOrder} {alphabetSize : Nat} {letter : Letter} {l : List Regex} {regex : Regex}
  {piece : Piece}

/-! ### Members and pieces -/

mutual

theorem concat_members_all {holds : Regex → Prop}
    (parts : ∀ v, holds (concat v) → ∀ r ∈ v, holds r) :
    ∀ regex : Regex, holds regex → ∀ mem ∈ concatMembers regex, holds mem
  | concat v, whole => by
    rw [concatMembers]
    exact concat_members_of_all parts v (parts v whole)
  | single _, whole | union _, whole | inter _, whole | star _ _, whole | complement _, whole => by
    rw [concatMembers, forall_mem_singleton]
    exact whole

theorem concat_members_of_all {holds : Regex → Prop}
    (parts : ∀ v, holds (concat v) → ∀ r ∈ v, holds r) :
    ∀ v : List Regex, (∀ r ∈ v, holds r) → ∀ mem ∈ concatMembersOf v, holds mem
  | [], _ => by
    rw [concatMembersOf]
    exact fun _ mem => absurd mem not_mem_nil
  | r :: v, all => by
    rw [concatMembersOf, forall_mem_append]
    rw [forall_mem_cons] at all
    exact ⟨concat_members_all parts r all.1, concat_members_of_all parts v all.2⟩

end

theorem exists_singleton {Item : Type} {holds : Item → Prop} {item : Item} :
    (∃ mem ∈ [item], holds mem) ↔ holds item := by
  simp only [mem_singleton, exists_eq_left]

theorem exists_append {Item : Type} {holds : Item → Prop} {items others : List Item} :
    (∃ mem ∈ items ++ others, holds mem) ↔
      (∃ mem ∈ items, holds mem) ∨ ∃ mem ∈ others, holds mem := by
  simp only [mem_append, or_and_right, exists_or]

mutual

theorem union_members_iff {holds : Regex → Prop}
    (parts : ∀ v, holds (union v) ↔ ∃ r ∈ v, holds r) :
    ∀ regex : Regex, (∃ mem ∈ unionMembers regex, holds mem) ↔ holds regex
  | union v => by
    rw [unionMembers, parts v, union_members_of_iff parts v]
  | single _ | concat _ | inter _ | star _ _ | complement _ => by
    rw [unionMembers, exists_singleton]

theorem union_members_of_iff {holds : Regex → Prop}
    (parts : ∀ v, holds (union v) ↔ ∃ r ∈ v, holds r) :
    ∀ v : List Regex, (∃ mem ∈ unionMembersOf v, holds mem) ↔ ∃ r ∈ v, holds r
  | [] => by
    rw [unionMembersOf]
  | r :: v => by
    rw [unionMembersOf, exists_append, exists_mem_cons_iff,
      union_members_iff parts r, union_members_of_iff parts v, or_comm]

end

mutual

theorem union_members_all {holds : Regex → Prop} (parts : ∀ v, holds (union v) → ∀ r ∈ v, holds r) :
    ∀ regex : Regex, holds regex → ∀ mem ∈ unionMembers regex, holds mem
  | union v, whole => by
    rw [unionMembers]
    exact union_members_of_all parts v (parts v whole)
  | single _, whole | concat _, whole | inter _, whole | star _ _, whole | complement _, whole => by
    rw [unionMembers, forall_mem_singleton]
    exact whole

theorem union_members_of_all {holds : Regex → Prop} (parts : ∀ v, holds (union v) → ∀ r ∈ v, holds r) :
    ∀ v : List Regex, (∀ r ∈ v, holds r) → ∀ mem ∈ unionMembersOf v, holds mem
  | [], _ => by
    rw [unionMembersOf]
    exact fun _ mem => absurd mem not_mem_nil
  | r :: v, all => by
    rw [unionMembersOf, forall_mem_append]
    rw [forall_mem_cons] at all
    exact ⟨union_members_of_all parts v all.2, union_members_all parts r all.1⟩

end

theorem concat_pieces_all {holds : Piece → Prop} {l : List Regex}
    (ranges : ∀ word, word ≠ [] → (∀ byteRange ∈ word, single byteRange ∈ l) → holds (.ranges word))
    (others : ∀ regex ∈ l, holds (.other regex)) :
    ∀ (later : List Regex) (singles : List (List Letter)), (∀ regex ∈ later, regex ∈ l) →
      (∀ byteRange ∈ singles, single byteRange ∈ l) → ∀ piece ∈ concatPieces later singles, holds piece := by
  intro later
  induction later with
  | nil =>
    intro singles _ singlesIn piece mem
    rw [concatPieces] at mem
    split_ifs at mem with none
    · exact absurd mem not_mem_nil
    · rw [mem_singleton.mp mem]
      exact ranges singles none singlesIn
  | cons first later ih =>
    intro singles laterIn singlesIn piece mem
    rw [forall_mem_cons] at laterIn
    have general : piece ∈ (if singles = [] then [] else [Piece.ranges singles]) ++
        Piece.other first :: concatPieces later [] → holds piece := by
      intro inside
      rcases mem_append.mp inside with before | after
      · split_ifs at before with none
        · exact absurd before not_mem_nil
        · rw [mem_singleton.mp before]
          exact ranges singles none singlesIn
      · rcases mem_cons.mp after with rfl | rest
        · exact others first laterIn.1
        · exact ih [] laterIn.2 (fun _ absent => absurd absent not_mem_nil) piece rest
    cases first with
    | single bytes =>
      rw [concatPieces] at mem
      refine ih _ laterIn.2 (fun byteRange inside => ?_) piece mem
      rcases mem_append.mp inside with before | last
      · exact singlesIn byteRange before
      · rw [mem_singleton.mp last]
        exact laterIn.1
    | concat _ | union _ | inter _ | star _ _ | complement _ => exact general mem

theorem mem_single_bytes :
    letter ∈ regex.singleBytes ↔ ∃ bytes, regex = single bytes ∧ letter ∈ bytes := by
  cases regex with
  | single bytes =>
    constructor
    · exact fun inside => ⟨bytes, rfl, inside⟩
    · rintro ⟨other, same, inside⟩
      cases same
      exact inside
  | _ =>
    apply iff_of_false
    · exact not_mem_nil
    · rintro ⟨bytes, same, -⟩
      cases same

/-- The pieces of a union: a member that is kept, maybe relaxed, or all bytes of the ranges. -/
theorem mem_union_pieces : piece ∈ (unionPieces order l).1 ↔
    (∃ mem ∈ unionMembersOf l, mem.isOther = true ∧
      piece = .other (if (unionMembersOf l).any isEpsilon then relaxed mem else mem)) ∨
    (((unionMembersOf l).flatMap singleBytes).dedup ≠ [] ∧
      piece = .ranges [order.arrange ((unionMembersOf l).flatMap singleBytes).dedup]) := by
  unfold unionPieces
  dsimp only
  rw [mem_append]
  apply or_congr
  · rw [mem_map]
    split_ifs
    · constructor
      · rintro ⟨_, inside, rfl⟩
        rcases mem_map.mp inside with ⟨mem, memberIn, rfl⟩
        exact ⟨mem, (mem_filter.mp memberIn).1, (mem_filter.mp memberIn).2, rfl⟩
      · rintro ⟨mem, memberIn, other, rfl⟩
        exact ⟨_, mem_map_of_mem (mem_filter.mpr ⟨memberIn, other⟩), rfl⟩
    · constructor
      · rintro ⟨mem, inside, rfl⟩
        exact ⟨mem, (mem_filter.mp inside).1, (mem_filter.mp inside).2, rfl⟩
      · rintro ⟨mem, memberIn, other, rfl⟩
        exact ⟨mem, mem_filter.mpr ⟨memberIn, other⟩, rfl⟩
  · split_ifs with none
    · exact iff_of_false not_mem_nil fun both => both.1 none
    · rw [mem_singleton]
      exact (and_iff_right none).symm

theorem mem_all_singles :
    letter ∈ order.arrange ((unionMembersOf l).flatMap singleBytes).dedup ↔
      ∃ mem ∈ unionMembersOf l, letter ∈ mem.singleBytes := by
  rw [order.mem_arrange, mem_dedup, mem_flatMap]

theorem kept_member {holds : Regex → Prop} {mem : Regex} {condition : Prop} [Decidable condition]
    (invariant : holds (relaxed mem) ↔ holds mem) :
    holds (if condition then relaxed mem else mem) ↔ holds mem := by
  split_ifs
  · exact invariant
  · exact Iff.rfl

/-! ### What the operations keep -/

/-- A property of a regular expression that passes to its parts, down to the ranges. -/
structure Inherited (holds : Regex → Prop) (allowed : Nat → Prop) (strict : Prop) : Prop where
  single : ∀ bytes, holds (single bytes) → RangeFits allowed strict bytes
  concat : ∀ v, holds (concat v) ↔ ∀ r ∈ v, holds r
  union : ∀ v, holds (union v) ↔ ∀ r ∈ v, holds r
  inter : ∀ v, holds (inter v) → ∀ r ∈ v, holds r
  star : ∀ strict r, holds (star strict r) → holds r
  relaxed : ∀ r, holds (relaxed r) ↔ holds r
  complement : ∀ r, holds (complement r) → holds r

variable {holds : Regex → Prop} {allowed : Nat → Prop} {strict : Prop}

def Piece.Inherits (holds : Regex → Prop) (allowed : Nat → Prop) (strict : Prop) : Piece → Prop
  | .ranges word => ∀ byteRange ∈ word, RangeFits allowed strict byteRange
  | .other regex => holds regex

section

variable (inherited : Inherited holds allowed strict) (all : ∀ r ∈ l, holds r)

include inherited all

theorem concat_pieces_inherit :
    ∀ piece ∈ concatPieces (concatMembersOf l) [], piece.Inherits holds allowed strict := by
  have members := concat_members_of_all (fun v => (inherited.concat v).mp) l all
  refine @concat_pieces_all (fun piece => piece.Inherits holds allowed strict) (concatMembersOf l) ?_ members _ _
    (fun _ mem => mem) fun _ absent => absurd absent not_mem_nil
  intro word _ singles byteRange mem
  exact inherited.single byteRange (members _ (singles byteRange mem))

theorem union_pieces_inherit :
    ∀ piece ∈ (unionPieces order l).1, piece.Inherits holds allowed strict := by
  have members := union_members_of_all (fun v => (inherited.union v).mp) l all
  intro piece mem
  rcases mem_union_pieces.mp mem with ⟨kept, keptIn, -, rfl⟩ | ⟨-, rfl⟩
  · exact (kept_member (inherited.relaxed kept)).mpr (members kept keptIn)
  · intro byteRange rangeIn
    rw [mem_singleton.mp rangeIn]
    refine ⟨fun letter inside => ?_, fun _ => order.nodup_arrange.mpr (nodup_dedup _)⟩
    rcases mem_all_singles.mp inside with ⟨range, memberIn, found⟩
    rcases mem_single_bytes.mp found with ⟨bytes, rfl, byteIn⟩
    exact (inherited.single bytes (members _ memberIn)).1 letter byteIn

end

variable {Holds : RawAutomaton → Prop} {automaton : RawAutomaton}

theorem to_raw_keeps (inherited : Inherited holds allowed strict)
    (preserved : ∀ (operation : Operation) (arguments : List RawAutomaton) (result : RawAutomaton),
      operation.Marks allowed strict → (∀ argument ∈ arguments, Holds argument) →
        operation.apply order alphabetSize arguments = some result → Holds result)
    (regex : Regex) (here : holds regex) (found : regex.toRawAutomaton order alphabetSize = some automaton) :
    Holds automaton := by
  have ranges : ∀ word : List (List Letter), (∀ byteRange ∈ word, RangeFits allowed strict byteRange) →
      Holds (byteConcat word alphabetSize) := fun word fits =>
    preserved (.byteConcat word) [] _ fits (fun _ mem => absurd mem not_mem_nil) rfl
  have one : ∀ {operation : Operation} {argument result : RawAutomaton}, operation.Marks allowed strict →
      Holds argument → operation.apply order alphabetSize [argument] = some result → Holds result := by
    intro operation argument result marks kept
    exact preserved operation [argument] result marks fun other mem => mem_singleton.mp mem ▸ kept
  induction regex using toRawAutomaton.induct order generalizing automaton with
  | case1 bytes =>
    rw [toRawAutomaton] at found
    cases found
    apply ranges
    intro byteRange mem
    rw [mem_singleton.mp mem]
    exact inherited.single bytes here
  | case2 l ih =>
    rw [toRawAutomaton] at found
    rcases bind_some_iff.mp found with ⟨automata, run, concatenated⟩
    apply preserved .concat automata automaton trivial _ concatenated
    intro other mem
    rcases (ListLoops.mem_map_m run).mp mem with ⟨⟨piece, inside⟩, -, result⟩
    have inherits := concat_pieces_inherit inherited ((inherited.concat l).mp here) piece inside
    cases piece with
    | ranges word =>
      cases result
      exact ranges word inherits
    | other regex => exact ih regex inside inherits result
  | case3 l ih =>
    rw [toRawAutomaton] at found
    rcases bind_some_iff.mp found with ⟨automata, run, rest⟩
    have kept : ∀ other ∈ automata, Holds other := by
      intro other mem
      rcases (ListLoops.mem_map_m run).mp mem with ⟨⟨piece, inside⟩, -, result⟩
      have inherits := union_pieces_inherit inherited ((inherited.union l).mp here) piece inside
      cases piece with
      | ranges word =>
        cases result
        exact ranges word inherits
      | other regex => exact ih regex inside inherits result
    dsimp only at rest
    split_ifs at rest
    · rcases bind_some_iff.mp rest with ⟨flattened, flattenedIs, united⟩
      refine preserved .union flattened automaton trivial (fun other mem => ?_) united
      unfold optionalLast at flattenedIs
      cases last : automata.getLast? with
      | none =>
        rw [last] at flattenedIs
        cases flattenedIs
        rw [mem_singleton.mp mem]
        exact preserved .epsilon [] _ trivial (fun _ absent => absurd absent not_mem_nil) rfl
      | some final =>
        rw [last] at flattenedIs
        rcases bind_some_iff.mp flattenedIs with ⟨optional, optionalIs, same⟩
        cases same
        rcases mem_append.mp mem with before | added
        · exact kept other (dropLast_subset automata before)
        · rw [mem_singleton.mp added]
          exact @one .makeOptional final optional trivial (kept final (mem_of_getLast? last)) optionalIs
    · exact preserved .union automata automaton trivial kept rest
  | case4 l ih =>
    rw [toRawAutomaton] at found
    rcases bind_some_iff.mp found with ⟨start, startIs, run⟩
    have kept := preserved .universal [] start trivial (fun _ mem => absurd mem not_mem_nil) startIs
    have parts := inherited.inter l here
    clear startIs found here
    generalize l.attach = members at run
    induction members generalizing start with
    | nil =>
      cases run
      exact kept
    | cons first members later =>
      rw [foldlM_cons] at run
      rcases bind_some_iff.mp run with ⟨next, nextIs, rest⟩
      rcases bind_some_iff.mp nextIs with ⟨other, otherIs, joined⟩
      apply later next _ rest
      apply preserved .inter [start, other] next trivial _ joined
      intro argument mem
      rcases mem_pair.mp mem with rfl | rfl
      · exact kept
      · exact ih first (parts first.1 first.2) otherIs
  | case5 strict e ih =>
    rw [toRawAutomaton] at found
    rcases bind_some_iff.mp found with ⟨inner, innerIs, rest⟩
    have kept := ih (inherited.star strict e here) innerIs
    split_ifs at rest
    · exact @one .strictRepeat inner automaton trivial kept rest
    · exact @one .weakRepeat inner automaton trivial kept rest
  | case6 ee ih =>
    rw [toRawAutomaton] at found
    exact ih (inherited.complement ee (inherited.complement _ here)) found
  | case7 e plain ih =>
    rw [toRawAutomaton.eq_7 order alphabetSize e plain] at found
    rcases bind_some_iff.mp found with ⟨inner, innerIs, rest⟩
    rcases bind_some_iff.mp rest with ⟨determinised, determinisedIs, swapped⟩
    have kept := ih (inherited.complement e here) innerIs
    exact @one .complement determinised automaton trivial
      (@one (.determinise true) inner determinised trivial kept determinisedIs) swapped

theorem to_raw_lettered (small : alphabetSize ≤ ScannerAutomaton.alphabetMaxSize) (regex : Regex)
    (found : regex.toRawAutomaton order alphabetSize = some automaton) :
    Lettered alphabetSize (fun _ => True) False automaton := by
  refine @to_raw_keeps order alphabetSize (fun _ => True) (fun _ => True) False _ automaton
    ⟨fun _ _ => ⟨fun _ _ => trivial, False.elim⟩, fun _ => iff_of_true trivial fun _ _ => trivial,
      fun _ => iff_of_true trivial fun _ _ => trivial, fun _ _ _ _ => trivial, fun _ _ _ => trivial,
      fun _ => Iff.rfl, fun _ _ => trivial⟩ ?_ regex trivial found
  exact fun operation arguments result => Operation.lettered trivial small operation arguments result

theorem to_raw_complement {e : Regex} (plain : ∀ ee, e = complement ee → False) :
    (complement e).toRawAutomaton order alphabetSize =
      (e.toRawAutomaton order alphabetSize).bind fun automaton =>
        automaton.complemented order alphabetSize := by
  rw [toRawAutomaton.eq_7 order alphabetSize e plain]
  rfl

end Regex

end Midfall.Regexes
