import Midfall.RawAutomatonLetters
import Midfall.RegexConversion

/-!
# Meaning of a regular expression

The marked words of a regular expression, constructor by constructor. The
conversion agrees with them when no part of a concatenation and no iterated
expression stands for the empty word alone, and when a complement has something
to be completed with, of one marker.
-/

namespace Midfall.Regexes

open RawAutomata RawAutomata.RawAutomaton List
open ScannerAutomaton (alphabetMaxSize)
open Computability

namespace Regex

variable {order : HashOrder}

/-! ### Letters and words -/

mutual

def letters : Regex → Set Letter
  | single bytes => {letter | letter ∈ bytes}
  | concat v => {letter | ∃ part ∈ lettersOf v, letter ∈ part}
  | union v => {letter | ∃ part ∈ lettersOf v, letter ∈ part}
  | inter v => (lettersOf v).foldl joins plainLetters
  | star _ r => r.letters
  | complement (complement ee) => ee.letters
  | complement r => remarked r.letters

def lettersOf : List Regex → List (Set Letter)
  | [] => []
  | r :: v => r.letters :: lettersOf v

end

mutual

def meaning : Regex → Language Letter
  | single bytes => rangeWords [bytes]
  | concat v => (meaningOf v).prod
  | union v => {word | ∃ part ∈ meaningOf v, word ∈ part}
  | inter v => (meaningOf v).foldl overlay (wordsOver plainLetters)
  | star strict r => if strict then r.meaning * r.meaning∗ else r.meaning∗
  | complement r => {word | word ∈ wordsOver (remarked r.letters) ∧ word ∉ r.meaning}

def meaningOf : List Regex → List (Language Letter)
  | [] => []
  | r :: v => r.meaning :: meaningOf v

end

mutual

def claimsComplete : Regex → Bool
  | single _ => false
  | concat v => allClaimComplete v
  | union v => anyClaimsComplete v
  | inter v => v.isEmpty
  | star _ r => r.claimsComplete
  | complement (complement ee) => ee.claimsComplete
  | complement _ => false

def allClaimComplete : List Regex → Bool
  | [] => true
  | r :: v => r.claimsComplete && allClaimComplete v

def anyClaimsComplete : List Regex → Bool
  | [] => false
  | r :: v => r.claimsComplete || anyClaimsComplete v

end

/-- Letters of one marker are read, and the flag is off. -/
structure Completes (e : Regex) : Prop where
  unflagged : e.claimsComplete = false
  read : ∃ word ∈ e.meaning, word ≠ []
  single : ∀ letter ∈ e.letters, ∀ other ∈ e.letters, letter.marker = other.marker

mutual

/-- Nothing is put in sequence or iterated weakly that stands for the empty word alone, and what is
complemented can be completed. Next to the empty word every iteration is weak. -/
def Proper : Regex → Prop
  | single _ => True
  | concat v => AllProper v ∧ ∀ member ∈ concatMembersOf v, member.meaning ≠ 1
  | union v => AllProper v ∧ ((unionMembersOf v).any isEpsilon = true →
      ∀ strict r, star strict r ∈ unionMembersOf v → r.meaning ≠ 1)
  | inter v => AllProper v
  | star strict r => r.Proper ∧ (strict = true ∨ r.meaning ≠ 1)
  | complement (complement ee) => ee.Proper
  | complement e => e.Proper ∧ e.Completes

def AllProper : List Regex → Prop
  | [] => True
  | r :: v => r.Proper ∧ AllProper v

end

theorem letters_of_map (v : List Regex) : lettersOf v = v.map letters := by
  induction v with
  | nil => rfl
  | cons r v ih => rw [lettersOf, ih, map_cons]

theorem meaning_of_map (v : List Regex) : meaningOf v = v.map meaning := by
  induction v with
  | nil => rfl
  | cons r v ih => rw [meaningOf, ih, map_cons]

variable {v : List Regex} {bound : Set Letter} {words : Language Letter}

theorem all_proper_iff : AllProper v ↔ ∀ r ∈ v, r.Proper := by
  induction v with
  | nil => exact iff_of_true trivial fun _ mem => absurd mem not_mem_nil
  | cons r v ih => rw [AllProper, forall_mem_cons, ih]

theorem all_claim_iff : allClaimComplete v = true ↔ ∀ r ∈ v, r.claimsComplete = true := by
  induction v with
  | nil => exact iff_of_true rfl fun _ mem => absurd mem not_mem_nil
  | cons r v ih => rw [allClaimComplete, forall_mem_cons, Bool.and_eq_true, ih]

theorem any_claims_iff : anyClaimsComplete v = true ↔ ∃ r ∈ v, r.claimsComplete = true := by
  induction v with
  | nil => exact iff_of_false nofun fun ⟨_, mem, _⟩ => absurd mem not_mem_nil
  | cons r v ih => rw [anyClaimsComplete, exists_mem_cons_iff, Bool.or_eq_true, ih]

theorem remarked_idem (letters : Set Letter) : remarked (remarked letters) = remarked letters := by
  apply Set.ext
  intro letter
  constructor
  · rintro ⟨other, ⟨first, mem, equal⟩, marker⟩
    exact ⟨first, mem, equal.trans marker⟩
  · exact fun mem => ⟨letter, mem, rfl⟩

theorem remarked_complement : ∀ e : Regex, remarked (complement e).letters = remarked e.letters
  | complement ee => by
    rw [letters]
    exact (remarked_complement ee).symm
  | single bytes => by rw [letters.eq_7 (single bytes) nofun, remarked_idem]
  | concat v => by rw [letters.eq_7 (concat v) nofun, remarked_idem]
  | union v => by rw [letters.eq_7 (union v) nofun, remarked_idem]
  | inter v => by rw [letters.eq_7 (inter v) nofun, remarked_idem]
  | star strict r => by rw [letters.eq_7 (star strict r) nofun, remarked_idem]

theorem plain_complement_letters {e : Regex} (plain : ∀ ee, e = complement ee → False) :
    ∀ word ∈ (complement e).meaning, word ∈ wordsOver (complement e).letters := by
  intro word inside
  rw [meaning] at inside
  rw [letters.eq_7 e plain]
  exact inside.1

theorem words_over_mul {others : Language Letter} (first : ∀ word ∈ words, word ∈ wordsOver bound)
    (second : ∀ word ∈ others, word ∈ wordsOver bound) :
    ∀ word ∈ words * others, word ∈ wordsOver bound := by
  intro word inside
  rcases Language.mem_mul.mp inside with ⟨left, leftIn, right, rightIn, rfl⟩
  intro letter mem
  rcases mem_append.mp mem with before | after
  · exact first left leftIn letter before
  · exact second right rightIn letter after

theorem words_over_kstar (bounded : ∀ word ∈ words, word ∈ wordsOver bound) :
    ∀ word ∈ words∗, word ∈ wordsOver bound := by
  intro word inside
  rcases Language.mem_kstar.mp inside with ⟨parts, rfl, each⟩
  intro letter mem
  rcases mem_flatten.mp mem with ⟨part, partIn, letterIn⟩
  exact bounded part (each part partIn) letter letterIn

theorem words_over_prod (bounded : ∀ r ∈ v, ∀ word ∈ r.meaning, word ∈ wordsOver bound) :
    ∀ word ∈ (v.map meaning).prod, word ∈ wordsOver bound := by
  induction v with
  | nil =>
    intro word inside letter mem
    rw [map_nil, prod_nil, Language.mem_one] at inside
    rw [inside] at mem
    exact absurd mem not_mem_nil
  | cons r v ih =>
    rw [forall_mem_cons] at bounded
    rw [map_cons, prod_cons]
    exact words_over_mul bounded.1 (ih bounded.2)

theorem words_over_overlay (parts : ∀ r ∈ v, ∀ word ∈ r.meaning, word ∈ wordsOver r.letters)
    (bounded : ∀ word ∈ words, word ∈ wordsOver bound) :
    ∀ word ∈ (v.map meaning).foldl overlay words, word ∈ wordsOver ((v.map letters).foldl joins bound) := by
  induction v generalizing words bound with
  | nil => exact bounded
  | cons r v ih =>
    rw [forall_mem_cons] at parts
    apply ih parts.2
    rintro word ⟨word1, first, word2, second, joined⟩
    exact joined_words_over joined (bounded word1 first) (parts.1 word2 second)

mutual

theorem meaning_letters : ∀ regex : Regex, ∀ word ∈ regex.meaning, word ∈ wordsOver regex.letters
  | single bytes => by
    intro word inside
    rw [meaning, mem_range_words_singleton] at inside
    rcases inside with ⟨letter, letterIn, rfl⟩
    intro other mem
    rw [mem_singleton.mp mem, letters]
    exact letterIn
  | concat v => by
    rw [meaning, meaning_of_map]
    apply words_over_prod
    intro r mem word inside letter letterIn
    rw [letters, letters_of_map]
    exact ⟨_, mem_map_of_mem mem, all_meaning_letters v r mem word inside letter letterIn⟩
  | union v => by
    intro word inside
    rw [meaning, meaning_of_map] at inside
    rcases inside with ⟨part, partIn, read⟩
    rcases mem_map.mp partIn with ⟨r, mem, rfl⟩
    intro letter letterIn
    rw [letters, letters_of_map]
    exact ⟨_, mem_map_of_mem mem, all_meaning_letters v r mem word read letter letterIn⟩
  | inter v => by
    rw [meaning, letters, meaning_of_map, letters_of_map]
    exact words_over_overlay (all_meaning_letters v) fun word plain => plain
  | star strict r => by
    have inner := meaning_letters r
    rw [meaning, letters]
    split_ifs
    · exact words_over_mul inner (words_over_kstar inner)
    · exact words_over_kstar inner
  | complement (complement ee) => by
    intro word inside
    rw [letters]
    rw [meaning, remarked_complement] at inside
    by_contra missing
    apply inside.2
    rw [meaning]
    exact ⟨inside.1, fun read => missing (meaning_letters ee word read)⟩
  | complement (single bytes) => plain_complement_letters nofun
  | complement (concat v) => plain_complement_letters nofun
  | complement (union v) => plain_complement_letters nofun
  | complement (inter v) => plain_complement_letters nofun
  | complement (star strict r) => plain_complement_letters nofun

theorem all_meaning_letters : ∀ v : List Regex, ∀ r ∈ v, ∀ word ∈ r.meaning, word ∈ wordsOver r.letters
  | [] => fun _ mem => absurd mem not_mem_nil
  | r :: v => by
    rw [forall_mem_cons]
    exact ⟨meaning_letters r, all_meaning_letters v⟩

end

theorem double_complement_meaning (ee : Regex) : (complement (complement ee)).meaning = ee.meaning := by
  rw [meaning, meaning, remarked_complement]
  apply Language.ext
  intro word
  constructor
  · rintro ⟨inside, outside⟩
    by_contra missing
    exact outside ⟨inside, missing⟩
  · intro inside
    exact ⟨fun letter mem => ⟨letter, meaning_letters ee word inside letter mem, rfl⟩,
      fun both => both.2 inside⟩

/-! ### Flattened members -/

mutual

theorem concat_members_meaning : ∀ regex : Regex,
    ((concatMembers regex).map meaning).prod = regex.meaning
  | concat v => by
    rw [concatMembers, concat_members_of_meaning v, meaning, meaning_of_map]
  | single _ | union _ | inter _ | star _ _ | complement _ => by
    rw [concatMembers, map_singleton, prod_singleton]

theorem concat_members_of_meaning : ∀ v : List Regex,
    ((concatMembersOf v).map meaning).prod = (v.map meaning).prod
  | [] => by
    rw [concatMembersOf]
  | r :: v => by
    rw [concatMembersOf, map_append, prod_append, concat_members_meaning r,
      concat_members_of_meaning v, map_cons, prod_cons]

end

mutual

theorem concat_members_whole {holds : Regex → Prop}
    (whole : ∀ v, (∀ r ∈ v, holds r) → holds (concat v)) :
    ∀ regex : Regex, (∀ mem ∈ concatMembers regex, holds mem) → holds regex
  | concat v, all => by
    rw [concatMembers] at all
    exact whole v (concat_members_of_whole whole v all)
  | single bytes, all => by
    rw [concatMembers, forall_mem_singleton] at all
    exact all
  | union v, all => by
    rw [concatMembers, forall_mem_singleton] at all
    exact all
  | inter v, all => by
    rw [concatMembers, forall_mem_singleton] at all
    exact all
  | star strict r, all => by
    rw [concatMembers, forall_mem_singleton] at all
    exact all
  | complement r, all => by
    rw [concatMembers, forall_mem_singleton] at all
    exact all

theorem concat_members_of_whole {holds : Regex → Prop}
    (whole : ∀ v, (∀ r ∈ v, holds r) → holds (concat v)) :
    ∀ v : List Regex, (∀ mem ∈ concatMembersOf v, holds mem) → ∀ r ∈ v, holds r
  | [], _ => fun _ mem => absurd mem not_mem_nil
  | r :: v, all => by
    rw [concatMembersOf, forall_mem_append] at all
    rw [forall_mem_cons]
    exact ⟨concat_members_whole whole r all.1, concat_members_of_whole whole v all.2⟩

end

/-! ### Pieces -/

namespace Piece

def letters : Piece → Set Letter
  | ranges word => {letter | ∃ byteRange ∈ word, letter ∈ byteRange}
  | other regex => regex.letters

def meaning : Piece → Language Letter
  | ranges word => rangeWords word
  | other regex => regex.meaning

def claimsComplete : Piece → Bool
  | ranges _ => false
  | other regex => regex.claimsComplete

def toRawAutomaton (order : HashOrder) : Piece → Option RawAutomaton
  | ranges word => some (byteConcat word alphabetMaxSize)
  | other regex => regex.toRawAutomaton order alphabetMaxSize

end Piece

theorem map_m_attach {Input Output : Type} {inputs : List Input}
    {step : {input // input ∈ inputs} → Option Output} {plain : Input → Option Output}
    (same : ∀ input, step input = plain input.1) : inputs.attach.mapM step = inputs.mapM plain := by
  have steps : step = fun input => plain input.1 := funext same
  rw [steps]
  calc inputs.attach.mapM (fun input => plain input.1)
      = (inputs.attach.map Subtype.val).mapM plain := (mapM_map).symm
    _ = inputs.mapM plain := by rw [attach_map_subtype_val]

theorem fold_m_attach {Item State : Type} (items : List Item) (step : State → Item → Option State)
    (start : State) : items.attach.foldlM (fun state item => step state item.1) start =
      items.foldlM step start := by
  calc items.attach.foldlM (fun state item => step state item.1) start
      = (items.attach.map Subtype.val).foldlM step start := (foldlM_map).symm
    _ = items.foldlM step start := by rw [attach_map_subtype_val]

theorem to_raw_concat (l : List Regex) : (concat l).toRawAutomaton order alphabetMaxSize =
    ((concatPieces (concatMembersOf l) []).mapM (Piece.toRawAutomaton order)).bind RawAutomaton.concat := by
  rw [toRawAutomaton, Option.bind_eq_bind]
  congr 1
  apply map_m_attach
  rintro ⟨piece, inside⟩
  cases piece with
  | ranges word => rfl
  | other regex => rfl

theorem to_raw_union (l : List Regex) : (union l).toRawAutomaton order alphabetMaxSize =
    ((unionPieces order l).1.mapM (Piece.toRawAutomaton order)).bind fun automata =>
      (if (unionPieces order l).2 then optionalLast automata else some automata).bind fun flattened =>
        RawAutomaton.union order flattened alphabetMaxSize := by
  rw [toRawAutomaton, Option.bind_eq_bind]
  congr 1
  · apply map_m_attach
    rintro ⟨piece, inside⟩
    cases piece with
    | ranges word => rfl
    | other regex => rfl
  · funext automata
    split_ifs <;> rfl

/-- The conversion reads the words that are meant. -/
def Converts (order : HashOrder) (regex : Regex) : Prop :=
  ∃ automaton, regex.toRawAutomaton order alphabetMaxSize = some automaton ∧
    Carries regex.letters regex.meaning automaton ∧
      (automaton.complete = true → regex.claimsComplete = true)

def Piece.Converts (order : HashOrder) (piece : Piece) : Prop :=
  ∃ automaton, piece.toRawAutomaton order = some automaton ∧
    Carries piece.letters piece.meaning automaton ∧
      (automaton.complete = true → piece.claimsComplete = true)

theorem ranges_convert (word : List (List Letter)) : (Piece.ranges word).Converts order :=
  ⟨_, rfl, byte_concat_carries word, id⟩

variable {letter : Letter} {l : List Regex} {regex : Regex} {word : List Letter} {piece : Piece}

theorem pieces_convert {pieces : List Piece} (converts : ∀ piece ∈ pieces, piece.Converts order)
    (bounded : ∀ piece ∈ pieces, ∀ letter ∈ piece.letters, letter ∈ bound) :
    ∃ automata, pieces.mapM (Piece.toRawAutomaton order) = some automata ∧
      automata.map RawAutomaton.language = pieces.map Piece.meaning ∧
      (∀ automaton ∈ automata, Carries bound automaton.language automaton) ∧
      (∀ automaton ∈ automata, ∃ piece ∈ pieces, automaton.language = piece.meaning ∧
        (automaton.complete = true → piece.claimsComplete = true)) ∧
      ∀ piece ∈ pieces, ∃ automaton ∈ automata,
        (automaton.complete = true → piece.claimsComplete = true) := by
  rcases @ListLoops.map_m_exists _ _ _ Option _ _ (Piece.toRawAutomaton order) RawAutomaton.language
    Piece.meaning pieces (fun piece mem => by
      rcases converts piece mem with ⟨automaton, found, carries, -⟩
      exact ⟨automaton, found, carries.words⟩) with ⟨automata, run, languages⟩
  have source : ∀ automaton ∈ automata, ∃ piece ∈ pieces, Carries piece.letters piece.meaning automaton ∧
      (automaton.complete = true → piece.claimsComplete = true) := by
    intro automaton mem
    rcases (ListLoops.mem_map_m run).mp mem with ⟨piece, inside, found⟩
    rcases converts piece inside with ⟨other, otherFound, carries, claims⟩
    rw [found, Option.some.injEq] at otherFound
    rw [← otherFound] at carries claims
    exact ⟨piece, inside, carries, claims⟩
  refine ⟨automata, run, languages, fun automaton mem => ?_, fun automaton mem => ?_, fun piece inside => ?_⟩
  · rcases source automaton mem with ⟨piece, inside, carries, -⟩
    rw [carries.words]
    exact carries.mono (bounded piece inside)
  · rcases source automaton mem with ⟨piece, inside, carries, claims⟩
    exact ⟨piece, inside, carries.words, claims⟩
  · rcases ListLoops.map_m_returns run inside with ⟨automaton, found, mem⟩
    rcases converts piece inside with ⟨other, otherFound, -, claims⟩
    rw [found, Option.some.injEq] at otherFound
    rw [← otherFound] at claims
    exact ⟨automaton, mem, claims⟩

/-! ### Concatenation -/

theorem concat_pieces_meaning : ∀ (l : List Regex) (singles : List (List Letter)),
    ((concatPieces l singles).map Piece.meaning).prod = rangeWords singles * (l.map meaning).prod := by
  intro l
  induction l with
  | nil =>
    intro singles
    rw [concatPieces, map_nil, prod_nil, mul_one]
    split_ifs with none
    · rw [none, range_words_nil, map_nil, prod_nil]
    · rw [map_singleton, prod_singleton, Piece.meaning]
  | cons first l ih =>
    intro singles
    have before : ((if singles = [] then [] else [Piece.ranges singles]).map Piece.meaning).prod =
        rangeWords singles := by
      split_ifs with none
      · rw [none, range_words_nil, map_nil, prod_nil]
      · rw [map_singleton, prod_singleton, Piece.meaning]
    have general : (((if singles = [] then [] else [Piece.ranges singles]) ++
        Piece.other first :: concatPieces l []).map Piece.meaning).prod =
          rangeWords singles * ((first :: l).map meaning).prod := by
      rw [map_append, prod_append, before, map_cons, prod_cons, ih,
        range_words_nil, one_mul, map_cons, prod_cons, Piece.meaning]
    cases first with
    | single bytes =>
      rw [concatPieces, ih, range_words_append, map_cons, prod_cons, meaning, mul_assoc]
    | concat _ | union _ | inter _ | star _ _ | complement _ => exact general

theorem concat_pieces_claim : ∀ (l : List Regex) (singles : List (List Letter)),
    (∀ piece ∈ concatPieces l singles, piece.claimsComplete = true) →
      singles = [] ∧ ∀ r ∈ l, r.claimsComplete = true := by
  intro l
  induction l with
  | nil =>
    intro singles all
    rw [concatPieces] at all
    split_ifs at all with none
    · exact ⟨none, fun _ mem => absurd mem not_mem_nil⟩
    · cases all _ (mem_singleton_self _)
  | cons first l ih =>
    intro singles all
    have general : (∀ piece ∈ (if singles = [] then [] else [Piece.ranges singles]) ++
        Piece.other first :: concatPieces l [], piece.claimsComplete = true) →
          singles = [] ∧ ∀ r ∈ first :: l, r.claimsComplete = true := by
      intro claims
      rw [forall_mem_append, forall_mem_cons] at claims
      refine ⟨?_, forall_mem_cons.mpr ⟨claims.2.1, (ih [] claims.2.2).2⟩⟩
      by_contra some_
      rw [if_neg some_] at claims
      cases claims.1 _ (mem_singleton_self _)
    cases first with
    | single bytes =>
      rw [concatPieces] at all
      exact absurd (ih _ all).1 (append_ne_nil_of_right_ne_nil _ (cons_ne_nil _ _))
    | concat _ | union _ | inter _ | star _ _ | complement _ => exact general all

theorem concat_members_letters (l : List Regex) {mem : Regex}
    (inside : mem ∈ concatMembersOf l) (read : letter ∈ mem.letters) :
    letter ∈ (concat l).letters := by
  have part : ∀ v, ∀ r ∈ v, ∀ other ∈ r.letters, other ∈ (concat v).letters := by
    intro v r rIn other otherIn
    rw [letters, letters_of_map]
    exact ⟨_, mem_map_of_mem rIn, otherIn⟩
  exact @concat_members_of_all (fun r => ∀ other ∈ r.letters, other ∈ (concat l).letters)
    (fun v whole r rIn other otherIn => whole other (part v r rIn other otherIn)) l (part l)
    mem inside letter read

theorem concat_converts (proper : ∀ mem ∈ concatMembersOf l, mem.meaning ≠ 1)
    (converts : ∀ piece ∈ concatPieces (concatMembersOf l) [], piece.Converts order) :
    (concat l).Converts order := by
  have pieceAll := fun (holds : Piece → Prop) ranges others =>
    @concat_pieces_all holds (concatMembersOf l) ranges others (concatMembersOf l) []
      (fun _ mem => mem) (fun _ absent => absurd absent not_mem_nil)
  have bounded : ∀ piece ∈ concatPieces (concatMembersOf l) [], ∀ letter ∈ piece.letters,
      letter ∈ (concat l).letters := by
    apply pieceAll
    · rintro word - inside letter ⟨byteRange, rangeIn, letterIn⟩
      apply concat_members_letters l (inside byteRange rangeIn)
      rw [letters]
      exact letterIn
    · exact fun mem inside letter read => concat_members_letters l inside read
  have properPieces : ∀ piece ∈ concatPieces (concatMembersOf l) [], piece.meaning ≠ 1 := by
    apply pieceAll
    · exact fun word some_ _ => range_words_proper some_
    · exact proper
  rcases pieces_convert converts bounded with ⟨automata, run, languages, carries, sources, served⟩
  rcases concat_carries carries (fun automaton mem => by
    rcases sources automaton mem with ⟨piece, inside, same, -⟩
    rw [same]
    exact properPieces piece inside) with ⟨result, found, whole, complete⟩
  refine ⟨result, ?_, ?_, fun flag => ?_⟩
  · rw [to_raw_concat, run]
    exact found
  · rw [languages, concat_pieces_meaning, range_words_nil, one_mul, concat_members_of_meaning,
      ← meaning_of_map] at whole
    rw [meaning]
    exact whole
  · rw [complete, all_eq_true] at flag
    have claims := (concat_pieces_claim (concatMembersOf l) [] fun piece inside => by
      rcases served piece inside with ⟨automaton, mem, claims⟩
      exact claims (flag automaton mem)).2
    rw [claimsComplete, all_claim_iff]
    apply concat_members_of_whole _ l claims
    intro v all
    rw [claimsComplete, all_claim_iff]
    exact all

/-! ### Union -/

theorem relaxed_meaning : word ∈ (relaxed regex).meaning ↔
    word ∈ regex.meaning ∨ (regex.isStar = true ∧ word = []) := by
  cases regex with
  | star strict r =>
    rw [relaxed, isStar, eq_self_iff_true, true_and, meaning, meaning, if_neg Bool.false_ne_true]
    cases strict with
    | true =>
      rw [if_pos rfl, mem_kstar_split, or_comm]
    | false =>
      rw [if_neg Bool.false_ne_true]
      refine ⟨Or.inl, fun either => either.elim id fun none => ?_⟩
      rw [none]
      exact Language.nil_mem_kstar _
  | _ => exact ⟨Or.inl, fun either => either.elim id fun both => nomatch both.1⟩

theorem relaxed_letters (regex : Regex) : (relaxed regex).letters = regex.letters := by
  cases regex with
  | star strict r => rw [relaxed, letters, letters]
  | _ => rfl

theorem relaxed_claims (regex : Regex) : (relaxed regex).claimsComplete = regex.claimsComplete := by
  cases regex with
  | star strict r => rw [relaxed, claimsComplete, claimsComplete]
  | _ => rfl

theorem relaxed_proper (proper : regex.Proper) (iterates : ∀ strict r, regex = star strict r → r.meaning ≠ 1) :
    (relaxed regex).Proper := by
  cases regex with
  | star strict r =>
    rw [Proper] at proper
    rw [relaxed, Proper]
    exact ⟨proper.1, Or.inr (iterates strict r rfl)⟩
  | _ => exact proper

theorem mem_union_meaning :
    word ∈ (union l).meaning ↔ ∃ mem ∈ unionMembersOf l, word ∈ mem.meaning := by
  have parts : ∀ v, word ∈ (union v).meaning ↔ ∃ r ∈ v, word ∈ r.meaning := by
    intro v
    rw [meaning, meaning_of_map]
    simp only [mem_map, exists_exists_and_eq_and]
    exact Iff.rfl
  rw [parts, union_members_of_iff parts]

theorem mem_union_letters :
    letter ∈ (union l).letters ↔ ∃ mem ∈ unionMembersOf l, letter ∈ mem.letters := by
  have parts : ∀ v, letter ∈ (union v).letters ↔ ∃ r ∈ v, letter ∈ r.letters := by
    intro v
    rw [letters, letters_of_map]
    simp only [mem_map, exists_exists_and_eq_and]
    exact Iff.rfl
  rw [parts, union_members_of_iff parts]

theorem member_cases (regex : Regex) : regex = concat [] ∨ (∃ bytes, regex = single bytes) ∨
    (regex.isOther = true ∧ regex.singleBytes = []) := by
  cases regex with
  | single bytes => exact Or.inr (Or.inl ⟨bytes, rfl⟩)
  | concat v =>
    cases v with
    | nil => exact Or.inl rfl
    | cons r v => exact Or.inr (Or.inr ⟨rfl, rfl⟩)
  | _ => exact Or.inr (Or.inr ⟨rfl, rfl⟩)

theorem is_epsilon_iff : regex.isEpsilon = true ↔ regex = concat [] := by
  cases regex with
  | concat v =>
    cases v with
    | nil => exact iff_of_true rfl rfl
    | cons r v => exact iff_of_false nofun nofun
  | _ => exact iff_of_false nofun nofun

theorem union_flag_iff : (unionPieces order l).2 = true ↔
    (unionMembersOf l).any isEpsilon = true ∧
      ∀ mem ∈ unionMembersOf l, mem.isOther = true → mem.isStar = false := by
  unfold unionPieces
  dsimp only
  rw [Bool.and_eq_true, Bool.not_eq_true', any_eq_false]
  apply and_congr_right
  intro _
  constructor
  · intro all mem memberIn other
    have star := all mem (mem_filter.mpr ⟨memberIn, other⟩)
    rw [Bool.not_eq_true] at star
    exact star
  · intro all mem memberIn
    rw [Bool.not_eq_true]
    exact all mem (mem_filter.mp memberIn).1 (mem_filter.mp memberIn).2

theorem union_pieces_sound (mem : piece ∈ (unionPieces order l).1)
    (inside : word ∈ piece.meaning) : word ∈ (union l).meaning := by
  rw [mem_union_meaning]
  rcases mem_union_pieces.mp mem with ⟨kept, keptIn, -, rfl⟩ | ⟨-, rfl⟩
  · rw [Piece.meaning] at inside
    split_ifs at inside with epsilons
    · rcases relaxed_meaning.mp inside with here | ⟨-, none⟩
      · exact ⟨kept, keptIn, here⟩
      · rcases any_eq_true.mp epsilons with ⟨empty, emptyIn, isEmpty⟩
        refine ⟨empty, emptyIn, ?_⟩
        rw [is_epsilon_iff.mp isEmpty, none, meaning]
        exact (Language.mem_one _).mpr rfl
    · exact ⟨kept, keptIn, inside⟩
  · rw [Piece.meaning, mem_range_words_singleton] at inside
    rcases inside with ⟨letter, letterIn, rfl⟩
    rcases mem_all_singles.mp letterIn with ⟨range, rangeIn, found⟩
    rcases mem_single_bytes.mp found with ⟨bytes, rfl, byteIn⟩
    refine ⟨_, rangeIn, ?_⟩
    rw [meaning, mem_range_words_singleton]
    exact ⟨letter, byteIn, rfl⟩

theorem union_pieces_meaning {l : List Regex} {word : List Letter} :
    ((∃ piece ∈ (unionPieces order l).1, word ∈ piece.meaning) ∨
      ((unionPieces order l).2 = true ∧ word = [])) ↔ word ∈ (union l).meaning := by
  constructor
  · rintro (⟨piece, mem, inside⟩ | ⟨flag, none⟩)
    · exact union_pieces_sound mem inside
    · rcases any_eq_true.mp (union_flag_iff.mp flag).1 with ⟨empty, emptyIn, isEmpty⟩
      rw [mem_union_meaning]
      refine ⟨empty, emptyIn, ?_⟩
      rw [is_epsilon_iff.mp isEmpty, none, meaning]
      exact (Language.mem_one _).mpr rfl
  · intro inside
    rcases mem_union_meaning.mp inside with ⟨mem, memberIn, read⟩
    rcases member_cases mem with rfl | ⟨bytes, rfl⟩ | ⟨other, -⟩
    · -- the empty word comes from a relaxed iteration or is added
      rw [meaning, meaningOf, prod_nil, Language.mem_one] at read
      have epsilons : (unionMembersOf l).any isEpsilon = true := any_eq_true.mpr ⟨_, memberIn, rfl⟩
      by_cases plain : ∀ kept ∈ unionMembersOf l, kept.isOther = true → kept.isStar = false
      · exact Or.inr ⟨union_flag_iff.mpr ⟨epsilons, plain⟩, read⟩
      · push Not at plain
        rcases plain with ⟨kept, keptIn, keptOther, star⟩
        rw [ne_eq, Bool.not_eq_false] at star
        refine Or.inl ⟨_, mem_union_pieces.mpr (Or.inl ⟨kept, keptIn, keptOther, rfl⟩), ?_⟩
        rw [Piece.meaning, if_pos epsilons, relaxed_meaning]
        exact Or.inr ⟨star, read⟩
    · rw [meaning, mem_range_words_singleton] at read
      rcases read with ⟨letter, letterIn, rfl⟩
      have found : letter ∈ ((unionMembersOf l).flatMap singleBytes).dedup :=
        mem_dedup.mpr (mem_flatMap.mpr ⟨_, memberIn, letterIn⟩)
      refine Or.inl ⟨_, mem_union_pieces.mpr (Or.inr ⟨ne_nil_of_mem found, rfl⟩), ?_⟩
      rw [Piece.meaning, mem_range_words_singleton]
      exact ⟨letter, order.mem_arrange.mpr found, rfl⟩
    · refine Or.inl ⟨_, mem_union_pieces.mpr (Or.inl ⟨mem, memberIn, other, rfl⟩), ?_⟩
      rw [Piece.meaning]
      split_ifs
      · exact relaxed_meaning.mpr (Or.inl read)
      · exact read

theorem union_pieces_letters (mem : piece ∈ (unionPieces order l).1)
    (read : letter ∈ piece.letters) : letter ∈ (union l).letters := by
  rw [mem_union_letters]
  rcases mem_union_pieces.mp mem with ⟨kept, keptIn, -, rfl⟩ | ⟨-, rfl⟩
  · rw [Piece.letters, @kept_member (fun r => letter ∈ r.letters) kept _ _ (by rw [relaxed_letters])] at read
    exact ⟨kept, keptIn, read⟩
  · rcases read with ⟨byteRange, rangeIs, letterIn⟩
    rw [mem_singleton.mp rangeIs] at letterIn
    rcases mem_all_singles.mp letterIn with ⟨range, rangeIn, found⟩
    rcases mem_single_bytes.mp found with ⟨bytes, rfl, byteIn⟩
    refine ⟨_, rangeIn, ?_⟩
    rw [letters]
    exact byteIn

theorem union_pieces_claim (mem : piece ∈ (unionPieces order l).1)
    (claims : piece.claimsComplete = true) : (union l).claimsComplete = true := by
  have parts : ∀ v, (union v).claimsComplete = true ↔ ∃ r ∈ v, r.claimsComplete = true := by
    intro v
    rw [claimsComplete, any_claims_iff]
  rw [parts, ← union_members_of_iff parts]
  rcases mem_union_pieces.mp mem with ⟨kept, keptIn, -, rfl⟩ | ⟨-, rfl⟩
  · rw [Piece.claimsComplete, @kept_member (fun r => r.claimsComplete = true) kept _ _
      (by rw [relaxed_claims])] at claims
    exact ⟨kept, keptIn, claims⟩
  · cases claims

theorem epsilon_carries (bound : Set Letter) : Carries bound 1 RawAutomaton.epsilon := by
  refine ⟨epsilon_in_range, epsilon_language, fun state entry step => ?_, fun marker mem => ?_⟩
  · rw [outgoing_epsilon] at step
    exact absurd step not_mem_nil
  · exact absurd mem (Finset.notMem_empty marker)

theorem optional_last_carries {automata : List RawAutomaton}
    (carries : ∀ automaton ∈ automata, Carries bound automaton.language automaton) :
    ∃ flattened, optionalLast automata = some flattened ∧
      (∀ automaton ∈ flattened, Carries bound automaton.language automaton) ∧
      (∀ word, (∃ automaton ∈ flattened, word ∈ automaton.language) ↔
        (∃ automaton ∈ automata, word ∈ automaton.language) ∨ word = []) ∧
      ∀ automaton ∈ flattened, automaton.complete = true →
        ∃ old ∈ automata, old.complete = true := by
  cases last : automata.getLast? with
  | none =>
    have none_ : automata = [] := getLast?_eq_none_iff.mp last
    refine ⟨[RawAutomaton.epsilon], ?_, ?_, fun word => ?_, ?_⟩
    · unfold optionalLast
      rw [last]
    · rw [forall_mem_singleton, epsilon_language]
      exact epsilon_carries bound
    · rw [exists_singleton, epsilon_language, Language.mem_one, none_]
      exact (or_iff_right fun ⟨_, absent, _⟩ => absurd absent not_mem_nil).symm
    · rw [forall_mem_singleton]
      exact fun flag => nomatch flag
  | some final =>
    have split : automata = automata.dropLast ++ [final] := (dropLast_append_getLast? final last).symm
    have finalIn : final ∈ automata := mem_of_getLast? last
    rcases make_optional_carries (carries final finalIn) with ⟨optional, optionalIs, whole, complete⟩
    refine ⟨automata.dropLast ++ [optional], ?_, ?_, fun word => ?_, ?_⟩
    · unfold optionalLast
      rw [last]
      exact Option.bind_eq_some_iff.mpr ⟨optional, optionalIs, rfl⟩
    · rw [forall_mem_append, forall_mem_singleton]
      refine ⟨fun automaton mem => carries automaton (dropLast_subset automata mem), ?_⟩
      rw [whole.words]
      exact whole
    · rw [exists_append, exists_singleton, whole.words, Language.mem_add, Language.mem_one]
      nth_rewrite 2 [split]
      rw [exists_append, exists_singleton, or_assoc, or_comm (a := word = [])]
    · rw [forall_mem_append, forall_mem_singleton, complete]
      exact ⟨fun automaton mem flag => ⟨automaton, dropLast_subset automata mem, flag⟩,
        fun flag => ⟨final, finalIn, flag⟩⟩

theorem union_converts (converts : ∀ piece ∈ (unionPieces order l).1, piece.Converts order) :
    (union l).Converts order := by
  rcases pieces_convert converts fun piece mem letter read => union_pieces_letters mem read with
    ⟨automata, run, languages, carries, sources, -⟩
  have words : ∀ word, (∃ automaton ∈ automata, word ∈ automaton.language) ↔
      ∃ piece ∈ (unionPieces order l).1, word ∈ piece.meaning := by
    intro word
    have mapped : (∃ language ∈ automata.map RawAutomaton.language, word ∈ language) ↔
        ∃ language ∈ (unionPieces order l).1.map Piece.meaning, word ∈ language := by rw [languages]
    simp only [mem_map, exists_exists_and_eq_and] at mapped
    exact mapped
  have claims : ∀ automaton ∈ automata, automaton.complete = true → (union l).claimsComplete = true := by
    intro automaton mem flag
    rcases sources automaton mem with ⟨piece, inside, -, claim⟩
    exact union_pieces_claim inside (claim flag)
  have flattens : ∃ flattened, (if (unionPieces order l).2 then optionalLast automata else some automata) =
      some flattened ∧ (∀ automaton ∈ flattened, Carries (union l).letters automaton.language automaton) ∧
      (∀ word, (∃ automaton ∈ flattened, word ∈ automaton.language) ↔ word ∈ (union l).meaning) ∧
      ∀ automaton ∈ flattened, automaton.complete = true → (union l).claimsComplete = true := by
    by_cases flag : (unionPieces order l).2 = true
    · rcases optional_last_carries carries with ⟨flattened, found, each, read, complete⟩
      refine ⟨flattened, ?_, each, fun word => ?_, fun automaton mem set => ?_⟩
      · rw [if_pos flag]
        exact found
      · rw [read, words, ← @union_pieces_meaning order, and_iff_right flag]
      · rcases complete automaton mem set with ⟨old, oldIn, oldFlag⟩
        exact claims old oldIn oldFlag
    · refine ⟨automata, if_neg flag, carries, fun word => ?_, claims⟩
      rw [words, ← @union_pieces_meaning order]
      exact (or_iff_left fun both => flag both.1).symm
  rcases flattens with ⟨flattened, flattenedIs, each, read, complete⟩
  rcases @union_carries order _ _ each with ⟨result, found, whole, some_⟩
  refine ⟨result, ?_, ⟨whole.toInRange, ?_, whole.reads, whole.markers⟩, fun set => ?_⟩
  · rw [to_raw_union, run, Option.bind_some, flattenedIs, Option.bind_some]
    exact found
  · rw [whole.words]
    apply Language.ext
    exact read
  · rcases some_ set with ⟨automaton, mem, flag⟩
    exact complete automaton mem flag

/-! ### Intersection, iteration and complement -/

theorem inter_fold {v : List Regex} (converts : ∀ r ∈ v, r.Converts order) {accu : RawAutomaton}
    {words : Language Letter} (carries : Carries bound words accu) :
    ∃ result, (v.foldlM (fun accu r => do
        let automaton ← r.toRawAutomaton order alphabetMaxSize
        accu.inter order automaton) accu) = some result ∧
      Carries ((v.map letters).foldl joins bound) ((v.map meaning).foldl overlay words) result ∧
        (result.complete = true → v = []) := by
  induction v generalizing accu bound words with
  | nil => exact ⟨accu, rfl, carries, fun _ => rfl⟩
  | cons r v ih =>
    rw [forall_mem_cons] at converts
    rcases converts.1 with ⟨automaton, found, other, -⟩
    rcases @inter_carries order _ _ _ _ _ _ carries other with ⟨joined, joinedIs, whole, unflagged⟩
    rcases ih converts.2 whole with ⟨result, run, last, claims⟩
    refine ⟨result, ?_, last, fun flag => ?_⟩
    · rw [foldlM_cons, found]
      simp only [some_bind, joinedIs]
      exact run
    · cases v with
      | nil =>
        cases run
        rw [unflagged] at flag
        cases flag
      | cons r v => cases claims flag

theorem inter_converts {v : List Regex} (converts : ∀ r ∈ v, r.Converts order) :
    (inter v).Converts order := by
  rcases universal_carries with ⟨start, startIs, plain⟩
  rcases inter_fold converts plain with ⟨result, run, carries, claims⟩
  refine ⟨result, ?_, ?_, fun flag => ?_⟩
  · rw [toRawAutomaton, startIs, some_bind, ← run]
    exact fold_m_attach v (fun accu r => (r.toRawAutomaton order alphabetMaxSize).bind fun automaton =>
      accu.inter order automaton) start
  · rw [letters, meaning, letters_of_map, meaning_of_map]
    exact carries
  · rw [claimsComplete, claims flag]
    rfl

theorem star_converts {strict : Bool} {e : Regex} (converts : e.Converts order)
    (proper : strict = true ∨ e.meaning ≠ 1) : (star strict e).Converts order := by
  rcases converts with ⟨automaton, found, carries, claims⟩
  cases strict with
  | true =>
    rcases @strict_repeat_carries order _ _ _ carries with ⟨result, resultIs, whole, complete⟩
    refine ⟨result, ?_, ?_, fun flag => ?_⟩
    · rw [toRawAutomaton, found]
      exact resultIs
    · rw [letters, meaning, if_pos rfl]
      exact whole
    · rw [claimsComplete]
      exact claims (complete.symm.trans flag)
  | false =>
    rcases @weak_repeat_carries order _ _ _ carries (proper.resolve_left Bool.false_ne_true) with ⟨result, resultIs, whole, complete⟩
    refine ⟨result, ?_, ?_, fun flag => ?_⟩
    · rw [toRawAutomaton, found]
      exact resultIs
    · rw [letters, meaning, if_neg Bool.false_ne_true]
      exact whole
    · rw [claimsComplete]
      exact claims (complete.symm.trans flag)

theorem complement_converts {e : Regex} (plain : ∀ ee, e = complement ee → False)
    (converts : e.Converts order) (completes : e.Completes) : (complement e).Converts order := by
  rcases converts with ⟨automaton, found, carries, claims⟩
  have unflagged : automaton.complete = false := by
    rw [← Bool.not_eq_true]
    intro flag
    rw [completes.unflagged] at claims
    cases claims flag
  have marked : Marked automaton :=
    (to_raw_lettered le_rfl e found).encodable.encodes (by rw [unflagged, Bool.and_false])
  rcases @complemented_carries order _ _ _ carries marked unflagged completes.single completes.read with
    ⟨result, resultIs, whole, complete⟩
  refine ⟨result, ?_, ?_, fun flag => ?_⟩
  · rw [to_raw_complement plain, found, Option.bind_some]
    exact resultIs
  · rw [letters.eq_7 e plain, meaning]
    exact whole
  · rw [complete] at flag
    cases flag

theorem double_complement_converts {ee : Regex} (converts : ee.Converts order) :
    (complement (complement ee)).Converts order := by
  rcases converts with ⟨automaton, found, carries, claims⟩
  refine ⟨automaton, ?_, ?_, fun flag => ?_⟩
  · rw [toRawAutomaton.eq_6]
    exact found
  · rw [double_complement_meaning, letters]
    exact carries
  · rw [claimsComplete]
    exact claims flag

/-- The automaton of a proper regular expression reads the words that are meant. -/
theorem proper_converts (order : HashOrder) (regex : Regex) (proper : regex.Proper) :
    regex.Converts order := by
  induction regex using toRawAutomaton.induct order with
  | case1 bytes =>
    refine ⟨byteConcat [bytes] alphabetMaxSize, ?_, ?_, fun flag => absurd flag Bool.false_ne_true⟩
    · rw [toRawAutomaton]
    · rw [letters, meaning]
      apply (byte_concat_carries [bytes]).mono
      rintro letter ⟨byteRange, mem, inside⟩
      rw [mem_singleton.mp mem] at inside
      exact inside
  | case2 l ih =>
    rw [Proper, all_proper_iff] at proper
    have members := concat_members_of_all (fun v whole => by
      rw [Proper, all_proper_iff] at whole
      exact whole.1) l proper.1
    apply concat_converts proper.2
    intro piece inside
    cases piece with
    | ranges word => exact ranges_convert word
    | other mem => exact ih mem inside (members mem (concat_pieces_members _ _ inside))
  | case3 l ih =>
    rw [Proper, all_proper_iff] at proper
    have members := union_members_of_all (fun v whole => by
      rw [Proper, all_proper_iff] at whole
      exact whole.1) l proper.1
    apply union_converts
    intro piece inside
    cases piece with
    | ranges word => exact ranges_convert word
    | other mem =>
      apply ih mem inside
      rcases mem_union_pieces.mp inside with ⟨kept, keptIn, -, same⟩ | ⟨-, same⟩
      · cases same
        have keptProper := members kept keptIn
        split_ifs with epsilons
        · exact relaxed_proper keptProper fun strict r here => proper.2 epsilons strict r (here ▸ keptIn)
        · exact keptProper
      · cases same
  | case4 l ih =>
    rw [Proper, all_proper_iff] at proper
    apply inter_converts
    intro r mem
    exact ih ⟨r, mem⟩ (proper r mem)
  | case5 strict e ih =>
    rw [Proper] at proper
    exact star_converts (ih proper.1) proper.2
  | case6 ee ih =>
    rw [Proper] at proper
    exact double_complement_converts (ih proper)
  | case7 e plain ih =>
    rw [Proper.eq_7 e plain] at proper
    exact complement_converts plain (ih proper.1) proper.2

end Regex
end Midfall.Regexes
