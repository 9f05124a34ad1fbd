import Midfall.RegexMeanings

/-!
# Markers of a regular expression

`mark`, `mark_bytes` and `replace_markers` rewrite the letters at the leaves of
a regular expression. An intersection joins letters and a complement reads what
the leaves do not show, so that what is rewritten below them need not be what
they would have read.
-/

namespace Midfall.Regexes

open RawAutomata RawAutomata.RawAutomaton List
open ScannerAutomaton (alphabetMaxSize)
open Computability

namespace Regex

variable {order : HashOrder} {f : Letter → Letter}

mutual

def map (order : HashOrder) (f : Letter → Letter) : Regex → Regex
  | single bytes => single (order.arrange (bytes.map f).dedup)
  | concat v => concat (mapAll order f v)
  | union v => union (mapAll order f v)
  | inter v => inter (mapAll order f v)
  | star strict r => star strict (r.map order f)
  | complement r => complement (r.map order f)

def mapAll (order : HashOrder) (f : Letter → Letter) : List Regex → List Regex
  | [] => []
  | r :: v => r.map order f :: mapAll order f v

end

def mark (order : HashOrder) (self : Regex) (f : UInt8 → Option Nat) : Regex :=
  self.map order fun letter => { char := letter.char, marker := (f letter.char).getD letter.marker }

def markBytes (order : HashOrder) (self : Regex) (bytes : List UInt8) (marker : Nat) : Regex :=
  let markerUpdate : UInt8 → Option Nat :=
    bytes.foldl (fun update b => Function.update update b (some marker)) fun _ => none
  self.mark order markerUpdate

def replaceMarkers (order : HashOrder) (self : Regex) (upd : Nat → Option Nat) : Regex :=
  self.map order fun letter =>
    { char := letter.char, marker := (upd letter.marker).getD letter.marker }

theorem update_all {Value : Type} (bytes : List UInt8) (value : Value) (start : UInt8 → Value) (b : UInt8) :
    bytes.foldl (fun update b => Function.update update b value) start b =
      if b ∈ bytes then value else start b := by
  induction bytes generalizing start with
  | nil => rfl
  | cons first bytes ih =>
    rw [foldl_cons, ih]
    by_cases later : b ∈ bytes
    · rw [if_pos later, if_pos (mem_cons_of_mem _ later)]
    · rw [if_neg later]
      by_cases same : b = first
      · rw [same, Function.update_self, if_pos mem_cons_self]
      · rw [Function.update_of_ne same, if_neg (fun mem => (mem_cons.mp mem).elim same later)]

/-- The rewriting of the letters keeps their bytes. -/
inductive MarkerOperation where
  | map (f : Letter → Letter) (keeps : ∀ letter, (f letter).char = letter.char)
  | mark (f : UInt8 → Option Nat)
  | markBytes (bytes : List UInt8) (marker : Nat)
  | replaceMarkers (upd : Nat → Option Nat)

namespace MarkerOperation

def apply (order : HashOrder) : MarkerOperation → Regex → Regex
  | map f _, r => r.map order f
  | mark f, r => r.mark order f
  | markBytes bytes marker, r => r.markBytes order bytes marker
  | replaceMarkers upd, r => r.replaceMarkers order upd

def rewrite : MarkerOperation → Letter → Letter
  | map f _, letter => f letter
  | mark f, letter => ⟨letter.char, (f letter.char).getD letter.marker⟩
  | markBytes bytes marker, letter => ⟨letter.char, if letter.char ∈ bytes then marker else letter.marker⟩
  | replaceMarkers upd, letter => ⟨letter.char, (upd letter.marker).getD letter.marker⟩

theorem rewrite_char (operation : MarkerOperation) (letter : Letter) :
    (operation.rewrite letter).char = letter.char := by
  cases operation with
  | map f keeps => exact keeps letter
  | _ => rfl

theorem apply_eq (operation : MarkerOperation) (r : Regex) :
    operation.apply order r = r.map order operation.rewrite := by
  cases operation with
  | markBytes bytes marker =>
    rw [apply, Regex.markBytes, Regex.mark]
    congr 1
    funext letter
    rw [update_all, rewrite]
    split_ifs <;> rfl
  | _ => rfl

end MarkerOperation

/-! ### Rewritten words -/

mutual

def Agrees (f h : Letter → Letter) : Regex → Prop
  | single bytes => ∀ letter ∈ bytes, f letter = h letter
  | concat v => AllAgree f h v
  | union v => AllAgree f h v
  | inter v => AllAgree f h v
  | star _ r => r.Agrees f h
  | complement r => r.Agrees f h

def AllAgree (f h : Letter → Letter) : List Regex → Prop
  | [] => True
  | r :: v => r.Agrees f h ∧ AllAgree f h v

end

section Joining

variable {Item : Type} (join : Item → Item → Option Item)

def joinAll : Item → List Item → Option Item
  | item, [] => some item
  | item, other :: others => (join item other).bind fun joined => joinAll joined others

/-- One item of each part: they join after the rewriting as they did before, to the rewritten item. -/
def JoinsCommute (first last : Item → Item) (rewritings : List (Item → Item)) (start : Set Item)
    (parts : List (Set Item)) : Prop :=
  ∀ item ∈ start, ∀ items, Forall₂ (fun item part => item ∈ part) items parts →
    joinAll join (first item) (zipWith (fun h item => h item) rewritings items) =
      (joinAll join item items).map last

end Joining

/-- Every byte is read with the markers below a complement; they are renamed. -/
def Renames (f : Letter → Letter) (letters : Set Letter) : Prop :=
  ∀ letter ∈ remarked letters, ∀ other ∈ remarked letters,
    (f letter).marker = (f other).marker ↔ letter.marker = other.marker

mutual

/-- An operand of an intersection may be rewritten in its own way, which agrees with `f` on what it shows.
Below a complement the letters count too: all bytes are read with their markers. -/
def Respects : Regex → (Letter → Letter) → Bool → Prop
  | single _, _, _ => True
  | concat v, f, below => AllRespect v f below
  | union v, f, below => AllRespect v f below
  | inter v, f, below => ∃ rewritings, OperandsRespect v f below rewritings ∧
      JoinsCommute joinWords id (List.map f) (rewritings.map List.map) (wordsOver plainLetters) (meaningOf v) ∧
      (below = true → JoinsCommute join id f rewritings plainLetters (lettersOf v))
  | star _ r, f, below => r.Respects f below
  | complement (complement ee), f, below => ee.Respects f below
  | complement r, f, _ => r.Respects f true ∧ Renames f r.letters

def AllRespect : List Regex → (Letter → Letter) → Bool → Prop
  | [], _, _ => True
  | r :: v, f, below => r.Respects f below ∧ AllRespect v f below

def OperandsRespect : List Regex → (Letter → Letter) → Bool → List (Letter → Letter) → Prop
  | [], _, _, [] => True
  | r :: v, f, below, h :: rewritings => (∀ letter, (h letter).char = letter.char) ∧ r.Agrees f h ∧
      r.Respects h below ∧ OperandsRespect v f below rewritings
  | [], _, _, _ :: _ => False
  | _ :: _, _, _, [] => False

end

theorem all_respect_iff {v : List Regex} {below : Bool} : AllRespect v f below ↔ ∀ r ∈ v, r.Respects f below := by
  induction v with
  | nil => exact iff_of_true trivial fun _ mem => absurd mem not_mem_nil
  | cons r v ih => rw [AllRespect, forall_mem_cons, ih]

theorem mem_map_language {words : Language Letter} {word : List Letter} :
    word ∈ Language.map f words ↔ ∃ old ∈ words, old.map f = word := Iff.rfl

theorem map_mem_over {bound : Set Letter} {word : List Letter} (inside : word ∈ wordsOver bound) :
    word.map f ∈ wordsOver (f '' bound) := by
  intro letter mem
  rcases mem_map.mp mem with ⟨old, oldIn, rfl⟩
  exact ⟨old, inside old oldIn, rfl⟩

/-! ### Joins -/

theorem join_plain {plain other letter : Letter} (unmarked : plain.marker = 0)
    (joined : join plain other = some letter) : letter = other := by
  rcases join_eq_some.mp joined with ⟨-, char, -, marker⟩
  rw [unmarked, Nat.zero_max] at marker
  cases letter
  cases other
  cases char
  cases marker
  rfl

theorem join_unmarked (letter : Letter) : join ⟨letter.char, 0⟩ letter = some letter :=
  join_eq_some.mpr ⟨rfl, rfl, Or.inr (Or.inl rfl), (Nat.zero_max _).symm⟩

theorem join_words_plain {word1 word2 word : List Letter} (plain : word1 ∈ wordsOver plainLetters)
    (joined : joinWords word1 word2 = some word) : word = word2 := by
  revert plain
  apply @joined_induction (fun word1 word2 word => word1 ∈ wordsOver plainLetters → word = word2)
    _ _ _ _ _ joined
  · exact fun _ => rfl
  · intro letter1 letter2 letter word1 word2 word here _ ih plain
    have both := forall_mem_cons.mp plain
    rw [join_plain both.1 here, ih both.2]

theorem overlay_plain (words : Language Letter) : overlay (wordsOver plainLetters) words = words := by
  have unmark : ∀ word : List Letter,
      joinWords (word.map fun letter => ⟨letter.char, 0⟩) word = some word := by
    intro word
    induction word with
    | nil => rfl
    | cons letter word ih => exact join_words_cons.mpr ⟨join_unmarked letter, ih⟩
  apply Language.ext
  intro word
  constructor
  · rintro ⟨word1, plain, word2, inside, joined⟩
    rw [join_words_plain plain joined]
    exact inside
  · intro inside
    refine ⟨_, ?_, word, inside, unmark word⟩
    intro letter mem
    rcases mem_map.mp mem with ⟨old, -, rfl⟩
    rfl

theorem join_masked {letter1 letter2 : Letter} (keeps : (f letter1).char = letter1.char)
    (unmarked : letter2.marker = 0) : join (f letter1) letter2 = (join letter1 letter2).map f := by
  have masked : ∀ letter : Letter, join letter letter2 =
      if letter.char = letter2.char then some letter else none := by
    intro letter
    unfold join
    rw [unmarked, Nat.max_zero]
    by_cases same : letter.char = letter2.char
    · rw [if_pos ⟨same, Or.inr (Or.inr rfl)⟩, if_pos same]
    · rw [if_neg fun both => same both.1, if_neg same]
  rw [masked, masked, keeps]
  split_ifs
  · rfl
  · rfl

section Joining

variable {Item : Type} {join : Item → Item → Option Item} {first last : Item → Item}
  {rewritings : List (Item → Item)} {start : Set Item} {parts : List (Set Item)}

def joined (join : Item → Item → Option Item) (items others : Set Item) : Set Item :=
  {item | ∃ item1 ∈ items, ∃ item2 ∈ others, join item1 item2 = some item}

theorem mem_join_all {item : Item} : item ∈ parts.foldl (joined join) start ↔
    ∃ head ∈ start, ∃ items, Forall₂ (fun item part => item ∈ part) items parts ∧
      joinAll join head items = some item := by
  induction parts generalizing start with
  | nil =>
    constructor
    · exact fun inside => ⟨item, inside, [], Forall₂.nil, rfl⟩
    · rintro ⟨head, inside, items, each, same⟩
      cases each
      cases same
      exact inside
  | cons part parts ih =>
    rw [foldl_cons, ih]
    constructor
    · rintro ⟨met, ⟨head, inside, other, otherIn, here⟩, items, each, later⟩
      refine ⟨head, inside, other :: items, Forall₂.cons otherIn each, ?_⟩
      rw [joinAll, here]
      exact later
    · rintro ⟨head, inside, _, each, same⟩
      cases each with
      | @cons other _ items _ otherIn each =>
        rcases Option.bind_eq_some_iff.mp same with ⟨met, here, later⟩
        exact ⟨met, ⟨head, inside, other, otherIn, here⟩, items, each, later⟩

theorem forall₂_image (aligned : rewritings.length = parts.length) {images : List Item} :
    Forall₂ (fun item part => item ∈ part) images (zipWith (fun h part => Set.image h part) rewritings parts) ↔
      ∃ items, Forall₂ (fun item part => item ∈ part) items parts ∧
        images = zipWith (fun h item => h item) rewritings items := by
  induction rewritings generalizing parts images with
  | nil =>
    cases parts with
    | nil =>
      rw [zipWith_nil_left, forall₂_nil_right_iff]
      exact ⟨fun empty => ⟨[], Forall₂.nil, empty⟩, fun ⟨_, _, empty⟩ => empty⟩
    | cons part parts => cases aligned
  | cons h rewritings ih =>
    cases parts with
    | nil => cases aligned
    | cons part parts =>
      have later := @ih parts
      rw [zipWith_cons_cons, forall₂_cons_right_iff]
      constructor
      · rintro ⟨_, images, ⟨item, inside, rfl⟩, each, rfl⟩
        rcases (later (Nat.succ.inj aligned)).mp each with ⟨items, olds, rfl⟩
        exact ⟨item :: items, Forall₂.cons inside olds, rfl⟩
      · rintro ⟨_, each, rfl⟩
        cases each with
        | @cons item _ items _ inside each =>
          exact ⟨_, _, ⟨item, inside, rfl⟩, (later (Nat.succ.inj aligned)).mpr ⟨items, each, rfl⟩, rfl⟩

theorem JoinsCommute.image (commute : JoinsCommute join id last rewritings start parts)
    (aligned : rewritings.length = parts.length) :
    (zipWith (fun h part => Set.image h part) rewritings parts).foldl (joined join) start =
      last '' parts.foldl (joined join) start := by
  apply Set.ext
  intro image
  rw [mem_join_all, Set.mem_image]
  constructor
  · rintro ⟨head, inside, _, each, found⟩
    rcases (forall₂_image aligned).mp each with ⟨items, olds, rfl⟩
    have here := commute head inside items olds
    rw [id, found] at here
    rcases Option.map_eq_some_iff.mp here.symm with ⟨old, oldIs, same⟩
    exact ⟨old, mem_join_all.mpr ⟨head, inside, items, olds, oldIs⟩, same⟩
  · rintro ⟨old, mem, rfl⟩
    rcases mem_join_all.mp mem with ⟨head, inside, items, each, found⟩
    refine ⟨head, inside, _, (forall₂_image aligned).mpr ⟨items, each, rfl⟩, ?_⟩
    have here := commute head inside items each
    rw [found] at here
    exact here

theorem JoinsCommute.nil (same : ∀ item ∈ start, first item = last item) :
    JoinsCommute join first last [] start [] := by
  intro item inside items each
  cases each
  rw [zipWith_nil_left, joinAll, joinAll, Option.map_some, same item inside]

theorem JoinsCommute.cons {next h : Item → Item} {part : Set Item}
    (here : ∀ item1 ∈ start, ∀ item2 ∈ part, join (first item1) (h item2) = (join item1 item2).map next)
    (later : JoinsCommute join next last rewritings (joined join start part) parts) :
    JoinsCommute join first last (h :: rewritings) start (part :: parts) := by
  intro item inside items each
  cases each with
  | @cons other _ items _ otherIn each =>
    rw [zipWith_cons_cons, joinAll, joinAll, here item inside other otherIn]
    cases met : join item other with
    | none => rfl
    | some both =>
      exact later both ⟨item, inside, other, otherIn, met⟩ items each

end Joining

theorem join_words_map {g h k : Letter → Letter} {bound part : Set Letter}
    (commute : ∀ letter1 ∈ bound, ∀ letter2 ∈ part, join (g letter1) (h letter2) = (join letter1 letter2).map k) :
    ∀ word1 ∈ wordsOver bound, ∀ word2 ∈ wordsOver part,
      joinWords (word1.map g) (word2.map h) = (joinWords word1 word2).map (List.map k) := by
  intro word1 first
  induction word1 with
  | nil =>
    intro word2 _
    cases word2 with
    | nil => rfl
    | cons letter2 word2 => rfl
  | cons letter1 word1 ih =>
    intro word2 second
    cases word2 with
    | nil => rfl
    | cons letter2 word2 =>
      have firsts := forall_mem_cons.mp first
      have seconds := forall_mem_cons.mp second
      rw [map_cons, map_cons, joinWords, joinWords,
        commute letter1 firsts.1 letter2 seconds.1, ih firsts.2 word2 seconds.2]
      cases join letter1 letter2 with
      | none => rfl
      | some letter =>
        cases joinWords word1 word2 with
        | none => rfl
        | some word => rfl

theorem plain_join (keeps : ∀ letter, (f letter).char = letter.char) :
    ∀ letter1 ∈ plainLetters, ∀ letter2 : Letter, join letter1 (f letter2) = (join letter1 letter2).map f := by
  intro letter1 unmarked letter2
  have masked : ∀ letter : Letter, join letter1 letter =
      if letter1.char = letter.char then some letter else none := by
    intro letter
    unfold join
    rw [show letter1.marker = 0 from unmarked, Nat.zero_max]
    by_cases same : letter1.char = letter.char
    · rw [if_pos ⟨same, Or.inr (Or.inl rfl)⟩, if_pos same, same]
    · rw [if_neg fun both => same both.1, if_neg same]
  rw [masked, masked, keeps]
  split_ifs
  · rfl
  · rfl

theorem pair_commutes {g h : Letter → Letter} {words others : Language Letter}
    (keeps : ∀ letter, (g letter).char = letter.char)
    (commute : ∀ word1 ∈ words, ∀ word2 ∈ others,
      joinWords (word1.map g) (word2.map h) = (joinWords word1 word2).map (List.map f)) :
    JoinsCommute joinWords id (List.map f) [List.map g, List.map h] (wordsOver plainLetters) [words, others] := by
  have later : JoinsCommute joinWords (List.map g) (List.map f) [List.map h]
      (joined joinWords (wordsOver plainLetters) words) [others] := by
    refine JoinsCommute.cons (fun word1 met word2 inside => ?_) (JoinsCommute.nil fun _ _ => rfl)
    have overlaid : word1 ∈ overlay (wordsOver plainLetters) words := met
    rw [overlay_plain] at overlaid
    exact commute word1 overlaid word2 inside
  apply JoinsCommute.cons _ later
  intro word plain other _
  have joins := join_words_map (fun letter1 first letter2 _ => plain_join keeps letter1 first letter2)
    word plain other (fun letter _ => Set.mem_univ letter)
  rw [map_id'] at joins
  exact joins

/-! ### Renamed markers -/

section Renaming

variable {letters : Set Letter} (keeps : ∀ letter, (f letter).char = letter.char)
  (renames : Renames f letters)

include keeps renames

theorem remarked_image : remarked (f '' letters) = f '' remarked letters := by
  apply Set.ext
  intro letter
  constructor
  · rintro ⟨_, ⟨old, mem, rfl⟩, same⟩
    have oldIn : old ∈ remarked letters := ⟨old, mem, rfl⟩
    have newIn : (⟨letter.char, old.marker⟩ : Letter) ∈ remarked letters := ⟨old, mem, rfl⟩
    refine ⟨⟨letter.char, old.marker⟩, newIn, ?_⟩
    have marker := ((renames _ newIn old oldIn).mpr rfl).trans same
    have char := keeps ⟨letter.char, old.marker⟩
    cases letter
    cases made : f ⟨_, old.marker⟩
    rw [made] at marker char
    cases marker
    cases char
    rfl
  · rintro ⟨old, ⟨other, mem, same⟩, rfl⟩
    have oldIn : old ∈ remarked letters := ⟨other, mem, same⟩
    have otherIn : other ∈ remarked letters := ⟨other, mem, rfl⟩
    exact ⟨f other, ⟨other, mem, rfl⟩, (renames other otherIn old oldIn).mpr same⟩

theorem rewritten_injective {word other : List Letter} (first : word ∈ wordsOver (remarked letters))
    (second : other ∈ wordsOver (remarked letters)) (same : word.map f = other.map f) : word = other := by
  induction word generalizing other with
  | nil => exact (map_eq_nil_iff.mp same.symm).symm
  | cons letter word ih =>
    cases other with
    | nil => cases same
    | cons next other =>
      have firsts := forall_mem_cons.mp first
      have seconds := forall_mem_cons.mp second
      rw [map_cons, map_cons, List.cons.injEq] at same
      have marker := (renames letter firsts.1 next seconds.1).mp (congrArg Letter.marker same.1)
      have char := congrArg Letter.char same.1
      rw [keeps, keeps] at char
      rw [ih firsts.2 seconds.2 same.2]
      cases letter
      cases next
      cases char
      cases marker
      rfl

theorem rest_map {words : Language Letter} (inside : ∀ word ∈ words, word ∈ wordsOver letters) :
    ({word | word ∈ wordsOver (remarked (f '' letters)) ∧ word ∉ Language.map f words} : Language Letter) =
      Language.map f {word | word ∈ wordsOver (remarked letters) ∧ word ∉ words} := by
  have covers : ∀ word ∈ words, word ∈ wordsOver (remarked letters) := fun word mem letter letterIn =>
    ⟨letter, inside word mem letter letterIn, rfl⟩
  rw [remarked_image keeps renames]
  apply Language.ext
  intro word
  constructor
  · rintro ⟨over_, outside⟩
    have pulled : ∃ old ∈ wordsOver (remarked letters), old.map f = word := by
      clear outside
      induction word with
      | nil => exact ⟨[], fun _ absent => absurd absent not_mem_nil, rfl⟩
      | cons letter word ih =>
        have both := forall_mem_cons.mp over_
        rcases both.1 with ⟨first, firstIn, rfl⟩
        rcases ih both.2 with ⟨old, oldIn, rfl⟩
        exact ⟨first :: old, forall_mem_cons.mpr ⟨firstIn, oldIn⟩, rfl⟩
    rcases pulled with ⟨old, oldIn, rfl⟩
    exact ⟨old, ⟨oldIn, fun mem => outside ⟨old, mem, rfl⟩⟩, rfl⟩
  · rintro ⟨old, ⟨oldIn, outside⟩, rfl⟩
    refine ⟨map_mem_over oldIn, ?_⟩
    rintro ⟨other, otherIn, same⟩
    rw [rewritten_injective keeps renames (covers other otherIn) oldIn same] at otherIn
    exact outside otherIn

end Renaming

/-! ### Rewritten regular expressions -/

theorem image_parts {Entry Image : Type} (f : Entry → Image) (parts : List (Set Entry)) :
    ({image | ∃ part ∈ parts.map (Set.image f), image ∈ part} : Set Image) =
      f '' {entry | ∃ part ∈ parts, entry ∈ part} := by
  apply Set.ext
  intro image
  constructor
  · rintro ⟨_, mem, inside⟩
    rcases mem_map.mp mem with ⟨part, partIn, rfl⟩
    rcases inside with ⟨old, oldIn, rfl⟩
    exact ⟨old, ⟨part, partIn, oldIn⟩, rfl⟩
  · rintro ⟨old, ⟨part, partIn, oldIn⟩, rfl⟩
    exact ⟨_, mem_map_of_mem partIn, old, oldIn, rfl⟩

theorem map_parts (parts : List (Language Letter)) :
    ({word | ∃ part ∈ parts.map (Language.map f), word ∈ part} : Language Letter) =
      Language.map f {word | ∃ part ∈ parts, word ∈ part} :=
  image_parts (List.map f) parts

/-- The words that are rewritten, and below a complement the letters. -/
structure Rewrites (f : Letter → Letter) (below : Bool) (regex rewritten : Regex) : Prop where
  letters : below = true → rewritten.letters = f '' regex.letters
  meaning : rewritten.meaning = Language.map f regex.meaning

variable {below : Bool} {e : Regex}

theorem single_rewrites (bytes : List Letter) :
    Rewrites f below (single bytes) (single (order.arrange (bytes.map f).dedup)) := by
  have members : ∀ letter, letter ∈ order.arrange (bytes.map f).dedup ↔ ∃ old ∈ bytes, f old = letter := by
    intro letter
    rw [order.mem_arrange, mem_dedup, mem_map]
  constructor
  · intro _
    rw [Regex.letters, Regex.letters]
    apply Set.ext
    exact members
  · rw [Regex.meaning, Regex.meaning]
    apply Language.ext
    intro word
    rw [mem_range_words_singleton, mem_map_language]
    constructor
    · rintro ⟨letter, mem, rfl⟩
      rcases (members letter).mp mem with ⟨old, oldIn, rfl⟩
      exact ⟨[old], mem_range_words_singleton.mpr ⟨old, oldIn, rfl⟩, rfl⟩
    · rintro ⟨old, oldIn, rfl⟩
      rcases mem_range_words_singleton.mp oldIn with ⟨letter, mem, rfl⟩
      exact ⟨f letter, (members _).mpr ⟨letter, mem, rfl⟩, rfl⟩

theorem inter_rewrites {v images : List Regex} {rewritings : List (Letter → Letter)}
    (aligned : rewritings.length = v.length)
    (words : meaningOf images = zipWith (fun h part => Set.image h part) (rewritings.map List.map) (meaningOf v))
    (letters : below = true →
      lettersOf images = zipWith (fun h letters => Set.image h letters) rewritings (lettersOf v))
    (wordsCommute : JoinsCommute joinWords id (List.map f) (rewritings.map List.map) (wordsOver plainLetters)
      (meaningOf v))
    (lettersCommute : below = true → JoinsCommute join id f rewritings plainLetters (lettersOf v)) :
    Rewrites f below (inter v) (inter images) := by
  constructor
  · intro under
    rw [Regex.letters, Regex.letters, letters under]
    exact (lettersCommute under).image (by rw [aligned, letters_of_map, length_map])
  · rw [Regex.meaning, Regex.meaning, words]
    have lengths : (meaningOf v).length = v.length := by rw [meaning_of_map, length_map]
    exact wordsCommute.image (by rw [length_map, aligned]; exact lengths.symm)

theorem complement_rewrites (keeps : ∀ letter, (f letter).char = letter.char) {rewritten : Regex}
    (plain : ∀ ee, e = complement ee → False)
    (plainRewritten : ∀ ee, rewritten = complement ee → False) (rewrites : Rewrites f true e rewritten)
    (renames : Renames f e.letters) :
    Rewrites f below (complement e) (complement rewritten) := by
  constructor
  · intro _
    rw [Regex.letters.eq_7 e plain, Regex.letters.eq_7 rewritten plainRewritten, rewrites.letters rfl]
    exact remarked_image keeps renames
  · rw [Regex.meaning, Regex.meaning, rewrites.letters rfl, rewrites.meaning]
    exact rest_map keeps renames (meaning_letters e)

theorem map_plain (plain : ∀ ee, e = complement ee → False) :
    ∀ ee, e.map order f = complement ee → False := by
  cases e with
  | complement ee => exact absurd rfl (plain ee)
  | _ => exact nofun

theorem plain_complement_rewrites (keeps : ∀ letter, (f letter).char = letter.char)
    (plain : ∀ ee, e = complement ee → False) (inner : e.Respects f true → Rewrites f true e (e.map order f))
    (respects : (complement e).Respects f below) :
    Rewrites f below (complement e) ((complement e).map order f) := by
  rw [Respects.eq_7 f below e plain] at respects
  rw [map]
  exact complement_rewrites keeps plain (map_plain plain) (inner respects.1) respects.2

mutual

theorem agrees_self : ∀ regex : Regex, regex.Agrees f f
  | single bytes => by
    rw [Agrees]
    exact fun _ _ => rfl
  | concat v | union v | inter v => by
    rw [Agrees]
    exact all_agree_self v
  | star _ r | complement r => by
    rw [Agrees]
    exact agrees_self r

theorem all_agree_self : ∀ v : List Regex, AllAgree f f v
  | [] => trivial
  | r :: v => by
    rw [AllAgree]
    exact ⟨agrees_self r, all_agree_self v⟩

end

mutual

theorem agrees_map {h : Letter → Letter} : ∀ regex : Regex, regex.Agrees f h → regex.map order f = regex.map order h
  | single bytes, agrees => by
    rw [Agrees] at agrees
    rw [map, map, map_congr_left agrees]
  | concat v, agrees | union v, agrees | inter v, agrees => by
    rw [Agrees] at agrees
    rw [map, map, all_agree_map v agrees]
  | star _ r, agrees | complement r, agrees => by
    rw [Agrees] at agrees
    rw [map, map, agrees_map r agrees]

theorem all_agree_map {h : Letter → Letter} : ∀ v : List Regex, AllAgree f h v → mapAll order f v = mapAll order h v
  | [], _ => rfl
  | r :: v, agrees => by
    rw [AllAgree] at agrees
    rw [mapAll, mapAll, agrees_map r agrees.1, all_agree_map v agrees.2]

end

mutual

theorem map_rewrites : ∀ (regex : Regex) {f : Letter → Letter} {below : Bool},
    (∀ letter, (f letter).char = letter.char) → regex.Respects f below →
      Rewrites f below regex (regex.map order f)
  | single bytes, f, below, _, _ => by
    rw [map]
    exact single_rewrites bytes
  | concat v, f, below, keeps, respects => by
    rw [Respects] at respects
    have parts := map_all_rewrites v keeps respects
    constructor
    · intro under
      rw [map, Regex.letters, Regex.letters, parts.1 under]
      exact image_parts f _
    · rw [map, Regex.meaning, Regex.meaning, parts.2]
      exact (map_list_prod (Language.map f) _).symm
  | union v, f, below, keeps, respects => by
    rw [Respects] at respects
    have parts := map_all_rewrites v keeps respects
    constructor
    · intro under
      rw [map, Regex.letters, Regex.letters, parts.1 under]
      exact image_parts f _
    · rw [map, Regex.meaning, Regex.meaning, parts.2]
      exact map_parts _
  | inter v, f, below, keeps, respects => by
    rw [Respects] at respects
    rcases respects with ⟨rewritings, operands, words, letters⟩
    have parts := map_operands_rewrite v operands
    rw [map]
    exact inter_rewrites parts.1 parts.2.2 parts.2.1 words letters
  | star strict r, f, below, keeps, respects => by
    rw [Respects] at respects
    have inner := map_rewrites r keeps respects
    constructor
    · intro under
      rw [map, Regex.letters, Regex.letters]
      exact inner.letters under
    · rw [map, Regex.meaning, Regex.meaning, inner.meaning]
      split_ifs
      · rw [map_mul, Language.map_kstar]
      · rw [Language.map_kstar]
  | complement (complement ee), f, below, keeps, respects => by
    rw [Respects] at respects
    have inner := map_rewrites ee keeps respects
    constructor
    · intro under
      rw [map, map, Regex.letters, Regex.letters]
      exact inner.letters under
    · rw [map, map, double_complement_meaning, double_complement_meaning]
      exact inner.meaning
  | complement (single _), _, _, keeps, respects | complement (concat _), _, _, keeps, respects
  | complement (union _), _, _, keeps, respects | complement (inter _), _, _, keeps, respects
  | complement (star _ _), _, _, keeps, respects =>
    plain_complement_rewrites keeps nofun (map_rewrites _ keeps) respects

theorem map_all_rewrites : ∀ (v : List Regex) {f : Letter → Letter} {below : Bool},
    (∀ letter, (f letter).char = letter.char) → AllRespect v f below →
      (below = true → lettersOf (mapAll order f v) = (lettersOf v).map (Set.image f)) ∧
        meaningOf (mapAll order f v) = (meaningOf v).map (Language.map f)
  | [], _, _, _, _ => ⟨fun _ => rfl, rfl⟩
  | r :: v, f, below, keeps, respects => by
    rw [AllRespect] at respects
    have here := map_rewrites r keeps respects.1
    have later := map_all_rewrites v keeps respects.2
    constructor
    · intro under
      rw [mapAll, lettersOf, lettersOf, map_cons, here.letters under, later.1 under]
    · rw [mapAll, meaningOf, meaningOf, map_cons, here.meaning, later.2]

theorem map_operands_rewrite : ∀ (v : List Regex) {f : Letter → Letter} {below : Bool}
    {rewritings : List (Letter → Letter)}, OperandsRespect v f below rewritings →
      rewritings.length = v.length ∧
      (below = true → lettersOf (mapAll order f v) =
        zipWith (fun h letters => Set.image h letters) rewritings (lettersOf v)) ∧
      meaningOf (mapAll order f v) =
        zipWith (fun h part => Set.image h part) (rewritings.map List.map) (meaningOf v)
  | [], f, below, [], _ => ⟨rfl, fun _ => rfl, rfl⟩
  | [], f, below, h :: rewritings, respects => respects.elim
  | r :: v, f, below, [], respects => respects.elim
  | r :: v, f, below, h :: rewritings, respects => by
    rw [OperandsRespect] at respects
    have here := map_rewrites r respects.1 respects.2.2.1
    have later := map_operands_rewrite v respects.2.2.2
    rw [mapAll, agrees_map r respects.2.1]
    refine ⟨congrArg Nat.succ later.1, fun under => ?_, ?_⟩
    · rw [lettersOf, lettersOf, zipWith_cons_cons, here.letters under, later.2.1 under]
    · rw [meaningOf, meaningOf, map_cons, here.meaning, later.2.2]
      rfl

end

/-! ### Rewritten automata -/

mutual

theorem concat_members_map : ∀ regex : Regex,
    concatMembers (regex.map order f) = (concatMembers regex).map (Regex.map order f)
  | concat v => by
    rw [map, concatMembers, concatMembers]
    exact concat_members_of_map v
  | single _ | union _ | inter _ | star _ _ | complement _ => by
    rw [map, concatMembers, concatMembers, map_singleton, map]

theorem concat_members_of_map : ∀ v : List Regex,
    concatMembersOf (mapAll order f v) = (concatMembersOf v).map (Regex.map order f)
  | [] => by
    rw [mapAll, concatMembersOf, map_nil]
  | r :: v => by
    rw [mapAll, concatMembersOf, concatMembersOf, map_append, concat_members_map r,
      concat_members_of_map v]

end

mutual

theorem map_claims : ∀ regex : Regex, (regex.map order f).claimsComplete = regex.claimsComplete
  | single bytes => by rw [map, claimsComplete, claimsComplete]
  | concat v => by
    rw [map, claimsComplete, claimsComplete]
    exact (map_all_claim v).1
  | union v => by
    rw [map, claimsComplete, claimsComplete]
    exact (map_all_claim v).2
  | inter [] => by rw [map, mapAll]
  | inter (r :: v) => by
    rw [map, mapAll, claimsComplete, claimsComplete]
    rfl
  | star strict r => by
    rw [map, claimsComplete, claimsComplete]
    exact map_claims r
  | complement (complement ee) => by
    rw [map, map, claimsComplete, claimsComplete]
    exact map_claims ee
  | complement (single bytes) => rfl
  | complement (concat v) => rfl
  | complement (union v) => rfl
  | complement (inter v) => rfl
  | complement (star strict r) => rfl

theorem map_all_claim : ∀ v : List Regex, allClaimComplete (mapAll order f v) = allClaimComplete v ∧
    anyClaimsComplete (mapAll order f v) = anyClaimsComplete v
  | [] => ⟨rfl, rfl⟩
  | r :: v => by
    rw [mapAll, allClaimComplete, allClaimComplete, anyClaimsComplete, anyClaimsComplete, map_claims r,
      (map_all_claim v).1, (map_all_claim v).2]
    exact ⟨rfl, rfl⟩

end

theorem map_language_one {words : Language Letter} (same : Language.map f words = 1) : words = 1 := by
  apply Language.ext
  intro word
  rw [Language.mem_one]
  constructor
  · intro inside
    have image : word.map f ∈ Language.map f words := ⟨word, inside, rfl⟩
    rw [same, Language.mem_one, map_eq_nil_iff] at image
    exact image
  · intro none
    have empty : [] ∈ Language.map f words := by rw [same, Language.mem_one]
    rcases empty with ⟨old, oldIn, nothing⟩
    rw [none, ← map_eq_nil_iff.mp nothing]
    exact oldIn

theorem Rewrites.completes {regex rewritten : Regex} (rewrites : Rewrites f true regex rewritten)
    (completes : regex.Completes) (claims : rewritten.claimsComplete = regex.claimsComplete)
    (renames : Renames f regex.letters) : rewritten.Completes := by
  constructor
  · rw [claims]
    exact completes.unflagged
  · rcases completes.read with ⟨word, inside, some_⟩
    refine ⟨word.map f, ?_, fun none => some_ (map_eq_nil_iff.mp none)⟩
    rw [rewrites.meaning]
    exact ⟨word, inside, rfl⟩
  · rw [rewrites.letters rfl]
    rintro _ ⟨letter, letterIn, rfl⟩ _ ⟨other, otherIn, rfl⟩
    exact (renames letter ⟨letter, letterIn, rfl⟩ other ⟨other, otherIn, rfl⟩).mpr
      (completes.single letter letterIn other otherIn)

theorem plain_complement_proper (keeps : ∀ letter, (f letter).char = letter.char) {e : Regex}
    (plain : ∀ ee, e = complement ee → False) (inner : e.Proper → e.Respects f true → (e.map order f).Proper)
    (proper : (complement e).Proper) (respects : (complement e).Respects f below) :
    ((complement e).map order f).Proper := by
  rw [Proper.eq_7 e plain] at proper
  rw [Respects.eq_7 f below e plain] at respects
  rw [map, Proper.eq_7 _ (map_plain plain)]
  exact ⟨inner proper.1 respects.1,
    (map_rewrites e keeps respects.1).completes proper.2 (map_claims e) respects.2⟩

mutual

theorem union_members_map : ∀ regex : Regex,
    unionMembers (regex.map order f) = (unionMembers regex).map (Regex.map order f)
  | union v => by
    rw [map, unionMembers, unionMembers]
    exact union_members_of_map v
  | single _ | concat _ | inter _ | star _ _ | complement _ => by
    rw [map, unionMembers, unionMembers, map_singleton, map]

theorem union_members_of_map : ∀ v : List Regex,
    unionMembersOf (mapAll order f v) = (unionMembersOf v).map (Regex.map order f)
  | [] => by
    rw [mapAll, unionMembersOf, map_nil]
  | r :: v => by
    rw [mapAll, unionMembersOf, unionMembersOf, map_append, union_members_map r,
      union_members_of_map v]

end

theorem map_epsilon (regex : Regex) : (regex.map order f).isEpsilon = regex.isEpsilon := by
  cases regex with
  | concat v =>
    cases v with
    | nil => rw [map, mapAll]
    | cons r v =>
      rw [map, mapAll]
      rfl
  | _ =>
    rw [map]
    rfl

/-- An iteration next to the empty word still reads something. -/
theorem map_iterates {v : List Regex} (rewrites : ∀ r ∈ unionMembersOf v, ∀ strict e, r = star strict e →
      (e.map order f).meaning = Language.map f e.meaning)
    (iterates : (unionMembersOf v).any isEpsilon = true →
      ∀ strict r, star strict r ∈ unionMembersOf v → r.meaning ≠ 1) :
    (unionMembersOf (mapAll order f v)).any isEpsilon = true →
      ∀ strict r, star strict r ∈ unionMembersOf (mapAll order f v) → r.meaning ≠ 1 := by
  rw [union_members_of_map, any_map]
  intro epsilons strict r mem
  rw [show isEpsilon ∘ Regex.map order f = isEpsilon from funext map_epsilon] at epsilons
  rcases mem_map.mp mem with ⟨old, oldIn, same⟩
  cases old with
  | star strict e =>
    rw [map] at same
    cases same
    rw [rewrites _ oldIn strict e rfl]
    exact fun nothing => iterates epsilons strict e oldIn (map_language_one nothing)
  | _ => exact nomatch same

theorem union_members_respect {v : List Regex} {below : Bool} (respects : AllRespect v f below) :
    ∀ r ∈ unionMembersOf v, r.Respects f below :=
  @union_members_of_all (fun r => r.Respects f below) (fun v whole => by
    rw [Respects, all_respect_iff] at whole
    exact whole) v (all_respect_iff.mp respects)

theorem concat_members_respect {v : List Regex} {below : Bool} (respects : AllRespect v f below) :
    ∀ r ∈ concatMembersOf v, r.Respects f below :=
  @concat_members_of_all (fun r => r.Respects f below) (fun v whole => by
    rw [Respects, all_respect_iff] at whole
    exact whole) v (all_respect_iff.mp respects)

mutual

theorem map_proper : ∀ (regex : Regex) {f : Letter → Letter} {below : Bool},
    (∀ letter, (f letter).char = letter.char) → regex.Proper → regex.Respects f below →
      (regex.map order f).Proper
  | single bytes, f, below, _, _, _ => by
    rw [map, Proper]
    trivial
  | concat v, f, below, keeps, proper, respects => by
    rw [Proper] at proper
    rw [Respects] at respects
    rw [map, Proper]
    refine ⟨map_all_proper v keeps proper.1 respects, ?_⟩
    rw [concat_members_of_map]
    intro _ mem
    rcases mem_map.mp mem with ⟨old, oldIn, rfl⟩
    rw [(map_rewrites old keeps (concat_members_respect respects old oldIn)).meaning]
    exact fun same => proper.2 old oldIn (map_language_one same)
  | union v, f, below, keeps, proper, respects => by
    rw [Proper] at proper
    rw [Respects] at respects
    rw [map, Proper]
    refine ⟨map_all_proper v keeps proper.1 respects, map_iterates (fun r mem strict e same => ?_) proper.2⟩
    have member := union_members_respect respects r mem
    rw [same, Respects] at member
    exact (map_rewrites e keeps member).meaning
  | inter v, f, below, keeps, proper, respects => by
    rw [Proper] at proper
    rw [Respects] at respects
    rcases respects with ⟨rewritings, operands, -⟩
    rw [map, Proper]
    exact map_operands_proper v proper operands
  | star strict r, f, below, keeps, proper, respects => by
    rw [Proper] at proper
    rw [Respects] at respects
    rw [map, Proper, (map_rewrites r keeps respects).meaning]
    exact ⟨map_proper r keeps proper.1 respects,
      proper.2.imp_right fun reads same => reads (map_language_one same)⟩
  | complement (complement ee), f, below, keeps, proper, respects => by
    rw [Proper] at proper
    rw [Respects] at respects
    rw [map, map, Proper]
    exact map_proper ee keeps proper respects
  | complement (single _), _, _, keeps, proper, respects
  | complement (concat _), _, _, keeps, proper, respects
  | complement (union _), _, _, keeps, proper, respects
  | complement (inter _), _, _, keeps, proper, respects
  | complement (star _ _), _, _, keeps, proper, respects =>
    plain_complement_proper keeps nofun (map_proper _ keeps) proper respects

theorem map_all_proper : ∀ (v : List Regex) {f : Letter → Letter} {below : Bool},
    (∀ letter, (f letter).char = letter.char) → AllProper v → AllRespect v f below →
      AllProper (mapAll order f v)
  | [], _, _, _, _, _ => trivial
  | r :: v, f, below, keeps, proper, respects => by
    rw [AllProper] at proper
    rw [AllRespect] at respects
    rw [mapAll, AllProper]
    exact ⟨map_proper r keeps proper.1 respects.1, map_all_proper v keeps proper.2 respects.2⟩

theorem map_operands_proper : ∀ (v : List Regex) {f : Letter → Letter} {below : Bool}
    {rewritings : List (Letter → Letter)}, AllProper v → OperandsRespect v f below rewritings →
      AllProper (mapAll order f v)
  | [], _, _, _, _, _ => trivial
  | r :: v, f, below, [], _, respects => respects.elim
  | r :: v, f, below, h :: rewritings, proper, respects => by
    rw [AllProper] at proper
    rw [OperandsRespect] at respects
    rw [mapAll, AllProper, agrees_map r respects.2.1]
    exact ⟨map_proper r respects.1 proper.1 respects.2.2.1, map_operands_proper v proper.2 respects.2.2.2⟩

end

/-- The automaton after the operation reads the same bytes, with the rewritten markers. -/
def Commutes (order : HashOrder) (operation : MarkerOperation) (regex : Regex) : Prop :=
  ∃ automaton rewritten, regex.toRawAutomaton order alphabetMaxSize = some automaton ∧
    (operation.apply order regex).toRawAutomaton order alphabetMaxSize = some rewritten ∧
    rewritten.byteLanguage = automaton.byteLanguage ∧
    ∀ word, word ∈ rewritten.language ↔ ∃ old ∈ automaton.language, old.map operation.rewrite = word

theorem Commutes.meaning {operation : MarkerOperation} {regex : Regex} (commutes : Commutes order operation regex)
    (proper : regex.Proper) (rewrittenProper : (regex.map order operation.rewrite).Proper) :
    (regex.map order operation.rewrite).meaning = Language.map operation.rewrite regex.meaning := by
  rcases commutes with ⟨automaton, rewritten, found, rewrittenIs, -, words⟩
  rcases proper_converts order regex proper with ⟨other, otherIs, carries, -⟩
  rcases proper_converts order _ rewrittenProper with ⟨image, imageIs, imageCarries, -⟩
  rw [found, Option.some.injEq] at otherIs
  rw [operation.apply_eq, imageIs, Option.some.injEq] at rewrittenIs
  rw [← carries.words, ← imageCarries.words, rewrittenIs, ← otherIs]
  apply Language.ext
  exact words

end Regex

end Midfall.Regexes
