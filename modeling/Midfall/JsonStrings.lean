import Midfall.RegexMarkers

/-!
# JSON strings

The regular expression of a JSON string. Its unescaped characters are the UTF-8
code point sequences intersected with the single bytes that are not excluded,
which leaves those of one byte.
-/

namespace Midfall.Regexes

open RawAutomata RawAutomata.RawAutomaton List
open ScannerAutomaton (alphabetMaxSize)
open Computability

namespace Regex

variable {order : HashOrder}

/-! ### Combinators -/

/-- The bytes of an inclusive range. -/
def byteRange (first last : Nat) : List UInt8 :=
  (range' first (last + 1 - first)).map UInt8.ofNat

def byteFrom (l : List UInt8) : Regex := single (l.map Letter.ofByte)

def byteNotFrom (l : List UInt8) : Regex :=
  let bytes : UInt8 → Bool := l.foldl (fun bytes b => Function.update bytes b false) fun _ => true
  byteFrom ((byteRange 0 (alphabetMaxSize - 1)).filter bytes)

def word (word : List UInt8) : Regex := concat (word.map fun b => byteFrom [b])

def or (self other : Regex) : Regex := union [self, other]

def and (self other : Regex) : Regex := inter [self, other]

def nonEmptyList (self : Regex) : Regex := star true self

def list (self : Regex) : Regex := self.nonEmptyList.or epsilon

def terminated (self other : Regex) : Regex := concat [self, other]

def delimited (self opening closing : Regex) : Regex := concat [opening, self, closing]

def repeated (self : Regex) (n : Nat) : Regex := concat (replicate n self)

def utf8Cps : Regex :=
  union [
    -- 1 byte
    byteFrom (byteRange 0x00 0x7F),
    -- 2 bytes
    concat [byteFrom (byteRange 0xC2 0xDF), byteFrom (byteRange 0x80 0xBF)],
    -- 3 bytes
    concat [byteFrom [0xE0], byteFrom (byteRange 0xA0 0xBF), byteFrom (byteRange 0x80 0xBF)],
    (byteFrom (byteRange 0xE1 0xEC ++ byteRange 0xEE 0xEF)).terminated
      ((byteFrom (byteRange 0x80 0xBF)).repeated 2),
    concat [byteFrom [0xED], byteFrom (byteRange 0x80 0x9F), byteFrom (byteRange 0x80 0xBF)],
    -- 4 bytes
    concat [byteFrom [0xF0], byteFrom (byteRange 0x90 0xBF), (byteFrom (byteRange 0x80 0xBF)).repeated 2],
    (byteFrom (byteRange 0xF1 0xF3)).terminated ((byteFrom (byteRange 0x80 0xBF)).repeated 3),
    concat [byteFrom [0xF4], byteFrom (byteRange 0x80 0x8F), (byteFrom (byteRange 0x80 0xBF)).repeated 2]]

def quote : UInt8 := 0x22

def backslash : UInt8 := 0x5C

/-- The quote, the backslash, `/`, `b`, `f`, `n`, `r` and `t`. -/
def escapable : List UInt8 := [quote, backslash, 0x2F, 0x62, 0x66, 0x6E, 0x72, 0x74]

/-- Digits, and letters from `a` to `f` and from `A` to `F`. -/
def hexDigits : List UInt8 := byteRange 0x30 0x39 ++ byteRange 0x61 0x66 ++ byteRange 0x41 0x46

def unescapedUtf8Cps : Regex := utf8Cps.and (byteNotFrom (byteRange 0x00 0x1F ++ [quote, backslash]))

def simpleEscape : Regex := (word [backslash]).terminated (byteFrom escapable)

/-- The second byte is `u`. -/
def unicodeEscape : Regex := (word [backslash, 0x75]).terminated ((byteFrom hexDigits).repeated 4)

def content : Regex := (union [unescapedUtf8Cps, simpleEscape, unicodeEscape]).list

def jsonString (order : HashOrder) : Regex :=
  (content.mark order fun _ => some 1).delimited (word [quote]) (word [quote])

/-! ### Sequences of ranges -/

mutual

/-- The ranges of a regular expression without choices. -/
def sequence : Regex → Option (List (List Letter))
  | single bytes => some [bytes]
  | concat v => sequences v
  | _ => none

def sequences : List Regex → Option (List (List Letter))
  | [] => some []
  | r :: v => do
    let first ← r.sequence
    let rest ← sequences v
    return first ++ rest

end

theorem sequences_cons {r : Regex} {v : List Regex} {ranges : List (List Letter)}
    (found : sequences (r :: v) = some ranges) : ∃ first rest, r.sequence = some first ∧
      sequences v = some rest ∧ ranges = first ++ rest := by
  rw [sequences] at found
  rcases bind_some_iff.mp found with ⟨first, firstIs, rest⟩
  rcases bind_some_iff.mp rest with ⟨later, laterIs, same⟩
  cases same
  exact ⟨first, later, firstIs, laterIs, rfl⟩

mutual

theorem sequence_meaning : ∀ (regex : Regex) {ranges : List (List Letter)}, regex.sequence = some ranges →
    regex.meaning = rangeWords ranges
  | single bytes, ranges, found => by
    rw [sequence] at found
    cases found
    rw [meaning]
  | concat v, ranges, found => by
    rw [sequence] at found
    rw [meaning]
    exact sequences_meaning v found
  | union _, _, found | inter _, _, found | star _ _, _, found | complement _, _, found =>
    nomatch found

theorem sequences_meaning : ∀ (v : List Regex) {ranges : List (List Letter)}, sequences v = some ranges →
    (meaningOf v).prod = rangeWords ranges
  | [], ranges, found => by
    rw [sequences] at found
    cases found
    rw [meaningOf, prod_nil, range_words_nil]
  | r :: v, ranges, found => by
    rcases sequences_cons found with ⟨first, rest, firstIs, restIs, rfl⟩
    rw [meaningOf, prod_cons, sequence_meaning r firstIs, sequences_meaning v restIs,
      range_words_append]

end

mutual

theorem sequence_proper : ∀ (regex : Regex) {ranges : List (List Letter)}, regex.sequence = some ranges →
    regex.Proper ∧ ∀ mem ∈ concatMembers regex, mem.meaning ≠ 1
  | single bytes, ranges, _ => by
    rw [Proper, concatMembers, forall_mem_singleton, meaning]
    exact ⟨trivial, range_words_proper (cons_ne_nil _ _)⟩
  | concat v, ranges, found => by
    rw [sequence] at found
    rw [Proper, concatMembers]
    have parts := sequences_proper v found
    exact ⟨parts, parts.2⟩
  | union _, _, found | inter _, _, found | star _ _, _, found | complement _, _, found =>
    nomatch found

theorem sequences_proper : ∀ (v : List Regex) {ranges : List (List Letter)}, sequences v = some ranges →
    AllProper v ∧ ∀ mem ∈ concatMembersOf v, mem.meaning ≠ 1
  | [], _, _ => by
    rw [AllProper, concatMembersOf]
    exact ⟨trivial, fun _ mem => absurd mem not_mem_nil⟩
  | r :: v, ranges, found => by
    rcases sequences_cons found with ⟨first, rest, firstIs, restIs, rfl⟩
    have here := sequence_proper r firstIs
    have later := sequences_proper v restIs
    rw [AllProper, concatMembersOf, forall_mem_append]
    exact ⟨⟨here.1, later.1⟩, here.2, later.2⟩

end

theorem sequence_plain {regex : Regex} {ranges : List (List Letter)} (found : regex.sequence = some ranges) :
    regex.isStar = false ∧ ∀ v, regex ≠ union v := by
  cases regex with
  | single _ | concat _ => exact ⟨rfl, nofun⟩
  | _ => cases found

theorem union_proper {v : List Regex} (proper : ∀ r ∈ v, r.Proper)
    (plain : ∀ r ∈ v, r.isStar = false ∧ ∀ v, r ≠ union v) : (union v).Proper := by
  rw [Proper, all_proper_iff]
  refine ⟨proper, ?_⟩
  rintro - strict r mem
  have member := @union_members_of_all (fun r => r.isStar = false ∧ ∀ v, r ≠ union v)
    (fun v whole => absurd rfl (whole.2 v)) v plain _ mem
  cases member.1

/-! ### Characters -/

theorem mem_byte_range {first last : Nat} (small : last < 256) {b : UInt8} :
    b ∈ byteRange first last ↔ first ≤ b.toNat ∧ b.toNat ≤ last := by
  unfold byteRange
  rw [mem_map]
  constructor
  · rintro ⟨value, mem, rfl⟩
    rw [mem_range'_1] at mem
    rw [UInt8.toNat_ofNat', Nat.mod_eq_of_lt (by omega)]
    omega
  · rintro ⟨above, below⟩
    refine ⟨b.toNat, ?_, UInt8.ofNat_toNat⟩
    rw [mem_range'_1]
    omega

variable {l : List UInt8} {letter : Letter}

theorem mem_bytes :
    letter ∈ l.map Letter.ofByte ↔ ∃ b ∈ l, Letter.ofByte b = letter := mem_map

theorem byte_from_meaning {word : List Letter} :
    word ∈ (byteFrom l).meaning ↔ ∃ b ∈ l, word = [Letter.ofByte b] := by
  rw [byteFrom, meaning, mem_range_words_singleton]
  constructor
  · rintro ⟨letter, mem, rfl⟩
    rcases mem_bytes.mp mem with ⟨b, inside, rfl⟩
    exact ⟨b, inside, rfl⟩
  · rintro ⟨b, inside, rfl⟩
    exact ⟨_, mem_bytes.mpr ⟨b, inside, rfl⟩, rfl⟩

theorem byte_not_from_meaning {word : List Letter} :
    word ∈ (byteNotFrom l).meaning ↔ ∃ b, b ∉ l ∧ word = [Letter.ofByte b] := by
  unfold byteNotFrom
  dsimp only
  rw [byte_from_meaning]
  apply exists_congr
  intro b
  apply and_congr_left
  intro _
  have inRange : b ∈ byteRange 0 (alphabetMaxSize - 1) :=
    (mem_byte_range (by decide)).mpr ⟨Nat.zero_le _, Nat.le_sub_one_of_lt (byte_small b)⟩
  rw [mem_filter, and_iff_right inRange, update_all]
  split_ifs with mem
  · exact iff_of_false id (not_not.mpr mem)
  · exact iff_of_true rfl mem

/-- Code point sequences of several bytes are sequences of at least two ranges. -/
theorem utf8_cps_shape : ∃ rest, utf8Cps = union (byteFrom (byteRange 0x00 0x7F) :: rest) ∧
    ∀ part ∈ rest, ∃ ranges, part.sequence = some ranges ∧ 2 ≤ ranges.length := by
  refine ⟨_, rfl, ?_⟩
  simp only [forall_mem_cons]
  exact ⟨⟨_, rfl, by simp⟩, ⟨_, rfl, by simp⟩, ⟨_, rfl, by simp⟩, ⟨_, rfl, by simp⟩, ⟨_, rfl, by simp⟩,
    ⟨_, rfl, by simp⟩, ⟨_, rfl, by simp⟩, fun _ mem => absurd mem not_mem_nil⟩

theorem utf8_cps_proper : utf8Cps.Proper := by
  rcases utf8_cps_shape with ⟨rest, shape, parts⟩
  have sequences : ∀ part ∈ byteFrom (byteRange 0x00 0x7F) :: rest, ∃ ranges, part.sequence = some ranges := by
    rw [forall_mem_cons]
    exact ⟨⟨_, rfl⟩, fun part mem => (parts part mem).imp fun _ both => both.1⟩
  rw [shape]
  apply union_proper
  · intro part mem
    rcases sequences part mem with ⟨ranges, found⟩
    exact (sequence_proper part found).1
  · intro part mem
    rcases sequences part mem with ⟨ranges, found⟩
    exact sequence_plain found

theorem utf8_cps_byte :
    [letter] ∈ utf8Cps.meaning ↔ letter.char.toNat ≤ 0x7F ∧ letter.marker = 0 := by
  rcases utf8_cps_shape with ⟨rest, shape, parts⟩
  rw [shape, meaning, meaning_of_map, map_cons]
  constructor
  · rintro ⟨language, mem, inside⟩
    rcases mem_cons.mp mem with rfl | later
    · rcases byte_from_meaning.mp inside with ⟨b, inRange, same⟩
      rw [singleton_inj] at same
      rw [same]
      exact ⟨((mem_byte_range (by decide)).mp inRange).2, rfl⟩
    · rcases mem_map.mp later with ⟨part, partIn, rfl⟩
      rcases parts part partIn with ⟨ranges, found, long⟩
      rw [sequence_meaning part found] at inside
      have same : 1 = ranges.length := Forall₂.length_eq inside
      omega
  · rintro ⟨small, unmarked⟩
    refine ⟨_, mem_cons_self, byte_from_meaning.mpr ⟨letter.char, ?_, ?_⟩⟩
    · exact (mem_byte_range (by decide)).mpr ⟨Nat.zero_le _, small⟩
    · cases letter
      cases unmarked
      rfl

/-- The bytes that are characters of a JSON string. -/
def plainByte (b : UInt8) : Prop := 0x20 ≤ b.toNat ∧ b.toNat ≤ 0x7F ∧ b ≠ quote ∧ b ≠ backslash

theorem unescaped_meaning {word : List Letter} :
    word ∈ unescapedUtf8Cps.meaning ↔ ∃ b, plainByte b ∧ word = [Letter.ofByte b] := by
  have excluded : ∀ b, b ∉ byteRange 0x00 0x1F ++ [quote, backslash] ↔
      0x20 ≤ b.toNat ∧ b ≠ quote ∧ b ≠ backslash := by
    intro b
    rw [mem_append, mem_byte_range (by decide), mem_pair]
    push Not
    constructor
    · exact fun both => ⟨both.1 (Nat.zero_le _), both.2⟩
    · exact fun both => ⟨fun _ => both.1, both.2⟩
  rw [unescapedUtf8Cps, and, meaning, meaning_of_map, map_cons, map_singleton, foldl_cons,
    foldl_cons, foldl_nil, overlay_plain]
  constructor
  · rintro ⟨word1, first, word2, second, joined⟩
    rcases byte_not_from_meaning.mp second with ⟨b, allowed, rfl⟩
    have lengths := join_words_length joined
    rcases length_eq_one_iff.mp lengths.2.symm with ⟨letter, rfl⟩
    rcases length_eq_one_iff.mp lengths.1 with ⟨letter1, rfl⟩
    rcases join_eq_some.mp (join_words_cons.mp joined).1 with ⟨char1, char2, -, marker⟩
    have ascii := utf8_cps_byte.mp first
    rw [ascii.2, Nat.zero_max] at marker
    have byte : letter1.char = b := char1.trans char2.symm
    rw [byte] at ascii
    refine ⟨b, ⟨((excluded b).mp allowed).1, ascii.1, ((excluded b).mp allowed).2⟩, ?_⟩
    cases letter
    cases char2
    cases marker
    rfl
  · rintro ⟨b, ⟨above, below, others⟩, rfl⟩
    refine ⟨[Letter.ofByte b], utf8_cps_byte.mpr ⟨below, rfl⟩, [Letter.ofByte b],
      byte_not_from_meaning.mpr ⟨b, (excluded b).mpr ⟨above, others⟩, rfl⟩, ?_⟩
    exact join_words_cons.mpr ⟨join_unmarked (Letter.ofByte b), rfl⟩

inductive IsChunk : List UInt8 → Prop
  | plain (b : UInt8) : plainByte b → IsChunk [b]
  | escape (b : UInt8) : b ∈ escapable → IsChunk [backslash, b]
  | unicode (digits : List UInt8) : digits.length = 4 → (∀ b ∈ digits, b ∈ hexDigits) →
      IsChunk ([backslash, 0x75] ++ digits)

theorem mem_range_bytes {ranges : List (List UInt8)} {word : List Letter} :
    word ∈ rangeWords (ranges.map (List.map Letter.ofByte)) ↔
      ∃ bytes, Forall₂ (fun b range => b ∈ range) bytes ranges ∧ word = bytes.map Letter.ofByte := by
  induction ranges generalizing word with
  | nil =>
    rw [map_nil, range_words_nil, Language.mem_one]
    constructor
    · exact fun none => ⟨[], Forall₂.nil, none⟩
    · rintro ⟨bytes, all, rfl⟩
      rw [forall₂_nil_right_iff.mp all, map_nil]
  | cons range ranges ih =>
    constructor
    · intro all
      rcases forall₂_cons_right_iff.mp all with ⟨letter, rest, inside, later, rfl⟩
      rcases mem_bytes.mp inside with ⟨b, bIn, rfl⟩
      rcases ih.mp later with ⟨bytes, each, rfl⟩
      exact ⟨b :: bytes, Forall₂.cons bIn each, rfl⟩
    · rintro ⟨bytes, all, rfl⟩
      rcases forall₂_cons_right_iff.mp all with ⟨b, rest, inside, later, rfl⟩
      exact Forall₂.cons (mem_bytes.mpr ⟨b, inside, rfl⟩) (ih.mpr ⟨rest, later, rfl⟩)

theorem simple_escape_meaning {word : List Letter} : word ∈ simpleEscape.meaning ↔
    ∃ b ∈ escapable, word = [backslash, b].map Letter.ofByte := by
  have found : simpleEscape.sequence = some ([[backslash], escapable].map (List.map Letter.ofByte)) := rfl
  rw [sequence_meaning _ found, mem_range_bytes]
  constructor
  · rintro ⟨bytes, all, rfl⟩
    rcases forall₂_cons_right_iff.mp all with ⟨first, rest, firstIn, later, rfl⟩
    rcases forall₂_cons_right_iff.mp later with ⟨b, none, bIn, last, rfl⟩
    rw [mem_singleton.mp firstIn, forall₂_nil_right_iff.mp last]
    exact ⟨b, bIn, rfl⟩
  · rintro ⟨b, mem, rfl⟩
    exact ⟨_, Forall₂.cons (mem_singleton_self _) (Forall₂.cons mem Forall₂.nil), rfl⟩

theorem forall_replicate {bytes : List UInt8} {count : Nat} {range : List UInt8} :
    Forall₂ (fun b range => b ∈ range) bytes (replicate count range) ↔
      bytes.length = count ∧ ∀ b ∈ bytes, b ∈ range := by
  induction count generalizing bytes with
  | zero =>
    rw [replicate_zero, forall₂_nil_right_iff, length_eq_zero_iff]
    constructor
    · rintro rfl
      exact ⟨rfl, fun _ absent => absurd absent not_mem_nil⟩
    · exact fun both => both.1
  | succ count ih =>
    rw [replicate_succ]
    cases bytes with
    | nil => exact iff_of_false nofun fun both => nomatch both.1
    | cons b bytes =>
      rw [forall₂_cons, ih, length_cons, forall_mem_cons, Nat.add_right_cancel_iff, and_left_comm]

theorem unicode_escape_meaning {word : List Letter} : word ∈ unicodeEscape.meaning ↔
    ∃ digits : List UInt8, digits.length = 4 ∧ (∀ b ∈ digits, b ∈ hexDigits) ∧
      word = ([backslash, 0x75] ++ digits).map Letter.ofByte := by
  have found : unicodeEscape.sequence = some (([backslash] :: [0x75] ::
      replicate 4 hexDigits).map (List.map Letter.ofByte)) := rfl
  rw [sequence_meaning _ found, mem_range_bytes]
  constructor
  · rintro ⟨bytes, all, rfl⟩
    rcases forall₂_cons_right_iff.mp all with ⟨first, rest, firstIn, later, rfl⟩
    rcases forall₂_cons_right_iff.mp later with ⟨second, digits, secondIn, last, rfl⟩
    rw [mem_singleton.mp firstIn, mem_singleton.mp secondIn]
    have hex := forall_replicate.mp last
    exact ⟨digits, hex.1, hex.2, rfl⟩
  · rintro ⟨digits, length, hex, rfl⟩
    exact ⟨_, Forall₂.cons (mem_singleton_self _) (Forall₂.cons (mem_singleton_self _)
      (forall_replicate.mpr ⟨length, hex⟩)), rfl⟩

theorem characters_meaning {word : List Letter} :
    word ∈ (union [unescapedUtf8Cps, simpleEscape, unicodeEscape]).meaning ↔
      ∃ bytes, IsChunk bytes ∧ word = bytes.map Letter.ofByte := by
  have parts : word ∈ (union [unescapedUtf8Cps, simpleEscape, unicodeEscape]).meaning ↔
      word ∈ unescapedUtf8Cps.meaning ∨ word ∈ simpleEscape.meaning ∨ word ∈ unicodeEscape.meaning := by
    rw [meaning, meaning_of_map]
    constructor
    · rintro ⟨language, mem, inside⟩
      rcases mem_map.mp mem with ⟨part, partIn, rfl⟩
      rcases mem_cons.mp partIn with rfl | later
      · exact Or.inl inside
      · rcases mem_pair.mp later with rfl | rfl
        · exact Or.inr (Or.inl inside)
        · exact Or.inr (Or.inr inside)
    · rintro (inside | inside | inside)
      · exact ⟨_, mem_cons_self, inside⟩
      · exact ⟨_, mem_cons_of_mem _ mem_cons_self, inside⟩
      · exact ⟨_, mem_cons_of_mem _ (mem_cons_of_mem _ mem_cons_self), inside⟩
  rw [parts, unescaped_meaning, simple_escape_meaning, unicode_escape_meaning]
  constructor
  · rintro (⟨b, plain, rfl⟩ | ⟨b, mem, rfl⟩ | ⟨digits, length, hex, rfl⟩)
    · exact ⟨[b], IsChunk.plain b plain, rfl⟩
    · exact ⟨_, IsChunk.escape b mem, rfl⟩
    · exact ⟨_, IsChunk.unicode digits length hex, rfl⟩
  · rintro ⟨bytes, chunk, rfl⟩
    cases chunk with
    | plain b plain => exact Or.inl ⟨b, plain, rfl⟩
    | escape b mem => exact Or.inr (Or.inl ⟨b, mem, rfl⟩)
    | unicode digits length hex => exact Or.inr (Or.inr ⟨digits, length, hex, rfl⟩)

/-! ### The conversion -/

theorem characters_proper : (union [unescapedUtf8Cps, simpleEscape, unicodeEscape]).Proper := by
  apply union_proper
  · rw [forall_mem_cons, forall_mem_cons, forall_mem_singleton, unescapedUtf8Cps, and, Proper, all_proper_iff,
      forall_mem_cons, forall_mem_singleton]
    exact ⟨⟨utf8_cps_proper, (sequence_proper (byteNotFrom _) rfl).1⟩,
      (sequence_proper simpleEscape rfl).1, (sequence_proper unicodeEscape rfl).1⟩
  · rw [forall_mem_cons, forall_mem_cons, forall_mem_singleton]
    exact ⟨⟨rfl, nofun⟩, ⟨rfl, nofun⟩, ⟨rfl, nofun⟩⟩

theorem quote_escape : [backslash, quote].map Letter.ofByte ∈
    (union [unescapedUtf8Cps, simpleEscape, unicodeEscape]).meaning :=
  characters_meaning.mpr ⟨_, IsChunk.escape quote (by decide), rfl⟩

theorem proper_of_read {words : Language Letter} {word : List Letter}
    (inside : letter :: word ∈ words) : words ≠ 1 := by
  intro same
  rw [same, Language.mem_one] at inside
  cases inside

theorem list_meaning (self : Regex) : self.list.meaning = self.meaning∗ := by
  have strict : (star true self).meaning = self.meaning * self.meaning∗ := by rw [meaning, if_pos rfl]
  have empty : epsilon.meaning = 1 := by rw [epsilon, meaning, meaningOf, prod_nil]
  rw [list, or, nonEmptyList, meaning, meaning_of_map, map_cons, map_singleton, strict, empty]
  apply Language.ext
  intro word
  rw [mem_kstar_split]
  constructor
  · rintro ⟨language, mem, inside⟩
    rcases mem_pair.mp mem with rfl | rfl
    · exact Or.inr inside
    · exact Or.inl inside
  · rintro (none | inside)
    · exact ⟨_, mem_cons_of_mem _ mem_cons_self, (Language.mem_one _).mpr none⟩
    · exact ⟨_, mem_cons_self, inside⟩

theorem content_proper : content.Proper := by
  have reads := proper_of_read quote_escape
  rw [content, list, or, nonEmptyList, epsilon, Proper, all_proper_iff, forall_mem_cons,
    forall_mem_singleton, Proper, Proper, AllProper, concatMembersOf]
  refine ⟨⟨⟨characters_proper, Or.inr reads⟩, trivial, fun _ absent => absurd absent not_mem_nil⟩, ?_⟩
  rintro - strict r mem
  rw [unionMembersOf, unionMembersOf, unionMembersOf, unionMembers, unionMembers] at mem
  rcases mem_pair.mp mem with same | same
  · cases same
  · cases same
    exact reads

mutual

theorem sequence_respects {f : Letter → Letter} {below : Bool} : ∀ (regex : Regex) {ranges : List (List Letter)},
    regex.sequence = some ranges → regex.Respects f below
  | single bytes, ranges, _ => by
    rw [Respects]
    trivial
  | concat v, ranges, found => by
    rw [sequence] at found
    rw [Respects]
    exact sequences_respect v found
  | union _, _, found | inter _, _, found | star _ _, _, found | complement _, _, found =>
    nomatch found

theorem sequences_respect {f : Letter → Letter} {below : Bool} : ∀ (v : List Regex)
    {ranges : List (List Letter)}, sequences v = some ranges → AllRespect v f below
  | [], ranges, _ => trivial
  | r :: v, ranges, found => by
    rcases sequences_cons found with ⟨first, rest, firstIs, restIs, rfl⟩
    rw [AllRespect]
    exact ⟨sequence_respects r firstIs, sequences_respect v restIs⟩

end

theorem utf8_cps_respects {f : Letter → Letter} {below : Bool} : utf8Cps.Respects f below := by
  rcases utf8_cps_shape with ⟨rest, shape, parts⟩
  rw [shape, Respects, all_respect_iff, forall_mem_cons]
  refine ⟨sequence_respects (byteFrom _) rfl, fun part mem => ?_⟩
  rcases parts part mem with ⟨ranges, found, -⟩
  exact sequence_respects part found

def marked : MarkerOperation := .mark fun _ => some 1

theorem marked_joins {letter1 letter2 : Letter} (unmarked : letter2.marker = 0) :
    join (marked.rewrite letter1) (marked.rewrite letter2) = (join letter1 letter2).map marked.rewrite := by
  rw [← join_masked (marked.rewrite_char letter1) unmarked]
  unfold join marked
  rw [MarkerOperation.rewrite, MarkerOperation.rewrite, unmarked]
  by_cases same : letter1.char = letter2.char
  · rw [if_pos ⟨same, Or.inl rfl⟩, if_pos ⟨same, Or.inr (Or.inr rfl)⟩]
    rfl
  · rw [if_neg fun both => same both.1, if_neg fun both => same both.1]

theorem byte_not_from_letters (mem : letter ∈ (byteNotFrom l).letters) : letter.marker = 0 := by
  unfold byteNotFrom byteFrom at mem
  rw [letters] at mem
  rcases mem_bytes.mp mem with ⟨b, -, rfl⟩
  rfl

theorem characters_respect :
    (union [unescapedUtf8Cps, simpleEscape, unicodeEscape]).Respects marked.rewrite false := by
  rw [Respects, all_respect_iff, forall_mem_cons, forall_mem_cons, forall_mem_singleton,
    unescapedUtf8Cps, and, Respects]
  refine ⟨⟨[marked.rewrite, marked.rewrite], ?_, ?_, nofun⟩, sequence_respects simpleEscape rfl,
    sequence_respects unicodeEscape rfl⟩
  · rw [OperandsRespect, OperandsRespect, OperandsRespect]
    exact ⟨marked.rewrite_char, agrees_self _, utf8_cps_respects, marked.rewrite_char, agrees_self _,
      sequence_respects (byteNotFrom _) rfl, trivial⟩
  · refine pair_commutes marked.rewrite_char fun word1 _ word2 inside => join_words_map
      (fun letter1 _ letter2 unmarked => marked_joins unmarked) word1 (fun letter _ => Set.mem_univ letter)
      word2 fun letter mem => ?_
    exact byte_not_from_letters (meaning_letters _ word2 inside letter mem)

theorem content_respects : content.Respects marked.rewrite false := by
  rw [content, list, or, nonEmptyList, epsilon, Respects, all_respect_iff, forall_mem_cons,
    forall_mem_singleton, Respects, Respects]
  exact ⟨characters_respect, trivial⟩

theorem marked_content : Rewrites marked.rewrite false content (content.mark order fun _ => some 1) ∧
    (content.mark order fun _ => some 1).Proper := by
  have same : (content.mark order fun _ => some 1) = content.map order marked.rewrite := rfl
  rw [same]
  exact ⟨map_rewrites content marked.rewrite_char content_respects,
    map_proper content marked.rewrite_char content_proper content_respects⟩

theorem quote_meaning : (word [quote]).meaning = rangeWords [[Letter.ofByte quote]] :=
  sequence_meaning _ rfl

theorem quote_proper : (word [quote]).Proper ∧ ∀ mem ∈ concatMembers (word [quote]), mem.meaning ≠ 1 :=
  sequence_proper _ rfl

theorem json_string_proper : (jsonString order).Proper := by
  have marked_ := @marked_content order
  have members : concatMembers (content.mark order fun _ => some 1) = [content.mark order fun _ => some 1] := by
    rw [content, list, or, mark, map, concatMembers]
  have read : (content.mark order fun _ => some 1).meaning ≠ 1 := by
    have escaped : [backslash, quote].map Letter.ofByte ∈ content.meaning := by
      rw [content, list_meaning, Language.mem_kstar]
      exact ⟨[[backslash, quote].map Letter.ofByte], rfl, forall_mem_singleton.mpr quote_escape⟩
    rw [marked_.1.meaning]
    exact fun same => proper_of_read escaped (map_language_one same)
  rw [jsonString, delimited, Proper, all_proper_iff, forall_mem_cons, forall_mem_cons,
    forall_mem_singleton, concatMembersOf, concatMembersOf, concatMembersOf, concatMembersOf, members,
    forall_mem_append, forall_mem_append, forall_mem_append, forall_mem_singleton]
  exact ⟨⟨quote_proper.1, marked_.2, quote_proper.1⟩, quote_proper.2, read, quote_proper.2,
    fun _ absent => absurd absent not_mem_nil⟩

theorem content_meaning {word : List Letter} : word ∈ content.meaning ↔
    ∃ chunks : List (List UInt8), (∀ chunk ∈ chunks, IsChunk chunk) ∧
      word = chunks.flatten.map Letter.ofByte := by
  rw [content, list_meaning, Language.mem_kstar]
  constructor
  · rintro ⟨parts, rfl, each⟩
    induction parts with
    | nil => exact ⟨[], fun _ absent => absurd absent not_mem_nil, rfl⟩
    | cons part parts ih =>
      rw [forall_mem_cons] at each
      rcases characters_meaning.mp each.1 with ⟨bytes, chunk, rfl⟩
      rcases ih each.2 with ⟨chunks, all, same⟩
      refine ⟨bytes :: chunks, forall_mem_cons.mpr ⟨chunk, all⟩, ?_⟩
      rw [flatten_cons, flatten_cons, map_append, same]
  · rintro ⟨chunks, all, rfl⟩
    refine ⟨chunks.map (List.map Letter.ofByte), map_flatten, ?_⟩
    intro part mem
    rcases mem_map.mp mem with ⟨bytes, inside, rfl⟩
    exact characters_meaning.mpr ⟨bytes, all bytes inside, rfl⟩

theorem json_string_meaning {w : List UInt8} :
    (∃ word ∈ (jsonString order).meaning, word.map Letter.char = w) ↔
      ∃ chunks : List (List UInt8), (∀ chunk ∈ chunks, IsChunk chunk) ∧
        w = [quote] ++ chunks.flatten ++ [quote] := by
  have bytes : ∀ l : List UInt8, ((l.map Letter.ofByte).map marked.rewrite).map Letter.char = l := by
    intro l
    rw [map_map, map_map]
    exact map_id l
  have quoted : ∀ word, word ∈ (Regex.word [quote]).meaning ↔ word = [Letter.ofByte quote] := by
    intro word
    rw [quote_meaning, mem_range_words_singleton]
    simp only [mem_singleton, exists_eq_left]
  rw [jsonString, delimited, meaning, meaning_of_map, map_cons, map_cons, map_singleton,
    prod_cons, prod_cons, prod_singleton, (@marked_content order).1.meaning]
  constructor
  · rintro ⟨_, ⟨opening, first, _, ⟨_, ⟨old, oldIn, rfl⟩, closing, last, rfl⟩, rfl⟩, rfl⟩
    rcases content_meaning.mp oldIn with ⟨chunks, all, rfl⟩
    refine ⟨chunks, all, ?_⟩
    rw [(quoted opening).mp first, (quoted closing).mp last]
    simp only [map_append, bytes, append_assoc]
    rfl
  · rintro ⟨chunks, all, rfl⟩
    refine ⟨_, Language.append_mem_mul ((quoted _).mpr rfl) (Language.append_mem_mul
      ⟨_, content_meaning.mpr ⟨chunks, all, rfl⟩, rfl⟩ ((quoted _).mpr rfl)), ?_⟩
    simp only [map_append, bytes, append_assoc]
    rfl

def JsonAccepts (order : HashOrder) (w : List UInt8) : Prop :=
  ∃ automaton, (jsonString order).toRawAutomaton order alphabetMaxSize = some automaton ∧
    w ∈ automaton.byteLanguage

theorem json_accepts_iff {w : List UInt8} : JsonAccepts order w ↔
    ∃ chunks : List (List UInt8), (∀ chunk ∈ chunks, IsChunk chunk) ∧
      w = [quote] ++ chunks.flatten ++ [quote] := by
  rcases proper_converts order (jsonString order) json_string_proper with ⟨automaton, found, carries, -⟩
  rw [← @json_string_meaning order, ← carries.words, ← mem_byte_language]
  constructor
  · rintro ⟨other, otherIs, accepted⟩
    rw [found] at otherIs
    cases otherIs
    exact accepted
  · exact fun accepted => ⟨automaton, found, accepted⟩

/-! ### JSON string literals -/

/-- One character of a JSON string: an unescaped code point, or an escape sequence. -/
inductive JsonChar : List UInt8 → Prop
  | unescaped (c : Char) : 0x20 ≤ c.toNat → c.toNat ≠ 0x22 → c.toNat ≠ 0x5C →
      JsonChar (String.utf8EncodeChar c)
  | escape (b : UInt8) : b ∈ escapable → JsonChar [backslash, b]
  | unicode (digits : List UInt8) : digits.length = 4 → (∀ b ∈ digits, b ∈ hexDigits) →
      JsonChar ([backslash, 0x75] ++ digits)

/-- A string literal: characters between quotes. -/
def IsJsonString (w : List UInt8) : Prop :=
  ∃ chars : List (List UInt8), (∀ c ∈ chars, JsonChar c) ∧ w = [quote] ++ chars.flatten ++ [quote]

def IsAscii (w : List UInt8) : Prop := ∀ b ∈ w, b.toNat ≤ 0x7F

instance (w : List UInt8) : Decidable (IsAscii w) := inferInstanceAs (Decidable (∀ b ∈ w, b.toNat ≤ 0x7F))

theorem encode_ascii {c : Char} (small : c.toNat ≤ 0x7F) :
    String.utf8EncodeChar c = [UInt8.ofNat c.toNat] := by
  unfold String.utf8EncodeChar
  exact if_pos small

theorem encode_wide {c : Char} (wide : 0x7F < c.toNat) : ¬ IsAscii (String.utf8EncodeChar c) := by
  unfold String.utf8EncodeChar
  dsimp only
  intro ascii
  change 0x7F < c.val.toNat at wide
  rw [if_neg (Nat.not_le.mpr wide)] at ascii
  have high : ∀ value bound : Nat, 0x80 ≤ bound → value + bound < 256 →
      ¬ (UInt8.ofNat (value + bound)).toNat ≤ 0x7F := by
    intro value bound above below
    rw [UInt8.toNat_ofNat', Nat.mod_eq_of_lt below]
    omega
  split_ifs at ascii
  · exact high _ 0xC0 (by decide) (by omega) (ascii _ mem_cons_self)
  · exact high _ 0xE0 (by decide) (by omega) (ascii _ mem_cons_self)
  · exact high _ 0xF0 (by decide) (by omega) (ascii _ mem_cons_self)

theorem escape_ascii {b : UInt8} (mem : b ∈ escapable) : IsAscii [backslash, b] := by
  have all : ∀ b ∈ escapable, IsAscii [backslash, b] := by decide +kernel
  exact all b mem

theorem unicode_ascii {digits : List UInt8} (hex : ∀ b ∈ digits, b ∈ hexDigits) :
    IsAscii ([backslash, 0x75] ++ digits) := by
  have small : ∀ b ∈ hexDigits, b.toNat ≤ 0x7F := by
    unfold hexDigits
    intro b mem
    rw [mem_append, mem_append, mem_byte_range (by decide), mem_byte_range (by decide),
      mem_byte_range (by decide)] at mem
    omega
  intro b mem
  rcases mem_append.mp mem with first | digit
  · exact (by decide +kernel : IsAscii [backslash, 0x75]) b first
  · exact small b (hex b digit)

theorem is_chunk_iff {bytes : List UInt8} : IsChunk bytes ↔ JsonChar bytes ∧ IsAscii bytes := by
  constructor
  · intro chunk
    cases chunk with
    | plain b allowed =>
      rcases allowed with ⟨above, below, notQuote, notBackslash⟩
      have value : (Char.ofNat b.toNat).toNat = b.toNat := by
        rw [Char.toNat_ofNat, if_pos]
        exact Or.inl (by omega)
      have encoded : String.utf8EncodeChar (Char.ofNat b.toNat) = [b] := by
        rw [encode_ascii (by rw [value]; exact below), value, UInt8.ofNat_toNat]
      refine ⟨?_, forall_mem_singleton.mpr below⟩
      rw [← encoded]
      apply JsonChar.unescaped
      · rw [value]
        exact above
      · rw [value]
        exact fun same => notQuote (UInt8.toNat_inj.mp same)
      · rw [value]
        exact fun same => notBackslash (UInt8.toNat_inj.mp same)
    | escape b mem => exact ⟨JsonChar.escape b mem, escape_ascii mem⟩
    | unicode digits length hex => exact ⟨JsonChar.unicode digits length hex, unicode_ascii hex⟩
  · rintro ⟨char, ascii⟩
    cases char with
    | unescaped c above notQuote notBackslash =>
      by_cases small : c.toNat ≤ 0x7F
      · have value : (UInt8.ofNat c.toNat).toNat = c.toNat := by
          rw [UInt8.toNat_ofNat', Nat.mod_eq_of_lt (by omega)]
        rw [encode_ascii small]
        apply IsChunk.plain
        refine ⟨?_, ?_, fun same => notQuote ?_, fun same => notBackslash ?_⟩
        · rw [value]
          exact above
        · rw [value]
          exact small
        · rw [← value, same]
          rfl
        · rw [← value, same]
          rfl
      · exact absurd ascii (encode_wide (Nat.lt_of_not_le small))
    | escape b mem => exact IsChunk.escape b mem
    | unicode digits length hex => exact IsChunk.unicode digits length hex

theorem json_accepts_ascii {w : List UInt8} : JsonAccepts order w ↔ IsJsonString w ∧ IsAscii w := by
  rw [json_accepts_iff]
  constructor
  · rintro ⟨chunks, all, rfl⟩
    refine ⟨⟨chunks, fun chunk mem => (is_chunk_iff.mp (all chunk mem)).1, rfl⟩, ?_⟩
    intro b mem
    have quoted : IsAscii [quote] := by decide +kernel
    rcases mem_append.mp mem with front | last
    · rcases mem_append.mp front with first | inside
      · exact quoted b first
      · rcases mem_flatten.mp inside with ⟨chunk, chunkIn, byteIn⟩
        exact (is_chunk_iff.mp (all chunk chunkIn)).2 b byteIn
    · exact quoted b last
  · rintro ⟨⟨chars, all, rfl⟩, ascii⟩
    refine ⟨chars, fun char mem => is_chunk_iff.mpr ⟨all char mem, fun b inside => ?_⟩, rfl⟩
    apply ascii
    exact mem_append_left _ (mem_append_right _ (mem_flatten.mpr ⟨char, mem, inside⟩))

/-- String literals are accepted, and nothing else, as long as they are ASCII. -/
theorem json_string_accepted (order : HashOrder) (w : List UInt8) :
    (JsonAccepts order w ↔ IsJsonString w) ↔ (IsJsonString w → IsAscii w) := by
  rw [json_accepts_ascii]
  exact and_iff_left_iff_imp

/-- The string of one code point of two bytes is rejected. -/
theorem json_string_rejects : IsJsonString [quote, 0xC3, 0xA9, quote] ∧
    ¬ JsonAccepts HashOrder.inOrder [quote, 0xC3, 0xA9, quote] := by
  refine ⟨⟨[[0xC3, 0xA9]], ?_, rfl⟩, ?_⟩
  · rw [forall_mem_singleton]
    exact JsonChar.unescaped (Char.ofNat 0xE9) (by decide) (by decide) (by decide)
  · rw [json_accepts_ascii]
    exact fun both => absurd both.2 (by decide +kernel)

end Regex

end Midfall.Regexes
