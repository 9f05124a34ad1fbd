import Midfall.RawAutomatonComplement

/-!
# Regular expressions

`parsing/scanner/regex.rs`: regular expressions over marked bytes and their
conversion into raw automata. Nested unions and concatenations are flattened by
a stack; what it holds is listed here in the order in which it is taken.
-/

namespace Midfall.Regexes

open RawAutomata RawAutomata.RawAutomaton List
open ScannerAutomaton (alphabetMaxSize)

/-- A strict iteration does not accept the empty word. -/
inductive Regex where
  | single (bytes : List Letter)
  | concat (l : List Regex)
  | union (l : List Regex)
  | inter (l : List Regex)
  | star (strict : Bool) (r : Regex)
  | complement (r : Regex)

namespace Regex

/-- The regex of the empty word. -/
def epsilon : Regex := concat []

mutual

def containsMarkers : Regex → Bool
  | single bytes => bytes.any fun b => decide (b.marker ≠ 0)
  | concat v => anyContainsMarkers v
  | union v => anyContainsMarkers v
  | inter v => anyContainsMarkers v
  | star _ r => r.containsMarkers
  | complement r => r.containsMarkers

def anyContainsMarkers : List Regex → Bool
  | [] => false
  | r :: v => r.containsMarkers || anyContainsMarkers v

end

def neg (self : Regex) : Option Regex :=
  if self.containsMarkers then none else some (complement self)

/-- What is converted at once: ranges in sequence, or another regex. -/
inductive Piece where
  | ranges (word : List (List Letter))
  | other (regex : Regex)

mutual

def unionMembers : Regex → List Regex
  | union v => unionMembersOf v
  | single bytes => [single bytes]
  | concat v => [concat v]
  | inter v => [inter v]
  | star strict r => [star strict r]
  | complement r => [complement r]

def unionMembersOf : List Regex → List Regex
  | [] => []
  | r :: v => unionMembersOf v ++ unionMembers r

end

mutual

def concatMembers : Regex → List Regex
  | concat v => concatMembersOf v
  | single bytes => [single bytes]
  | union v => [union v]
  | inter v => [inter v]
  | star strict r => [star strict r]
  | complement r => [complement r]

def concatMembersOf : List Regex → List Regex
  | [] => []
  | r :: v => concatMembers r ++ concatMembersOf v

end

def isEpsilon : Regex → Bool
  | concat [] => true
  | _ => false

def singleBytes : Regex → List Letter
  | single bytes => bytes
  | _ => []

/-- Neither the empty word nor a single range. -/
def isOther : Regex → Bool
  | concat [] => false
  | single _ => false
  | _ => true

/-- An iteration next to the empty word need not be strict. -/
def relaxed : Regex → Regex
  | star _ r => star false r
  | r => r

def isStar : Regex → Bool
  | star _ _ => true
  | _ => false

/-- The pieces of a union, and whether the empty word has to be added to them. -/
def unionPieces (order : HashOrder) (l : List Regex) : List Piece × Bool :=
  let members := unionMembersOf l
  let res := members.filter isOther
  let singles := (members.flatMap singleBytes).dedup
  let containsEpsilon := members.any isEpsilon
  ((if containsEpsilon then res.map relaxed else res).map Piece.other ++
      (if singles = [] then [] else [Piece.ranges [order.arrange singles]]),
    containsEpsilon && ! res.any isStar)

def concatPieces : List Regex → List (List Letter) → List Piece
  | [], singles => if singles = [] then [] else [Piece.ranges singles]
  | single bytes :: l, singles => concatPieces l (singles ++ [bytes])
  | regex :: l, singles =>
    (if singles = [] then [] else [Piece.ranges singles]) ++ Piece.other regex :: concatPieces l []

/-- The last automaton also accepts the empty word. -/
def optionalLast (automata : List RawAutomaton) : Option (List RawAutomaton) :=
  match automata.getLast? with
  | none => some [RawAutomaton.epsilon]
  | some last => do
    let optional ← last.makeOptional
    return automata.dropLast ++ [optional]

mutual

theorem union_members_size : ∀ (regex mem : Regex), mem ∈ unionMembers regex →
    sizeOf mem ≤ sizeOf regex
  | union v, mem, inside => by
    rw [unionMembers] at inside
    have below := union_members_of_size v mem inside
    rw [union.sizeOf_spec]
    omega
  | single _, mem, inside | concat _, mem, inside | inter _, mem, inside |
    star _ _, mem, inside | complement _, mem, inside => by
    rw [unionMembers, mem_singleton] at inside
    rw [inside]

theorem union_members_of_size : ∀ (v : List Regex) (mem : Regex), mem ∈ unionMembersOf v →
    sizeOf mem < sizeOf v
  | [], mem, inside => by
    rw [unionMembersOf] at inside
    exact absurd inside not_mem_nil
  | r :: v, mem, inside => by
    rw [unionMembersOf, mem_append] at inside
    rw [List.cons.sizeOf_spec]
    rcases inside with later | here
    · have below := union_members_of_size v mem later
      omega
    · have below := union_members_size r mem here
      omega

end

mutual

theorem concat_members_size : ∀ (regex mem : Regex), mem ∈ concatMembers regex →
    sizeOf mem ≤ sizeOf regex
  | concat v, mem, inside => by
    rw [concatMembers] at inside
    have below := concat_members_of_size v mem inside
    rw [concat.sizeOf_spec]
    omega
  | single _, mem, inside | union _, mem, inside | inter _, mem, inside |
    star _ _, mem, inside | complement _, mem, inside => by
    rw [concatMembers, mem_singleton] at inside
    rw [inside]

theorem concat_members_of_size : ∀ (v : List Regex) (mem : Regex), mem ∈ concatMembersOf v →
    sizeOf mem < sizeOf v
  | [], mem, inside => by
    rw [concatMembersOf] at inside
    exact absurd inside not_mem_nil
  | r :: v, mem, inside => by
    rw [concatMembersOf, mem_append] at inside
    rw [List.cons.sizeOf_spec]
    rcases inside with here | later
    · have below := concat_members_size r mem here
      omega
    · have below := concat_members_of_size v mem later
      omega

end

theorem relaxed_size (regex : Regex) : sizeOf (relaxed regex) = sizeOf regex := by
  cases regex with
  | star strict r => cases strict <;> rfl
  | _ => rfl

variable {l : List Regex} {regex : Regex}

theorem union_pieces_size {order : HashOrder} (inside : Piece.other regex ∈
    (unionPieces order l).1) :
    sizeOf regex < 1 + sizeOf l := by
  unfold unionPieces at inside
  dsimp only at inside
  rw [mem_append] at inside
  rcases inside with others | singles
  · rcases mem_map.mp others with ⟨mem, memberIn, same⟩
    cases same
    split_ifs at memberIn
    · rcases mem_map.mp memberIn with ⟨old, oldIn, rfl⟩
      have below := union_members_of_size l old (mem_filter.mp oldIn).1
      rw [relaxed_size]
      omega
    · have below := union_members_of_size l regex (mem_filter.mp memberIn).1
      omega
  · split_ifs at singles
    · exact absurd singles not_mem_nil
    · cases mem_singleton.mp singles

theorem concat_pieces_members : ∀ (l : List Regex) (singles : List (List Letter)) {regex : Regex},
    Piece.other regex ∈ concatPieces l singles → regex ∈ l := by
  intro l
  induction l with
  | nil =>
    intro singles regex inside
    rw [concatPieces] at inside
    split_ifs at inside
    · exact absurd inside not_mem_nil
    · cases mem_singleton.mp inside
  | cons first l ih =>
    intro singles regex inside
    have general : Piece.other regex ∈ (if singles = [] then [] else [Piece.ranges singles]) ++
        Piece.other first :: concatPieces l [] → regex ∈ first :: l := by
      intro mem
      rcases mem_append.mp mem with before | after
      · split_ifs at before
        · exact absurd before not_mem_nil
        · cases mem_singleton.mp before
      · rcases mem_cons.mp after with same | later
        · cases same
          exact mem_cons_self
        · exact mem_cons_of_mem _ (ih [] later)
    cases first with
    | single bytes =>
      rw [concatPieces] at inside
      exact mem_cons_of_mem _ (ih _ inside)
    | concat _ | union _ | inter _ | star _ _ | complement _ => exact general inside

theorem concat_pieces_size (inside : Piece.other regex ∈ concatPieces (concatMembersOf l) []) :
    sizeOf regex < 1 + sizeOf l := by
  have below := concat_members_of_size l regex (concat_pieces_members _ _ inside)
  omega

theorem inter_size (inside : regex ∈ l) : sizeOf regex < 1 + sizeOf l := by
  have below := sizeOf_lt_of_mem inside
  omega

def toRawAutomaton (order : HashOrder) (alphabetSize : Nat) : Regex → Option RawAutomaton
  | single bytes => some (byteConcat [bytes] alphabetSize)
  | concat l => do
    let automata ← (concatPieces (concatMembersOf l) []).attach.mapM fun
      | ⟨Piece.ranges word, _⟩ => some (byteConcat word alphabetSize)
      | ⟨Piece.other regex, inside⟩ =>
        have := concat_pieces_size inside
        regex.toRawAutomaton order alphabetSize
    RawAutomaton.concat automata
  | union l => do
    let automata ← (unionPieces order l).1.attach.mapM fun
      | ⟨Piece.ranges word, _⟩ => some (byteConcat word alphabetSize)
      | ⟨Piece.other regex, inside⟩ =>
        have := union_pieces_size inside
        regex.toRawAutomaton order alphabetSize
    let flattened ← if (unionPieces order l).2 then optionalLast automata else some automata
    RawAutomaton.union order flattened alphabetSize
  | inter l => do
    let start ← universal alphabetSize
    l.attach.foldlM (fun accu r => do
      have := inter_size r.2
      let automaton ← r.1.toRawAutomaton order alphabetSize
      accu.inter order automaton) start
  | star strict e => do
    let automaton ← e.toRawAutomaton order alphabetSize
    if strict then automaton.strictRepeat order else automaton.weakRepeat order
  | complement (complement ee) => ee.toRawAutomaton order alphabetSize
  | complement e => do
    let automaton ← e.toRawAutomaton order alphabetSize
    let determinised ← automaton.determinise order true alphabetSize
    determinised.complement order
termination_by regex => sizeOf regex

end Regex

end Midfall.Regexes
