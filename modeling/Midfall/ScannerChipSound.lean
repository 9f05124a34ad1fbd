import Midfall.ScalarField
import Midfall.ScannerChip

/-!
# The scanner chip accepts exactly the runs of its automata

The rows of the table are the dummy row, the transitions and the final states of
the automata, each automaton in its own range of states above 0. From a state of
one automaton and a byte, the table therefore leaves only the transition of that
automaton, and with the invalid letter only the check that the state is final.
-/

namespace Midfall.ScannerChipSound

open ListLoops ScannerAutomaton ScannerAutomaton.Automaton List
open Option (getD_none getD_some map_none map_some)
open ScannerChip
open ScalarField (scalarModulus)

variable {LibIndex : Type} {modulus : Nat}

/-! ### Disjoint ranges of states -/

structure Placed (LibIndex : Type) where
  name : LibIndex
  offset : Nat
  automaton : Automaton

def placeAt (offset : Nat) : List (LibIndex × Automaton) → List (Placed LibIndex)
  | [] => []
  | (name, automaton) :: rest => ⟨name, offset, automaton⟩ :: placeAt (offset + automaton.nbStates) rest

theorem from_collection_at_eq (offset : Nat) (automata : List (LibIndex × Automaton)) :
    @NativeAutomaton.fromCollectionAt modulus LibIndex offset automata =
      (placeAt offset automata).map fun placed =>
        (placed.name, NativeAutomaton.ofAutomaton (placed.automaton.offsetStates placed.offset)) := by
  induction automata generalizing offset with
  | nil => rfl
  | cons entry rest ih =>
    rw [NativeAutomaton.fromCollectionAt, ih]
    rfl

theorem placed_names (offset : Nat) (automata : List (LibIndex × Automaton)) :
    (placeAt offset automata).map (fun placed => (placed.name, placed.automaton)) = automata := by
  induction automata generalizing offset with
  | nil => rfl
  | cons entry rest ih => rw [placeAt, map_cons, ih]

variable {automata : List (LibIndex × Automaton)}

theorem placed_bounds {offset : Nat} {placed : Placed LibIndex}
    (member : placed ∈ placeAt offset automata) :
    offset ≤ placed.offset ∧ placed.offset + placed.automaton.nbStates ≤
      offset + (automata.map fun entry => entry.2.nbStates).sum := by
  induction automata generalizing offset with
  | nil => cases member
  | cons entry rest ih =>
    rw [map_cons, sum_cons]
    rcases mem_cons.mp member with rfl | later
    · constructor
      · exact Nat.le_refl offset
      · show offset + entry.2.nbStates ≤ _
        omega
    · have bounds := ih later
      omega

theorem placed_unique {offset : Nat} {left right : Placed LibIndex}
    (inLeft : left ∈ placeAt offset automata) (inRight : right ∈ placeAt offset automata)
    {first second : Nat} (leftState : first < left.automaton.nbStates)
    (rightState : second < right.automaton.nbStates)
    (same : first + left.offset = second + right.offset) : left = right := by
  induction automata generalizing offset with
  | nil => cases inLeft
  | cons entry rest ih =>
    rcases mem_cons.mp inLeft with rfl | leftLater
    · rcases mem_cons.mp inRight with rfl | rightLater
      · rfl
      · have bounds := placed_bounds rightLater
        dsimp only at leftState same
        omega
    · rcases mem_cons.mp inRight with rfl | rightLater
      · have bounds := placed_bounds leftLater
        dsimp only at rightState same
        omega
      · exact ih leftLater rightLater

/-! ### Residues -/

theorem cast_eq_iff (large : usizeBound ≤ modulus) {left right : Nat} (leftFits : left < usizeBound)
    (rightFits : right < usizeBound) : (left : ZMod modulus) = right ↔ left = right := by
  rw [ZMod.natCast_eq_natCast_iff', Nat.mod_eq_of_lt (by omega), Nat.mod_eq_of_lt (by omega)]

theorem byte_fits (letter : UInt8) : letter.toNat < alphabetMaxSize := letter.toNat_lt

theorem alphabet_fits : alphabetMaxSize < usizeBound := by decide

/-! ### Maps over the field -/

theorem insert_entries {Key Entry : Type} [DecidableEq Key] {entries : List (Key × Entry)}
    (distinct : (entries.map Prod.fst).Nodup) :
    entries.foldl NativeAutomaton.insertEntry [] = entries := by
  induction entries using List.reverseRecOn with
  | nil => rfl
  | append_singleton entries last ih =>
    rw [map_append, map_singleton, nodup_append] at distinct
    have fresh : last.1 ∉ entries.map Prod.fst := by
      intro seen
      exact distinct.2.2 _ seen _ mem_cons_self rfl
    rw [foldl_append, ih distinct.1, foldl_cons, foldl_nil,
      NativeAutomaton.insertEntry, if_neg fresh]

/-- A transition over the field, with its states offset. -/
def nativeEntry (offset : Nat) (entry : (Nat × UInt8) × (Nat × Nat)) :
    (ZMod modulus × ZMod modulus) × (ZMod modulus × ZMod modulus) :=
  ((((entry.1.1 + offset : Nat) : ZMod modulus), (entry.1.2.toNat : ZMod modulus)),
    (((entry.2.1 + offset : Nat) : ZMod modulus), (entry.2.2 : ZMod modulus)))

def nativeState (offset state : Nat) : ZMod modulus := ((state + offset : Nat) : ZMod modulus)

/-- The states of a placed automaton fit, and none of them is 0. -/
structure Fits (placed : Placed LibIndex) : Prop where
  wellFormed : placed.automaton.WellFormed
  positive : 0 < placed.offset
  bounded : placed.offset + placed.automaton.nbStates ≤ usizeBound

theorem placed_fits (collection : Collection LibIndex) {placed : Placed LibIndex}
    (member : placed ∈ placeAt 1 collection.automata) : Fits placed := by
  have bounds := placed_bounds member
  have fits := collection.states_fit
  have listed : (placed.name, placed.automaton) ∈ collection.automata := by
    rw [← placed_names 1 collection.automata]
    exact mem_map_of_mem (f := fun placed => (placed.name, placed.automaton)) member
  exact ⟨collection.well_formed _ listed, by omega, by omega⟩

section Native

variable (large : usizeBound ≤ modulus) {placed : Placed LibIndex} (fits : Fits placed)
include large fits

theorem native_state_eq_iff {left right : Nat} (leftState : left < placed.automaton.nbStates)
    (rightState : right < placed.automaton.nbStates) :
    @nativeState modulus placed.offset left = nativeState placed.offset right ↔
      left = right := by
  have bounded := fits.bounded
  unfold nativeState
  rw [cast_eq_iff large (by omega) (by omega)]
  omega

theorem native_state_ne_zero {state : Nat} (inside : state < placed.automaton.nbStates) :
    @nativeState modulus placed.offset state ≠ 0 := by
  have bounded := fits.bounded
  have pos := fits.positive
  have zero : ((0 : Nat) : ZMod modulus) = 0 := Nat.cast_zero
  unfold nativeState
  rw [← zero, Ne, cast_eq_iff large (by omega) (by decide)]
  omega

theorem native_keys_nodup :
    ((placed.automaton.transitions.map (@nativeEntry modulus placed.offset)).map
      Prod.fst).Nodup := by
  have keys : (placed.automaton.transitions.map (@nativeEntry modulus placed.offset)).map
      Prod.fst = (placed.automaton.transitions.map Prod.fst).map fun key =>
        (nativeState placed.offset key.1, (key.2.toNat : ZMod modulus)) := by
    rw [map_map, map_map]
    rfl
  rw [keys]
  apply fits.wellFormed.keys.map_on
  intro left inLeft right inRight same
  rcases mem_map.mp inLeft with ⟨first, firstListed, rfl⟩
  rcases mem_map.mp inRight with ⟨second, secondListed, rfl⟩
  rw [Prod.mk.injEq] at same
  have state := (native_state_eq_iff large fits (fits.wellFormed.sources first firstListed)
    (fits.wellFormed.sources second secondListed)).mp same.1
  have alphabet := alphabet_fits
  have firstByte := byte_fits first.1.2
  have secondByte := byte_fits second.1.2
  have letter := (cast_eq_iff large (by omega) (by omega)).mp same.2
  exact Prod.ext state (UInt8.toNat_inj.mp letter)

theorem native_transitions :
    (@NativeAutomaton.ofAutomaton modulus
      (placed.automaton.offsetStates placed.offset)).transitions =
        placed.automaton.transitions.map (nativeEntry placed.offset) := by
  have entries : (placed.automaton.offsetStates placed.offset).transitions.map
      (@nativeEntry modulus 0) =
        placed.automaton.transitions.map (nativeEntry placed.offset) := by
    unfold Automaton.offsetStates
    rw [map_map]
    rfl
  have folded : (@NativeAutomaton.ofAutomaton modulus
      (placed.automaton.offsetStates placed.offset)).transitions =
        ((placed.automaton.offsetStates placed.offset).transitions.map
          (nativeEntry 0)).foldl NativeAutomaton.insertEntry [] := rfl
  rw [folded, entries]
  exact insert_entries (native_keys_nodup large fits)

theorem native_lookup {state target marker : Nat} {letter : UInt8}
    (step : placed.automaton.transitions.lookup (state, letter) = some (target, marker)) :
    (@NativeAutomaton.ofAutomaton modulus
      (placed.automaton.offsetStates placed.offset)).transitions.lookup
        (nativeState placed.offset state, (letter.toNat : ZMod modulus)) =
      some (nativeState placed.offset target, (marker : ZMod modulus)) := by
  have listed := mem_map_of_mem (f := @nativeEntry modulus placed.offset)
    (mem_of_lookup step)
  rw [native_transitions large fits]
  exact lookup_of_mem (native_keys_nodup large fits) listed

omit large fits in
theorem mem_native_final_states (offset : Nat) (automaton : Automaton) (value : ZMod modulus) :
    value ∈ (NativeAutomaton.ofAutomaton (automaton.offsetStates offset)).finalStates ↔
      ∃ state ∈ automaton.finalStates, nativeState offset state = value := by
  unfold NativeAutomaton.ofAutomaton Automaton.offsetStates
  dsimp only
  rw [mem_foldl_push_new, map_map]
  exact mem_map

end Native

/-! ### Rows of the table -/

def placedRows (placed : Placed LibIndex) : List (Row modulus) :=
  placed.automaton.transitions.map (fun entry => Row.transition (nativeEntry placed.offset entry)) ++
    (NativeAutomaton.ofAutomaton (placed.automaton.offsetStates placed.offset)).finalStates.map
      Row.final

theorem automaton_rows_placed (large : usizeBound ≤ modulus) {placed : Placed LibIndex}
    (fits : Fits placed) :
    automatonRows (@NativeAutomaton.ofAutomaton modulus
      (placed.automaton.offsetStates placed.offset)) = some (placedRows placed) := by
  have nonzero : ∀ entry ∈ placed.automaton.transitions,
      (do
        guard ((@nativeEntry modulus placed.offset entry).1.1 ≠ 0 ∧
          (@nativeEntry modulus placed.offset entry).2.1 ≠ 0)
        return Row.transition (nativeEntry placed.offset entry) : Option (Row modulus)) =
      pure (Row.transition (nativeEntry placed.offset entry)) := by
    intro entry member
    have source : (@nativeEntry modulus placed.offset entry).1.1 ≠ 0 :=
      native_state_ne_zero large fits (fits.wellFormed.sources entry member)
    have target : (@nativeEntry modulus placed.offset entry).2.1 ≠ 0 :=
      native_state_ne_zero large fits (fits.wellFormed.targets entry member)
    rw [guard, if_pos ⟨source, target⟩]
    rfl
  have rows := map_m_of_forall _ nonzero
  unfold automatonRows
  rw [native_transitions large fits, mapM_map]
  simp only [Function.comp_def, rows, placedRows]
  rfl

section

variable (large : usizeBound ≤ modulus) (collection : Collection LibIndex)

include large collection

theorem table_rows_configured :
    tableRows (@configure LibIndex modulus collection) =
      some (Row.dummy :: ((placeAt 1 collection.automata).map placedRows).flatten) := by
  have blocks : ∀ placed ∈ placeAt 1 collection.automata,
      automatonRows (@NativeAutomaton.ofAutomaton modulus
        (placed.automaton.offsetStates placed.offset)) = pure (placedRows placed) :=
    fun placed member => automaton_rows_placed large (placed_fits collection member)
  have loaded := map_m_of_forall _ blocks
  unfold tableRows configure NativeAutomaton.fromCollection
  dsimp only
  rw [from_collection_at_eq, mapM_map]
  simp only [Function.comp_def, loaded]
  rfl

theorem load_configured {usableRows : Nat} (room : 1 + ((placeAt 1 collection.automata).map
      (@placedRows LibIndex modulus)).flatten.length < usableRows) :
    ∃ table, load (@configure LibIndex modulus collection) usableRows = some table := by
  unfold load
  rw [table_rows_configured large]
  simp only [some_bind, assignTable, length_cons]
  rw [if_pos (by omega)]
  exact ⟨_, rfl⟩

theorem mem_table {usableRows : Nat} {table : List (Row modulus)}
    (loaded : load (configure collection) usableRows = some table) {row : Row modulus} :
    row ∈ table ↔ row = Row.dummy ∨ ∃ placed ∈ placeAt 1 collection.automata,
      (∃ entry ∈ placed.automaton.transitions, Row.transition (nativeEntry placed.offset entry) = row) ∨
      ∃ state ∈ placed.automaton.finalStates, Row.final (nativeState placed.offset state) = row := by
  have assigned : row ∈ table ↔ row ∈ Row.dummy ::
      ((placeAt 1 collection.automata).map placedRows).flatten := by
    unfold load at loaded
    rw [table_rows_configured large] at loaded
    simp only [some_bind, assignTable, headD_cons] at loaded
    split_ifs at loaded
    rw [Option.some.injEq] at loaded
    rw [← loaded, mem_append]
    constructor
    · rintro (own | padding)
      · exact own
      · rw [(mem_replicate.mp padding).2]
        exact mem_cons_self
    · exact Or.inl
  rw [assigned, mem_cons, mem_flatten]
  apply or_congr_right
  constructor
  · rintro ⟨block, listed, inBlock⟩
    rcases mem_map.mp listed with ⟨placed, member, rfl⟩
    refine ⟨placed, member, ?_⟩
    rcases mem_append.mp inBlock with transition | final
    · exact Or.inl (mem_map.mp transition)
    · rcases mem_map.mp final with ⟨value, isFinal, rfl⟩
      rcases (mem_native_final_states _ _ _).mp isFinal with ⟨state, found, rfl⟩
      exact Or.inr ⟨state, found, rfl⟩
  · rintro ⟨placed, member, rows⟩
    refine ⟨placedRows placed, mem_map_of_mem member, mem_append.mpr ?_⟩
    rcases rows with ⟨entry, found, rfl⟩ | ⟨state, found, rfl⟩
    · exact Or.inl (mem_map_of_mem found)
    · exact Or.inr (mem_map_of_mem ((mem_native_final_states _ _ _).mpr ⟨state, found, rfl⟩))

end

variable (large : usizeBound ≤ modulus) (collection : Collection LibIndex) {usableRows : Nat}
  {table : List (Row modulus)} (loaded : load (configure collection) usableRows = some table)
  {placed : Placed LibIndex} (member : placed ∈ placeAt 1 collection.automata)

section Lookup

include large loaded member

omit loaded in
theorem native_state_unique {other : Placed LibIndex} (otherMember : other ∈ placeAt 1 collection.automata)
    {left right : Nat} (leftState : left < placed.automaton.nbStates)
    (rightState : right < other.automaton.nbStates)
    (same : @nativeState modulus placed.offset left = nativeState other.offset right) :
    placed = other ∧ left = right := by
  have fits := (placed_fits collection member).bounded
  have otherFits := (placed_fits collection otherMember).bounded
  have numbers := (cast_eq_iff large (by omega) (by omega)).mp same
  have placement := placed_unique member otherMember leftState rightState numbers
  subst placement
  exact ⟨rfl, by omega⟩

section

variable {row : Row modulus} (inTable : row ∈ table) {state : Nat}
  (inside : state < placed.automaton.nbStates)
  (source : row.source = nativeState placed.offset state)

include inTable inside source

theorem transition_row {letter : UInt8} (read : row.letter = (letter.toNat : ZMod modulus)) :
    ∃ target marker, placed.automaton.transitions.lookup (state, letter) = some (target, marker) ∧
      row = Row.transition (nativeEntry placed.offset ((state, letter), (target, marker))) := by
  have fits := placed_fits collection member
  have alphabet := alphabet_fits
  have byte := byte_fits letter
  rcases (mem_table large collection loaded).mp inTable with rfl | ⟨other, otherMember, rows⟩
  · exact absurd source.symm (native_state_ne_zero large fits inside)
  · have otherFits := placed_fits collection otherMember
    rcases rows with ⟨entry, found, rfl⟩ | ⟨final, found, rfl⟩
    · obtain ⟨rfl, rfl⟩ := native_state_unique large collection member otherMember inside
        (otherFits.wellFormed.sources entry found) source.symm
      have otherByte := byte_fits entry.1.2
      have letters := (cast_eq_iff large (by omega) (by omega)).mp read
      obtain rfl := UInt8.toNat_inj.mp letters
      exact ⟨entry.2.1, entry.2.2, lookup_of_mem fits.wellFormed.keys found, rfl⟩
    · have letters := (cast_eq_iff large alphabet (by omega)).mp read
      omega

theorem final_row (read : row.letter = (alphabetMaxSize : ZMod modulus)) :
    state ∈ placed.automaton.finalStates := by
  have fits := placed_fits collection member
  have alphabet := alphabet_fits
  rcases (mem_table large collection loaded).mp inTable with rfl | ⟨other, otherMember, rows⟩
  · exact absurd source.symm (native_state_ne_zero large fits inside)
  · have otherFits := placed_fits collection otherMember
    rcases rows with ⟨entry, found, rfl⟩ | ⟨final, found, rfl⟩
    · have byte := byte_fits entry.1.2
      have letters := (cast_eq_iff large (by omega) alphabet).mp read
      omega
    · obtain ⟨rfl, rfl⟩ := native_state_unique large collection member otherMember inside
        (otherFits.wellFormed.finalStates final found) source.symm
      exact found

end

end Lookup

/-! ### The layout of `parse` -/

def inputFrom (position : Nat) : List (Option UInt8) → List AssignedByte
  | [] => []
  | value :: rest => { position, value } :: inputFrom (position + 1) rest

def knownInput (input : List UInt8) : List AssignedByte := inputFrom 0 (input.map some)

def unknownInput (length : Nat) : List AssignedByte := inputFrom 0 (replicate length none)

def letterCopy (position : Nat) : Cell × CellSource modulus :=
  ((.letter, position), .input position)

def finalCopies (offset : Nat) : List (Cell × CellSource modulus) :=
  [((.letter, offset), .fixed alphabetMaxSize), ((.output, offset), .fixed 0),
    ((.state, offset + 1), .fixed 0)]

theorem final_check_copies (region : Region modulus) (offset : Nat) :
    (assertFinalState region (assignFixed alphabetMaxSize) (assignFixed 0) offset).copies =
      region.copies ++ finalCopies offset := by
  simp [assertFinalState, Region.copyAdvice, Region.assignAdvice, Region.enable, assignFixed,
    finalCopies]

/-- What a transition adds to the layout, whatever the values. -/
structure Extends (parser final : ParseState modulus) (length : Nat) : Prop where
  enabled : final.region.enabled = parser.region.enabled ++ range' parser.offset length
  copies : final.region.copies =
    parser.region.copies ++ (range' parser.offset length).map letterCopy
  markers : final.markers.map (·.source) = parser.markers.map (·.source) ++
    (range' parser.offset length).map fun row => CellSource.advice (.output, row)
  offset : final.offset = parser.offset + length

variable {automaton : NativeAutomaton modulus} {config : ScannerConfig LibIndex modulus}
  {index : LibIndex}

theorem apply_step {parser next : ParseState modulus} {value : Option UInt8}
    (applied : applyOneTransition automaton parser { position := parser.offset, value } = some next) :
    Extends parser next 1 := by
  unfold applyOneTransition at applied
  simp only [bind_some_iff] at applied
  rcases applied with ⟨-, -, returned⟩
  cases returned
  exact { enabled := rfl, copies := rfl, markers := by simp [Region.assignAdvice], offset := rfl }

theorem Extends.trans {first second third : ParseState modulus} {left right : Nat}
    (before : Extends first second left) (after : Extends second third right) :
    Extends first third (left + right) where
  enabled := by
    rw [after.enabled, before.enabled, before.offset, append_assoc, range'_append_1]
  copies := by
    rw [after.copies, before.copies, before.offset, append_assoc, ← map_append, range'_append_1]
  markers := by
    rw [after.markers, before.markers, before.offset, append_assoc, ← map_append, range'_append_1]
  offset := by
    rw [after.offset, before.offset, Nat.add_assoc]

theorem apply_run {automaton : NativeAutomaton modulus} (values : List (Option UInt8))
    {parser final : ParseState modulus}
    (applied : (inputFrom parser.offset values).foldlM (applyOneTransition automaton) parser =
      some final) : Extends parser final values.length := by
  induction values generalizing parser with
  | nil =>
    cases applied
    exact { enabled := by simp, copies := by simp, markers := by simp, offset := rfl }
  | cons value rest ih =>
    rw [inputFrom, foldlM_cons, bind_some_iff] at applied
    rcases applied with ⟨next, stepped, continued⟩
    have step := apply_step stepped
    rw [← step.offset] at continued
    rw [length_cons, Nat.add_comm]
    exact step.trans (ih continued)

/-- The parser before the first letter. -/
def startParser (automaton : NativeAutomaton modulus) : ParseState modulus where
  region :=
    { enabled := []
      copies := [((.state, 0), .fixed automaton.initialState)]
      assigned := [((.state, 0), some automaton.initialState)] }
  state := { source := .advice (.state, 0), value := some automaton.initialState }
  markers := []
  offset := 0

theorem parse_eq [DecidableEq LibIndex] (found : config.automata.lookup index = some automaton)
    (input : List AssignedByte) : parse config index input =
      (input.foldlM (applyOneTransition automaton) (startParser automaton)).map fun parser =>
        (assertFinalState parser.region (assignFixed alphabetMaxSize) (assignFixed 0) parser.offset,
          parser.markers) := by
  unfold parse
  rw [found]
  simp only [some_bind, Option.pure_def, Option.map_eq_bind]
  rfl

/-- The layout depends on the automaton and the length of the input only. -/
structure LaidOut (automaton : NativeAutomaton modulus) (length : Nat) (region : Region modulus)
    (markers : List (AssignedNative modulus)) : Prop where
  enabled : region.enabled = range' 0 length ++ [length]
  copies : region.copies = ((.state, 0), .fixed automaton.initialState) ::
    (range' 0 length).map letterCopy ++ finalCopies length
  markers : markers.map (·.source) =
    (range' 0 length).map fun row => CellSource.advice (.output, row)

variable {markers : List (AssignedNative modulus)} {region : Region modulus}

section

variable [DecidableEq LibIndex] (found : config.automata.lookup index = some automaton)

include found

theorem parse_laid_out {values : List (Option UInt8)}
    (parsed : parse config index (inputFrom 0 values) = some (region, markers)) :
    LaidOut automaton values.length region markers := by
  rw [parse_eq found, Option.map_eq_some_iff] at parsed
  rcases parsed with ⟨final, ran, returned⟩
  cases returned
  have run := @apply_run _ automaton values (startParser automaton) final ran
  have offset : final.offset = values.length := by
    rw [run.offset]
    exact Nat.zero_add _
  exact
    { enabled := by
        show final.region.enabled ++ [final.offset] = _
        rw [run.enabled, offset]
        rfl
      copies := by
        rw [final_check_copies, run.copies, offset]
        rfl
      markers := by
        rw [run.markers]
        rfl }

theorem parse_unknown (length : Nat) :
    ∃ region markers, parse config index (unknownInput length) = some (region, markers) := by
  have run : ∀ (remaining : Nat) (parser : ParseState modulus),
      ∃ final, (inputFrom parser.offset (replicate remaining none)).foldlM
        (applyOneTransition automaton) parser = some final := by
    intro remaining
    induction remaining with
    | zero => exact fun parser => ⟨parser, rfl⟩
    | succ remaining ih =>
      intro parser
      have stepped : ∃ next, applyOneTransition automaton parser
          { position := parser.offset, value := none } = some next := by
        cases value : parser.state.value <;>
          exact ⟨_, by simp [applyOneTransition, AssignedByte.toNative, value, guard]; rfl⟩
      rcases stepped with ⟨next, stepped⟩
      rcases ih next with ⟨final, continued⟩
      refine ⟨final, ?_⟩
      rw [replicate_succ, inputFrom, foldlM_cons, stepped, some_bind, ← (apply_step stepped).offset]
      exact continued
  have ran : ∃ final, (unknownInput length).foldlM (applyOneTransition automaton)
      (startParser automaton) = some final := run length (startParser automaton)
  rcases ran with ⟨final, ran⟩
  have parsed := parse_eq found (unknownInput length)
  rw [ran, map_some] at parsed
  exact ⟨_, _, parsed⟩

end

structure RunConstraints (automaton : NativeAutomaton modulus) (table : List (Row modulus))
    (input : List UInt8) (trace : Trace modulus) : Prop where
  initial : trace .state 0 = automaton.initialState
  letters : ∀ position (inside : position < input.length),
    trace .letter position = ((input[position]).toNat : ZMod modulus)
  invalidLetter : trace .letter input.length = (alphabetMaxSize : ZMod modulus)
  invalidOutput : trace .output input.length = 0
  invalidState : trace .state (input.length + 1) = 0
  lookups : ∀ offset ≤ input.length, trace.row offset ∈ table

theorem satisfies_iff {table : List (Row modulus)} {input : List UInt8}
    (laidOut : LaidOut automaton input.length region markers) (trace : Trace modulus) :
    Satisfies table region input trace ↔ RunConstraints automaton table input trace := by
  have letterCopies : (∀ copy ∈ (range' 0 input.length).map (@letterCopy modulus),
        trace copy.1.1 copy.1.2 = copy.2.value trace input) ↔
      ∀ position (inside : position < input.length),
        trace .letter position = ((input[position]).toNat : ZMod modulus) := by
    constructor
    · intro copies position inside
      have listed : @letterCopy modulus position ∈
          (range' 0 input.length).map letterCopy :=
        mem_map_of_mem (by simpa using inside)
      have copied : trace .letter position = ((input.getD position 0).toNat : ZMod modulus) :=
        copies _ listed
      rwa [getD_eq_getElem?_getD, getElem?_eq_getElem inside, getD_some] at copied
    · intro letters copy member
      rcases mem_map.mp member with ⟨position, listed, rfl⟩
      have inside : position < input.length := by simpa using listed
      show trace .letter position = ((input.getD position 0).toNat : ZMod modulus)
      rw [getD_eq_getElem?_getD, getElem?_eq_getElem inside, getD_some]
      exact letters position inside
  have rows : ∀ offset, offset ∈ region.enabled ↔ offset ≤ input.length := by
    intro offset
    rw [laidOut.enabled, mem_append, mem_singleton, mem_range'_1]
    omega
  constructor
  · rintro ⟨copies, lookups⟩
    rw [laidOut.copies] at copies
    simp only [cons_append, forall_mem_cons, forall_mem_append, letterCopies, finalCopies] at copies
    obtain ⟨initial, letters, letter, output, state, -⟩ := copies
    exact ⟨initial, letters, letter, output, state, fun offset inside => lookups offset ((rows offset).mpr inside)⟩
  · rintro ⟨initial, letters, letter, output, state, lookups⟩
    refine ⟨?_, fun offset enabled => lookups offset ((rows offset).mp enabled)⟩
    rw [laidOut.copies]
    simp only [cons_append, forall_mem_cons, forall_mem_append, letterCopies, finalCopies]
    exact ⟨initial, letters, letter, output, state, nofun⟩

/-! ### Runs -/

section Run

include large loaded member

theorem run_forced {trace : Trace modulus} (rest : List UInt8) {position state : Nat}
    (inside : state < placed.automaton.nbStates)
    (source : trace .state position = nativeState placed.offset state)
    (letters : ∀ index (bound : index < rest.length),
      trace .letter (position + index) = ((rest[index]).toNat : ZMod modulus))
    (lookups : ∀ index < rest.length, trace.row (position + index) ∈ table) :
    ∃ steps, placed.automaton.runFrom state rest = some steps ∧
      lastState state steps < placed.automaton.nbStates ∧
      trace .state (position + rest.length) = nativeState placed.offset (lastState state steps) ∧
      (range' position rest.length).map (fun row => trace .output row) =
        steps.map (fun step => (step.2 : ZMod modulus)) ∧
      ∀ index < rest.length, ∃ entry ∈ placed.automaton.transitions,
        trace.row (position + index) = Row.transition (nativeEntry placed.offset entry) := by
  induction rest generalizing position state with
  | nil => exact ⟨[], rfl, inside, source, rfl, nofun⟩
  | cons letter rest ih =>
    have fits := placed_fits collection member
    have here : trace.row position ∈ table := lookups 0 (by simp)
    have read : trace .letter position = (letter.toNat : ZMod modulus) := letters 0 (by simp)
    rcases transition_row large collection loaded member here inside source read with
      ⟨target, marker, step, row⟩
    have listed := mem_of_lookup step
    have targetInside : target < placed.automaton.nbStates := fits.wellFormed.targets _ listed
    have next : trace .state (position + 1) = nativeState placed.offset target :=
      congrArg Row.target row
    have marked : trace .output position = (marker : ZMod modulus) := congrArg Row.output row
    rcases ih targetInside next
        (fun index bound => by
          rw [Nat.add_right_comm]
          exact letters (index + 1) (by simpa using bound))
        (fun index bound => by
          rw [Nat.add_right_comm]
          exact lookups (index + 1) (by simpa using bound)) with
      ⟨steps, ran, lastInside, last, outputs, rows⟩
    refine ⟨(target, marker) :: steps, ?_, ?_, ?_, ?_, ?_⟩
    · rw [run_from_cons step, ran]
      rfl
    · rw [last_state_cons]
      exact lastInside
    · rw [last_state_cons, length_cons, ← last]
      congr 1
      omega
    · rw [length_cons, range'_succ, map_cons, map_cons, marked, outputs]
    · intro index bound
      cases index with
      | zero => exact ⟨_, listed, row⟩
      | succ index =>
        rcases rows index (by simpa using bound) with ⟨entry, found, same⟩
        refine ⟨entry, found, ?_⟩
        rw [← same, Nat.add_right_comm, Nat.add_assoc]

end Run

def runTrace (offset initialState : Nat) (input : List UInt8) (steps : List (Nat × Nat)) :
    Trace modulus
  | .state, row => (((visited initialState steps).map (nativeState offset))[row]?).getD 0
  | .letter, row =>
    ((input.map fun letter => (letter.toNat : ZMod modulus))[row]?).getD alphabetMaxSize
  | .output, row => ((steps.map fun step => (step.2 : ZMod modulus))[row]?).getD 0

section Accepted

variable {input : List UInt8} {steps : List (Nat × Nat)}
  (ran : placed.automaton.runFrom placed.automaton.initialState input = some steps)

include ran

theorem run_trace_row {index : Nat} (inside : index < input.length) :
    ∃ entry ∈ placed.automaton.transitions,
      (@runTrace modulus placed.offset placed.automaton.initialState input steps).row
        index = Row.transition (nativeEntry placed.offset entry) := by
  rcases visited_step ran inside with ⟨source, target, marker, before, after, taken, step⟩
  refine ⟨_, mem_of_lookup step, ?_⟩
  simp only [Trace.row, runTrace, getElem?_map, before, after, taken, map_some,
    getD_some, getElem?_eq_getElem inside]
  rfl

include large loaded member

theorem run_trace_satisfies
    (final : lastState placed.automaton.initialState steps ∈ placed.automaton.finalStates) :
    RunConstraints (NativeAutomaton.ofAutomaton (placed.automaton.offsetStates placed.offset)) table
      input (runTrace placed.offset placed.automaton.initialState input steps) := by
  have length := run_from_length ran
  have last := visited_last placed.automaton.initialState steps
  rw [length] at last
  have beyond : steps[input.length]? = none := getElem?_eq_none (by omega)
  have ended : (visited placed.automaton.initialState steps)[input.length + 1]? = none :=
    getElem?_eq_none (by simp [visited, length])
  have read : input[input.length]? = none := getElem?_eq_none (Nat.le_refl _)
  constructor
  · rfl
  · intro position inside
    simp [runTrace, getElem?_eq_getElem inside]
  · simp [runTrace]
  · simp [runTrace, beyond]
  · simp only [runTrace, getElem?_map, ended, map_none, getD_none]
  · intro offset bound
    apply (mem_table large collection loaded).mpr
    refine Or.inr ⟨placed, member, ?_⟩
    rcases Nat.lt_or_eq_of_le bound with inside | rfl
    · rcases @run_trace_row _ modulus _ _ _ ran _ inside with ⟨entry, found, row⟩
      exact Or.inl ⟨entry, found, row.symm⟩
    · refine Or.inr ⟨_, final, ?_⟩
      simp only [Trace.row, runTrace, getElem?_map, last, ended, beyond, read, map_some,
        map_none, getD_some, getD_none]
      rfl

end Accepted

/-- The values that `parse` assigns are those of a trace. -/
def Agrees (region : Region modulus) (trace : Trace modulus) : Prop :=
  ∀ entry ∈ region.assigned, entry.2 = some (trace entry.1.1 entry.1.2)

variable {trace : Trace modulus}

theorem Agrees.append (agrees : Agrees region trace) (cell : Cell) {value : ZMod modulus}
    (same : value = trace cell.1 cell.2) :
    Agrees (region.assignAdvice cell (some value)).1 trace := by
  intro entry member
  rcases mem_append.mp member with earlier | new
  · exact agrees entry earlier
  · rw [mem_singleton] at new
    rw [new, same]

variable {parser : ParseState modulus}

theorem honest_step (large : usizeBound ≤ modulus) (fits : Fits placed) {state target marker : Nat}
    {letter : UInt8}
    (step : placed.automaton.transitions.lookup (state, letter) = some (target, marker))
    (value : parser.state.value = some (nativeState placed.offset state))
    (read : trace .letter parser.offset = (letter.toNat : ZMod modulus))
    (marked : trace .output parser.offset = (marker : ZMod modulus))
    (moved : trace .state (parser.offset + 1) = nativeState placed.offset target)
    (agrees : Agrees parser.region trace) :
    ∃ next, applyOneTransition (NativeAutomaton.ofAutomaton
        (placed.automaton.offsetStates placed.offset)) parser
          { position := parser.offset, value := some letter } = some next ∧
      next.state.value = some (nativeState placed.offset target) ∧ Agrees next.region trace := by
  have taken := native_lookup large fits step
  have agreesLetter : Agrees ((parser.region.enable parser.offset).copyAdvice
      (AssignedByte.toNative { position := parser.offset, value := some letter })
        (.letter, parser.offset)).1 trace :=
    agrees.append (.letter, parser.offset) read.symm
  have agreesOutput := agreesLetter.append (.output, parser.offset) marked.symm
  have agreesState := agreesOutput.append (.state, parser.offset + 1) moved.symm
  refine ⟨{ region := _
            state := { source := .advice (.state, parser.offset + 1)
                       value := some (nativeState placed.offset target) }
            markers := parser.markers ++ [{ source := .advice (.output, parser.offset)
                                            value := some (marker : ZMod modulus) }]
            offset := parser.offset + 1 }, ?_, rfl, agreesState⟩
  simp only [applyOneTransition, value, AssignedByte.toNative, map_some, some_bind, Option.pure_def, taken]
  rfl

theorem honest_run (large : usizeBound ≤ modulus) (fits : Fits placed) (rest : List UInt8)
    {state : Nat} {steps : List (Nat × Nat)}
    (ran : placed.automaton.runFrom state rest = some steps)
    (value : parser.state.value = some (nativeState placed.offset state))
    (letters : ∀ index (bound : index < rest.length),
      trace .letter (parser.offset + index) = ((rest[index]).toNat : ZMod modulus))
    (taken : ∀ index target (marker : Nat), steps[index]? = some (target, marker) →
      trace .output (parser.offset + index) = (marker : ZMod modulus) ∧
        trace .state (parser.offset + (index + 1)) = nativeState placed.offset target)
    (agrees : Agrees parser.region trace) :
    ∃ final, (inputFrom parser.offset (rest.map some)).foldlM (applyOneTransition
        (NativeAutomaton.ofAutomaton (placed.automaton.offsetStates placed.offset))) parser =
          some final ∧ Agrees final.region trace := by
  induction rest generalizing parser state steps with
  | nil => exact ⟨parser, rfl, agrees⟩
  | cons letter rest ih =>
    rcases run_from_cons_some ran with ⟨target, marker, later, step, continued, rfl⟩
    have first := taken 0 target marker rfl
    have read : trace .letter parser.offset = (letter.toNat : ZMod modulus) := letters 0 (by simp)
    rcases honest_step large fits step value read first.1 first.2 agrees with
      ⟨next, applied, nextValue, nextAgrees⟩
    have moved := (apply_step applied).offset
    rcases ih continued nextValue
        (fun index bound => by
          rw [moved, Nat.add_right_comm]
          exact letters (index + 1) (by simpa using bound))
        (fun index other output found => by
          rw [moved, Nat.add_right_comm, Nat.add_right_comm parser.offset 1]
          exact taken (index + 1) other output found) nextAgrees with
      ⟨final, finished, finalAgrees⟩
    refine ⟨final, ?_, finalAgrees⟩
    rw [map_cons, inputFrom, foldlM_cons, applied, some_bind, ← moved]
    exact finished

/-! ### Soundness and completeness -/

/-- Rows are transitions of one automaton, up to the check of its final state,
and its states are neither the dummy state nor states of another automaton. -/
structure FollowsAutomaton (config : ScannerConfig LibIndex modulus) (index : LibIndex)
    (automaton : NativeAutomaton modulus) (length : Nat) (trace : Trace modulus) : Prop where
  transitions : ∀ row < length, ∃ entry ∈ automaton.transitions, trace.row row = Row.transition entry
  final : ∃ state ∈ automaton.finalStates, trace.row length = Row.final state
  states : ∀ row ≤ length, trace .state row ∈ automaton.states ∧ trace .state row ≠ 0
  apart : ∀ row ≤ length, ∀ entry ∈ config.automata, entry.1 ≠ index →
    trace .state row ∉ entry.2.states

theorem native_states (large : usizeBound ≤ modulus) (fits : Fits placed) {value : ZMod modulus}
    (member : value ∈ (NativeAutomaton.ofAutomaton
      (placed.automaton.offsetStates placed.offset)).states) :
    ∃ state < placed.automaton.nbStates, nativeState placed.offset state = value := by
  unfold NativeAutomaton.states at member
  rw [cons_append, mem_cons, mem_append, native_transitions large fits, mem_flatMap] at member
  rcases member with rfl | final | ⟨entry, listed, named⟩
  · exact ⟨_, fits.wellFormed.initialState, rfl⟩
  · rcases (mem_native_final_states _ _ _).mp final with ⟨state, found, rfl⟩
    exact ⟨state, fits.wellFormed.finalStates state found, rfl⟩
  · rcases mem_map.mp listed with ⟨transition, found, rfl⟩
    simp only [mem_cons, not_mem_nil, or_false] at named
    rcases named with rfl | rfl
    · exact ⟨_, fits.wellFormed.sources transition found, rfl⟩
    · exact ⟨_, fits.wellFormed.targets transition found, rfl⟩

section Correct

include large loaded member

theorem constraints_force_run {input : List UInt8} {trace : Trace modulus}
    (satisfied : RunConstraints (NativeAutomaton.ofAutomaton
      (placed.automaton.offsetStates placed.offset)) table input trace) :
    FollowsAutomaton (configure collection) placed.name (NativeAutomaton.ofAutomaton
        (placed.automaton.offsetStates placed.offset)) input.length trace ∧
      ∃ outputs, placed.automaton.output input = some outputs ∧
        (range' 0 input.length).map (fun row => trace .output row) =
          outputs.map fun (output : Nat) => (output : ZMod modulus) := by
  have fits := placed_fits collection member
  have letters : ∀ index (bound : index < input.length),
      trace .letter (0 + index) = ((input[index]).toNat : ZMod modulus) := by
    intro index bound
    rw [Nat.zero_add]
    exact satisfied.letters index bound
  have lookups : ∀ index < input.length, trace.row (0 + index) ∈ table := by
    intro index bound
    rw [Nat.zero_add]
    exact satisfied.lookups index bound.le
  rcases run_forced large collection loaded member input fits.wellFormed.initialState
    satisfied.initial letters lookups with ⟨steps, ran, lastInside, last, outputs, rows⟩
  rw [Nat.zero_add] at last
  have accepted := final_row large collection loaded member
    (satisfied.lookups input.length (Nat.le_refl _)) lastInside last satisfied.invalidLetter
  have natives := native_transitions large fits
  have transitions : ∀ row < input.length, ∃ entry ∈ (NativeAutomaton.ofAutomaton
      (placed.automaton.offsetStates placed.offset)).transitions,
        trace.row row = Row.transition entry := by
    intro row bound
    rcases rows row bound with ⟨entry, found, same⟩
    rw [Nat.zero_add] at same
    rw [natives]
    exact ⟨_, mem_map_of_mem found, same⟩
  have final : (nativeState placed.offset (lastState placed.automaton.initialState steps) :
      ZMod modulus) ∈ (NativeAutomaton.ofAutomaton
        (placed.automaton.offsetStates placed.offset)).finalStates :=
    (mem_native_final_states _ _ _).mpr ⟨_, accepted, rfl⟩
  have states : ∀ row ≤ input.length, trace .state row ∈ (NativeAutomaton.ofAutomaton
      (placed.automaton.offsetStates placed.offset)).states := by
    intro row bound
    unfold NativeAutomaton.states
    rw [cons_append, mem_cons, mem_append, mem_flatMap]
    rcases Nat.lt_or_eq_of_le bound with inside | rfl
    · rcases transitions row inside with ⟨entry, found, same⟩
      have source : trace .state row = entry.1.1 := congrArg Row.source same
      exact Or.inr (Or.inr ⟨entry, found, by simp [source]⟩)
    · rw [last]
      exact Or.inr (Or.inl final)
  have lastRow : trace.row input.length =
      Row.final (nativeState placed.offset (lastState placed.automaton.initialState steps)) := by
    unfold Trace.row Row.final
    rw [last, satisfied.invalidLetter, satisfied.invalidOutput, satisfied.invalidState]
  refine ⟨⟨transitions, ⟨_, final, lastRow⟩, ?_, ?_⟩, ?_⟩
  · intro row bound
    refine ⟨states row bound, ?_⟩
    rcases native_states large fits (states row bound) with ⟨state, inside, same⟩
    rw [← same]
    exact native_state_ne_zero large fits inside
  · intro row bound entry listed other shared
    unfold configure NativeAutomaton.fromCollection at listed
    rw [from_collection_at_eq] at listed
    rcases mem_map.mp listed with ⟨second, secondMember, rfl⟩
    rcases native_states large fits (states row bound) with ⟨state, inside, same⟩
    rcases native_states large (placed_fits collection secondMember) shared with
      ⟨otherState, otherInside, otherSame⟩
    have identical := native_state_unique large collection member secondMember inside otherInside
      (same.trans otherSame.symm)
    exact other (congrArg Placed.name identical.1).symm
  · refine ⟨_, output_eq_some.mpr ⟨steps, ran, accepted, rfl⟩, ?_⟩
    rw [outputs, map_map]
    rfl

theorem honest_parse [DecidableEq LibIndex] {input : List UInt8} {outputs : List Nat}
    (found : (configure collection).automata.lookup placed.name = some
      (@NativeAutomaton.ofAutomaton modulus (placed.automaton.offsetStates placed.offset)))
    (accepted : placed.automaton.output input = some outputs) :
    ∃ region markers trace,
      parse (configure collection) placed.name (knownInput input) = some (region, markers) ∧
      Agrees region trace ∧ RunConstraints (NativeAutomaton.ofAutomaton
        (placed.automaton.offsetStates placed.offset)) table input trace := by
  have fits := placed_fits collection member
  rcases output_eq_some.mp accepted with ⟨steps, ran, final, -⟩
  have satisfied := run_trace_satisfies large collection loaded member ran final
  have start : Agrees (startParser (NativeAutomaton.ofAutomaton
      (placed.automaton.offsetStates placed.offset))).region
      (@runTrace modulus placed.offset placed.automaton.initialState input steps) := by
    intro entry assigned
    cases mem_singleton.mp assigned
    rfl
  have taken : ∀ index target (marker : Nat), steps[index]? = some (target, marker) →
      @runTrace modulus placed.offset placed.automaton.initialState input steps .output (0 + index) =
          (marker : ZMod modulus) ∧
        runTrace placed.offset placed.automaton.initialState input steps .state (0 + (index + 1)) =
          (nativeState placed.offset target : ZMod modulus) := by
    intro index target marker step
    rw [Nat.zero_add, Nat.zero_add]
    simp [runTrace, visited, step]
  have letters : ∀ index (bound : index < input.length),
      runTrace placed.offset placed.automaton.initialState input steps .letter (0 + index) =
        ((input[index]).toNat : ZMod modulus) := by
    intro index bound
    rw [Nat.zero_add]
    exact satisfied.letters index bound
  have finished : ∃ final, (knownInput input).foldlM (applyOneTransition (NativeAutomaton.ofAutomaton
      (placed.automaton.offsetStates placed.offset))) (startParser (NativeAutomaton.ofAutomaton
        (placed.automaton.offsetStates placed.offset))) = some final ∧
      Agrees final.region (@runTrace modulus placed.offset placed.automaton.initialState input steps) :=
    honest_run large fits input ran rfl letters taken start
  rcases finished with ⟨parser, finished, agrees⟩
  have length : parser.offset = input.length := by
    have run := (apply_run (input.map some) finished).offset
    rw [run, length_map]
    exact Nat.zero_add _
  have parsed := parse_eq found (knownInput input)
  rw [finished, map_some] at parsed
  refine ⟨_, _, _, parsed, ?_, satisfied⟩
  have letter := satisfied.invalidLetter
  have output := satisfied.invalidOutput
  have state := satisfied.invalidState
  rw [← length] at letter output state
  exact ((agrees.append (.letter, parser.offset) letter.symm).append (.output, parser.offset)
    output.symm).append (.state, parser.offset + 1) state.symm

omit large loaded member in
theorem configured_lookup [DecidableEq LibIndex] (placement : placed ∈ placeAt 1 collection.automata) :
    (configure collection).automata.lookup placed.name = some
      (@NativeAutomaton.ofAutomaton modulus (placed.automaton.offsetStates placed.offset)) := by
  have names : ((placeAt 1 collection.automata).map (·.name)).Nodup := by
    have distinct := collection.names_nodup
    rw [← placed_names 1 collection.automata, map_map] at distinct
    exact distinct
  unfold configure NativeAutomaton.fromCollection
  dsimp only
  rw [from_collection_at_eq]
  apply lookup_of_mem
  · rw [map_map]
    exact names
  · exact mem_map_of_mem (f := fun placed : Placed LibIndex => (placed.name,
      @NativeAutomaton.ofAutomaton modulus (placed.automaton.offsetStates placed.offset))) placement

end Correct

/-- For every automaton of a chip and every input: the layout that key generation
fixes is satisfiable exactly if the automaton accepts, every satisfying trace is
the accepting run with its markers and stays inside the automaton, and the
prover's assignment is such a trace. -/
theorem parse_sound_and_complete [DecidableEq LibIndex] (large : usizeBound ≤ modulus)
    (collection : Collection LibIndex) {usableRows : Nat} {table : List (Row modulus)}
    (loaded : load (configure collection) usableRows = some table) {index : LibIndex}
    {automaton : Automaton} (member : (index, automaton) ∈ collection.automata)
    (input : List UInt8) :
    ∃ native region markers,
      (configure collection).automata.lookup index = some native ∧
      parse (configure collection) index (unknownInput input.length) = some (region, markers) ∧
      ((∃ trace, Satisfies table region input trace) ↔ (automaton.output input).isSome) ∧
      (∀ trace, Satisfies table region input trace →
        FollowsAutomaton (configure collection) index native input.length trace ∧
        ∃ outputs, automaton.output input = some outputs ∧
          markers.map (fun marker => marker.source.value trace input) =
            outputs.map fun (output : Nat) => (output : ZMod modulus)) ∧
      ∀ outputs, automaton.output input = some outputs → ∃ honest honestMarkers trace,
        parse (configure collection) index (knownInput input) = some (honest, honestMarkers) ∧
        honest.enabled = region.enabled ∧ honest.copies = region.copies ∧
        Agrees honest trace ∧ Satisfies table honest input trace := by
  have listed := member
  rw [← placed_names 1 collection.automata] at listed
  rcases mem_map.mp listed with ⟨placed, placement, named⟩
  cases named
  have found := @configured_lookup _ modulus collection placed _ placement
  rcases parse_unknown found input.length with ⟨region, markers, parsed⟩
  have laidOut := parse_laid_out found parsed
  rw [length_replicate] at laidOut
  have forced := fun trace satisfied => constraints_force_run large collection loaded placement
    ((satisfies_iff laidOut trace).mp satisfied)
  refine ⟨_, region, markers, found, parsed, ?_, ?_, ?_⟩
  · constructor
    · rintro ⟨trace, satisfied⟩
      rcases (forced trace satisfied).2 with ⟨outputs, accepted, -⟩
      rw [accepted]
      rfl
    · intro accepts
      rcases Option.isSome_iff_exists.mp accepts with ⟨outputs, accepted⟩
      rcases honest_parse large collection loaded placement found accepted with
        ⟨-, -, trace, -, -, satisfied⟩
      exact ⟨trace, (satisfies_iff laidOut trace).mpr satisfied⟩
  · intro trace satisfied
    rcases forced trace satisfied with ⟨follows, outputs, accepted, marked⟩
    refine ⟨follows, outputs, accepted, ?_⟩
    rw [← marked]
    have sources := congrArg (List.map (CellSource.value trace input)) laidOut.markers
    rw [map_map, map_map] at sources
    exact sources
  · intro outputs accepted
    rcases honest_parse large collection loaded placement found accepted with
      ⟨honest, honestMarkers, trace, honestParsed, agrees, satisfied⟩
    have honestLaidOut := parse_laid_out found honestParsed
    rw [length_map] at honestLaidOut
    exact ⟨honest, honestMarkers, trace, honestParsed, honestLaidOut.enabled.trans laidOut.enabled.symm,
      honestLaidOut.copies.trans laidOut.copies.symm, agrees, (satisfies_iff honestLaidOut trace).mpr satisfied⟩

/-- Two automata: repeated `a`, each marked 1, and the single word `b`. -/
def twoAutomata : Collection Nat where
  automata :=
    [(0, { nbStates := 1, initialState := 0, finalStates := [0], transitions := [((0, 97), (0, 1))] }),
      (1, { nbStates := 2, initialState := 0, finalStates := [1], transitions := [((0, 98), (1, 0))] })]
  names_nodup := by decide
  well_formed := by
    intro entry member
    simp only [mem_cons, not_mem_nil, or_false] at member
    rcases member with rfl | rfl
    · exact ⟨by decide, by decide, by decide, by decide, by decide, by decide⟩
    · exact ⟨by decide, by decide, by decide, by decide, by decide, by decide⟩
  states_fit := by decide

theorem two_automata_parse : ∃ (table : List (Row scalarModulus)) (region : Region scalarModulus),
    (∃ trace, Satisfies table region [97, 97] trace) ∧
      (twoAutomata.automata.map fun entry => entry.2.output [97, 97]) = [some [1, 1], none] := by
  have large : usizeBound ≤ scalarModulus := by decide
  rcases load_configured large twoAutomata (Nat.lt_succ_self _) with ⟨table, loaded⟩
  rcases parse_sound_and_complete large twoAutomata loaded mem_cons_self [97, 97] with
    ⟨-, region, -, -, -, accepts, -⟩
  exact ⟨table, region, accepts.mpr (by decide), by decide⟩

end Midfall.ScannerChipSound
