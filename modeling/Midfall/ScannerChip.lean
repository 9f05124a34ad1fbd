import Midfall.ScannerAutomaton

/-!
# The scanner chip

All automata of a chip share one lookup table: their states are offset to
disjoint ranges that leave out state 0, a final state is a row labelled with the
number 256, which is not a byte, and unused rows repeat the first row, which is
zero. `parse` lays out the run of one automaton; the lookup holds the tuple of
every enabled row to a row of the table. Field elements are residues of the
modulus of the circuit field.
-/

namespace Midfall.ScannerChip

open ListLoops ScannerAutomaton

/-- Automata with their names. All their states are stored, so they are fewer
than a machine integer can count. -/
structure Collection (LibIndex : Type) where
  automata : List (LibIndex × Automaton)
  names_nodup : (automata.map Prod.fst).Nodup
  well_formed : ∀ entry ∈ automata, entry.2.WellFormed
  states_fit : 1 + (automata.map fun entry => entry.2.nbStates).sum ≤ usizeBound

structure NativeAutomaton (modulus : Nat) where
  initialState : ZMod modulus
  finalStates : List (ZMod modulus)
  transitions : List ((ZMod modulus × ZMod modulus) × (ZMod modulus × ZMod modulus))
  deriving DecidableEq

namespace NativeAutomaton

variable {modulus : Nat}

/-- Insertion in a map; a known key gets the new entry. -/
def insertEntry {Key Entry : Type} [DecidableEq Key] (entries : List (Key × Entry))
    (entry : Key × Entry) : List (Key × Entry) :=
  if entry.1 ∈ entries.map Prod.fst then
    entries.map fun known => if known.1 = entry.1 then entry else known
  else entries ++ [entry]

def ofAutomaton (value : Automaton) : NativeAutomaton modulus where
  initialState := value.initialState
  finalStates := (value.finalStates.map fun (state : Nat) => (state : ZMod modulus)).foldl pushNew []
  transitions := (value.transitions.map fun ((source, letter), (target, marker)) =>
    (((source : ZMod modulus), (letter.toNat : ZMod modulus)),
      ((target : ZMod modulus), (marker : ZMod modulus)))).foldl insertEntry []

def states (automaton : NativeAutomaton modulus) : List (ZMod modulus) :=
  automaton.initialState :: automaton.finalStates ++
    automaton.transitions.flatMap fun entry => [entry.1.1, entry.2.1]

/-- Number the states of the automata one after another. -/
def fromCollectionAt {LibIndex : Type} (offset : Nat) :
    List (LibIndex × Automaton) → List (LibIndex × NativeAutomaton modulus)
  | [] => []
  | (name, automaton) :: rest =>
    (name, ofAutomaton (automaton.offsetStates offset)) ::
      fromCollectionAt (offset + automaton.nbStates) rest

/-- The offset starts at 1, so that no automaton uses the dummy state 0. -/
def fromCollection {LibIndex : Type} (automata : List (LibIndex × Automaton)) :
    List (LibIndex × NativeAutomaton modulus) := fromCollectionAt 1 automata

end NativeAutomaton

/-- A tuple of the four table columns, or of the four lookup inputs. -/
structure Row (modulus : Nat) where
  source : ZMod modulus
  letter : ZMod modulus
  target : ZMod modulus
  output : ZMod modulus
  deriving DecidableEq

namespace Row

variable {modulus : Nat}

def dummy : Row modulus := ⟨0, 0, 0, 0⟩

def transition (entry : (ZMod modulus × ZMod modulus) × (ZMod modulus × ZMod modulus)) :
    Row modulus := ⟨entry.1.1, entry.1.2, entry.2.1, entry.2.2⟩

def final (state : ZMod modulus) : Row modulus := ⟨state, (alphabetMaxSize : ZMod modulus), 0, 0⟩

end Row

variable {LibIndex : Type} {modulus : Nat}

structure ScannerConfig (LibIndex : Type) (modulus : Nat) where
  automata : List (LibIndex × NativeAutomaton modulus)

def configure (collection : Collection LibIndex) : ScannerConfig LibIndex modulus where
  automata := NativeAutomaton.fromCollection collection.automata

/-- The rows of an automaton; a transition that uses state 0 panics. -/
def automatonRows (automaton : NativeAutomaton modulus) : Option (List (Row modulus)) := do
  let transitions ← automaton.transitions.mapM fun entry => do
    guard (entry.1.1 ≠ 0 ∧ entry.2.1 ≠ 0)
    return Row.transition entry
  return transitions ++ automaton.finalStates.map Row.final

def tableRows (config : ScannerConfig LibIndex modulus) : Option (List (Row modulus)) := do
  let blocks ← config.automata.mapM fun entry => automatonRows entry.2
  return Row.dummy :: blocks.flatten

/-- `assign_table`: the other usable rows are filled with the first row; there has to be one. -/
def assignTable (usableRows : Nat) (rows : List (Row modulus)) : Option (List (Row modulus)) :=
  if rows.length < usableRows then
    some (rows ++ List.replicate (usableRows - rows.length) (rows.headD Row.dummy))
  else none

/-- The table columns after `load`. -/
def load (config : ScannerConfig LibIndex modulus) (usableRows : Nat) :
    Option (List (Row modulus)) := do
  let rows ← tableRows config
  assignTable usableRows rows

inductive ScannerColumn where
  | state
  | letter
  | output
  deriving DecidableEq, Repr

abbrev Cell := ScannerColumn × Nat

/-- The cell behind an assigned value: a fixed constant, a byte of the input, or
an advice cell of the region. -/
inductive CellSource (modulus : Nat) where
  | fixed (value : ZMod modulus)
  | input (position : Nat)
  | advice (cell : Cell)
  deriving DecidableEq

/-- A value is unknown outside of proof generation. -/
structure AssignedNative (modulus : Nat) where
  source : CellSource modulus
  value : Option (ZMod modulus)
  deriving DecidableEq

structure AssignedByte where
  position : Nat
  value : Option UInt8
  deriving DecidableEq

def AssignedByte.toNative (letter : AssignedByte) : AssignedNative modulus where
  source := .input letter.position
  value := letter.value.map fun byte => (byte.toNat : ZMod modulus)

def assignFixed (value : ZMod modulus) : AssignedNative modulus where
  source := .fixed value
  value := some value

structure Region (modulus : Nat) where
  enabled : List Nat
  copies : List (Cell × CellSource modulus)
  assigned : List (Cell × Option (ZMod modulus))
  deriving DecidableEq

namespace Region

/-- Enable `q_automaton`. -/
def enable (region : Region modulus) (offset : Nat) : Region modulus :=
  { region with enabled := region.enabled ++ [offset] }

def assignAdvice (region : Region modulus) (cell : Cell) (value : Option (ZMod modulus)) :
    Region modulus × AssignedNative modulus :=
  ({ region with assigned := region.assigned ++ [(cell, value)] }, { source := .advice cell, value })

def copyAdvice (region : Region modulus) (native : AssignedNative modulus) (cell : Cell) :
    Region modulus × AssignedNative modulus :=
  let (region, copied) := region.assignAdvice cell native.value
  ({ region with copies := region.copies ++ [(cell, native.source)] }, copied)

end Region

structure ParseState (modulus : Nat) where
  region : Region modulus
  state : AssignedNative modulus
  markers : List (AssignedNative modulus)
  offset : Nat
  deriving DecidableEq

def applyOneTransition (automaton : NativeAutomaton modulus) (parser : ParseState modulus)
    (letter : AssignedByte) : Option (ParseState modulus) := do
  let region := parser.region.enable parser.offset
  let letter : AssignedNative modulus := letter.toNative
  let (region, _) := region.copyAdvice letter (.letter, parser.offset)
  let targetOpt := do
    let state ← parser.state.value
    let letter ← letter.value
    return automaton.transitions.lookup (state, letter)
  guard (targetOpt ≠ some none)
  let target := targetOpt.join
  let (region, output) := region.assignAdvice (.output, parser.offset) (target.map (·.2))
  let (region, state) := region.assignAdvice (.state, parser.offset + 1) (target.map (·.1))
  return { region, state, markers := parser.markers ++ [output], offset := parser.offset + 1 }

def assertFinalState (region : Region modulus) (invalidLetter invalidState : AssignedNative modulus)
    (offset : Nat) : Region modulus :=
  let region := region.enable offset
  let region := (region.copyAdvice invalidLetter (.letter, offset)).1
  let region := (region.copyAdvice invalidState (.output, offset)).1
  (region.copyAdvice invalidState (.state, offset + 1)).1

/-- The region of a run and its markers; an unknown automaton panics. -/
def parse [DecidableEq LibIndex] (config : ScannerConfig LibIndex modulus) (automatonIndex : LibIndex)
    (input : List AssignedByte) : Option (Region modulus × List (AssignedNative modulus)) := do
  let automaton ← config.automata.lookup automatonIndex
  let initState := assignFixed automaton.initialState
  let invalidLetter := assignFixed (alphabetMaxSize : ZMod modulus)
  let invalidState := assignFixed (0 : ZMod modulus)
  let (region, state) := ({ enabled := [], copies := [], assigned := [] } : Region modulus).copyAdvice
    initState (.state, 0)
  let parser ← input.foldlM (applyOneTransition automaton) { region, state, markers := [], offset := 0 }
  return (assertFinalState parser.region invalidLetter invalidState parser.offset, parser.markers)

/-- Values of the advice columns, by row of the region. -/
abbrev Trace (modulus : Nat) := ScannerColumn → Nat → ZMod modulus

def CellSource.value (trace : Trace modulus) (input : List UInt8) : CellSource modulus → ZMod modulus
  | .fixed value => value
  | .input position => ((input.getD position 0).toNat : ZMod modulus)
  | .advice (column, row) => trace column row

def Trace.row (trace : Trace modulus) (offset : Nat) : Row modulus where
  source := trace .state offset
  letter := trace .letter offset
  target := trace .state (offset + 1)
  output := trace .output offset

structure Satisfies (table : List (Row modulus)) (region : Region modulus) (input : List UInt8)
    (trace : Trace modulus) : Prop where
  copies : ∀ copy ∈ region.copies, trace copy.1.1 copy.1.2 = copy.2.value trace input
  lookups : ∀ offset ∈ region.enabled, trace.row offset ∈ table

end Midfall.ScannerChip
