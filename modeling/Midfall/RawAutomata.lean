import Midfall.ScannerAutomaton
import Midfall.Worklists

/-!
# Raw automata

`parsing/scanner/automaton.rs`: automata over marked bytes that regular
expressions are compiled to. A panic is `none`. The order in which a hash
collection is iterated is a parameter.
-/

namespace Midfall.RawAutomata

open ScannerAutomaton (alphabetMaxSize Automaton)
open Worklists

/-- The iteration order of hash collections. -/
structure HashOrder where
  arrange : {Entry : Type} → List Entry → List Entry
  perm : ∀ {Entry : Type} (entries : List Entry), (arrange entries).Perm entries

def HashOrder.elements (order : HashOrder) (set : Finset Nat) : List Nat :=
  order.arrange ((List.range (set.sup id + 1)).filter fun element => element ∈ set)

/-- The order of the list itself. -/
def HashOrder.inOrder : HashOrder where
  arrange := id
  perm := fun entries => List.Perm.refl entries

/-- A byte with an output marker; 0 means no marker. -/
structure Letter where
  char : UInt8
  marker : Nat
  deriving DecidableEq, Repr

namespace Letter

def ofByte (value : UInt8) : Letter := { char := value, marker := 0 }

def encode (letter : Letter) (alphabetSize : Nat) (markers : List Nat) : Option Nat :=
  if letter.marker ∈ markers then
    some (markers.idxOf letter.marker * alphabetSize + letter.char.toNat)
  else none

def decode (letterEncoding alphabetSize : Nat) (markers : List Nat) : Option Letter :=
  if alphabetSize = 0 then none
  else (markers[letterEncoding / alphabetSize]?).map fun marker =>
    { char := UInt8.ofNat (letterEncoding % alphabetSize), marker := marker }

def encodingBound (alphabetSize : Nat) (markers : List Nat) : Nat := alphabetSize * markers.length

end Letter

abbrev Transitions := List (List (Letter × Nat))

structure RawAutomaton where
  deterministic : Bool
  complete : Bool
  initialState : Nat
  finalStates : Finset Nat
  transitions : Transitions
  markers : Finset Nat
  deriving DecidableEq

namespace RawAutomaton

def nbStates (automaton : RawAutomaton) : Nat := automaton.transitions.length

def empty : RawAutomaton where
  deterministic := true
  complete := false
  initialState := 0
  finalStates := ∅
  transitions := [[]]
  markers := ∅

def epsilon : RawAutomaton where
  deterministic := true
  complete := false
  initialState := 0
  finalStates := {0}
  transitions := [[]]
  markers := ∅

/-- Bytes outside of the alphabet are filtered out. -/
def byteConcat (word : List (List Letter)) (alphabetSize : Nat) : RawAutomaton :=
  let ranges := word.map fun byteRange =>
    byteRange.filter fun byte => decide (byte.char.toNat < alphabetSize)
  { deterministic := true
    complete := false
    initialState := 0
    finalStates := {word.length}
    transitions := ranges.zipIdx.map (fun entry => entry.1.map fun byte => (byte, entry.2 + 1)) ++ [[]]
    markers := (ranges.flatten.map (·.marker)).toFinset }

/-- Panics when the alphabet does not fit a byte. -/
def universal (alphabetSize : Nat) : Option RawAutomaton :=
  if alphabetSize ≤ alphabetMaxSize then some {
    deterministic := true
    complete := true
    initialState := 0
    finalStates := {0}
    transitions := [(List.range alphabetSize).map fun b => (Letter.ofByte (UInt8.ofNat b), 0)]
    markers := ∅ }
  else none

def loopOnInitial (automaton : RawAutomaton) : Bool :=
  automaton.transitions.any fun succ =>
    succ.any fun entry => decide (entry.2 = automaton.initialState)

/-- A state out of range panics, here or in the loop over the final states that follows. -/
def nothingAfterFinal (automaton : RawAutomaton) : Option Bool :=
  if ∀ state ∈ automaton.finalStates, state < automaton.nbStates then
    some (decide (∀ state ∈ automaton.finalStates, automaton.transitions[state]? = some []))
  else none

/-- A loop on the initial state needs a fresh one. -/
def makeOptional (automaton : RawAutomaton) : Option RawAutomaton :=
  if automaton.initialState ∈ automaton.finalStates then some automaton
  else if automaton.loopOnInitial then do
    let outgoing ← automaton.transitions[automaton.initialState]?
    return { automaton with
      initialState := automaton.nbStates
      finalStates := insert automaton.nbStates automaton.finalStates
      transitions := automaton.transitions ++ [outgoing] }
  else some { automaton with finalStates := insert automaton.initialState automaton.finalStates }

def updatedTransitions (transitions : Transitions) (f : Nat → Option Nat) :
    List (Nat × Letter × Nat) :=
  transitions.zipIdx.flatMap fun entry => entry.1.filterMap fun transition =>
    (f entry.2).bind fun newSource => (f transition.2).map fun newTarget =>
      (newSource, transition.1, newTarget)

/-- Panics on a source that is not among the new states. -/
def filterMapTransitions (transitions : Transitions) (f : Nat → Option Nat)
    (newNbStates offset : Nat) : Option (Transitions × Finset Nat) :=
  let updated := updatedTransitions transitions f
  if ∀ entry ∈ updated, offset ≤ entry.1 ∧ entry.1 - offset < newNbStates then
    some ((List.range newNbStates).map fun state =>
        updated.filterMap fun entry => if entry.1 = state + offset then some entry.2 else none,
      (updated.map fun entry => entry.2.1.marker).toFinset)
  else none

def rename (kept : List Nat) (state : Nat) : Option Nat :=
  if state ∈ kept then some (kept.idxOf state) else none

def renameAll (kept : List Nat) (states : Finset Nat) : Finset Nat :=
  (states.filter fun state => state ∈ kept).image fun state => kept.idxOf state

section Orders

variable (order : HashOrder)

/-- The number of transitions, for the bounds of the loops. -/
def nbTransitions (automaton : RawAutomaton) : Nat := (automaton.transitions.map List.length).sum

def forwardEdges (automaton : RawAutomaton) (state : Nat) : Option (List Nat) :=
  (automaton.transitions[state]?).map fun succ => order.arrange (succ.map Prod.snd).dedup

def backwardEdges (automaton : RawAutomaton) (state : Nat) : List Nat :=
  order.arrange ((List.range automaton.nbStates).filter fun source =>
    (automaton.transitions[source]?).any fun succ => succ.any fun entry => decide (entry.2 = state))

/-- The states that are reachable and can reach a final state. -/
def liveStates (automaton : RawAutomaton) : Option (List Nat) :=
  if ∀ succ ∈ automaton.transitions, ∀ entry ∈ succ, entry.2 < automaton.nbStates then do
    let reachable ← explore (automaton.forwardEdges order)
      (1 + automaton.nbStates * automaton.nbTransitions) [automaton.initialState] []
    let visited ← explore
      (fun state => some (if state ∈ reachable then automaton.backwardEdges order state else []))
      (automaton.finalStates.card + (automaton.nbStates + automaton.finalStates.card) *
        automaton.nbStates) (order.elements automaton.finalStates).reverse []
    return order.arrange (visited.filter fun state => state ∈ reachable)
  else none

/-- Completeness is not preserved. -/
def removeDeadStates (automaton : RawAutomaton) : Option RawAutomaton := do
  let liveStates ← automaton.liveStates order
  if liveStates = [] then return empty
  else
    let initialState ← rename liveStates automaton.initialState
    let (transitions, markers) ← filterMapTransitions automaton.transitions (rename liveStates)
      liveStates.length 0
    return {
      deterministic := automaton.deterministic
      complete := false
      initialState := initialState
      finalStates := renameAll liveStates automaton.finalStates
      transitions := transitions
      markers := markers }

def checkDeterminism (automaton : RawAutomaton) : RawAutomaton :=
  { automaton with
    deterministic := automaton.deterministic ||
      automaton.transitions.all fun succ => decide (succ.map Prod.fst).Nodup }

/-- A set of states of the power automaton with the letters that lead to it. -/
abbrev Successors := List (Nat × Finset Nat)

/-- `entry(..).or_insert(..)[target] = true`. -/
def markTarget (nbStates letterEncoding target : Nat) (successors : Successors) : Option Successors :=
  if target < nbStates then
    some (if letterEncoding ∈ successors.map Prod.fst then
      successors.map fun entry =>
        if entry.1 = letterEncoding then (entry.1, insert target entry.2) else entry
    else successors ++ [(letterEncoding, {target})])
  else none

def powerSuccessors (automaton : RawAutomaton) (completion : Bool) (alphabetSize : Nat)
    (markers : List Nat) (powerState : Finset Nat) : Option (List (Letter × Finset Nat)) := do
  let initial : Successors :=
    if completion then (List.range (Letter.encodingBound alphabetSize markers)).map fun i => (i, ∅)
    else []
  let outgoing := ((List.range automaton.nbStates).filter fun state => state ∈ powerState).flatMap
    fun source => (automaton.transitions[source]?).getD []
  let successors ← outgoing.foldlM (fun successors transition => do
    let letterEncoding ← transition.1.encode alphabetSize markers
    markTarget automaton.nbStates letterEncoding transition.2 successors) initial
  (order.arrange successors).mapM fun entry =>
    (Letter.decode entry.1 alphabetSize markers).map fun letter => (letter, entry.2)

/-- Power states are numbered in the order of their visits. -/
def powersetConstruction (automaton : RawAutomaton) (initials : List Nat) (completion : Bool)
    (alphabetSize : Nat) : Option RawAutomaton :=
  if ∀ state ∈ initials, state < automaton.nbStates then do
    let markers := order.elements automaton.markers
    let successors := automaton.powerSuccessors order completion alphabetSize markers
    let width := Letter.encodingBound alphabetSize markers + automaton.nbTransitions
    let visited ← explore (fun powerState => (successors powerState).map (·.map Prod.snd))
      (1 + 2 ^ automaton.nbStates * width) [initials.toFinset] []
    let transitions ← visited.mapM fun powerState =>
      (successors powerState).map (·.map fun entry => (entry.1, visited.idxOf entry.2))
    return {
      deterministic := true
      complete := automaton.complete || completion
      initialState := 0
      finalStates := (Finset.range visited.length).filter fun index =>
        ∃ state ∈ automaton.finalStates, state ∈ visited.getD index ∅
      transitions := transitions
      markers := automaton.markers }
  else none

def determinise (automaton : RawAutomaton) (completion : Bool) (alphabetSize : Nat) :
    Option RawAutomaton :=
  if automaton.deterministic && (! completion || automaton.complete) then some automaton
  else automaton.powersetConstruction order [automaton.initialState] completion alphabetSize

def unionStep (state : RawAutomaton × List Nat) (automaton : RawAutomaton) :
    Option (RawAutomaton × List Nat) := do
  let nbStates := state.1.nbStates
  let (transitions, markers) ← filterMapTransitions automaton.transitions
    (fun state => some (state + nbStates)) automaton.nbStates nbStates
  return ({ state.1 with
      finalStates := state.1.finalStates ∪ automaton.finalStates.image (· + nbStates)
      markers := state.1.markers ∪ markers
      transitions := state.1.transitions ++ transitions },
    state.2 ++ [automaton.initialState + nbStates])

/-- One automaton alone is not determinised. -/
def union (automata : List RawAutomaton) (alphabetSize : Nat) : Option RawAutomaton :=
  match automata with
  | [automaton] => some automaton
  | automata => do
    let (unionAutomaton, unionInitialStates) ← automata.foldlM unionStep (empty, [])
    unionAutomaton.powersetConstruction order unionInitialStates false alphabetSize

structure Concatenation where
  automaton : RawAutomaton
  garbage : Finset Nat
  loopOnInitial : Bool

def concatStep (state : Concatenation) (automaton : RawAutomaton) : Option Concatenation := do
  let concatAutomaton := state.automaton
  let nbStates := concatAutomaton.nbStates
  let (transitions, _) ← filterMapTransitions automaton.transitions
    (fun state => some (state + nbStates)) automaton.nbStates nbStates
  let nothingAfterFinal ← automaton.nothingAfterFinal
  if nothingAfterFinal then
    -- transitions to the final states go to the next initial state
    let isFinal := fun target : Nat => target - nbStates ∈ automaton.finalStates
    return {
      automaton := { concatAutomaton with
        initialState := automaton.initialState + nbStates
        transitions := concatAutomaton.transitions ++ transitions.map fun succ =>
          succ.map fun entry =>
            if isFinal entry.2 then (entry.1, concatAutomaton.initialState) else entry }
      garbage := state.garbage ∪
        ((transitions.flatten.map Prod.snd).filter fun target => isFinal target).toFinset
      loopOnInitial := automaton.loopOnInitial }
  else do
    -- the first transitions of the next automaton are copied to the final states
    let outgoing ← (concatAutomaton.transitions ++ transitions)[concatAutomaton.initialState]?
    return {
      automaton := { concatAutomaton with
        initialState := automaton.initialState + nbStates
        finalStates :=
          if concatAutomaton.initialState ∈ concatAutomaton.finalStates then
            concatAutomaton.finalStates ∪ automaton.finalStates.image (· + nbStates)
          else concatAutomaton.finalStates
        transitions := concatAutomaton.transitions ++ transitions.zipIdx.map fun entry =>
          if entry.2 ∈ automaton.finalStates then entry.1 ++ outgoing else entry.1 }
      garbage :=
        if state.loopOnInitial then state.garbage
        else insert concatAutomaton.initialState state.garbage
      loopOnInitial := automaton.loopOnInitial }

def concat (automata : List RawAutomaton) : Option RawAutomaton := do
  let state ← automata.reverse.foldlM concatStep
    { automaton := epsilon, garbage := ∅, loopOnInitial := false }
  let concatAutomaton := state.automaton
  let renamed := (List.range concatAutomaton.nbStates).filter fun source => source ∉ state.garbage
  let (transitions, markers) ← filterMapTransitions concatAutomaton.transitions (rename renamed)
    renamed.length 0
  let initialState ← rename renamed concatAutomaton.initialState
  return checkDeterminism {
    deterministic := false
    complete := automata.all (·.complete)
    finalStates := renameAll renamed concatAutomaton.finalStates
    initialState := initialState
    markers := markers
    transitions := transitions }

/-- Two letters with the same byte whose markers do not clash. -/
def join (letter1 letter2 : Letter) : Option Letter :=
  if letter1.char = letter2.char ∧
      (letter1.marker = letter2.marker ∨ letter1.marker = 0 ∨ letter2.marker = 0) then
    some { char := letter1.char, marker := max letter1.marker letter2.marker }
  else none

def joinTransitions (succ1 succ2 : List (Letter × Nat)) : List (Letter × (Nat × Nat)) :=
  succ1.flatMap fun entry1 => succ2.filterMap fun entry2 =>
    (join entry1.1 entry2.1).map fun letter => (letter, (entry1.2, entry2.2))

def joinsMarkers (succ1 succ2 : List (Letter × Nat)) : Bool :=
  succ1.any fun entry1 => succ2.any fun entry2 =>
    (join entry1.1 entry2.1).isSome && decide (entry1.1.marker ≠ entry2.1.marker)

def pairTransitions (lhs rhs : RawAutomaton) (source : Nat × Nat) :
    Option (List (Letter × Nat) × List (Letter × Nat)) := do
  let succ1 ← lhs.transitions[source.1]?
  let succ2 ← rhs.transitions[source.2]?
  return (succ1, succ2)

def inter (lhs rhs : RawAutomaton) : Option RawAutomaton := do
  let next := fun source => (lhs.pairTransitions rhs source).map fun succ =>
    (joinTransitions succ.1 succ.2).map Prod.snd
  let visited ← explore next
    (1 + lhs.nbStates * rhs.nbStates * (lhs.nbTransitions * rhs.nbTransitions))
    [(lhs.initialState, rhs.initialState)] []
  let pairs ← visited.mapM (lhs.pairTransitions rhs)
  let mixed := pairs.any fun succ => joinsMarkers succ.1 succ.2
  let renamed := order.arrange visited
  let transitions ← renamed.mapM fun source => (lhs.pairTransitions rhs source).map fun succ =>
    (joinTransitions succ.1 succ.2).map fun entry => (entry.1, renamed.idxOf entry.2)
  let product : RawAutomaton := {
    deterministic := lhs.deterministic && rhs.deterministic && ! mixed
    complete := lhs.complete && rhs.complete && ! mixed
    initialState := renamed.idxOf (lhs.initialState, rhs.initialState)
    finalStates := (((lhs.finalStates ×ˢ rhs.finalStates).filter fun pair => pair ∈ visited).image
      fun pair => renamed.idxOf pair)
    transitions := transitions
    markers := (transitions.flatten.map fun entry => entry.1.marker).toFinset }
  let live ← product.removeDeadStates order
  return live.checkDeterminism

/-- Panics unless the automaton is deterministic and complete. -/
def complement (automaton : RawAutomaton) : Option RawAutomaton :=
  if automaton.deterministic && automaton.complete then
    removeDeadStates order { automaton with
      finalStates := (Finset.range automaton.nbStates).filter fun i => i ∉ automaton.finalStates }
  else none

/-- Duplicates are removed from the transitions of the final states. -/
def strictRepeat (automaton : RawAutomaton) : Option RawAutomaton := do
  let outgoingFromInitial ← automaton.transitions[automaton.initialState]?
  if ∀ state ∈ automaton.finalStates, state < automaton.nbStates then
    return checkDeterminism { automaton with
      deterministic := false
      transitions := automaton.transitions.zipIdx.map fun entry =>
        if entry.2 ∈ automaton.finalStates then
          order.arrange (entry.1 ++ outgoingFromInitial).dedup
        else entry.1 }
  else none

def redirectFinalToInitial (automaton : RawAutomaton) : Option RawAutomaton := do
  let transitions := automaton.transitions.map fun succ => succ.map fun entry =>
    if entry.2 ∈ automaton.finalStates then (entry.1, automaton.initialState) else entry
  let renamed := (List.range automaton.nbStates).filter fun source =>
    source ∉ automaton.finalStates ∨ source = automaton.initialState
  let initialState ← rename renamed automaton.initialState
  if automaton.finalStates.card ≤ automaton.nbStates then do
    let (transitions, markers) ← filterMapTransitions transitions (rename renamed)
      (automaton.nbStates - automaton.finalStates.card) 0
    return {
      deterministic := automaton.deterministic
      complete := automaton.complete
      finalStates := {initialState}
      initialState := initialState
      markers := markers
      transitions := transitions }
  else none

def weakRepeat (automaton : RawAutomaton) : Option RawAutomaton := do
  let nothingAfterFinal ← automaton.nothingAfterFinal
  if nothingAfterFinal ∧
      (! automaton.loopOnInitial ∨ automaton.initialState ∈ automaton.finalStates) then
    automaton.redirectFinalToInitial
  else do
    let repeated ← automaton.strictRepeat order
    repeated.makeOptional

/-- Classes of states with the sets that still refine them. -/
structure Refinement where
  classes : List (Finset Nat)
  distinguishers : List (Finset Nat)

/-- The last element takes the place of the one that is removed. -/
def swapRemove {Entry : Type} (entries : List Entry) (index : Nat) : List Entry :=
  match entries.getLast? with
  | some last => (entries.set index last).dropLast
  | none => entries

/-- A class is split by the states that reach a distinguisher. -/
def refineClass (pred : Finset Nat) (state : Refinement) (class_ : Finset Nat) : Refinement :=
  let inter := class_ ∩ pred
  let minus := class_ \ pred
  if inter.card ≠ 0 ∧ minus.card ≠ 0 then {
    classes := state.classes ++ [inter, minus]
    distinguishers :=
      if class_ ∈ state.distinguishers then
        swapRemove state.distinguishers (state.distinguishers.idxOf class_) ++ [inter, minus]
      else if inter.card ≤ minus.card then state.distinguishers ++ [inter]
      else state.distinguishers ++ [minus] }
  else { state with classes := state.classes ++ [class_] }

def refinePartition (state : Refinement) (pred : Finset Nat) : Refinement :=
  state.classes.reverse.foldl (refineClass pred) { state with classes := [] }

/-- The sets of states that reach a distinguisher, by letter. -/
def predecessors (automaton : RawAutomaton) (alphabetSize : Nat) (markers : List Nat)
    (dist : Finset Nat) : Option (List (Finset Nat)) := do
  let entries := automaton.transitions.zipIdx.flatMap fun entry => entry.1.map fun transition =>
    (entry.2, transition)
  if ∀ entry ∈ entries, entry.2.2 < automaton.nbStates then do
    let reaching := entries.filter fun entry => entry.2.2 ∈ dist
    let codes ← reaching.mapM fun entry =>
      (entry.2.1.encode alphabetSize markers).map fun code => (code, entry.1)
    if ∀ code ∈ codes, code.1 < Letter.encodingBound alphabetSize markers then
      return (List.range (Letter.encodingBound alphabetSize markers)).map fun code =>
        ((codes.filter fun entry => entry.1 = code).map Prod.snd).toFinset
    else none
  else none

/-- One distinguisher after the other. -/
def refineLoop (automaton : RawAutomaton) (alphabetSize : Nat) (markers : List Nat) :
    Nat → Refinement → Option (List (Finset Nat))
  | 0, state => if state.distinguishers = [] then some state.classes else none
  | fuel + 1, state =>
    match state.distinguishers.getLast? with
    | none => some state.classes
    | some dist => do
      let preds ← automaton.predecessors alphabetSize markers dist
      automaton.refineLoop alphabetSize markers fuel
        ((order.arrange preds.dedup).foldl refinePartition
          { state with distinguishers := state.distinguishers.dropLast })

/-- The classes of states that accept the same inputs. -/
def nerodeCongruence (automaton : RawAutomaton) (alphabetSize : Nat) (markers : List Nat) :
    Option (List (Finset Nat)) :=
  if ∀ state ∈ automaton.finalStates, state < automaton.nbStates then
    let partition := [automaton.finalStates,
      (Finset.range automaton.nbStates) \ automaton.finalStates].filter fun states => states.card ≠ 0
    automaton.refineLoop order alphabetSize markers (2 * automaton.nbStates + 2)
      { classes := partition, distinguishers := partition }
  else none

def classOf (partition : List (Finset Nat)) (state : Nat) : Option Nat :=
  partition.findIdx? fun class_ => decide (state ∈ class_)

def representative (nbStates : Nat) (class_ : Finset Nat) : Option Nat :=
  (List.range nbStates).find? fun state => decide (state ∈ class_)

/-- Panics unless the automaton is deterministic. -/
def minimise (automaton : RawAutomaton) (alphabetSize : Nat) : Option RawAutomaton :=
  if automaton.deterministic then do
    let partition ← automaton.nerodeCongruence order alphabetSize (order.elements automaton.markers)
    let initialState ← classOf partition automaton.initialState
    let representatives ← partition.mapM (representative automaton.nbStates)
    let transitions ← representatives.mapM fun source => do
      let succ ← automaton.transitions[source]?
      succ.mapM fun entry => (classOf partition entry.2).map fun target => (entry.1, target)
    return { automaton with
      deterministic := true
      initialState := initialState
      finalStates := (Finset.range partition.length).filter fun index =>
        representatives.getD index 0 ∈ automaton.finalStates
      transitions := transitions }
  else none

/-- Panics when a state has two transitions on one byte. -/
def insertTransition (transitions : List ((Nat × UInt8) × (Nat × Nat)))
    (transition : Nat × Letter × Nat) : Option (List ((Nat × UInt8) × (Nat × Nat))) :=
  let key := (transition.1, transition.2.1.char)
  if key ∈ transitions.map Prod.fst then none
  else some (transitions ++ [(key, (transition.2.2, transition.2.1.marker))])

/-- The largest byte that is read bounds the alphabet. -/
def normalise (automaton : RawAutomaton) : Option Automaton := do
  let alphabetSize := ((automaton.transitions.flatten.map fun entry =>
    entry.1.char.toNat + 1).max?).getD 0
  let determinised ← automaton.determinise order false alphabetSize
  let base ← determinised.minimise order alphabetSize
  let transitions ← (base.transitions.zipIdx.flatMap fun entry =>
    entry.1.map fun transition => (entry.2, transition.1, transition.2)).foldlM insertTransition []
  return {
    nbStates := base.nbStates
    initialState := base.initialState
    finalStates := order.elements base.finalStates
    transitions := order.arrange transitions }

end Orders

end RawAutomaton

end Midfall.RawAutomata
