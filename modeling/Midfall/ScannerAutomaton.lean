import Midfall.ListLoops

/-!
# Automata of the scanner

Deterministic automata over bytes whose transitions carry an output marker. Hash
sets and hash maps are lists in iteration order; a map lists each key once.
-/

namespace Midfall.ScannerAutomaton

open List

/-- Characters are bytes; the number itself is not one. -/
def alphabetMaxSize : Nat := 256

/-- Bound of `usize`. -/
def usizeBound : Nat := 2 ^ 64

/-- A missing key of `transitions` leaves the run stuck. -/
structure Automaton where
  nbStates : Nat
  initialState : Nat
  finalStates : List Nat
  transitions : List ((Nat × UInt8) × (Nat × Nat))
  deriving DecidableEq, Repr

namespace Automaton

/-- States are numbered below `nbStates`, keys occur once and markers are machine
integers. -/
structure WellFormed (automaton : Automaton) : Prop where
  initialState : automaton.initialState < automaton.nbStates
  finalStates : ∀ state ∈ automaton.finalStates, state < automaton.nbStates
  sources : ∀ entry ∈ automaton.transitions, entry.1.1 < automaton.nbStates
  targets : ∀ entry ∈ automaton.transitions, entry.2.1 < automaton.nbStates
  keys : (automaton.transitions.map Prod.fst).Nodup
  markers : ∀ entry ∈ automaton.transitions, entry.2.2 < usizeBound

def offsetStates (automaton : Automaton) (offset : Nat) : Automaton where
  nbStates := automaton.nbStates + offset
  initialState := automaton.initialState + offset
  finalStates := automaton.finalStates.map (· + offset)
  transitions := automaton.transitions.map fun ((source, letter), (target, marker)) =>
    ((source + offset, letter), (target + offset, marker))

/-- The states and the markers of a run; `none` where it gets stuck. -/
def runFrom (automaton : Automaton) : Nat → List UInt8 → Option (List (Nat × Nat))
  | _, [] => some []
  | state, letter :: rest => do
    let (target, marker) ← automaton.transitions.lookup (state, letter)
    let steps ← automaton.runFrom target rest
    return (target, marker) :: steps

def lastState (state : Nat) (steps : List (Nat × Nat)) : Nat := (steps.map (·.1)).getLastD state

/-- The markers of the accepting run, if there is one. -/
def output (automaton : Automaton) (input : List UInt8) : Option (List Nat) := do
  let steps ← automaton.runFrom automaton.initialState input
  guard (lastState automaton.initialState steps ∈ automaton.finalStates)
  return steps.map (·.2)

variable {automaton : Automaton}

variable {state : Nat} {steps : List (Nat × Nat)} {input : List UInt8}

theorem run_from_cons {target marker : Nat} {letter : UInt8} {rest : List UInt8}
    (step : automaton.transitions.lookup (state, letter) = some (target, marker)) :
    automaton.runFrom state (letter :: rest) =
      (automaton.runFrom target rest).map ((target, marker) :: ·) := by
  simp only [runFrom, step, some_bind]
  cases automaton.runFrom target rest <;> rfl

theorem last_state_cons (state target marker : Nat) (steps : List (Nat × Nat)) :
    lastState state ((target, marker) :: steps) = lastState target steps := by
  rw [lastState, map_cons, getLastD_cons]
  rfl

theorem run_from_cons_some {letter : UInt8} {rest : List UInt8}
    (ran : automaton.runFrom state (letter :: rest) = some steps) :
    ∃ target marker later, automaton.transitions.lookup (state, letter) = some (target, marker) ∧
      automaton.runFrom target rest = some later ∧ steps = (target, marker) :: later := by
  cases step : automaton.transitions.lookup (state, letter) with
  | none => simp [runFrom, step] at ran
  | some found =>
    obtain ⟨target, marker⟩ := found
    rw [run_from_cons step, Option.map_eq_some_iff] at ran
    rcases ran with ⟨later, continued, rfl⟩
    exact ⟨target, marker, later, rfl, continued, rfl⟩

theorem run_from_length (ran : automaton.runFrom state input = some steps) :
    steps.length = input.length := by
  induction input generalizing state steps with
  | nil =>
    cases ran
    rfl
  | cons letter rest ih =>
    rcases run_from_cons_some ran with ⟨target, marker, later, -, continued, rfl⟩
    rw [length_cons, length_cons, ih continued]

/-- The states of a run, the first one included. -/
def visited (state : Nat) (steps : List (Nat × Nat)) : List Nat := state :: steps.map (·.1)

theorem visited_step (ran : automaton.runFrom state input = some steps) {index : Nat}
    (inside : index < input.length) :
    ∃ source target marker, (visited state steps)[index]? = some source ∧
      (visited state steps)[index + 1]? = some target ∧ steps[index]? = some (target, marker) ∧
      automaton.transitions.lookup (source, input[index]) = some (target, marker) := by
  induction input generalizing state steps index with
  | nil => cases inside
  | cons letter rest ih =>
    rcases run_from_cons_some ran with ⟨target, marker, later, step, continued, rfl⟩
    cases index with
    | zero => exact ⟨state, target, marker, rfl, rfl, rfl, step⟩
    | succ index =>
      rcases ih continued (by simpa using inside) with ⟨source, next, output, at_, after, found, took⟩
      exact ⟨source, next, output, at_, after, found, took⟩

theorem visited_last (state : Nat) (steps : List (Nat × Nat)) :
    (visited state steps)[steps.length]? = some (lastState state steps) := by
  induction steps generalizing state with
  | nil => rfl
  | cons step steps ih =>
    rw [last_state_cons, ← ih step.1]
    rfl

theorem output_eq_some {markers : List Nat} :
    automaton.output input = some markers ↔
      ∃ steps, automaton.runFrom automaton.initialState input = some steps ∧
        lastState automaton.initialState steps ∈ automaton.finalStates ∧
        steps.map (·.2) = markers := by
  unfold output
  cases automaton.runFrom automaton.initialState input with
  | none => simp
  | some steps =>
    by_cases final : lastState automaton.initialState steps ∈ automaton.finalStates <;>
      simp [final, guard, failure]

end Automaton

end Midfall.ScannerAutomaton
