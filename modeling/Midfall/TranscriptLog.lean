import Mathlib

/-!
# Programs that append to a transcript

A program over a transcript reads nothing from it: it absorbs values and may
stop with an error. `Accepts` states in one place when such a program
succeeds, what it returns and which values it appends, and the rules below
carry it through sequencing and loops.
-/

namespace Midfall.TranscriptLog

open List

/-- A program that appends to a log and can stop with an error. -/
abbrev Logged (Entry Fault Value : Type) := StateT (List Entry) (Except Fault) Value

variable {Entry Fault Value Result Input : Type}

def append (entry : Entry) : Logged Entry Fault Unit := fun log => .ok ((), log ++ [entry])

def reject (fault : Fault) : Logged Entry Fault Value := fun _ => .error fault

/-- The program succeeds exactly under `condition`, then returns `value` and
appends `appended`. -/
structure Accepts (program : Logged Entry Fault Value) (condition : Prop) (value : Value)
    (appended : List Entry) : Prop where
  run : condition → ∀ log, program log = .ok (value, log ++ appended)
  inspect : ∀ log outcome, program log = .ok outcome → condition

variable {program : Logged Entry Fault Value} {condition : Prop} {value : Value}
  {appended : List Entry}

theorem Accepts.outcome (accepts : Accepts program condition value appended) {log : List Entry}
    {outcome : Value × List Entry} (succeeded : program log = .ok outcome) :
    outcome = (value, log ++ appended) := by
  have holds := accepts.inspect log outcome succeeded
  rw [accepts.run holds log] at succeeded
  exact (Except.ok.inj succeeded).symm

theorem accepts_pure (value : Value) :
    Accepts (pure value : Logged Entry Fault Value) True value [] where
  run := fun _ log => by simp [pure, StateT.pure, Except.pure]
  inspect := fun _ _ _ => trivial

theorem accepts_append (entry : Entry) :
    Accepts (append entry : Logged Entry Fault Unit) True () [entry] where
  run := fun _ _ => rfl
  inspect := fun _ _ _ => trivial

theorem Accepts.bind {first : Logged Entry Fault Value} {next : Value → Logged Entry Fault Result}
    {firstHolds nextHolds : Prop} {value : Value} {result : Result}
    {firstLog nextLog : List Entry} (firstAccepts : Accepts first firstHolds value firstLog)
    (nextAccepts : Accepts (next value) nextHolds result nextLog) :
    Accepts (first >>= next) (firstHolds ∧ nextHolds) result (firstLog ++ nextLog) where
  run := by
    intro holds log
    have firstRun := firstAccepts.run holds.1 log
    have nextRun := nextAccepts.run holds.2 (log ++ firstLog)
    simp only [Bind.bind, StateT.bind, Except.bind, firstRun, nextRun, append_assoc]
  inspect := by
    intro log outcome succeeded
    simp only [Bind.bind, StateT.bind, Except.bind] at succeeded
    split at succeeded
    · cases succeeded
    · rename_i reached firstRun
      cases firstAccepts.outcome firstRun
      exact ⟨firstAccepts.inspect log _ firstRun, nextAccepts.inspect _ _ succeeded⟩

theorem Accepts.congr {condition' : Prop} {value' : Value} {appended' : List Entry}
    (accepts : Accepts program condition value appended) (sameCondition : condition ↔ condition')
    (sameValue : value = value') (sameLog : appended = appended') :
    Accepts program condition' value' appended' := by
  subst sameValue sameLog
  exact ⟨fun holds => accepts.run (sameCondition.mpr holds),
    fun log outcome succeeded => sameCondition.mp (accepts.inspect log outcome succeeded)⟩

theorem Accepts.bind_always {first : Logged Entry Fault Value}
    {next : Value → Logged Entry Fault Result} {result : Result} {firstLog nextLog : List Entry}
    (firstAccepts : Accepts first True value firstLog)
    (nextAccepts : Accepts (next value) True result nextLog) :
    Accepts (first >>= next) True result (firstLog ++ nextLog) :=
  (firstAccepts.bind nextAccepts).congr (by simp) rfl rfl

theorem Accepts.guard {refuse : Prop} [Decidable refuse] {fault : Fault}
    (accepts : Accepts program condition value appended) :
    Accepts (if refuse then reject fault else program) (¬refuse ∧ condition) value appended where
  run := by
    intro holds log
    rw [if_neg holds.1]
    exact accepts.run holds.2 log
  inspect := by
    intro log outcome succeeded
    by_cases refused : refuse
    · rw [if_pos refused] at succeeded
      cases succeeded
    · rw [if_neg refused] at succeeded
      exact ⟨refused, accepts.inspect log outcome succeeded⟩

/-- A loop succeeds when every pass does, and the logs stand in loop order. -/
theorem accepts_loop (body : Input → Logged Entry Fault Value) (condition : Input → Prop)
    (value : Input → Value) (appended : Input → List Entry)
    (accepts : ∀ input, Accepts (body input) (condition input) (value input) (appended input))
    (inputs : List Input) :
    Accepts (inputs.mapM body) (∀ input ∈ inputs, condition input) (inputs.map value)
      (inputs.flatMap appended) := by
  induction inputs with
  | nil =>
    rw [mapM_nil]
    exact (accepts_pure []).congr (by simp) rfl rfl
  | cons input inputs ih =>
    rw [mapM_cons]
    have rest : Accepts (inputs.mapM body >>= fun tail => pure (value input :: tail)) _ _ _ :=
      ih.bind (accepts_pure (value input :: inputs.map value))
    apply Accepts.congr ((accepts input).bind rest)
    · simp
    · rfl
    · simp

theorem accepts_for_each (body : Input → Logged Entry Fault Unit) (condition : Input → Prop)
    (appended : Input → List Entry)
    (accepts : ∀ input, Accepts (body input) (condition input) () (appended input))
    (inputs : List Input) :
    Accepts (forM inputs body) (∀ input ∈ inputs, condition input) ()
      (inputs.flatMap appended) := by
  induction inputs with
  | nil =>
    rw [forM_nil]
    exact (accepts_pure ()).congr (by simp) rfl rfl
  | cons input inputs ih =>
    rw [forM_cons]
    apply Accepts.congr ((accepts input).bind ih)
    · simp
    · rfl
    · simp

theorem accepts_append_each (entry : Input → Entry) (inputs : List Input) :
    Accepts (forM inputs fun input => (append (entry input) : Logged Entry Fault Unit)) True ()
      (inputs.map entry) := by
  have loop : Accepts (forM inputs fun input => (append (entry input) : Logged Entry Fault Unit))
      (∀ input ∈ inputs, True) () (inputs.flatMap fun input => [entry input]) :=
    accepts_for_each _ _ _ (fun input => accepts_append (entry input)) inputs
  exact loop.congr (by simp) rfl map_eq_flatMap.symm

end Midfall.TranscriptLog
