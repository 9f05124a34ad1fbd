import Mathlib

/-!
# Programs that read a transcript

A reader consumes a transcript from the front and may stop. `Ensures` states
what holds of every returned value, whatever the transcript contains; `Reads`
that a reader accepts a given sequence of messages and returns a given value;
`Consumes` that every successful run takes a fixed number of messages.
-/

namespace Midfall.TranscriptReader

open List

/-- A program over a transcript state that can stop. -/
abbrev Reader (State Value : Type) := StateT State Option Value

variable {State Message Value Result Input : Type}

/-- A partial step that leaves the transcript alone; `none` stops the run. -/
def unwrap (result : Option Value) : Reader State Value := fun state =>
  result.map fun value => (value, state)

def Ensures (program : Reader State Value) (post : Value → Prop) : Prop :=
  ∀ before value after, program before = some (value, after) → post value

theorem run_bind (first : Reader State Value) (next : Value → Reader State Result)
    (before : State) : (first >>= next) before =
      (first before).bind fun outcome => next outcome.1 outcome.2 := rfl

theorem bind_returns {first : Reader State Value} {next : Value → Reader State Result}
    {before after : State} {result : Result}
    (returned : (first >>= next) before = some (result, after)) :
    ∃ value middle, first before = some (value, middle) ∧
      next value middle = some (result, after) := by
  rw [run_bind] at returned
  rcases Option.bind_eq_some_iff.mp returned with ⟨⟨value, middle⟩, read, rest⟩
  exact ⟨value, middle, read, rest⟩

theorem ensures_any (program : Reader State Value) : Ensures program fun _ => True :=
  fun _ _ _ _ => trivial

variable {value : Value}

theorem ensures_pure {post : Value → Prop} (holds : post value) :
    Ensures (pure value : Reader State Value) post := by
  intro before returned after run
  cases run
  exact holds

theorem ensures_unwrap (result : Option Value) :
    Ensures (unwrap result : Reader State Value) fun value => result = some value := by
  intro before value after run
  rcases Option.map_eq_some_iff.mp run with ⟨found, present, same⟩
  cases same
  exact present

theorem Ensures.bind {first : Reader State Value} {next : Value → Reader State Result}
    {middle : Value → Prop} {post : Result → Prop} (firstEnsures : Ensures first middle)
    (nextEnsures : ∀ value, middle value → Ensures (next value) post) :
    Ensures (first >>= next) post := by
  intro before result after run
  rcases bind_returns run with ⟨value, state, read, rest⟩
  exact nextEnsures value (firstEnsures before value state read) state result after rest

theorem Ensures.weaken {program : Reader State Value} {post weaker : Value → Prop}
    (ensures : Ensures program post) (implied : ∀ value, post value → weaker value) :
    Ensures program weaker := fun before value after run =>
  implied value (ensures before value after run)

theorem ensures_loop {body : Input → Reader State Value} {post : Input → Value → Prop}
    (ensures : ∀ input, Ensures (body input) (post input)) (inputs : List Input) :
    Ensures (inputs.mapM body) (Forall₂ post inputs) := by
  induction inputs with
  | nil =>
    rw [mapM_nil]
    exact ensures_pure Forall₂.nil
  | cons input inputs ih =>
    rw [mapM_cons]
    refine (ensures input).bind ?_
    intro value holds
    refine ih.bind ?_
    intro values rest
    exact ensures_pure (Forall₂.cons holds rest)

theorem ensures_each {body : Input → Reader State Value} {post : Value → Prop}
    (ensures : ∀ input, Ensures (body input) post) (inputs : List Input) :
    Ensures (inputs.mapM body) fun values =>
      values.length = inputs.length ∧ ∀ value ∈ values, post value := by
  refine (ensures_loop (fun input => ensures input) inputs).weaken ?_
  intro values related
  refine ⟨related.length_eq.symm, ?_⟩
  intro value mem
  rcases mem_iff_getElem.mp mem with ⟨index, inside, rfl⟩
  exact related.get (related.length_eq ▸ inside) inside

theorem ensures_fold {step : Value → Input → Reader State Value} {invariant : Value → Prop}
    (keeps : ∀ value input, invariant value → Ensures (step value input) invariant)
    (inputs : List Input) {start : Value} (holds : invariant start) :
    Ensures (inputs.foldlM step start) invariant := by
  induction inputs generalizing start with
  | nil => exact ensures_pure holds
  | cons input inputs ih =>
    rw [foldlM_cons]
    exact (keeps start input holds).bind fun value kept => ih kept

def Reads (program : Reader (List Message) Value) (messages : List Message) (value : Value) :
    Prop := ∀ rest, program (messages ++ rest) = some (value, rest)

theorem reads_pure (value : Value) : Reads (pure value : Reader (List Message) Value) [] value :=
  fun _ => rfl

theorem reads_unwrap {result : Option Value} (present : result = some value) :
    Reads (unwrap result : Reader (List Message) Value) [] value := by
  intro rest
  rw [present]
  rfl

theorem Reads.bind {first : Reader (List Message) Value}
    {next : Value → Reader (List Message) Result} {value : Value} {result : Result}
    {messages later : List Message} (firstReads : Reads first messages value)
    (nextReads : Reads (next value) later result) :
    Reads (first >>= next) (messages ++ later) result := by
  intro rest
  rw [run_bind, append_assoc, firstReads]
  exact nextReads rest

variable {first : Reader (List Message) Value}

theorem Reads.returning {messages : List Message} (firstReads : Reads first messages value)
    (view : Value → Result) :
    Reads (first >>= fun value => pure (view value)) messages (view value) := by
  intro rest
  rw [run_bind, firstReads]
  rfl

variable {body : Input → Reader (List Message) Value} {messages : Input → List Message}

theorem reads_loop {value : Input → Value} (inputs : List Input)
    (reads : ∀ input ∈ inputs, Reads (body input) (messages input) (value input)) :
    Reads (inputs.mapM body) (inputs.flatMap messages) (inputs.map value) := by
  induction inputs with
  | nil =>
    rw [mapM_nil]
    exact reads_pure []
  | cons input inputs ih =>
    rw [mapM_cons, flatMap_cons, map_cons]
    apply (reads input mem_cons_self).bind
    have rest := ih (forall_mem_cons.mp reads).2
    exact rest.returning (value input :: ·)

/-- A loop over a state whose value after each prefix of the inputs is known. -/
theorem reads_fold {step : Value → Input → Reader (List Message) Value}
    {valueAt : List Input → Value}
    (reads : ∀ processed input, Reads (step (valueAt processed) input) (messages input)
      (valueAt (processed ++ [input]))) (processed inputs : List Input) :
    Reads (inputs.foldlM step (valueAt processed)) (inputs.flatMap messages)
      (valueAt (processed ++ inputs)) := by
  induction inputs generalizing processed with
  | nil =>
    rw [append_nil]
    exact reads_pure _
  | cons input inputs ih =>
    rw [foldlM_cons, flatMap_cons]
    have rest := ih (processed ++ [input])
    rw [append_assoc, singleton_append] at rest
    exact (reads processed input).bind rest

theorem reads_for_each {body : Input → Reader (List Message) Unit} (inputs : List Input)
    (reads : ∀ input ∈ inputs, Reads (body input) [] ()) : Reads (forM inputs body) [] () := by
  induction inputs with
  | nil =>
    rw [forM_nil]
    exact reads_pure ()
  | cons input inputs ih =>
    rw [forM_cons]
    exact (reads input mem_cons_self).bind (ih (forall_mem_cons.mp reads).2)

/-- What follows an accepted prefix runs on the rest of the messages. -/
theorem Reads.resume {next : Value → Reader (List Message) Result} {messages : List Message}
    (firstReads : Reads first messages value) (rest : List Message) :
    (first >>= next) (messages ++ rest) = next value rest := by
  rw [run_bind, firstReads]
  rfl

/-- Every successful run takes exactly `count` messages. -/
def Consumes (program : Reader (List Message) Value) (count : Nat) : Prop :=
  ∀ before value after, program before = some (value, after) →
    before.length = after.length + count

theorem consumes_pure (value : Value) :
    Consumes (pure value : Reader (List Message) Value) 0 := by
  intro before returned after run
  cases run
  rfl

theorem consumes_unwrap (result : Option Value) :
    Consumes (unwrap result : Reader (List Message) Value) 0 := by
  intro before value after run
  rcases Option.map_eq_some_iff.mp run with ⟨found, -, same⟩
  cases same
  rfl

theorem Consumes.bind {first : Reader (List Message) Value}
    {next : Value → Reader (List Message) Result} {count later : Nat} {post : Value → Prop}
    (firstConsumes : Consumes first count) (ensures : Ensures first post)
    (nextConsumes : ∀ value, post value → Consumes (next value) later) :
    Consumes (first >>= next) (count + later) := by
  intro before result after run
  rcases bind_returns run with ⟨value, middle, read, rest⟩
  have firstLength := firstConsumes before value middle read
  have nextLength := nextConsumes value (ensures before value middle read) middle result after rest
  omega

theorem consumes_loop {count : Input → Nat}
    (consumes : ∀ input, Consumes (body input) (count input)) (inputs : List Input) :
    Consumes (inputs.mapM body) (inputs.map count).sum := by
  induction inputs with
  | nil =>
    rw [mapM_nil]
    exact consumes_pure []
  | cons input inputs ih =>
    rw [mapM_cons, map_cons, sum_cons]
    apply (consumes input).bind (ensures_any _)
    intro value _
    have rest : Consumes (inputs.mapM body >>= fun values => pure (value :: values))
        ((inputs.map count).sum + 0) :=
      ih.bind (ensures_any _) fun values _ => consumes_pure (value :: values)
    rwa [Nat.add_zero] at rest

end Midfall.TranscriptReader
