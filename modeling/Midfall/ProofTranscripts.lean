import Mathlib

/-!
# Transcripts of provers and verifiers

A transcript absorbs messages and squeezes challenges. The prover's writes are
also the messages of the proof, which the verifier reads from the front. A
prover `Completes` for a verifier if, whenever it finishes, the verifier reads
exactly what was written and ends with the same transcript.
-/

namespace Midfall.ProofTranscripts

open List

/-- What was absorbed and squeezed (`none`), and the messages of the proof. -/
structure Transcript (Message : Type) where
  log : List (Option Message)
  buffer : List Message

/-- A program over a transcript; errors and panics stop it. -/
abbrev Session (Message Value : Type) := StateT (Transcript Message) Option Value

variable {Message Value Result Other OtherResult Challenge Input : Type}

def common (message : Message) : Session Message Unit := fun transcript =>
  some ((), { transcript with log := transcript.log ++ [some message] })

def write (message : Message) : Session Message Unit := fun transcript =>
  some ((), { log := transcript.log ++ [some message], buffer := transcript.buffer ++ [message] })

def read : Session Message Message := fun transcript =>
  match transcript.buffer with
  | [] => none
  | message :: rest => some (message, { log := transcript.log ++ [some message], buffer := rest })

/-- A challenge is a function of everything before it. -/
def squeeze (sample : List (Option Message) → Challenge) : Session Message Challenge :=
  fun transcript =>
    some (sample transcript.log, { transcript with log := transcript.log ++ [none] })

def lift (value : Option Value) : Session Message Value := fun transcript =>
  value.map fun found => (found, transcript)

def readAs (view : Message → Option Value) : Session Message Value := do
  let message ← read
  lift (view message)

def Completes (prover : Session Message Value) (verifier : Session Message Result)
    (related : Value → Result → Prop) : Prop :=
  ∀ ⦃log written value after buffer⦄, prover ⟨log, written⟩ = some (value, ⟨after, buffer⟩) →
    ∃ sent, buffer = written ++ sent ∧ ∀ rest, ∃ result,
      verifier ⟨log, sent ++ rest⟩ = some (result, ⟨after, rest⟩) ∧ related value result

theorem run_bind (first : Session Message Value) (next : Value → Session Message Result)
    (transcript : Transcript Message) : (first >>= next) transcript =
      (first transcript).bind fun outcome => next outcome.1 outcome.2 := rfl

theorem run_lift_bind (first : Option Value) (next : Value → Session Message Result)
    (transcript : Transcript Message) : (lift first >>= next) transcript =
      first.bind fun value => next value transcript := by
  cases first <;> rfl

variable {value : Value} {verifier : Session Message Other} {first : Option Value}

theorem completes_pure {result : Result} {related : Value → Result → Prop}
    (holds : related value result) :
    Completes (pure value : Session Message Value) (pure result) related := by
  intro log written _ _ _ run
  cases run
  exact ⟨[], (append_nil written).symm, fun rest => ⟨result, rfl, holds⟩⟩

theorem Completes.bind {prover : Session Message Value} {verifier : Session Message Other}
    {next : Value → Session Message Result} {otherNext : Other → Session Message OtherResult}
    {middle : Value → Other → Prop} {related : Result → OtherResult → Prop}
    (first : Completes prover verifier middle)
    (second : ∀ value other, middle value other →
      Completes (next value) (otherNext other) related) :
    Completes (prover >>= next) (verifier >>= otherNext) related := by
  intro log written result final buffer run
  rcases Option.bind_eq_some_iff.mp run with ⟨⟨value, after, middleBuffer⟩, firstRun, later⟩
  rcases first firstRun with ⟨sent, rfl, follows⟩
  -- The verifier's value may depend on what follows, the messages of the second part do not.
  rcases follows [] with ⟨other, -, holds⟩
  rcases second value other holds later with ⟨more, rfl, -⟩
  use sent ++ more, append_assoc written sent more
  intro rest
  rcases follows (more ++ rest) with ⟨read, readRun, readHolds⟩
  rcases second value read readHolds later with ⟨sameMore, same, readsMore⟩
  rw [← append_cancel_left same] at readsMore
  rcases readsMore rest with ⟨last, lastRun, lastHolds⟩
  use last
  constructor
  · rw [run_bind, append_assoc, readRun]
    exact lastRun
  · exact lastHolds

variable {later : Value → Result → Prop} {prover : Session Message Value}
variable {related : Value → Other → Prop}

theorem Completes.followed {next : Other → Session Message Result}
    (completes : Completes prover verifier related)
    (follows : ∀ value other, related value other → Completes (pure value) (next other) later) :
    Completes prover (verifier >>= next) later := by
  rw [← bind_pure prover]
  exact completes.bind follows

theorem Completes.returning (completes : Completes prover verifier related) {view : Other → Result}
    (implied : ∀ value other, related value other → later value (view other)) :
    Completes prover (verifier >>= fun other => pure (view other)) later :=
  completes.followed fun value other holds => completes_pure (implied value other holds)

theorem completes_squeeze (sample : List (Option Message) → Challenge) :
    Completes (squeeze sample) (squeeze sample) fun first second => first = second := by
  intro log written _ _ _ run
  cases run
  exact ⟨[], (append_nil written).symm, fun rest => ⟨sample log, rfl, rfl⟩⟩

theorem completes_write {message : Message} {view : Message → Option Value}
    (viewed : view message = some value) :
    Completes (write message) (readAs view) fun _ result => result = value := by
  intro log written _ _ _ run
  cases run
  use [message], rfl
  intro rest
  use value
  constructor
  · rw [singleton_append, readAs, run_bind]
    change (lift (view message)) _ = _
    rw [viewed]
    rfl
  · rfl

variable {next : Value → Session Message Result}

theorem Completes.lift_prover {related : Result → Other → Prop}
    (completes : ∀ value, first = some value → Completes (next value) verifier related) :
    Completes (lift first >>= next) verifier related := by
  cases first with
  | none =>
    intro log written _ _ _ run
    cases run
  | some value => exact completes value rfl

theorem Completes.lift_verifier {prover : Session Message Other} {related : Other → Result → Prop}
    (firstIs : first = some value) (completes : Completes prover (next value) related) :
    Completes prover (lift first >>= next) related := by
  rw [firstIs]
  exact completes

theorem common_all_run (message : Input → Message) (inputs : List Input) (log : List (Option Message))
    (buffer : List Message) : (forM inputs fun input => common (message input)) ⟨log, buffer⟩ =
      some ((), ⟨log ++ inputs.map fun input => some (message input), buffer⟩) := by
  induction inputs generalizing log with
  | nil => rw [map_nil, append_nil]; rfl
  | cons input inputs ih =>
    rw [forM_cons, run_bind, map_cons, append_cons]
    exact ih _

end Midfall.ProofTranscripts
