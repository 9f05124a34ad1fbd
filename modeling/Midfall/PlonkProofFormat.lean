import Midfall.PlonkOpenings
import Midfall.PlonkProver

/-!
# Prover and verifier agree on the proof format

The verifier is run on the messages that the prover wrote. Each part of the
proof is a list of messages; the prover appends exactly these, and the verifier
reads exactly these and stores each value under the polynomial it was written
for, up to the fixed evaluations, which the prover writes for every opened query
and the verifier counts by columns.
-/

namespace Midfall.PlonkProofFormat

open ListLoops PlonkConstraintSystem PlonkOpenings
open List hiding set
open PlonkProver PlonkVerifier ProofReadOrder TranscriptLog
open TranscriptReader

/-! ### The messages of a proof -/

section Messages

variable {Scalar : Type} (vk : VerifyingKey Scalar) (circuits nbCommittedInstances : Nat)

def phaseAdvice (currentPhase circuit : Nat) : List Message :=
  vk.cs.adviceColumnPhase.zipIdx.flatMap fun (phase, column) =>
    if currentPhase = phase then [.commitment (.advice circuit column)] else []

def phaseChallenges (currentPhase : Nat) : List Message :=
  vk.cs.challengePhase.zipIdx.flatMap fun (phase, index) =>
    if currentPhase = phase then [.challenge (.user index)] else []

def phaseMessages (currentPhase : Nat) : List Message :=
  (range circuits).flatMap (phaseAdvice vk currentPhase) ++ phaseChallenges vk currentPhase

def logderivativeMessages (circuit : Nat) (lookup : Nat × Nat) : List Message :=
  (range lookup.1).map (fun chunk => .commitment (.lookupHelper circuit lookup.2 chunk)) ++
    [.commitment (.lookupAccumulator circuit lookup.2)]

def traceMessages : List Message :=
  vk.cs.phases.flatMap (phaseMessages vk circuits) ++ ([Message.challenge .theta] ++
    ((range circuits).flatMap (fun circuit => vk.lookupChunks.zipIdx.map fun lookup =>
      Message.commitment (.lookupMultiplicities circuit lookup.2)) ++ ([Message.challenge .beta] ++
    ([Message.challenge .gamma] ++
    ((range circuits).flatMap (fun circuit => (range vk.permutationSets.length).map
      fun set => Message.commitment (.permutationProduct circuit set)) ++
    ((range circuits).flatMap (fun circuit =>
      vk.lookupChunks.zipIdx.flatMap (logderivativeMessages circuit)) ++ ([Message.challenge .trash] ++
    ((range circuits).flatMap (fun circuit => (range vk.cs.trashcans.length).map
      fun argument => Message.commitment (.trash circuit argument)) ++ [Message.challenge .y]))))))))

def quotientMessages : List Message :=
  (range vk.nbQuotientComs).map fun limb => .commitment (.quotientLimb limb)

def instanceMessages (circuit : Nat) : List Message :=
  vk.cs.instanceQueries.flatMap fun query => if query.column < nbCommittedInstances then
    [.evaluation (.instance circuit query.column) query.rotation] else []

def adviceEvalMessages (circuit : Nat) : List Message :=
  vk.cs.adviceQueries.map fun query => .evaluation (.advice circuit query.column) query.rotation

/-- One evaluation for every opened fixed query. -/
def fixedMessages : List Message :=
  vk.cs.fixedQueries.flatMap fun query => if vk.cs.hasSimpleSelectorCol query.column then []
    else [.evaluation (.fixed query.column) query.rotation]

def permutationMessages (circuit : Nat) : Nat → Nat → List Message
  | _, 0 => []
  | set, remaining + 1 =>
    [Message.evaluation (.permutationProduct circuit set) 0] ++
      ([Message.evaluation (.permutationProduct circuit set) 1] ++
      ((if remaining > 0 then [Message.evaluation (.permutationProduct circuit set) vk.rotationLast]
        else []) ++ permutationMessages circuit (set + 1) remaining))

def lookupMessages (circuit : Nat) (lookup : Nat × Nat) : List Message :=
  [Message.evaluation (.lookupMultiplicities circuit lookup.2) 0] ++
    ((range lookup.1).map (fun chunk =>
      Message.evaluation (.lookupHelper circuit lookup.2 chunk) 0) ++
    ([Message.evaluation (.lookupAccumulator circuit lookup.2) 0] ++
    [Message.evaluation (.lookupAccumulator circuit lookup.2) 1]))

/-- The evaluations of the arguments, behind the fixed ones. -/
def argumentMessages : List Message :=
  (range vk.cs.permutationColumns.length).map (fun index =>
    Message.evaluation (.permutationCommon index) 0) ++
  ((range circuits).flatMap (fun circuit =>
    permutationMessages vk circuit 0 vk.permutationSets.length) ++
  ((range circuits).flatMap (fun circuit =>
    vk.lookupChunks.zipIdx.flatMap (lookupMessages circuit)) ++
  (range circuits).flatMap fun circuit => (range vk.cs.trashcans.length).map
    fun argument => Message.evaluation (.trash circuit argument) 0))

/-- Everything `create_proof` writes before the multi-open argument. -/
def proofMessages : List Message :=
  traceMessages vk circuits ++ (quotientMessages vk ++ ([.challenge .x] ++
    (((range circuits).flatMap (instanceMessages vk nbCommittedInstances) ++
      ((range circuits).flatMap (adviceEvalMessages vk) ++ fixedMessages vk)) ++
      argumentMessages vk circuits)))

end Messages

/-! ### The prover appends them -/

section Writing

variable {Scalar : Type} {vk : VerifyingKey Scalar}

variable {Input : Type}

theorem accepts_choice (chosen : Input → Prop) [DecidablePred chosen] (entry : Input → Message)
    (inputs : List Input) :
    Accepts (forM inputs fun input => if chosen input then append (entry input) else pure () :
        Prover Unit) True ()
      (inputs.flatMap fun input => if chosen input then [entry input] else []) := by
  have loop : Accepts (forM inputs fun input =>
      if chosen input then append (entry input) else pure () : Prover Unit)
      (∀ input ∈ inputs, True) ()
      (inputs.flatMap fun input => if chosen input then [entry input] else []) := by
    apply accepts_for_each
    intro input
    by_cases holds : chosen input
    · simp only [holds, if_true]
      exact accepts_append _
    · simp only [holds, if_false]
      exact accepts_pure ()
  exact loop.congr (by simp) rfl rfl

theorem accepts_nested {Outer Inner : Type} (inner : Outer → List Inner)
    (entry : Outer → Inner → Message) (outers : List Outer) :
    Accepts (forM outers fun outer => forM (inner outer) fun input =>
        append (entry outer input) : Prover Unit) True ()
      (outers.flatMap fun outer => (inner outer).map (entry outer)) := by
  have loop : Accepts (forM outers fun outer => forM (inner outer) fun input =>
      append (entry outer input) : Prover Unit) (∀ outer ∈ outers, True) ()
      (outers.flatMap fun outer => (inner outer).map (entry outer)) :=
    accepts_for_each _ _ _ (fun outer => accepts_append_each (entry outer) (inner outer)) outers
  exact loop.congr (by simp) rfl rfl

theorem accepts_for_all {body : Input → Prover Unit} {messages : Input → List Message}
    (accepts : ∀ input, Accepts (body input) True () (messages input)) (inputs : List Input) :
    Accepts (forM inputs body) True () (inputs.flatMap messages) := by
  have loop : Accepts (forM inputs body) (∀ input ∈ inputs, True) () (inputs.flatMap messages) :=
    accepts_for_each _ _ _ accepts inputs
  exact loop.congr (by simp) rfl rfl

theorem filter_map_flat_map (chosen : Input → Option Nat) (entry : Nat → Message)
    (inputs : List Input) :
    (inputs.filterMap chosen).map entry =
      inputs.flatMap fun input => ((chosen input).map entry).toList := by
  induction inputs with
  | nil => rfl
  | cons input inputs ih =>
    rw [flatMap_cons, ← ih, filterMap_cons]
    cases chosen input <;> rfl

theorem phase_advice_eq (currentPhase circuit : Nat) :
    (vk.cs.adviceColumnPhase.zipIdx.filterMap fun (phase, column) =>
      if currentPhase = phase then some column else none).map
        (fun column => Message.commitment (.advice circuit column)) =
      phaseAdvice vk currentPhase circuit := by
  rw [filter_map_flat_map]
  unfold phaseAdvice
  apply flatMap_congr
  rintro ⟨phase, column⟩ mem
  by_cases same : currentPhase = phase <;> simp [same]

theorem accepts_parse_advices (circuits : Nat) :
    Accepts (parseAdvices vk circuits) True () (vk.cs.phases.flatMap (phaseMessages vk circuits)) := by
  unfold parseAdvices
  apply accepts_for_all
  intro currentPhase
  have advice := accepts_nested (fun _ => vk.cs.adviceColumnPhase.zipIdx.filterMap
    fun (phase, column) => if currentPhase = phase then some column else none)
    (fun circuit column => .commitment (.advice circuit column)) (range circuits)
  simp only [phase_advice_eq] at advice
  have challenges := accepts_choice (fun entry : Nat × Nat => currentPhase = entry.1)
    (fun entry => .challenge (.user entry.2)) vk.cs.challengePhase.zipIdx
  exact advice.bind_always challenges

theorem accepts_commit_permutation (circuit : Nat) :
    Accepts (commitPermutation vk circuit) True ()
      ((range vk.permutationSets.length).map fun set =>
        .commitment (.permutationProduct circuit set)) := by
  have pos : 0 < vk.csDegree - 2 := by
    have bound := ConstraintSystem.degree_bound _ vk.degree_cached
    omega
  have sameCount : (chunks (vk.csDegree - 2) (range vk.cs.permutationColumns.length)).length =
      vk.permutationSets.length := by
    rw [VerifyingKey.permutationSets, chunks_length _ _ pos, chunks_length _ _ pos, length_range]
  have loop := @accepts_append_each Message Error _ (fun (entry : (List AnyColumn × List Nat) × Nat) =>
    .commitment (.permutationProduct circuit entry.2)) (vk.permutationSets.zip
      (chunks (vk.csDegree - 2) (range vk.cs.permutationColumns.length))).zipIdx
  apply loop.congr Iff.rfl rfl
  have indices : (vk.permutationSets.zip (chunks (vk.csDegree - 2)
      (range vk.cs.permutationColumns.length))).zipIdx.map (·.2) =
        range vk.permutationSets.length := by
    rw [zipIdx_map_snd, length_zip, sameCount, Nat.min_self, range_eq_range']
  rw [← indices, map_map]
  rfl

theorem accepts_commit_logderivative (circuit : Nat) (lookup : Nat × Nat) :
    Accepts (commitLogderivative circuit lookup) True ()
      (logderivativeMessages circuit lookup) := by
  unfold commitLogderivative logderivativeMessages
  exact (accepts_append_each _ _).bind_always (accepts_append _)

theorem prover_lookup_chunks_eq : proverLookupChunks vk = some vk.lookupChunks := by
  unfold proverLookupChunks
  rw [vk.degree_cached]
  exact vk.chunks_cached

theorem accepts_compute_trace (circuits : Nat) :
    Accepts (computeTrace vk circuits) True () (traceMessages vk circuits) := by
  unfold computeTrace
  rw [prover_lookup_chunks_eq]
  exact (accepts_pure vk.lookupChunks).bind_always ((accepts_parse_advices circuits).bind_always
    ((accepts_append _).bind_always ((accepts_nested _ _ _).bind_always
    ((accepts_append _).bind_always ((accepts_append _).bind_always
    ((accepts_for_all accepts_commit_permutation _).bind_always
    ((accepts_for_all (fun circuit => accepts_for_all
      (accepts_commit_logderivative circuit) _) _).bind_always
    ((accepts_append _).bind_always ((accepts_nested _ _ _).bind_always
    (accepts_append _))))))))))

theorem accepts_write_evals (circuits nbCommittedInstances : Nat) :
    Accepts (writeEvals vk circuits nbCommittedInstances) True ()
      ((range circuits).flatMap (instanceMessages vk nbCommittedInstances) ++
        ((range circuits).flatMap (adviceEvalMessages vk) ++ fixedMessages vk)) := by
  unfold writeEvals
  have fixed : Accepts (forM vk.cs.fixedQueries fun query =>
      if vk.cs.hasSimpleSelectorCol query.column then pure ()
      else append (.evaluation (.fixed query.column) query.rotation) : Prover Unit) True ()
      (fixedMessages vk) := by
    apply accepts_for_all
    intro query
    cases vk.cs.hasSimpleSelectorCol query.column with
    | true => exact accepts_pure ()
    | false => exact accepts_append _
  exact (accepts_for_all (fun circuit => accepts_choice _ _ _) _).bind_always
    ((accepts_nested _ _ _).bind_always fixed)

theorem accepts_evaluate_permutation (circuit set remaining : Nat) :
    Accepts (PlonkProver.evaluatePermutation vk circuit set remaining) True ()
      (permutationMessages vk circuit set remaining) := by
  induction remaining generalizing set with
  | zero => exact accepts_pure ()
  | succ remaining ih =>
    unfold PlonkProver.evaluatePermutation permutationMessages
    have last : Accepts (if remaining > 0 then
        append (.evaluation (.permutationProduct circuit set) vk.rotationLast)
        else pure () : Prover Unit) True ()
        (if remaining > 0 then [.evaluation (.permutationProduct circuit set) vk.rotationLast]
          else []) := by
      split_ifs with more
      · exact accepts_append _
      · exact accepts_pure ()
    exact (accepts_append _).bind_always ((accepts_append _).bind_always
      (last.bind_always (ih (set + 1))))

theorem accepts_evaluate_lookup (circuit : Nat) (lookup : Nat × Nat) :
    Accepts (PlonkProver.evaluateLookup circuit lookup) True () (lookupMessages circuit lookup) := by
  unfold PlonkProver.evaluateLookup lookupMessages
  exact (accepts_append _).bind_always ((accepts_append_each _ _).bind_always
    ((accepts_append _).bind_always (accepts_append _)))

theorem quotient_limb_count (domain : Domain vk.csDegree) :
    min domain.extendedLen ((domain.n - 1) * (vk.csDegree - 1)) / (domain.n - 1) =
      vk.csDegree - 1 := by
  rw [Nat.min_eq_right domain.extended_fits]
  exact Nat.mul_div_cancel_left _ (Nat.sub_pos_of_lt domain.twoRows)

theorem accepts_compute_h_poly (domain : Domain vk.csDegree) (gMonomialSize : Nat) :
    ∃ condition, Accepts (computeHPoly vk domain gMonomialSize) condition ()
      (quotientMessages vk) := by
  have degree := ConstraintSystem.degree_bound _ vk.degree_cached
  unfold computeHPoly quotientMessages VerifyingKey.nbQuotientComs
  cases vk.singleHCommitment with
  | true => exact ⟨_, (accepts_append _).guard⟩
  | false =>
    dsimp only
    rw [quotient_limb_count]
    have limbs : Accepts (forM (range (vk.csDegree - 1)) fun limb =>
        append (.commitment (.quotientLimb limb)) : Prover Unit) True ()
        ((range (vk.csDegree - 1)).map fun limb => .commitment (.quotientLimb limb)) :=
      accepts_append_each _ _
    exact ⟨_, limbs.guard⟩

theorem accepts_finalise_proof (domain : Domain vk.csDegree)
    (circuits nbCommittedInstances gMonomialSize : Nat) : ∃ condition,
    Accepts (finaliseProof vk domain circuits nbCommittedInstances gMonomialSize) condition ()
      (quotientMessages vk ++ ([.challenge .x] ++
        (((range circuits).flatMap (instanceMessages vk nbCommittedInstances) ++
          ((range circuits).flatMap (adviceEvalMessages vk) ++ fixedMessages vk)) ++
          argumentMessages vk circuits))) := by
  rcases accepts_compute_h_poly domain gMonomialSize with ⟨condition, quotient⟩
  refine ⟨condition ∧ True, ?_⟩
  unfold finaliseProof argumentMessages
  exact quotient.bind ((accepts_append _).bind_always
    ((accepts_write_evals circuits nbCommittedInstances).bind_always
    ((accepts_append_each _ _).bind_always
    ((accepts_for_all (fun circuit => accepts_evaluate_permutation circuit 0 _) _).bind_always
    ((accepts_for_all (fun circuit => accepts_for_all
      (accepts_evaluate_lookup circuit) _) _).bind_always (accepts_nested _ _ _))))))

theorem create_proof_messages {Value : Type} {domain : Domain vk.csDegree}
    {circuits nbCommittedInstances gMonomialSize : Nat} {instances : List (List (List Value))}
    {messages : List Message}
    (proved : createProof vk domain circuits nbCommittedInstances gMonomialSize instances [] =
      .ok ((), messages)) :
    circuits = instances.length ∧
      (∀ columns ∈ instances, columns.length = vk.numInstanceColumns ∧
        nbCommittedInstances ≤ columns.length) ∧
      messages = proofMessages vk circuits nbCommittedInstances := by
  rcases accepts_finalise_proof domain circuits nbCommittedInstances gMonomialSize with
    ⟨condition, final⟩
  have body : Accepts (computeTrace vk circuits >>= fun _ =>
      finaliseProof vk domain circuits nbCommittedInstances gMonomialSize) (True ∧ condition) ()
      (proofMessages vk circuits nbCommittedInstances) :=
    (accepts_compute_trace circuits).bind final
  unfold createProof at proved
  have accepted := body.guard.guard.guard.inspect [] _ proved
  have outcome := body.guard.guard.guard.outcome proved
  refine ⟨not_not.mp accepted.1, ?_, ?_⟩
  · intro columns mem
    have shaped := not_exists.mp accepted.2.1 columns
    simp only [mem, true_and, not_or, not_not, Nat.not_lt] at shaped
    exact shaped
  · exact (Prod.mk.inj outcome).2

end Writing

/-! ### The verifier reads them -/

inductive Value where
  | evaluation (cell : Cell) (at_ : Int)
  | challenge (name : ChallengeName)
  | computed
  deriving DecidableEq, Repr

instance : Inhabited Cell := ⟨.linearization⟩

instance : Inhabited Value := ⟨.computed⟩

def readCell : Reader (List Message) Cell
  | .commitment cell :: rest => some (cell, rest)
  | _ => none

def readValue : Reader (List Message) Value
  | .evaluation cell at_ :: rest => some (.evaluation cell at_, rest)
  | _ => none

/-- The transcript of a verifier that receives the messages of the prover. A
challenge squeezed elsewhere than by the prover has no name. -/
def proofTranscript : Transcript (List Message) Cell Value where
  commonScalar := fun _ messages => messages
  commonCommitment := fun _ messages => messages
  readCommitment := readCell
  readScalar := readValue
  squeezeChallenge := fun messages => match messages with
    | .challenge name :: rest => (.challenge name, rest)
    | messages => (.computed, messages)

def symbolArithmetic : Arithmetic Value where
  one := .computed
  fromLength := fun _ => .computed
  instanceEval := fun _ _ _ => .computed
  linearizationEval := fun _ _ => .computed

section Reading

variable (vk : VerifyingKey Value) (circuits nbCommittedInstances : Nat)

def writtenLookup (circuit : Nat) (lookup : Nat × Nat) : LookupCommitted Cell where
  multiplicities := .lookupMultiplicities circuit lookup.2
  helperPolys := (range lookup.1).map (.lookupHelper circuit lookup.2)
  accumulator := .lookupAccumulator circuit lookup.2

/-- Every commitment and challenge in the place it is named after. -/
def writtenTrace : VerifierTrace Cell Value where
  adviceCommitments := (range circuits).map fun circuit =>
    (range vk.cs.adviceColumnPhase.length).map (.advice circuit)
  lookups := (range circuits).map fun circuit =>
    vk.lookupChunks.zipIdx.map (writtenLookup circuit)
  trashcans := (range circuits).map fun circuit =>
    (range vk.cs.trashcans.length).map (.trash circuit)
  permutations := (range circuits).map fun circuit =>
    (range vk.permutationSets.length).map (.permutationProduct circuit)
  challenges := (range vk.cs.challengePhase.length).map fun index => .challenge (.user index)
  beta := .challenge .beta
  gamma := .challenge .gamma
  theta := .challenge .theta
  trashChallenge := .challenge .trash
  y := .challenge .y

/-- Every value stands for what it was written for. -/
structure UsedAsWritten (prepared : Prepared Cell Value) : Prop where
  trace : prepared.trace = writtenTrace vk circuits
  quotient : prepared.quotientLimbComs = (range vk.nbQuotientComs).map .quotientLimb
  x : prepared.x = .challenge .x
  evaluations : ∀ entry ∈ enteringEvaluations vk nbCommittedInstances prepared.evals,
    entry.eval = .evaluation entry.commitment entry.at_

variable {vk} {circuits nbCommittedInstances}

theorem reads_cell (cell : Cell) : Reads readCell [.commitment cell] cell := fun _ => rfl

theorem reads_value (cell : Cell) (at_ : Int) :
    Reads readValue [.evaluation cell at_] (.evaluation cell at_) := fun _ => rfl

theorem reads_challenge (name : ChallengeName) :
    Reads (squeezeChallenge proofTranscript) [.challenge name] (.challenge name) := fun _ => rfl

theorem reads_cells (cell : Nat → Cell) (count : Nat) :
    Reads (readCommitments proofTranscript count)
      ((range count).map fun index => .commitment (cell index))
      ((range count).map cell) := by
  rw [map_eq_flatMap]
  exact reads_loop _ fun index _ => reads_cell (cell index)

theorem reads_values {Input : Type} (value : Input → Cell × Int) (inputs : List Input) :
    Reads (readScalars proofTranscript inputs.length)
      (inputs.map fun input => .evaluation (value input).1 (value input).2)
      (inputs.map fun input => .evaluation (value input).1 (value input).2) := by
  have indexed : ∀ start, Reads ((range' start inputs.length).mapM fun _ => readValue)
      (inputs.map fun input => .evaluation (value input).1 (value input).2)
      (inputs.map fun input => .evaluation (value input).1 (value input).2) := by
    induction inputs with
    | nil => intro start; exact reads_pure []
    | cons input inputs ih =>
      intro start
      rw [length_cons, range'_succ, mapM_cons, map_cons, map_cons]
      exact (reads_value _ _).bind ((ih (start + 1)).returning _)
  unfold readScalars
  rw [range_eq_range']
  exact indexed 0

theorem reads_for_circuits {Result : Type} {body : Reader (List Message) Result}
    {messages : Nat → List Message} {result : Nat → Result}
    (reads : ∀ circuit, Reads body (messages circuit) (result circuit)) :
    Reads ((range circuits).mapM fun _ => body) ((range circuits).flatMap messages)
      ((range circuits).map result) :=
  reads_loop _ fun circuit _ => reads circuit

theorem reads_statement (committedInstances : List (List Cell))
    (instances : List (List (List Value))) :
    Reads (absorbStatement proofTranscript symbolArithmetic vk committedInstances instances)
      [] () := by
  have scalar : ∀ value, Reads (commonScalar proofTranscript value) [] () := fun _ _ => rfl
  have commitment : ∀ value, Reads (commonCommitment proofTranscript value) [] () :=
    fun _ _ => rfl
  unfold absorbStatement
  refine (scalar _).bind ?_
  refine (reads_for_each _ fun columns _ =>
    reads_for_each columns fun value _ => commitment value).bind ?_
  exact reads_for_each _ fun columns _ => reads_for_each columns fun column _ =>
    (scalar _).bind (reads_for_each column fun value _ => scalar value)

/-! The phase loop. -/

def adviceAfter (vk : VerifyingKey Value) (phases : List Nat) (circuit : Nat) : List Cell :=
  vk.cs.adviceColumnPhase.zipIdx.map fun (phase, column) =>
    if phase ∈ phases then .advice circuit column else default

def challengesAfter (vk : VerifyingKey Value) (phases : List Nat) : List Value :=
  vk.cs.challengePhase.zipIdx.map fun (phase, index) =>
    if phase ∈ phases then .challenge (.user index) else default

theorem zip_zip_idx {Left Right : Type} (left : List Left) (image : Left × Nat → Right) :
    left.zip (left.zipIdx.map image) = left.zipIdx.map fun entry => (entry.1, image entry) := by
  have first : left.zipIdx.map Prod.fst = left := zipIdx_map_fst 0 left
  calc left.zip (left.zipIdx.map image)
      = (left.zipIdx.map Prod.fst).zip (left.zipIdx.map image) := by rw [first]
    _ = left.zipIdx.map fun entry => (entry.1, image entry) := by rw [zip_map']

theorem reads_phase_entry {Result : Type} {read : Reader (List Message) Result} {message : Message}
    {value old : Result} (reads : Reads read [message] value) (phases : List Nat)
    (currentPhase phase : Nat) :
    Reads (if currentPhase = phase then read else pure (if phase ∈ phases then value else old))
      (if currentPhase = phase then [message] else [])
      (if phase ∈ phases ++ [currentPhase] then value else old) := by
  by_cases current : currentPhase = phase
  · subst current
    simpa using reads
  · have same : phase ∈ phases ++ [currentPhase] ↔ phase ∈ phases := by
      rw [mem_append, mem_singleton]
      exact or_iff_left fun other => current other.symm
    simp only [if_neg current, same]
    exact reads_pure _

theorem reads_phase (phases : List Nat) (currentPhase : Nat) :
    Reads (readPhase proofTranscript vk
        ((range circuits).map (adviceAfter vk phases), challengesAfter vk phases) currentPhase)
      (phaseMessages vk circuits currentPhase)
      ((range circuits).map (adviceAfter vk (phases ++ [currentPhase])),
        challengesAfter vk (phases ++ [currentPhase])) := by
  have circuitAdvice : ∀ circuit, Reads
      ((vk.cs.adviceColumnPhase.zip (adviceAfter vk phases circuit)).mapM
        fun (phase, commitment) =>
          if currentPhase = phase then readCell else pure commitment)
      (phaseAdvice vk currentPhase circuit)
      (adviceAfter vk (phases ++ [currentPhase]) circuit) := by
    intro circuit
    unfold adviceAfter phaseAdvice
    rw [zip_zip_idx, mapM_map]
    exact reads_loop _ fun entry _ =>
      reads_phase_entry (reads_cell (.advice circuit entry.2)) phases currentPhase entry.1
  have challenges : Reads ((vk.cs.challengePhase.zip (challengesAfter vk phases)).mapM
      fun (phase, challenge) =>
        if currentPhase = phase then squeezeChallenge proofTranscript else pure challenge)
      (phaseChallenges vk currentPhase) (challengesAfter vk (phases ++ [currentPhase])) := by
    unfold challengesAfter phaseChallenges
    rw [zip_zip_idx, mapM_map]
    exact reads_loop _ fun entry _ =>
      reads_phase_entry (reads_challenge (.user entry.2)) phases currentPhase entry.1
  unfold readPhase phaseMessages
  dsimp only
  rw [mapM_map]
  have advice := reads_loop (range circuits) fun circuit _ => circuitAdvice circuit
  exact advice.bind (challenges.returning _)

theorem phase_listed {phase : Nat} (mem : phase ∈ vk.cs.adviceColumnPhase) :
    phase ∈ vk.cs.phases :=
  mem_range.mpr (Nat.lt_succ_of_le (le_max_or mem))

variable {Entry Result : Type}

theorem range_zip_idx (entries : List Entry) (image : Nat → Result) :
    entries.zipIdx.map (fun entry => image entry.2) = (range entries.length).map image := by
  have positions : entries.zipIdx.map Prod.snd = range entries.length := by
    rw [zipIdx_map_snd, range_eq_range']
  rw [← positions, map_map]
  rfl

theorem reads_phases :
    Reads (vk.cs.phases.foldlM (readPhase proofTranscript vk)
        (replicate circuits (replicate vk.cs.adviceColumnPhase.length default),
          replicate vk.cs.challengePhase.length default))
      (vk.cs.phases.flatMap (phaseMessages vk circuits))
      ((writtenTrace vk circuits).adviceCommitments, (writtenTrace vk circuits).challenges) := by
  have loop := reads_fold (fun phases currentPhase =>
    @reads_phase vk circuits phases currentPhase) [] vk.cs.phases
  have startAdvice : (range circuits).map (adviceAfter vk []) =
      replicate circuits (replicate vk.cs.adviceColumnPhase.length default) := by
    have constant : adviceAfter vk [] = fun _ =>
        replicate vk.cs.adviceColumnPhase.length default := by
      funext circuit
      simp [adviceAfter]
    rw [constant, map_const', length_range]
  have startChallenges : challengesAfter vk [] =
      replicate vk.cs.challengePhase.length default := by
    simp [challengesAfter]
  have endAdvice : adviceAfter vk ([] ++ vk.cs.phases) = fun circuit =>
      (range vk.cs.adviceColumnPhase.length).map (.advice circuit) := by
    funext circuit
    rw [← range_zip_idx]
    apply map_congr_left
    intro entry mem
    exact if_pos (phase_listed (fst_mem_of_mem_zipIdx mem))
  have endChallenges : challengesAfter vk ([] ++ vk.cs.phases) =
      (range vk.cs.challengePhase.length).map fun index => .challenge (.user index) := by
    rw [← range_zip_idx]
    apply map_congr_left
    intro entry mem
    have allocated := vk.cs.challengePhase_allocated _ (fst_mem_of_mem_zipIdx mem)
    exact if_pos (phase_listed allocated)
  rw [startAdvice, startChallenges, endAdvice, endChallenges] at loop
  exact loop

theorem reads_lookup (circuit : Nat) (lookup : Nat × Nat) :
    Reads (readLookup proofTranscript (.lookupMultiplicities circuit lookup.2) lookup.1)
      (logderivativeMessages circuit lookup) (writtenLookup circuit lookup) := by
  exact (reads_cells _ _).bind ((reads_cell _).returning _)

theorem lookup_count : vk.cs.lookups.length = vk.lookupChunks.length :=
  map_m_length vk.chunks_cached

theorem multiplicities_zip (circuit : Nat) :
    ((range vk.cs.lookups.length).map (.lookupMultiplicities circuit)).zip vk.lookupChunks =
      vk.lookupChunks.zipIdx.map fun lookup =>
        (Cell.lookupMultiplicities circuit lookup.2, lookup.1) := by
  rw [lookup_count, ← range_zip_idx vk.lookupChunks]
  have first : vk.lookupChunks.zipIdx.map Prod.fst = vk.lookupChunks := zipIdx_map_fst 0 _
  conv_lhs => arg 2; rw [← first]
  rw [zip_map']

theorem reads_parse_trace {committedInstances : List (List Cell)}
    {instances : List (List (List Value))}
    (checked : checkInstances vk committedInstances instances = some ()) :
    Reads (parseTrace proofTranscript symbolArithmetic vk committedInstances instances)
      (traceMessages vk instances.length) (writtenTrace vk instances.length) := by
  have multiplicities := @reads_for_circuits instances.length _ _ _ _ fun circuit =>
    reads_cells (.lookupMultiplicities circuit) vk.cs.lookups.length
  have lookups : Reads
      (((range instances.length).map fun circuit =>
        (range vk.cs.lookups.length).map (Cell.lookupMultiplicities circuit)).mapM
          fun lookups => (lookups.zip vk.lookupChunks).mapM fun (multiplicities, numChunks) =>
            readLookup proofTranscript multiplicities numChunks)
      ((range instances.length).flatMap fun circuit =>
        vk.lookupChunks.zipIdx.flatMap (logderivativeMessages circuit))
      (writtenTrace vk instances.length).lookups := by
    rw [mapM_map]
    apply reads_loop
    intro circuit _
    rw [Function.comp_apply, multiplicities_zip, mapM_map]
    exact reads_loop _ fun lookup _ => reads_lookup circuit lookup
  have multiplicityMessages : (fun circuit => vk.lookupChunks.zipIdx.map fun lookup =>
      Message.commitment (.lookupMultiplicities circuit lookup.2)) = fun circuit =>
        (range vk.cs.lookups.length).map fun lookup =>
          .commitment (.lookupMultiplicities circuit lookup) := by
    funext circuit
    rw [lookup_count, ← range_zip_idx]
  unfold parseTrace traceMessages
  rw [multiplicityMessages]
  refine (reads_unwrap checked).bind ?_
  refine (reads_statement _ _).bind ?_
  refine reads_phases.bind ?_
  refine (reads_challenge .theta).bind ?_
  refine multiplicities.bind ?_
  refine (reads_challenge .beta).bind ?_
  refine (reads_challenge .gamma).bind ?_
  refine (reads_for_circuits fun circuit => reads_cells _ _).bind ?_
  refine lookups.bind ?_
  refine (reads_challenge .trash).bind ?_
  refine (reads_for_circuits fun circuit => reads_cells _ _).bind ?_
  exact (reads_challenge .y).returning _

/-! The evaluations. -/

variable (vk) in
/-- The sets of the permutation argument from `set` on, as they were written. -/
def writtenSets (circuit : Nat) : Nat → Nat → List (PermutationEvaluated Value)
  | _, 0 => []
  | set, remaining + 1 =>
    { productEval := .evaluation (.permutationProduct circuit set) 0
      productNextEval := .evaluation (.permutationProduct circuit set) 1
      productLastEval := if remaining > 0 then
        some (.evaluation (.permutationProduct circuit set) vk.rotationLast) else none } ::
      writtenSets circuit (set + 1) remaining

def writtenLookupEvals (circuit : Nat) (lookup : Nat × Nat) : LookupEvaluated Value where
  multiplicitiesEval := .evaluation (.lookupMultiplicities circuit lookup.2) 0
  helperEvals := (range lookup.1).map fun chunk =>
    .evaluation (.lookupHelper circuit lookup.2 chunk) 0
  accumulatorEval := .evaluation (.lookupAccumulator circuit lookup.2) 0
  accumulatorNextEval := .evaluation (.lookupAccumulator circuit lookup.2) 1

variable (vk circuits) in
def writtenArguments : ArgumentEvals Value where
  permutationsCommon := (range vk.cs.permutationColumns.length).map fun index =>
    .evaluation (.permutationCommon index) 0
  permutations := (range circuits).map fun circuit =>
    writtenSets vk circuit 0 vk.permutationSets.length
  lookups := (range circuits).map fun circuit =>
    vk.lookupChunks.zipIdx.map (writtenLookupEvals circuit)
  trashcans := (range circuits).map fun circuit =>
    (range vk.cs.trashcans.length).map fun argument => .evaluation (.trash circuit argument) 0

variable (vk circuits nbCommittedInstances) in
/-- Every evaluation in the place of the polynomial and rotation it was written for. -/
def writtenEvals : Evaluations Value where
  fixedEvals := vk.cs.fixedQueries.map fun query =>
    if vk.cs.hasSimpleSelectorCol query.column then .computed
    else .evaluation (.fixed query.column) query.rotation
  instanceEvals := (range circuits).map fun circuit => vk.cs.instanceQueries.map fun query =>
    if query.column < nbCommittedInstances then
      .evaluation (.instance circuit query.column) query.rotation
    else .computed
  adviceEvals := (range circuits).map fun circuit => vk.cs.adviceQueries.map fun query =>
    .evaluation (.advice circuit query.column) query.rotation
  permutations := (writtenArguments vk circuits).permutations
  lookups := (writtenArguments vk circuits).lookups
  trashcans := (writtenArguments vk circuits).trashcans
  permutationsCommon := (writtenArguments vk circuits).permutationsCommon

theorem reads_evaluate_permutation (circuit set : Nat) (products : List Cell) :
    Reads (PlonkVerifier.evaluatePermutation proofTranscript products)
      (permutationMessages vk circuit set products.length)
      (writtenSets vk circuit set products.length) := by
  induction products generalizing set with
  | nil => exact reads_pure []
  | cons product remaining ih =>
    rw [length_cons]
    unfold PlonkVerifier.evaluatePermutation permutationMessages writtenSets
    have last : Reads (readLastEval proofTranscript remaining)
        (if remaining.length > 0 then
          [.evaluation (.permutationProduct circuit set) vk.rotationLast] else [])
        (if remaining.length > 0 then
          some (.evaluation (.permutationProduct circuit set) vk.rotationLast) else none) := by
      unfold readLastEval
      split_ifs with more
      · rw [← bind_pure_comp]
        exact (reads_value _ _).returning some
      · exact reads_pure none
    exact (reads_value _ _).bind ((reads_value _ _).bind
      (last.bind ((ih (set + 1)).returning _)))

theorem reads_range_values (value : Nat → Cell × Int) (count : Nat) :
    Reads (readScalars proofTranscript count)
      ((range count).map fun index => .evaluation (value index).1 (value index).2)
      ((range count).map fun index => .evaluation (value index).1 (value index).2) := by
  have reads := reads_values value (range count)
  rwa [length_range] at reads

theorem reads_evaluate_lookup (circuit : Nat) (lookup : Nat × Nat) :
    Reads (PlonkVerifier.evaluateLookup proofTranscript (writtenLookup circuit lookup))
      (lookupMessages circuit lookup) (writtenLookupEvals circuit lookup) := by
  have helpers := reads_range_values (fun chunk => (.lookupHelper circuit lookup.2 chunk, 0))
    lookup.1
  have count : (writtenLookup circuit lookup).helperPolys.length = lookup.1 := by
    simp [writtenLookup]
  unfold PlonkVerifier.evaluateLookup lookupMessages
  rw [count]
  exact (reads_value _ _).bind (helpers.bind ((reads_value _ _).bind
    ((reads_value _ _).returning _)))

theorem reads_arguments :
    Reads (readArgumentEvals proofTranscript vk (writtenTrace vk circuits))
      (argumentMessages vk circuits) (writtenArguments vk circuits) := by
  have common := reads_range_values (fun index => (.permutationCommon index, 0))
    vk.cs.permutationColumns.length
  have permutations : Reads ((writtenTrace vk circuits).permutations.mapM
      (PlonkVerifier.evaluatePermutation proofTranscript))
      ((range circuits).flatMap fun circuit =>
        permutationMessages vk circuit 0 vk.permutationSets.length)
      (writtenArguments vk circuits).permutations := by
    unfold writtenTrace
    rw [mapM_map]
    apply reads_loop
    intro circuit _
    have sets := @reads_evaluate_permutation vk circuit 0
      ((range vk.permutationSets.length).map (.permutationProduct circuit))
    rwa [length_map, length_range] at sets
  have lookups : Reads ((writtenTrace vk circuits).lookups.mapM fun lookups =>
      lookups.mapM (PlonkVerifier.evaluateLookup proofTranscript))
      ((range circuits).flatMap fun circuit =>
        vk.lookupChunks.zipIdx.flatMap (lookupMessages circuit))
      (writtenArguments vk circuits).lookups := by
    unfold writtenTrace
    rw [mapM_map]
    apply reads_loop
    intro circuit _
    rw [Function.comp_apply, mapM_map]
    exact reads_loop _ fun lookup _ => reads_evaluate_lookup circuit lookup
  have trashcans : Reads ((writtenTrace vk circuits).trashcans.mapM fun trashcans =>
      trashcans.mapM fun _ => readValue)
      ((range circuits).flatMap fun circuit => (range vk.cs.trashcans.length).map
        fun argument => .evaluation (.trash circuit argument) 0)
      (writtenArguments vk circuits).trashcans := by
    unfold writtenTrace
    rw [mapM_map]
    apply reads_loop
    intro circuit _
    rw [Function.comp_apply, mapM_map, map_eq_flatMap]
    exact reads_loop _ fun argument _ => reads_value (.trash circuit argument) 0
  exact common.bind (permutations.bind (lookups.bind (trashcans.returning _)))

/-! The fixed evaluations. -/

variable (vk) in
def openedFixedQueries : List QueryKey :=
  vk.cs.fixedQueries.filter fun query => ! vk.cs.hasSimpleSelectorCol query.column

theorem insertion_loop (cs : ConstraintSystem) (arithmetic : Arithmetic Value)
    (value : QueryKey → Value) (queries : List QueryKey) (processed : List Value) :
    (queries.zipIdx processed.length).foldlM (fun evals (query, index) =>
        if cs.hasSimpleSelectorCol query.column then
          if index ≤ evals.length then some (evals.insertIdx index arithmetic.one) else none
        else some evals)
      (processed ++ (queries.filter fun query =>
        ! cs.hasSimpleSelectorCol query.column).map value) =
      some (processed ++ queries.map fun query =>
        if cs.hasSimpleSelectorCol query.column then arithmetic.one else value query) := by
  induction queries generalizing processed with
  | nil => simp
  | cons query queries ih =>
    rw [zipIdx_cons, foldlM_cons]
    cases simple : cs.hasSimpleSelectorCol query.column with
    | true =>
      have rest := ih (processed ++ [arithmetic.one])
      rw [length_append, length_singleton] at rest
      simpa [simple, insert_behind_prefix] using rest
    | false =>
      have rest := ih (processed ++ [value query])
      rw [length_append, length_singleton] at rest
      simpa [simple] using rest

theorem fixed_messages_eq : fixedMessages vk = (openedFixedQueries vk).map fun query =>
    .evaluation (.fixed query.column) query.rotation := by
  unfold fixedMessages openedFixedQueries
  induction vk.cs.fixedQueries with
  | nil => rfl
  | cons query queries ih =>
    rw [flatMap_cons, ih, filter_cons]
    cases vk.cs.hasSimpleSelectorCol query.column <;> rfl

variable (vk) in
def FixedReadsMatch : Prop := (openedFixedQueries vk).length = fixedReadCount vk.cs

theorem reads_fixed_evals (counted : FixedReadsMatch vk) :
    Reads (readFixedEvals proofTranscript symbolArithmetic vk) (fixedMessages vk)
      (writtenEvals vk circuits nbCommittedInstances).fixedEvals := by
  have scalars := reads_values (fun query : QueryKey => (Cell.fixed query.column, query.rotation))
    (openedFixedQueries vk)
  rw [counted] at scalars
  have inserted := insertion_loop vk.cs symbolArithmetic
    (fun query => .evaluation (.fixed query.column) query.rotation) vk.cs.fixedQueries []
  unfold readFixedEvals
  rw [fixed_messages_eq, ← append_nil ((openedFixedQueries vk).map _)]
  exact scalars.bind (reads_unwrap inserted)

theorem reads_instance_evals {x : Value} {columns : List (List Value)}
    (full : nbCommittedInstances + columns.length = vk.numInstanceColumns) (circuit : Nat) :
    Reads (readInstanceEvals proofTranscript symbolArithmetic vk nbCommittedInstances x columns)
      (instanceMessages vk nbCommittedInstances circuit)
      (vk.cs.instanceQueries.map fun query => if query.column < nbCommittedInstances then
        .evaluation (.instance circuit query.column) query.rotation else .computed) := by
  apply reads_loop
  intro query mem
  by_cases committed : query.column < nbCommittedInstances
  · simp only [if_pos committed]
    exact reads_value _ _
  · simp only [if_neg committed]
    have allocated := vk.instanceQueries_column query mem
    have inside : query.column - nbCommittedInstances < columns.length := by omega
    exact (reads_unwrap (getElem?_eq_getElem inside)).bind (reads_pure _)

/-- The column evaluations of every circuit stand in front of the fixed ones. -/
theorem reads_column_evals {x : Value} {instances : List (List (List Value))}
    (full : ∀ columns ∈ instances, nbCommittedInstances + columns.length = vk.numInstanceColumns) :
    Reads (instances.mapM
        (readInstanceEvals proofTranscript symbolArithmetic vk nbCommittedInstances x))
      ((range instances.length).flatMap (instanceMessages vk nbCommittedInstances))
      (writtenEvals vk instances.length nbCommittedInstances).instanceEvals := by
  unfold writtenEvals
  dsimp only
  have indexed : ∀ start, Reads (instances.mapM
      (readInstanceEvals proofTranscript symbolArithmetic vk nbCommittedInstances x))
      ((range' start instances.length).flatMap (instanceMessages vk nbCommittedInstances))
      ((range' start instances.length).map fun circuit => vk.cs.instanceQueries.map
        fun query => if query.column < nbCommittedInstances then
          .evaluation (.instance circuit query.column) query.rotation else .computed) := by
    induction instances with
    | nil => intro start; exact reads_pure []
    | cons columns instances ih =>
      intro start
      have first := full columns mem_cons_self
      have rest := ih (forall_mem_cons.mp full).2
        (start + 1)
      rw [mapM_cons, length_cons, range'_succ, flatMap_cons, map_cons]
      exact (reads_instance_evals first start).bind (rest.returning _)
  rw [range_eq_range']
  exact indexed 0

theorem reads_advice_evals :
    Reads ((range circuits).mapM fun _ =>
        readScalars proofTranscript vk.cs.adviceQueries.length)
      ((range circuits).flatMap (adviceEvalMessages vk))
      (writtenEvals vk circuits nbCommittedInstances).adviceEvals :=
  reads_for_circuits fun circuit =>
    reads_values (fun query : QueryKey => (Cell.advice circuit query.column, query.rotation))
      vk.cs.adviceQueries

theorem reads_evaluations (counted : FixedReadsMatch vk) {instances : List (List (List Value))}
    (full : ∀ columns ∈ instances, nbCommittedInstances + columns.length = vk.numInstanceColumns) :
    Reads (readEvaluations proofTranscript symbolArithmetic vk nbCommittedInstances instances
        (writtenTrace vk instances.length))
      (quotientMessages vk ++ ([.challenge .x] ++
        ((range instances.length).flatMap (instanceMessages vk nbCommittedInstances) ++
          ((range instances.length).flatMap (adviceEvalMessages vk) ++ (fixedMessages vk ++
          argumentMessages vk instances.length)))))
      ((range vk.nbQuotientComs).map .quotientLimb, .challenge .x,
        writtenEvals vk instances.length nbCommittedInstances) := by
  unfold readEvaluations
  refine (reads_cells _ _).bind ?_
  refine (reads_challenge .x).bind ?_
  refine (reads_column_evals full).bind ?_
  refine (@reads_advice_evals vk instances.length nbCommittedInstances).bind ?_
  refine (@reads_fixed_evals vk instances.length nbCommittedInstances counted).bind ?_
  exact reads_arguments.returning _

/-! Every evaluation that enters the identities stands for itself. -/

theorem written_sets_entry (circuit start count : Nat) {index : Nat}
    {set : PermutationEvaluated Value}
    (found : (writtenSets vk circuit start count)[index]? = some set) :
    set.productEval = .evaluation (.permutationProduct circuit (start + index)) 0 ∧
      set.productNextEval = .evaluation (.permutationProduct circuit (start + index)) 1 ∧
      ∀ eval ∈ set.productLastEval,
        eval = .evaluation (.permutationProduct circuit (start + index)) vk.rotationLast := by
  induction count generalizing start index with
  | zero => simp [writtenSets] at found
  | succ count ih =>
    unfold writtenSets at found
    cases index with
    | zero =>
      rw [getElem?_cons_zero, Option.some.injEq] at found
      subst found
      refine ⟨rfl, rfl, ?_⟩
      intro eval mem
      dsimp only at mem
      split_ifs at mem
      · exact (Option.mem_some_iff.mp mem).symm
      · cases mem
    | succ index =>
      rw [getElem?_cons_succ] at found
      have rest := ih (start + 1) found
      rwa [Nat.add_assoc, Nat.add_comm 1 index] at rest

variable {image : Entry → Result}

theorem map_zip_idx_entry {entries : List Entry} {entry : Result × Nat}
    (mem : entry ∈ (entries.map image).zipIdx) :
    ∃ source, entries[entry.2]? = some source ∧ entry.1 = image source := by
  have found := mem_zipIdx_iff_getElem?.mp mem
  rw [getElem?_map, Option.map_eq_some_iff] at found
  rcases found with ⟨source, present, same⟩
  exact ⟨source, present, same.symm⟩

theorem zip_map_entry {entries : List Entry} {entry : Entry × Result}
    (mem : entry ∈ entries.zip (entries.map image)) :
    entry.2 = image entry.1 := by
  rcases mem_iff_getElem?.mp mem with ⟨index, found⟩
  rcases getElem?_zip_eq_some.mp found with ⟨inLeft, inRight⟩
  rw [getElem?_map, inLeft, Option.map_some, Option.some.injEq] at inRight
  exact inRight.symm

theorem range_entry {count index source : Nat}
    (found : (range count)[index]? = some source) : source = index := by
  rcases List.getElem?_eq_some_iff.mp found with ⟨inside, same⟩
  rw [getElem_range] at same
  exact same.symm

variable {proofEvals : ProofEvals Value}

theorem written_proof_entry {proof : Nat}
    (found : (identityProofs (writtenEvals vk circuits nbCommittedInstances))[proof]? =
      some proofEvals) :
    proofEvals = {
      instanceEvals := vk.cs.instanceQueries.map fun query =>
        if query.column < nbCommittedInstances then
          .evaluation (.instance proof query.column) query.rotation else .computed
      adviceEvals := vk.cs.adviceQueries.map fun query =>
        .evaluation (.advice proof query.column) query.rotation
      permutation := writtenSets vk proof 0 vk.permutationSets.length
      lookups := vk.lookupChunks.zipIdx.map (writtenLookupEvals proof)
      trash := (range vk.cs.trashcans.length).map fun argument =>
        .evaluation (.trash proof argument) 0 } := by
  have inside : proof < circuits := by
    have bound := (List.getElem?_eq_some_iff.mp found).1
    simpa [identityProofs, writtenEvals, writtenArguments] using bound
  simp only [identityProofs, writtenEvals, writtenArguments, zip_map', map_map, getElem?_map,
    getElem?_range inside, Option.map_some, Function.comp_apply, Option.some.injEq] at found
  exact found.symm

variable {entry : VerifierQuery Value}

theorem lookup_entry_written (circuit index chunks : Nat)
    (mem : entry ∈ lookupQueries circuit index (writtenLookupEvals circuit (chunks, index))) :
    entry.eval = .evaluation entry.commitment entry.at_ := by
  simp only [lookupQueries, writtenLookupEvals, mem_append, mem_cons, mem_map,
    not_mem_nil, or_false] at mem
  rcases mem with (rfl | ⟨⟨eval, chunk⟩, indexed, rfl⟩) | (rfl | rfl)
  · rfl
  · rcases map_zip_idx_entry indexed with ⟨source, present, same⟩
    dsimp only at present same ⊢
    rw [same, range_entry present]
  · rfl
  · rfl

theorem proof_entry_written {proof : Nat}
    (found : (identityProofs (writtenEvals vk circuits nbCommittedInstances))[proof]? =
      some proofEvals) (mem : entry ∈ proofEntries vk nbCommittedInstances proof proofEvals) :
    entry.eval = .evaluation entry.commitment entry.at_ := by
  rw [written_proof_entry found] at mem
  simp only [proofEntries, mem_append] at mem
  rcases mem with (((inAdvice | inInstances) | inPermutation) | inLookups) | inTrash
  · rcases mem_map.mp inAdvice with ⟨pair, zipped, rfl⟩
    exact zip_map_entry zipped
  · rcases mem_map.mp inInstances with ⟨pair, kept, rfl⟩
    rcases mem_filter.mp kept with ⟨zipped, committed⟩
    dsimp only
    rw [zip_map_entry zipped, if_pos (of_decide_eq_true committed)]
  · rcases mem_flatMap.mp inPermutation with ⟨⟨set, index⟩, indexed, claimed⟩
    have known := written_sets_entry proof 0 _ (mem_zipIdx_iff_getElem?.mp indexed)
    rw [Nat.zero_add] at known
    simp only [mem_append, mem_cons, mem_map, not_mem_nil, or_false, Option.mem_toList] at claimed
    rcases claimed with (rfl | rfl) | ⟨eval, stored, rfl⟩
    · exact known.1
    · exact known.2.1
    · exact known.2.2 eval stored
  · rcases mem_flatMap.mp inLookups with ⟨⟨lookup, index⟩, indexed, claimed⟩
    rcases map_zip_idx_entry indexed with ⟨⟨chunks, position⟩, present, same⟩
    have samePosition : position = index := by
      rw [getElem?_zipIdx] at present
      rcases Option.map_eq_some_iff.mp present with ⟨count, -, pair⟩
      have second := (Prod.mk.inj pair).2
      omega
    subst samePosition
    dsimp only at same
    subst same
    exact lookup_entry_written proof position chunks claimed
  · rcases mem_map.mp inTrash with ⟨⟨eval, index⟩, indexed, rfl⟩
    rcases map_zip_idx_entry indexed with ⟨source, present, same⟩
    dsimp only at present same ⊢
    rw [same, range_entry present]

theorem entries_written (mem : entry ∈ enteringEvaluations vk nbCommittedInstances
      (writtenEvals vk circuits nbCommittedInstances)) :
    entry.eval = .evaluation entry.commitment entry.at_ := by
  rcases mem_append.mp mem with inProofs | inShared
  · rcases mem_flatMap.mp inProofs with ⟨⟨proofEvals, proof⟩, indexed, claimed⟩
    exact proof_entry_written (mem_zipIdx_iff_getElem?.mp indexed) claimed
  · rcases mem_append.mp inShared with inFixed | inCommon
    · rcases mem_map.mp inFixed with ⟨pair, kept, rfl⟩
      rcases mem_filter.mp kept with ⟨zipped, opened⟩
      have plain : vk.cs.hasSimpleSelectorCol pair.1.column = false := by simpa using opened
      have value := zip_map_entry zipped
      dsimp only at value ⊢
      rw [value, plain]
      rfl
    · rcases mem_map.mp inCommon with ⟨⟨eval, index⟩, indexed, rfl⟩
      rcases map_zip_idx_entry indexed with ⟨source, present, same⟩
      dsimp only at present same ⊢
      rw [same, range_entry present]

/-! ### The whole run -/

section Run

variable {committedInstances : List (List Cell)} {instances : List (List (List Value))}

/-- Accepted inputs give every proof one committed part and one plain part. -/
theorem checked_columns (checked : checkInstances vk committedInstances instances = some ())
    (enough : instances.length ≤ committedInstances.length) :
    ∀ columns ∈ instances,
      (committedInstances.headD []).length + columns.length = vk.numInstanceColumns := by
  simp only [checkInstances, bind_some_iff, Option.guard_eq_some', exists_const] at checked
  rcases checked with ⟨-, sameLength, full⟩
  intro columns mem
  rcases mem_iff_getElem.mp mem with ⟨proof, inside, rfl⟩
  have committed : proof < committedInstances.length := by omega
  have zipped : (committedInstances[proof], instances[proof]) ∈
      committedInstances.zip instances := by
    rw [mem_iff_getElem?]
    exact ⟨proof, getElem?_zip_eq_some.mpr
      ⟨getElem?_eq_getElem committed, getElem?_eq_getElem inside⟩⟩
  have count := full _ zipped
  rw [sameLength _ (getElem_mem committed)] at count
  exact count

theorem reads_prepare (counted : FixedReadsMatch vk)
    (checked : checkInstances vk committedInstances instances = some ())
    (enough : instances.length ≤ committedInstances.length) : ∃ prepared,
    Reads (prepare proofTranscript symbolArithmetic vk committedInstances instances)
      (proofMessages vk instances.length (committedInstances.headD []).length) prepared ∧
    UsedAsWritten vk instances.length (committedInstances.headD []).length prepared := by
  have trace := reads_parse_trace checked
  have evaluations := reads_evaluations counted (checked_columns checked enough)
  have traceShape := ensures_parse_trace committedInstances instances _ _ _ (trace [])
  have shape := ensures_read_evaluations _ instances traceShape _ _ _ (evaluations [])
  have covered : vk.cs.fixedQueries.length ≤ (writtenEvals vk instances.length
      (committedInstances.headD []).length).fixedEvals.length := by
    simp [writtenEvals]
  rcases verifier_queries_built symbolArithmetic shape traceShape covered
    (committedInstances.headD []).length committedInstances (.challenge .x) with ⟨queries, built⟩
  refine ⟨⟨writtenTrace vk instances.length, (range vk.nbQuotientComs).map .quotientLimb,
    .challenge .x, writtenEvals vk instances.length (committedInstances.headD []).length,
    queries⟩, ?_, ?_⟩
  · unfold prepare proofMessages
    rw [append_assoc, append_assoc]
    refine trace.bind ?_
    rw [← append_nil (quotientMessages vk ++ _)]
    exact evaluations.bind ((reads_unwrap built).returning _)
  · exact {
      trace := rfl
      quotient := rfl
      x := rfl
      evaluations := fun entry mem => entries_written mem }

/-! Without matching reads the proof has another length than the verifier takes. -/

theorem consumes_value : Consumes readValue 1 := by
  intro before value after run
  cases before with
  | nil => cases run
  | cons message rest =>
    cases message with
    | evaluation cell at_ =>
      cases run
      rfl
    | commitment cell => cases run
    | challenge name => cases run

theorem consumes_scalars (count : Nat) :
    Consumes (readScalars proofTranscript count) count := by
  have loop := consumes_loop (fun _ : Nat => consumes_value) (range count)
  rw [map_const', length_range, sum_replicate_nat, Nat.mul_one] at loop
  exact loop

theorem consumes_fixed_evals :
    Consumes (readFixedEvals proofTranscript symbolArithmetic vk) (fixedReadCount vk.cs) :=
  (consumes_scalars _).bind (ensures_any _) fun _ _ => consumes_unwrap _

theorem consumes_last_eval (remaining : List Cell) :
    ∃ count, Consumes (readLastEval proofTranscript remaining) count := by
  unfold readLastEval
  split_ifs with more
  · rw [← bind_pure_comp]
    exact ⟨_, consumes_value.bind (ensures_any _) fun _ _ => consumes_pure _⟩
  · exact ⟨0, consumes_pure none⟩

theorem consumes_evaluate_permutation (products : List Cell) : ∃ count,
    Consumes (PlonkVerifier.evaluatePermutation proofTranscript products) count := by
  induction products with
  | nil => exact ⟨0, consumes_pure []⟩
  | cons product remaining ih =>
    rcases ih with ⟨later, rest⟩
    rcases consumes_last_eval remaining with ⟨count, last⟩
    unfold PlonkVerifier.evaluatePermutation
    exact ⟨_, consumes_value.bind (ensures_any _) fun _ _ =>
      consumes_value.bind (ensures_any _) fun _ _ =>
      last.bind (ensures_any _) fun _ _ =>
      rest.bind (ensures_any _) fun _ _ => consumes_pure _⟩

theorem consumes_evaluate_lookup (lookup : LookupCommitted Cell) : ∃ count,
    Consumes (PlonkVerifier.evaluateLookup proofTranscript lookup) count :=
  ⟨_, consumes_value.bind (ensures_any _) fun _ _ =>
    (consumes_scalars _).bind (ensures_any _) fun _ _ =>
    consumes_value.bind (ensures_any _) fun _ _ =>
    consumes_value.bind (ensures_any _) fun _ _ => consumes_pure _⟩

theorem consumes_arguments : Consumes
    (readArgumentEvals proofTranscript vk (writtenTrace vk circuits))
    (argumentMessages vk circuits).length := by
  choose sets setsConsume using consumes_evaluate_permutation
  choose lookups lookupsConsume using consumes_evaluate_lookup
  have consumes := (consumes_scalars vk.cs.permutationColumns.length).bind (ensures_any _)
    fun permutationsCommon _ =>
      (consumes_loop setsConsume (writtenTrace vk circuits).permutations).bind (ensures_any _)
    fun permutations _ =>
      (consumes_loop (fun group => consumes_loop lookupsConsume group)
        (writtenTrace vk circuits).lookups).bind (ensures_any _)
    fun lookups _ =>
      (consumes_loop (fun group => consumes_loop (fun _ : Cell => consumes_value) group)
        (writtenTrace vk circuits).trashcans).bind (ensures_any _)
    fun trashcans _ => consumes_pure (ArgumentEvals.mk permutationsCommon permutations lookups
      trashcans)
  have total := consumes _ _ _ (@reads_arguments vk circuits [])
  rw [append_nil, length_nil, Nat.zero_add] at total
  rw [total]
  exact consumes

theorem fixed_messages_length : (fixedMessages vk).length = (openedFixedQueries vk).length := by
  rw [fixed_messages_eq, length_map]

/-- A run that takes the whole proof has read one scalar for every opened fixed query. -/
theorem fixed_reads_match (checked : checkInstances vk committedInstances instances = some ())
    (enough : instances.length ≤ committedInstances.length) {prepared : Prepared Cell Value}
    (run : prepare proofTranscript symbolArithmetic vk committedInstances instances
      (proofMessages vk instances.length (committedInstances.headD []).length) =
        some (prepared, [])) : FixedReadsMatch vk := by
  have limbComs : Reads (readCommitments proofTranscript vk.nbQuotientComs) (quotientMessages vk)
      ((range vk.nbQuotientComs).map .quotientLimb) := reads_cells _ _
  unfold prepare proofMessages at run
  rw [(reads_parse_trace checked).resume] at run
  rcases bind_returns run with ⟨⟨limbs, x, evals⟩, middle, evaluated, rest⟩
  unfold readEvaluations at evaluated
  rw [limbComs.resume, (reads_challenge .x).resume, append_assoc,
    (reads_column_evals (checked_columns checked enough)).resume, append_assoc,
    (@reads_advice_evals vk instances.length 0).resume] at evaluated
  have last : Consumes (unwrap (verifierQueries symbolArithmetic vk
      (committedInstances.headD []).length committedInstances (writtenTrace vk instances.length)
      x evals) >>= fun queries =>
        (pure ⟨writtenTrace vk instances.length, limbs, x, evals, queries⟩ :
          Reader (List Message) (Prepared Cell Value))) (0 + 0) :=
    (consumes_unwrap _).bind (ensures_any _) fun _ _ => consumes_pure _
  have behind := last _ _ _ rest
  have taken := (consumes_fixed_evals.bind (ensures_any _) fun _ _ =>
    consumes_arguments.bind (ensures_any _) fun _ _ => consumes_pure _) _ _ _ evaluated
  rw [length_append, fixed_messages_length] at taken
  rw [length_nil] at behind
  unfold FixedReadsMatch
  omega

end Run

/-! ### Agreement -/

def committedColumns (circuits nbCommittedInstances : Nat) : List (List Cell) :=
  (range circuits).map fun circuit => (range nbCommittedInstances).map (.instance circuit)

def plainColumns (nbCommittedInstances : Nat) (instances : List (List (List Value))) :
    List (List (List Value)) := instances.map fun columns => columns.drop nbCommittedInstances

variable (vk nbCommittedInstances) in
/-- The verifier takes all messages, each value as what it was written for. -/
def FormatsAgree (instances : List (List (List Value))) (messages : List Message) : Prop :=
  ∃ prepared, prepare proofTranscript symbolArithmetic vk
    (committedColumns instances.length nbCommittedInstances)
    (plainColumns nbCommittedInstances instances) messages = some (prepared, []) ∧
      UsedAsWritten vk instances.length nbCommittedInstances prepared

variable {instances : List (List (List Value))}

theorem committed_columns_head (present : instances ≠ []) :
    ((committedColumns instances.length nbCommittedInstances).headD []).length =
      nbCommittedInstances := by
  cases instances with
  | nil => exact absurd rfl present
  | cons columns instances => simp [committedColumns, range_succ_eq_map]

theorem columns_checked (present : instances ≠ [])
    (full : ∀ columns ∈ instances, columns.length = vk.numInstanceColumns ∧
      nbCommittedInstances ≤ columns.length) :
    checkInstances vk (committedColumns instances.length nbCommittedInstances)
      (plainColumns nbCommittedInstances instances) = some () := by
  simp only [checkInstances, bind_some_iff, Option.guard_eq_some',
    exists_const, committed_columns_head present]
  refine ⟨?_, ?_, ?_⟩
  · cases instances with
    | nil => exact absurd rfl present
    | cons columns instances => simp [committedColumns, range_succ_eq_map]
  · intro columns mem
    rcases mem_map.mp mem with ⟨circuit, -, rfl⟩
    rw [length_map, length_range]
  · rintro ⟨committed, plain⟩ mem
    have parts := of_mem_zip mem
    rcases mem_map.mp parts.1 with ⟨circuit, -, rfl⟩
    rcases mem_map.mp parts.2 with ⟨columns, inInstances, rfl⟩
    have count := full columns inInstances
    dsimp only
    rw [length_map, length_range, length_drop, count.1]
    omega

theorem no_proof_refused (messages : List Message) :
    ¬FormatsAgree vk nbCommittedInstances [] messages := by
  rintro ⟨prepared, run, -⟩
  cases run

theorem formats_agree_with_matching_reads (present : instances ≠ [])
    (full : ∀ columns ∈ instances, columns.length = vk.numInstanceColumns ∧
      nbCommittedInstances ≤ columns.length) :
    FormatsAgree vk nbCommittedInstances instances
      (proofMessages vk instances.length nbCommittedInstances) ↔ FixedReadsMatch vk := by
  have checked := columns_checked present full
  have enough : (plainColumns nbCommittedInstances instances).length ≤
      (committedColumns instances.length nbCommittedInstances).length := by
    simp [plainColumns, committedColumns]
  have count : (plainColumns nbCommittedInstances instances).length = instances.length :=
    length_map ..
  constructor
  · rintro ⟨prepared, run, -⟩
    apply fixed_reads_match checked enough
    rw [committed_columns_head present, count]
    exact run
  · intro counted
    rcases reads_prepare counted checked enough with ⟨prepared, reads, used⟩
    rw [committed_columns_head present, count] at reads used
    have run := reads []
    rw [append_nil] at run
    exact ⟨prepared, run, used⟩

/-- A proof is read as it was written exactly when the fixed columns are counted right. -/
theorem proof_format_agrees_iff {domain : Domain vk.csDegree} {circuits gMonomialSize : Nat}
    {messages : List Message}
    (proved : createProof vk domain circuits nbCommittedInstances gMonomialSize instances [] =
      .ok ((), messages)) :
    FormatsAgree vk nbCommittedInstances instances messages ↔
      instances ≠ [] ∧ FixedReadsMatch vk := by
  rcases create_proof_messages proved with ⟨rfl, full, rfl⟩
  by_cases present : instances = []
  · subst present
    exact iff_of_false (no_proof_refused _) fun condition => condition.1 rfl
  · rw [formats_agree_with_matching_reads present full]
    exact (and_iff_right present).symm

end Reading

/-! ### One fixed column -/

def fixedColumnSystem (fixedQueries : List QueryKey) (nodup : fixedQueries.Nodup)
    (column : ∀ query ∈ fixedQueries, query.column < 1) : ConstraintSystem :=
  { oneColumnSystem with
    numFixedColumns := 1
    fixedQueries := fixedQueries
    fixedQueries_nodup := nodup
    fixedQueries_column := column }

def fixedColumnKey (fixedQueries : List QueryKey) (nodup : fixedQueries.Nodup)
    (column : ∀ query ∈ fixedQueries, query.column < 1) : VerifyingKey Value where
  cs := fixedColumnSystem fixedQueries nodup column
  numInstanceColumns := 0
  csDegree := 3
  lookupChunks := []
  transcriptRepr := .computed
  singleHCommitment := false
  instanceQueries_column := oneColumnKey.instanceQueries_column
  degree_cached := oneColumnKey.degree_cached
  chunks_cached := oneColumnKey.chunks_cached

def sixteenRows : Domain 3 where
  n := 16
  extendedLen := 64
  twoRows := by decide
  extended_fits := by decide

/-- A fixed column queried at the current and at the next row. -/
def rotatedKey : VerifyingKey Value := fixedColumnKey [⟨0, 0⟩, ⟨0, 1⟩] (by decide) (by decide)

theorem current_row_nodup : [(⟨0, 0⟩ : QueryKey)].Nodup := nodup_singleton _

theorem current_row_column : ∀ query ∈ [(⟨0, 0⟩ : QueryKey)], query.column < 1 := by decide

/-- A fixed column queried at the current row only. -/
def plainKey : VerifyingKey Value :=
  fixedColumnKey [⟨0, 0⟩] current_row_nodup current_row_column

theorem rotated_fixed_column_disagrees : ∃ messages,
    createProof rotatedKey sixteenRows 1 0 64 ([[]] : List (List (List Value))) [] =
      .ok ((), messages) ∧ ¬FormatsAgree rotatedKey 0 [[]] messages := by
  refine ⟨proofMessages rotatedKey 1 0, by decide +kernel, ?_⟩
  intro agree
  have counted := (formats_agree_with_matching_reads (by decide) (by decide)).mp agree
  exact absurd counted (by unfold FixedReadsMatch; decide)

theorem plain_fixed_column_agrees : FormatsAgree plainKey 0 [[]] (proofMessages plainKey 1 0) := by
  have proved : createProof plainKey sixteenRows 1 0 64 ([[]] : List (List (List Value))) [] =
      .ok ((), proofMessages plainKey 1 0) := by decide +kernel
  exact (proof_format_agrees_iff proved).mpr ⟨by decide, by unfold FixedReadsMatch; decide⟩

end Midfall.PlonkProofFormat
