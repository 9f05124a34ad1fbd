import Midfall.VerifierMemorySafety

/-!
# Proof calldata and the transcript parser

The generator plans the sections of the proof payload and the words of the
transcript buffer; the generated parser walks the payload, absorbs it and copies
it to the planned slots. Absorbed bytes pile up until a challenge is squeezed,
so the buffer must hold the longest run between two squeezes.
-/

namespace Midfall.TranscriptParser

open PlonkConstraintSystem ProtocolLowering ProtocolConsistency MemoryPlan VerifierMemory
open VerifierMemory.VerifierMemoryLayout VerifierMemorySafety
open List hiding Disjoint

/-! ### Sections of the payload -/

structure ProofSection where
  start : Nat
  itemCount : Nat
  itemBytes : Nat
  byteLen : Nat
  deriving DecidableEq, Repr

namespace ProofSection

def new (start itemCount itemBytes : Nat) : ProofSection :=
  { start, itemCount, itemBytes, byteLen := itemCount * itemBytes }

def endOffset (taken : ProofSection) : Nat := taken.start + taken.byteLen

end ProofSection

structure ProofLookupCommitmentsLayout where
  lookup : Nat
  helpers : ProofSection
  accumulator : ProofSection
  deriving DecidableEq, Repr

structure ProofCalldataLayout where
  proofCptr : Nat
  advicePhases : List ProofSection
  lookupMultiplicities : ProofSection
  permutationProducts : ProofSection
  lookups : List ProofLookupCommitmentsLayout
  trash : ProofSection
  quotientLimbs : ProofSection
  evals : ProofSection
  fCom : ProofSection
  qEvals : ProofSection
  pi : ProofSection
  quotientCommCptr : Nat
  evalCptr : Nat
  wCptr : Nat
  qEvalCptr : Nat
  proofEnd : Nat
  proofLen : Nat
  deriving DecidableEq, Repr

/-- `count` commitments of the plan's read order from `readIdx` on; drift is a panic. -/
def readCommitments (commitments : List CommitmentRead) (expected : CommitmentRead) :
    Nat → Nat → Option Nat
  | 0, readIdx => some readIdx
  | count + 1, readIdx =>
    if commitments[readIdx]? = some expected then readCommitments commitments expected count (readIdx + 1)
    else none

namespace ProofCalldataLayout

/-- Reserve one homogeneous G1 commitment section; the state is `read_idx` and the cursor. -/
def takeCommitmentSection (protocol : ProtocolPlan) (expected : CommitmentRead) (count : Nat) :
    StateT (Nat × Nat) Option ProofSection := fun state => do
  let readIdx ← readCommitments protocol.commitments expected count state.1
  let taken := ProofSection.new state.2 count g1Bytes
  return (taken, readIdx, taken.endOffset)

def takeLookup (protocol : ProtocolPlan) (entry : Nat × Nat) :
    StateT (Nat × Nat) Option ProofLookupCommitmentsLayout := do
  let helpers ← takeCommitmentSection protocol .lookupHelper entry.1
  let accumulator ← takeCommitmentSection protocol .lookupAccumulator 1
  return { lookup := entry.2, helpers, accumulator }

/-- Build the calldata layout by replaying the protocol proof-read order; the cursor is the end of the
section read last. -/
def buildSections (protocol : ProtocolPlan) (proofCptr numEvals numPointSets : Nat) :
    StateT (Nat × Nat) Option ProofCalldataLayout := do
  let advicePhases ← protocol.numUserAdvices.mapM (takeCommitmentSection protocol .advice)
  let lookupMultiplicities ← takeCommitmentSection protocol .lookupMultiplicity protocol.numLookups
  let permutationProducts ← takeCommitmentSection protocol .permutationProduct protocol.numPermutationZs
  let lookups ← protocol.lookupChunks.zipIdx.mapM (takeLookup protocol)
  let trash ← takeCommitmentSection protocol .trash protocol.numTrashcans
  let quotientLimbs ← takeCommitmentSection protocol .quotient protocol.numQuotients
  let evals := ProofSection.new quotientLimbs.endOffset numEvals wordBytes
  let fCom := ProofSection.new evals.endOffset 1 g1Bytes
  let qEvals := ProofSection.new fCom.endOffset numPointSets wordBytes
  let pi := ProofSection.new qEvals.endOffset 1 g1Bytes
  return { proofCptr, advicePhases, lookupMultiplicities, permutationProducts, lookups, trash
           quotientLimbs, evals, fCom, qEvals, pi
           quotientCommCptr := trash.endOffset
           evalCptr := quotientLimbs.endOffset
           wCptr := evals.endOffset
           qEvalCptr := fCom.endOffset
           proofEnd := pi.endOffset
           proofLen := pi.endOffset - proofCptr }

/-- The whole read order has to be consumed. -/
def fromProtocol (protocol : ProtocolPlan) (proofCptr numEvals numPointSets : Nat) :
    Option ProofCalldataLayout := do
  let built ← (buildSections protocol proofCptr numEvals numPointSets).run (0, proofCptr)
  if built.2.1 = protocol.commitments.length then some built.1 else none

variable (proof : ProofCalldataLayout)

def nonQuotientG1Count : Nat :=
  (proof.advicePhases.map (·.itemCount)).sum + proof.lookupMultiplicities.itemCount +
    proof.permutationProducts.itemCount +
    (proof.lookups.map fun lookup => lookup.helpers.itemCount + lookup.accumulator.itemCount).sum +
    proof.trash.itemCount

def commitmentG1Count : Nat := proof.nonQuotientG1Count + proof.quotientLimbs.itemCount

/-- Total number of G1 points in the Solidity-facing proof payload. -/
def totalG1Count : Nat := proof.commitmentG1Count + proof.fCom.itemCount + proof.pi.itemCount

end ProofCalldataLayout

def postSqueezeCushionWords : Nat := 32

/-- Conservative bound for the streaming transcript buffer. -/
structure TranscriptBufferLayout where
  initialRunBytes : Nat
  evalRunBytes : Nat
  totalRunBytes : Nat
  words : Nat
  deriving DecidableEq, Repr

def TranscriptBufferLayout.fromProofLayout (proof : ProofCalldataLayout) (numInstances : Nat) :
    TranscriptBufferLayout :=
  let squeezeCushion := postSqueezeCushionWords * wordBytes
  let phase1Advices := (proof.advicePhases.head?.map (·.itemCount)).getD 0
  let initialRunBytes := wordBytes + g1Bytes + wordBytes + numInstances * wordBytes +
    phase1Advices * g1Bytes + squeezeCushion
  let evalRunBytes := proof.quotientLimbs.byteLen + proof.evals.byteLen + proof.qEvals.byteLen +
    squeezeCushion
  let totalScalarBytes := proof.evals.byteLen + proof.qEvals.byteLen + postSqueezeCushionWords * wordBytes
  let totalRunBytes := wordBytes + proof.totalG1Count * g1Bytes + totalScalarBytes + squeezeCushion
  let maxBytes := max (max initialRunBytes evalRunBytes) totalRunBytes
  { initialRunBytes, evalRunBytes, totalRunBytes, words := divCeil maxBytes wordBytes }

/-! ### The parser -/

/-- The calls of the generated parser; a revert of a canonical-form check ends the run early. -/
inductive ParserStep where
  | commonWord
  | commonIdentity
  | commitment (category : CommitmentCategory)
  | evaluation
  | point (slot : ThetaSlot)
  | storeCursor
  | pointSetEvaluation
  | squeezeChallenge (index : Nat)
  | squeezeTo (slot : ThetaSlot)
  | truncate (slot : ThetaSlot)
  deriving DecidableEq, Repr

structure ParserState where
  bufLen : Nat
  proofCptr : Nat
  walk : CommitmentCategory → Nat
  evalBuf : Nat

structure ParserWrite where
  region : String
  lifetime : MemoryLifetime
  start : Nat
  len : Nat
  deriving DecidableEq, Repr

namespace ParserStep

/-- Bytes appended to the transcript buffer. -/
def absorbs : ParserStep → Nat
  | commonWord | evaluation | pointSetEvaluation => wordBytes
  | commonIdentity | commitment _ | point _ => g1Bytes
  | _ => 0

/-- Bytes of the proof payload that are read. -/
def reads : ParserStep → Nat
  | evaluation | pointSetEvaluation => wordBytes
  | commitment _ | point _ => g1Bytes
  | _ => 0

def squeezes : ParserStep → Bool
  | squeezeChallenge _ | squeezeTo _ => true
  | _ => false

def run (layout : VerifierMemoryLayout) (state : ParserState) (step : ParserStep) : ParserState where
  bufLen := if step.squeezes then layout.transcriptMptr + wordBytes else state.bufLen + step.absorbs
  proofCptr := state.proofCptr + step.reads
  walk category := state.walk category + if step = commitment category then g1Bytes else 0
  evalBuf := state.evalBuf + if step = evaluation then wordBytes else 0

/-- The memory that a call writes, and the region it is planned for. -/
def writes (layout : VerifierMemoryLayout) (state : ParserState) (step : ParserStep) : List ParserWrite :=
  let absorbed := ParserWrite.mk "transcript_buffer" (.phase .transcript) state.bufLen step.absorbs
  let reseeded := ParserWrite.mk "transcript_buffer" (.phase .transcript) layout.transcriptMptr wordBytes
  let stored := fun (slot : ThetaSlot) (len : Nat) =>
    ParserWrite.mk "theta_scalar_and_g1_slots" .permanent (layout.slotMptr slot) len
  match step with
  | commonWord | commonIdentity | pointSetEvaluation => [absorbed]
  | commitment category =>
    [absorbed, ⟨"decompressed_commitments", .permanent, state.walk category, g1Bytes⟩]
  | evaluation => [⟨"decoded_evals", .permanent, state.evalBuf, wordBytes⟩, absorbed]
  | point slot => [absorbed, stored slot g1Bytes]
  | storeCursor => [⟨"q_eval_cptr_slot", .permanent, layout.qEvalCptrMptr, wordBytes⟩]
  | squeezeChallenge index =>
    [reseeded, ⟨"challenge_slots", .permanent, layout.challengeMptr + index * wordBytes, wordBytes⟩]
  | squeezeTo slot => [reseeded, stored slot wordBytes]
  | truncate slot => [stored slot wordBytes]

end ParserStep

/-- A loop over a section, one call for each item. -/
def sectionLoop (taken : ProofSection) (step : ParserStep) : List ParserStep :=
  replicate (divCeil taken.byteLen taken.itemBytes) step

def userPhaseSteps : Nat → List (ProofSection × Nat) → List ParserStep
  | _, [] => []
  | challengeOffset, (advices, numChallenges) :: phases =>
    sectionLoop advices (.commitment .advice) ++
      (range numChallenges).map (fun j => .squeezeChallenge (challengeOffset + j)) ++
      userPhaseSteps (challengeOffset + numChallenges) phases

/-- The calls of `TranscriptProofParser.yul` as rendered for a plan. -/
def parserSteps (protocol : ProtocolPlan) (proof : ProofCalldataLayout) (numInstances : Nat)
    (truncatedChallenges : Bool) : List ParserStep := flatten [
  [.commonWord, .commonIdentity, .commonWord],
  replicate numInstances .commonWord,
  userPhaseSteps 0 (proof.advicePhases.zip protocol.numUserChallenges),
  [.squeezeTo .theta],
  if protocol.numLookups ≠ 0 then sectionLoop proof.lookupMultiplicities (.commitment .lookupM) else [],
  [.squeezeTo .beta, .squeezeTo .gamma],
  if protocol.numPermutationZs ≠ 0 then sectionLoop proof.permutationProducts (.commitment .permZ) else [],
  if protocol.lookupChunks.sum + protocol.numLookups ≠ 0 then
    proof.lookups.flatMap fun lookup =>
      sectionLoop lookup.helpers (.commitment .lookupHelper) ++ [.commitment .lookupZ]
  else [],
  [.squeezeTo .trashChallenge],
  if protocol.numTrashcans ≠ 0 then sectionLoop proof.trash (.commitment .trashcan) else [],
  [.squeezeTo .y],
  sectionLoop proof.quotientLimbs (.commitment .quotientLimb),
  [.squeezeTo .x],
  sectionLoop proof.evals .evaluation,
  [.squeezeTo .x1, .squeezeTo .x2, .point .fCom, .squeezeTo .x3],
  if truncatedChallenges then [.truncate .x3] else [],
  [.storeCursor],
  sectionLoop proof.qEvals .pointSetEvaluation,
  [.squeezeTo .x4, .point .pi]]

def initialState (layout : VerifierMemoryLayout) (proof : ProofCalldataLayout) : ParserState where
  bufLen := layout.transcriptMptr
  proofCptr := proof.proofCptr
  walk := layout.categoryBase
  evalBuf := layout.reversedEvalsMptr

def runSteps (layout : VerifierMemoryLayout) (state : ParserState) (steps : List ParserStep) : ParserState :=
  steps.foldl (ParserStep.run layout) state

/-! ### The planned sections -/

/-- A section of `count` items of `unit` bytes. -/
structure Holds (count unit : Nat) (taken : ProofSection) : Prop where
  itemCount : taken.itemCount = count
  itemBytes : taken.itemBytes = unit
  byteLen : taken.byteLen = count * unit

theorem new_holds (start count unit : Nat) : Holds count unit (.new start count unit) := ⟨rfl, rfl, rfl⟩

structure LookupHolds (entry : Nat × Nat) (lookup : ProofLookupCommitmentsLayout) : Prop where
  helpers : Holds entry.1 g1Bytes lookup.helpers
  accumulator : Holds 1 g1Bytes lookup.accumulator

theorem read_commitments {commitments before after : List CommitmentRead} {expected : CommitmentRead}
    {count : Nat} (split : commitments = before ++ (replicate count expected ++ after)) :
    readCommitments commitments expected count before.length = some (before.length + count) := by
  induction count generalizing before with
  | zero => rfl
  | succ count ih =>
    have first : commitments[before.length]? = some expected := by
      rw [split, getElem?_append_right (le_refl _), Nat.sub_self]
      rfl
    have next := @ih (before ++ [expected]) (by rw [split, replicate_succ, append_assoc]; rfl)
    rw [length_append, length_singleton] at next
    rw [readCommitments, if_pos first, next, Nat.add_right_comm, Nat.add_assoc]

section

variable {protocol : ProtocolPlan} {Result Other : Type} {program : StateT (Nat × Nat) Option Result}
  {read more : List CommitmentRead} {planned : Result → Prop} {cursor : Nat}

/-- A program that reads the next commitments of the plan, `read`, and moves the cursor past them. -/
def Takes (protocol : ProtocolPlan) (cursor : Nat) (program : StateT (Nat × Nat) Option Result)
    (read : List CommitmentRead) (planned : Result → Prop) : Prop :=
  ∀ before after, protocol.commitments = before ++ (read ++ after) → ∃ result,
    program.run (before.length, cursor) =
      some (result, before.length + read.length, cursor + read.length * g1Bytes) ∧ planned result

theorem Takes.bind {next : Result → StateT (Nat × Nat) Option Other} {then_ : Other → Prop}
    (first : Takes protocol cursor program read planned)
    (second : ∀ result, planned result →
      Takes protocol (cursor + read.length * g1Bytes) (next result) more then_) :
    Takes protocol cursor (program >>= next) (read ++ more) then_ := by
  intro before after split
  rcases first before (more ++ after) (by rw [split, append_assoc]) with ⟨result, ran, holds⟩
  rcases second result holds (before ++ read) after (by rw [split, append_assoc, append_assoc]) with
    ⟨other, continued, holds⟩
  rw [length_append] at continued
  rw [StateT.run_bind, ran, length_append, Nat.add_mul, ← Nat.add_assoc, ← Nat.add_assoc]
  exact ⟨other, continued, holds⟩

theorem takes_pure {result : Result} (holds : planned result) :
    Takes protocol cursor (pure result) [] planned :=
  fun _ _ _ => ⟨result, rfl, holds⟩

theorem takes_section (cursor : Nat) (expected : CommitmentRead) (count : Nat) :
    Takes protocol cursor (ProofCalldataLayout.takeCommitmentSection protocol expected count)
      (replicate count expected) (· = .new cursor count g1Bytes) := by
  intro before after split
  rw [length_replicate]
  refine ⟨_, ?_, rfl⟩
  change (readCommitments _ _ _ _ >>= _) = _
  rw [read_commitments split]
  rfl

theorem takes_each {Entry : Type} {program : Entry → StateT (Nat × Nat) Option Result}
    {read : Entry → List CommitmentRead} {planned : Entry → Result → Prop}
    (each : ∀ cursor entry, Takes protocol cursor (program entry) (read entry) (planned entry))
    (entries : List Entry) (cursor : Nat) :
    Takes protocol cursor (entries.mapM program) (entries.flatMap read) (Forall₂ planned entries) := by
  induction entries generalizing cursor with
  | nil => exact takes_pure .nil
  | cons entry entries ih =>
    rw [mapM_cons, flatMap_cons, ← append_nil (entries.flatMap read)]
    exact (each cursor entry).bind fun result holds =>
      (ih _).bind fun results others => takes_pure (.cons holds others)

end

theorem takes_holds {protocol : ProtocolPlan} (expected : CommitmentRead) (cursor count : Nat) :
    Takes protocol cursor (ProofCalldataLayout.takeCommitmentSection protocol expected count)
      (replicate count expected) (Holds count g1Bytes) := by
  intro before after split
  rcases takes_section cursor expected count before after split with ⟨taken, ran, rfl⟩
  exact ⟨_, ran, new_holds _ _ _⟩

theorem takes_lookup {protocol : ProtocolPlan} (cursor : Nat) (entry : Nat × Nat) :
    Takes protocol cursor (ProofCalldataLayout.takeLookup protocol entry)
      (replicate entry.1 .lookupHelper ++ [.lookupAccumulator]) (LookupHolds entry) :=
  (takes_holds _ cursor _).bind fun _ helpersHold =>
    (takes_holds _ _ 1).bind fun _ accumulatorHolds => takes_pure ⟨helpersHold, accumulatorHolds⟩

/-- What every plan of a constraint system agrees on. -/
structure Counted (protocol : ProtocolPlan) : Prop where
  reads : protocol.commitments = commitmentPlan protocol.numUserAdvices.sum protocol.numLookups
    protocol.numPermutationZs protocol.numTrashcans protocol.numQuotients protocol.lookupChunks
  phases : protocol.numUserAdvices.length = protocol.numUserChallenges.length
  lookups : protocol.numLookups = protocol.lookupChunks.length
  challenges : protocol.numUserChallenges.sum = protocol.challengeIndices.length

theorem assembled_counted (cs : ConstraintSystem) (nbCommittedInstances : Nat) (singleHCommitment : Bool)
    (csDegree : Nat) (lookupChunks : List Nat) :
    Counted (assemblePlan cs nbCommittedInstances singleHCommitment csDegree lookupChunks) where
  reads := by
    rw [show (assemblePlan cs nbCommittedInstances singleHCommitment csDegree lookupChunks).numUserAdvices.sum =
      _ from (phase_counts_sum _ _ (phases_bounded cs)).trans (advice_indices_length _ _).symm]
    rfl
  phases := (phase_counts_length _ _).trans (phase_counts_length _ _).symm
  lookups := rfl
  challenges := by
    refine (phase_counts_sum _ _ fun phase mem => ?_).trans (advice_indices_length _ _).symm
    have bounded : phase ≤ maxOr 0 cs.challengePhase := le_max_or mem
    omega

/-- The sections of a plan's payload, and its end. -/
structure Planned (protocol : ProtocolPlan) (base numEvals numPointSets : Nat)
    (proof : ProofCalldataLayout) : Prop where
  proofCptr : proof.proofCptr = base
  advicePhases : Forall₂ (Holds · g1Bytes) protocol.numUserAdvices proof.advicePhases
  lookupMultiplicities : Holds protocol.numLookups g1Bytes proof.lookupMultiplicities
  permutationProducts : Holds protocol.numPermutationZs g1Bytes proof.permutationProducts
  lookups : Forall₂ LookupHolds protocol.lookupChunks.zipIdx proof.lookups
  trash : Holds protocol.numTrashcans g1Bytes proof.trash
  quotientLimbs : Holds protocol.numQuotients g1Bytes proof.quotientLimbs
  evals : Holds numEvals wordBytes proof.evals
  fCom : Holds 1 g1Bytes proof.fCom
  qEvals : Holds numPointSets wordBytes proof.qEvals
  pi : Holds 1 g1Bytes proof.pi
  proofEnd : proof.proofEnd = base + protocol.commitments.length * g1Bytes + numEvals * wordBytes +
    1 * g1Bytes + numPointSets * wordBytes + 1 * g1Bytes

section

variable {protocol : ProtocolPlan} (counted : Counted protocol)

include counted

theorem Counted.split : protocol.commitments = [] ++
    ((protocol.numUserAdvices.flatMap (replicate · CommitmentRead.advice) ++
      (replicate protocol.numLookups CommitmentRead.lookupMultiplicity ++
        (replicate protocol.numPermutationZs CommitmentRead.permutationProduct ++
          (protocol.lookupChunks.zipIdx.flatMap (fun entry =>
              replicate entry.1 CommitmentRead.lookupHelper ++ [CommitmentRead.lookupAccumulator]) ++
            (replicate protocol.numTrashcans CommitmentRead.trash ++
              (replicate protocol.numQuotients CommitmentRead.quotient ++ [])))))) ++ []) := by
  have advices : ∀ counts : List Nat, counts.flatMap (replicate · CommitmentRead.advice) =
      replicate counts.sum .advice := by
    intro counts
    induction counts with
    | nil => rfl
    | cons count counts ih => rw [flatMap_cons, ih, sum_cons, replicate_add]
  have lookups : protocol.lookupChunks.zipIdx.flatMap (fun entry =>
      replicate entry.1 CommitmentRead.lookupHelper ++ [.lookupAccumulator]) =
        lookupCommitments protocol.lookupChunks := by
    have chunks := (zipIdx_map_fst 0 protocol.lookupChunks).symm
    conv_rhs => rw [chunks]
    rw [lookupCommitments, flatMap_map]
  rw [advices, lookups, counted.reads, commitmentPlan]
  simp only [append_assoc, nil_append, append_nil]

theorem Counted.length : protocol.commitments.length = protocol.numUserAdvices.sum + protocol.numLookups +
    protocol.numPermutationZs + (protocol.lookupChunks.sum + protocol.numLookups) + protocol.numTrashcans +
    protocol.numQuotients := by
  rw [counted.reads, commitmentPlan]
  simp only [lookupCommitments, length_append, length_replicate, length_flatMap, length_singleton, chunk_sum,
    counted.lookups, Nat.one_mul]

theorem from_protocol_planned (base numEvals numPointSets : Nat) :
    ∃ proof, ProofCalldataLayout.fromProtocol protocol base numEvals numPointSets = some proof ∧
      Planned protocol base numEvals numPointSets proof := by
  have split := counted.split
  suffices takes : Takes protocol base (ProofCalldataLayout.buildSections protocol base numEvals numPointSets) _
      (Planned protocol base numEvals numPointSets) by
    rcases takes [] [] split with ⟨proof, ran, planned⟩
    rw [nil_append, append_nil] at split
    rw [length_nil, Nat.zero_add, ← split] at ran
    refine ⟨proof, ?_, planned⟩
    rw [ProofCalldataLayout.fromProtocol, ran]
    exact if_pos rfl
  refine (takes_each (takes_holds .advice) _ _).bind fun advicePhases advicesHold => ?_
  refine (takes_holds _ _ _).bind fun lookupMultiplicities multiplicitiesHold => ?_
  refine (takes_holds _ _ _).bind fun permutationProducts productsHold => ?_
  refine (takes_each takes_lookup _ _).bind fun lookups lookupsHold => ?_
  refine (takes_holds _ _ _).bind fun trash trashHolds => ?_
  refine (takes_section _ _ _).bind fun quotientLimbs limbsIs => takes_pure ?_
  rw [limbsIs]
  refine ⟨rfl, advicesHold, multiplicitiesHold, productsHold, lookupsHold, trashHolds, new_holds _ _ _,
    new_holds _ _ _, new_holds _ _ _, new_holds _ _ _, new_holds _ _ _, ?_⟩
  rw [split]
  simp only [length_append, length_nil, length_replicate, Nat.add_mul, Nat.zero_add, Nat.add_zero,
    ← Nat.add_assoc]
  rfl

end

/-! ### Runs of the parser -/

/-- The sum of a weight over the calls. -/
def weight (measure : ParserStep → Nat) (steps : List ParserStep) : Nat := (steps.map measure).sum

/-- The weight of the calls that a plan asks for. -/
def callWeight (protocol : ProtocolPlan) (numEvals numPointSets numInstances : Nat)
    (measure : ParserStep → Nat) : Nat :=
  (numInstances + 2) * measure .commonWord + measure .commonIdentity +
    protocol.numUserAdvices.sum * measure (.commitment .advice) +
    protocol.numLookups * measure (.commitment .lookupM) +
    protocol.numPermutationZs * measure (.commitment .permZ) +
    protocol.lookupChunks.sum * measure (.commitment .lookupHelper) +
    protocol.numLookups * measure (.commitment .lookupZ) +
    protocol.numTrashcans * measure (.commitment .trashcan) +
    protocol.numQuotients * measure (.commitment .quotientLimb) + numEvals * measure .evaluation +
    measure (.point .fCom) + numPointSets * measure .pointSetEvaluation + measure (.point .pi)

theorem weight_append (measure : ParserStep → Nat) (first second : List ParserStep) :
    weight measure (first ++ second) = weight measure first + weight measure second := by
  rw [weight, map_append, sum_append]
  rfl

theorem weight_cons (measure : ParserStep → Nat) (step : ParserStep) (steps : List ParserStep) :
    weight measure (step :: steps) = measure step + weight measure steps := rfl

theorem weight_replicate (measure : ParserStep → Nat) (count : Nat) (step : ParserStep) :
    weight measure (replicate count step) = count * measure step := by
  rw [weight, map_replicate, sum_replicate, smul_eq_mul]

theorem run_steps_field {layout : VerifierMemoryLayout} {field : ParserState → Nat}
    {measure : ParserStep → Nat} {steps : List ParserStep}
    (each : ∀ state, ∀ step ∈ steps, field (step.run layout state) = field state + measure step)
    (state : ParserState) : field (runSteps layout state steps) = field state + weight measure steps := by
  induction steps generalizing state with
  | nil => rfl
  | cons step steps ih =>
    have rest := ih (fun state step mem => each state step (mem_cons_of_mem _ mem)) (step.run layout state)
    rw [each state step mem_cons_self, Nat.add_assoc] at rest
    exact rest

/-- Behind a squeeze the buffer holds the seed and what was absorbed since. -/
theorem run_steps_seeded {layout : VerifierMemoryLayout} {state : ParserState} {extra : Nat}
    (seeded : state.bufLen ≤ layout.transcriptMptr + wordBytes + extra) (steps : List ParserStep) :
    (runSteps layout state steps).bufLen ≤
      layout.transcriptMptr + wordBytes + extra + weight ParserStep.absorbs steps := by
  induction steps generalizing state extra with
  | nil => exact seeded
  | cons step steps ih =>
    have next : (step.run layout state).bufLen ≤
        layout.transcriptMptr + wordBytes + (extra + step.absorbs) := by
      dsimp only [ParserStep.run]
      split_ifs
      · omega
      · omega
    have rest := ih next
    rw [← Nat.add_assoc, Nat.add_assoc _ step.absorbs] at rest
    exact rest

theorem div_ceil_items {unit : Nat} (pos : 0 < unit) (count : Nat) : divCeil (count * unit) unit = count := by
  unfold divCeil
  rw [Nat.add_sub_assoc pos, Nat.mul_comm, Nat.mul_add_div pos, Nat.div_eq_of_lt (by omega), Nat.add_zero]

theorem Holds.loop {count unit : Nat} {taken : ProofSection} (holds : Holds count unit taken)
    (pos : 0 < unit) (step : ParserStep) : sectionLoop taken step = replicate count step := by
  rw [sectionLoop, holds.byteLen, holds.itemBytes, div_ceil_items pos]

section

variable {measure : ParserStep → Nat} (silent : ∀ step : ParserStep, step.absorbs = 0 → measure step = 0)

theorem weight_if (count : Nat) (step : ParserStep) :
    weight measure (if count ≠ 0 then replicate count step else []) = count * measure step := by
  split_ifs with positive
  · exact weight_replicate measure count step
  · rw [not_not.mp positive, Nat.zero_mul]
    rfl

theorem weight_lookups {chunks : List Nat} {start : Nat} {lookups : List ProofLookupCommitmentsLayout}
    (hold : Forall₂ LookupHolds (chunks.zipIdx start) lookups) :
    weight measure (lookups.flatMap fun lookup =>
        sectionLoop lookup.helpers (.commitment .lookupHelper) ++ [.commitment .lookupZ]) =
      chunks.sum * measure (.commitment .lookupHelper) + chunks.length * measure (.commitment .lookupZ) := by
  induction chunks generalizing start lookups with
  | nil =>
    cases hold
    simp [weight]
  | cons count chunks ih =>
    rw [zipIdx_cons] at hold
    cases hold with
    | cons first rest =>
      rw [flatMap_cons, weight_append, weight_append, ih rest, first.helpers.loop (by decide), weight_replicate,
        sum_cons, length_cons, Nat.add_mul, Nat.add_mul]
      simp only [weight, map_singleton, sum_singleton]
      omega

include silent

theorem weight_user_phases {counts : List Nat} {phases : List ProofSection}
    (hold : Forall₂ (Holds · g1Bytes) counts phases) {challenges : List Nat}
    (lengths : counts.length = challenges.length) (offset : Nat) :
    weight measure (userPhaseSteps offset (phases.zip challenges)) =
      counts.sum * measure (.commitment .advice) := by
  induction hold generalizing challenges offset with
  | nil => rw [zip_nil_left, sum_nil, Nat.zero_mul]; rfl
  | cons first rest ih =>
    cases challenges with
    | nil => cases lengths
    | cons challenge challenges =>
      have squeezes : weight measure ((range challenge).map fun j =>
          ParserStep.squeezeChallenge (offset + j)) = 0 := by
        rw [weight, map_map, sum_eq_zero_iff, forall_mem_map]
        exact fun j _ => silent _ rfl
      rw [zip_cons_cons, userPhaseSteps, weight_append, weight_append, first.loop (by decide),
        weight_replicate, squeezes, ih (Nat.succ.inj lengths), sum_cons, Nat.add_mul, Nat.add_zero]

variable {protocol : ProtocolPlan} {base numEvals numPointSets : Nat} {proof : ProofCalldataLayout}

theorem weight_parser_steps (counted : Counted protocol)
    (planned : Planned protocol base numEvals numPointSets proof) (numInstances : Nat) (truncated : Bool) :
    weight measure (parserSteps protocol proof numInstances truncated) =
      callWeight protocol numEvals numPointSets numInstances measure := by
  have lookupSteps : weight measure (if protocol.lookupChunks.sum + protocol.numLookups ≠ 0 then
      proof.lookups.flatMap fun lookup =>
        sectionLoop lookup.helpers (.commitment .lookupHelper) ++ [.commitment .lookupZ] else []) =
      protocol.lookupChunks.sum * measure (.commitment .lookupHelper) +
        protocol.numLookups * measure (.commitment .lookupZ) := by
    split_ifs with some
    · rw [weight_lookups planned.lookups, counted.lookups]
    · rw [(Nat.add_eq_zero_iff.mp (not_not.mp some)).1, (Nat.add_eq_zero_iff.mp (not_not.mp some)).2]
      simp [weight]
  have truncation : weight measure (if truncated then [.truncate .x3] else []) = 0 := by
    split_ifs
    · rw [weight, map_singleton, sum_singleton]
      exact silent _ rfl
    · rfl
  unfold parserSteps
  rw [planned.lookupMultiplicities.loop (by decide), planned.permutationProducts.loop (by decide),
    planned.trash.loop (by decide), planned.quotientLimbs.loop (by decide), planned.evals.loop (by decide),
    planned.qEvals.loop (by decide)]
  simp only [flatten_cons, flatten_nil, append_nil, weight_append, weight_if, weight_replicate, lookupSteps,
    truncation, weight_user_phases silent planned.advicePhases counted.phases]
  have none : ∀ slot, measure (.squeezeTo slot) = 0 := fun slot => silent _ rfl
  have stored : measure .storeCursor = 0 := silent _ rfl
  simp only [weight, map_cons, map_nil, sum_cons, sum_nil, none, stored, callWeight]
  ring

end

/-! ### The transcript buffer -/

/-- Advice commitments that are absorbed before the first challenge. -/
def firstRunAdvices : List Nat → List Nat → Nat
  | advices :: counts, challenges :: rest =>
    advices + if challenges = 0 then firstRunAdvices counts rest else 0
  | _, _ => 0

def firstRun (numInstances advices : Nat) : List ParserStep := flatten
  [[.commonWord, .commonIdentity, .commonWord], replicate numInstances .commonWord,
    replicate advices (.commitment .advice)]

theorem user_phases_split {counts : List Nat} {phases : List ProofSection}
    (hold : Forall₂ (Holds · g1Bytes) counts phases) {challenges : List Nat}
    (lengths : counts.length = challenges.length) (offset : Nat) (slot : ThetaSlot) (tail : List ParserStep) :
    ∃ squeezed rest, squeezed.squeezes = true ∧
      userPhaseSteps offset (phases.zip challenges) ++ .squeezeTo slot :: tail =
        replicate (firstRunAdvices counts challenges) (.commitment .advice) ++ squeezed :: rest := by
  induction hold generalizing challenges offset with
  | nil => exact ⟨.squeezeTo slot, tail, rfl, by cases challenges <;> rfl⟩
  | cons first _ ih =>
    cases challenges with
    | nil => cases lengths
    | cons challenge challenges =>
      rw [zip_cons_cons, userPhaseSteps, first.loop (by decide), firstRunAdvices]
      cases challenge with
      | zero =>
        rcases ih (Nat.succ.inj lengths) (offset + 0) with ⟨squeezed, rest, squeezes, split⟩
        refine ⟨squeezed, rest, squeezes, ?_⟩
        rw [range_zero, map_nil, append_nil, append_assoc, split, if_pos rfl, replicate_add, append_assoc]
      | succ challenge =>
        rw [range_succ_eq_map, map_cons, if_neg (Nat.succ_ne_zero _), Nat.add_zero]
        simp only [append_assoc, cons_append]
        exact ⟨_, _, rfl, rfl⟩

theorem weight_first_run (numInstances advices : Nat) :
    weight ParserStep.absorbs (firstRun numInstances advices) =
      wordBytes + g1Bytes + wordBytes + numInstances * wordBytes + advices * g1Bytes := by
  simp only [firstRun, flatten_cons, flatten_nil, append_nil, weight_append, weight_replicate, ← Nat.add_assoc]
  rfl

section

variable {layout : VerifierMemoryLayout} {state : ParserState} {steps first rest before after : List ParserStep}
  {step squeezed : ParserStep} (start : state.bufLen = layout.transcriptMptr)

include start

theorem buf_len_low (steps : List ParserStep) :
    layout.transcriptMptr ≤ (runSteps layout state steps).bufLen := by
  have low := start.ge
  clear start
  induction steps generalizing state with
  | nil => exact low
  | cons step steps ih =>
    apply ih
    dsimp only [ParserStep.run]
    split_ifs
    · omega
    · omega

theorem buf_len_first (quiet : ∀ step ∈ steps, step.squeezes = false) :
    (runSteps layout state steps).bufLen = layout.transcriptMptr + weight ParserStep.absorbs steps := by
  rw [← start]
  apply run_steps_field
  intro state step mem
  rw [ParserStep.run, if_neg (by rw [quiet step mem]; exact Bool.false_ne_true)]

omit start in
/-- A buffer that holds the first run and everything behind the first squeeze is never left. -/
theorem buf_len_below {capacity : Nat} (quiet : ∀ step ∈ first, step.squeezes = false)
    (squeezes : squeezed.squeezes = true)
    (fits : state.bufLen + weight ParserStep.absorbs first ≤ layout.transcriptMptr + capacity)
    (later : wordBytes + weight ParserStep.absorbs rest ≤ capacity)
    (split : first ++ squeezed :: rest = before ++ step :: after) :
    (runSteps layout state before).bufLen + step.absorbs ≤ layout.transcriptMptr + capacity := by
  induction first generalizing state before with
  | nil =>
    cases before with
    | nil =>
      rw [nil_append, nil_append, cons.injEq] at split
      have silent : squeezed.absorbs = 0 := by
        cases squeezed <;> first | rfl | cases squeezes
      rw [← split.1, silent]
      exact fits
    | cons earlier before =>
      rw [nil_append, cons_append, cons.injEq] at split
      have seeded := @run_steps_seeded layout (earlier.run layout state) 0
        (by rw [← split.1, ParserStep.run, if_pos squeezes]; exact le_rfl) before
      rw [split.2, weight_append, weight_cons] at later
      change (runSteps layout (earlier.run layout state) before).bufLen + _ ≤ _
      omega
  | cons other first ih =>
    rw [forall_mem_cons] at quiet
    rw [weight_cons] at fits
    cases before with
    | nil =>
      rw [cons_append, nil_append, cons.injEq] at split
      rw [← split.1]
      change state.bufLen + _ ≤ _
      omega
    | cons earlier before =>
      rw [cons_append, cons_append, cons.injEq] at split
      apply @ih (earlier.run layout state) before quiet.2 _ split.2
      rw [← split.1, ParserStep.run, if_neg (by rw [quiet.1]; exact Bool.false_ne_true)]
      dsimp only
      omega

end

/-! ### Where the parser writes -/

theorem user_phase_challenges {phases : List (ProofSection × Nat)} {offset index : Nat}
    (mem : .squeezeChallenge index ∈ userPhaseSteps offset phases) :
    index < offset + (phases.map Prod.snd).sum := by
  induction phases generalizing offset with
  | nil => cases mem
  | cons phase phases ih =>
    rw [userPhaseSteps, append_assoc, mem_append, mem_append] at mem
    rw [map_cons, sum_cons, ← Nat.add_assoc]
    rcases mem with item | squeezed | later
    · cases eq_of_mem_replicate item
    · rcases mem_map.mp squeezed with ⟨j, inside, same⟩
      rw [ParserStep.squeezeChallenge.injEq] at same
      have below := mem_range.mp inside
      omega
    · exact ih later

theorem weight_indicator (unit : Nat) (target : ParserStep) (steps : List ParserStep) :
    weight (fun step => if step = target then unit else 0) steps = steps.count target * unit := by
  induction steps with
  | nil => rw [count_nil, Nat.zero_mul]; rfl
  | cons step steps ih =>
    rw [weight, map_cons, sum_cons, ← weight, ih, count_cons, Nat.add_mul, Nat.add_comm]
    by_cases same : step = target
    · simp [same]
    · simp [same]

/-- A cursor that one kind of call moves stands behind the calls of the kind. -/
theorem walk_counted {layout : VerifierMemoryLayout} {field : ParserState → Nat} {target : ParserStep}
    {unit : Nat} (each : ∀ state step,
      field (ParserStep.run layout state step) = field state + if step = target then unit else 0)
    (state : ParserState) (steps : List ParserStep) :
    field (runSteps layout state steps) = field state + steps.count target * unit := by
  rw [← weight_indicator]
  exact run_steps_field (fun state step _ => each state step) state

theorem item_counts {counts : List Nat} {phases : List ProofSection}
    (hold : Forall₂ (Holds · g1Bytes) counts phases) : phases.map (·.itemCount) = counts := by
  induction hold with
  | nil => rfl
  | cons first _ ih => rw [map_cons, ih, first.itemCount]

theorem lookup_item_counts {chunks : List Nat} {start : Nat} {lookups : List ProofLookupCommitmentsLayout}
    (hold : Forall₂ LookupHolds (chunks.zipIdx start) lookups) :
    (lookups.map fun lookup => lookup.helpers.itemCount + lookup.accumulator.itemCount).sum =
      chunks.sum + chunks.length := by
  induction chunks generalizing start lookups with
  | nil =>
    cases hold
    rfl
  | cons count chunks ih =>
    rw [zipIdx_cons] at hold
    cases hold with
    | cons first rest =>
      rw [map_cons, sum_cons, ih rest, first.helpers.itemCount, first.accumulator.itemCount, sum_cons,
        length_cons]
      omega

section

variable {protocol : ProtocolPlan} {base numEvals numPointSets numInstances : Nat} {truncated : Bool}
  {proof : ProofCalldataLayout} (counted : Counted protocol)
  (planned : Planned protocol base numEvals numPointSets proof)

include counted planned

theorem parser_steps_split (numInstances : Nat) (truncated : Bool) :
    ∃ squeezed rest, squeezed.squeezes = true ∧ parserSteps protocol proof numInstances truncated =
      firstRun numInstances (firstRunAdvices protocol.numUserAdvices protocol.numUserChallenges) ++
        squeezed :: rest := by
  unfold parserSteps firstRun
  simp only [flatten_cons, flatten_nil, append_nil, append_assoc, cons_append, nil_append]
  rcases user_phases_split planned.advicePhases counted.phases 0 .theta _ with ⟨squeezed, rest, squeezes, split⟩
  refine ⟨squeezed, rest, squeezes, ?_⟩
  rw [← split]

/-- The words planned for the buffer hold everything behind the first challenge. -/
theorem later_runs_fit {advices : Nat} {squeezed : ParserStep} {rest : List ParserStep}
    (split : parserSteps protocol proof numInstances truncated =
      firstRun numInstances advices ++ squeezed :: rest) :
    wordBytes + weight ParserStep.absorbs rest ≤
      (TranscriptBufferLayout.fromProofLayout proof numInstances).words * wordBytes := by
  have total := weight_parser_steps (fun _ none => none) counted planned numInstances truncated
  rw [split, weight_append, weight_first_run, weight, map_cons, sum_cons, ← weight] at total
  have words : (TranscriptBufferLayout.fromProofLayout proof numInstances).totalRunBytes ≤
      (TranscriptBufferLayout.fromProofLayout proof numInstances).words * wordBytes := by
    dsimp only [TranscriptBufferLayout.fromProofLayout, divCeil, wordBytes]
    omega
  have counts : proof.totalG1Count = protocol.commitments.length + 1 + 1 := by
    rw [counted.length, ProofCalldataLayout.totalG1Count, ProofCalldataLayout.commitmentG1Count,
      ProofCalldataLayout.nonQuotientG1Count, item_counts planned.advicePhases,
      lookup_item_counts planned.lookups, ← counted.lookups, planned.lookupMultiplicities.itemCount,
      planned.permutationProducts.itemCount, planned.trash.itemCount, planned.quotientLimbs.itemCount,
      planned.fCom.itemCount, planned.pi.itemCount]
  refine le_trans ?_ words
  simp only [TranscriptBufferLayout.fromProofLayout, counts, counted.length, planned.evals.byteLen,
    planned.qEvals.byteLen, callWeight, ParserStep.absorbs, postSqueezeCushionWords, g1Bytes, g1Words,
    wordBytes] at total ⊢
  omega

theorem parser_reads_all (layout : VerifierMemoryLayout) (numInstances : Nat) (truncated : Bool) :
    (runSteps layout (initialState layout proof)
      (parserSteps protocol proof numInstances truncated)).proofCptr = proof.proofEnd := by
  have read := @run_steps_field layout (·.proofCptr) ParserStep.reads
    (parserSteps protocol proof numInstances truncated) (fun _ _ _ => rfl) (initialState layout proof)
  have silent : ∀ step : ParserStep, step.absorbs = 0 → step.reads = 0 := by
    intro step none
    cases step <;> first | rfl | cases none
  rw [weight_parser_steps silent counted planned] at read
  refine read.trans ?_
  rw [planned.proofEnd, counted.length, initialState, planned.proofCptr]
  simp only [callWeight, ParserStep.reads]
  ring

end

theorem inside_region {system : ConstraintSystemMeta} {vk : Halo2VerifyingKey} {vkMptr : Nat}
    {config : VerifierMemoryLayoutConfig} {layout : VerifierMemoryLayout} {index start len first size : Nat}
    {name : String} {lifetime : MemoryLifetime} (layoutIs : layout = new system vk vkMptr config)
    (registered : (regionTable layout system vk config)[index]? = some ⟨name, start, len, lifetime⟩)
    (low : start ≤ first) (high : first + size ≤ start + len) :
    InsideRegion layout.map name lifetime (Set.Ico first (first + size)) := by
  subst layoutIs
  refine ⟨⟨name, start, len, lifetime⟩, ?_, rfl, rfl, Set.Ico_subset_Ico low high⟩
  rw [new_regions]
  exact mem_of_getElem? registered

theorem inside_buffer {system : ConstraintSystemMeta} {vk : Halo2VerifyingKey} {vkMptr first size : Nat}
    {config : VerifierMemoryLayoutConfig} (pos : 0 < size)
    (inside : InsideRegion (new system vk vkMptr config).map "transcript_buffer" (.phase .transcript)
      (Set.Ico first (first + size))) :
    first + size ≤ (new system vk vkMptr config).transcriptMptr + config.transcriptWords * wordBytes := by
  rcases inside with ⟨region, mem, named, -, window⟩
  rw [new_regions] at mem
  have only : ∀ region ∈ regionTable (new system vk vkMptr config) system vk config,
      region.name = "transcript_buffer" → region.endOffset =
        (new system vk vkMptr config).transcriptMptr + config.transcriptWords * wordBytes := by
    simp only [regionTable, forall_mem_cons]
    simp [MemoryRegion.endOffset]
  rw [← only region mem named]
  exact ((Set.Ico_subset_Ico_iff (Nat.lt_add_of_pos_right pos)).mp window).2

section

variable {system : ConstraintSystemMeta} {base numPointSets numInstances : Nat} {truncated : Bool}
  {proof : ProofCalldataLayout} (counted : Counted system.protocol)
  (planned : Planned system.protocol base system.numEvals numPointSets proof)
  {before after : List ParserStep} {step : ParserStep}
  (split : parserSteps system.protocol proof numInstances truncated = before ++ step :: after)

include counted planned split

theorem count_before (pays : step.absorbs ≠ 0) : before.count step <
    callWeight system.protocol system.numEvals numPointSets numInstances fun call =>
      if call = step then 1 else 0 := by
  have silent : ∀ call : ParserStep, call.absorbs = 0 → (if call = step then 1 else 0) = 0 := by
    intro call none
    apply if_neg
    intro same
    rw [same] at none
    exact pays none
  rw [← weight_parser_steps silent counted planned numInstances truncated, weight_indicator, split,
    count_append, count_cons_self]
  omega

theorem walk_commitment {category : CommitmentCategory} (reads : step = .commitment category)
    (layout : VerifierMemoryLayout) :
    (runSteps layout (initialState layout proof) before).walk category =
        layout.commitmentMptr category (before.count (.commitment category)) ∧
      before.count (.commitment category) < categoryCount system category := by
  subst reads
  constructor
  · rw [@walk_counted layout (·.walk category) _ _ fun _ _ => rfl, initialState, commitmentMptr, g1Bytes]
    ring
  · have below := count_before counted planned split (show g1Bytes ≠ 0 by decide)
    cases category
    all_goals
      simp only [callWeight, reduceCtorEq, ParserStep.commitment.injEq, if_true, if_false, Nat.mul_zero,
        Nat.mul_one, Nat.add_zero, Nat.zero_add] at below
      exact below

theorem walk_evaluation (reads : step = .evaluation) (layout : VerifierMemoryLayout) :
    ∃ index < system.numEvals, (runSteps layout (initialState layout proof) before).evalBuf =
      layout.reversedEvalsMptr + index * wordBytes := by
  subst reads
  refine ⟨before.count .evaluation, ?_, ?_⟩
  · have below := count_before counted planned split (by decide)
    simp only [callWeight, reduceCtorEq, if_true, if_false, Nat.mul_zero, Nat.mul_one, Nat.add_zero,
      Nat.zero_add] at below
    exact below
  · rw [@walk_counted layout (·.evalBuf) _ _ fun _ _ => rfl]
    rfl

theorem challenge_inside {index : Nat} (squeezes : step = .squeezeChallenge index) :
    index < system.protocol.challengeIndices.length := by
  have mem : .squeezeChallenge index ∈ parserSteps system.protocol proof numInstances truncated := by
    rw [split, squeezes]
    exact mem_append_right _ mem_cons_self
  have inPhases : .squeezeChallenge index ∈
      userPhaseSteps 0 (proof.advicePhases.zip system.protocol.numUserChallenges) := by
    simp only [parserSteps, sectionLoop, flatten_cons, flatten_nil, mem_append, mem_cons, not_mem_nil,
      mem_replicate, mem_flatMap, reduceCtorEq, and_false, exists_false, or_false, false_or,
      mem_ite_nil_right] at mem
    exact mem
  have below := user_phase_challenges inPhases
  rw [Nat.zero_add, map_snd_zip (counted.phases ▸ planned.advicePhases.length_eq.le),
    counted.challenges] at below
  exact below

theorem writes_inside {vk : Halo2VerifyingKey} {vkMptr : Nat} {config : VerifierMemoryLayoutConfig}
    {layout : VerifierMemoryLayout} (layoutIs : layout = new system vk vkMptr config)
    (seed : wordBytes ≤ config.transcriptWords * wordBytes)
    (room : (runSteps layout (initialState layout proof) before).bufLen + step.absorbs ≤
      layout.transcriptMptr + config.transcriptWords * wordBytes) :
    ∀ write ∈ step.writes layout (runSteps layout (initialState layout proof) before),
      InsideRegion layout.map write.region write.lifetime (Set.Ico write.start (write.start + write.len)) := by
  have low := @buf_len_low layout (initialState layout proof) rfl before
  have absorbed := @inside_region system vk vkMptr config layout 1 _ _ _ _ _ _ layoutIs rfl low room
  have reseeded := @inside_region system vk vkMptr config layout 1 _ _ _ _ _ _ layoutIs rfl le_rfl
    (Nat.add_le_add_left seed _)
  have stored : ∀ (slot : ThetaSlot) (size : Nat), size ≤ g1Bytes →
      InsideRegion layout.map "theta_scalar_and_g1_slots" .permanent
        (Set.Ico (layout.slotMptr slot) (layout.slotMptr slot + size)) := by
    intro slot size small
    have last : slot.word * wordBytes + g1Bytes ≤ 52 * wordBytes := by cases slot <;> decide
    have words : layout.thetaWindows.rotPointsWord = 52 := by rw [layoutIs]; rfl
    apply @inside_region system vk vkMptr config layout 9 _ _ _ _ _ _ layoutIs rfl (Nat.le_add_right _ _)
    rw [Nat.add_assoc, words]
    exact Nat.add_le_add_left ((Nat.add_le_add_left small _).trans last) _
  intro write mem
  cases stepIs : step with
  | commonWord | commonIdentity | pointSetEvaluation =>
    rw [stepIs] at mem absorbed
    rw [mem_singleton.mp mem]
    exact absorbed
  | commitment category =>
    have walked := walk_commitment counted planned split stepIs layout
    rw [stepIs] at mem absorbed
    rcases mem_cons.mp mem with rfl | copied
    · exact absorbed
    · rw [mem_singleton.mp copied]
      dsimp only
      rw [walked.1]
      subst layoutIs
      exact commitment_window_inside system vk vkMptr config category walked.2
  | evaluation =>
    rcases walk_evaluation counted planned split stepIs layout with ⟨index, inside, walked⟩
    rw [stepIs] at mem absorbed
    rcases mem_cons.mp mem with rfl | rest
    · dsimp only
      rw [walked]
      apply @inside_region system vk vkMptr config layout 16 _ _ _ _ _ _ layoutIs rfl (Nat.le_add_right _ _)
      rw [Nat.add_assoc, ← Nat.succ_mul]
      exact Nat.add_le_add_left (Nat.mul_le_mul_right _ inside) _
    · rw [mem_singleton.mp rest]
      exact absorbed
  | point slot =>
    rw [stepIs] at mem absorbed
    rcases mem_cons.mp mem with rfl | rest
    · exact absorbed
    · rw [mem_singleton.mp rest]
      exact stored slot _ le_rfl
  | storeCursor =>
    rw [stepIs] at mem
    rw [mem_singleton.mp mem]
    exact @inside_region system vk vkMptr config layout 14 _ _ _ _ _ _ layoutIs rfl le_rfl le_rfl
  | squeezeChallenge index =>
    have inside := challenge_inside counted planned split stepIs
    rw [stepIs] at mem
    rcases mem_cons.mp mem with rfl | rest
    · exact reseeded
    · rw [mem_singleton.mp rest]
      apply @inside_region system vk vkMptr config layout 8 _ _ _ _ _ _ layoutIs rfl (Nat.le_add_right _ _)
      rw [Nat.add_assoc, ← Nat.succ_mul]
      exact Nat.add_le_add_left (Nat.mul_le_mul_right _ inside) _
  | squeezeTo slot =>
    rw [stepIs] at mem
    rcases mem_cons.mp mem with rfl | rest
    · exact reseeded
    · rw [mem_singleton.mp rest]
      exact stored slot wordBytes (Nat.le_of_ble_eq_true rfl)
  | truncate slot =>
    rw [stepIs] at mem
    rw [mem_singleton.mp mem]
    exact stored slot wordBytes (Nat.le_of_ble_eq_true rfl)

end

theorem first_run_absorbs {layout : VerifierMemoryLayout} {numInstances advices : Nat} :
    ∀ step ∈ firstRun numInstances advices, step.squeezes = false ∧ 0 < step.absorbs ∧ ∀ state,
      ⟨"transcript_buffer", .phase .transcript, state.bufLen, step.absorbs⟩ ∈ step.writes layout state := by
  intro step mem
  have kinds : step = .commonWord ∨ step = .commonIdentity ∨ step = .commitment .advice := by
    simp only [firstRun, flatten_cons, flatten_nil, mem_append, mem_cons, not_mem_nil, mem_replicate] at mem
    tauto
  rcases kinds with rfl | rfl | rfl
  all_goals exact ⟨rfl, by decide, fun _ => mem_cons_self⟩

section Assembled

variable (cs : ConstraintSystem) (nbCommittedInstances : Nat) (singleHCommitment : Bool) (csDegree : Nat)
  (lookupChunks : List Nat) (numEvals numDummyEvals base numPointSets numInstances : Nat) (truncated : Bool)

/-- For every plan the payload is laid out without drift, the parser reads it to its end, and the
commitments of a category are copied to its own slots in order. -/
theorem parser_reads_payload (layout : VerifierMemoryLayout) :
    let plan := assemblePlan cs nbCommittedInstances singleHCommitment csDegree lookupChunks
    ∃ proof, ProofCalldataLayout.fromProtocol plan base numEvals numPointSets = some proof ∧
      proof.proofEnd = base + (plan.commitments.length + 2) * g1Bytes + (numEvals + numPointSets) * wordBytes ∧
      let steps := parserSteps plan proof numInstances truncated
      (runSteps layout (initialState layout proof) steps).proofCptr = proof.proofEnd ∧
      ∀ before category after, steps = before ++ .commitment category :: after →
        let copied := before.count (.commitment category)
        (runSteps layout (initialState layout proof) before).walk category =
            layout.commitmentMptr category copied ∧
          copied < categoryCount { protocol := plan, numEvals, numDummyEvals } category := by
  intro plan
  have counted : Counted plan :=
    assembled_counted cs nbCommittedInstances singleHCommitment csDegree lookupChunks
  rcases from_protocol_planned counted base numEvals numPointSets with ⟨proof, found, planned⟩
  refine ⟨proof, found, ?_, parser_reads_all counted planned layout numInstances truncated, ?_⟩
  · rw [planned.proofEnd]
    ring
  · intro before category after split
    exact @walk_commitment ⟨plan, numEvals, numDummyEvals⟩ _ _ _ _ _ counted planned _ _ _ split _ rfl layout

/-- Every call of the parser writes only into the regions planned for it exactly when what is absorbed
before the first challenge fits the words of the buffer. -/
theorem parser_writes_planned_iff (vk : Halo2VerifyingKey) (vkMptr : Nat)
    (config : VerifierMemoryLayoutConfig) :
    let plan := assemblePlan cs nbCommittedInstances singleHCommitment csDegree lookupChunks
    ∃ proof, ProofCalldataLayout.fromProtocol plan base numEvals numPointSets = some proof ∧
      let words := (TranscriptBufferLayout.fromProofLayout proof numInstances).words
      let layout := new { protocol := plan, numEvals, numDummyEvals } vk vkMptr
        { config with transcriptWords := words, numInstances }
      ((∀ before step after, parserSteps plan proof numInstances truncated = before ++ step :: after →
          ∀ write ∈ step.writes layout (runSteps layout (initialState layout proof) before),
            InsideRegion layout.map write.region write.lifetime
              (Set.Ico write.start (write.start + write.len))) ↔
        wordBytes + g1Bytes + wordBytes + numInstances * wordBytes +
          firstRunAdvices plan.numUserAdvices plan.numUserChallenges * g1Bytes ≤ words * wordBytes) := by
  intro plan
  have counted : Counted plan :=
    assembled_counted cs nbCommittedInstances singleHCommitment csDegree lookupChunks
  rcases from_protocol_planned counted base numEvals numPointSets with ⟨proof, found, planned⟩
  refine ⟨proof, found, ?_⟩
  intro words layout
  rcases parser_steps_split counted planned numInstances truncated with ⟨squeezed, rest, squeezes, split⟩
  have later := later_runs_fit counted planned split
  have quiet := @first_run_absorbs layout numInstances
    (firstRunAdvices plan.numUserAdvices plan.numUserChallenges)
  rw [← weight_first_run]
  constructor
  · intro inside
    rcases eq_nil_or_concat (firstRun numInstances
      (firstRunAdvices plan.numUserAdvices plan.numUserChallenges)) with none | ⟨before, last, firstIs⟩
    · cases none
    rw [firstIs, concat_eq_append] at quiet split ⊢
    have holds := quiet last (mem_append_right _ mem_cons_self)
    have landed := inside before last (squeezed :: rest) (split.trans (append_assoc _ _ _)) _ (holds.2.2 _)
    have ended := inside_buffer holds.2.1 landed
    rw [buf_len_first rfl fun step mem => (quiet step (mem_append_left _ mem)).1, Nat.add_assoc] at ended
    rw [weight_append]
    exact Nat.le_of_add_le_add_left ended
  · intro fits before step after steps
    apply @writes_inside ⟨plan, numEvals, numDummyEvals⟩ _ _ _ _ _ counted planned _ _ _ steps vk vkMptr
      { config with transcriptWords := words, numInstances } layout rfl
    · exact le_trans (Nat.le_add_right _ _) later
    · exact buf_len_below (fun step mem => (quiet step mem).1) squeezes (Nat.add_le_add_left fits _) later
        (split.symm.trans steps)

end Assembled

end Midfall.TranscriptParser
