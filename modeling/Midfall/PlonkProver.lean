import Midfall.PlonkVerifier
import Midfall.TranscriptLog

/-!
# What the PLONK prover writes

`create_proof` up to the multi-open argument, kept to its transcript: every
`write` of a commitment or of an evaluation and every squeezed challenge, in
order, for any number of circuits. A polynomial is named by the cell of its
commitment; values absorbed without being written leave no message.
-/

namespace Midfall.PlonkProver

open PlonkConstraintSystem PlonkVerifier ProofReadOrder
open TranscriptLog

inductive ChallengeName where
  | user (index : Nat)
  | theta
  | beta
  | gamma
  | trash
  | y
  | x
  deriving DecidableEq, Repr

inductive Message where
  | commitment (cell : Cell)
  | evaluation (cell : Cell) (at_ : Int)
  | challenge (name : ChallengeName)
  deriving DecidableEq, Repr

inductive Error where
  | invalidInstances
  | instanceTooLarge
  | srsError
  | panicked
  deriving DecidableEq, Repr

abbrev Prover (Value : Type) := Logged Message Error Value

structure Domain (csDegree : Nat) where
  n : Nat
  extendedLen : Nat
  twoRows : 2 ≤ n
  extended_fits : (n - 1) * (csDegree - 1) ≤ extendedLen

section CreateProof

variable {Scalar : Type} (vk : VerifyingKey Scalar) (domain : Domain vk.csDegree)
  (circuits nbCommittedInstances : Nat)

def proverLookupChunks : Option (List Nat) := do
  let degree ← vk.cs.degree
  vk.cs.lookupChunks degree

def parseAdvices : Prover Unit :=
  forM vk.cs.phases fun currentPhase => do
    let columnIndices := vk.cs.adviceColumnPhase.zipIdx.filterMap fun (phase, column) =>
      if currentPhase = phase then some column else none
    forM (List.range circuits) fun circuit => forM columnIndices fun column =>
      append (.commitment (.advice circuit column))
    forM vk.cs.challengePhase.zipIdx fun (phase, index) =>
      if currentPhase = phase then append (.challenge (.user index)) else pure ()

/-- `commit_logderivative`: a helper for each chunk, then the accumulator. -/
def commitLogderivative (circuit : Nat) (lookup : Nat × Nat) : Prover Unit := do
  forM (List.range lookup.1) fun chunk =>
    append (.commitment (.lookupHelper circuit lookup.2 chunk))
  append (.commitment (.lookupAccumulator circuit lookup.2))

def commitPermutation (circuit : Nat) : Prover Unit :=
  forM (vk.permutationSets.zip (chunks (vk.csDegree - 2)
    (List.range vk.cs.permutationColumns.length))).zipIdx fun (_, set) =>
      append (.commitment (.permutationProduct circuit set))

/-- `compute_trace` behind the statement. -/
def computeTrace : Prover Unit := do
  let lookupChunks ← match proverLookupChunks vk with
    | some lookupChunks => pure lookupChunks
    | none => reject .panicked
  parseAdvices vk circuits
  append (.challenge .theta)
  forM (List.range circuits) fun circuit => forM lookupChunks.zipIdx fun (_, lookup) =>
    append (.commitment (.lookupMultiplicities circuit lookup))
  append (.challenge .beta)
  append (.challenge .gamma)
  forM (List.range circuits) (commitPermutation vk)
  forM (List.range circuits) fun circuit => forM lookupChunks.zipIdx (commitLogderivative circuit)
  append (.challenge .trash)
  forM (List.range circuits) fun circuit =>
    forM (List.range vk.cs.trashcans.length) fun argument =>
      append (.commitment (.trash circuit argument))
  append (.challenge .y)

/-- `compute_h_poly`: the truncated quotient polynomial, whole or in limbs of `n - 1`. -/
def computeHPoly (gMonomialSize : Nat) : Prover Unit :=
  let length := min domain.extendedLen ((domain.n - 1) * (vk.csDegree - 1))
  if vk.singleHCommitment then
    if gMonomialSize < length then reject .srsError
    else append (.commitment (.quotientLimb 0))
  else if length % (domain.n - 1) ≠ 0 ∨ length / (domain.n - 1) < 2 then reject .panicked
  else forM (List.range (length / (domain.n - 1))) fun limb =>
    append (.commitment (.quotientLimb limb))

def writeEvals : Prover Unit := do
  forM (List.range circuits) fun circuit => forM vk.cs.instanceQueries fun query =>
    if query.column < nbCommittedInstances then
      append (.evaluation (.instance circuit query.column) query.rotation)
    else pure ()
  forM (List.range circuits) fun circuit => forM vk.cs.adviceQueries fun query =>
    append (.evaluation (.advice circuit query.column) query.rotation)
  forM vk.cs.fixedQueries fun query =>
    if vk.cs.hasSimpleSelectorCol query.column then pure ()
    else append (.evaluation (.fixed query.column) query.rotation)

def evaluatePermutation (circuit : Nat) : Nat → Nat → Prover Unit
  | _, 0 => pure ()
  | set, remaining + 1 => do
    append (.evaluation (.permutationProduct circuit set) 0)
    append (.evaluation (.permutationProduct circuit set) 1)
    (if remaining > 0 then
      append (.evaluation (.permutationProduct circuit set) vk.rotationLast)
    else pure ())
    evaluatePermutation circuit (set + 1) remaining

def evaluateLookup (circuit : Nat) (lookup : Nat × Nat) : Prover Unit := do
  append (.evaluation (.lookupMultiplicities circuit lookup.2) 0)
  forM (List.range lookup.1) fun chunk =>
    append (.evaluation (.lookupHelper circuit lookup.2 chunk) 0)
  append (.evaluation (.lookupAccumulator circuit lookup.2) 0)
  append (.evaluation (.lookupAccumulator circuit lookup.2) 1)

/-- `finalise_proof` up to `multi_open`. -/
def finaliseProof (gMonomialSize : Nat) : Prover Unit := do
  computeHPoly vk domain gMonomialSize
  append (.challenge .x)
  writeEvals vk circuits nbCommittedInstances
  forM (List.range vk.cs.permutationColumns.length) fun index =>
    append (.evaluation (.permutationCommon index) 0)
  forM (List.range circuits) fun circuit =>
    evaluatePermutation vk circuit 0 vk.permutationSets.length
  forM (List.range circuits) fun circuit => forM vk.lookupChunks.zipIdx (evaluateLookup circuit)
  forM (List.range circuits) fun circuit =>
    forM (List.range vk.cs.trashcans.length) fun argument =>
      append (.evaluation (.trash circuit argument) 0)

/-- `create_proof`; an instance column is a list of values of any type. -/
def createProof {Value : Type} (gMonomialSize : Nat) (instances : List (List (List Value))) :
    Prover Unit :=
  if circuits ≠ instances.length then reject .invalidInstances
  else if ∃ columns ∈ instances,
      columns.length ≠ vk.numInstanceColumns ∨ columns.length < nbCommittedInstances then
    reject .invalidInstances
  else if ∃ columns ∈ instances, ∃ values ∈ columns,
      domain.n - (vk.cs.blindingFactors vk.lookupChunks + 1) < values.length then
    reject .instanceTooLarge
  else do
    computeTrace vk circuits
    finaliseProof vk domain circuits nbCommittedInstances gMonomialSize

end CreateProof

end Midfall.PlonkProver
