import Midfall.ProofReadOrder
import Midfall.TranscriptReader

/-!
# The PLONK verifier up to the multi-open argument

`prepare` for any number of proofs: the input checks and the reads of
`parse_trace`, the evaluations read by `verify_algebraic_constraints`, and the
query list it hands to `multi_prepare`. A query names the commitment that it
borrows and its point by the rotation of `x`. Field computations that no read
and no query depends on enter as parameters; an index out of range stops the
run.
-/

namespace Midfall.PlonkVerifier

open PlonkConstraintSystem ProofReadOrder TranscriptReader

inductive Cell where
  | advice (proof column : Nat)
  | instance (proof column : Nat)
  | fixed (column : Nat)
  | permutationCommon (index : Nat)
  | permutationProduct (proof set : Nat)
  | lookupMultiplicities (proof lookup : Nat)
  | lookupHelper (proof lookup chunk : Nat)
  | lookupAccumulator (proof lookup : Nat)
  | trash (proof argument : Nat)
  | quotientLimb (index : Nat)
  | linearization
  deriving DecidableEq, Repr

def Cell.proof : Cell → Option Nat
  | .advice proof _ | .instance proof _ | .permutationProduct proof _
  | .lookupMultiplicities proof _ | .lookupHelper proof _ _ | .lookupAccumulator proof _
  | .trash proof _ => some proof
  | .fixed _ | .permutationCommon _ | .quotientLimb _ | .linearization => none

structure Transcript (State Commitment Scalar : Type) where
  commonScalar : Scalar → State → State
  commonCommitment : Commitment → State → State
  readCommitment : Reader State Commitment
  readScalar : Reader State Scalar
  squeezeChallenge : State → Scalar × State

structure PermutationEvaluated (Scalar : Type) where
  productEval : Scalar
  productNextEval : Scalar
  productLastEval : Option Scalar
  deriving DecidableEq, Repr

structure LookupEvaluated (Scalar : Type) where
  multiplicitiesEval : Scalar
  helperEvals : List Scalar
  accumulatorEval : Scalar
  accumulatorNextEval : Scalar
  deriving DecidableEq, Repr

structure Evaluations (Scalar : Type) where
  fixedEvals : List Scalar
  instanceEvals : List (List Scalar)
  adviceEvals : List (List Scalar)
  permutations : List (List (PermutationEvaluated Scalar))
  lookups : List (List (LookupEvaluated Scalar))
  trashcans : List (List Scalar)
  permutationsCommon : List Scalar
  deriving DecidableEq, Repr

/-- The field computations behind values that are not read. -/
structure Arithmetic (Scalar : Type) where
  one : Scalar
  fromLength : Nat → Scalar
  /-- A plain instance column at a rotation of `x`. -/
  instanceEval : Scalar → List Scalar → Int → Scalar
  /-- The expected evaluation of the linearization polynomial. -/
  linearizationEval : Evaluations Scalar → List Scalar → Scalar

/-- `VerifyingKey::from_parts` caches the degree of the constraint system. -/
structure VerifyingKey (Scalar : Type) where
  cs : ConstraintSystem
  numInstanceColumns : Nat
  csDegree : Nat
  lookupChunks : List Nat
  transcriptRepr : Scalar
  singleHCommitment : Bool
  instanceQueries_column : ∀ query ∈ cs.instanceQueries, query.column < numInstanceColumns
  degree_cached : cs.degree = some csDegree
  chunks_cached : cs.lookupChunks csDegree = some lookupChunks

variable {State Commitment Scalar : Type}

def VerifyingKey.permutationSets (vk : VerifyingKey Scalar) : List (List AnyColumn) :=
  chunks (vk.csDegree - 2) vk.cs.permutationColumns

/-- `get_quotient_poly_degree`, or one commitment for the whole polynomial. -/
def VerifyingKey.nbQuotientComs (vk : VerifyingKey Scalar) : Nat :=
  if vk.singleHCommitment then 1 else vk.csDegree - 1

def VerifyingKey.rotationLast (vk : VerifyingKey Scalar) : Int :=
  -((vk.cs.blindingFactors vk.lookupChunks : Int) + 1)

structure LookupCommitted (Commitment : Type) where
  multiplicities : Commitment
  helperPolys : List Commitment
  accumulator : Commitment
  deriving DecidableEq, Repr

structure VerifierTrace (Commitment Scalar : Type) where
  adviceCommitments : List (List Commitment)
  lookups : List (List (LookupCommitted Commitment))
  trashcans : List (List Commitment)
  permutations : List (List Commitment)
  challenges : List Scalar
  beta : Scalar
  gamma : Scalar
  theta : Scalar
  trashChallenge : Scalar
  y : Scalar

section ParseTrace

variable (transcript : Transcript State Commitment Scalar)

def squeezeChallenge : Reader State Scalar := fun state => some (transcript.squeezeChallenge state)

def commonScalar (value : Scalar) : Reader State Unit := fun state =>
  some ((), transcript.commonScalar value state)

def commonCommitment (value : Commitment) : Reader State Unit := fun state =>
  some ((), transcript.commonCommitment value state)

def readCommitments (count : Nat) : Reader State (List Commitment) :=
  (List.range count).mapM fun _ => transcript.readCommitment

def readScalars (count : Nat) : Reader State (List Scalar) :=
  (List.range count).mapM fun _ => transcript.readScalar

def checkInstances (vk : VerifyingKey Scalar) (committedInstances : List (List Commitment))
    (instances : List (List (List Scalar))) : Option Unit := do
  guard (committedInstances ≠ [])
  guard (∀ columns ∈ committedInstances,
    columns.length = (committedInstances.headD []).length)
  guard (∀ proof ∈ committedInstances.zip instances,
    proof.1.length + proof.2.length = vk.numInstanceColumns)

def absorbStatement (arithmetic : Arithmetic Scalar) (vk : VerifyingKey Scalar)
    (committedInstances : List (List Commitment)) (instances : List (List (List Scalar))) :
    Reader State Unit := do
  commonScalar transcript vk.transcriptRepr
  forM committedInstances fun columns => forM columns (commonCommitment transcript)
  forM instances fun columns => forM columns fun column => do
    commonScalar transcript (arithmetic.fromLength column.length)
    forM column (commonScalar transcript)

def readPhase (vk : VerifyingKey Scalar)
    (state : List (List Commitment) × List Scalar) (currentPhase : Nat) :
    Reader State (List (List Commitment) × List Scalar) := do
  let adviceCommitments ← state.1.mapM fun commitments =>
    (vk.cs.adviceColumnPhase.zip commitments).mapM fun (phase, commitment) =>
      if currentPhase = phase then transcript.readCommitment else pure commitment
  let challenges ← (vk.cs.challengePhase.zip state.2).mapM fun (phase, challenge) =>
    if currentPhase = phase then squeezeChallenge transcript else pure challenge
  return (adviceCommitments, challenges)

def readLookup (multiplicities : Commitment) (numChunks : Nat) :
    Reader State (LookupCommitted Commitment) := do
  let helperPolys ← readCommitments transcript numChunks
  let accumulator ← transcript.readCommitment
  return { multiplicities, helperPolys, accumulator }

/-- The reads of `parse_trace`. `default` fills what no phase reads. -/
def parseTrace [Inhabited Commitment] [Inhabited Scalar] (arithmetic : Arithmetic Scalar)
    (vk : VerifyingKey Scalar) (committedInstances : List (List Commitment))
    (instances : List (List (List Scalar))) :
    Reader State (VerifierTrace Commitment Scalar) := do
  unwrap (checkInstances vk committedInstances instances)
  let numProofs := instances.length
  absorbStatement transcript arithmetic vk committedInstances instances
  let (adviceCommitments, challenges) ← vk.cs.phases.foldlM (readPhase transcript vk)
    (List.replicate numProofs (List.replicate vk.cs.adviceColumnPhase.length default),
      List.replicate vk.cs.challengePhase.length default)
  let theta ← squeezeChallenge transcript
  let lookupMultiplicities ← (List.range numProofs).mapM fun _ =>
    readCommitments transcript vk.cs.lookups.length
  let beta ← squeezeChallenge transcript
  let gamma ← squeezeChallenge transcript
  let permutations ← (List.range numProofs).mapM fun _ =>
    readCommitments transcript vk.permutationSets.length
  let lookups ← lookupMultiplicities.mapM fun lookups =>
    (lookups.zip vk.lookupChunks).mapM fun (multiplicities, numChunks) =>
      readLookup transcript multiplicities numChunks
  let trashChallenge ← squeezeChallenge transcript
  let trashcans ← (List.range numProofs).mapM fun _ =>
    readCommitments transcript vk.cs.trashcans.length
  let y ← squeezeChallenge transcript
  return { adviceCommitments, lookups, trashcans, permutations, challenges, beta, gamma, theta,
           trashChallenge, y }

end ParseTrace

section Evaluate

variable (transcript : Transcript State Commitment Scalar)

def readInstanceEvals (arithmetic : Arithmetic Scalar) (vk : VerifyingKey Scalar)
    (nbCommittedInstances : Nat) (x : Scalar) (instances : List (List Scalar)) :
    Reader State (List Scalar) :=
  vk.cs.instanceQueries.mapM fun query =>
    if query.column < nbCommittedInstances then transcript.readScalar
    else do
      let values ← unwrap instances[query.column - nbCommittedInstances]?
      return arithmetic.instanceEval x values query.rotation

/-- `fixed_evals.insert(idx, F::ONE)` at the simple selectors. -/
def insertSimpleSelectors (arithmetic : Arithmetic Scalar) (cs : ConstraintSystem)
    (evals : List Scalar) : Option (List Scalar) :=
  cs.fixedQueries.zipIdx.foldlM (fun evals (query, index) =>
    if cs.hasSimpleSelectorCol query.column then
      if index ≤ evals.length then some (evals.insertIdx index arithmetic.one) else none
    else some evals) evals

def readFixedEvals (arithmetic : Arithmetic Scalar) (vk : VerifyingKey Scalar) :
    Reader State (List Scalar) := do
  let evals ← readScalars transcript (fixedReadCount vk.cs)
  unwrap (insertSimpleSelectors arithmetic vk.cs evals)

/-- `iter.len() > 0`: a set is evaluated at the last row only when another follows. -/
def readLastEval (remaining : List Commitment) : Reader State (Option Scalar) :=
  if remaining.length > 0 then some <$> transcript.readScalar else pure none

def evaluatePermutation : List Commitment → Reader State (List (PermutationEvaluated Scalar))
  | [] => return []
  | _ :: remaining => do
    let productEval ← transcript.readScalar
    let productNextEval ← transcript.readScalar
    let productLastEval ← readLastEval transcript remaining
    let sets ← evaluatePermutation remaining
    return { productEval, productNextEval, productLastEval } :: sets

def evaluateLookup (lookup : LookupCommitted Commitment) :
    Reader State (LookupEvaluated Scalar) := do
  let multiplicitiesEval ← transcript.readScalar
  let helperEvals ← readScalars transcript lookup.helperPolys.length
  let accumulatorEval ← transcript.readScalar
  let accumulatorNextEval ← transcript.readScalar
  return { multiplicitiesEval, helperEvals, accumulatorEval, accumulatorNextEval }

structure ArgumentEvals (Scalar : Type) where
  permutationsCommon : List Scalar
  permutations : List (List (PermutationEvaluated Scalar))
  lookups : List (List (LookupEvaluated Scalar))
  trashcans : List (List Scalar)

def readArgumentEvals (vk : VerifyingKey Scalar) (trace : VerifierTrace Commitment Scalar) :
    Reader State (ArgumentEvals Scalar) := do
  let permutationsCommon ← readScalars transcript vk.cs.permutationColumns.length
  let permutations ← trace.permutations.mapM (evaluatePermutation transcript)
  let lookups ← trace.lookups.mapM fun lookups => lookups.mapM (evaluateLookup transcript)
  let trashcans ← trace.trashcans.mapM fun trashcans => trashcans.mapM fun _ =>
    transcript.readScalar
  return { permutationsCommon, permutations, lookups, trashcans }

def readEvaluations (arithmetic : Arithmetic Scalar) (vk : VerifyingKey Scalar)
    (nbCommittedInstances : Nat) (instances : List (List (List Scalar)))
    (trace : VerifierTrace Commitment Scalar) :
    Reader State (List Commitment × Scalar × Evaluations Scalar) := do
  let quotientLimbComs ← readCommitments transcript vk.nbQuotientComs
  let x ← squeezeChallenge transcript
  let instanceEvals ← instances.mapM
    (readInstanceEvals transcript arithmetic vk nbCommittedInstances x)
  let adviceEvals ← (List.range instances.length).mapM fun _ =>
    readScalars transcript vk.cs.adviceQueries.length
  let fixedEvals ← readFixedEvals transcript arithmetic vk
  let arguments ← readArgumentEvals transcript vk trace
  return (quotientLimbComs, x, {
    fixedEvals
    instanceEvals
    adviceEvals
    permutations := arguments.permutations
    lookups := arguments.lookups
    trashcans := arguments.trashcans
    permutationsCommon := arguments.permutationsCommon })

end Evaluate

/-- A query of `multi_prepare`: the borrowed commitment, the rotated point, the evaluation. -/
structure VerifierQuery (Scalar : Type) where
  commitment : Cell
  at_ : Int
  eval : Scalar
  deriving DecidableEq, Repr

/-- Pair the queries on a column type with the evaluations stored at their index. -/
def columnQueries (cell : Nat → Cell) (queries : List (QueryKey × Nat)) (evals : List Scalar) :
    Option (List (VerifierQuery Scalar)) :=
  queries.mapM fun (query, index) => do
    let eval ← evals[index]?
    return { commitment := cell query.column, at_ := query.rotation, eval }

def permutationQueries (rotationLast : Int) (proof : Nat)
    (sets : List (PermutationEvaluated Scalar)) : Option (List (VerifierQuery Scalar)) := do
  let opened := sets.zipIdx.flatMap fun (set, index) =>
    [{ commitment := .permutationProduct proof index, at_ := 0, eval := set.productEval },
     { commitment := .permutationProduct proof index, at_ := 1, eval := set.productNextEval }]
  let last ← (sets.zipIdx.reverse.drop 1).mapM fun (set, index) => do
    let eval ← set.productLastEval
    return { commitment := .permutationProduct proof index, at_ := rotationLast, eval }
  return opened ++ last

def lookupQueries (proof index : Nat) (lookup : LookupEvaluated Scalar) :
    List (VerifierQuery Scalar) :=
  [{ commitment := .lookupMultiplicities proof index, at_ := 0
     eval := lookup.multiplicitiesEval }] ++
    lookup.helperEvals.zipIdx.map (fun (eval, chunk) =>
      { commitment := .lookupHelper proof index chunk, at_ := 0, eval }) ++
    [{ commitment := .lookupAccumulator proof index, at_ := 0, eval := lookup.accumulatorEval },
     { commitment := .lookupAccumulator proof index, at_ := 1
       eval := lookup.accumulatorNextEval }]

structure ProofEvals (Scalar : Type) where
  instanceEvals : List Scalar
  adviceEvals : List Scalar
  permutation : List (PermutationEvaluated Scalar)
  lookups : List (LookupEvaluated Scalar)
  trash : List Scalar
  deriving DecidableEq, Repr

def proofQueries (vk : VerifyingKey Scalar) (nbCommittedInstances proof : Nat)
    (evals : ProofEvals Scalar) : Option (List (VerifierQuery Scalar)) := do
  let advice ← columnQueries (.advice proof) vk.cs.adviceQueries.zipIdx evals.adviceEvals
  let instances ← columnQueries (.instance proof)
    (vk.cs.instanceQueries.zipIdx.filter fun query => query.1.column < nbCommittedInstances)
    evals.instanceEvals
  let permutation ← permutationQueries vk.rotationLast proof evals.permutation
  return advice ++ instances ++ permutation ++
    evals.lookups.zipIdx.flatMap (fun (lookup, index) => lookupQueries proof index lookup) ++
    evals.trash.zipIdx.map fun (eval, index) =>
      { commitment := .trash proof index, at_ := 0, eval }

/-- The zip chain over the proofs; it ends with its shortest operand. -/
def zippedProofs (committedInstances : List (List Commitment))
    (trace : VerifierTrace Commitment Scalar) (evals : Evaluations Scalar) :
    List (ProofEvals Scalar) :=
  ((((((committedInstances.zip evals.instanceEvals).zip trace.adviceCommitments).zip
    evals.adviceEvals).zip evals.permutations).zip evals.lookups).zip evals.trashcans).map
      fun ((((((_, instanceEvals), _), adviceEvals), permutation), lookups), trash) =>
        { instanceEvals, adviceEvals, permutation, lookups, trash }

def openedFixed (vk : VerifyingKey Scalar) : List (QueryKey × Nat) :=
  vk.cs.fixedQueries.zipIdx.filter fun query => ! vk.cs.hasSimpleSelectorCol query.1.column

def verifierQueries (arithmetic : Arithmetic Scalar) (vk : VerifyingKey Scalar)
    (nbCommittedInstances : Nat) (committedInstances : List (List Commitment))
    (trace : VerifierTrace Commitment Scalar) (x : Scalar) (evals : Evaluations Scalar) :
    Option (List (VerifierQuery Scalar)) := do
  let perProof ← (zippedProofs committedInstances trace evals).zipIdx.mapM
    fun (proofEvals, proof) => proofQueries vk nbCommittedInstances proof proofEvals
  let fixed ← columnQueries .fixed (openedFixed vk) evals.fixedEvals
  let common := evals.permutationsCommon.zipIdx.map fun (eval, index) =>
    { commitment := .permutationCommon index, at_ := 0, eval : VerifierQuery Scalar }
  let linearization : VerifierQuery Scalar :=
    { commitment := .linearization, at_ := 0
      eval := arithmetic.linearizationEval evals ([x, trace.y, trace.beta, trace.gamma,
        trace.theta, trace.trashChallenge] ++ trace.challenges) }
  return perProof.flatten ++ fixed ++ common ++ [linearization]

structure Prepared (Commitment Scalar : Type) where
  trace : VerifierTrace Commitment Scalar
  quotientLimbComs : List Commitment
  x : Scalar
  evals : Evaluations Scalar
  queries : List (VerifierQuery Scalar)

/-- `prepare`, until the query list is handed over. -/
def prepare [Inhabited Commitment] [Inhabited Scalar]
    (transcript : Transcript State Commitment Scalar) (arithmetic : Arithmetic Scalar)
    (vk : VerifyingKey Scalar) (committedInstances : List (List Commitment))
    (instances : List (List (List Scalar))) : Reader State (Prepared Commitment Scalar) := do
  let trace ← parseTrace transcript arithmetic vk committedInstances instances
  let nbCommittedInstances := (committedInstances.headD []).length
  let (quotientLimbComs, x, evals) ← readEvaluations transcript arithmetic vk
    nbCommittedInstances instances trace
  let queries ← unwrap (verifierQueries arithmetic vk nbCommittedInstances committedInstances
    trace x evals)
  return { trace, quotientLimbComs, x, evals, queries }

end Midfall.PlonkVerifier
