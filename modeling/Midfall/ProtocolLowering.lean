import Midfall.PlonkConstraintSystem

/-!
# The typed protocol plan

`ProtocolPlan::from_constraint_system` and `ProtocolPlan::validate`: proof reads
of the main transcript, their evaluations, and the PCS query schedule. A failed
check at the end of the construction is a panic (`none`), as are the panics of
the degree computation. Sets of columns are duplicate-free lists. The common
polynomials that the emitters materialize are not part of the plan here.
-/

namespace Midfall.ProtocolLowering

open PlonkConstraintSystem

inductive CommitmentRead where
  | advice
  | lookupMultiplicity
  | permutationProduct
  | lookupHelper
  | lookupAccumulator
  | trash
  | quotient
  deriving DecidableEq, Repr

inductive PermutationZEval where
  | cur
  | next
  | last
  deriving DecidableEq, Repr

/-- Scalar evaluations read from the proof's main evaluation block. -/
inductive EvalRead where
  | committedInstance (query : QueryKey)
  | advice (query : QueryKey)
  | fixed (query : QueryKey)
  | permutationCommon (column : AnyColumn)
  | permutationZ (set : Nat) (kind : PermutationZEval)
  | lookupMultiplicity (lookup : Nat)
  | lookupHelper (lookup chunk : Nat)
  | lookupAccumulator (lookup : Nat) (rotation : Int)
  | trash (index : Nat)
  deriving DecidableEq, Repr

inductive PcsQuerySource where
  | advice (query : QueryKey)
  | committedInstance (query : QueryKey)
  | permutationZ (set : Nat) (kind : PermutationZEval)
  | lookupMultiplicity (lookup : Nat)
  | lookupHelper (lookup chunk : Nat)
  | lookupAccumulator (lookup : Nat) (rotation : Int)
  | trash (index : Nat)
  | fixed (query : QueryKey)
  | permutationCommon (column : AnyColumn)
  | linearization
  deriving DecidableEq, Repr

def PermutationZEval.rotation (rotationLast : Int) : PermutationZEval → Int
  | .cur => 0
  | .next => 1
  | .last => rotationLast

def PcsQuerySource.rotation (rotationLast : Int) : PcsQuerySource → Int
  | .advice query | .committedInstance query | .fixed query => query.rotation
  | .permutationZ _ kind => kind.rotation rotationLast
  | .lookupMultiplicity _ | .lookupHelper _ _ | .trash _ | .permutationCommon _
  | .linearization => 0
  | .lookupAccumulator _ rotation => rotation

inductive CommitmentSlot where
  | advice (column : Nat)
  | committedInstance (column : Nat)
  | permutationZ (set : Nat)
  | lookupMultiplicity (lookup : Nat)
  | lookupHelper (lookup chunk : Nat)
  | lookupAccumulator (lookup : Nat)
  | trash (index : Nat)
  | fixed (column : Nat)
  | permutationCommon (column : AnyColumn)
  | linearization
  deriving DecidableEq, Repr

/-- The commitment handle of `query_from_plan`. -/
def PcsQuerySource.commitment : PcsQuerySource → CommitmentSlot
  | .advice query => .advice query.column
  | .committedInstance query => .committedInstance query.column
  | .permutationZ set _ => .permutationZ set
  | .lookupMultiplicity lookup => .lookupMultiplicity lookup
  | .lookupHelper lookup chunk => .lookupHelper lookup chunk
  | .lookupAccumulator lookup _ => .lookupAccumulator lookup
  | .trash index => .trash index
  | .fixed query => .fixed query.column
  | .permutationCommon column => .permutationCommon column
  | .linearization => .linearization

/-- The proof evaluation that `query_from_plan` looks up; the linearization query
opens to a value the verifier computes. -/
def PcsQuerySource.eval : PcsQuerySource → Option EvalRead
  | .advice query => some (.advice query)
  | .committedInstance query => some (.committedInstance query)
  | .permutationZ set kind => some (.permutationZ set kind)
  | .lookupMultiplicity lookup => some (.lookupMultiplicity lookup)
  | .lookupHelper lookup chunk => some (.lookupHelper lookup chunk)
  | .lookupAccumulator lookup rotation => some (.lookupAccumulator lookup rotation)
  | .trash index => some (.trash index)
  | .fixed query => some (.fixed query)
  | .permutationCommon column => some (.permutationCommon column)
  | .linearization => none

def PcsQuerySource.point (rotationLast : Int) (source : PcsQuerySource) : CommitmentSlot × Int :=
  (source.commitment, source.rotation rotationLast)

abbrev Opening := CommitmentSlot × Int × Option EvalRead

def PcsQuerySource.opening (rotationLast : Int) (source : PcsQuerySource) : Opening :=
  (source.commitment, source.rotation rotationLast, source.eval)

/-- The polynomial and the rotation that a proof evaluation claims a value for. -/
def EvalRead.opening (rotationLast : Int) (read : EvalRead) : Opening :=
  match read with
  | .committedInstance query => (.committedInstance query.column, query.rotation, some read)
  | .advice query => (.advice query.column, query.rotation, some read)
  | .fixed query => (.fixed query.column, query.rotation, some read)
  | .permutationCommon column => (.permutationCommon column, 0, some read)
  | .permutationZ set kind => (.permutationZ set, kind.rotation rotationLast, some read)
  | .lookupMultiplicity lookup => (.lookupMultiplicity lookup, 0, some read)
  | .lookupHelper lookup chunk => (.lookupHelper lookup chunk, 0, some read)
  | .lookupAccumulator lookup rotation => (.lookupAccumulator lookup, rotation, some read)
  | .trash index => (.trash index, 0, some read)

/-- Counts of quotient identities by source family. -/
structure QuotientIdentityPlan where
  gates : Nat
  permutation : Nat
  lookup : Nat
  trash : Nat
  deriving DecidableEq, Repr

def QuotientIdentityPlan.total (quotient : QuotientIdentityPlan) : Nat :=
  quotient.gates + quotient.permutation + quotient.lookup + quotient.trash

def traceQuotientIdentityBase : Nat := 30000
def tracePcsQueryBase : Nat := 2000

structure ProtocolPlan where
  numFixeds : Nat
  permutationColumns : List AnyColumn
  permutationChunkLen : Nat
  lookupChunks : List Nat
  numLookups : Nat
  numTrashcans : Nat
  numPermutationZs : Nat
  numQuotients : Nat
  adviceQueries : List QueryKey
  instanceQueries : List QueryKey
  numSimpleSelectors : Nat
  simpleSelectorCols : List Nat
  numCommittedInstances : Nat
  numUserAdvices : List Nat
  numUserChallenges : List Nat
  adviceIndices : List Nat
  challengeIndices : List Nat
  rotationLast : Int
  commitments : List CommitmentRead
  evals : List EvalRead
  pcsQueries : List PcsQuerySource
  quotientTraceIds : List Nat
  pcsQueryTraceIds : List Nat
  quotient : QuotientIdentityPlan
  deriving DecidableEq, Repr

def phaseCounts (numPhase : Nat) (phases : List Nat) : List Nat :=
  phases.foldl (fun nums phase => nums.modify phase (· + 1)) (List.replicate numPhase 0)

def phaseOffsets (numPhase : Nat) (nums : List Nat) : List Nat :=
  (nums.take (numPhase - 1)).foldl (fun offsets count => offsets ++ [offsets.getLastD 0 + count]) [0]

/-- `scan`: each column takes the next position of its phase. -/
def scanPhases : List Nat → List Nat → List Nat
  | _, [] => []
  | state, phase :: phases =>
    state.getD phase 0 :: scanPhases (state.modify phase (· + 1)) phases

/-- Midnight stores columns in declaration order but verifies them phase by phase. -/
def remapping (numPhase : Nat) (phases : List Nat) : List Nat × List Nat :=
  let nums := phaseCounts numPhase phases
  (nums, scanPhases (phaseOffsets numPhase nums) phases)

/-- Openings of the permutation products: every set but the last has a `last`. -/
def permutationSets {Entry : Type} (numPermutationZs : Nat)
    (entry : Nat → PermutationZEval → Entry) : List Entry :=
  (List.range numPermutationZs).flatMap fun set =>
    [entry set .cur, entry set .next] ++
      if set + 1 ≠ numPermutationZs then [entry set .last] else []

def lookupCommitments (lookupChunks : List Nat) : List CommitmentRead :=
  lookupChunks.flatMap fun chunks =>
    List.replicate chunks .lookupHelper ++ [.lookupAccumulator]

def lookupSchedule {Entry : Type} (multiplicity : Nat → Entry) (helper : Nat → Nat → Entry)
    (accumulator : Nat → Int → Entry) (lookupChunks : List Nat) : List Entry :=
  lookupChunks.zipIdx.flatMap fun (chunks, lookup) =>
    [multiplicity lookup] ++ (List.range chunks).map (helper lookup) ++
      [accumulator lookup 0, accumulator lookup 1]

def lookupEvals (lookupChunks : List Nat) : List EvalRead :=
  lookupSchedule .lookupMultiplicity .lookupHelper .lookupAccumulator lookupChunks

def lookupQueries (lookupChunks : List Nat) : List PcsQuerySource :=
  lookupSchedule .lookupMultiplicity .lookupHelper .lookupAccumulator lookupChunks

def commitmentPlan (numAdvices numLookups numPermutationZs numTrashcans numQuotients : Nat)
    (lookupChunks : List Nat) : List CommitmentRead :=
  List.replicate numAdvices CommitmentRead.advice ++ List.replicate numLookups CommitmentRead.lookupMultiplicity ++
    List.replicate numPermutationZs CommitmentRead.permutationProduct ++ lookupCommitments lookupChunks ++
    List.replicate numTrashcans CommitmentRead.trash ++ List.replicate numQuotients CommitmentRead.quotient

def committedInstanceQueries (instanceQueries : List QueryKey) (nbCommittedInstances : Nat) :
    List QueryKey :=
  instanceQueries.filter (·.column < nbCommittedInstances)

def openedFixedQueries (fixedQueries : List QueryKey) (simpleSelectorCols : List Nat) :
    List QueryKey :=
  fixedQueries.filter fun query => ! simpleSelectorCols.contains query.column

namespace ProtocolPlan

variable (plan : ProtocolPlan)

def numMainEvals : Nat := plan.evals.length

def numNonQuotientCommitments : Nat := plan.commitments.countP (· ≠ .quotient)

def commitmentReadGroups : List Nat :=
  plan.numUserAdvices.filter (· ≠ 0) ++
    (if plan.numLookups ≠ 0 then [plan.numLookups] else []) ++
    (if plan.numPermutationZs ≠ 0 then [plan.numPermutationZs] else []) ++
    plan.lookupChunks.flatMap (fun chunks => [chunks, 1]) ++
    (if plan.numTrashcans ≠ 0 then [plan.numTrashcans] else []) ++ [plan.numQuotients]

def isSimpleSelectorRead : EvalRead → Bool
  | .fixed query => plan.simpleSelectorCols.contains query.column
  | _ => false

def isPermutationZ : EvalRead → Bool
  | .permutationZ _ _ => true
  | _ => false

def isLookupRead : EvalRead → Bool
  | .lookupMultiplicity _ | .lookupHelper _ _ | .lookupAccumulator _ _ => true
  | _ => false

def isLookupMultiplicity : PcsQuerySource → Bool
  | .lookupMultiplicity _ => true
  | _ => false

def isLookupHelper : PcsQuerySource → Bool
  | .lookupHelper _ _ => true
  | _ => false

def isTrash : PcsQuerySource → Bool
  | .trash _ => true
  | _ => false

def accumulatorLookup : PcsQuerySource → Option Nat
  | .lookupAccumulator lookup _ => some lookup
  | _ => none

def permutationSet : PcsQuerySource → Option Nat
  | .permutationZ set _ => some set
  | _ => none

def committedInstanceRead : EvalRead → Option QueryKey
  | .committedInstance query => some query
  | _ => none

def expectedPermutationZEvals : Nat :=
  if plan.numPermutationZs = 0 then 0 else 3 * plan.numPermutationZs - 1

/-- The advice column that is absorbed but never opened, if any. -/
def unopenedAdviceColumn : Option Nat :=
  (List.range plan.adviceIndices.length).find? fun column =>
    ! (plan.adviceQueries.map (·.column)).contains column

/-- `Err(format!(..))` when the check fails. -/
def ensure (holds : Bool) (message : String) : Except String Unit :=
  if holds then .ok () else .error message

/-- Check cross-field invariants of the protocol plan. -/
def validate : Except String Unit := do
  ensure (plan.numSimpleSelectors = plan.simpleSelectorCols.length)
    s!"simple selector count mismatch: count={plan.numSimpleSelectors} cols={plan.simpleSelectorCols.length}"
  let quotientCount := plan.commitments.countP (· = .quotient)
  ensure (quotientCount = plan.numQuotients)
    s!"quotient commitment count mismatch: plan={quotientCount} meta={plan.numQuotients}"
  let groupedCommitments := plan.commitmentReadGroups.sum
  ensure (groupedCommitments = plan.commitments.length)
    s!"commitment group schedule mismatch: groups={groupedCommitments} commitments={plan.commitments.length}"
  let nonQuotientCount := plan.numNonQuotientCommitments
  let expectedNonQuotient := plan.adviceIndices.length + plan.numLookups +
    plan.numPermutationZs + plan.lookupChunks.sum + plan.numLookups + plan.numTrashcans
  ensure (nonQuotientCount = expectedNonQuotient)
    s!"non-quotient commitment count mismatch: plan={nonQuotientCount} expected={expectedNonQuotient}"
  ensure (! plan.evals.any plan.isSimpleSelectorRead)
    "simple selector fixed column appears in proof eval reads"
  let actualPermZEvals := plan.evals.countP isPermutationZ
  ensure (actualPermZEvals = plan.expectedPermutationZEvals)
    s!"permutation z eval count mismatch: plan={actualPermZEvals} expected={plan.expectedPermutationZEvals}"
  let expectedLookupEvals := plan.lookupChunks.sum + 3 * plan.numLookups
  let actualLookupEvals := plan.evals.countP isLookupRead
  ensure (actualLookupEvals = expectedLookupEvals)
    s!"lookup eval count mismatch: plan={actualLookupEvals} expected={expectedLookupEvals}"
  ensure (plan.pcsQueries.getLast? = some .linearization)
    "PCS query schedule must end with linearization query"
  ensure plan.unopenedAdviceColumn.isNone
    s!"advice commitment column {plan.unopenedAdviceColumn.getD 0} is absorbed but never opened by PCS"
  let pcsLookupMultiplicities := plan.pcsQueries.countP isLookupMultiplicity
  ensure (pcsLookupMultiplicities = plan.numLookups)
    s!"lookup multiplicity PCS coverage mismatch: pcs={pcsLookupMultiplicities} expected={plan.numLookups}"
  let pcsLookupHelpers := plan.pcsQueries.countP isLookupHelper
  let expectedLookupHelpers := plan.lookupChunks.sum
  ensure (pcsLookupHelpers = expectedLookupHelpers)
    s!"lookup helper PCS coverage mismatch: pcs={pcsLookupHelpers} expected={expectedLookupHelpers}"
  let pcsLookupAccumulators := (plan.pcsQueries.filterMap accumulatorLookup).dedup
  ensure (pcsLookupAccumulators.length = plan.numLookups)
    s!"lookup accumulator PCS coverage mismatch: pcs={pcsLookupAccumulators.length} expected={plan.numLookups}"
  let pcsPermutationSets := (plan.pcsQueries.filterMap permutationSet).dedup
  ensure (pcsPermutationSets.length = plan.numPermutationZs)
    s!"permutation product PCS coverage mismatch: pcs={pcsPermutationSets.length} expected={plan.numPermutationZs}"
  let pcsTrash := plan.pcsQueries.countP isTrash
  ensure (pcsTrash = plan.numTrashcans)
    s!"trashcan PCS coverage mismatch: pcs={pcsTrash} expected={plan.numTrashcans}"
  ensure (plan.quotientTraceIds.length = plan.quotient.total)
    s!"quotient trace id count mismatch: ids={plan.quotientTraceIds.length} identities={plan.quotient.total}"
  let lookupIdentityCount := (plan.lookupChunks.map (· + 2)).sum
  ensure (plan.quotient.lookup = lookupIdentityCount)
    s!"lookup quotient identity count mismatch: plan={plan.quotient.lookup} expected={lookupIdentityCount}"
  ensure (plan.pcsQueryTraceIds.length = plan.pcsQueries.length)
    s!"PCS trace id count mismatch: ids={plan.pcsQueryTraceIds.length} queries={plan.pcsQueries.length}"
  ensure (! plan.quotientTraceIds.any plan.pcsQueryTraceIds.contains)
    "quotient and PCS trace id spaces overlap"
  let pcsWithoutLinearization := plan.pcsQueries.length - 1
  let proofQueryEvals := plan.evals.length
  ensure (pcsWithoutLinearization = proofQueryEvals)
    s!"PCS/proof eval query mismatch before linearization: pcs={pcsWithoutLinearization} evals={proofQueryEvals}"
  (plan.evals.filterMap committedInstanceRead).forM fun query =>
    ensure (query.column < plan.numCommittedInstances)
      s!"non-committed instance column {query.column} is read from proof"

end ProtocolPlan

/-- The plan before `validate`, with `OUTER_SINGLE_H_COMMITMENT_ENABLED` as a parameter. -/
def assemblePlan (cs : ConstraintSystem) (nbCommittedInstances : Nat) (singleHCommitment : Bool)
    (csDegree : Nat) (lookupChunks : List Nat) : ProtocolPlan :=
  let permutationChunkLen := csDegree - 2
  let numPermutationZs := if cs.permutationColumns = [] then 0
    else divCeil cs.permutationColumns.length permutationChunkLen
  let numLookups := lookupChunks.length
  let numTrashcans := cs.trashcans.length
  let numQuotients := if singleHCommitment then 1 else csDegree - 1
  let simpleSelectorCols := (List.range cs.numFixedColumns).filter cs.hasSimpleSelectorCol
  let numPhase := max (maxOr 0 cs.adviceColumnPhase) (maxOr 0 cs.challengePhase) + 1
  let advices := remapping numPhase cs.adviceColumnPhase
  let challenges := remapping numPhase cs.challengePhase
  let committed := committedInstanceQueries cs.instanceQueries nbCommittedInstances
  let fixed := openedFixedQueries cs.fixedQueries simpleSelectorCols
  let evals := committed.map EvalRead.committedInstance ++ cs.adviceQueries.map EvalRead.advice ++
    fixed.map EvalRead.fixed ++ cs.permutationColumns.map EvalRead.permutationCommon ++
    permutationSets numPermutationZs EvalRead.permutationZ ++ lookupEvals lookupChunks ++
    (List.range numTrashcans).map EvalRead.trash
  let pcsQueries := cs.adviceQueries.map PcsQuerySource.advice ++ committed.map PcsQuerySource.committedInstance ++
    permutationSets numPermutationZs PcsQuerySource.permutationZ ++ lookupQueries lookupChunks ++
    (List.range numTrashcans).map PcsQuerySource.trash ++ fixed.map PcsQuerySource.fixed ++
    cs.permutationColumns.map PcsQuerySource.permutationCommon ++ [PcsQuerySource.linearization]
  let quotient : QuotientIdentityPlan :=
    { gates := (cs.gates.map List.length).sum
      permutation := if numPermutationZs = 0 then 0
        else 2 + (numPermutationZs - 1) + numPermutationZs
      lookup := (lookupChunks.map (· + 2)).sum
      trash := numTrashcans }
  { numFixeds := cs.numFixedColumns
    permutationColumns := cs.permutationColumns
    permutationChunkLen, lookupChunks, numLookups, numTrashcans, numPermutationZs, numQuotients
    adviceQueries := cs.adviceQueries
    instanceQueries := cs.instanceQueries
    numSimpleSelectors := cs.numSimpleSelectors
    simpleSelectorCols
    numCommittedInstances := nbCommittedInstances
    numUserAdvices := advices.1
    numUserChallenges := challenges.1
    adviceIndices := advices.2
    challengeIndices := challenges.2
    rotationLast := -(cs.blindingFactors lookupChunks + 1)
    commitments := commitmentPlan advices.2.length numLookups numPermutationZs numTrashcans
      numQuotients lookupChunks
    evals, pcsQueries
    quotientTraceIds := (List.range quotient.total).map (traceQuotientIdentityBase + ·)
    pcsQueryTraceIds := (List.range pcsQueries.length).map (tracePcsQueryBase + ·)
    quotient }

/-- `ProtocolPlan::from_constraint_system`; a plan that fails `validate` is a panic. -/
def fromConstraintSystem (cs : ConstraintSystem) (nbCommittedInstances : Nat)
    (singleHCommitment : Bool) : Option ProtocolPlan := do
  let csDegree ← cs.degree
  let lookupChunks ← cs.lookupChunks csDegree
  let plan := assemblePlan cs nbCommittedInstances singleHCommitment csDegree lookupChunks
  match plan.validate with
  | .ok () => return plan
  | .error _ => none

end Midfall.ProtocolLowering
