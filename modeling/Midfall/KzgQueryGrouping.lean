import Midfall.OpeningGroups
import Midfall.VerifierData

/-!
# Query grouping of the generator and of the Rust verifier

Both sides turn a list of opening queries into point sets with the commitments
opened there. The generator groups by memory pointer and rotation, and collapses
a repeated query whose words agree; the Rust verifier groups by commitment
reference and point, and refuses a repeated query. Maps that number their keys
by insertion are lists of those keys.
-/

namespace Midfall.KzgQueryGrouping

open ListLoops OpeningGroups PlonkConstraintSystem ProtocolLowering
open VerifierMemory VerifierData

def groupBySet {Entry : Type} (setIndex : Entry → Nat) (count : Nat) (entries : List Entry) :
    List (List Entry) :=
  entries.foldl (fun groups entry => groups.modify (setIndex entry) (· ++ [entry]))
    (List.replicate count [])

namespace Codegen

/-- Append `(query_index, point)` to the raw query list. -/
structure DummyQuery where
  queryIndex : Nat
  rotation : Int
  deriving DecidableEq, Repr

/-- Record a query in the groups of rotations; a repeated rotation is skipped. -/
def groupQuery (queries : List Query) (groups : List (Nat × List Int)) (entry : Query × Nat) :
    List (Nat × List Int) :=
  let (query, index) := entry
  let sameComm := fun (group : Nat × List Int) =>
    decide (queries[group.1]?.map (·.comm) = some query.comm)
  match groups.find? sameComm with
  | some (_, points) =>
    if query.rotation ∈ points then groups
    else updateFirst sameComm (fun group => (group.1, group.2 ++ [query.rotation])) groups
  | none => groups ++ [(index, [query.rotation])]

def computeDummyQueries (queries : List Query) : List DummyQuery :=
  let groups := queries.zipIdx.foldl (groupQuery queries) []
  -- Union of all non-singleton point sets, in insertion order.
  let union := groups.foldl (fun union group =>
    if group.2.length ≤ 1 then union else group.2.foldl pushNew union) []
  groups.flatMap fun group =>
    (union.filter fun rotation => decide (rotation ∉ group.2)).map fun rotation =>
      { queryIndex := group.1, rotation }

/-- The i-th dummy uses the i-th dummy word; a count mismatch panics. -/
def augmentQueriesWithDummies (rawQueries : List Query) (dummyEvalWords : List Word) :
    Option (List Query) := do
  let dummies := computeDummyQueries rawQueries
  guard (dummies.length = dummyEvalWords.length)
  let added ← (dummies.zip dummyEvalWords).mapM fun (dummy, eval) => do
    let raw ← rawQueries[dummy.queryIndex]?
    return { rotation := dummy.rotation, comm := raw.comm, eval }
  return rawQueries ++ added

/-- A commitment with the indices of its points and its words there. -/
structure MapEntry where
  comm : EcPoint
  pointIndices : List Nat
  evals : List Word
  deriving DecidableEq, Repr

/-- Step 1 for one query; `none` is a panic on conflicting words. The index of a
new rotation is the number of known ones. -/
def recordQuery (state : List Int × List MapEntry) (query : Query) :
    Option (List Int × List MapEntry) :=
  let (rotations, commitmentMap) := state
  let pointIdx := rotations.idxOf query.rotation
  let rotations := pushNew rotations query.rotation
  let sameComm := fun (entry : MapEntry) => decide (entry.comm = query.comm)
  match commitmentMap.find? sameComm with
  | some slot =>
    if pointIdx ∈ slot.pointIndices then
      if slot.evals[slot.pointIndices.idxOf pointIdx]? = some query.eval then
        some (rotations, commitmentMap)
      else none
    else
      some (rotations, updateFirst sameComm (fun entry =>
        { entry with pointIndices := entry.pointIndices ++ [pointIdx]
                     evals := entry.evals ++ [query.eval] }) commitmentMap)
  | none => some (rotations, commitmentMap ++ [⟨query.comm, [pointIdx], [query.eval]⟩])

structure CommitmentEntry where
  setIndex : Nat
  comm : EcPoint
  evals : List Word
  deriving DecidableEq, Repr

structure IntermediateSets where
  commitments : List CommitmentEntry
  pointSets : List (List Int)
  deriving DecidableEq, Repr

/-- `sort_unstable` and `dedup`. -/
def sortedIndices (pointIndices : List Nat) : List Nat :=
  (pointIndices.insertionSort (· ≤ ·)).destutter (· ≠ ·)

def alignedEvals (sorted : List Nat) (entry : MapEntry) : Option (List Word) :=
  ((entry.pointIndices.zip entry.evals).foldl (fun aligned (index, eval) =>
    aligned.set (sorted.idxOf index) (some eval)) (sorted.map fun _ => none)).mapM id

def constructIntermediateSets (queries : List Query) : Option IntermediateSets := do
  let (rotations, commitmentMap) ← queries.foldlM recordQuery ([], [])
  -- Step 2: sets are numbered by insertion.
  let pointIdxSets := (commitmentMap.map fun entry => sortedIndices entry.pointIndices).foldl
    pushNew []
  -- Step 3: words aligned with the sorted point indices.
  let commitments ← commitmentMap.mapM fun entry => do
    let sorted := sortedIndices entry.pointIndices
    let setIndex ← pointIdxSets.idxOf? sorted
    let evals ← alignedEvals sorted entry
    return { setIndex, comm := entry.comm, evals : CommitmentEntry }
  -- Step 4: point sets as rotations.
  let pointSets ← pointIdxSets.mapM fun set => set.mapM fun index => rotations[index]?
  return { commitments, pointSets }

/-- New position of each set, written by position in the order. -/
def remap (order : List Nat) : List Nat :=
  order.zipIdx.foldl (fun remap (old, new) => remap.set old new) (List.replicate order.length 0)

/-- Sort point sets by cardinality, then by original index. -/
def sortSets (input : IntermediateSets) : IntermediateSets :=
  let order := sortOrder input.pointSets
  { commitments := input.commitments.map fun entry =>
      { entry with setIndex := (remap order).getD entry.setIndex 0 }
    pointSets := order.map fun position => input.pointSets.getD position [] }

/-- Build sorted intermediate sets, applying dummy queries when configured. -/
def intermediateSets (system : ConstraintSystemMeta) (data : Data) : Option IntermediateSets := do
  let raw ← queries system data
  let queries ← if data.dummyEvalWords = [] then some raw
    else augmentQueriesWithDummies raw data.dummyEvalWords
  let sets ← constructIntermediateSets queries
  return sortSets sets

def numDummyQueries (system : ConstraintSystemMeta) (data : Data) : Option Nat := do
  let raw ← queries system data
  return (computeDummyQueries raw).length

/-- Commitments of each sorted set with their words, in `x1` power order. -/
def setBatches (sets : IntermediateSets) : List (Batch EcPoint Int Word) :=
  (sets.pointSets.zip (groupBySet (·.setIndex) sets.pointSets.length sets.commitments)).map
    fun (points, entries) => { points, openings := entries.map fun entry => (entry.comm, entry.evals) }

/-- The two passes that size and bind the dummy words: the planner runs on the
raw queries, then the layout grows by the dummy evaluations. -/
def metaDataForVk (fewerPointSets : Bool) (protocol : ProtocolPlan) (vk : Halo2VerifyingKey)
    (vkMptr : Nat) (config : ConstraintSystemMeta → VerifierMemoryLayoutConfig) :
    Option (ConstraintSystemMeta × Data) := do
  let layoutFor := fun system => VerifierMemoryLayout.new system vk vkMptr (config system)
  let rawSystem := ConstraintSystemMeta.new protocol
  let rawData := Data.new rawSystem vk (layoutFor rawSystem)
  let dummies ← if fewerPointSets then numDummyQueries rawSystem rawData else some 0
  let system := rawSystem.setNumDummyEvals dummies
  let data := Data.new system vk (layoutFor system)
  if dummies > 0 then return (system, data.setDummyEvalWords rawSystem.numEvals dummies)
  else return (system, data)

end Codegen

namespace Verifier

/-- `Error::DuplicatedQuery`, or a panic. -/
inductive Failure where
  | duplicatedQuery
  | panicked
  deriving DecidableEq, Repr

def unwrap {Result : Type} : Option Result → Except Failure Result
  | some result => .ok result
  | none => .error .panicked

structure VerifierQuery (Label Commitment Field : Type) where
  point : Field
  commitmentLabel : Label
  commitment : Commitment
  eval : Field
  deriving DecidableEq, Repr

variable {Label Commitment Field : Type} [DecidableEq Commitment] [DecidableEq Field]

def groupPair {Key Point : Type} [DecidableEq Key] [DecidableEq Point] (pairs : List (Key × Point))
    (groups : List (Nat × List Point)) (entry : (Key × Point) × Nat) :
    Except Failure (List (Nat × List Point)) :=
  let ((key, point), index) := entry
  let sameKey := fun (group : Nat × List Point) => decide (pairs[group.1]?.map (·.1) = some key)
  match groups.find? sameKey with
  | some (_, points) =>
    if point ∈ points then .error .panicked
    else .ok (updateFirst sameKey (fun group => (group.1, group.2 ++ [point])) groups)
  | none => .ok (groups ++ [(index, [point])])

def computeDummyQueries {Key Point : Type} [DecidableEq Key] [DecidableEq Point]
    (pairs : List (Key × Point)) : Except Failure (List (Nat × Point)) := do
  let groups ← pairs.zipIdx.foldlM (groupPair pairs) []
  let union := groups.foldl (fun union group =>
    if group.2.length = 1 then union else group.2.foldl pushNew union) []
  return groups.flatMap fun group =>
    (union.filter fun point => decide (point ∉ group.2)).map (group.1, ·)

structure CommitmentData (Label Commitment Eval : Type) where
  commitmentLabel : Label
  commitment : Commitment
  setIndex : Nat
  pointIndices : List Nat
  evals : List Eval
  deriving DecidableEq, Repr

def recordQuery (state : List Field × List (CommitmentData Label Commitment Field))
    (query : VerifierQuery Label Commitment Field) :
    Except Failure (List Field × List (CommitmentData Label Commitment Field)) :=
  let (points, commitmentMap) := state
  let pointIdx := points.idxOf query.point
  let points := pushNew points query.point
  let sameCommitment := fun (entry : CommitmentData Label Commitment Field) =>
    decide (entry.commitment = query.commitment)
  match commitmentMap.find? sameCommitment with
  | some entry =>
    if pointIdx ∈ entry.pointIndices then .error .duplicatedQuery
    else .ok (points, updateFirst sameCommitment (fun entry =>
      { entry with pointIndices := entry.pointIndices ++ [pointIdx] }) commitmentMap)
  | none =>
    let fresh : CommitmentData Label Commitment Field :=
      { commitmentLabel := query.commitmentLabel
        commitment := query.commitment
        setIndex := 0
        pointIndices := [pointIdx]
        evals := [] }
    .ok (points, commitmentMap ++ [fresh])

/-- A `BTreeSet` read in order. -/
def btreeSet (indices : List Nat) : List Nat := indices.dedup.insertionSort (· ≤ ·)

def populateQuery (points : List Field) (pointIdxSets : List (List Nat))
    (commitmentSetMap : List (Commitment × List Nat))
    (commitmentMap : List (CommitmentData Label Commitment Field))
    (query : VerifierQuery Label Commitment Field) :
    Except Failure (List (CommitmentData Label Commitment Field)) := do
  let pointIndex ← unwrap (points.idxOf? query.point)
  let pointIndexSet ← unwrap ((commitmentSetMap.find? fun entry =>
    decide (entry.1 = query.commitment)).map (·.2))
  let setIndex ← unwrap (pointIdxSets.idxOf? pointIndexSet)
  let pointIndexInSet ← unwrap (pointIndexSet.idxOf? pointIndex)
  return commitmentMap.map fun entry =>
    if query.commitment = entry.commitment then
      { entry with setIndex, evals := entry.evals.set pointIndexInSet query.eval }
    else entry

def constructIntermediateSets [Inhabited Field]
    (queries : List (VerifierQuery Label Commitment Field)) :
    Except Failure (List (CommitmentData Label Commitment Field) × List (List Field)) := do
  let (points, recorded) ← queries.foldlM recordQuery ([], [])
  let pointIdxSets := (recorded.map fun entry => btreeSet entry.pointIndices).foldl pushNew []
  let commitmentSetMap := recorded.map fun entry => (entry.commitment, btreeSet entry.pointIndices)
  let emptied := recorded.map fun entry =>
    { entry with evals := List.replicate entry.pointIndices.length default }
  let commitmentMap ← queries.foldlM (populateQuery points pointIdxSets commitmentSetMap) emptied
  let pointSets ← unwrap (pointIdxSets.mapM fun set => set.mapM fun index => points[index]?)
  return (commitmentMap, pointSets)

/-- Commitments, evaluations and points of each set, before batching with `x1`. -/
structure PreparedSets (Commitment Field : Type) where
  qComs : List (List Commitment)
  qEvalSets : List (List (List Field))
  pointSets : List (List Field)
  deriving DecidableEq, Repr

/-- The queries that `multi_prepare` works on; dummy evaluations come from the transcript. -/
def queriesWithDummies (fewerPointSets : Bool)
    (queries : List (VerifierQuery Label Commitment Field)) (readEval : Nat → Field) :
    Except Failure (List (VerifierQuery Label Commitment Field)) :=
  if fewerPointSets then do
    let dummies ← computeDummyQueries (queries.map fun query => (query.commitment, query.point))
    let added ← dummies.zipIdx.mapM fun ((index, point), position) => do
      let query ← unwrap queries[index]?
      return { query with point, eval := readEval position }
    return queries ++ added
  else .ok queries

/-- The grouping and sorting steps of `multi_prepare`. -/
def prepareSets [Inhabited Field] (fewerPointSets : Bool)
    (queries : List (VerifierQuery Label Commitment Field)) (readEval : Nat → Field) :
    Except Failure (PreparedSets Commitment Field) := do
  let queries ← queriesWithDummies fewerPointSets queries readEval
  let (commitmentMap, pointSets) ← constructIntermediateSets queries
  let grouped := groupBySet (·.setIndex) pointSets.length commitmentMap
  let qComs := grouped.map fun entries => entries.map (·.commitment)
  let qEvalSets := grouped.map fun entries => entries.map (·.evals)
  let order := sortOrder pointSets
  return {
    qComs := order.map fun position => qComs.getD position []
    qEvalSets := order.map fun position => qEvalSets.getD position []
    pointSets := order.map fun position => pointSets.getD position [] }

def setBatches (sets : PreparedSets Commitment Field) : List (Batch Commitment Field Field) :=
  (sets.pointSets.zip (sets.qComs.zip sets.qEvalSets)).map fun (points, coms, evals) =>
    { points, openings := coms.zip evals }

end Verifier

end Midfall.KzgQueryGrouping
