import Mathlib
import Midfall.ListLoops

/-!
# Constraint systems as the lowering reads them

The columns, queries, selectors and arguments of a PLONK constraint system,
with each expression reduced to its degree. The fields of `ConstraintSystem`
behind the data are what the allocation and query methods keep: a query index
is looked up before a query is pushed, and a challenge needs an advice column
in its phase. A division by zero and a chunk size of zero are panics (`none`).
-/

namespace Midfall.PlonkConstraintSystem

/-- Column index and rotation of one polynomial query. -/
structure QueryKey where
  column : Nat
  rotation : Int
  deriving DecidableEq, Repr

/-- `Column<Any>`. -/
inductive AnyColumn where
  | advice (index : Nat)
  | fixed (index : Nat)
  | instance (index : Nat)
  deriving DecidableEq, Repr

/-- Whether the selector is simple, and its fixed column after conversion. -/
structure SelectorFlag where
  isSimple : Bool
  colIdx : Option Nat
  deriving DecidableEq, Repr

/-- `iter().max().unwrap_or(default)`. -/
def maxOr (default : Nat) (values : List Nat) : Nat := values.max?.getD default

theorem le_max_or {default value : Nat} {values : List Nat} (mem : value ∈ values) :
    value ≤ maxOr default values := by
  exact List.le_max?_getD_of_mem mem

/-- `usize::div_ceil`, the number of chunks of a slice. -/
def divCeil (count size : Nat) : Nat := (count + size - 1) / size

/-- `usize::next_power_of_two`. -/
def nextPowerOfTwo (n : Nat) : Nat := 2 ^ Nat.clog 2 n

/-- A batched LogUp lookup: degrees of `[parallel_lookup][width]` inputs. -/
structure BatchedArgument where
  inputDegrees : List (List Nat)
  selectorDegree : Nat
  tableDegrees : List Nat
  deriving DecidableEq, Repr

namespace BatchedArgument

variable (lookup : BatchedArgument)

def lookupDegree : Nat := maxOr 1 lookup.inputDegrees.flatten

def nbParallelLookupsPerChunk (csDegree : Nat) : Option Nat :=
  let maxDegree := nextPowerOfTwo (csDegree - 1) + 1
  if lookup.lookupDegree = 0 then none else some ((maxDegree - 1) / lookup.lookupDegree)

/-- The degree of the helper and accumulator constraints after batching. -/
def degreeBatchedArgument (csDegree : Nat) : Option Nat := do
  let parallel ← lookup.nbParallelLookupsPerChunk csDegree
  let helperConstraintDegree := parallel * lookup.lookupDegree + 1
  let accumulatorConstraintDegree := 2 + lookup.selectorDegree + maxOr 1 lookup.tableDegrees
  return nextPowerOfTwo (max helperConstraintDegree accumulatorConstraintDegree - 1) + 1

/-- Number of degree-bounded chunks; `chunks(0)` panics. -/
def numChunks (csDegree : Nat) : Option Nat := do
  let parallel ← lookup.nbParallelLookupsPerChunk csDegree
  if parallel = 0 then none else return divCeil lookup.inputDegrees.length parallel

end BatchedArgument

structure ConstraintSystem where
  numFixedColumns : Nat
  selectorFlags : List SelectorFlag
  /-- The phase of each advice column. -/
  adviceColumnPhase : List Nat
  challengePhase : List Nat
  /-- The degrees of each gate's polynomials. -/
  gates : List (List Nat)
  adviceQueries : List QueryKey
  instanceQueries : List QueryKey
  fixedQueries : List QueryKey
  permutationColumns : List AnyColumn
  lookups : List BatchedArgument
  /-- The degrees of each trash argument's constraints. -/
  trashcans : List (List Nat)
  minimumDegree : Option Nat
  adviceQueries_nodup : adviceQueries.Nodup
  adviceQueries_column : ∀ query ∈ adviceQueries, query.column < adviceColumnPhase.length
  instanceQueries_nodup : instanceQueries.Nodup
  fixedQueries_nodup : fixedQueries.Nodup
  fixedQueries_column : ∀ query ∈ fixedQueries, query.column < numFixedColumns
  permutationColumns_nodup : permutationColumns.Nodup
  challengePhase_allocated : ∀ phase ∈ challengePhase, phase ∈ adviceColumnPhase

namespace ConstraintSystem

variable (cs : ConstraintSystem)

def permutationRequiredDegree : Nat := 3

def trashRequiredDegree (degrees : List Nat) : Nat := max 2 (maxOr 0 degrees)

def degree : Option Nat := do
  let degreeWithoutLookup := maxOr 1 <|
    [permutationRequiredDegree] ++ (cs.trashcans.map trashRequiredDegree).max?.toList ++
      cs.gates.flatten.max?.toList ++ cs.minimumDegree.toList
  let lookupDegrees ← cs.lookups.mapM (·.degreeBatchedArgument degreeWithoutLookup)
  return max degreeWithoutLookup (maxOr degreeWithoutLookup lookupDegrees)

def lookupChunks (csDegree : Nat) : Option (List Nat) := cs.lookups.mapM (·.numChunks csDegree)

def numAdviceQueries : List Nat :=
  (List.range cs.adviceColumnPhase.length).map fun column =>
    cs.adviceQueries.countP (·.column = column)

/-- Blinding factors for the given number of helper polynomials. -/
def blindingFactors (lookupChunks : List Nat) : Nat :=
  max 3 (maxOr 1 cs.numAdviceQueries) + cs.trashcans.length + lookupChunks.sum + 1 + 1 + 1

def hasSimpleSelectorCol (column : Nat) : Bool :=
  cs.selectorFlags.any fun flag => flag.isSimple && flag.colIdx == some column

def numSimpleSelectors : Nat := cs.selectorFlags.countP (·.isSimple)

def phases : List Nat := List.range (maxOr 0 cs.adviceColumnPhase + 1)

theorem degree_bound {degree : Nat} (computed : cs.degree = some degree) : 3 ≤ degree := by
  simp only [ConstraintSystem.degree, bind_some_iff, pure_some_iff] at computed
  obtain ⟨lookupDegrees, -, rfl⟩ := computed
  apply le_trans _ (Nat.le_max_left _ _)
  exact le_max_or (by simp [permutationRequiredDegree])

end ConstraintSystem

end Midfall.PlonkConstraintSystem
