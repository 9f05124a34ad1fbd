import Midfall.PlonkExpressions
import Midfall.PlonkVerifier

/-!
# Identities at an evaluation point

The permutation and lookup identities of a proof, in the order in which the
verifier and the prover batch them.
-/

namespace Midfall.PlonkIdentities

open PlonkConstraintSystem PlonkExpressions PlonkVerifier
open ProofReadOrder

variable {F : Type}

/-- A lookup, `[parallel_lookup][width]` inputs. -/
structure LookupArgument (F : Type) where
  selector : Expression F
  inputExpressions : List (List (Expression F))
  tableExpressions : List (Expression F)

/-- The degrees of a lookup decide how many inputs share a helper. -/
def LookupArgument.degrees (lookup : LookupArgument F) : BatchedArgument where
  inputDegrees := lookup.inputExpressions.map fun input => input.map Expression.degree
  selectorDegree := lookup.selector.degree
  tableDegrees := lookup.tableExpressions.map Expression.degree

def LookupArgument.chunkByDegree (lookup : LookupArgument F) (csDegree : Nat) :
    Option (List (List (List (Expression F)))) :=
  ProofReadOrder.chunkByDegree lookup.degrees lookup.inputExpressions csDegree

/-- The challenges and the Lagrange polynomials at the point. -/
structure Challenges (F : Type) where
  x : F
  beta : F
  gamma : F
  theta : F
  trash : F
  challenges : Nat → F
  l0 : F
  lLast : F
  lBlind : F
  /-- `F::DELTA`. -/
  delta : F

variable [Field F]

def columnEval (point : Point F) : AnyColumn → F
  | .advice index => point.advice { column := index, rotation := 0 }
  | .fixed index => point.fixed { column := index, rotation := 0 }
  | .instance index => point.instances { column := index, rotation := 0 }

/-- `z (eval + beta permutation + gamma) ...` over one chunk. -/
def permutationLeft (beta gamma : F) (start : F) (pairs : List (F × F)) : F :=
  pairs.foldl (fun left pair => left * (pair.1 + beta * pair.2 + gamma)) start

/-- `z (eval + delta^i beta x + gamma) ...`, with the running power. -/
def permutationRight (delta gamma : F) (start : F × F) (evals : List F) : F × F :=
  evals.foldl (fun state eval => (state.1 * (eval + state.2 + gamma), state.2 * delta)) start

def permutationChunk (point : Challenges F) (current : F) (set : PermutationEvaluated F)
    (evals permutationEvals : List F) : F :=
  let left := permutationLeft point.beta point.gamma set.productNextEval (evals.zip permutationEvals)
  let right := (permutationRight point.delta point.gamma (set.productEval, current) evals).1
  (left - right) * (1 - (point.lLast + point.lBlind))

/-- The previous product at the last row is unwrapped. -/
def permutationLink (l0 : F) (set last : PermutationEvaluated F) : Option F :=
  last.productLastEval.map fun prevLast => (set.productEval - prevLast) * l0

def permutationExpressions (columns : List AnyColumn) (csDegree : Nat) (permutationCommon : List F)
    (values : Point F) (point : Challenges F) (sets : List (PermutationEvaluated F)) :
    Option (List F) := do
  let chunkLen := csDegree - 2
  let first := sets.head?.map fun set => point.l0 * (1 - set.productEval)
  let last := sets.getLast?.map fun set =>
    (set.productEval ^ 2 - set.productEval) * point.lLast
  let links ← ((sets.drop 1).zip sets).mapM fun pair => permutationLink point.l0 pair.1 pair.2
  let products := (((sets.zip (chunks chunkLen columns)).zip
    (chunks chunkLen permutationCommon)).zipIdx).map fun entry =>
      permutationChunk point
        (point.beta * point.x * point.delta ^ (entry.2 * chunkLen)) entry.1.1.1
        (entry.1.1.2.map (columnEval values)) entry.1.2
  return first.toList ++ last.toList ++ links ++ products

/-- `acc * challenge + eval` over the values of the expressions. -/
def compressExpressions (values : Point F) (challenge : F) (expressions : List (Expression F)) : F :=
  expressions.foldl (fun acc expression => acc * challenge + expression.value values) 0

/-- `h ∏ (f + beta) - Σ ∏ (f + beta) / (f + beta)`; the inverse is unwrapped. -/
def helperConstraint [DecidableEq F] (helperEval : F) (inputs : List F) : Option F := do
  let product := inputs.foldl (fun acc f => acc * f) 1
  let partialProducts ← inputs.mapM fun f => if f = 0 then none else some (product * f⁻¹)
  return helperEval * product - partialProducts.foldl (fun acc f => acc + f) 0

def lookupExpressions [DecidableEq F] (selector : Expression F)
    (inputChunks : List (List (List (Expression F)))) (tableExpressions : List (Expression F))
    (values : Point F) (point : Challenges F) (evaluated : LookupEvaluated F) : Option (List F) := do
  let activeRows := 1 - (point.lLast + point.lBlind)
  let compressedTable := compressExpressions values point.theta tableExpressions
  let boundary := (point.l0 + point.lLast) * evaluated.accumulatorEval
  let pairs := inputChunks.zip evaluated.helperEvals
  let helperConstraints ← pairs.mapM fun pair => helperConstraint pair.2
    (pair.1.map fun input => compressExpressions values point.theta input + point.beta)
  let sumHelpers := pairs.foldl (fun acc pair => acc + pair.2) 0
  let diff := (evaluated.accumulatorNextEval - evaluated.accumulatorEval -
    selector.value values * sumHelpers) * (compressedTable + point.beta) + evaluated.multiplicitiesEval
  return boundary :: helperConstraints ++ [diff * activeRows]

def lookupIdentities [DecidableEq F] (csDegree : Nat) (values : Point F) (point : Challenges F)
    (pair : LookupEvaluated F × LookupArgument F) : Option (List F) := do
  let inputChunks ← pair.2.chunkByDegree csDegree
  lookupExpressions pair.2.selector inputChunks pair.2.tableExpressions values point pair.1

end Midfall.PlonkIdentities
