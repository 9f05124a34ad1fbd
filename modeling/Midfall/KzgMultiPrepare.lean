import Midfall.KzgQueryGrouping

/-!
# Multi-open verification

`multi_prepare` of the Rust verifier on values: the commitments of each point
set are batched with powers of `x1`, the interpolated evaluations at `x3` are
folded with `x2`, and everything is combined with powers of `x4`. The result is
the pair of multi-scalar multiplications of the pairing check.
-/

namespace Midfall.KzgMultiPrepare

open KzgQueryGrouping OpeningGroups List

inductive CommitmentLabel where
  | advice (index : Nat)
  | instance (index : Nat)
  | fixed (index : Nat)
  | permutation (index : Nat)
  | custom (name : String)
  | noLabel
  deriving DecidableEq, Repr

variable {modulus : Nat} {C : Type}

def truncate (scalar : ZMod modulus) : ZMod modulus :=
  let nbBytes := ((modulus.size + 7) / 8 + 1) / 2
  ((scalar.val % 2 ^ (8 * nbBytes) : Nat) : ZMod modulus)

/-- The first powers, truncated where the feature says so. -/
def challengePowers (truncated : Bool) (base : ZMod modulus) (count : Nat) :
    List (ZMod modulus) :=
  (range count).map fun i => if truncated then truncate (base ^ i) else base ^ i

def evaluate (poly : List (ZMod modulus)) (point : ZMod modulus) : ZMod modulus :=
  poly.reverse.foldl (fun acc coeff => acc * point + coeff) 0

/-- Short polynomials at once, long ones by chunks, one for each thread. -/
def evalPolynomial (numThreads : Nat) (poly : List (ZMod modulus)) (point : ZMod modulus) :
    ZMod modulus :=
  let n := poly.length
  if n * 2 < numThreads then evaluate poly point
  else
    let chunkSize := (n + numThreads - 1) / numThreads
    ((range numThreads).map fun chunkIdx =>
      let start := chunkIdx * chunkSize
      evaluate ((poly.drop start).take chunkSize) point * point ^ start).foldl
        (fun acc coeff => acc + coeff) 0

/-- Multiply a polynomial by `(X - x_k) / (x_j - x_k)`. -/
def mulLinear (tmp : List (ZMod modulus)) (xk denom : ZMod modulus) : List (ZMod modulus) :=
  zipWith (fun a b => a * (-denom * xk) + b * denom) (tmp ++ [0]) (0 :: tmp)

def interpolationBasis (points : List (ZMod modulus)) (j : Nat) (xj : ZMod modulus) :
    List (ZMod modulus) :=
  (points.eraseIdx j).foldl (fun tmp xk => mulLinear tmp xk (xj - xk)⁻¹) [1]

def lagrangeInterpolate (points evals : List (ZMod modulus)) : Option (List (ZMod modulus)) :=
  if points.length ≠ evals.length ∨ ¬points.Nodup then none
  else if points.length = 1 then some (evals.take 1)
  else
    some (((points.zipIdx.zip evals).foldl (fun finalPoly entry =>
      (finalPoly.zip (interpolationBasis points entry.1.2 entry.1.1)).map fun coeffs =>
        coeffs.1 + coeffs.2 * entry.2) (replicate points.length 0)))

def innerProduct (values scalars : List (ZMod modulus)) : Option (ZMod modulus) :=
  match (values.zip scalars).map fun entry => entry.1 * entry.2 with
  | [] => none
  | first :: rest => some (rest.foldl (fun acc p => acc + p) first)

/-- The i-th entry of each vector times the scalar of the vector. -/
def evalsInnerProduct (evalsSet : List (List (ZMod modulus))) (scalars : List (ZMod modulus)) :
    Option (List (ZMod modulus)) := do
  let first ← evalsSet.head?
  (evalsSet.zip scalars).foldlM (fun res entry =>
    if entry.1.length < res.length then none
    else some ((res.zip entry.1).map fun pair => pair.1 + pair.2 * entry.2))
    (replicate first.length 0)

/-- A scalar and its base, with the label of the base. -/
structure Term (modulus : Nat) (C : Type) where
  label : CommitmentLabel
  scalar : ZMod modulus
  base : C
  deriving DecidableEq

/-- `scalars`, `bases` and `labels`, which only grow together. -/
abbrev MsmKzg (modulus : Nat) (C : Type) := List (Term modulus C)

def MsmKzg.scale (factor : ZMod modulus) (msm : MsmKzg modulus C) : MsmKzg modulus C :=
  msm.map fun term => { term with scalar := term.scalar * factor }

def MsmKzg.addMsm (msm other : MsmKzg modulus C) : MsmKzg modulus C := msm ++ other

section Group

variable [AddCommGroup C] [Module (ZMod modulus) C]

def msmSpecific (msm : MsmKzg modulus C) : C :=
  ((msm.filter fun term => decide (term.scalar ≠ 0)).map fun term => term.scalar • term.base).sum

def MsmKzg.eval (msm : MsmKzg modulus C) : C :=
  match msm with
  | [term] => if term.scalar = 1 then term.base else msmSpecific [term]
  | _ => msmSpecific msm

def MsmKzg.collapse (msm : MsmKzg modulus C) : MsmKzg modulus C :=
  [{ label := .noLabel, scalar := 1, base := msm.eval }]

theorem MsmKzg.eval_eq_sum (msm : MsmKzg modulus C) :
    msm.eval = (msm.map fun term => term.scalar • term.base).sum := by
  have specific : ∀ terms : MsmKzg modulus C,
      msmSpecific terms = (terms.map fun term => term.scalar • term.base).sum := by
    intro terms
    unfold msmSpecific
    induction terms with
    | nil => rfl
    | cons term terms ih =>
      by_cases zero : term.scalar = 0
      · rw [filter_cons_of_neg (by simpa using zero), ih, map_cons,
          sum_cons, zero, zero_smul, zero_add]
      · rw [filter_cons_of_pos (by simpa using zero), map_cons, map_cons,
          sum_cons, sum_cons, ih]
  unfold MsmKzg.eval
  split
  · rename_i term
    split_ifs with one
    · rw [map_singleton, sum_singleton, one, one_smul]
    · exact specific [term]
  · exact specific msm

end Group

def msmInnerProduct (msms : List (MsmKzg modulus C)) (scalars : List (ZMod modulus)) :
    MsmKzg modulus C :=
  (msms.zip scalars).flatMap fun entry => entry.1.scale entry.2

structure DualMsm (modulus : Nat) (C : Type) where
  left : MsmKzg modulus C
  right : MsmKzg modulus C
  deriving DecidableEq

def DualMsm.scale (factor : ZMod modulus) (dual : DualMsm modulus C) : DualMsm modulus C where
  left := dual.left.scale factor
  right := dual.right.scale factor

def DualMsm.addMsm (dual other : DualMsm modulus C) : DualMsm modulus C where
  left := dual.left.addMsm other.left
  right := dual.right.addMsm other.right

/-- One piece is compared by its cell, a linear combination by its values. -/
inductive CommitmentReference (modulus : Nat) (C : Type) where
  | onePiece (cell : Nat)
  | linear (points : List C) (scalars : List (ZMod modulus))
  deriving DecidableEq

/-- The label of a query, and those of the terms of a linear combination. -/
structure QueryLabel where
  label : CommitmentLabel
  termLabels : List CommitmentLabel
  deriving DecidableEq, Repr

/-- `(scalar, commitment)` pairs; the lengths of a linear combination must agree. -/
def CommitmentReference.asTerms (commitments : Nat → C) :
    CommitmentReference modulus C → Option (List (ZMod modulus × C))
  | .onePiece cell => some [(1, commitments cell)]
  | .linear points scalars =>
    if points.length ≠ scalars.length then none else some (scalars.zip points)

abbrev VerifierQuery (modulus : Nat) (C : Type) :=
  Verifier.VerifierQuery QueryLabel (CommitmentReference modulus C) (ZMod modulus)

abbrev CommitmentData (modulus : Nat) (C : Type) :=
  Verifier.CommitmentData QueryLabel (CommitmentReference modulus C) (ZMod modulus)

def commitmentMsm (commitments : Nat → C) (comData : CommitmentData modulus C) :
    Option (MsmKzg modulus C) := do
  let terms ← comData.commitment.asTerms commitments
  let termLabels := match comData.commitment with
    | .linear _ _ => comData.commitmentLabel.termLabels
    | .onePiece _ => replicate terms.length comData.commitmentLabel.label
  return (terms.zip termLabels).map fun entry =>
    { label := entry.2, scalar := entry.1.1, base := entry.1.2 }

/-- What the verifier reads from the transcript and squeezes from it. -/
structure OpeningProof (modulus : Nat) (C : Type) where
  dummyEval : Nat → ZMod modulus
  x1 : ZMod modulus
  x2 : ZMod modulus
  fCom : C
  x3 : ZMod modulus
  qEval : Nat → ZMod modulus
  x4 : ZMod modulus
  pi : C

/-- The features of the crate and the threads of the machine. -/
structure Build where
  fewerPointSets : Bool
  truncatedChallenges : Bool
  numThreads : Nat

section MultiPrepare

variable [DecidableEq C]

/-- The data of the commitments of each set, by ascending size of the set, and the sets. -/
def groupedCommitments [Fact modulus.Prime] (build : Build) (queries : List (VerifierQuery modulus C))
    (proof : OpeningProof modulus C) :
    Option (List (List (CommitmentData modulus C)) × List (List (ZMod modulus))) := do
  let queries ← (Verifier.queriesWithDummies build.fewerPointSets queries proof.dummyEval).toOption
  let sets ← (Verifier.constructIntermediateSets queries).toOption
  let grouped := groupBySet (·.setIndex) sets.2.length sets.1
  let order := sortOrder sets.2
  return (order.map fun position => grouped.getD position [],
    order.map fun position => sets.2.getD position [])

/-- The evaluation at `x3` that one set contributes to `f_eval`. -/
def setContribution (numThreads : Nat) (x3 : ZMod modulus) (points evals : List (ZMod modulus))
    (proofEval : ZMod modulus) : Option (ZMod modulus) := do
  let rPoly ← lagrangeInterpolate points evals
  let rEval := evalPolynomial numThreads rPoly x3
  let den := points.foldl (fun acc point => acc * (x3 - point)) 1
  if den = 0 then none else return (proofEval - rEval) * den⁻¹

/-- The sets are folded from the last one to the first. -/
def foldContributions (x2 : ZMod modulus) (contributions : List (ZMod modulus)) : ZMod modulus :=
  contributions.reverse.foldl (fun accEval eval => accEval * x2 + eval) 0

/-- Challenge `x3`, truncated where the feature says so. -/
def openingPoint (build : Build) (proof : OpeningProof modulus C) : ZMod modulus :=
  if build.truncatedChallenges then truncate proof.x3 else proof.x3

variable [AddCommGroup C] [Module (ZMod modulus) C]

/-- The MSMs of the sets and of `f_com` with the powers of `x4`. -/
def finalCommitment (build : Build) (x4 : ZMod modulus) (qComs : List (MsmKzg modulus C)) (fCom : C) :
    MsmKzg modulus C :=
  let collapsed := if build.truncatedChallenges then
    qComs.take 1 ++ (qComs.drop 1).map MsmKzg.collapse else qComs
  msmInnerProduct (collapsed ++ [[{ label := .noLabel, scalar := 1, base := fCom }]])
    (challengePowers build.truncatedChallenges x4 (qComs.length + 1))

/-- `(π, C − vG + zπ)`. -/
def assembleDual (generator : C) (finalCom : MsmKzg modulus C) (x3 v : ZMod modulus) (pi : C) :
    DualMsm modulus C where
  left := [{ label := .custom "π", scalar := 1, base := pi }]
  right := finalCom ++ [{ label := .custom "π", scalar := x3, base := pi },
    { label := .custom "-G", scalar := v, base := -generator }]

def multiPrepare [Fact modulus.Prime] (build : Build) (generator : C) (commitments : Nat → C)
    (queries : List (VerifierQuery modulus C)) (proof : OpeningProof modulus C) :
    Option (DualMsm modulus C) := do
  let (grouped, pointSets) ← groupedCommitments build queries proof
  let qComs ← grouped.mapM fun entries => entries.mapM (commitmentMsm commitments)
  let nbX1Powers := (qComs.map List.length).foldl max 0
  let powersX1 := challengePowers build.truncatedChallenges proof.x1 nbX1Powers
  let qComs := qComs.map fun msms => msmInnerProduct msms powersX1
  let qEvalSets ← grouped.mapM fun entries => evalsInnerProduct (entries.map (·.evals)) powersX1
  let x3 := openingPoint build proof
  let qEvalsOnX3 := (range qEvalSets.length).map proof.qEval
  let contributions ← ((pointSets.zip qEvalSets).zip qEvalsOnX3).mapM fun entry =>
    setContribution build.numThreads x3 entry.1.1 entry.1.2 entry.2
  let fEval := foldContributions proof.x2 contributions
  let v ← innerProduct (qEvalsOnX3 ++ [fEval])
    (challengePowers build.truncatedChallenges proof.x4 (qEvalsOnX3.length + 1))
  return assembleDual generator (finalCommitment build proof.x4 qComs proof.fCom) x3 v proof.pi

end MultiPrepare

end Midfall.KzgMultiPrepare
