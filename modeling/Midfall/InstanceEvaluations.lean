import Midfall.DomainRotations
import Midfall.ExpressionGraphs
import Midfall.LimbedPolynomials

/-!
# Evaluations of the instance columns

The verifier evaluates plain instance columns itself, with one window of
Lagrange polynomials for all columns and rotations. The prover interpolates the
columns, and refuses those that reach into the unusable rows.
-/

namespace Midfall.InstanceEvaluations

open DomainConversions DomainRotations ExpressionGraphs List
open LimbedPolynomials RadixTwo

variable {F : Type} [Field F]

/-! ### The prover -/

inductive ProverFailure where
  | instanceTooLarge
  | panicked
  deriving DecidableEq, Repr

/-- A difference of sizes; release builds wrap. -/
def subUsize (overflowChecks : Bool) (x y : Nat) : Option Nat :=
  if x < y then if overflowChecks then none else some (x + 2 ^ 64 - y) else some (x - y)

/-- `compute_instances` for one plain column: its polynomial. -/
def computeInstance (overflowChecks : Bool) (threads : Nat) (domain : EvaluationDomain F)
    (blindingFactors : Nat) (values : List F) : Except ProverFailure (List F) :=
  match subUsize overflowChecks domain.n (blindingFactors + 1) with
  | none => .error .panicked
  | some usable =>
    if usable < values.length then .error .instanceTooLarge
    else
      match domain.lagrangeToCoeff threads
        (values.take domain.n ++ replicate (domain.n - values.length) 0) with
      | some poly => .ok poly
      | none => .error .panicked

/-! ### The verifier -/

inductive Failure where
  | invalidInstances
  | transcript
  | panicked
  deriving DecidableEq, Repr

def unwrap {Result : Type} : Option Result → Except Failure Result
  | some result => .ok result
  | none => .error .panicked

/-- The rotations farthest from zero, below and above. -/
def rotationSpan (queries : List (Nat × Int)) : Int × Int :=
  queries.foldl (fun span query =>
    if query.2 < span.1 then (query.2, span.2)
    else if span.2 < query.2 then (span.1, query.2)
    else span) (0, 0)

def maxInstanceLen (instances : List (List (List F))) : Nat :=
  ((instances.flatMap fun columns => columns.map List.length).max?).getD 0

def windowEnd (overflowChecks : Bool) (maxInstanceLen : Nat) (minRotation : Int) : Option Int := do
  let size ← i32 overflowChecks minRotation.natAbs
  i32 overflowChecks ((maxInstanceLen : Int).bmod (2 ^ 32) + size)

/-- A range of integers, empty where it ends before its start. -/
def intRange (start stop : Int) : List Int :=
  (range (stop - start).toNat).map fun i : Nat => start + i

def slice {Entry : Type} (entries : List Entry) (start stop : Nat) : Option (List Entry) :=
  if start ≤ stop ∧ stop ≤ entries.length then some ((entries.drop start).take (stop - start))
  else none

def computeInnerProduct (a b : List F) : Option F :=
  if a.length ≠ b.length then none
  else some ((a.zip b).foldl (fun acc pair => acc + pair.1 * pair.2) 0)

def instanceEval (overflowChecks : Bool) (maxRotation : Int) (lIs : List F) (rotation : Int)
    (column : List F) : Option F := do
  let difference ← i32 overflowChecks (maxRotation - rotation)
  let offset := (difference % 2 ^ 64).toNat
  if overflowChecks && decide (2 ^ 64 ≤ offset + column.length) then none
  else
    let window ← slice lIs offset ((offset + column.length) % 2 ^ 64)
    computeInnerProduct column window

/-- `transcript.read`, with the evaluations that are left. -/
def transcriptRead : List F → Except Failure (F × List F)
  | [] => .error .transcript
  | eval :: rest => .ok (eval, rest)

/-- One query. Columns of committed instances come first; their evaluations are in the proof. -/
def queryEval (nbCommitted : Nat) (evalPlain : Int → List F → Option F) (columns : List (List F))
    (query : Nat × Int) (reads : List F) : Except Failure (F × List F) :=
  if query.1 < nbCommitted then transcriptRead reads
  else do
    let column ← unwrap columns[query.1 - nbCommitted]?
    let eval ← unwrap (evalPlain query.2 column)
    return (eval, reads)

def readAll {Item Result : Type} (step : Item → List F → Except Failure (Result × List F)) :
    List Item → List F → Except Failure (List Result × List F)
  | [], reads => .ok ([], reads)
  | item :: items, reads => do
    let result ← step item reads
    let others ← readAll step items result.2
    return (result.1 :: others.1, others.2)

/-- What the verifier knows of the instance columns. -/
structure InstanceQueries where
  numInstanceColumns : Nat
  nbCommitted : Nat
  queries : List (Nat × Int)

/-- The checks of `parse_trace`, then `instance_evals` of `verify_algebraic_constraints`, with the
evaluations that the transcript still has. -/
def instanceEvals (overflowChecks : Bool) (domain : EvaluationDomain F) (cs : InstanceQueries)
    (instances : List (List (List F))) (x : F) (reads : List F) :
    Except Failure (List (List F) × List F) :=
  if instances.isEmpty || instances.any fun columns =>
      cs.nbCommitted + columns.length != cs.numInstanceColumns then
    .error .invalidInstances
  else do
    let splittingFactor := x ^ (domain.n - 1)
    let xn := splittingFactor * x
    let span := rotationSpan cs.queries
    let stop ← unwrap (windowEnd overflowChecks (maxInstanceLen instances) span.1)
    let lIs := lIRange domain x xn (intRange (-span.2) stop)
    readAll (fun columns =>
      readAll (queryEval cs.nbCommitted (instanceEval overflowChecks span.2 lIs) columns) cs.queries)
      instances reads

/-! ### One query -/

section Query

variable {overflowChecks : Bool} {maxRotation rotation : Int} {lIs column : List F}

end Query

/-! ### The rotations -/

theorem span_run {queries : List (Nat × Int)} {span : Int × Int} (ordered : span.1 ≤ span.2)
    {bound : Int} (high : span.2 < bound) (bounds : ∀ query ∈ queries, query.2 < bound) :
    let final := queries.foldl (fun span query =>
      if query.2 < span.1 then (query.2, span.2)
      else if span.2 < query.2 then (span.1, query.2)
      else span) span
    final.1 ≤ span.1 ∧ span.2 ≤ final.2 ∧ final.2 < bound ∧
      ∀ query ∈ queries, final.1 ≤ query.2 ∧ query.2 ≤ final.2 := by
  induction queries generalizing span with
  | nil => exact ⟨le_refl _, le_refl _, high, fun _ mem => absurd mem not_mem_nil⟩
  | cons query rest ih =>
    have here := bounds query mem_cons_self
    have later : ∀ other ∈ rest, other.2 < bound := (forall_mem_cons.mp bounds).2
    dsimp only at ih ⊢
    rw [foldl_cons]
    split_ifs with lower higher
    · have run := @ih (query.2, span.2) (by dsimp only; omega) high later
      dsimp only at run
      refine ⟨by omega, run.2.1, run.2.2.1, ?_⟩
      intro other mem
      rcases mem_cons.mp mem with same | inRest
      · rw [same]
        constructor
        · exact run.1
        · omega
      · exact run.2.2.2 other inRest
    · have run := @ih (span.1, query.2) (by dsimp only; omega) here later
      dsimp only at run
      refine ⟨run.1, by omega, run.2.2.1, ?_⟩
      intro other mem
      rcases mem_cons.mp mem with same | inRest
      · rw [same]
        constructor
        · omega
        · exact run.2.1
      · exact run.2.2.2 other inRest
    · have run := @ih span ordered high later
      refine ⟨run.1, run.2.1, run.2.2.1, ?_⟩
      intro other mem
      rcases mem_cons.mp mem with same | inRest
      · rw [same]
        constructor
        · omega
        · omega
      · exact run.2.2.2 other inRest

/-- The span has all rotations and zero. -/
structure Spans (queries : List (Nat × Int)) (span : Int × Int) : Prop where
  low : span.1 ≤ 0
  high : 0 ≤ span.2
  word : span.2 < 2 ^ 31
  inside : ∀ query ∈ queries, span.1 ≤ query.2 ∧ query.2 ≤ span.2

theorem rotation_span_spans {queries : List (Nat × Int)}
    (words : ∀ query ∈ queries, query.2 < 2 ^ 31) : Spans queries (rotationSpan queries) := by
  have run := @span_run queries (0, 0) (le_refl 0) _ (by norm_num : (0 : Int) < 2 ^ 31) words
  exact {
    low := run.1
    high := run.2.1
    word := run.2.2.1
    inside := run.2.2.2 }

/-! ### Loops over a transcript -/

section Loops

variable {Item Result : Type} {step : Item → List F → Except Failure (Result × List F)}

end Loops

section Queries

variable {nbCommitted : Nat} {evalPlain : Int → List F → Option F} {columns : List (List F)}
  {query : Nat × Int}

end Queries

/-! ### The prover's columns -/

section Columns

variable {overflowChecks : Bool} {threads blindingFactors : Nat} {domain : EvaluationDomain F}

end Columns

/-! ### The verifier's columns -/

/-- The slices of the window are there, and no `i32` overflows. -/
def WindowFits (overflowChecks : Bool) (cs : InstanceQueries) (instances : List (List (List F))) :
    Prop :=
  ∃ stop, windowEnd overflowChecks (maxInstanceLen instances) (rotationSpan cs.queries).1 =
      some stop ∧
    ∀ query ∈ cs.queries, cs.nbCommitted ≤ query.1 → ∀ columns ∈ instances, ∀ column,
      columns[query.1 - cs.nbCommitted]? = some column →
        (rotationSpan cs.queries).2 - query.2 < 2 ^ 31 ∧
          ((rotationSpan cs.queries).2 - query.2).toNat + column.length ≤
            (stop + (rotationSpan cs.queries).2).toNat

section Settings

variable {overflowChecks : Bool} {threads blindingFactors : Nat} {domain : EvaluationDomain F}
  {cs : InstanceQueries} {instances : List (List (List F))} {x : F}

omit [Field F] in
/-- Columns and rotations of less than `2^31` rows together always fit the window. -/
theorem window_fits_of_small (words : ∀ query ∈ cs.queries, query.2 < 2 ^ 31)
    (small : (maxInstanceLen instances : Int) - (rotationSpan cs.queries).1 < 2 ^ 31)
    (narrow : (rotationSpan cs.queries).2 - (rotationSpan cs.queries).1 < 2 ^ 31) :
    WindowFits overflowChecks cs instances := by
  have spans := rotation_span_spans words
  have low := spans.low
  have high := spans.high
  have size : i32 overflowChecks (rotationSpan cs.queries).1.natAbs =
      some ((rotationSpan cs.queries).1.natAbs : Int) := i32_fits overflowChecks (by omega) (by omega)
  have length : ((maxInstanceLen instances : Nat) : Int).bmod (2 ^ 32) = maxInstanceLen instances :=
    (i32_wraps (i32_fits true (by omega) (by omega))).1.symm
  refine ⟨(maxInstanceLen instances : Int) + (rotationSpan cs.queries).1.natAbs, ?_, ?_⟩
  · rw [windowEnd, size, some_bind, length]
    exact i32_fits overflowChecks (by omega) (by omega)
  · intro query mem _ columns inInstances column stored
    have between := spans.inside query mem
    have listed : column.length ∈ instances.flatMap fun columns => columns.map List.length :=
      mem_flatMap.mpr
        ⟨columns, inInstances, mem_map_of_mem (mem_of_getElem? stored)⟩
    have longest : column.length ≤ maxInstanceLen instances := by
      rw [maxInstanceLen]
      cases largest : (instances.flatMap fun columns => columns.map List.length).max? with
      | none =>
        rw [max?_eq_none_iff] at largest
        rw [largest] at listed
        exact absurd listed not_mem_nil
      | some most => exact (max?_eq_some_iff.mp largest).2 _ listed
    constructor
    · omega
    · omega

end Settings

/-! ### Columns of four rows -/

/-- A committed column and a plain one, read in three rows, of two proofs. -/
def twoColumns : InstanceQueries where
  numInstanceColumns := 2
  nbCommitted := 1
  queries := [(1, 0), (0, 0), (1, -1), (1, 1)]

end Midfall.InstanceEvaluations
