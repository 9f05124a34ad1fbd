import Midfall.ListLoops
import Midfall.PlonkExpressions
import Midfall.StraightLinePrograms

/-!
# Expressions as calculation graphs

The quotient is evaluated at every row of a coset, so the expressions are first
compiled to a list of calculations in which equal calculations are stored once.
A panic (a virtual selector, an index outside of its list, an overflow when
overflows are checked) is `none`.
-/

namespace Midfall.ExpressionGraphs

open ListLoops PlonkConstraintSystem PlonkExpressions List
open StraightLinePrograms

variable {F : Type}

theorem map_m_mono {Input Output : Type} {first second : Input → Option Output}
    {inputs : List Input} {outputs : List Output} (ran : inputs.mapM first = some outputs)
    (grows : ∀ input ∈ inputs, ∀ output, first input = some output → second input = some output) :
    inputs.mapM second = some outputs := by
  induction inputs generalizing outputs with
  | nil => exact ran
  | cons input inputs ih =>
    rw [mapM_cons] at ran ⊢
    simp only [bind_some_iff, pure_some_iff] at ran
    rcases ran with ⟨output, returned, rest, restReturned, rfl⟩
    rw [grows input mem_cons_self output returned, ih restReturned (forall_mem_cons.mp grows).2]
    rfl

/-! ### Rows -/

/-- An `i32` result. -/
def i32 (overflowChecks : Bool) (value : Int) : Option Int :=
  let wrapped := value.bmod (2 ^ 32)
  if overflowChecks && wrapped != value then none else some wrapped

theorem i32_fits (overflowChecks : Bool) {value : Int} (low : -2 ^ 31 ≤ value)
    (high : value < 2 ^ 31) : i32 overflowChecks value = some value := by
  have same : value.bmod (2 ^ 32) = value := by
    simp only [Int.bmod]
    split_ifs with half
    · omega
    · omega
  rw [i32]
  simp only [same, bne_self_eq_false, Bool.and_false, Bool.false_eq_true, if_false]

theorem i32_wraps {overflowChecks : Bool} {value result : Int}
    (returned : i32 overflowChecks value = some result) :
    result = value.bmod (2 ^ 32) ∧ -2 ^ 31 ≤ result ∧ result < 2 ^ 31 := by
  rw [i32] at returned
  split_ifs at returned with changed
  have same := (Option.some.inj returned).symm
  have low := Int.le_bmod (x := value) (by norm_num : 0 < 2 ^ 32)
  have high := Int.bmod_lt (x := value) (by norm_num : 0 < 2 ^ 32)
  rw [← same] at low high
  norm_num at low high
  exact ⟨same, by omega, by omega⟩

/-- The index in a polynomial of size `isize` after a rotation. -/
def getRotationIdx (overflowChecks : Bool) (idx : Nat) (rot rotScale isize : Int) : Option Nat := do
  let scaled ← i32 overflowChecks (rot * rotScale)
  let shifted ← i32 overflowChecks ((idx : Int).bmod (2 ^ 32) + scaled)
  -- `rem_euclid` panics on zero and on `MIN` by -1.
  if isize = 0 ∨ shifted = -2 ^ 31 ∧ isize = -1 then none else return (shifted.emod isize).toNat

structure Inputs (F : Type) where
  fixedColumns : List (List F)
  adviceColumns : List (List F)
  instanceColumns : List (List F)
  challenges : List F
  beta : F
  theta : F
  trashChallenge : F
  y : F
  previousValue : F
  idx : Nat
  rotScale : Int
  isize : Int
  overflowChecks : Bool

def Inputs.rotationIdx (inputs : Inputs F) (rot : Int) : Option Nat :=
  getRotationIdx inputs.overflowChecks inputs.idx rot inputs.rotScale inputs.isize

/-- `columns[column][row]`. -/
def columnValue (columns : List (List F)) (column row : Nat) : Option F :=
  columns[column]?.bind fun values => values[row]?

/-! ### Calculations -/

/-- A value used in a calculation; the second index of a column is that of its rotation. -/
inductive ValueSource where
  | constant (index : Nat)
  | intermediate (index : Nat)
  | fixed (column rotation : Nat)
  | advice (column rotation : Nat)
  | instance (column rotation : Nat)
  | challenge (index : Nat)
  | beta
  | theta
  | trashChallenge
  | y
  | previousValue
  deriving DecidableEq, Repr

namespace ValueSource

/-- What the derived order compares: the variant, then its fields. -/
def key : ValueSource → Nat × Nat × Nat
  | .constant index => (0, index, 0)
  | .intermediate index => (1, index, 0)
  | .fixed column rotation => (2, column, rotation)
  | .advice column rotation => (3, column, rotation)
  | .instance column rotation => (4, column, rotation)
  | .challenge index => (5, index, 0)
  | .beta => (6, 0, 0)
  | .theta => (7, 0, 0)
  | .trashChallenge => (8, 0, 0)
  | .y => (9, 0, 0)
  | .previousValue => (10, 0, 0)

/-- `PartialOrd::le`, as derived. -/
def le (a b : ValueSource) : Bool :=
  ((compare a.key.1 b.key.1).then
    ((compare a.key.2.1 b.key.2.1).then (compare a.key.2.2 b.key.2.2))) != .gt

/-- The value of a source. -/
def get (rotations : List Nat) (constants intermediates : List F) (inputs : Inputs F) :
    ValueSource → Option F
  | .constant index => constants[index]?
  | .intermediate index => intermediates[index]?
  | .fixed column rotation => rotations[rotation]?.bind (columnValue inputs.fixedColumns column)
  | .advice column rotation => rotations[rotation]?.bind (columnValue inputs.adviceColumns column)
  | .instance column rotation =>
    rotations[rotation]?.bind (columnValue inputs.instanceColumns column)
  | .challenge index => inputs.challenges[index]?
  | .beta => some inputs.beta
  | .theta => some inputs.theta
  | .trashChallenge => some inputs.trashChallenge
  | .y => some inputs.y
  | .previousValue => some inputs.previousValue

def reads : ValueSource → List Nat
  | .intermediate index => [index]
  | _ => []

end ValueSource

inductive Calculation where
  | add (a b : ValueSource)
  | sub (a b : ValueSource)
  | mul (a b : ValueSource)
  | square (v : ValueSource)
  | double (v : ValueSource)
  | negate (v : ValueSource)
  /-- `val = a; val = val * c + b[]`. -/
  | horner (startValue : ValueSource) (parts : List ValueSource) (factor : ValueSource)
  | store (v : ValueSource)
  deriving DecidableEq, Repr

namespace Calculation

variable [Field F]

def evaluate (getValue : ValueSource → Option F) : Calculation → Option F
  | .add a b => do return (← getValue a) + (← getValue b)
  | .sub a b => do return (← getValue a) - (← getValue b)
  | .mul a b => do return (← getValue a) * (← getValue b)
  | .square v => do return (← getValue v) ^ 2
  | .double v => do
    let value ← getValue v
    return value + value
  | .negate v => do return -(← getValue v)
  | .horner startValue parts factor => do
    let factor ← getValue factor
    let start ← getValue startValue
    let values ← parts.mapM getValue
    return values.foldl (fun value part => value * factor + part) start
  | .store v => getValue v

def sources : Calculation → List ValueSource
  | .add a b => [a, b]
  | .sub a b => [a, b]
  | .mul a b => [a, b]
  | .square v => [v]
  | .double v => [v]
  | .negate v => [v]
  | .horner startValue parts factor => factor :: startValue :: parts
  | .store v => [v]

def reads (calculation : Calculation) : List Nat := calculation.sources.flatMap ValueSource.reads

section Sources

variable {first second : ValueSource → Option F} {calculation : Calculation}

theorem evaluate_mono {value : F} (grows : ∀ source ∈ calculation.sources, ∀ value,
      first source = some value → second source = some value)
    (computed : calculation.evaluate first = some value) :
    calculation.evaluate second = some value := by
  cases calculation with
  | horner startValue parts factor =>
    simp only [evaluate, bind_some_iff, pure_some_iff] at computed ⊢
    rcases computed with ⟨scale, scaled, start, started, values, read, total⟩
    have parts_read : parts.mapM second = some values :=
      map_m_mono read fun part mem => grows part (by simp [sources, mem])
    exact ⟨scale, grows factor (by simp [sources]) scale scaled, start,
      grows startValue (by simp [sources]) start started, values, parts_read, total⟩
  | store v => exact grows v (by simp [sources]) value computed
  | _ =>
    simp only [evaluate, sources, mem_cons, not_mem_nil, or_false, forall_eq_or_imp,
      forall_eq, bind_some_iff, Option.pure_def] at *
    grind

theorem evaluate_congr (same : ∀ source ∈ calculation.sources, first source = second source) :
    calculation.evaluate first = calculation.evaluate second := by
  apply Option.ext
  intro value
  constructor
  · exact evaluate_mono fun source mem value known => by rwa [← same source mem]
  · exact evaluate_mono fun source mem value known => by rwa [same source mem]

end Sources

end Calculation

/-! ### The graph -/

structure CalculationInfo where
  calculation : Calculation
  target : Nat
  deriving DecidableEq, Repr

structure GraphEvaluator (F : Type) where
  constants : List F
  rotations : List Int
  calculations : List CalculationInfo
  numIntermediates : Nat

/-- Intermediates and row indices of the rotations. -/
structure EvaluationData (F : Type) where
  intermediates : List F
  rotations : List Nat

namespace GraphEvaluator

variable [Field F] [DecidableEq F]

/-- `GraphEvaluator::default`: fixed positions for 0, 1 and 2. -/
def default : GraphEvaluator F where
  constants := [0, 1, ((2 : Nat) : F)]
  rotations := []
  calculations := []
  numIntermediates := 0

def addRotation (graph : GraphEvaluator F) (rotation : Int) : GraphEvaluator F × Nat :=
  match graph.rotations.idxOf? rotation with
  | some position => (graph, position)
  | none => ({ graph with rotations := graph.rotations ++ [rotation] }, graph.rotations.length)

def addConstant (graph : GraphEvaluator F) (constant : F) : GraphEvaluator F × ValueSource :=
  match graph.constants.idxOf? constant with
  | some position => (graph, .constant position)
  | none =>
    ({ graph with constants := graph.constants ++ [constant] }, .constant graph.constants.length)

def addCalculation (graph : GraphEvaluator F) (calculation : Calculation) :
    GraphEvaluator F × ValueSource :=
  match graph.calculations.find? fun info => info.calculation = calculation with
  | some existing => (graph, .intermediate existing.target)
  | none =>
    ({ graph with
        calculations := graph.calculations ++ [⟨calculation, graph.numIntermediates⟩]
        numIntermediates := graph.numIntermediates + 1 },
      .intermediate graph.numIntermediates)

def addColumn (graph : GraphEvaluator F) (source : Nat → Nat → ValueSource) (query : QueryKey) :
    GraphEvaluator F × ValueSource :=
  let added := graph.addRotation query.rotation
  added.1.addCalculation (.store (source query.column added.2))

def addNegated (graph : GraphEvaluator F) (a : ValueSource) : GraphEvaluator F × ValueSource :=
  if a = .constant 0 then (graph, a) else graph.addCalculation (.negate a)

/-- A subtraction that was stored as `a + (-b)`. -/
def addDifference (graph : GraphEvaluator F) (a b : ValueSource) : GraphEvaluator F × ValueSource :=
  if a = .constant 0 then graph.addCalculation (.negate b)
  else if b = .constant 0 then (graph, a)
  else graph.addCalculation (.sub a b)

def addSum (graph : GraphEvaluator F) (a b : ValueSource) : GraphEvaluator F × ValueSource :=
  if a = .constant 0 then (graph, b)
  else if b = .constant 0 then (graph, a)
  else if a.le b then graph.addCalculation (.add a b)
  else graph.addCalculation (.add b a)

def addProduct (graph : GraphEvaluator F) (a b : ValueSource) : GraphEvaluator F × ValueSource :=
  if a = .constant 0 ∨ b = .constant 0 then (graph, .constant 0)
  else if a = .constant 1 then (graph, b)
  else if b = .constant 1 then (graph, a)
  else if a = .constant 2 then graph.addCalculation (.double b)
  else if b = .constant 2 then graph.addCalculation (.double a)
  else if a = b then graph.addCalculation (.square a)
  else if a.le b then graph.addCalculation (.mul a b)
  else graph.addCalculation (.mul b a)

def addExpression : GraphEvaluator F → Expression F → Option (GraphEvaluator F × ValueSource)
  | graph, .constant scalar => some (graph.addConstant scalar)
  | _, .selector _ => none
  | graph, .fixed query => some (graph.addColumn .fixed query)
  | graph, .advice query => some (graph.addColumn .advice query)
  | graph, .instance query => some (graph.addColumn .instance query)
  | graph, .challenge index => some (graph.addCalculation (.store (.challenge index)))
  | graph, .negated (.constant scalar) => some (graph.addConstant (-scalar))
  | graph, .negated a => do
    let resultA ← addExpression graph a
    return resultA.1.addNegated resultA.2
  | graph, .sum a (.negated b) => do
    let resultA ← addExpression graph a
    let resultB ← addExpression resultA.1 b
    return resultB.1.addDifference resultA.2 resultB.2
  | graph, .sum a b => do
    let resultA ← addExpression graph a
    let resultB ← addExpression resultA.1 b
    return resultB.1.addSum resultA.2 resultB.2
  | graph, .product a b => do
    let resultA ← addExpression graph a
    let resultB ← addExpression resultA.1 b
    return resultB.1.addProduct resultA.2 resultB.2
  | graph, .scaled a f =>
    if f = 0 then some (graph, .constant 0)
    else if f = 1 then addExpression graph a
    else do
      let constant := graph.addConstant f
      let resultA ← addExpression constant.1 a
      return resultA.1.addCalculation (.mul resultA.2 constant.2)

def addExpressions : GraphEvaluator F → List (Expression F) →
    Option (GraphEvaluator F × List ValueSource)
  | graph, [] => some (graph, [])
  | graph, expression :: rest => do
    let added ← graph.addExpression expression
    let others ← addExpressions added.1 rest
    return (others.1, added.2 :: others.2)

def evaluationInstance (graph : GraphEvaluator F) : EvaluationData F where
  intermediates := replicate graph.numIntermediates 0
  rotations := replicate graph.rotations.length 0

/-- One calculation, from the intermediates before it. -/
def step (rotations : List Nat) (constants : List F) (inputs : Inputs F) (intermediates : List F)
    (info : CalculationInfo) : Option F :=
  info.calculation.evaluate (ValueSource.get rotations constants intermediates inputs)

def lastResult (graph : GraphEvaluator F) (intermediates : List F) : Option F :=
  match graph.calculations.getLast? with
  | some info => intermediates[info.target]?
  | none => some 0

/-- Rotations and intermediates are written in place. -/
def evaluate (graph : GraphEvaluator F) (data : EvaluationData F) (inputs : Inputs F) :
    Option (EvaluationData F × F) := do
  let rotations ← overwrite (fun _ entry => inputs.rotationIdx entry.1) Prod.snd data.rotations
    graph.rotations.zipIdx
  let intermediates ← overwrite (step rotations graph.constants inputs) CalculationInfo.target
    data.intermediates graph.calculations
  let result ← graph.lastResult intermediates
  return (⟨intermediates, rotations⟩, result)

end GraphEvaluator

/-- Simple evaluation of an expression at one row. -/
def evaluateAt [Field F] (inputs : Inputs F) (expression : Expression F) : Option F :=
  expression.evaluate {
    constant := fun scalar => some scalar
    selectorColumn := fun _ => none
    fixedColumn := fun query => (inputs.rotationIdx query.rotation).bind
      (columnValue inputs.fixedColumns query.column)
    adviceColumn := fun query => (inputs.rotationIdx query.rotation).bind
      (columnValue inputs.adviceColumns query.column)
    instanceColumn := fun query => (inputs.rotationIdx query.rotation).bind
      (columnValue inputs.instanceColumns query.column)
    challenge := fun index => inputs.challenges[index]?
    negated := fun a => a.map fun value => -value
    sum := fun a b => do return (← a) + (← b)
    product := fun a b => do return (← a) * (← b)
    scaled := fun a scalar => a.map fun value => value * scalar }

/-! ### Order of the calculations -/

namespace ValueSource

/-- The intermediates of a source are among the first ones. -/
def Below (bound : Nat) (source : ValueSource) : Prop := ∀ entry ∈ source.reads, entry < bound

theorem Below.mono {source : ValueSource} {bound larger : Nat} (below : source.Below bound)
    (grows : bound ≤ larger) : source.Below larger := fun entry mem =>
  Nat.lt_of_lt_of_le (below entry mem) grows

end ValueSource

namespace GraphEvaluator

/-- Calculation `i` writes intermediate `i` and reads earlier ones. -/
structure Ordered (graph : GraphEvaluator F) : Prop where
  counted : graph.numIntermediates = graph.calculations.length
  numbered : Numbered CalculationInfo.target 0 graph.calculations
  backward : Backward (fun info => info.calculation.reads) 0 graph.calculations

/-- What an addition keeps of the order. -/
structure Extends (graph : GraphEvaluator F) (result : GraphEvaluator F × ValueSource) : Prop where
  ordered : result.1.Ordered
  grows : graph.numIntermediates ≤ result.1.numIntermediates
  below : result.2.Below result.1.numIntermediates

variable {graph : GraphEvaluator F}

theorem default_ordered [Field F] : (default : GraphEvaluator F).Ordered where
  counted := rfl
  numbered := fun position info found => by simp [default] at found
  backward := fun position info found => by simp [default] at found

theorem extends_self (ordered : graph.Ordered) {source : ValueSource}
    (below : source.Below graph.numIntermediates) : graph.Extends (graph, source) :=
  ⟨ordered, Nat.le_refl _, below⟩

theorem Extends.after {first second : GraphEvaluator F × ValueSource} (earlier : graph.Extends first)
    (later : first.1.Extends second) : graph.Extends second :=
  ⟨later.ordered, earlier.grows.trans later.grows, later.below⟩

section

variable (ordered : graph.Ordered)

include ordered

theorem find_calculation {calculation : Calculation} {existing : CalculationInfo}
    (found : graph.calculations.find?
    (fun info => info.calculation = calculation) = some existing) :
    existing.calculation = calculation ∧ graph.calculations[existing.target]? = some existing := by
  have same : existing.calculation = calculation := by simpa using find?_some found
  rcases mem_iff_getElem?.mp (mem_of_find?_eq_some found) with ⟨position, stored⟩
  have number := ordered.numbered position existing stored
  rw [Nat.zero_add] at number
  exact ⟨same, by rwa [number]⟩

theorem add_calculation_extends {calculation : Calculation}
    (below : ∀ source ∈ calculation.sources, source.Below graph.numIntermediates) :
    graph.Extends (graph.addCalculation calculation) := by
  unfold addCalculation
  cases found : graph.calculations.find? fun info => info.calculation = calculation with
  | some existing =>
    have stored := (find_calculation ordered found).2
    have inside := (List.getElem?_eq_some_iff.mp stored).1
    apply extends_self ordered
    simpa [ValueSource.Below, ValueSource.reads, ordered.counted] using inside
  | none =>
    have reads_below : ∀ entry ∈ calculation.reads, entry < graph.calculations.length := by
      intro entry mem
      rcases mem_flatMap.mp mem with ⟨source, inSources, read⟩
      rw [← ordered.counted]
      exact below source inSources entry read
    exact {
      ordered := {
        counted := by simp [ordered.counted]
        numbered := ordered.numbered.snoc ordered.counted
        backward := ordered.backward.snoc reads_below }
      grows := Nat.le_succ _
      below := by simp [ValueSource.Below, ValueSource.reads] }

theorem add_constant_extends [DecidableEq F] (constant : F) : graph.Extends (graph.addConstant constant) := by
  unfold addConstant
  split
  · exact extends_self ordered (by simp [ValueSource.Below, ValueSource.reads])
  · exact {
      ordered := ⟨ordered.counted, ordered.numbered, ordered.backward⟩
      grows := Nat.le_refl _
      below := by simp [ValueSource.Below, ValueSource.reads] }

theorem add_rotation_ordered (rotation : Int) :
    (graph.addRotation rotation).1.Ordered ∧
      (graph.addRotation rotation).1.numIntermediates = graph.numIntermediates := by
  unfold addRotation
  split
  · exact ⟨ordered, rfl⟩
  · exact ⟨⟨ordered.counted, ordered.numbered, ordered.backward⟩, rfl⟩

theorem add_column_extends {source : Nat → Nat → ValueSource}
    (column : ∀ index rotation, (source index rotation).reads = []) (query : QueryKey) :
    graph.Extends (graph.addColumn source query) := by
  have rotated := add_rotation_ordered ordered query.rotation
  have below : ∀ stored ∈ (Calculation.store
      (source query.column (graph.addRotation query.rotation).2)).sources,
      stored.Below (graph.addRotation query.rotation).1.numIntermediates := by
    simp [Calculation.sources, ValueSource.Below, column]
  have stored := add_calculation_extends rotated.1 below
  exact ⟨stored.ordered, rotated.2 ▸ stored.grows, stored.below⟩

end

section Operands

variable {a b : ValueSource} (ordered : graph.Ordered) (belowA : a.Below graph.numIntermediates)
  (belowB : b.Below graph.numIntermediates)

include ordered belowA

theorem add_negated_extends : graph.Extends (graph.addNegated a) := by
  unfold addNegated
  split_ifs
  · exact extends_self ordered belowA
  · exact add_calculation_extends ordered (by simpa [Calculation.sources] using belowA)

include belowB

theorem add_operands_extends {calculation : Calculation}
    (operands : ∀ source ∈ calculation.sources, source = a ∨ source = b) :
    graph.Extends (graph.addCalculation calculation) := by
  apply add_calculation_extends ordered
  intro source mem
  rcases operands source mem with same | same
  · rwa [same]
  · rwa [same]

theorem add_difference_extends : graph.Extends (graph.addDifference a b) := by
  unfold addDifference
  split_ifs
  · exact add_operands_extends ordered belowA belowB (by simp [Calculation.sources])
  · exact extends_self ordered belowA
  · exact add_operands_extends ordered belowA belowB (by simp [Calculation.sources])

theorem add_sum_extends : graph.Extends (graph.addSum a b) := by
  unfold addSum
  split_ifs
  · exact extends_self ordered belowB
  · exact extends_self ordered belowA
  · exact add_operands_extends ordered belowA belowB (by simp [Calculation.sources])
  · exact add_operands_extends ordered belowA belowB (by simp [Calculation.sources])

theorem add_product_extends : graph.Extends (graph.addProduct a b) := by
  unfold addProduct
  split_ifs
  · exact extends_self ordered (by simp [ValueSource.Below, ValueSource.reads])
  · exact extends_self ordered belowB
  · exact extends_self ordered belowA
  all_goals exact add_operands_extends ordered belowA belowB (by simp [Calculation.sources])

end Operands

variable [Field F] [DecidableEq F]

theorem add_expression_extends {expression : Expression F} (ordered : graph.Ordered)
    {result : GraphEvaluator F × ValueSource}
    (added : graph.addExpression expression = some result) : graph.Extends result := by
  fun_induction addExpression graph expression generalizing result with
  | case1 graph scalar =>
    cases added
    exact add_constant_extends ordered scalar
  | case2 => cases added
  | case3 graph query =>
    cases added
    exact add_column_extends ordered (fun _ _ => rfl) query
  | case4 graph query =>
    cases added
    exact add_column_extends ordered (fun _ _ => rfl) query
  | case5 graph query =>
    cases added
    exact add_column_extends ordered (fun _ _ => rfl) query
  | case6 graph index =>
    cases added
    apply add_calculation_extends ordered
    simp [Calculation.sources, ValueSource.Below, ValueSource.reads]
  | case7 graph scalar =>
    cases added
    exact add_constant_extends ordered (-scalar)
  | case8 graph a other inductionA =>
    simp only [bind_some_iff, pure_some_iff] at added
    rcases added with ⟨resultA, addedA, rfl⟩
    have first := inductionA ordered addedA
    exact first.after (add_negated_extends first.ordered first.below)
  | case9 graph a b inductionA inductionB =>
    simp only [bind_some_iff, pure_some_iff] at added
    rcases added with ⟨resultA, addedA, resultB, addedB, rfl⟩
    have first := inductionA ordered addedA
    have second := inductionB resultA first.ordered addedB
    exact (first.after second).after
      (add_difference_extends second.ordered (first.below.mono second.grows) second.below)
  | case10 graph a b other inductionA inductionB =>
    simp only [bind_some_iff, pure_some_iff] at added
    rcases added with ⟨resultA, addedA, resultB, addedB, rfl⟩
    have first := inductionA ordered addedA
    have second := inductionB resultA first.ordered addedB
    exact (first.after second).after
      (add_sum_extends second.ordered (first.below.mono second.grows) second.below)
  | case11 graph a b inductionA inductionB =>
    simp only [bind_some_iff, pure_some_iff] at added
    rcases added with ⟨resultA, addedA, resultB, addedB, rfl⟩
    have first := inductionA ordered addedA
    have second := inductionB resultA first.ordered addedB
    exact (first.after second).after
      (add_product_extends second.ordered (first.below.mono second.grows) second.below)
  | case12 graph a =>
    cases added
    exact extends_self ordered (by simp [ValueSource.Below, ValueSource.reads])
  | case13 graph a notZero inductionA => exact inductionA ordered added
  | case14 graph a f notZero notOne constant inductionA =>
    simp only [bind_some_iff, pure_some_iff] at added
    rcases added with ⟨resultA, addedA, rfl⟩
    have first := add_constant_extends ordered f
    have second := inductionA first.ordered addedA
    exact (first.after second).after (add_operands_extends second.ordered second.below
      (first.below.mono second.grows) (by simp [Calculation.sources, constant]))

theorem add_expressions_ordered {expressions : List (Expression F)} (ordered : graph.Ordered)
    {result : GraphEvaluator F × List ValueSource}
    (added : graph.addExpressions expressions = some result) :
    result.1.Ordered ∧ graph.numIntermediates ≤ result.1.numIntermediates ∧
      ∀ source ∈ result.2, source.Below result.1.numIntermediates := by
  induction expressions generalizing graph result with
  | nil =>
    cases added
    exact ⟨ordered, Nat.le_refl _, by simp⟩
  | cons expression rest ih =>
    simp only [addExpressions, bind_some_iff, pure_some_iff] at added
    rcases added with ⟨first, addedFirst, others, addedRest, rfl⟩
    have head := add_expression_extends ordered addedFirst
    rcases ih head.ordered addedRest with ⟨tailOrdered, grows, below⟩
    have all : ∀ source ∈ first.2 :: others.2, source.Below others.1.numIntermediates := by
      intro source mem
      rcases mem_cons.mp mem with same | later
      · rw [same]
        exact head.below.mono grows
      · exact below source later
    exact ⟨tailOrdered, head.grows.trans grows, all⟩

end GraphEvaluator

/-! ### Values of the calculations -/

/-- The row indices of the rotations and the values of the calculations. -/
structure Memory (F : Type) where
  rows : List Nat
  values : List F

theorem prefix_get {Entry : Type} {list more : List Entry} {index : Nat} {found : Entry}
    (grows : list <+: more) (stored : list[index]? = some found) : more[index]? = some found := by
  rcases grows with ⟨tail, rfl⟩
  rw [getElem?_append_left (List.getElem?_eq_some_iff.mp stored).1]
  exact stored

theorem ValueSource.get_mono {rows moreRows : List Nat}
    {constants moreConstants values moreValues : List F} {inputs : Inputs F} {source : ValueSource}
    {value : F} (rowsGrow : rows <+: moreRows) (constantsGrow : constants <+: moreConstants)
    (valuesGrow : values <+: moreValues)
    (known : source.get rows constants values inputs = some value) :
    source.get moreRows moreConstants moreValues inputs = some value := by
  cases source with
  | constant index => exact prefix_get constantsGrow known
  | intermediate index => exact prefix_get valuesGrow known
  | fixed column rotation | advice column rotation | «instance» column rotation =>
    simp only [get, Option.bind_eq_some_iff] at known ⊢
    rcases known with ⟨row, found, value_at⟩
    exact ⟨row, prefix_get rowsGrow found, value_at⟩
  | _ => exact known

namespace GraphEvaluator

variable [Field F] {inputs : Inputs F} {graph : GraphEvaluator F} {memory : Memory F}

/-- The value of a source once the calculations are done. -/
def read (inputs : Inputs F) (graph : GraphEvaluator F) (memory : Memory F)
    (source : ValueSource) : Option F :=
  source.get memory.rows graph.constants memory.values inputs

/-- The calculations of a graph run to the memory. -/
structure Holds (inputs : Inputs F) (graph : GraphEvaluator F) (memory : Memory F) : Prop where
  ordered : graph.Ordered
  standard : default.constants <+: graph.constants
  rows : graph.rotations.mapM inputs.rotationIdx = some memory.rows
  ran : run (step memory.rows graph.constants inputs) [] graph.calculations = some memory.values

def Grows (inputs : Inputs F) (graph : GraphEvaluator F) (memory : Memory F)
    (next : GraphEvaluator F) (later : Memory F) : Prop :=
  ∀ source known, read inputs graph memory source = some known →
    read inputs next later source = some known

/-- The graph may grow, and the new source has the value. -/
def Adds (inputs : Inputs F) (graph : GraphEvaluator F) (memory : Memory F)
    (result : GraphEvaluator F × ValueSource) (value : F) : Prop :=
  ∃ later : Memory F, Holds inputs result.1 later ∧ Grows inputs graph memory result.1 later ∧
    read inputs result.1 later result.2 = some value

omit [Field F] in
theorem Grows.refl : Grows inputs graph memory graph memory := fun _ _ known => known

omit [Field F] in
theorem Grows.trans {next last : GraphEvaluator F} {later final : Memory F}
    (earlier : Grows inputs graph memory next later) (grows : Grows inputs next later last final) :
    Grows inputs graph memory last final :=
  fun source known found => grows source known (earlier source known found)

variable {source : ValueSource}

section

variable (holds : Holds inputs graph memory)

include holds

theorem adds_self {value : F} (known : read inputs graph memory source = some value) :
    Adds inputs graph memory (graph, source) value :=
  ⟨memory, holds, Grows.refl, known⟩

theorem read_zero :
    read inputs graph memory (.constant 0) = some 0 := prefix_get holds.standard rfl

theorem read_one :
    read inputs graph memory (.constant 1) = some 1 := prefix_get holds.standard rfl

theorem read_two : read inputs graph memory (.constant 2) = some ((2 : Nat) : F) :=
  prefix_get holds.standard rfl

end

theorem default_holds : Holds inputs (default : GraphEvaluator F) ⟨[], []⟩ where
  ordered := default_ordered
  standard := prefix_rfl
  rows := rfl
  ran := rfl

theorem values_length (holds : Holds inputs graph memory) :
    memory.values.length = graph.calculations.length := by
  simpa using run_length holds.ran

theorem holds_richer (holds : Holds inputs graph memory) {constants : List F} {rotations : List Int}
    {rows : List Nat} (constantsGrow : graph.constants <+: constants)
    (rowsGrow : memory.rows <+: rows) (computed : rotations.mapM inputs.rotationIdx = some rows) :
    Holds inputs { graph with constants := constants, rotations := rotations }
      { memory with rows := rows } where
  ordered := ⟨holds.ordered.counted, holds.ordered.numbered, holds.ordered.backward⟩
  standard := holds.standard.trans constantsGrow
  rows := computed
  ran := run_mono (fun _ _ _ => Calculation.evaluate_mono fun _ _ _ =>
    ValueSource.get_mono rowsGrow constantsGrow prefix_rfl) holds.ran

theorem read_below (holds : Holds inputs graph memory) {value : F}
    (known : read inputs graph memory source = some value) :
    source.Below graph.numIntermediates := by
  rw [holds.ordered.counted, ← values_length holds]
  cases source with
  | intermediate index =>
    have inside := (List.getElem?_eq_some_iff.mp known).1
    simpa [ValueSource.Below, ValueSource.reads] using inside
  | _ => simp [ValueSource.Below, ValueSource.reads]

theorem sources_known {getValue : ValueSource → Option F} {calculation : Calculation} {value : F}
    (computed : calculation.evaluate getValue = some value)
    (mem : source ∈ calculation.sources) :
    ∃ known, getValue source = some known := by
  cases calculation with
  | horner startValue parts factor =>
    simp only [Calculation.evaluate, bind_some_iff] at computed
    rcases computed with ⟨scale, scaled, start, started, values, read, -⟩
    simp only [Calculation.sources, mem_cons] at mem
    rcases mem with same | same | part
    · exact ⟨scale, by rw [same, scaled]⟩
    · exact ⟨start, by rw [same, started]⟩
    · rcases map_m_returns read part with ⟨known, found, -⟩
      exact ⟨known, found⟩
  | _ =>
    simp only [Calculation.evaluate, Calculation.sources, mem_cons, not_mem_nil,
      or_false, bind_some_iff] at *
    grind

theorem add_constant_adds [DecidableEq F] (holds : Holds inputs graph memory) (constant : F) :
    Adds inputs graph memory (graph.addConstant constant) constant := by
  unfold addConstant
  cases found : graph.constants.idxOf? constant with
  | some position =>
    rcases idxOf?_eq_some_iff.mp found with ⟨inside, same, -⟩
    have stored : graph.constants[position]? = some constant := by
      rw [getElem?_eq_getElem inside, same]
    exact adds_self holds stored
  | none =>
    have grows : graph.constants <+: graph.constants ++ [constant] := prefix_append _ _
    have richer := holds_richer holds grows prefix_rfl holds.rows
    have last : (graph.constants ++ [constant])[graph.constants.length]? = some constant := by simp
    exact ⟨memory, richer, fun _ _ =>
      ValueSource.get_mono prefix_rfl grows prefix_rfl, last⟩

theorem add_calculation_adds (holds : Holds inputs graph memory) {calculation : Calculation}
    {value : F} (computed : calculation.evaluate (read inputs graph memory) = some value) :
    Adds inputs graph memory (graph.addCalculation calculation) value := by
  have ordered := (add_calculation_extends holds.ordered fun source mem =>
    (sources_known computed mem).elim fun _ => read_below holds).ordered
  unfold addCalculation at ordered ⊢
  cases found : graph.calculations.find? fun info => info.calculation = calculation with
  | some existing =>
    rcases find_calculation holds.ordered found with ⟨same, stored⟩
    rcases run_value holds.ran stored with ⟨earlier, stepped, valued⟩
    have again : existing.calculation.evaluate (read inputs graph memory) = some earlier :=
      Calculation.evaluate_mono (fun source _ known => ValueSource.get_mono prefix_rfl
        prefix_rfl <| take_prefix _ _) stepped
    apply adds_self holds
    rw [same, computed, Option.some.injEq] at again
    simpa [read, ValueSource.get, again] using valued
  | none =>
    rw [found] at ordered
    have grows : memory.values <+: memory.values ++ [value] := prefix_append _ _
    have stepped : step memory.rows graph.constants inputs memory.values
        ⟨calculation, graph.numIntermediates⟩ = some value := computed
    have ran := run_snoc holds.ran stepped
    have last : (memory.values ++ [value])[graph.numIntermediates]? = some value := by
      simp [holds.ordered.counted, ← values_length holds]
    exact ⟨⟨memory.rows, memory.values ++ [value]⟩, ⟨ordered, holds.standard, holds.rows, ran⟩,
      fun _ _ => ValueSource.get_mono prefix_rfl prefix_rfl grows, last⟩

theorem add_rotation_adds (holds : Holds inputs graph memory) {rotation : Int} {row : Nat}
    (computed : inputs.rotationIdx rotation = some row) :
    ∃ later : Memory F, Holds inputs (graph.addRotation rotation).1 later ∧
      Grows inputs graph memory (graph.addRotation rotation).1 later ∧
      later.rows[(graph.addRotation rotation).2]? = some row := by
  unfold addRotation
  cases found : graph.rotations.idxOf? rotation with
  | some position =>
    rcases idxOf?_eq_some_iff.mp found with ⟨inside, same, -⟩
    have stored : graph.rotations[position]? = some rotation := by
      rw [getElem?_eq_getElem inside, same]
    have mapped := map_m_get holds.rows position
    rw [stored, Option.bind_some, computed] at mapped
    exact ⟨memory, holds, Grows.refl, mapped⟩
  | none =>
    have grows : memory.rows <+: memory.rows ++ [row] := prefix_append _ _
    have rows : (graph.rotations ++ [rotation]).mapM inputs.rotationIdx =
        some (memory.rows ++ [row]) := by
      simp [holds.rows, computed]
    have richer := holds_richer holds prefix_rfl grows rows
    have last : (memory.rows ++ [row])[graph.rotations.length]? = some row := by
      simp [map_m_length holds.rows]
    exact ⟨{ memory with rows := memory.rows ++ [row] }, richer,
      fun _ _ => ValueSource.get_mono grows prefix_rfl prefix_rfl, last⟩

theorem adds_after {first second : GraphEvaluator F × ValueSource} {value result : F}
    (earlier : Adds inputs graph memory first value)
    (later : ∀ next : Memory F, Holds inputs first.1 next → Grows inputs graph memory first.1 next →
      read inputs first.1 next first.2 = some value → Adds inputs first.1 next second result) :
    Adds inputs graph memory second result := by
  rcases earlier with ⟨next, holds, grows, known⟩
  rcases later next holds grows known with ⟨last, lastHolds, lastGrows, lastKnown⟩
  exact ⟨last, lastHolds, grows.trans lastGrows, lastKnown⟩

theorem add_column_adds (holds : Holds inputs graph memory) {source : Nat → Nat → ValueSource}
    {columns : List (List F)} {query : QueryKey} {value : F}
    (isColumn : ∀ (graph : GraphEvaluator F) memory column rotation,
      read inputs graph memory (source column rotation) =
        memory.rows[rotation]?.bind (columnValue columns column))
    (valued : (inputs.rotationIdx query.rotation).bind (columnValue columns query.column) =
      some value) :
    Adds inputs graph memory (graph.addColumn source query) value := by
  rcases bind_some_iff.mp valued with ⟨row, rotated, found⟩
  rcases add_rotation_adds holds rotated with ⟨next, nextHolds, grows, stored⟩
  have stored_value : (Calculation.store (source query.column
      (graph.addRotation query.rotation).2)).evaluate
        (read inputs (graph.addRotation query.rotation).1 next) = some value := by
    rw [Calculation.evaluate, isColumn, stored, Option.bind_some, found]
  rcases add_calculation_adds nextHolds stored_value with ⟨last, lastHolds, lastGrows, known⟩
  exact ⟨last, lastHolds, grows.trans lastGrows, known⟩

section Operands

variable {a b : ValueSource} {x y : F} (holds : Holds inputs graph memory)
  (knownA : read inputs graph memory a = some x) (knownB : read inputs graph memory b = some y)

include holds knownA

theorem add_negated_adds : Adds inputs graph memory (graph.addNegated a) (-x) := by
  unfold addNegated
  split_ifs with zero
  · rw [zero, read_zero holds, Option.some.injEq] at knownA
    rw [zero, ← knownA, neg_zero]
    exact adds_self holds (read_zero holds)
  · exact add_calculation_adds holds (by simp [Calculation.evaluate, knownA])

include knownB

theorem add_difference_adds : Adds inputs graph memory (graph.addDifference a b) (x - y) := by
  unfold addDifference
  split_ifs with zeroA zeroB
  · rw [zeroA, read_zero holds, Option.some.injEq] at knownA
    exact add_calculation_adds holds (by simp [Calculation.evaluate, knownB, ← knownA])
  · rw [zeroB, read_zero holds, Option.some.injEq] at knownB
    rw [← knownB, sub_zero]
    exact adds_self holds knownA
  · exact add_calculation_adds holds (by simp [Calculation.evaluate, knownA, knownB])

theorem add_sum_adds : Adds inputs graph memory (graph.addSum a b) (x + y) := by
  unfold addSum
  split_ifs with zeroA zeroB
  · rw [zeroA, read_zero holds, Option.some.injEq] at knownA
    rw [← knownA, zero_add]
    exact adds_self holds knownB
  · rw [zeroB, read_zero holds, Option.some.injEq] at knownB
    rw [← knownB, add_zero]
    exact adds_self holds knownA
  · exact add_calculation_adds holds (by simp [Calculation.evaluate, knownA, knownB])
  · exact add_calculation_adds holds (by simp [Calculation.evaluate, knownA, knownB, add_comm])

theorem add_product_adds : Adds inputs graph memory (graph.addProduct a b) (x * y) := by
  unfold addProduct
  split_ifs with zero oneA oneB twoA twoB same
  · have product_zero : x * y = 0 := by
      rcases zero with zeroA | zeroB
      · rw [zeroA, read_zero holds, Option.some.injEq] at knownA
        rw [← knownA, zero_mul]
      · rw [zeroB, read_zero holds, Option.some.injEq] at knownB
        rw [← knownB, mul_zero]
    rw [product_zero]
    exact adds_self holds (read_zero holds)
  · rw [oneA, read_one holds, Option.some.injEq] at knownA
    rw [← knownA, one_mul]
    exact adds_self holds knownB
  · rw [oneB, read_one holds, Option.some.injEq] at knownB
    rw [← knownB, mul_one]
    exact adds_self holds knownA
  · rw [twoA, read_two holds, Option.some.injEq] at knownA
    rw [← knownA, Nat.cast_ofNat, two_mul]
    exact add_calculation_adds holds (by simp [Calculation.evaluate, knownB])
  · rw [twoB, read_two holds, Option.some.injEq] at knownB
    rw [← knownB, Nat.cast_ofNat, mul_two]
    exact add_calculation_adds holds (by simp [Calculation.evaluate, knownA])
  · rw [same, knownB, Option.some.injEq] at knownA
    rw [← knownA, ← sq]
    exact add_calculation_adds holds (by simp [Calculation.evaluate, same, knownB])
  · exact add_calculation_adds holds (by simp [Calculation.evaluate, knownA, knownB])
  · exact add_calculation_adds holds (by simp [Calculation.evaluate, knownA, knownB, mul_comm])

end Operands

end GraphEvaluator

/-! ### Values of the expressions -/

section EvaluateAt

variable [Field F] {inputs : Inputs F} {a b : Expression F} {value : F}

theorem evaluate_at_negated : evaluateAt inputs (.negated a) = some value ↔
    ∃ x, evaluateAt inputs a = some x ∧ -x = value := by
  exact Option.map_eq_some_iff

theorem evaluate_at_sum : evaluateAt inputs (.sum a b) = some value ↔
    ∃ x, evaluateAt inputs a = some x ∧ ∃ y, evaluateAt inputs b = some y ∧ x + y = value := by
  change ((evaluateAt inputs a).bind fun x => (evaluateAt inputs b).bind fun y => some (x + y)) =
    some value ↔ _
  simp only [Option.bind_eq_some_iff, Option.some.injEq]

theorem evaluate_at_product : evaluateAt inputs (.product a b) = some value ↔
    ∃ x, evaluateAt inputs a = some x ∧ ∃ y, evaluateAt inputs b = some y ∧ x * y = value := by
  change ((evaluateAt inputs a).bind fun x => (evaluateAt inputs b).bind fun y => some (x * y)) =
    some value ↔ _
  simp only [Option.bind_eq_some_iff, Option.some.injEq]

theorem evaluate_at_scaled {scalar : F} : evaluateAt inputs (.scaled a scalar) = some value ↔
    ∃ x, evaluateAt inputs a = some x ∧ x * scalar = value := by
  exact Option.map_eq_some_iff

end EvaluateAt

namespace GraphEvaluator

variable [Field F] [DecidableEq F] {inputs : Inputs F} {graph : GraphEvaluator F}
  {memory : Memory F}

theorem operands_add {a b : Expression F} {x y z : F}
    {combine : GraphEvaluator F → ValueSource → ValueSource → GraphEvaluator F × ValueSource}
    (addsA : ∃ resultA, graph.addExpression a = some resultA ∧ Adds inputs graph memory resultA x)
    (addsB : ∀ (resultA : GraphEvaluator F × ValueSource) (next : Memory F),
      Holds inputs resultA.1 next → ∃ resultB, resultA.1.addExpression b = some resultB ∧
        Adds inputs resultA.1 next resultB y)
    (combines : ∀ (graph : GraphEvaluator F) (memory : Memory F) (a b : ValueSource),
      Holds inputs graph memory → read inputs graph memory a = some x →
        read inputs graph memory b = some y → Adds inputs graph memory (combine graph a b) z) :
    ∃ result, (do
        let resultA ← graph.addExpression a
        let resultB ← resultA.1.addExpression b
        return combine resultB.1 resultA.2 resultB.2) = some result ∧
      Adds inputs graph memory result z := by
  rcases addsA with ⟨resultA, addedA, next, nextHolds, grows, knownA⟩
  rcases addsB resultA next nextHolds with ⟨resultB, addedB, last, lastHolds, lastGrows, knownB⟩
  have combined := combines resultB.1 last resultA.2 resultB.2 lastHolds
    (lastGrows resultA.2 x knownA) knownB
  rcases combined with ⟨final, finalHolds, finalGrows, known⟩
  exact ⟨combine resultB.1 resultA.2 resultB.2, by simp [addedA, addedB], final, finalHolds,
    (grows.trans lastGrows).trans finalGrows, known⟩

theorem add_expression_adds {expression : Expression F} {value : F}
    (holds : Holds inputs graph memory) (valued : evaluateAt inputs expression = some value) :
    ∃ result, graph.addExpression expression = some result ∧
      Adds inputs graph memory result value := by
  fun_induction addExpression graph expression generalizing memory value with
  | case1 graph scalar =>
    cases valued
    exact ⟨_, rfl, add_constant_adds holds scalar⟩
  | case2 => cases valued
  | case3 _ _ | case4 _ _ | case5 _ _ =>
    exact ⟨_, rfl, add_column_adds holds (fun _ _ _ _ => rfl) valued⟩
  | case6 graph index => exact ⟨_, rfl, add_calculation_adds holds valued⟩
  | case7 graph scalar =>
    cases valued
    exact ⟨_, rfl, add_constant_adds holds (-scalar)⟩
  | case8 graph a other inductionA =>
    rcases evaluate_at_negated.mp valued with ⟨x, valueA, rfl⟩
    rcases inductionA holds valueA with ⟨resultA, addedA, addsA⟩
    have result : Adds inputs graph memory (resultA.1.addNegated resultA.2) (-x) :=
      adds_after addsA fun next nextHolds _ knownA => add_negated_adds nextHolds knownA
    exact ⟨_, by simp [addedA], result⟩
  | case9 graph a b inductionA inductionB =>
    rcases evaluate_at_sum.mp valued with ⟨x, valueA, difference, negatedB, rfl⟩
    rcases evaluate_at_negated.mp negatedB with ⟨y, valueB, rfl⟩
    rw [← sub_eq_add_neg]
    exact operands_add (inductionA holds valueA)
      (fun resultA next nextHolds => inductionB resultA nextHolds valueB)
      fun _ _ _ _ => add_difference_adds
  | case10 graph a b other inductionA inductionB =>
    rcases evaluate_at_sum.mp valued with ⟨x, valueA, y, valueB, rfl⟩
    exact operands_add (inductionA holds valueA)
      (fun resultA next nextHolds => inductionB resultA nextHolds valueB)
      fun _ _ _ _ => add_sum_adds
  | case11 graph a b inductionA inductionB =>
    rcases evaluate_at_product.mp valued with ⟨x, valueA, y, valueB, rfl⟩
    exact operands_add (inductionA holds valueA)
      (fun resultA next nextHolds => inductionB resultA nextHolds valueB)
      fun _ _ _ _ => add_product_adds
  | case12 graph a =>
    rcases evaluate_at_scaled.mp valued with ⟨x, valueA, rfl⟩
    rw [mul_zero]
    exact ⟨_, rfl, adds_self holds (read_zero holds)⟩
  | case13 graph a notZero inductionA =>
    rcases evaluate_at_scaled.mp valued with ⟨x, valueA, rfl⟩
    rw [mul_one]
    exact inductionA holds valueA
  | case14 graph a f notZero notOne constant =>
    rename_i inductionA
    rcases evaluate_at_scaled.mp valued with ⟨x, valueA, rfl⟩
    rcases add_constant_adds holds f with ⟨next, nextHolds, grows, knownF⟩
    rcases inductionA nextHolds valueA with ⟨resultA, addedA, last, lastHolds, lastGrows, knownA⟩
    have multiplied : Adds inputs resultA.1 last
        (resultA.1.addCalculation (.mul resultA.2 constant.2)) (x * f) :=
      add_calculation_adds lastHolds
        (by simp [Calculation.evaluate, knownA, lastGrows constant.2 f knownF])
    rcases multiplied with ⟨final, finalHolds, finalGrows, known⟩
    exact ⟨_, by simp [addedA], final, finalHolds, (grows.trans lastGrows).trans finalGrows, known⟩

theorem add_expressions_adds {expressions : List (Expression F)} {values : List F}
    (holds : Holds inputs graph memory)
    (valued : expressions.mapM (evaluateAt inputs) = some values) :
    ∃ result later, graph.addExpressions expressions = some result ∧
      Holds inputs result.1 later ∧ Grows inputs graph memory result.1 later ∧
      result.2.mapM (read inputs result.1 later) = some values := by
  induction expressions generalizing graph memory values with
  | nil =>
    cases valued
    exact ⟨(graph, []), memory, rfl, holds, Grows.refl, rfl⟩
  | cons expression rest ih =>
    rw [mapM_cons] at valued
    simp only [bind_some_iff, pure_some_iff] at valued
    rcases valued with ⟨value, first, others, restValued, rfl⟩
    rcases add_expression_adds holds first with ⟨result, added, next, nextHolds, grows, known⟩
    rcases ih nextHolds restValued with
      ⟨resultRest, later, addedRest, laterHolds, laterGrows, sources⟩
    have added_all : graph.addExpressions (expression :: rest) =
        some (resultRest.1, result.2 :: resultRest.2) := by
      simp [addExpressions, added, addedRest]
    have read_all : (result.2 :: resultRest.2).mapM (read inputs resultRest.1 later) =
        some (value :: others) := by
      simp [laterGrows result.2 value known, sources]
    exact ⟨(resultRest.1, result.2 :: resultRest.2), later, added_all, laterHolds,
      grows.trans laterGrows, read_all⟩

/-! ### Evaluating in place -/

omit [Field F] [DecidableEq F] in
theorem rotations_written {rotations : List Int} {rows stale : List Nat}
    (computed : rotations.mapM inputs.rotationIdx = some rows)
    (room : stale.length = rotations.length) :
    overwrite (fun _ entry => inputs.rotationIdx entry.1) Prod.snd stale rotations.zipIdx =
      some rows := by
  have numbered : Numbered Prod.snd 0 rotations.zipIdx := by
    intro position entry found
    rw [getElem?_zipIdx, Option.map_eq_some_iff] at found
    rcases found with ⟨rotation, -, rfl⟩
    rfl
  have ran : run (fun _ entry => inputs.rotationIdx entry.1) [] rotations.zipIdx = some rows := by
    have firsts := mapM_map (f := Prod.fst) (g := inputs.rotationIdx) (l := rotations.zipIdx)
    rw [zipIdx_map_fst, computed] at firsts
    rw [run_eq_map_m]
    exact congrArg (Option.map fun rows => [] ++ rows) firsts.symm
  have reads_nothing : Local (fun _ entry => inputs.rotationIdx entry.1)
      fun _ : Int × Nat => [] := fun _ _ _ _ => rfl
  exact overwrite_eq_run reads_nothing numbered
    (fun _ _ _ _ mem => absurd mem not_mem_nil) ran (by simpa using room)

omit [DecidableEq F] in
theorem step_local (rows : List Nat) (constants : List F) :
    Local (step rows constants inputs) fun info => info.calculation.reads := by
  intro first second info same
  apply Calculation.evaluate_congr
  intro source mem
  cases source with
  | intermediate index =>
    exact same index (mem_flatMap.mpr ⟨_, mem, by simp [ValueSource.reads]⟩)
  | _ => rfl

omit [DecidableEq F] in
theorem evaluation_instance_sizes (graph : GraphEvaluator F) :
    graph.evaluationInstance.intermediates.length = graph.numIntermediates ∧
      graph.evaluationInstance.rotations.length = graph.rotations.length :=
  ⟨length_replicate, length_replicate⟩

omit [DecidableEq F] in
theorem evaluate_holds (holds : Holds inputs graph memory) {data : EvaluationData F}
    (intermediates : data.intermediates.length = graph.numIntermediates)
    (rotations : data.rotations.length = graph.rotations.length) :
    graph.evaluate data inputs =
      some (⟨memory.values, memory.rows⟩, memory.values.getLast?.getD 0) := by
  have rows := rotations_written holds.rows rotations
  have room : data.intermediates.length = graph.calculations.length := by
    rw [intermediates, holds.ordered.counted]
  have written : overwrite (step memory.rows graph.constants inputs) CalculationInfo.target
      ([] ++ data.intermediates) graph.calculations = some memory.values :=
    overwrite_eq_run (step_local memory.rows graph.constants) holds.ordered.numbered
      holds.ordered.backward holds.ran room
  have last : graph.lastResult memory.values = some (memory.values.getLast?.getD 0) := by
    have size := values_length holds
    unfold lastResult
    cases found : graph.calculations.getLast? with
    | none =>
      rw [getLast?_eq_none_iff.mp found, length_nil, length_eq_zero_iff] at size
      simp [size]
    | some info =>
      rw [getLast?_eq_getElem?] at found
      have inside := (List.getElem?_eq_some_iff.mp found).1
      have number := holds.ordered.numbered _ info found
      rw [Nat.zero_add, ← size] at number
      have read : memory.values[info.target]? = some memory.values[info.target] :=
        getElem?_eq_getElem (by omega)
      simp [getLast?_eq_getElem?, ← number, read]
  rw [nil_append] at written
  simp [evaluate, rows, written, last]

/-- Every graph reads backwards only, and one evaluation gives each source the value of its
expression, whatever the data held. -/
theorem graph_evaluation_agrees (expressions : List (Expression F)) :
    (∀ graph sources, default.addExpressions expressions = some (graph, sources) → graph.Ordered) ∧
    ∀ (inputs : Inputs F) values, expressions.mapM (evaluateAt inputs) = some values →
      ∃ graph sources, default.addExpressions expressions = some (graph, sources) ∧
        ∀ data : EvaluationData F, data.intermediates.length = graph.numIntermediates →
          data.rotations.length = graph.rotations.length →
          ∃ done result, graph.evaluate data inputs = some (done, result) ∧
            sources.mapM (ValueSource.get done.rotations graph.constants done.intermediates inputs) =
              some values := by
  constructor
  · intro graph sources added
    exact (add_expressions_ordered default_ordered added).1
  · intro inputs values valued
    rcases add_expressions_adds default_holds valued with
      ⟨result, memory, added, holds, -, sources⟩
    exact ⟨result.1, result.2, added, fun data intermediates rotations =>
      ⟨⟨memory.values, memory.rows⟩, memory.values.getLast?.getD 0,
        evaluate_holds holds intermediates rotations, sources⟩⟩

def differenceAndSquare : List (Expression (ZMod 3)) :=
  let difference : Expression (ZMod 3) := .sum (.advice ⟨0, 1⟩) (.negated (.fixed ⟨0, 0⟩))
  [difference, .product difference difference]

def firstRow : Inputs (ZMod 3) where
  fixedColumns := [[1, 0]]
  adviceColumns := [[1, 0]]
  instanceColumns := []
  challenges := []
  beta := 0
  theta := 0
  trashChallenge := 0
  y := 0
  previousValue := 0
  idx := 0
  rotScale := 1
  isize := 2
  overflowChecks := true

theorem graph_evaluation_agrees_square :
    ∃ graph sources, default.addExpressions differenceAndSquare = some (graph, sources) ∧
      ∀ data : EvaluationData (ZMod 3), data.intermediates.length = graph.numIntermediates →
        data.rotations.length = graph.rotations.length →
        ∃ done result, graph.evaluate data firstRow = some (done, result) ∧
          sources.mapM (ValueSource.get done.rotations graph.constants done.intermediates
            firstRow) = some [-1, 1] :=
  (graph_evaluation_agrees differenceAndSquare).2 firstRow [-1, 1] (by decide)

/-- The subtraction is undone and stored once. -/
example : (default.addExpressions differenceAndSquare).map (fun added => added.2) =
    some [.intermediate 2, .intermediate 3] := by decide

end GraphEvaluator

end Midfall.ExpressionGraphs
