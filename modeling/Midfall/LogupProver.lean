import Midfall.DomainRotations
import Midfall.LookupGraphs
import Midfall.RunningFolds
import Midfall.WrappingTallies

/-!
# The prover of the lookup argument

The prover compresses inputs and table, counts the selected inputs for each value
of the table and commits to the helpers and to the running sum of the logarithmic
derivatives.
-/

namespace Midfall.LogupProver

open DomainConversions DomainRotations ExpressionGraphs ListLoops List
open Option (bind_eq_bind bind_some getD_some map_some)
open LookupGraphs PlonkExpressions PlonkIdentities PlonkVerifier
open RadixTwo RunningFolds WrappingTallies

variable {F : Type}

/-! ### The prover -/

structure ChunkedArgument (F : Type) where
  selector : Expression F
  inputExpressionChunks : List (List (List (Expression F)))
  tableExpressions : List (Expression F)

/-- What the prover reads of its key, with the streams of the generator. -/
structure ProverKey (F : Type) where
  threads : Nat
  domain : EvaluationDomain F
  blindingFactors : Nat
  overflowChecks : Bool
  debugAssertions : Bool
  multiplicityRandom : Nat → F
  aggregatorRandom : Nat → F

structure ComputedMultiplicities (F : Type) where
  selector : List F
  multiplicities : List F
  chunkedCompressedInputs : List (List (List F))
  compressedTableExpression : List F

/-- The coefficients of the committed polynomials. -/
structure Committed (F : Type) where
  multiplicities : List F
  helperPolys : List (List F)
  aggregatorPoly : List F

/-- A `usize` difference. -/
def usizeSub (overflowChecks : Bool) (a b : Nat) : Option Nat :=
  if b ≤ a then some (a - b) else if overflowChecks then none else some (2 ^ 64 + a - b)

/-- A new vector, filled in parallel; each entry may panic. -/
def fillRows (threads n : Nat) (f : Nat → Option F) : Option (List F) :=
  (parallelize threads (fun o start => (o.zipIdx start).map fun value => f value.2)
    (replicate n none)).mapM fun value => value

section Prover

variable [Field F]

/-- The inputs of `evaluate` at a row of a polynomial of size `n`. -/
def atRow (inputs : Inputs F) (n row : Nat) : Inputs F :=
  { inputs with idx := row, rotScale := 1, isize := (n : Int).bmod (2 ^ 32) }

/-- `evaluate(expression, n, 1, ..)` -/
def evaluateRows (key : ProverKey F) (inputs : Inputs F) (expression : Expression F) :
    Option (List F) :=
  fillRows key.threads key.domain.n fun row => evaluateAt (atRow inputs key.domain.n row) expression

/-- `acc * theta + expression` over the expressions. -/
def compressColumns (key : ProverKey F) (inputs : Inputs F) (expressions : List (Expression F)) :
    Option (List F) := do
  let columns ← expressions.mapM (evaluateRows key inputs)
  return columns.foldl (fun acc column =>
    zipWith (fun a value => a * inputs.theta + value) acc column)
      (replicate key.domain.n 0)

variable [DecidableEq F]

def selectedValues (selector values : List F) (usableRows : Nat) : List F :=
  (((values.zip selector).take usableRows).filter fun entry => entry.2 ≠ 0).map Prod.fst

/-- `None` where an input is not in the table; the counters are `u32`. -/
def computeMultiplicities (overflowChecks : Bool) (random : Nat → F) (selector : List F)
    (values : List (List F)) (table : List F) (usableRows : Nat) : Option (List F) := do
  let tableCounts ← (table.take usableRows).foldlM (countAny 32 overflowChecks) fun _ => none
  let inputCounts ← values.foldlM (fun counts column =>
      (selectedValues selector column usableRows).foldlM (countKnown 32 overflowChecks) counts)
    fun value => (tableCounts value).map fun _ => 0
  let tableCountInverses := (table.zipIdx.map fun entry =>
      if entry.2 < usableRows then (((tableCounts entry.1).getD 1 : Nat) : F) else 1).map
    fun value => value⁻¹
  return (table.zipIdx.zip tableCountInverses).map fun entry =>
    if entry.1.2 < usableRows then (((inputCounts entry.1.1).getD 0 : Nat) : F) * entry.2
    else random (entry.1.2 - usableRows)

def commitMultiplicities (key : ProverKey F) (argument : ChunkedArgument F) (inputs : Inputs F) :
    Option (ComputedMultiplicities F) := do
  let chunkedCompressedInputs ← argument.inputExpressionChunks.mapM fun chunk =>
    chunk.mapM (compressColumns key inputs)
  let compressedTableExpression ← compressColumns key inputs argument.tableExpressions
  let selector ← evaluateRows key inputs argument.selector
  let usable ← usizeSub key.overflowChecks key.domain.n key.blindingFactors
  let usableRows ← usizeSub key.overflowChecks usable 1
  let multiplicities ← computeMultiplicities key.overflowChecks key.multiplicityRandom selector
    chunkedCompressedInputs.flatten compressedTableExpression usableRows
  return ⟨selector, multiplicities, chunkedCompressedInputs, compressedTableExpression⟩

/-- `Σ 1 / (f + beta)` over the columns of a chunk, on all rows. -/
def helperRows (key : ProverKey F) (beta : F) (columns : List (List F)) : Option (List F) :=
  let invertedColumns := columns.map fun column => column.map fun value => (beta + value)⁻¹
  fillRows key.threads key.domain.n fun row =>
    invertedColumns.foldlM (fun acc column => column[row]?.map fun value => acc + value) 0

/-- The running sum, with random values in the last rows. -/
def aggregatorRows (key : ProverKey F) (logderivative : List F) : List F :=
  ((List.scanl (fun state cur => state + cur) 0 (0 :: logderivative)).tail.take
      (key.domain.n - key.blindingFactors)) ++
    (range key.blindingFactors).map key.aggregatorRandom

/-- The debug assertions on the running sum. -/
def aggregatorAsserted (key : ProverKey F) (aggregator : List F) : Bool :=
  aggregator[0]? == some 0 && key.blindingFactors + 1 ≤ key.domain.n &&
    aggregator[key.domain.n - (key.blindingFactors + 1)]? == some 0

def commitLogderivative (key : ProverKey F) (computed : ComputedMultiplicities F) (beta : F) :
    Option (Committed F) := do
  let n := key.domain.n
  let denominators ← fillRows key.threads n fun i =>
    computed.compressedTableExpression[i]?.map fun value => beta + value
  let tableDenoms := denominators.map fun value => value⁻¹
  let helpers ← computed.chunkedCompressedInputs.mapM (helperRows key beta)
  let logderivative ← fillRows key.threads n fun i => do
    let sumHelpers ← helpers.foldlM (fun acc helper => helper[i]?.map fun value => acc + value) 0
    return (← computed.selector[i]?) * sumHelpers -
      (← computed.multiplicities[i]?) * (← tableDenoms[i]?)
  if n < key.blindingFactors then none
  else
    let aggregator := aggregatorRows key logderivative
    if key.debugAssertions && !aggregatorAsserted key aggregator then none
    else
      let multiplicities ← key.domain.lagrangeToCoeff key.threads computed.multiplicities
      let helperPolys ← helpers.mapM (key.domain.lagrangeToCoeff key.threads)
      let aggregatorPoly ← key.domain.lagrangeToCoeff key.threads aggregator
      return ⟨multiplicities, helperPolys, aggregatorPoly⟩

def commit (key : ProverKey F) (argument : ChunkedArgument F) (inputs : Inputs F) :
    Option (Committed F) := do
  let computed ← commitMultiplicities key argument inputs
  commitLogderivative key computed inputs.beta

def Committed.evaluate (committed : Committed F) (domain : EvaluationDomain F) (x : F) :
    LookupEvaluated F where
  multiplicitiesEval := valueAt x committed.multiplicities
  helperEvals := committed.helperPolys.map (valueAt x)
  accumulatorEval := valueAt x committed.aggregatorPoly
  accumulatorNextEval := valueAt (rotateOmega domain x 1) committed.aggregatorPoly

end Prover

/-! ### Rows of the columns -/

section Rows

variable [Field F] {key : ProverKey F}

omit [Field F] in
theorem fill_rows_eq {threads n : Nat} (pos : 0 < threads) {f : Nat → Option F} {g : Nat → F}
    (filled : ∀ row < n, f row = some (g row)) : fillRows threads n f = some (rowTable n g) := by
  have each : Elementwise (fun (o : List (Option F)) start =>
      (o.zipIdx start).map fun value => f value.2) fun value => f value.2 := fun _ _ => rfl
  rw [fillRows, parallelize_elementwise each pos, row_table_constant, row_table_zip_idx,
    rowTable, mapM_map]
  exact map_m_of_forall (range n) fun row mem => filled row (mem_range.mp mem)

structure RowsHold (key : ProverKey F) (argument : ChunkedArgument F) (inputs : Inputs F)
    (rows : Nat → Point F) : Prop where
  threads : 0 < key.threads
  input : ∀ row < key.domain.n, ∀ chunk ∈ argument.inputExpressionChunks, ∀ input ∈ chunk,
    ∀ expression ∈ input,
      evaluateAt (atRow inputs key.domain.n row) expression = some (expression.value (rows row))
  table : ∀ row < key.domain.n, ∀ expression ∈ argument.tableExpressions,
    evaluateAt (atRow inputs key.domain.n row) expression = some (expression.value (rows row))
  selector : ∀ row < key.domain.n, evaluateAt (atRow inputs key.domain.n row) argument.selector =
    some (argument.selector.value (rows row))

variable {inputs : Inputs F} {rows : Nat → Point F}

theorem evaluate_rows_eq (pos : 0 < key.threads) {expression : Expression F}
    (held : ∀ row < key.domain.n,
      evaluateAt (atRow inputs key.domain.n row) expression = some (expression.value (rows row))) :
    evaluateRows key inputs expression =
      some (rowTable key.domain.n fun row => expression.value (rows row)) :=
  fill_rows_eq pos held

omit [Field F] in
theorem zip_with_rows (n : Nat) (first second : Nat → F) (op : F → F → F) :
    zipWith op (rowTable n first) (rowTable n second) =
      rowTable n fun row => op (first row) (second row) := by
  apply ext_getElem (by simp)
  intro row _ _
  simp [rowTable]

theorem compress_rows (n : Nat) (theta : F) (expressions : List (Expression F)) (start : Nat → F) :
    (expressions.map fun expression => rowTable n fun row => expression.value (rows row)).foldl
        (fun acc column => zipWith (fun a value => a * theta + value) acc column)
        (rowTable n start) =
      rowTable n fun row => expressions.foldl
        (fun acc expression => acc * theta + expression.value (rows row)) (start row) := by
  induction expressions generalizing start with
  | nil => rfl
  | cons expression rest ih =>
    rw [map_cons, foldl_cons, zip_with_rows, ih]
    rfl

theorem compress_columns_eq (pos : 0 < key.threads) {expressions : List (Expression F)}
    (held : ∀ row < key.domain.n, ∀ expression ∈ expressions,
      evaluateAt (atRow inputs key.domain.n row) expression = some (expression.value (rows row))) :
    compressColumns key inputs expressions = some (rowTable key.domain.n fun row =>
      compressExpressions (rows row) inputs.theta expressions) := by
  have columns : expressions.mapM (evaluateRows key inputs) =
      some (expressions.map fun expression =>
        rowTable key.domain.n fun row => expression.value (rows row)) :=
    map_m_of_forall expressions fun expression mem =>
      evaluate_rows_eq pos fun row inside => held row inside expression mem
  rw [compressColumns, columns, bind_eq_bind, bind_some, row_table_constant, compress_rows]
  rfl

end Rows

/-! ### Multiplicities -/

section Multiplicities

variable [Field F] [DecidableEq F]

def selectedInputs (usableRows : Nat) (selector : Nat → F) (inputs : List (Nat → F)) : List F :=
  inputs.flatMap fun input =>
    ((range usableRows).filter fun row => selector row ≠ 0).map input

/-- The counter of some occurrences, as an element of the field. -/
def counted (count : Nat) : F := ((count % 2 ^ 32 : Nat) : F)

theorem selected_values_eq {usableRows n : Nat} (le : usableRows ≤ n) (selector values : Nat → F) :
    selectedValues (rowTable n selector) (rowTable n values) usableRows =
      ((range usableRows).filter fun row => selector row ≠ 0).map values := by
  rw [selectedValues, row_table_zip, row_table_take _ le, rowTable, filter_map, map_map]
  rfl

variable {overflowChecks : Bool} {random : Nat → F} {usableRows n : Nat} {selector table : Nat → F}
  {inputs : List (Nat → F)}

theorem input_loops (le : usableRows ≤ n) (counts : F → Option Nat) :
    (inputs.map fun input => rowTable n input).foldlM (fun counts column =>
        (selectedValues (rowTable n selector) column usableRows).foldlM
          (countKnown 32 overflowChecks) counts) counts =
      (selectedInputs usableRows selector inputs).foldlM (countKnown 32 overflowChecks) counts := by
  induction inputs generalizing counts with
  | nil => rfl
  | cons input rest ih =>
    rw [map_cons, foldlM_cons, selected_values_eq le, selectedInputs, flatMap_cons, foldlM_append]
    congr 1
    funext next
    exact ih next

omit [Field F] in
theorem tally_nothing : (fun _ => none : F → Option Nat) = tallyOf 32 [] [] := by
  funext value
  rw [tallyOf, if_neg not_mem_nil]

omit [Field F] in
theorem tally_zeros (keys seen : List F) :
    (fun value => (tallyOf 32 keys seen value).map fun _ => 0) = tallyOf 32 keys [] := by
  funext value
  by_cases mem : value ∈ keys
  · simp [tallyOf, mem]
  · simp [tallyOf, mem]

/-- No counter reaches its bound. -/
def CountersFit (usableRows : Nat) (selector table : Nat → F) (inputs : List (Nat → F)) : Prop :=
  ∀ value, (rowTable usableRows table).count value < 2 ^ 32 ∧
    (selectedInputs usableRows selector inputs).count value < 2 ^ 32

def multiplicity (usableRows : Nat) (selector table : Nat → F) (inputs : List (Nat → F))
    (value : F) : F :=
  counted ((selectedInputs usableRows selector inputs).count value) *
    (counted ((rowTable usableRows table).count value))⁻¹

theorem compute_multiplicities_eq (le : usableRows ≤ n)
    (found : ∀ value ∈ selectedInputs usableRows selector inputs, value ∈ rowTable usableRows table)
    (fits : overflowChecks = true → CountersFit usableRows selector table inputs) :
    computeMultiplicities overflowChecks random (rowTable n selector)
        (inputs.map fun input => rowTable n input) (rowTable n table) usableRows =
      some (rowTable n fun row => if row < usableRows then
        multiplicity usableRows selector table inputs (table row) else random (row - usableRows)) := by
  have nothing : Covers ([] : List F) [] := fun value mem => mem
  have table_fits : overflowChecks = true → ∀ value,
      ([] ++ rowTable usableRows table).count value < 2 ^ 32 := fun checked value =>
    (fits checked value).1
  have input_fits : overflowChecks = true → ∀ value,
      ([] ++ selectedInputs usableRows selector inputs).count value < 2 ^ 32 := fun checked value =>
    (fits checked value).2
  have covers : Covers (rowTable usableRows table) [] := fun value mem =>
    absurd mem not_mem_nil
  rw [computeMultiplicities, row_table_take table le, tally_nothing,
    count_all_any nothing table_fits, bind_eq_bind, bind_some, tally_zeros,
    input_loops le, nil_append, count_all_known found covers input_fits]
  have numbered : (rowTable n table).zipIdx = rowTable n fun row => (table row, row) := by
    rw [← map_id (rowTable n table).zipIdx, row_table_zip_idx]
    rfl
  simp only [bind_some, Option.pure_def, nil_append, numbered, row_table_map, row_table_zip]
  congr 1
  apply row_table_congr
  intro row _
  by_cases usable : row < usableRows
  · have mem : table row ∈ rowTable usableRows table :=
      mem_map_of_mem (mem_range.mpr usable)
    simp only [if_pos usable, tallyOf, if_pos mem, getD_some]
    rfl
  · simp only [if_neg usable]

theorem compute_multiplicities_absent (le : usableRows ≤ n) {value : F}
    (selected : value ∈ selectedInputs usableRows selector inputs)
    (absent : value ∉ rowTable usableRows table) :
    computeMultiplicities overflowChecks random (rowTable n selector)
        (inputs.map fun input => rowTable n input) (rowTable n table) usableRows = none := by
  rw [computeMultiplicities, row_table_take table le]
  cases counts : (rowTable usableRows table).foldlM (countAny 32 overflowChecks) fun _ => none with
  | none => rfl
  | some tableCounts =>
    have unknown : ((tableCounts value).map fun _ => 0) = none := by
      rw [count_all_other counts absent, Option.map_none]
    rw [bind_eq_bind, bind_some, input_loops le, count_all_missing selected unknown]
    rfl

theorem compute_multiplicities_overflow (le : usableRows ≤ n)
    (found : ∀ value ∈ selectedInputs usableRows selector inputs, value ∈ rowTable usableRows table)
    (full : ¬CountersFit usableRows selector table inputs) :
    computeMultiplicities true random (rowTable n selector)
        (inputs.map fun input => rowTable n input) (rowTable n table) usableRows = none := by
  have nothing : Covers ([] : List F) [] := fun value mem => mem
  rw [computeMultiplicities, row_table_take table le, tally_nothing]
  by_cases rows_fit : ∀ value, (rowTable usableRows table).count value < 2 ^ 32
  · have table_fits : true = true → ∀ value,
        ([] ++ rowTable usableRows table).count value < 2 ^ 32 := fun _ => rows_fit
    have input_full : ∃ value, 2 ^ 32 ≤ (selectedInputs usableRows selector inputs).count value := by
      by_contra below
      simp only [not_exists, not_le] at below
      exact full fun value => ⟨rows_fit value, below value⟩
    rcases input_full with ⟨value, overflows⟩
    rw [count_all_any nothing table_fits, bind_eq_bind, bind_some, tally_zeros,
      input_loops le, nil_append, count_known_overflow found overflows]
    rfl
  · simp only [not_forall, not_lt] at rows_fit
    rcases rows_fit with ⟨value, overflows⟩
    have small : ∀ value, ([] : List F).count value < 2 ^ 32 := fun _ => Nat.two_pow_pos 32
    have overflows_table : 2 ^ 32 ≤ ([] ++ rowTable usableRows table).count value := overflows
    rw [count_all_overflow nothing small overflows_table]
    rfl

end Multiplicities

/-! ### Running sum -/

section RunningSum

variable [Field F] [DecidableEq F] {key : ProverKey F}

/-- `Σ 1 / (f + beta)` over the inputs of a chunk. -/
def helperAt (beta : F) (chunk : List (Nat → F)) (row : Nat) : F :=
  (chunk.map fun input => (beta + input row)⁻¹).sum

def term (beta : F) (selector multiplicities table : Nat → F) (chunks : List (List (Nat → F)))
    (row : Nat) : F :=
  selector row * (chunks.map fun chunk => helperAt beta chunk row).sum -
    multiplicities row * (beta + table row)⁻¹

def lastRow (key : ProverKey F) : Nat := key.domain.n - (key.blindingFactors + 1)

omit [DecidableEq F] in
theorem fold_columns {n row : Nat} (inside : row < n) (columns : List (Nat → F)) (start : F) :
    (columns.map fun column => rowTable n column).foldlM
        (fun acc column => column[row]?.map fun value => acc + value) start =
      some (start + (columns.map fun column => column row).sum) := by
  induction columns generalizing start with
  | nil => simp
  | cons column rest ih =>
    rw [map_cons, foldlM_cons, row_table_get column inside, map_some,
      bind_eq_bind, bind_some, ih, map_cons, sum_cons, add_assoc]

omit [DecidableEq F] in
theorem helper_rows_eq (pos : 0 < key.threads) (beta : F) (chunk : List (Nat → F)) :
    helperRows key beta (chunk.map fun input => rowTable key.domain.n input) =
      some (rowTable key.domain.n (helperAt beta chunk)) := by
  have inverted : ((chunk.map fun input => rowTable key.domain.n input).map fun column =>
      column.map fun value => (beta + value)⁻¹) =
        (chunk.map fun input row => (beta + input row)⁻¹).map fun column =>
          rowTable key.domain.n column := by
    simp only [map_map, Function.comp_def, row_table_map]
  rw [helperRows, inverted]
  apply fill_rows_eq pos
  intro row inside
  rw [fold_columns inside, zero_add, map_map]
  rfl

/-- The aggregator holds the running sum up to the last row. -/
structure AggregatorRuns (key : ProverKey F) (terms : Nat → F) (aggregator : List F) : Prop where
  length : aggregator.length = key.domain.n
  rows : ∀ row ≤ lastRow key, aggregator[row]? = some (∑ earlier ∈ Finset.range row, terms earlier)

omit [DecidableEq F] in
theorem aggregator_runs (enough : key.blindingFactors + 1 ≤ key.domain.n) (terms : Nat → F) :
    AggregatorRuns key terms (aggregatorRows key (rowTable key.domain.n terms)) := by
  have scanned : (List.scanl (fun state cur => state + cur) 0
      (0 :: rowTable key.domain.n terms)).tail.take (key.domain.n - key.blindingFactors) =
        rowTable (key.domain.n - key.blindingFactors) fun row =>
          ∑ earlier ∈ Finset.range row, terms earlier := by
    rw [scanl_cons, tail_cons, scanl_sums, row_table_take _ (by omega)]
    simp only [zero_add]
  constructor
  · rw [aggregatorRows, scanned, length_append, row_table_length, length_map, length_range]
    omega
  · intro row usable
    unfold lastRow at usable
    rw [aggregatorRows, scanned, getElem?_append_left (by rw [row_table_length]; omega),
      row_table_get _ (by omega)]

theorem aggregator_asserted_iff {terms : Nat → F} {aggregator : List F}
    (runs : AggregatorRuns key terms aggregator)
    (enough : key.blindingFactors + 1 ≤ key.domain.n) :
    aggregatorAsserted key aggregator ↔ ∑ row ∈ Finset.range (lastRow key), terms row = 0 := by
  have first := runs.rows 0 (Nat.zero_le _)
  have last := runs.rows (lastRow key) (Nat.le_refl _)
  unfold lastRow at last
  simp [aggregatorAsserted, first, last, enough, lastRow]

/-- The committed polynomials, on the rows of the domain. -/
structure Commits (key : ProverKey F) (beta : F) (selector multiplicities table : Nat → F)
    (chunks : List (List (Nat → F))) (committed : Committed F) : Prop where
  ofMultiplicities : smallValues key.domain committed.multiplicities =
    rowTable key.domain.n multiplicities
  ofHelpers : committed.helperPolys.map (smallValues key.domain) =
    chunks.map fun chunk => rowTable key.domain.n (helperAt beta chunk)
  ofAggregator : AggregatorRuns key (term beta selector multiplicities table chunks)
    (smallValues key.domain committed.aggregatorPoly)

def computedRows (n : Nat) (selector multiplicities table : Nat → F)
    (chunks : List (List (Nat → F))) : ComputedMultiplicities F where
  selector := rowTable n selector
  multiplicities := rowTable n multiplicities
  chunkedCompressedInputs := chunks.map fun chunk => chunk.map fun input => rowTable n input
  compressedTableExpression := rowTable n table

variable (pos : 0 < key.threads) (beta : F) (selector multiplicities table : Nat → F)
  (chunks : List (List (Nat → F)))

include pos

omit [DecidableEq F] in
theorem logderivative_eq :
    fillRows key.threads key.domain.n (fun i => do
      let sumHelpers ← (chunks.map fun chunk => rowTable key.domain.n (helperAt beta chunk)).foldlM
        (fun acc helper => helper[i]?.map fun value => acc + value) 0
      return (← (rowTable key.domain.n selector)[i]?) * sumHelpers -
        (← (rowTable key.domain.n multiplicities)[i]?) *
          (← ((rowTable key.domain.n fun row => beta + table row).map fun value => value⁻¹)[i]?)) =
      some (rowTable key.domain.n (term beta selector multiplicities table chunks)) := by
  apply fill_rows_eq pos
  intro row inside
  have sums := fold_columns inside (chunks.map fun chunk => helperAt beta chunk) 0
  rw [map_map, map_map, zero_add] at sums
  rw [row_table_map, row_table_get _ inside, row_table_get _ inside, row_table_get _ inside]
  simp only [bind_eq_bind, bind_some, Option.pure_def]
  rw [Option.bind_eq_some_iff]
  exact ⟨_, sums, rfl⟩

theorem commit_logderivative_eq (enough : key.blindingFactors + 1 ≤ key.domain.n) :
    let aggregator := aggregatorRows key (rowTable key.domain.n
      (term beta selector multiplicities table chunks))
    commitLogderivative key (computedRows key.domain.n selector multiplicities table chunks) beta =
      if key.debugAssertions && !aggregatorAsserted key aggregator then none
      else do
        let multiplicities ← key.domain.lagrangeToCoeff key.threads
          (rowTable key.domain.n multiplicities)
        let helperPolys ← (chunks.map fun chunk => rowTable key.domain.n (helperAt beta chunk)).mapM
          (key.domain.lagrangeToCoeff key.threads)
        let aggregatorPoly ← key.domain.lagrangeToCoeff key.threads aggregator
        return ⟨multiplicities, helperPolys, aggregatorPoly⟩ := by
  have denominators : fillRows key.threads key.domain.n (fun i =>
      (rowTable key.domain.n table)[i]?.map fun value => beta + value) =
        some (rowTable key.domain.n fun row => beta + table row) := by
    apply fill_rows_eq pos
    intro row inside
    rw [row_table_get table inside, map_some]
  have helpers : (chunks.map fun chunk => chunk.map fun input => rowTable key.domain.n input).mapM
      (helperRows key beta) = some (chunks.map fun chunk =>
        rowTable key.domain.n (helperAt beta chunk)) := by
    rw [mapM_map]
    exact map_m_of_forall chunks fun chunk _ => helper_rows_eq pos beta chunk
  have terms := logderivative_eq pos beta selector multiplicities table chunks
  have fits : ¬key.domain.n < key.blindingFactors := by omega
  simp only [commitLogderivative, computedRows, denominators, helpers, bind_eq_bind,
    bind_some] at terms ⊢
  rw [terms, bind_some, if_neg fits]

theorem commit_logderivative_stops (enough : key.blindingFactors + 1 ≤ key.domain.n)
    (debug : key.debugAssertions = true) (unbalanced : ∑ row ∈ Finset.range (lastRow key),
      term beta selector multiplicities table chunks row ≠ 0) :
    commitLogderivative key (computedRows key.domain.n selector multiplicities table chunks) beta =
      none := by
  have asserted := aggregator_asserted_iff
    (aggregator_runs enough (term beta selector multiplicities table chunks)) enough
  rw [commit_logderivative_eq pos beta selector multiplicities table chunks enough]
  have failed := fun passed => unbalanced (asserted.mp passed)
  simp only [debug, Bool.true_and, Bool.not_eq_true'] at failed ⊢
  rw [if_pos (by simpa using failed)]

theorem commit_logderivative_commits (wellFormed : WellFormed key.domain)
    (enough : key.blindingFactors + 1 ≤ key.domain.n)
    (balanced : key.debugAssertions = true → ∑ row ∈ Finset.range (lastRow key),
      term beta selector multiplicities table chunks row = 0) :
    ∃ committed, commitLogderivative key
        (computedRows key.domain.n selector multiplicities table chunks) beta = some committed ∧
      Commits key beta selector multiplicities table chunks committed := by
  have rows : key.domain.n = 2 ^ key.domain.k := wellFormed.n
  have runs := aggregator_runs enough (term beta selector multiplicities table chunks)
  have asserted := aggregator_asserted_iff runs enough
  have passes : ¬(key.debugAssertions && !aggregatorAsserted key (aggregatorRows key
      (rowTable key.domain.n (term beta selector multiplicities table chunks)))) := by
    intro failed
    rw [Bool.and_eq_true, Bool.not_eq_true'] at failed
    have passed := asserted.mpr (balanced failed.1)
    rw [failed.2] at passed
    cases passed
  have helper_lengths : ∀ helper ∈ chunks.map (fun chunk =>
      rowTable key.domain.n (helperAt beta chunk)), helper.length = 2 ^ key.domain.k := by
    intro helper mem
    rcases mem_map.mp mem with ⟨chunk, _, rfl⟩
    rw [row_table_length, rows]
  rcases interpolate_column wellFormed pos
    ((row_table_length key.domain.n multiplicities).trans rows) with ⟨m, m_found, m_rows, -⟩
  rcases interpolate_all wellFormed pos helper_lengths with ⟨helpers, h_found, h_rows, -⟩
  rcases interpolate_column wellFormed pos (runs.length.trans rows) with
    ⟨z, z_found, z_rows, -⟩
  have committed : commitLogderivative key
      (computedRows key.domain.n selector multiplicities table chunks) beta =
        some ⟨m, helpers, z⟩ := by
    rw [commit_logderivative_eq pos beta selector multiplicities table chunks enough, if_neg passes]
    simp only [m_found, h_found, z_found, bind_eq_bind, bind_some, Option.pure_def]
  rw [← z_rows] at runs
  exact ⟨⟨m, helpers, z⟩, committed, m_rows, h_rows, runs⟩

end RunningSum

/-! ### The constraints of a row -/

section Constraints

variable [Field F] [DecidableEq F] {key : ProverKey F}

/-- The challenges and Lagrange values of the constraints at a row. -/
structure LogupRow (key : ProverKey F) (inputs : Inputs F) (row : Nat) (point : Challenges F) :
    Prop where
  theta : point.theta = inputs.theta
  beta : point.beta = inputs.beta
  l0 : point.l0 = if row = 0 then 1 else 0
  lLast : point.lLast = if row = lastRow key then 1 else 0
  lBlind : point.lBlind = if lastRow key < row then 1 else 0

def compressedAt (rows : Nat → Point F) (theta : F) (expressions : List (Expression F)) (row : Nat) :
    F := compressExpressions (rows row) theta expressions

def chunkInputs (rows : Nat → Point F) (theta : F) (argument : ChunkedArgument F) :
    List (List (Nat → F)) :=
  argument.inputExpressionChunks.map fun chunk => chunk.map (compressedAt rows theta)

omit [DecidableEq F] in
theorem helper_value_inverses {factors : List F} (nonzero : ∀ f ∈ factors, f ≠ 0) :
    helperValue (factors.map fun f => f⁻¹).sum factors = 0 := by
  rw [helperValue, sumPartialProducts, ← divided_products nonzero, sum_map_mul_left, mul_comm,
    sub_self]

variable {rows : Nat → Point F} {argument : ChunkedArgument F} {inputs : Inputs F} {row : Nat}
  {point : Challenges F} {selector multiplicities table : Nat → F} {committed : Committed F}
  (wellFormed : WellFormed key.domain) (inside : row < key.domain.n)
  (challenges : LogupRow key inputs row point)
  (commits : Commits key inputs.beta (fun row => argument.selector.value (rows row)) multiplicities
    (compressedAt rows inputs.theta argument.tableExpressions)
    (chunkInputs rows inputs.theta argument) committed)

include wellFormed inside challenges commits

omit [DecidableEq F] challenges in
theorem helper_pairs_eq :
    argument.inputExpressionChunks.zip
        (committed.evaluate key.domain (key.domain.omega ^ row)).helperEvals =
      argument.inputExpressionChunks.map fun chunk =>
        (chunk, helperAt inputs.beta (chunk.map (compressedAt rows inputs.theta)) row) := by
  have helpers := congrArg (List.map fun helper => helper.getD row 0) commits.ofHelpers
  rw [chunkInputs, map_map, map_map, map_map] at helpers
  have values : committed.helperPolys.map (valueAt (key.domain.omega ^ row)) =
      committed.helperPolys.map
        ((fun helper => helper.getD row 0) ∘ smallValues key.domain) :=
    map_congr_left fun poly _ => row_value wellFormed poly inside
  have evals : (committed.evaluate key.domain (key.domain.omega ^ row)).helperEvals =
      argument.inputExpressionChunks.map fun chunk =>
        helperAt inputs.beta (chunk.map (compressedAt rows inputs.theta)) row := by
    rw [Committed.evaluate, values, helpers]
    apply map_congr_left
    intro chunk _
    exact row_table_get_d _ 0 inside
  rw [evals, zip_map_self]

theorem helper_constraints_zero
    (nonzero : ∀ chunk ∈ argument.inputExpressionChunks, ∀ f ∈ chunkFactors (rows row) point chunk,
      f ≠ 0) :
    (argument.inputExpressionChunks.zip
        (committed.evaluate key.domain (key.domain.omega ^ row)).helperEvals).mapM (fun pair =>
      helperConstraint pair.2 (chunkFactors (rows row) point pair.1)) =
      some (argument.inputExpressionChunks.map fun _ => 0) := by
  rw [helper_pairs_eq wellFormed inside commits, mapM_map]
  apply map_m_of_forall
  intro chunk mem
  have factors : helperAt inputs.beta (chunk.map (compressedAt rows inputs.theta)) row =
      ((chunkFactors (rows row) point chunk).map fun f => f⁻¹).sum := by
    rw [helperAt, chunkFactors, map_map, map_map, challenges.theta, challenges.beta]
    simp only [Function.comp_def, compressedAt, add_comm]
  rw [Function.comp_apply, helper_constraint_eq, if_pos (nonzero chunk mem), factors,
    helper_value_inverses (nonzero chunk mem)]
  rfl

omit [DecidableEq F] challenges in
theorem accumulator_eval (usable : row ≤ lastRow key) :
    (committed.evaluate key.domain (key.domain.omega ^ row)).accumulatorEval =
      ∑ earlier ∈ Finset.range row, term inputs.beta
        (fun row => argument.selector.value (rows row)) multiplicities
        (compressedAt rows inputs.theta argument.tableExpressions)
        (chunkInputs rows inputs.theta argument) earlier := by
  simp only [Committed.evaluate]
  rw [row_value wellFormed committed.aggregatorPoly inside, getD_eq_getElem?_getD,
    commits.ofAggregator.rows row usable, getD_some]

omit [DecidableEq F] in
theorem boundary_zero
    (balanced : ∑ row ∈ Finset.range (lastRow key), term inputs.beta
      (fun row => argument.selector.value (rows row)) multiplicities
      (compressedAt rows inputs.theta argument.tableExpressions)
      (chunkInputs rows inputs.theta argument) row = 0) :
    (point.l0 + point.lLast) *
      (committed.evaluate key.domain (key.domain.omega ^ row)).accumulatorEval = 0 := by
  rw [challenges.l0, challenges.lLast]
  by_cases first : row = 0
  · have eval := accumulator_eval wellFormed inside commits (first ▸ Nat.zero_le _)
    rw [eval, first, Finset.sum_range_zero, mul_zero]
  · by_cases last : row = lastRow key
    · have eval := accumulator_eval wellFormed inside commits last.le
      rw [eval, last, balanced, mul_zero]
    · rw [if_neg first, if_neg last, add_zero, zero_mul]

omit [DecidableEq F] in
theorem accumulator_zero
    (tableNonzero : row < lastRow key → inputs.beta +
      compressedAt rows inputs.theta argument.tableExpressions row ≠ 0) :
    ((committed.evaluate key.domain (key.domain.omega ^ row)).accumulatorNextEval -
      (committed.evaluate key.domain (key.domain.omega ^ row)).accumulatorEval -
      argument.selector.value (rows row) * (argument.inputExpressionChunks.zip
        (committed.evaluate key.domain (key.domain.omega ^ row)).helperEvals).foldl
          (fun acc pair => acc + pair.2) 0) *
      (compressExpressions (rows row) point.theta argument.tableExpressions + point.beta) +
      (committed.evaluate key.domain (key.domain.omega ^ row)).multiplicitiesEval = 0 ∨
        1 - (point.lLast + point.lBlind) = 0 := by
  by_cases active : row < lastRow key
  · apply Or.inl
    have below : row + 1 < key.domain.n := by
      unfold lastRow at active
      omega
    have eval := accumulator_eval wellFormed inside commits active.le
    have next : (committed.evaluate key.domain (key.domain.omega ^ row)).accumulatorNextEval =
        ∑ earlier ∈ Finset.range (row + 1), term inputs.beta
          (fun row => argument.selector.value (rows row)) multiplicities
          (compressedAt rows inputs.theta argument.tableExpressions)
          (chunkInputs rows inputs.theta argument) earlier := by
      simp only [Committed.evaluate]
      rw [next_row_value wellFormed committed.aggregatorPoly below, getD_eq_getElem?_getD,
        commits.ofAggregator.rows (row + 1) active, getD_some]
    have counted : (committed.evaluate key.domain (key.domain.omega ^ row)).multiplicitiesEval =
        multiplicities row := by
      simp only [Committed.evaluate]
      rw [row_value wellFormed committed.multiplicities inside, commits.ofMultiplicities,
        row_table_get_d _ 0 inside]
    have helpers : (argument.inputExpressionChunks.zip
        (committed.evaluate key.domain (key.domain.omega ^ row)).helperEvals).foldl
          (fun acc pair => acc + pair.2) 0 =
        ((chunkInputs rows inputs.theta argument).map fun chunk =>
          helperAt inputs.beta chunk row).sum := by
      rw [helper_pairs_eq wellFormed inside commits, chunkInputs, map_map,
        sum_eq_foldl, foldl_map, foldl_map]
      rfl
    have divides := mul_inv_cancel₀ (tableNonzero active)
    rw [next, eval, counted, helpers, Finset.sum_range_succ, challenges.theta, challenges.beta, term]
    unfold compressedAt at divides ⊢
    linear_combination (-multiplicities row) * divides
  · apply Or.inr
    rw [challenges.lLast, challenges.lBlind]
    rcases Nat.lt_or_eq_of_le (Nat.not_lt.mp active) with behind | at_last
    · rw [if_neg behind.ne', if_pos behind, zero_add, sub_self]
    · rw [if_pos at_last.symm, if_neg (by omega), add_zero, sub_self]

theorem row_constraints_zero
    (inputsNonzero : ∀ chunk ∈ argument.inputExpressionChunks,
      ∀ f ∈ chunkFactors (rows row) point chunk, f ≠ 0)
    (tableNonzero : row < lastRow key → inputs.beta +
      compressedAt rows inputs.theta argument.tableExpressions row ≠ 0)
    (balanced : ∑ row ∈ Finset.range (lastRow key), term inputs.beta
      (fun row => argument.selector.value (rows row)) multiplicities
      (compressedAt rows inputs.theta argument.tableExpressions)
      (chunkInputs rows inputs.theta argument) row = 0) :
    ∃ constraints, lookupExpressions argument.selector argument.inputExpressionChunks
        argument.tableExpressions (rows row) point
        (committed.evaluate key.domain (key.domain.omega ^ row)) = some constraints ∧
      ∀ constraint ∈ constraints, constraint = 0 := by
  have helpers := helper_constraints_zero wellFormed inside challenges commits inputsNonzero
  have pairs := helper_pairs_eq wellFormed inside commits
  have boundary := boundary_zero wellFormed inside challenges commits balanced
  have accumulator := accumulator_zero wellFormed inside challenges commits tableNonzero
  unfold chunkFactors at helpers
  simp only [lookupExpressions, helpers, bind_eq_bind, bind_some, pure_some_iff, exists_eq_left', boundary]
  intro constraint mem
  rw [mem_append, mem_cons, mem_singleton] at mem
  rcases mem with (first | helper) | last
  · exact first
  · rcases mem_map.mp helper with ⟨chunk, _, same⟩
    exact same.symm
  · rw [last]
    exact mul_eq_zero.mpr accumulator

end Constraints

/-! ### Counting both sides -/

section Counting

variable [Field F] [DecidableEq F] {usableRows : Nat} {selector table : Nat → F}

theorem selected_sum (binary : ∀ row < usableRows, selector row = 0 ∨ selector row = 1)
    (weight : F → F) (inputs : List (Nat → F)) :
    ((selectedInputs usableRows selector inputs).map weight).sum =
      ∑ row ∈ Finset.range usableRows,
        selector row * (inputs.map fun input => weight (input row)).sum := by
  have weighted : ∀ (input : Nat → F) (among : List Nat), (∀ row ∈ among, row < usableRows) →
      (((among.filter fun row => selector row ≠ 0).map input).map weight).sum =
        (among.map fun row => selector row * weight (input row)).sum := by
    intro input among usable
    induction among with
    | nil => rfl
    | cons row rest ih =>
      have later := ih (forall_mem_cons.mp usable).2
      rcases binary row (usable row mem_cons_self) with off | on
      · simpa [off] using later
      · simpa [on] using later
  have one_input : ∀ input : Nat → F,
      ((((range usableRows).filter fun row => selector row ≠ 0).map input).map weight).sum =
        ∑ row ∈ Finset.range usableRows, selector row * weight (input row) := by
    intro input
    rw [weighted input (range usableRows) fun row => mem_range.mp, ← sum_rows, rowTable]
  induction inputs with
  | nil => simp [selectedInputs]
  | cons input rest ih =>
    simp only [selectedInputs, flatMap_cons, map_append, sum_append, one_input,
      map_cons, sum_cons, mul_add, Finset.sum_add_distrib] at ih ⊢
    rw [ih]

omit [DecidableEq F] in
theorem table_sum (weight : F → F) :
    ((rowTable usableRows table).map weight).sum =
      ∑ row ∈ Finset.range usableRows, weight (table row) := by
  rw [row_table_map, sum_rows]

/-- What the counters leave of the sum. -/
def imbalance (usableRows : Nat) (beta : F) (selector table : Nat → F) (inputs : List (Nat → F)) :
    F :=
  ∑ value ∈ (rowTable usableRows table).toFinset,
    (((selectedInputs usableRows selector inputs).count value : F) -
      ((rowTable usableRows table).count value : F) *
        multiplicity usableRows selector table inputs value) * (beta + value)⁻¹

theorem terms_imbalance {inputs : List (List (Nat → F))} (beta : F) (multiplicities : Nat → F)
    (binary : ∀ row < usableRows, selector row = 0 ∨ selector row = 1)
    (found : ∀ value ∈ selectedInputs usableRows selector inputs.flatten,
      value ∈ rowTable usableRows table)
    (counted : ∀ row < usableRows, multiplicities row =
      multiplicity usableRows selector table inputs.flatten (table row)) :
    ∑ row ∈ Finset.range usableRows, term beta selector multiplicities table inputs row =
      imbalance usableRows beta selector table inputs.flatten := by
  have helpers : ∀ row, (inputs.map fun chunk => helperAt beta chunk row).sum =
      (inputs.flatten.map fun input => (beta + input row)⁻¹).sum := by
    intro row
    rw [map_flatten, sum_flatten, map_map]
    rfl
  have selected := selected_sum binary (fun value => (beta + value)⁻¹) inputs.flatten
  have looked_up : ∑ row ∈ Finset.range usableRows, multiplicities row * (beta + table row)⁻¹ =
      ((rowTable usableRows table).map fun value =>
        multiplicity usableRows selector table inputs.flatten value * (beta + value)⁻¹).sum := by
    rw [table_sum]
    apply Finset.sum_congr rfl
    intro row mem
    rw [counted row (Finset.mem_range.mp mem)]
  have support : (selectedInputs usableRows selector inputs.flatten).toFinset ⊆
      (rowTable usableRows table).toFinset := by
    intro value mem
    exact mem_toFinset.mpr (found value (mem_toFinset.mp mem))
  have by_value : ((selectedInputs usableRows selector inputs.flatten).map fun value =>
      (beta + value)⁻¹).sum = ∑ value ∈ (rowTable usableRows table).toFinset,
        ((selectedInputs usableRows selector inputs.flatten).count value : F) *
          (beta + value)⁻¹ := by
    rw [Finset.sum_list_map_count, Finset.sum_subset support]
    · simp only [nsmul_eq_mul]
    · intro value _ absent
      rw [count_eq_zero.mpr fun mem => absent (mem_toFinset.mpr mem), zero_smul]
  simp only [term, Finset.sum_sub_distrib, helpers, ← selected, looked_up, by_value,
    Finset.sum_list_map_count, nsmul_eq_mul, imbalance, sub_mul, mul_assoc]

/-- Counters that fit lose nothing, in a field that is larger than the table. -/
theorem imbalance_zero {beta : F} {inputs : List (Nat → F)}
    (large : ∀ count, 0 < count → count ≤ usableRows → (count : F) ≠ 0)
    (fits : CountersFit usableRows selector table inputs) :
    imbalance usableRows beta selector table inputs = 0 := by
  apply Finset.sum_eq_zero
  intro value mem
  have occurs := count_pos_iff.mpr (mem_toFinset.mp mem)
  have bound : (rowTable usableRows table).count value ≤ usableRows := by
    have among := count_le_length (a := value) (l := rowTable usableRows table)
    rwa [row_table_length] at among
  have invertible := mul_inv_cancel₀ (large _ occurs bound)
  rw [multiplicity, LogupProver.counted, LogupProver.counted, Nat.mod_eq_of_lt (fits value).1,
    Nat.mod_eq_of_lt (fits value).2, mul_left_comm, invertible, mul_one, sub_self, zero_mul]

end Counting

/-! ### Completeness -/

section Completeness

variable [Field F] [DecidableEq F] {key : ProverKey F} {argument : ChunkedArgument F}
  {inputs : Inputs F} {rows : Nat → Point F}

variable (key argument inputs rows)

def argumentInputs : List F :=
  selectedInputs (lastRow key) (fun row => argument.selector.value (rows row))
    (chunkInputs rows inputs.theta argument).flatten

def argumentTable : List F :=
  rowTable (lastRow key) (compressedAt rows inputs.theta argument.tableExpressions)

/-- Every selected input of the usable rows is in the table. -/
def AllFound : Prop :=
  ∀ value ∈ argumentInputs key argument inputs rows, value ∈ argumentTable key argument inputs rows

/-- Rows with a binary selector and without a factor of zero. -/
structure Setting : Prop where
  wellFormed : WellFormed key.domain
  enough : key.blindingFactors + 1 ≤ key.domain.n
  rowsHold : RowsHold key argument inputs rows
  selector : ∀ row < lastRow key, argument.selector.value (rows row) = 0 ∨
    argument.selector.value (rows row) = 1
  inputsNonzero : ∀ row < lastRow key, ∀ chunk ∈ argument.inputExpressionChunks, ∀ input ∈ chunk,
    compressedAt rows inputs.theta input row + inputs.beta ≠ 0
  tableNonzero : ∀ row < lastRow key,
    compressedAt rows inputs.theta argument.tableExpressions row + inputs.beta ≠ 0

/-- The accumulator starts and ends at zero, and the constraints hold on every active row, and on
every other row without a factor of zero. -/
structure ConstraintsHold (committed : Committed F) : Prop where
  starts : (smallValues key.domain committed.aggregatorPoly)[0]? = some 0
  ends : (smallValues key.domain committed.aggregatorPoly)[lastRow key]? = some 0
  constraints : ∀ row < key.domain.n, ∀ point : Challenges F, LogupRow key inputs row point →
    (row < lastRow key ∨ ∀ chunk ∈ argument.inputExpressionChunks,
      ∀ f ∈ chunkFactors (rows row) point chunk, f ≠ 0) →
    ∃ constraints, lookupExpressions argument.selector argument.inputExpressionChunks
        argument.tableExpressions (rows row) point
        (committed.evaluate key.domain (key.domain.omega ^ row)) = some constraints ∧
      ∀ constraint ∈ constraints, constraint = 0

/-- The prover commits to an accumulator that satisfies the constraints, or panics. -/
structure ProverComplete : Prop where
  found : AllFound key argument inputs rows → ∃ committed,
    commit key argument inputs = some committed ∧
      ConstraintsHold key argument inputs rows committed
  absent : ¬AllFound key argument inputs rows → commit key argument inputs = none

def CountsFit : Prop :=
  CountersFit (lastRow key) (fun row => argument.selector.value (rows row))
    (compressedAt rows inputs.theta argument.tableExpressions)
    (chunkInputs rows inputs.theta argument).flatten

/-- The multiplicities of the argument, random after the last row. -/
def argumentMultiplicities (row : Nat) : F :=
  if row < lastRow key then
    multiplicity (lastRow key) (fun row => argument.selector.value (rows row))
      (compressedAt rows inputs.theta argument.tableExpressions)
      (chunkInputs rows inputs.theta argument).flatten
      (compressedAt rows inputs.theta argument.tableExpressions row)
  else key.multiplicityRandom (row - lastRow key)

variable {key argument inputs rows}

theorem commit_eq (held : RowsHold key argument inputs rows)
    (enough : key.blindingFactors + 1 ≤ key.domain.n) :
    commit key argument inputs = (do
      let multiplicities ← computeMultiplicities key.overflowChecks key.multiplicityRandom
        (rowTable key.domain.n fun row => argument.selector.value (rows row))
        ((chunkInputs rows inputs.theta argument).flatten.map fun input =>
          rowTable key.domain.n input)
        (rowTable key.domain.n (compressedAt rows inputs.theta argument.tableExpressions))
        (lastRow key)
      commitLogderivative key ⟨rowTable key.domain.n fun row => argument.selector.value (rows row),
        multiplicities, (chunkInputs rows inputs.theta argument).map fun chunk =>
          chunk.map fun input => rowTable key.domain.n input,
        rowTable key.domain.n (compressedAt rows inputs.theta argument.tableExpressions)⟩
        inputs.beta) := by
  have chunk_columns : argument.inputExpressionChunks.mapM (fun chunk =>
      chunk.mapM (compressColumns key inputs)) =
        some ((chunkInputs rows inputs.theta argument).map fun chunk =>
          chunk.map fun input => rowTable key.domain.n input) := by
    rw [chunkInputs, map_map]
    apply map_m_of_forall
    intro chunk mem
    rw [Function.comp_apply, map_map]
    apply map_m_of_forall
    intro input inside
    exact compress_columns_eq held.threads fun row below => held.input row below chunk mem input inside
  have table := compress_columns_eq held.threads held.table
  have selector := evaluate_rows_eq held.threads held.selector
  have usable : usizeSub key.overflowChecks key.domain.n key.blindingFactors =
      some (key.domain.n - key.blindingFactors) := if_pos (by omega)
  have usable_rows : usizeSub key.overflowChecks (key.domain.n - key.blindingFactors) 1 =
      some (lastRow key) := by
    rw [usizeSub, if_pos (by omega), lastRow, Nat.sub_sub]
  have flattened : ((chunkInputs rows inputs.theta argument).map fun chunk =>
      chunk.map fun input => rowTable key.domain.n input).flatten =
        (chunkInputs rows inputs.theta argument).flatten.map fun input =>
          rowTable key.domain.n input := map_flatten.symm
  simp only [commit, commitMultiplicities, chunk_columns, table, selector, usable, usable_rows,
    flattened, bind_eq_bind, bind_some, Option.bind_assoc, Option.pure_def]
  rfl

variable (key argument inputs rows) in
/-- What the counters leave of the sum of the argument. -/
def argumentImbalance : F :=
  imbalance (lastRow key) inputs.beta (fun row => argument.selector.value (rows row))
    (compressedAt rows inputs.theta argument.tableExpressions)
    (chunkInputs rows inputs.theta argument).flatten

theorem argument_imbalance_eq : argumentImbalance key argument inputs rows =
    ∑ value ∈ (argumentTable key argument inputs rows).toFinset,
      (((argumentInputs key argument inputs rows).count value : F) -
        ((argumentTable key argument inputs rows).count value : F) *
          (counted ((argumentInputs key argument inputs rows).count value) *
            (counted ((argumentTable key argument inputs rows).count value))⁻¹)) *
        (inputs.beta + value)⁻¹ := rfl

omit [Field F] [DecidableEq F] in
theorem last_row_le (key : ProverKey F) : lastRow key ≤ key.domain.n := Nat.sub_le _ _

variable (setting : Setting key argument inputs rows)

include setting

theorem commit_absent (absent : ¬AllFound key argument inputs rows) :
    commit key argument inputs = none := by
  simp only [AllFound, not_forall] at absent
  rcases absent with ⟨value, selected, missing⟩
  have panics : computeMultiplicities key.overflowChecks key.multiplicityRandom _ _ _ _ = none :=
    compute_multiplicities_absent (last_row_le key) selected missing
  rw [commit_eq setting.rowsHold setting.enough, panics]
  rfl

section

variable (found : AllFound key argument inputs rows)

include found

theorem commit_overflow (checked : key.overflowChecks = true)
    (full : ¬CountsFit key argument inputs rows) :
    commit key argument inputs = none := by
  have panics : computeMultiplicities true key.multiplicityRandom _ _ _ _ = none :=
    compute_multiplicities_overflow (last_row_le key) found full
  rw [commit_eq setting.rowsHold setting.enough, checked, panics]
  rfl

theorem commit_counted (fits : key.overflowChecks = true → CountsFit key argument inputs rows) :
    commit key argument inputs = commitLogderivative key (computedRows key.domain.n
      (fun row => argument.selector.value (rows row))
      (argumentMultiplicities key argument inputs rows)
      (compressedAt rows inputs.theta argument.tableExpressions)
      (chunkInputs rows inputs.theta argument)) inputs.beta := by
  have counts : computeMultiplicities key.overflowChecks key.multiplicityRandom _ _ _ _ = some _ :=
    compute_multiplicities_eq (last_row_le key) found fits
  rw [commit_eq setting.rowsHold setting.enough, counts]
  rfl

theorem argument_terms :
    ∑ row ∈ Finset.range (lastRow key), term inputs.beta
      (fun row => argument.selector.value (rows row))
      (argumentMultiplicities key argument inputs rows)
      (compressedAt rows inputs.theta argument.tableExpressions)
      (chunkInputs rows inputs.theta argument) row =
        argumentImbalance key argument inputs rows :=
  terms_imbalance inputs.beta _ setting.selector found fun _ active => if_pos active

theorem commit_balanced (fits : key.overflowChecks = true → CountsFit key argument inputs rows)
    (balanced : argumentImbalance key argument inputs rows = 0) :
    ∃ committed, commit key argument inputs = some committed ∧
      ConstraintsHold key argument inputs rows committed := by
  have total := argument_terms setting found
  rw [balanced] at total
  rcases commit_logderivative_commits setting.rowsHold.threads inputs.beta _ _ _ _
    setting.wellFormed setting.enough (fun _ => total) with ⟨committed, ran, commits⟩
  have starts := commits.ofAggregator.rows 0 (Nat.zero_le _)
  have ends := commits.ofAggregator.rows (lastRow key) (Nat.le_refl _)
  rw [Finset.sum_range_zero] at starts
  rw [total] at ends
  have constraints : ConstraintsHold key argument inputs rows committed := {
    starts := starts
    ends := ends
    constraints := by
      intro row inside point challenges nonzero
      have inputs_nonzero : ∀ chunk ∈ argument.inputExpressionChunks,
          ∀ f ∈ chunkFactors (rows row) point chunk, f ≠ 0 := by
        rcases nonzero with active | nonzero
        · intro chunk mem f factor
          rcases mem_map.mp factor with ⟨input, in_chunk, rfl⟩
          rw [challenges.theta, challenges.beta]
          exact setting.inputsNonzero row active chunk mem input in_chunk
        · exact nonzero
      have table_nonzero : row < lastRow key → inputs.beta +
          compressedAt rows inputs.theta argument.tableExpressions row ≠ 0 := by
        intro active
        rw [add_comm]
        exact setting.tableNonzero row active
      exact row_constraints_zero setting.wellFormed inside challenges commits inputs_nonzero
        table_nonzero total }
  rw [commit_counted setting found fits]
  exact ⟨committed, ran, constraints⟩

theorem commit_unbalanced (fits : key.overflowChecks = true → CountsFit key argument inputs rows)
    (unbalanced : argumentImbalance key argument inputs rows ≠ 0) {committed : Committed F}
    (ran : commit key argument inputs = some committed) :
    ¬ConstraintsHold key argument inputs rows committed := by
  intro constraints
  have total := argument_terms setting found
  rw [commit_counted setting found fits] at ran
  by_cases debug : key.debugAssertions = true
  · rw [← total] at unbalanced
    rw [commit_logderivative_stops setting.rowsHold.threads inputs.beta _ _ _ _ setting.enough debug
      unbalanced] at ran
    cases ran
  · rcases commit_logderivative_commits setting.rowsHold.threads inputs.beta _ _ _ _
      setting.wellFormed setting.enough (fun asserted => absurd asserted debug) with
      ⟨other, other_ran, commits⟩
    rw [other_ran, Option.some.injEq] at ran
    have ends := commits.ofAggregator.rows (lastRow key) (Nat.le_refl _)
    rw [ran, constraints.ends, total, Option.some.injEq] at ends
    exact unbalanced ends.symm

end

end Completeness

/-! ### Prime fields -/

section PrimeField

variable {p : Nat} [Fact p.Prime] {key : ProverKey (ZMod p)} {argument : ChunkedArgument (ZMod p)}
  {inputs : Inputs (ZMod p)} {rows : Nat → Point (ZMod p)}

/-- No counter overflows, or the overflows cancel in the sum. -/
def CountsHold (key : ProverKey (ZMod p)) (argument : ChunkedArgument (ZMod p))
    (inputs : Inputs (ZMod p)) (rows : Nat → Point (ZMod p)) : Prop :=
  if key.overflowChecks then CountsFit key argument inputs rows
  else argumentImbalance key argument inputs rows = 0

theorem domain_below_prime {domain : EvaluationDomain (ZMod p)} (wellFormed : WellFormed domain)
    {count : Nat} (pos : 0 < count) (bound : count ≤ domain.n) :
    (count : ZMod p) ≠ 0 := by
  have prime := Fact.out (p := p.Prime)
  have order : 2 ^ domain.k ∣ p - 1 :=
    wellFormed.omega.dvd_of_pow_eq_one (p - 1) (ZMod.pow_card_sub_one_eq_one
      (wellFormed.omega.ne_zero (Nat.two_pow_pos domain.k).ne'))
  have below := Nat.le_of_dvd (Nat.sub_pos_of_lt prime.one_lt) order
  rw [← wellFormed.n] at below
  intro zero
  have divides := Nat.le_of_dvd pos ((ZMod.natCast_eq_zero_iff count p).mp zero)
  have large := prime.two_le
  omega

theorem fitting_balanced (setting : Setting key argument inputs rows)
    (fits : CountsFit key argument inputs rows) :
    argumentImbalance key argument inputs rows = 0 := by
  have large : ∀ count, 0 < count → count ≤ lastRow key → (count : ZMod p) ≠ 0 :=
    fun count pos bound =>
      domain_below_prime setting.wellFormed pos (bound.trans (last_row_le key))
  exact imbalance_zero large fits

/-- The prover is complete exactly when no overflow of a counter is left in the sum. -/
theorem prover_complete_iff (setting : Setting key argument inputs rows) :
    ProverComplete key argument inputs rows ↔
      (AllFound key argument inputs rows → CountsHold key argument inputs rows) := by
  constructor
  · intro complete found
    rcases complete.found found with ⟨committed, ran, constraints⟩
    by_cases checked : key.overflowChecks = true
    · rw [CountsHold, if_pos checked]
      by_contra full
      rw [commit_overflow setting found checked full] at ran
      cases ran
    · rw [CountsHold, if_neg checked]
      by_contra unbalanced
      exact commit_unbalanced setting found (fun on => absurd on checked) unbalanced ran constraints
  · intro counts
    constructor
    · intro found
      have holds := counts found
      by_cases checked : key.overflowChecks = true
      · rw [CountsHold, if_pos checked] at holds
        exact commit_balanced setting found (fun _ => holds) (fitting_balanced setting holds)
      · rw [CountsHold, if_neg checked] at holds
        exact commit_balanced setting found (fun on => absurd on checked) holds
    · exact commit_absent setting

end PrimeField

/-! ### One value, looked up in parallel -/

def parallelKey (domain : EvaluationDomain (ZMod 13)) : ProverKey (ZMod 13) where
  threads := 2
  domain := domain
  blindingFactors := 2
  overflowChecks := false
  debugAssertions := false
  multiplicityRandom := fun drawn => drawn
  aggregatorRandom := fun drawn => drawn

def parallelLookups (count : Nat) : ChunkedArgument (ZMod 13) where
  selector := .constant 1
  inputExpressionChunks := [replicate count [.advice ⟨0, 0⟩]]
  tableExpressions := [.fixed ⟨0, 0⟩]

def five : ZMod 13 := ((5 : Nat) : ZMod 13)

def fiveColumns : Inputs (ZMod 13) where
  fixedColumns := [[five, five, five, five]]
  adviceColumns := [[five, five, five, five]]
  instanceColumns := []
  challenges := []
  beta := 1
  theta := 1
  trashChallenge := 0
  y := 0
  previousValue := 0
  idx := 0
  rotScale := 1
  isize := 4
  overflowChecks := false

def fivePoint : Point (ZMod 13) where
  selector := fun _ => 0
  fixed := fun _ => five
  advice := fun _ => five
  instances := fun _ => 0
  challenge := fun _ => 0

section Parallel

variable {domain : EvaluationDomain (ZMod 13)}

theorem parallel_setting (count : Nat)
    (built : EvaluationDomain.new thirteenGroup true 2 2 = some domain) (size : domain.n = 4) :
    Setting (parallelKey domain) (parallelLookups count) fiveColumns (fun _ => fivePoint) := by
  have queries : ∀ row < domain.n,
      evaluateAt (atRow fiveColumns domain.n row) (.advice ⟨0, 0⟩) = some five ∧
        evaluateAt (atRow fiveColumns domain.n row) (.fixed ⟨0, 0⟩) = some five := by
    rw [size]
    decide +kernel
  have one_input : ∀ chunk ∈ (parallelLookups count).inputExpressionChunks, ∀ input ∈ chunk,
      input = [.advice ⟨0, 0⟩] := by
    intro chunk mem input in_chunk
    rw [mem_singleton.mp mem] at in_chunk
    exact eq_of_mem_replicate in_chunk
  have held : RowsHold (parallelKey domain) (parallelLookups count) fiveColumns
      fun _ => fivePoint := {
    threads := Nat.two_pos
    input := by
      intro row inside chunk mem input in_chunk expression in_input
      rw [one_input chunk mem input in_chunk] at in_input
      rw [mem_singleton.mp in_input]
      exact (queries row inside).1
    table := by
      intro row inside expression mem
      rw [mem_singleton.mp mem]
      exact (queries row inside).2
    selector := fun _ _ => rfl }
  exact {
    wellFormed := new_well_formed built
    enough := by
      have enough : 2 + 1 ≤ domain.n := by omega
      exact enough
    rowsHold := held
    selector := fun _ _ => Or.inr rfl
    inputsNonzero := by
      intro row _ chunk mem input in_chunk
      rw [one_input chunk mem input in_chunk]
      exact (by decide : compressExpressions fivePoint 1 [.advice ⟨0, 0⟩] + 1 ≠ 0)
    tableNonzero := by
      intro row _
      exact (by decide : compressExpressions fivePoint 1 [.fixed ⟨0, 0⟩] + 1 ≠ 0) }

theorem parallel_inputs (count : Nat) (size : domain.n = 4) :
    argumentInputs (parallelKey domain) (parallelLookups count) fiveColumns (fun _ => fivePoint) =
      replicate count five := by
  have one_row : lastRow (parallelKey domain) = 1 := by
    have unfolded : lastRow (parallelKey domain) = domain.n - 3 := rfl
    omega
  rw [argumentInputs, one_row]
  have repeated : (chunkInputs (fun _ => fivePoint) fiveColumns.theta
      (parallelLookups count)).flatten = replicate count fun _ => five := by
    rw [chunkInputs, parallelLookups, map_singleton, flatten_singleton, map_replicate]
    rfl
  have selected : ∀ entries : List (Nat → ZMod 13),
      selectedInputs 1 (fun _ => (parallelLookups count).selector.value fivePoint) entries =
        entries.map fun entry => entry 0 := by
    intro entries
    exact (map_eq_flatMap (f := fun entry => entry 0) (l := entries)).symm
  rw [repeated, selected, map_replicate]

theorem parallel_table (count : Nat) (size : domain.n = 4) :
    argumentTable (parallelKey domain) (parallelLookups count) fiveColumns (fun _ => fivePoint) =
      [five] := by
  have one_row : lastRow (parallelKey domain) = 1 := by
    have unfolded : lastRow (parallelKey domain) = domain.n - 3 := rfl
    omega
  rw [argumentTable, one_row]
  rfl

end Parallel

theorem prover_complete_iff_parallel :
    ∃ domain, EvaluationDomain.new thirteenGroup true 2 2 = some domain ∧
      (ProverComplete (parallelKey domain) (parallelLookups 3) fiveColumns (fun _ => fivePoint) ↔
        (AllFound (parallelKey domain) (parallelLookups 3) fiveColumns (fun _ => fivePoint) →
          CountsHold (parallelKey domain) (parallelLookups 3) fiveColumns fun _ => fivePoint)) := by
  rcases four_rows with ⟨domain, built, size, -⟩
  exact ⟨domain, built, prover_complete_iff (parallel_setting 3 built size)⟩

theorem parallel_incomplete {domain : EvaluationDomain (ZMod 13)} {count : Nat}
    (built : EvaluationDomain.new thirteenGroup true 2 2 = some domain) (size : domain.n = 4)
    (wraps : count % 2 ^ 32 = 0) (remains : (count : ZMod 13) ≠ 0) :
    AllFound (parallelKey domain) (parallelLookups count) fiveColumns (fun _ => fivePoint) ∧
      ¬ProverComplete (parallelKey domain) (parallelLookups count) fiveColumns
        fun _ => fivePoint := by
  have setting := parallel_setting count built size
  have inputs := parallel_inputs count size
  have table := parallel_table count size
  have found : AllFound (parallelKey domain) (parallelLookups count) fiveColumns
      (fun _ => fivePoint) := by
    intro value mem
    rw [inputs] at mem
    rw [table, mem_singleton]
    exact eq_of_mem_replicate mem
  have unbalanced : argumentImbalance (parallelKey domain) (parallelLookups count) fiveColumns
      (fun _ => fivePoint) ≠ 0 := by
    have left : argumentImbalance (parallelKey domain) (parallelLookups count) fiveColumns
        (fun _ => fivePoint) = count * (1 + five)⁻¹ := by
      have zero : (counted count : ZMod 13) = 0 := by rw [counted, wraps, Nat.cast_zero]
      rw [argument_imbalance_eq, inputs, table]
      simp [zero, fiveColumns]
    rw [left]
    exact mul_ne_zero remains (inv_ne_zero (by decide))
  constructor
  · exact found
  · intro complete
    rcases complete.found found with ⟨committed, ran, constraints⟩
    exact commit_unbalanced setting found (fun checked => absurd checked Bool.false_ne_true)
      unbalanced ran constraints

/-- After `2^32` inputs the counter is zero again. -/
theorem prover_incomplete_parallel :
    ∃ domain, EvaluationDomain.new thirteenGroup true 2 2 = some domain ∧
      Setting (parallelKey domain) (parallelLookups (2 ^ 32)) fiveColumns (fun _ => fivePoint) ∧
      AllFound (parallelKey domain) (parallelLookups (2 ^ 32)) fiveColumns (fun _ => fivePoint) ∧
      ¬ProverComplete (parallelKey domain) (parallelLookups (2 ^ 32)) fiveColumns
        fun _ => fivePoint := by
  rcases four_rows with ⟨domain, built, size, -⟩
  have remains : ((2 ^ 32 : Nat) : ZMod 13) ≠ 0 := by
    intro zero
    have divides := (ZMod.natCast_eq_zero_iff (2 ^ 32) 13).mp zero
    omega
  exact ⟨domain, built, parallel_setting (2 ^ 32) built size,
    parallel_incomplete built size (Nat.mod_self _) remains⟩

end Midfall.LogupProver
