import Midfall.ExpressionGraphs
import Midfall.PlonkIdentities

/-!
# The helper constraints of a lookup

The prover evaluates the helper constraint of a chunk with a calculation graph
that multiplies the other factors into each partial product. The verifier
divides the full product by each factor and unwraps the inverse. The two agree
where no compressed input is `-beta`.
-/

namespace Midfall.LookupGraphs

open ListLoops PlonkConstraintSystem PlonkExpressions List
open PlonkIdentities PlonkVerifier
open ExpressionGraphs ExpressionGraphs.GraphEvaluator ProofReadOrder

variable {F : Type}

/-! ### The graph of a chunk -/

structure LookupGraphEvaluator (F : Type) where
  graph : GraphEvaluator F
  sumPartialProducts : ValueSource
  product : ValueSource
  table : ValueSource
  selector : ValueSource

/-- `EvaluationData::resolve`: the value of an intermediate. -/
def resolve (data : EvaluationData F) : ValueSource → Option F
  | .intermediate index => data.intermediates[index]?
  | _ => none

section Build

variable [Field F] [DecidableEq F]

/-- Expressions compressed with `theta`. -/
def addCompressed (graph : GraphEvaluator F) (expressions : List (Expression F)) :
    Option (GraphEvaluator F × ValueSource) := do
  let parts ← graph.addExpressions expressions
  return parts.1.addCalculation (.horner (.constant 0) parts.2 .theta)

/-- An input, compressed with `theta` and shifted by `beta`. -/
def addInput (graph : GraphEvaluator F) (expressions : List (Expression F)) :
    Option (GraphEvaluator F × ValueSource) := do
  let compressed ← addCompressed graph expressions
  return compressed.1.addCalculation (.add compressed.2 .beta)

def addInputs : GraphEvaluator F → List (List (Expression F)) →
    Option (GraphEvaluator F × List ValueSource)
  | graph, [] => some (graph, [])
  | graph, expressions :: rest => do
    let input ← addInput graph expressions
    let others ← addInputs input.1 rest
    return (others.1, input.2 :: others.2)

/-- The product of all factors but number `i`. -/
def addPartialProduct (factors : List ValueSource) (graph : GraphEvaluator F) (i : Nat) :
    GraphEvaluator F × ValueSource :=
  factors.zipIdx.foldl
    (fun acc entry => if entry.2 ≠ i then acc.1.addCalculation (.mul acc.2 entry.1) else acc)
    (graph.addCalculation (.store (.constant 1)))

def addPartialProducts (factors : List ValueSource) : GraphEvaluator F → List Nat →
    GraphEvaluator F × List ValueSource
  | graph, [] => (graph, [])
  | graph, i :: rest =>
    let first := addPartialProduct factors graph i
    let others := addPartialProducts factors first.1 rest
    (others.1, first.2 :: others.2)

/-- The graph with the sum and the product so far. -/
structure Totals (F : Type) where
  graph : GraphEvaluator F
  sum : ValueSource
  product : ValueSource

/-- Adds a partial product to the sum and its factor to the product. -/
def Totals.next (totals : Totals F) (pair : ValueSource × ValueSource) : Totals F :=
  let sum := totals.graph.addCalculation (.add totals.sum pair.2)
  let product := sum.1.addCalculation (.mul totals.product pair.1)
  ⟨product.1, sum.2, product.2⟩

/-- The first entries are stored; an empty chunk has none. -/
def addTotals (graph : GraphEvaluator F) (factors partials : List ValueSource) :
    Option (Totals F) := do
  let sum := graph.addCalculation (.store (← partials[0]?))
  let product := sum.1.addCalculation (.store (← factors[0]?))
  return ((factors.zip partials).drop 1).foldl Totals.next ⟨product.1, sum.2, product.2⟩

/-- The graph of one chunk of `Evaluator::new`. -/
def lookupGraph (chunk : List (List (Expression F))) (tableExpressions : List (Expression F))
    (selectorExpression : Expression F) : Option (LookupGraphEvaluator F) := do
  let factors ← addInputs GraphEvaluator.default chunk
  let compressedTable ← addCompressed factors.1 tableExpressions
  let partials := addPartialProducts factors.2 compressedTable.1 (range factors.2.length)
  let totals ← addTotals partials.1 factors.2 partials.2
  let table := totals.graph.addCalculation (.add compressedTable.2 .beta)
  let selector ← table.1.addExpression selectorExpression
  let stored := selector.1.addCalculation (.store selector.2)
  return {
    graph := stored.1
    sumPartialProducts := totals.sum
    product := totals.product
    table := table.2
    selector := stored.2 }

end Build

/-! ### The constraint without divisions -/

section HelperValue

variable [Field F]

/-- `Σ ∏ f` over the products that leave one factor out. -/
def sumPartialProducts (factors : List F) : F :=
  ((range factors.length).map fun j => (factors.eraseIdx j).prod).sum

/-- `h ∏ f - Σ ∏ f`. -/
def helperValue (helper : F) (factors : List F) : F :=
  helper * factors.prod - sumPartialProducts factors

def chunkFactors (values : Point F) (point : Challenges F) (chunk : List (List (Expression F))) :
    List F :=
  chunk.map fun input => compressExpressions values point.theta input + point.beta

variable [DecidableEq F]

omit [DecidableEq F] in
theorem divided_products {factors : List F} (nonzero : ∀ f ∈ factors, f ≠ 0) :
    factors.map (fun f => factors.prod * f⁻¹) =
      (range factors.length).map fun j => (factors.eraseIdx j).prod := by
  apply ext_getElem (by simp)
  intro position inside _
  rw [length_map] at inside
  have split : factors[position] * (factors.eraseIdx position).prod = factors.prod :=
    List.CommMonoid.mul_prod_eraseIdx inside
  have invertible : factors[position] ≠ 0 := nonzero _ (getElem_mem inside)
  have divided : factors.prod * factors[position]⁻¹ = (factors.eraseIdx position).prod := by
    rw [mul_inv_eq_iff_eq_mul₀ invertible, ← split, mul_comm]
  simpa only [getElem_map, getElem_range] using divided

theorem helper_constraint_eq (helper : F) (factors : List F) :
    helperConstraint helper factors =
      if ∀ f ∈ factors, f ≠ 0 then some (helperValue helper factors) else none := by
  have product : factors.foldl (fun acc f => acc * f) 1 = factors.prod := by
    rw [prod_eq_foldl]
  have steps : ∀ f, (if f = 0 then none else some (factors.prod * f⁻¹)) =
      if f ≠ 0 then some (factors.prod * f⁻¹) else none := fun f => by simp only [ne_eq, ite_not]
  have divided := map_m_guarded factors steps
  rw [helperConstraint, product, divided]
  by_cases nonzero : ∀ f ∈ factors, f ≠ 0
  · rw [if_pos nonzero, if_pos nonzero, divided_products nonzero]
    simp [helperValue, sumPartialProducts, sum_eq_foldl]
  · rw [if_neg nonzero, if_neg nonzero]
    rfl

end HelperValue

/-! ### Values of the graph -/

section Values

variable [Field F] [DecidableEq F] {inputs : Inputs F} {graph : GraphEvaluator F}
  {memory : Memory F}

/-- `acc * challenge + value`. -/
def compressValues (challenge : F) (values : List F) : F :=
  values.foldl (fun acc value => acc * challenge + value) 0

omit [Field F] [DecidableEq F] in
theorem read_beta : read inputs graph memory .beta = some inputs.beta := rfl

omit [Field F] [DecidableEq F] in
theorem read_theta : read inputs graph memory .theta = some inputs.theta := rfl

variable {values factors : List F} {sources : List ValueSource}

variable {expressions : List (Expression F)}

theorem add_compressed_adds (holds : Holds inputs graph memory)
    (valued : expressions.mapM (evaluateAt inputs) = some values) :
    ∃ result, addCompressed graph expressions = some result ∧
      Adds inputs graph memory result (compressValues inputs.theta values) := by
  rcases add_expressions_adds holds valued with ⟨parts, next, added, nextHolds, grows, read_parts⟩
  have computed : (Calculation.horner (.constant 0) parts.2 .theta).evaluate
      (read inputs parts.1 next) = some (compressValues inputs.theta values) := by
    simp [Calculation.evaluate, read_zero nextHolds, read_parts, compressValues, read_theta]
  rcases add_calculation_adds nextHolds computed with ⟨last, lastHolds, lastGrows, known⟩
  exact ⟨_, by simp [addCompressed, added], last, lastHolds, grows.trans lastGrows, known⟩

def factorValue (inputs : Inputs F) (values : List F) : F :=
  compressValues inputs.theta values + inputs.beta

theorem add_input_adds (holds : Holds inputs graph memory)
    (valued : expressions.mapM (evaluateAt inputs) = some values) :
    ∃ result, addInput graph expressions = some result ∧
      Adds inputs graph memory result (factorValue inputs values) := by
  rcases add_compressed_adds holds valued with ⟨compressed, added, next, nextHolds, grows, known⟩
  have computed : (Calculation.add compressed.2 .beta).evaluate (read inputs compressed.1 next) =
      some (factorValue inputs values) := by
    simp [Calculation.evaluate, known, read_beta, factorValue]
  rcases add_calculation_adds nextHolds computed with ⟨last, lastHolds, lastGrows, shifted⟩
  exact ⟨_, by simp [addInput, added], last, lastHolds, grows.trans lastGrows, shifted⟩

omit [Field F] [DecidableEq F] in
theorem grows_all {next : GraphEvaluator F} {later : Memory F}
    (grows : Grows inputs graph memory next later)
    (known : sources.mapM (read inputs graph memory) = some values) :
    sources.mapM (read inputs next later) = some values :=
  map_m_mono known fun source _ => grows source

variable {chunk : List (List (Expression F))}

theorem add_inputs_adds (holds : Holds inputs graph memory) {values : List (List F)}
    (valued : chunk.mapM (fun input => input.mapM (evaluateAt inputs)) = some values) :
    ∃ result later, addInputs graph chunk = some result ∧ Holds inputs result.1 later ∧
      Grows inputs graph memory result.1 later ∧
      result.2.mapM (read inputs result.1 later) = some (values.map (factorValue inputs)) := by
  induction chunk generalizing graph memory values with
  | nil =>
    cases valued
    exact ⟨(graph, []), memory, rfl, holds, Grows.refl, rfl⟩
  | cons input rest ih =>
    rw [mapM_cons] at valued
    simp only [bind_some_iff, pure_some_iff] at valued
    rcases valued with ⟨first, firstValued, others, restValued, rfl⟩
    rcases add_input_adds holds firstValued with ⟨result, added, next, nextHolds, grows, known⟩
    rcases ih nextHolds restValued with
      ⟨resultRest, later, addedRest, laterHolds, laterGrows, sources⟩
    have read_all : (result.2 :: resultRest.2).mapM (read inputs resultRest.1 later) =
        some ((first :: others).map (factorValue inputs)) := by
      simp [laterGrows result.2 _ known, sources]
    exact ⟨(resultRest.1, result.2 :: resultRest.2), later,
      by simp [addInputs, added, addedRest], laterHolds, grows.trans laterGrows, read_all⟩

/-! ### Partial products -/

omit [Field F] [DecidableEq F] in
theorem numbered_without (factors : List F) (start i : Nat) :
    ((factors.zipIdx start).filter fun entry => entry.2 ≠ start + i).map Prod.fst =
      factors.eraseIdx i := by
  induction factors generalizing start i with
  | nil => rfl
  | cons factor rest ih =>
    cases i with
    | zero =>
      have later : (rest.zipIdx (start + 1)).filter (fun entry => entry.2 ≠ start + 0) =
          rest.zipIdx (start + 1) := by
        apply filter_eq_self.mpr
        intro entry mem
        have behind := le_snd_of_mem_zipIdx mem
        simp only [ne_eq, decide_eq_true_eq]
        omega
      rw [zipIdx_cons, filter_cons_of_neg (by simp), later, zipIdx_map_fst, eraseIdx_cons_zero]
    | succ i =>
      have number : start + (i + 1) = start + 1 + i := by omega
      rw [zipIdx_cons, filter_cons_of_pos (by simp), map_cons,
        eraseIdx_cons_succ, number, ih (start + 1) i]

omit [DecidableEq F] in
theorem multiply_others_adds {i start : Nat} {acc : ValueSource} {value : F}
    (holds : Holds inputs graph memory) (started : read inputs graph memory acc = some value)
    (known : sources.mapM (read inputs graph memory) = some factors) :
    Adds inputs graph memory ((sources.zipIdx start).foldl
      (fun acc entry => if entry.2 ≠ i then acc.1.addCalculation (.mul acc.2 entry.1) else acc)
      (graph, acc))
      (value * (((factors.zipIdx start).filter fun entry => entry.2 ≠ i).map Prod.fst).prod) := by
  induction sources generalizing graph memory factors start acc value with
  | nil =>
    cases known
    simpa using adds_self holds started
  | cons source rest ih =>
    rw [mapM_cons] at known
    simp only [bind_some_iff, pure_some_iff] at known
    rcases known with ⟨factor, first, others, restKnown, rfl⟩
    rw [zipIdx_cons, zipIdx_cons, foldl_cons]
    by_cases skipped : start = i
    · rw [if_neg (by simpa using skipped), filter_cons_of_neg (by simpa using skipped)]
      exact ih holds started restKnown
    · have multiplied : (Calculation.mul acc source).evaluate (read inputs graph memory) =
          some (value * factor) := by
        simp [Calculation.evaluate, started, first]
      rw [if_pos (by simpa using skipped), filter_cons_of_pos (by simpa using skipped),
        map_cons, prod_cons, ← mul_assoc]
      exact adds_after (add_calculation_adds holds multiplied) fun next nextHolds grows product =>
        ih nextHolds product (grows_all grows restKnown)

section

variable (holds : Holds inputs graph memory)
  (known : sources.mapM (read inputs graph memory) = some factors)

include holds known

omit [DecidableEq F] in
theorem add_partial_product_adds (i : Nat) :
    Adds inputs graph memory (addPartialProduct sources graph i) (factors.eraseIdx i).prod := by
  have one : (Calculation.store (.constant 1)).evaluate (read inputs graph memory) = some 1 :=
    read_one holds
  have without := numbered_without factors 0 i
  rw [Nat.zero_add] at without
  apply adds_after (add_calculation_adds holds one)
  intro next nextHolds grows started
  have product : Adds inputs _ next (addPartialProduct sources graph i) _ :=
    multiply_others_adds nextHolds started (grows_all grows known)
  rwa [without, one_mul] at product

omit [DecidableEq F] in
theorem add_partial_products_adds (positions : List Nat) :
    ∃ later, Holds inputs (addPartialProducts sources graph positions).1 later ∧
      Grows inputs graph memory (addPartialProducts sources graph positions).1 later ∧
      (addPartialProducts sources graph positions).2.mapM
        (read inputs (addPartialProducts sources graph positions).1 later) =
          some (positions.map fun j => (factors.eraseIdx j).prod) := by
  induction positions generalizing graph memory with
  | nil => exact ⟨memory, holds, Grows.refl, rfl⟩
  | cons i rest ih =>
    rcases add_partial_product_adds holds known i with ⟨next, nextHolds, grows, first⟩
    rcases ih nextHolds (grows_all grows known) with
      ⟨later, laterHolds, laterGrows, others⟩
    exact ⟨later, laterHolds, grows.trans laterGrows, by
      simp [addPartialProducts, laterGrows _ _ first, others]⟩

end

/-! ### Sum and product -/

omit [Field F] [DecidableEq F] in
theorem add_calculation_intermediate (graph : GraphEvaluator F) (calculation : Calculation) :
    ∃ index, (graph.addCalculation calculation).2 = .intermediate index := by
  unfold addCalculation
  split
  · exact ⟨_, rfl⟩
  · exact ⟨_, rfl⟩

/-- The running sum and product have these values and can be resolved. -/
structure Totals.Are (inputs : Inputs F) (totals : Totals F) (memory : Memory F)
    (sum product : F) : Prop where
  holds : Holds inputs totals.graph memory
  sum_read : read inputs totals.graph memory totals.sum = some sum
  product_read : read inputs totals.graph memory totals.product = some product
  sum_intermediate : ∃ index, totals.sum = .intermediate index
  product_intermediate : ∃ index, totals.product = .intermediate index

omit [DecidableEq F] in
theorem totals_next {totals : Totals F} {pair : ValueSource × ValueSource} {sum product x y : F}
    (are : totals.Are inputs memory sum product)
    (factor : read inputs totals.graph memory pair.1 = some x)
    (partialProduct : read inputs totals.graph memory pair.2 = some y) :
    ∃ later, (totals.next pair).Are inputs later (sum + y) (product * x) ∧
      Grows inputs totals.graph memory (totals.next pair).graph later := by
  have added : (Calculation.add totals.sum pair.2).evaluate (read inputs totals.graph memory) =
      some (sum + y) := by
    simp [Calculation.evaluate, are.sum_read, partialProduct]
  rcases add_calculation_adds are.holds added with ⟨middle, middleHolds, middleGrows, sum_read⟩
  have multiplied : (Calculation.mul totals.product pair.1).evaluate
      (read inputs (totals.graph.addCalculation (.add totals.sum pair.2)).1 middle) =
        some (product * x) := by
    simp [Calculation.evaluate, middleGrows _ _ are.product_read, middleGrows _ _ factor]
  rcases add_calculation_adds middleHolds multiplied with ⟨later, holds, grows, product_read⟩
  have result : (totals.next pair).Are inputs later (sum + y) (product * x) := {
    holds := holds
    sum_read := grows _ _ sum_read
    product_read := product_read
    sum_intermediate := add_calculation_intermediate _ _
    product_intermediate := add_calculation_intermediate _ _ }
  exact ⟨later, result, middleGrows.trans grows⟩

omit [DecidableEq F] in
theorem totals_fold {factors partials : List ValueSource} {xs ys : List F} {totals : Totals F}
    {sum product : F} (are : totals.Are inputs memory sum product)
    (factorsKnown : factors.mapM (read inputs totals.graph memory) = some xs)
    (partialsKnown : partials.mapM (read inputs totals.graph memory) = some ys)
    (paired : factors.length = partials.length) :
    ∃ later, ((factors.zip partials).foldl Totals.next totals).Are inputs later (sum + ys.sum)
        (product * xs.prod) ∧
      Grows inputs totals.graph memory ((factors.zip partials).foldl Totals.next totals).graph
        later := by
  induction factors generalizing partials xs ys totals memory sum product with
  | nil =>
    rw [length_nil, eq_comm, length_eq_zero_iff] at paired
    rw [paired] at partialsKnown ⊢
    cases factorsKnown
    cases partialsKnown
    exact ⟨memory, by simpa using are, Grows.refl⟩
  | cons factor rest ih =>
    rcases exists_cons_of_length_eq_add_one (by simpa using paired.symm) with
      ⟨first, others, rfl⟩
    rw [mapM_cons] at factorsKnown partialsKnown
    simp only [bind_some_iff, pure_some_iff] at factorsKnown partialsKnown
    rcases factorsKnown with ⟨x, factorRead, xs, restRead, rfl⟩
    rcases partialsKnown with ⟨y, partialRead, ys, othersRead, rfl⟩
    have firstPair : ∃ later, (totals.next (factor, first)).Are inputs later (sum + y)
        (product * x) ∧ Grows inputs totals.graph memory (totals.next (factor, first)).graph later :=
      totals_next are factorRead partialRead
    rcases firstPair with ⟨next, nextAre, grows⟩
    rcases ih nextAre (grows_all grows restRead) (grows_all grows othersRead)
      (by simpa using paired) with ⟨later, laterAre, laterGrows⟩
    rw [sum_cons, prod_cons, ← add_assoc, ← mul_assoc]
    exact ⟨later, laterAre, grows.trans laterGrows⟩

omit [DecidableEq F] in
theorem add_totals_are {factors partials : List ValueSource} {xs ys : List F}
    (holds : Holds inputs graph memory)
    (factorsKnown : factors.mapM (read inputs graph memory) = some xs)
    (partialsKnown : partials.mapM (read inputs graph memory) = some ys)
    (paired : factors.length = partials.length) (nonempty : factors ≠ []) :
    ∃ totals later, addTotals graph factors partials = some totals ∧
      totals.Are inputs later ys.sum xs.prod ∧ Grows inputs graph memory totals.graph later := by
  rcases exists_cons_of_ne_nil nonempty with ⟨factor, rest, rfl⟩
  rcases exists_cons_of_length_eq_add_one (by simpa using paired.symm) with
    ⟨first, others, rfl⟩
  rw [mapM_cons] at factorsKnown partialsKnown
  simp only [bind_some_iff, pure_some_iff] at factorsKnown partialsKnown
  rcases factorsKnown with ⟨x, factorRead, xs, restRead, rfl⟩
  rcases partialsKnown with ⟨y, partialRead, ys, othersRead, rfl⟩
  have sum_stored : (Calculation.store first).evaluate (read inputs graph memory) = some y :=
    partialRead
  rcases add_calculation_adds holds sum_stored with ⟨middle, middleHolds, middleGrows, sum_read⟩
  have product_stored : (Calculation.store factor).evaluate
      (read inputs (graph.addCalculation (.store first)).1 middle) = some x :=
    middleGrows _ _ factorRead
  rcases add_calculation_adds middleHolds product_stored with
    ⟨started, startedHolds, startedGrows, product_read⟩
  have are : Totals.Are inputs ⟨((graph.addCalculation (.store first)).1.addCalculation
      (.store factor)).1, (graph.addCalculation (.store first)).2,
      ((graph.addCalculation (.store first)).1.addCalculation (.store factor)).2⟩ started y x := {
    holds := startedHolds
    sum_read := startedGrows _ _ sum_read
    product_read := product_read
    sum_intermediate := add_calculation_intermediate _ _
    product_intermediate := add_calculation_intermediate _ _ }
  have grows := middleGrows.trans startedGrows
  rcases totals_fold are (grows_all grows restRead) (grows_all grows othersRead)
    (by simpa using paired) with ⟨later, laterAre, laterGrows⟩
  rw [sum_cons, prod_cons]
  exact ⟨_, later, by simp [addTotals], laterAre, grows.trans laterGrows⟩

/-! ### The whole graph -/

structure Resolves (data : EvaluationData F) (graph : LookupGraphEvaluator F) (factors : List F)
    (table selector : F) : Prop where
  sumPartialProducts : resolve data graph.sumPartialProducts = some (sumPartialProducts factors)
  product : resolve data graph.product = some factors.prod
  table : resolve data graph.table = some table
  selector : resolve data graph.selector = some selector

omit [Field F] [DecidableEq F] in
theorem resolve_read {source : ValueSource} {value : F} {data : EvaluationData F}
    (isIntermediate : ∃ index, source = .intermediate index)
    (known : read inputs graph ⟨data.rotations, data.intermediates⟩ source = some value) :
    resolve data source = some value := by
  rcases isIntermediate with ⟨index, rfl⟩
  exact known

theorem lookup_graph_values {table : List (Expression F)} {selector : Expression F}
    {values : List (List F)} {tableValues : List F} {selectorValue : F} (nonempty : chunk ≠ [])
    (chunkValued : chunk.mapM (fun input => input.mapM (evaluateAt inputs)) = some values)
    (tableValued : table.mapM (evaluateAt inputs) = some tableValues)
    (selectorValued : evaluateAt inputs selector = some selectorValue) :
    ∃ graph, lookupGraph chunk table selector = some graph ∧
      ∃ done result, graph.graph.evaluate graph.graph.evaluationInstance inputs =
          some (done, result) ∧
        Resolves done graph (values.map (factorValue inputs)) (factorValue inputs tableValues)
          selectorValue := by
  rcases add_inputs_adds default_holds chunkValued with
    ⟨factors, atFactors, addedFactors, factorsHolds, -, factorsRead⟩
  rcases add_compressed_adds factorsHolds tableValued with
    ⟨compressed, addedTable, atTable, tableHolds, tableGrows, tableRead⟩
  have factors_at_table := grows_all tableGrows factorsRead
  have count : factors.2.length = (values.map (factorValue inputs)).length := map_m_length factorsRead
  rcases add_partial_products_adds tableHolds factors_at_table (range factors.2.length) with
    ⟨atPartials, partialsHolds, partialsGrows, partialsRead⟩
  have paired : factors.2.length =
      (addPartialProducts factors.2 compressed.1 (range factors.2.length)).2.length := by
    rw [map_m_length partialsRead, length_map, length_range]
  have factors_nonempty : factors.2 ≠ [] := by
    apply ne_nil_of_length_pos
    rw [count, length_map, ← map_m_length chunkValued]
    exact length_pos_of_ne_nil nonempty
  rcases add_totals_are partialsHolds (grows_all partialsGrows factors_at_table) partialsRead paired
    factors_nonempty with ⟨totals, atTotals, addedTotals, are, totalsGrows⟩
  have shifted : (Calculation.add compressed.2 .beta).evaluate (read inputs totals.graph atTotals) =
      some (factorValue inputs tableValues) := by
    simp [Calculation.evaluate, totalsGrows _ _ (partialsGrows _ _ tableRead), read_beta,
      factorValue]
  rcases add_calculation_adds are.holds shifted with ⟨atBeta, betaHolds, betaGrows, betaRead⟩
  rcases add_expression_adds betaHolds selectorValued with
    ⟨query, addedQuery, atQuery, queryHolds, queryGrows, queryRead⟩
  have selectorStored : (Calculation.store query.2).evaluate (read inputs query.1 atQuery) =
      some selectorValue := queryRead
  rcases add_calculation_adds queryHolds selectorStored with ⟨last, holds, grows, selectorRead⟩
  have built : lookupGraph chunk table selector = some {
      graph := (query.1.addCalculation (.store query.2)).1
      sumPartialProducts := totals.sum
      product := totals.product
      table := (totals.graph.addCalculation (.add compressed.2 .beta)).2
      selector := (query.1.addCalculation (.store query.2)).2 } := by
    simp [lookupGraph, addedFactors, addedTable, addedTotals, addedQuery]
  have sizes := evaluation_instance_sizes (query.1.addCalculation (.store query.2)).1
  have evaluated := evaluate_holds holds sizes.1 sizes.2
  have toEnd := (betaGrows.trans queryGrows).trans grows
  have sums : (sumPartialProducts (values.map (factorValue inputs))) =
      ((range factors.2.length).map fun j =>
        ((values.map (factorValue inputs)).eraseIdx j).prod).sum := by
    rw [sumPartialProducts, count]
  exact ⟨_, built, ⟨last.values, last.rows⟩, _, evaluated, {
    sumPartialProducts := by
      rw [sums]
      exact resolve_read are.sum_intermediate (toEnd _ _ are.sum_read)
    product := resolve_read are.product_intermediate (toEnd _ _ are.product_read)
    table := resolve_read (add_calculation_intermediate _ _)
      ((queryGrows.trans grows) _ _ betaRead)
    selector := resolve_read (add_calculation_intermediate _ _) selectorRead }⟩

end Values

/-! ### Verifier and prover -/

section Agreement

variable [Field F] [DecidableEq F] (values : Point F) (point : Challenges F)

/-- The prover's row holds the evaluations of the verifier. -/
structure SameRow (inputs : Inputs F) (expressions : List (Expression F)) : Prop where
  theta : inputs.theta = point.theta
  beta : inputs.beta = point.beta
  evaluated : ∀ expression ∈ expressions,
    evaluateAt inputs expression = some (expression.value values)

/-- The prover's graph of the chunk has the helper constraint as its value. -/
def ProverAgrees (lookup : LookupArgument F) (chunk : List (List (Expression F))) (helper value : F) : Prop :=
  ∀ inputs, SameRow values point inputs
      (chunk.flatten ++ lookup.tableExpressions ++ [lookup.selector]) →
    ∃ graph, lookupGraph chunk lookup.tableExpressions lookup.selector = some graph ∧
      ∃ done result, graph.graph.evaluate graph.graph.evaluationInstance inputs =
          some (done, result) ∧
        ∃ product sum, resolve done graph.product = some product ∧
          resolve done graph.sumPartialProducts = some sum ∧ helper * product - sum = value

/-- The verifier computes the helper constraints, with the values of the prover. -/
def HelpersVerify (csDegree : Nat) (values : Point F) (point : Challenges F)
    (lookup : LookupArgument F) (evaluated : LookupEvaluated F) : Prop :=
  ∃ inputChunks boundary accumulator, lookup.chunkByDegree csDegree = some inputChunks ∧
    lookupIdentities csDegree values point (evaluated, lookup) = some (boundary ::
      (inputChunks.zip evaluated.helperEvals).map (fun pair =>
        helperValue pair.2 (chunkFactors values point pair.1)) ++ [accumulator]) ∧
    ∀ pair ∈ inputChunks.zip evaluated.helperEvals,
      ProverAgrees values point lookup pair.1 pair.2
        (helperValue pair.2 (chunkFactors values point pair.1))

variable (inputChunks : List (List (List (Expression F)))) (evaluated : LookupEvaluated F)

/-- No compressed input of a chunk with a helper is `-beta`. -/
def FactorsNonzero : Prop :=
  ∀ pair ∈ inputChunks.zip evaluated.helperEvals,
    ∀ f ∈ chunkFactors values point pair.1, f ≠ 0

instance : Decidable (FactorsNonzero values point inputChunks evaluated) :=
  inferInstanceAs (Decidable (∀ pair ∈ inputChunks.zip evaluated.helperEvals,
    ∀ f ∈ chunkFactors values point pair.1, f ≠ 0))

theorem helper_constraints_eq :
    (inputChunks.zip evaluated.helperEvals).mapM (fun pair =>
        helperConstraint pair.2 (chunkFactors values point pair.1)) =
      if FactorsNonzero values point inputChunks evaluated then
        some ((inputChunks.zip evaluated.helperEvals).map fun pair =>
          helperValue pair.2 (chunkFactors values point pair.1))
      else none := by
  have steps : ∀ pair : List (List (Expression F)) × F,
      helperConstraint pair.2 (chunkFactors values point pair.1) =
        if ∀ f ∈ chunkFactors values point pair.1, f ≠ 0 then
          some (helperValue pair.2 (chunkFactors values point pair.1)) else none :=
    fun pair => helper_constraint_eq pair.2 (chunkFactors values point pair.1)
  exact map_m_guarded (inputChunks.zip evaluated.helperEvals) steps

variable {inputChunks} {lookup : LookupArgument F} {csDegree : Nat}

theorem lookup_identities_eq
    (chunked : lookup.chunkByDegree csDegree = some inputChunks) :
    ∃ boundary accumulator, lookupIdentities csDegree values point (evaluated, lookup) =
      if FactorsNonzero values point inputChunks evaluated then
        some (boundary :: (inputChunks.zip evaluated.helperEvals).map (fun pair =>
          helperValue pair.2 (chunkFactors values point pair.1)) ++ [accumulator])
      else none := by
  have constraints := helper_constraints_eq values point inputChunks evaluated
  unfold chunkFactors at constraints
  simp only [lookupIdentities, chunked, Option.bind_eq_bind, Option.bind_some, lookupExpressions,
    constraints]
  by_cases nonzero : FactorsNonzero values point inputChunks evaluated
  · simp only [if_pos nonzero, Option.bind_some, Option.pure_def]
    exact ⟨_, _, rfl⟩
  · simp only [if_neg nonzero, Option.bind_none]
    exact ⟨0, 0, trivial⟩

variable {values point evaluated}

theorem chunks_nonempty {Entry : Type} {size : Nat} {entries chunk : List Entry}
    (pos : size ≠ 0) (mem : chunk ∈ chunks size entries) : chunk ≠ [] := by
  induction entries using chunks.induct size with
  | case1 entries stop =>
    rw [chunks, if_pos stop] at mem
    exact absurd mem not_mem_nil
  | case2 entries going ih =>
    rw [chunks, if_neg going] at mem
    rcases mem_cons.mp mem with first | later
    · have entries_nonempty := (not_or.mp going).1
      simp [first, entries_nonempty, pos]
    · exact ih later

omit [DecidableEq F] in
theorem same_row_values {inputs : Inputs F} {expressions : List (Expression F)}
    (same : SameRow values point inputs expressions) (among : List (Expression F)) (subset : among ⊆ expressions) :
    among.mapM (evaluateAt inputs) = some (among.map fun expression => expression.value values) :=
  map_m_of_forall among fun expression mem => same.evaluated expression (subset mem)

omit [DecidableEq F] in
theorem compress_values_eq (challenge : F) (expressions : List (Expression F)) :
    compressValues challenge (expressions.map fun expression => expression.value values) =
      compressExpressions values challenge expressions := by
  rw [compressValues, compressExpressions, foldl_map]

theorem prover_agrees {chunk : List (List (Expression F))} (nonempty : chunk ≠ []) (helper : F) :
    ProverAgrees values point lookup chunk helper
      (helperValue helper (chunkFactors values point chunk)) := by
  intro inputs same
  have chunk_valued : chunk.mapM (fun input => input.mapM (evaluateAt inputs)) =
      some (chunk.map fun input => input.map fun expression => expression.value values) := by
    apply map_m_of_forall chunk
    intro input mem
    apply same_row_values same
    intro expression inside
    simp only [mem_append, mem_flatten]
    exact Or.inl (Or.inl ⟨input, mem, inside⟩)
  have table_valued := same_row_values same lookup.tableExpressions (by simp)
  have selector_valued := same.evaluated lookup.selector (by simp)
  rcases lookup_graph_values nonempty chunk_valued table_valued selector_valued with
    ⟨graph, built, done, result, evaluated, resolves⟩
  have factors : (chunk.map fun input => input.map fun expression => expression.value values).map
      (factorValue inputs) = chunkFactors values point chunk := by
    rw [map_map]
    apply map_congr_left
    intro input _
    rw [Function.comp_apply, factorValue, same.theta, same.beta, compress_values_eq]
  rw [factors] at resolves
  exact ⟨graph, built, done, result, evaluated, _, _, resolves.product, resolves.sumPartialProducts,
    rfl⟩

/-- The verifier's helper constraints are those of the prover exactly when it can divide. -/
theorem helpers_verify_iff (chunked : lookup.chunkByDegree csDegree = some inputChunks) :
    HelpersVerify csDegree values point lookup evaluated ↔
      FactorsNonzero values point inputChunks evaluated := by
  rcases lookup_identities_eq values point evaluated chunked with
    ⟨boundary, accumulator, identities⟩
  constructor
  · intro verify
    rcases verify with ⟨_, _, _, _, computed, -⟩
    by_contra zero
    rw [identities, if_neg zero] at computed
    cases computed
  · intro nonzero
    rw [if_pos nonzero] at identities
    have size : ∃ size, size ≠ 0 ∧ inputChunks = chunks size lookup.inputExpressions := by
      simp only [LookupArgument.chunkByDegree, ProofReadOrder.chunkByDegree, bind_some_iff] at chunked
      rcases chunked with ⟨nb, -, cut⟩
      split_ifs at cut with empty
      exact ⟨nb, empty, (Option.some.inj cut).symm⟩
    rcases size with ⟨size, positive, cut⟩
    have agree : ∀ pair ∈ inputChunks.zip evaluated.helperEvals,
        ProverAgrees values point lookup pair.1 pair.2
          (helperValue pair.2 (chunkFactors values point pair.1)) := by
      intro pair mem
      have inChunks := (of_mem_zip mem).1
      rw [cut] at inChunks
      exact prover_agrees (chunks_nonempty positive inChunks) pair.2
    exact ⟨inputChunks, boundary, accumulator, chunked, identities, agree⟩

/-- An advice and an instance column, both looked up in a fixed one. -/
def pairLookup : LookupArgument (ZMod 3) where
  selector := .constant 1
  inputExpressions := [[.advice ⟨0, 0⟩], [.instance ⟨0, 0⟩]]
  tableExpressions := [.fixed ⟨0, 0⟩]

def constantPoint (eval : ZMod 3) : Point (ZMod 3) where
  selector := fun _ => 0
  fixed := fun _ => eval
  advice := fun _ => eval
  instances := fun _ => eval
  challenge := fun _ => 0

/-- `beta` is one. -/
def betaOne : Challenges (ZMod 3) where
  x := 0
  beta := 1
  gamma := 0
  theta := 0
  trash := 0
  challenges := fun _ => 0
  l0 := 0
  lLast := 0
  lBlind := 0
  delta := 1

def oneHelper : LookupEvaluated (ZMod 3) where
  multiplicitiesEval := 0
  helperEvals := [0]
  accumulatorEval := 0
  accumulatorNextEval := 0

theorem pair_lookup_chunks :
    pairLookup.chunkByDegree 3 = some [pairLookup.inputExpressions] := by
  have power : nextPowerOfTwo 2 = 2 := by decide +kernel
  have two : pairLookup.degrees.nbParallelLookupsPerChunk 3 = some 2 := by
    rw [BatchedArgument.nbParallelLookupsPerChunk, power]
    decide
  have cut : chunks 2 pairLookup.inputExpressions = [pairLookup.inputExpressions] := by
    rw [chunks, if_neg (by simp [pairLookup]), chunks, if_pos (by simp [pairLookup])]
    rfl
  rw [LookupArgument.chunkByDegree, ProofReadOrder.chunkByDegree, two]
  exact congrArg some cut

theorem helpers_verify_iff_pair :
    HelpersVerify 3 (constantPoint 1) betaOne pairLookup oneHelper ↔
      FactorsNonzero (constantPoint 1) betaOne [pairLookup.inputExpressions] oneHelper :=
  helpers_verify_iff pair_lookup_chunks

/-- An advice evaluation of `-beta` makes the verifier panic. -/
theorem helpers_panic_at_minus_beta :
    ¬HelpersVerify 3 (constantPoint (-1)) betaOne pairLookup oneHelper := by
  intro verify
  rcases verify with ⟨_, _, _, _, computed, -⟩
  rcases lookup_identities_eq (constantPoint (-1)) betaOne oneHelper pair_lookup_chunks with
    ⟨boundary, accumulator, identities⟩
  have zero : ¬FactorsNonzero (constantPoint (-1)) betaOne [pairLookup.inputExpressions]
      oneHelper := by decide
  rw [identities, if_neg zero] at computed
  cases computed

end Agreement

end Midfall.LookupGraphs
