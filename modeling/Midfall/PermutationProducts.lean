import Midfall.DomainRotations
import Midfall.PermutationAssembly
import Midfall.PlonkIdentities
import Midfall.RunningFolds

/-!
# The products of the permutation argument

For each chunk of columns the prover commits to a running product of fractions
over the rows, continued from the last usable value of the chunk before, with
random values in the blinding rows.
-/

namespace Midfall.PermutationProducts

open Equiv DomainConversions DomainRotations ListLoops
open Option (getD_some map_eq_some_iff map_some mem_toList)
open List hiding set
open PermutationAssembly PlonkConstraintSystem PlonkExpressions
open PlonkIdentities PlonkVerifier ProofReadOrder RadixTwo
open RunningFolds

variable {F : Type}

/-! ### The prover -/

structure ColumnTables (F : Type) where
  advice : List (List F)
  fixed : List (List F)
  instances : List (List F)

def ColumnTables.column (tables : ColumnTables F) : AnyColumn → Option (List F)
  | .advice index => tables.advice[index]?
  | .fixed index => tables.fixed[index]?
  | .instance index => tables.instances[index]?

/-- What one set of columns leaves for the next. -/
structure CommitState (F : Type) where
  deltaomega : F
  lastZ : F
  /-- The random values drawn so far. -/
  drawn : Nat

/-- The keys and challenges of `Argument::commit`; `random` is the stream of the generator. -/
structure CommitInputs (F : Type) where
  threads : Nat
  domain : EvaluationDomain F
  delta : F
  csDegree : Nat
  blindingFactors : Nat
  beta : F
  gamma : F
  random : Nat → F

section Commit

variable [Field F]

/-- `modified *= beta * permuted + gamma + value`, as long as all three slices go. -/
def timesDenominators (beta gamma : F) : List F → List F → List F → List F
  | m :: modified, value :: values, permuted :: rest =>
    m * (beta * permuted + gamma + value) :: timesDenominators beta gamma modified values rest
  | modified, _, _ => modified

/-- `modified *= deltaomega * beta + gamma + value`. -/
def timesNumerators (omega beta gamma : F) : F → List F → List F → List F
  | deltaomega, m :: modified, value :: values =>
    m * (deltaomega * beta + gamma + value) ::
      timesNumerators omega beta gamma (deltaomega * omega) modified values
  | _, modified, _ => modified

def invertedDenominators (inputs : CommitInputs F) (pairs : List (List F × List F)) : List F :=
  (pairs.foldl (fun modified pair => parallelize inputs.threads (fun o start =>
      timesDenominators inputs.beta inputs.gamma o (pair.1.drop start) (pair.2.drop start)) modified)
    (replicate inputs.domain.n 1)).map fun value => value⁻¹

/-- The fractions of a set, and the next power of `delta`. -/
def setFractions (inputs : CommitInputs F) (deltaomega : F) (values : List (List F))
    (modified : List F) : List F × F :=
  values.foldl (fun state column =>
    (parallelize inputs.threads (fun o start => timesNumerators inputs.domain.omega inputs.beta
      inputs.gamma (state.2 * inputs.domain.omega ^ start) o (column.drop start)) state.1,
      state.2 * inputs.delta)) (modified, deltaomega)

/-- The last rows of `z` are random. -/
def blindRows (inputs : CommitInputs F) (drawn : Nat) (z : List F) : List F :=
  z.take (inputs.domain.n - inputs.blindingFactors) ++
    (range inputs.blindingFactors).map fun i => inputs.random (drawn + i)

def commitSet (inputs : CommitInputs F) (tables : ColumnTables F) (columns : List AnyColumn)
    (permutations : List (List F)) (state : CommitState F) : Option (List F × CommitState F) := do
  let values ← columns.mapM tables.column
  let modified := invertedDenominators inputs (values.zip permutations)
  let fractions := setFractions inputs state.deltaomega values modified
  let z := List.scanl (fun last fraction => last * fraction) state.lastZ
    (fractions.1.take (inputs.domain.n - 1))
  if inputs.domain.n < inputs.blindingFactors then none
  else
    let z := blindRows inputs state.drawn z
    if inputs.domain.n < inputs.blindingFactors + 1 then none
    else
      let lastZ ← z[inputs.domain.n - (inputs.blindingFactors + 1)]?
      return (z, ⟨fractions.2, lastZ, state.drawn + inputs.blindingFactors⟩)

def commitSets (inputs : CommitInputs F) (tables : ColumnTables F) :
    List (List AnyColumn × List (List F)) → CommitState F → Option (List (List F))
  | [], _ => some []
  | set :: rest, state => do
    let done ← commitSet inputs tables set.1 set.2 state
    let others ← commitSets inputs tables rest done.2
    return done.1 :: others

/-- `Argument::commit`: the coefficients of each product. -/
def commit (inputs : CommitInputs F) (tables : ColumnTables F) (columns : List AnyColumn)
    (permutations : List (List F)) : Option (List (List F)) := do
  if inputs.csDegree < 3 then none
  else
    let chunkLen := inputs.csDegree - 2
    let sets ← commitSets inputs tables
      ((chunks chunkLen columns).zip (chunks chunkLen permutations)) ⟨1, 1, 0⟩
    sets.mapM (inputs.domain.lagrangeToCoeff inputs.threads)

/-- `Committed::evaluate`: the last value only while sets remain. -/
def evaluateSets (domain : EvaluationDomain F) (blindingFactors : Nat) (x : F) :
    List (List F) → List (PermutationEvaluated F)
  | [] => []
  | poly :: rest =>
    { productEval := valueAt x poly
      productNextEval := valueAt (rotateOmega domain x 1) poly
      productLastEval := if 0 < rest.length then
        some (valueAt (rotateOmega domain x (-((blindingFactors + 1 : Nat) : Int))) poly)
        else none } ::
      evaluateSets domain blindingFactors x rest

/-! ### Rows of a set -/

section Rows

variable {inputs : CommitInputs F}

/-- The factor of an element, where all slices have it. -/
def denominatorAt (beta gamma : F) (values permuted : List F) (row : Nat) : F :=
  match values[row]?, permuted[row]? with
  | some value, some label => beta * label + gamma + value
  | _, _ => 1

def numeratorAt (omega beta gamma deltaomega : F) (values : List F) (row : Nat) : F :=
  match values[row]? with
  | some value => deltaomega * omega ^ row * beta + gamma + value
  | none => 1

theorem denominators_elementwise (beta gamma : F) (values permuted : List F) :
    Elementwise (fun o start => timesDenominators beta gamma o (values.drop start)
        (permuted.drop start))
      fun entry => entry.1 * denominatorAt beta gamma values permuted entry.2 := by
  intro chunk start
  induction chunk generalizing start with
  | nil => simp [timesDenominators]
  | cons m rest ih =>
    have later := ih (start + 1)
    dsimp only at later ⊢
    rw [zipIdx_cons, map_cons, ← later, denominatorAt]
    by_cases inValues : start < values.length
    · by_cases inPermuted : start < permuted.length
      · rw [drop_eq_getElem_cons inValues, drop_eq_getElem_cons inPermuted, timesDenominators,
          getElem?_eq_getElem inValues, getElem?_eq_getElem inPermuted]
      · have here : permuted.drop start = [] := drop_eq_nil_of_le (by omega)
        have after : permuted.drop (start + 1) = [] := drop_eq_nil_of_le (by omega)
        have outside : permuted[start]? = none := getElem?_eq_none (by omega)
        simp [here, after, outside, timesDenominators]
    · have here : values.drop start = [] := drop_eq_nil_of_le (by omega)
      have after : values.drop (start + 1) = [] := drop_eq_nil_of_le (by omega)
      have outside : values[start]? = none := getElem?_eq_none (by omega)
      simp [here, after, outside, timesDenominators]

theorem numerators_elementwise (omega beta gamma deltaomega : F) (values : List F) :
    Elementwise (fun o start => timesNumerators omega beta gamma (deltaomega * omega ^ start) o
        (values.drop start))
      fun entry => entry.1 * numeratorAt omega beta gamma deltaomega values entry.2 := by
  intro chunk start
  induction chunk generalizing start with
  | nil => simp [timesNumerators]
  | cons m rest ih =>
    have later := ih (start + 1)
    dsimp only at later ⊢
    rw [zipIdx_cons, map_cons, ← later, numeratorAt]
    by_cases inValues : start < values.length
    · have next : deltaomega * omega ^ start * omega = deltaomega * omega ^ (start + 1) := by
        rw [mul_assoc, ← pow_succ]
      rw [drop_eq_getElem_cons inValues, timesNumerators, getElem?_eq_getElem inValues, next]
    · have here : values.drop start = [] := drop_eq_nil_of_le (by omega)
      have after : values.drop (start + 1) = [] := drop_eq_nil_of_le (by omega)
      have outside : values[start]? = none := getElem?_eq_none (by omega)
      simp [here, after, outside, timesNumerators]

def rowDenominator (beta gamma : F) (pairs : List (List F × List F)) (row : Nat) : F :=
  (pairs.map fun pair => beta * pair.2.getD row 0 + gamma + pair.1.getD row 0).prod

/-- The product of the numerators of a row, from a power of `delta` on. -/
def rowNumerator (inputs : CommitInputs F) : F → List (List F) → Nat → F
  | _, [], _ => 1
  | deltaomega, column :: rest, row =>
    (deltaomega * inputs.domain.omega ^ row * inputs.beta + inputs.gamma + column.getD row 0) *
      rowNumerator inputs (deltaomega * inputs.delta) rest row

def lastRow (inputs : CommitInputs F) : Nat := inputs.domain.n - (inputs.blindingFactors + 1)

/-- The fraction of a row, for the values and the labels of the columns of a set. -/
def rowFraction (inputs : CommitInputs F) (deltaomega : F) (block : List (List F) × List (List F))
    (row : Nat) : F :=
  (rowDenominator inputs.beta inputs.gamma (block.1.zip block.2) row)⁻¹ *
    rowNumerator inputs deltaomega block.1 row

/-- A product column runs over the fractions up to the last row. -/
structure RunsOver (inputs : CommitInputs F) (last deltaomega : F)
    (block : List (List F) × List (List F)) (z : List F) : Prop where
  length : z.length = inputs.domain.n
  rows : ∀ row ≤ lastRow inputs, z.getD row 0 =
    last * ∏ earlier ∈ Finset.range row, rowFraction inputs deltaomega block earlier

/-- The columns of a set have these values and labels. -/
structure HasBlock (inputs : CommitInputs F) (tables : ColumnTables F)
    (set : List AnyColumn × List (List F)) (block : List (List F) × List (List F)) : Prop where
  values : set.1.mapM tables.column = some block.1
  labels : set.2 = block.2
  paired : block.1.length = block.2.length
  valueRows : ∀ column ∈ block.1, column.length = inputs.domain.n
  labelRows : ∀ column ∈ block.2, column.length = inputs.domain.n

omit [Field F] in
theorem blind_rows_get {z : List F} (length : z.length = inputs.domain.n)
    (enough : inputs.blindingFactors + 1 ≤ inputs.domain.n) (drawn : Nat) {row : Nat}
    (usable : row ≤ lastRow inputs) :
    (blindRows inputs drawn z)[row]? = z[row]? := by
  unfold lastRow at usable
  have inside : row < inputs.domain.n - inputs.blindingFactors := by omega
  rw [blindRows, getElem?_append_left (by rw [length_take]; omega), getElem?_take_of_lt inside]

/-- Each set starts with what the set before left. -/
def Follows (inputs : CommitInputs F) : F → F → List (List (List F) × List (List F)) →
    List (List F) → F → Prop
  | last, _, [], [], final => final = last
  | last, deltaomega, block :: blocks, z :: zs, final =>
    RunsOver inputs last deltaomega block z ∧
      Follows inputs (z.getD (lastRow inputs) 0) (deltaomega * inputs.delta ^ block.1.length)
        blocks zs final
  | _, _, _, _, _ => False

variable (positive : 0 < inputs.threads)

include positive

theorem inverted_denominators_eq {pairs : List (List F × List F)}
    (lengths : ∀ pair ∈ pairs, pair.1.length = inputs.domain.n ∧ pair.2.length = inputs.domain.n) :
    invertedDenominators inputs pairs =
      rowTable inputs.domain.n fun row => (rowDenominator inputs.beta inputs.gamma pairs row)⁻¹ := by
  have loop : ∀ start : Nat → F, pairs.foldl (fun modified pair =>
      parallelize inputs.threads (fun o start => timesDenominators inputs.beta inputs.gamma o
        (pair.1.drop start) (pair.2.drop start)) modified) (rowTable inputs.domain.n start) =
      rowTable inputs.domain.n fun row =>
        start row * rowDenominator inputs.beta inputs.gamma pairs row := by
    intro start
    induction pairs generalizing start with
    | nil => simp [rowDenominator]
    | cons pair rest ih =>
      have sizes := lengths pair mem_cons_self
      rw [foldl_cons, parallelize_elementwise (denominators_elementwise _ _ _ _) positive,
        row_table_zip_idx, ih (forall_mem_cons.mp lengths).2]
      apply row_table_congr
      intro row inside
      have inValues : row < pair.1.length := by omega
      have inPermuted : row < pair.2.length := by omega
      simp [denominatorAt, rowDenominator, getElem?_eq_getElem inValues,
        getElem?_eq_getElem inPermuted, mul_assoc]
  rw [invertedDenominators, row_table_constant, loop, row_table_map]
  simp

theorem set_fractions_eq {values : List (List F)}
    (lengths : ∀ column ∈ values, column.length = inputs.domain.n) (deltaomega : F)
    (modified : Nat → F) :
    setFractions inputs deltaomega values (rowTable inputs.domain.n modified) =
      (rowTable inputs.domain.n fun row => modified row * rowNumerator inputs deltaomega values row,
        deltaomega * inputs.delta ^ values.length) := by
  induction values generalizing deltaomega modified with
  | nil => simp [setFractions, rowNumerator]
  | cons column rest ih =>
    have size := lengths column mem_cons_self
    have later := ih (forall_mem_cons.mp lengths).2
      (deltaomega * inputs.delta)
      (fun row => modified row * numeratorAt inputs.domain.omega inputs.beta inputs.gamma deltaomega
        column row)
    unfold setFractions at later ⊢
    rw [foldl_cons, parallelize_elementwise (numerators_elementwise _ _ _ _ _) positive,
      row_table_zip_idx, later, length_cons, pow_succ']
    congr 1
    · apply row_table_congr
      intro row inside
      have inColumn : row < column.length := by omega
      simp [numeratorAt, rowNumerator, getElem?_eq_getElem inColumn, mul_assoc]
    · rw [mul_assoc]

/-! ### One set -/

theorem commit_set_runs {tables : ColumnTables F} {set : List AnyColumn × List (List F)}
    {block : List (List F) × List (List F)} (hasBlock : HasBlock inputs tables set block)
    (enough : inputs.blindingFactors + 1 ≤ inputs.domain.n) (state : CommitState F) :
    ∃ z, commitSet inputs tables set.1 set.2 state =
        some (z, ⟨state.deltaomega * inputs.delta ^ block.1.length, z.getD (lastRow inputs) 0,
          state.drawn + inputs.blindingFactors⟩) ∧
      RunsOver inputs state.lastZ state.deltaomega block z := by
  have lengths : ∀ pair ∈ block.1.zip block.2,
      pair.1.length = inputs.domain.n ∧ pair.2.length = inputs.domain.n := by
    intro pair mem
    have inBoth := of_mem_zip mem
    exact ⟨hasBlock.valueRows pair.1 inBoth.1, hasBlock.labelRows pair.2 inBoth.2⟩
  have rows : inputs.domain.n - 1 + 1 = inputs.domain.n := by omega
  have fits : ¬inputs.domain.n < inputs.blindingFactors := by omega
  have usable : ¬inputs.domain.n < inputs.blindingFactors + 1 := by omega
  let running := rowTable inputs.domain.n fun row =>
    state.lastZ * ∏ earlier ∈ Finset.range row, rowFraction inputs state.deltaomega block earlier
  have z_eq : List.scanl (fun last fraction => last * fraction) state.lastZ
      ((setFractions inputs state.deltaomega block.1 (invertedDenominators inputs
        (block.1.zip block.2))).1.take (inputs.domain.n - 1)) = running := by
    rw [inverted_denominators_eq positive lengths, set_fractions_eq positive hasBlock.valueRows,
      row_table_take _ (Nat.sub_le _ _), scanl_products, rows]
    rfl
  have deltas : (setFractions inputs state.deltaomega block.1 (invertedDenominators inputs
      (block.1.zip block.2))).2 = state.deltaomega * inputs.delta ^ block.1.length := by
    rw [inverted_denominators_eq positive lengths, set_fractions_eq positive hasBlock.valueRows]
  have running_length : running.length = inputs.domain.n := row_table_length _ _
  have get : ∀ row ≤ lastRow inputs, (blindRows inputs state.drawn running)[row]? =
      some (state.lastZ * ∏ earlier ∈ Finset.range row,
        rowFraction inputs state.deltaomega block earlier) := by
    intro row before
    rw [blind_rows_get running_length enough state.drawn before]
    exact row_table_get _ (by unfold lastRow at before; omega)
  have last := get (lastRow inputs) (Nat.le_refl _)
  have committed : commitSet inputs tables set.1 set.2 state =
      some (blindRows inputs state.drawn running,
        ⟨state.deltaomega * inputs.delta ^ block.1.length,
          (blindRows inputs state.drawn running).getD (lastRow inputs) 0,
          state.drawn + inputs.blindingFactors⟩) := by
    rw [getD_eq_getElem?_getD, last]
    unfold lastRow at last
    simp only [commitSet, hasBlock.values, hasBlock.labels, some_bind,
      z_eq, deltas, if_neg fits, if_neg usable, last, Option.pure_def, getD_some]
    rfl
  have size : (blindRows inputs state.drawn running).length = inputs.domain.n := by
    rw [blindRows, length_append, length_take, running_length, length_map, length_range]
    omega
  exact ⟨_, committed, size, fun row before => by
    rw [getD_eq_getElem?_getD, get row before, getD_some]⟩

/-! ### All sets -/

theorem commit_sets_follow {tables : ColumnTables F} {sets : List (List AnyColumn × List (List F))}
    {blocks : List (List (List F) × List (List F))}
    (hasBlocks : Forall₂ (HasBlock inputs tables) sets blocks)
    (enough : inputs.blindingFactors + 1 ≤ inputs.domain.n) (state : CommitState F) :
    ∃ zs final, commitSets inputs tables sets state = some zs ∧
      Follows inputs state.lastZ state.deltaomega blocks zs final := by
  induction hasBlocks generalizing state with
  | nil => exact ⟨[], state.lastZ, rfl, rfl⟩
  | @cons set block sets blocks hasBlock _ ih =>
    rcases commit_set_runs positive hasBlock enough state with ⟨z, committed, runs⟩
    rcases ih ⟨state.deltaomega * inputs.delta ^ block.1.length,
      z.getD (lastRow inputs) 0, state.drawn + inputs.blindingFactors⟩ with
      ⟨zs, final, others, follows⟩
    exact ⟨z :: zs, final, by
      simp only [commitSets, committed, others, some_bind,
        Option.pure_def], runs, follows⟩

end Rows

/-! ### The product over all sets -/

section Product

variable {inputs : CommitInputs F}

theorem row_numerator_append (deltaomega : F) (first second : List (List F)) (row : Nat) :
    rowNumerator inputs deltaomega (first ++ second) row =
      rowNumerator inputs deltaomega first row *
        rowNumerator inputs (deltaomega * inputs.delta ^ first.length) second row := by
  induction first generalizing deltaomega with
  | nil => simp [rowNumerator]
  | cons column rest ih =>
    have power : deltaomega * inputs.delta ^ (rest.length + 1) =
        deltaomega * inputs.delta * inputs.delta ^ rest.length := by
      rw [pow_succ', mul_assoc]
    rw [cons_append, rowNumerator, ih, rowNumerator, length_cons, power]
    exact (mul_assoc _ _ _).symm

theorem row_fraction_append (deltaomega : F) (first second : List (List F) × List (List F))
    (paired : first.1.length = first.2.length) (row : Nat) :
    rowFraction inputs deltaomega (first.1 ++ second.1, first.2 ++ second.2) row =
      rowFraction inputs deltaomega first row *
        rowFraction inputs (deltaomega * inputs.delta ^ first.1.length) second row := by
  simp only [rowFraction, rowDenominator, zip_append paired, map_append,
    prod_append, row_numerator_append, mul_inv]
  ring

def joinBlocks (blocks : List (List (List F) × List (List F))) : List (List F) × List (List F) :=
  ((blocks.map Prod.fst).flatten, (blocks.map Prod.snd).flatten)

variable {last deltaomega final : F} {blocks : List (List (List F) × List (List F))}
  {zs : List (List F)}

theorem follows_final (paired : ∀ block ∈ blocks, block.1.length = block.2.length)
    (follows : Follows inputs last deltaomega blocks zs final) :
    final = last * ∏ row ∈ Finset.range (lastRow inputs),
      rowFraction inputs deltaomega (joinBlocks blocks) row := by
  induction blocks generalizing last deltaomega zs with
  | nil =>
    cases zs with
    | nil =>
      have same : final = last := follows
      simp [same, rowFraction, rowDenominator, rowNumerator, joinBlocks]
    | cons z zs => exact follows.elim
  | cons block blocks ih =>
    cases zs with
    | nil => exact follows.elim
    | cons z zs =>
      have split : ∀ row, rowFraction inputs deltaomega (joinBlocks (block :: blocks)) row =
          rowFraction inputs deltaomega block row *
            rowFraction inputs (deltaomega * inputs.delta ^ block.1.length)
              (joinBlocks blocks) row := by
        intro row
        exact row_fraction_append deltaomega block (joinBlocks blocks)
          (paired block mem_cons_self) row
      have later := ih (forall_mem_cons.mp paired).2
        follows.2
      rw [later, follows.1.rows _ (Nat.le_refl _)]
      simp only [split, Finset.prod_mul_distrib, mul_assoc]

section

variable (follows : Follows inputs last deltaomega blocks zs final)

include follows

theorem follows_length : zs.length = blocks.length := by
  induction blocks generalizing last deltaomega zs with
  | nil =>
    cases zs with
    | nil => rfl
    | cons z zs => exact follows.elim
  | cons block blocks ih =>
    cases zs with
    | nil => exact follows.elim
    | cons z zs => rw [length_cons, length_cons, ih follows.2]

theorem follows_rows : ∀ z ∈ zs, z.length = inputs.domain.n := by
  induction blocks generalizing last deltaomega zs with
  | nil =>
    cases zs with
    | nil => simp
    | cons z zs => exact follows.elim
  | cons block blocks ih =>
    cases zs with
    | nil => exact follows.elim
    | cons z zs =>
      intro other mem
      rcases mem_cons.mp mem with same | later
      · rw [same]
        exact follows.1.length
      · exact ih follows.2 other later

/-- The set with a number: its column runs from the end of the set before. -/
theorem follows_get {size : Nat}
    (full : ∀ c, c + 1 < blocks.length → (blocks.map fun block => block.1.length)[c]? = some size)
    {c : Nat} {z : List F} (stored : zs[c]? = some z) :
    ∃ start block, blocks[c]? = some block ∧
      RunsOver inputs start (deltaomega * inputs.delta ^ (c * size)) block z ∧
      (c = 0 → start = last) ∧
      ∀ before, c = before + 1 → ∃ earlier, zs[before]? = some earlier ∧
        start = earlier.getD (lastRow inputs) 0 := by
  induction blocks generalizing last deltaomega zs c with
  | nil =>
    cases zs with
    | nil => cases stored
    | cons z zs => exact follows.elim
  | cons block blocks ih =>
    cases zs with
    | nil => exact follows.elim
    | cons first zs =>
      cases c with
      | zero =>
        rw [getElem?_cons_zero, Option.some.injEq] at stored
        rw [Nat.zero_mul, pow_zero, mul_one, ← stored]
        exact ⟨last, block, rfl, follows.1, fun _ => rfl, fun before none =>
          absurd none.symm (Nat.succ_ne_zero before)⟩
      | succ c =>
        rw [getElem?_cons_succ] at stored
        have inside : c < zs.length := (List.getElem?_eq_some_iff.mp stored).1
        rw [follows_length follows.2] at inside
        have whole : block.1.length = size := by
          have first_full := full 0 (by rw [length_cons]; omega)
          simpa using first_full
        have rest_full : ∀ c, c + 1 < blocks.length →
            (blocks.map fun block => block.1.length)[c]? = some size := by
          intro c within
          have later := full (c + 1) (by rw [length_cons]; omega)
          rwa [map_cons, getElem?_cons_succ] at later
        rcases ih follows.2 rest_full stored with
          ⟨start, found, there, runs, atFirst, atLater⟩
        have power : deltaomega * inputs.delta ^ block.1.length * inputs.delta ^ (c * size) =
            deltaomega * inputs.delta ^ ((c + 1) * size) := by
          rw [whole, mul_assoc, ← pow_add]
          congr 2
          ring
        rw [power] at runs
        have links : ∀ before, c + 1 = before + 1 → ∃ earlier,
            (first :: zs)[before]? = some earlier ∧
              start = earlier.getD (lastRow inputs) 0 := by
          intro before same
          rw [Nat.succ_inj] at same
          rw [← same]
          cases c with
          | zero => exact ⟨first, rfl, atFirst rfl⟩
          | succ c => exact atLater c rfl
        exact ⟨start, found, there, runs,
          fun none => absurd none (Nat.succ_ne_zero c), links⟩

theorem follows_last {z : List F} (stored : zs.getLast? = some z) :
    z.getD (lastRow inputs) 0 = final := by
  induction blocks generalizing last deltaomega zs with
  | nil =>
    cases zs with
    | nil => cases stored
    | cons z zs => exact follows.elim
  | cons block blocks ih =>
    cases zs with
    | nil => exact follows.elim
    | cons first zs =>
      cases zs with
      | nil =>
        cases blocks with
        | nil =>
          rw [getLast?_singleton, Option.some.injEq] at stored
          rw [← stored]
          exact follows.2.symm
        | cons block blocks => exact follows.2.elim
      | cons second zs =>
        rw [getLast?_cons_cons] at stored
        exact ih follows.2 stored

end

end Product

/-! ### The identities of a row -/

/-- The challenges and Lagrange values of the identities at a row. -/
structure RowChallenges (inputs : CommitInputs F) (row : Nat) (point : Challenges F) : Prop where
  x : point.x = inputs.domain.omega ^ row
  beta : point.beta = inputs.beta
  gamma : point.gamma = inputs.gamma
  delta : point.delta = inputs.delta
  l0 : point.l0 = if row = 0 then 1 else 0
  lLast : point.lLast = if row = lastRow inputs then 1 else 0
  lBlind : point.lBlind = if lastRow inputs < row then 1 else 0

section Identities

variable {inputs : CommitInputs F}

theorem permutation_left_eq (beta gamma start : F) (pairs : List (F × F)) :
    permutationLeft beta gamma start pairs =
      start * (pairs.map fun pair => pair.1 + beta * pair.2 + gamma).prod := by
  induction pairs generalizing start with
  | nil => simp [permutationLeft]
  | cons pair rest ih =>
    unfold permutationLeft at ih ⊢
    rw [foldl_cons, ih, map_cons, prod_cons, mul_assoc]

theorem permutation_right_eq (start deltaomega current : F) (columns : List (List F)) (row : Nat)
    (here : current = deltaomega * inputs.domain.omega ^ row * inputs.beta) :
    (permutationRight inputs.delta inputs.gamma (start, current)
        (columns.map fun column => column.getD row 0)).1 =
      start * rowNumerator inputs deltaomega columns row := by
  induction columns generalizing start deltaomega current with
  | nil => simp [permutationRight, rowNumerator]
  | cons column rest ih =>
    have next := ih (start * (column.getD row 0 + current + inputs.gamma))
      (deltaomega * inputs.delta) (current * inputs.delta) (by rw [here]; ring)
    unfold permutationRight at next ⊢
    rw [map_cons, foldl_cons, next, rowNumerator, here, ← mul_assoc]
    congr 2
    ring

abbrev ColumnEntry (F : Type) : Type := AnyColumn × List F × List F

def blockOf (entries : List (ColumnEntry F)) : List (List F) × List (List F) :=
  (entries.map fun entry => entry.2.1, entries.map fun entry => entry.2.2)

/-- No denominator of the row is zero. -/
def DenominatorsNonzero (inputs : CommitInputs F) (entries : List (ColumnEntry F)) : Prop :=
  ∀ entry ∈ entries, ∀ row < lastRow inputs,
    inputs.beta * entry.2.2.getD row 0 + inputs.gamma + entry.2.1.getD row 0 ≠ 0

theorem row_denominator_block (beta gamma : F) (entries : List (ColumnEntry F)) (row : Nat) :
    rowDenominator beta gamma ((blockOf entries).1.zip (blockOf entries).2) row =
      (entries.map fun entry => beta * entry.2.2.getD row 0 + gamma + entry.2.1.getD row 0).prod := by
  rw [rowDenominator, blockOf, zip_map', map_map]
  rfl

theorem permutation_chunk_zero {entries : List (ColumnEntry F)} {start deltaomega : F} {z : List F}
    {row : Nat} {point : Challenges F} {set : PermutationEvaluated F} {current : F}
    (runs : RunsOver inputs start deltaomega (blockOf entries) z)
    (challenges : RowChallenges inputs row point)
    (nonzero : DenominatorsNonzero inputs entries)
    (here : current = deltaomega * inputs.domain.omega ^ row * inputs.beta)
    (eval : set.productEval = z.getD row 0)
    (next : row < lastRow inputs → set.productNextEval = z.getD (row + 1) 0) :
    permutationChunk point current set (entries.map fun entry => entry.2.1.getD row 0)
      (entries.map fun entry => entry.2.2.getD row 0) = 0 := by
  rw [permutationChunk]
  by_cases active : row < lastRow inputs
  · have denominators : (entries.map fun entry =>
        inputs.beta * entry.2.2.getD row 0 + inputs.gamma + entry.2.1.getD row 0).prod ≠ 0 := by
      apply prod_ne_zero
      intro zero
      rcases mem_map.mp zero with ⟨entry, mem, same⟩
      exact nonzero entry mem row active same
    have labels : ((entries.map fun entry => entry.2.1.getD row 0).zip
        (entries.map fun entry => entry.2.2.getD row 0)).map
          (fun pair => pair.1 + point.beta * pair.2 + point.gamma) =
        entries.map fun entry =>
          inputs.beta * entry.2.2.getD row 0 + inputs.gamma + entry.2.1.getD row 0 := by
      rw [zip_map', map_map, challenges.beta, challenges.gamma]
      apply map_congr_left
      intro entry _
      simp only [Function.comp_apply]
      ring
    have columns : (entries.map fun entry => entry.2.1.getD row 0) =
        (blockOf entries).1.map fun column => column.getD row 0 := by
      rw [blockOf, map_map]
      rfl
    have after : z.getD (row + 1) 0 = z.getD row 0 *
        rowFraction inputs deltaomega (blockOf entries) row := by
      rw [runs.rows _ active, runs.rows _ active.le, Finset.prod_range_succ, mul_assoc]
    have left : permutationLeft point.beta point.gamma set.productNextEval
        ((entries.map fun entry => entry.2.1.getD row 0).zip
          (entries.map fun entry => entry.2.2.getD row 0)) =
        z.getD row 0 * rowNumerator inputs deltaomega (blockOf entries).1 row := by
      rw [permutation_left_eq, labels, next active, after, rowFraction, row_denominator_block]
      field_simp
    have right : (permutationRight point.delta point.gamma (set.productEval, current)
        (entries.map fun entry => entry.2.1.getD row 0)).1 =
        z.getD row 0 * rowNumerator inputs deltaomega (blockOf entries).1 row := by
      rw [challenges.delta, challenges.gamma, columns,
        permutation_right_eq set.productEval deltaomega current _ row here, eval]
    rw [left, right, sub_self, zero_mul]
  · have inactive : (1 : F) - (point.lLast + point.lBlind) = 0 := by
      rw [challenges.lLast, challenges.lBlind]
      rcases Nat.lt_or_eq_of_le (Nat.not_lt.mp active) with behind | at_last
      · rw [if_neg behind.ne', if_pos behind, zero_add, sub_self]
      · rw [if_pos at_last.symm, if_neg (by omega), add_zero, sub_self]
    rw [inactive, mul_zero]

theorem evaluate_sets_get (domain : EvaluationDomain F) (blindingFactors : Nat) (x : F)
    (polys : List (List F)) (c : Nat) :
    (evaluateSets domain blindingFactors x polys)[c]? = polys[c]?.map fun poly =>
      { productEval := valueAt x poly
        productNextEval := valueAt (rotateOmega domain x 1) poly
        productLastEval := if c + 1 < polys.length then
          some (valueAt (rotateOmega domain x (-((blindingFactors + 1 : Nat) : Int))) poly)
          else none } := by
  induction polys generalizing c with
  | nil => rfl
  | cons poly rest ih =>
    cases c with
    | zero => simp [evaluateSets]
    | succ c => simp [evaluateSets, ih]

theorem evaluate_sets_length (domain : EvaluationDomain F) (blindingFactors : Nat) (x : F)
    (polys : List (List F)) :
    (evaluateSets domain blindingFactors x polys).length = polys.length := by
  induction polys with
  | nil => rfl
  | cons poly rest ih => rw [evaluateSets, length_cons, length_cons, ih]

end Identities

/-! ### Completeness -/

section Completeness

variable {inputs : CommitInputs F} {tables : ColumnTables F} {columns : List AnyColumn}
  {values : List (List F)} {successor : Perm (Cell columns inputs.domain.n)}

def cellValue (values : List (List F)) (cell : Cell columns inputs.domain.n) : F :=
  (values.getD cell.1 []).getD cell.2 0

def cellLabel (inputs : CommitInputs F) (cell : Cell columns inputs.domain.n) : F :=
  inputs.domain.omega ^ cell.2.val * inputs.delta ^ cell.1.val

theorem constant_on_cycles {Entry Value : Type} [Finite Entry] {successor : Perm Entry}
    {view : Entry → Value} (next : ∀ entry, view (successor entry) = view entry) {a b : Entry}
    (cycle : successor.SameCycle a b) : view a = view b := by
  rcases cycle.exists_pow_eq' with ⟨steps, _, reached⟩
  have after : ∀ count : Nat, view ((successor ^ count) a) = view a := by
    intro count
    induction count with
    | zero => rfl
    | succ count ih => rw [pow_succ', Perm.mul_apply, next, ih]
  rw [← reached, after]

/-- The values agree with the copies, and no usable denominator is zero. -/
structure Honest (inputs : CommitInputs F) (tables : ColumnTables F) (columns : List AnyColumn)
    (values : List (List F)) (successor : Perm (Cell columns inputs.domain.n)) : Prop where
  wellFormed : WellFormed inputs.domain
  threads : 0 < inputs.threads
  degree : 3 ≤ inputs.csDegree
  rows : inputs.blindingFactors + 1 ≤ inputs.domain.n
  columns : columns.mapM tables.column = some values
  lengths : ∀ column ∈ values, column.length = inputs.domain.n
  blinding : ∀ cell, lastRow inputs ≤ cell.2.val → successor cell = cell
  equal : ∀ a b, successor.SameCycle a b → cellValue values a = cellValue values b
  nonzero : ∀ cell, cell.2.val < lastRow inputs →
    inputs.beta * cellLabel inputs (successor cell) + inputs.gamma + cellValue values cell ≠ 0

def columnEntries (inputs : CommitInputs F) (columns : List AnyColumn) (values : List (List F))
    (successor : Perm (Cell columns inputs.domain.n)) : List (ColumnEntry F) :=
  columns.zip (values.zip (permutationValues inputs.domain inputs.delta successor))

theorem labels_length : (permutationValues inputs.domain inputs.delta successor).length =
    columns.length := by
  rw [permutationValues, tabulate, length_ofFn]

theorem label_get (cell : Cell columns inputs.domain.n) :
    ((permutationValues inputs.domain inputs.delta successor).getD cell.1 []).getD cell.2 0 =
      cellLabel inputs (successor cell) := by
  simp [permutationValues, tabulate, cellLabel, getD_eq_getElem?_getD]

theorem row_numerator_prod (deltaomega : F) (values : List (List F)) (row : Nat) :
    rowNumerator inputs deltaomega values row = ∏ column : Fin values.length,
      (deltaomega * inputs.delta ^ column.val * inputs.domain.omega ^ row * inputs.beta +
        inputs.gamma + (values.getD column []).getD row 0) := by
  induction values generalizing deltaomega with
  | nil => simp [rowNumerator]
  | cons column rest ih =>
    rw [rowNumerator, ih, length_cons, Fin.prod_univ_succ]
    simp only [Fin.val_zero, pow_zero, mul_one, getD_cons_zero, Fin.val_succ,
      getD_cons_succ, pow_succ', mul_assoc]

variable {labels : List (List F)} {entries : List (ColumnEntry F)}

theorem row_denominator_prod {values : List (List F)} (beta gamma : F)
    (paired : values.length = labels.length) (row : Nat) :
    rowDenominator beta gamma (values.zip labels) row = ∏ column : Fin values.length,
      (beta * (labels.getD column []).getD row 0 + gamma + (values.getD column []).getD row 0) := by
  induction values generalizing labels with
  | nil => simp [rowDenominator]
  | cons column rest ih =>
    rcases exists_cons_of_length_eq_add_one (by simpa using paired.symm) with
      ⟨label, others, rfl⟩
    have later := ih (by simpa using paired)
    rw [rowDenominator] at later ⊢
    rw [zip_cons_cons, map_cons, prod_cons, later, length_cons, Fin.prod_univ_succ]
    simp

theorem fractions_cancel (honest : Honest inputs tables columns values successor) :
    ∏ row ∈ Finset.range (lastRow inputs), rowFraction inputs 1
      (values, permutationValues inputs.domain inputs.delta successor) row = 1 := by
  have count : values.length = columns.length := (map_m_length honest.columns).symm
  have paired : values.length = (permutationValues inputs.domain inputs.delta successor).length := by
    rw [labels_length, count]
  let numerator : Nat → Nat → F := fun column row =>
    inputs.beta * (inputs.domain.omega ^ row * inputs.delta ^ column) + inputs.gamma +
      (values.getD column []).getD row 0
  let denominator : Nat → Nat → F := fun column row =>
    inputs.beta * ((permutationValues inputs.domain inputs.delta successor).getD column []).getD row 0
      + inputs.gamma + (values.getD column []).getD row 0
  let factor : Cell columns inputs.domain.n → F := fun cell =>
    inputs.beta * cellLabel inputs cell + inputs.gamma + cellValue values cell
  have recount : ∀ f : Nat → F, ∏ column : Fin values.length, f column =
      ∏ column : Fin columns.length, f column := by
    intro f
    rw [Fin.prod_univ_eq_prod_range, Fin.prod_univ_eq_prod_range, count]
  have numerators : ∀ row, rowNumerator inputs 1 values row =
      ∏ column : Fin columns.length, numerator column row := by
    intro row
    rw [row_numerator_prod, ← recount fun column => numerator column row]
    apply Finset.prod_congr rfl
    intro column _
    simp only [numerator]
    ring
  have denominators : ∀ row, rowDenominator inputs.beta inputs.gamma
      (values.zip (permutationValues inputs.domain inputs.delta successor)) row =
        ∏ column : Fin columns.length, denominator column row := by
    intro row
    rw [row_denominator_prod _ _ paired, ← recount fun column => denominator column row]
  have usable : lastRow inputs ≤ inputs.domain.n := Nat.sub_le _ _
  have next_value : ∀ cell, cellValue values (successor cell) = cellValue values cell :=
    fun cell => honest.equal _ _ (Perm.sameCycle_apply_left.mpr (Perm.SameCycle.refl _ _))
  have moved : ∀ cell : Cell columns inputs.domain.n,
      denominator cell.1 cell.2 = factor (successor cell) := by
    intro cell
    simp only [denominator, factor]
    rw [label_get cell, next_value]
    rfl
  have same : ∏ row ∈ Finset.range (lastRow inputs),
        ∏ column : Fin columns.length, denominator column row =
      ∏ row ∈ Finset.range (lastRow inputs), ∏ column : Fin columns.length, numerator column row := by
    rw [← prod_first_rows usable, ← prod_first_rows usable]
    simp only [moved]
    exact prod_reindexed successor (fun cell => cell.2.val < lastRow inputs)
      (fun cell outside => honest.blinding cell (Nat.not_lt.mp outside)) factor
  have nonzero : ∏ row ∈ Finset.range (lastRow inputs),
      ∏ column : Fin columns.length, denominator column row ≠ 0 := by
    rw [← prod_first_rows usable]
    apply Finset.prod_ne_zero_iff.mpr
    intro cell mem
    rw [moved]
    have below := (Finset.mem_filter.mp mem).2
    simp only [factor, next_value]
    exact honest.nonzero cell below
  simp only [rowFraction, numerators, denominators, Finset.prod_mul_distrib, Finset.prod_inv_distrib]
  rw [same] at nonzero ⊢
  exact inv_mul_cancel₀ nonzero

theorem zip_map_m {Input Output : Type} {step : Input → Option Output} {items : List Input}
    {results : List Output} (ran : items.mapM step = some results) {pair : Input × Output}
    (mem : pair ∈ items.zip results) : step pair.1 = some pair.2 :=
  (forall₂_iff_zip.mp (map_m_forall₂ ran)).2 mem

structure EntryParts (inputs : CommitInputs F) (tables : ColumnTables F) (columns : List AnyColumn)
    (values labels : List (List F)) (entries : List (ColumnEntry F)) : Prop where
  columns : entries.map Prod.fst = columns
  values : entries.map (fun entry => entry.2.1) = values
  labels : entries.map (fun entry => entry.2.2) = labels
  stored : ∀ entry ∈ entries, tables.column entry.1 = some entry.2.1
  valueRows : ∀ entry ∈ entries, entry.2.1.length = inputs.domain.n
  labelRows : ∀ entry ∈ entries, entry.2.2.length = inputs.domain.n

theorem column_entry_parts (honest : Honest inputs tables columns values successor) :
    EntryParts inputs tables columns values
      (permutationValues inputs.domain inputs.delta successor)
      (columnEntries inputs columns values successor) := by
  have count : columns.length = values.length := map_m_length honest.columns
  have labels : columns.length =
      (permutationValues inputs.domain inputs.delta successor).length := labels_length.symm
  have inner : (values.zip (permutationValues inputs.domain inputs.delta successor)).length =
      columns.length := by
    rw [length_zip, ← count, ← labels, Nat.min_self]
  have seconds : (columnEntries inputs columns values successor).map Prod.snd =
      values.zip (permutationValues inputs.domain inputs.delta successor) :=
    map_snd_zip inner.le
  exact {
    columns := map_fst_zip inner.ge
    values := by
      have firsts := congrArg (List.map Prod.fst) seconds
      rw [map_map, map_fst_zip (by omega)] at firsts
      exact firsts
    labels := by
      have lasts := congrArg (List.map Prod.snd) seconds
      rw [map_map, map_snd_zip (by omega)] at lasts
      exact lasts
    stored := by
      intro entry mem
      rcases mem_iff_getElem?.mp mem with ⟨index, found⟩
      have both := getElem?_zip_eq_some.mp found
      have value := (getElem?_zip_eq_some.mp both.2).1
      have zipped : (entry.1, entry.2.1) ∈ columns.zip values :=
        mem_iff_getElem?.mpr ⟨index, getElem?_zip_eq_some.mpr ⟨both.1, value⟩⟩
      exact zip_map_m honest.columns zipped
    valueRows := by
      intro entry mem
      exact honest.lengths entry.2.1 (of_mem_zip (of_mem_zip mem).2).1
    labelRows := by
      intro entry mem
      have inLabels := (of_mem_zip (of_mem_zip mem).2).2
      rw [permutationValues, tabulate, mem_ofFn] at inLabels
      rcases inLabels with ⟨column, same⟩
      rw [← same, length_ofFn] }

def setOf (entries : List (ColumnEntry F)) : List AnyColumn × List (List F) :=
  (entries.map Prod.fst, entries.map fun entry => entry.2.2)

omit [Field F] in
theorem chunk_has_block {chunk : List (ColumnEntry F)}
    (parts : EntryParts inputs tables columns values labels entries)
    (inside : ∀ entry ∈ chunk, entry ∈ entries) :
    HasBlock inputs tables (setOf chunk) (blockOf chunk) where
  values := by
    rw [setOf, blockOf, mapM_map]
    exact map_m_of_forall chunk fun entry mem => parts.stored entry (inside entry mem)
  labels := rfl
  paired := by rw [blockOf, length_map, length_map]
  valueRows := by
    intro column mem
    rcases mem_map.mp mem with ⟨entry, inChunk, rfl⟩
    exact parts.valueRows entry (inside entry inChunk)
  labelRows := by
    intro column mem
    rcases mem_map.mp mem with ⟨entry, inChunk, rfl⟩
    exact parts.labelRows entry (inside entry inChunk)

omit [Field F] in
theorem chunk_sets {size : Nat} (parts : EntryParts inputs tables columns values labels entries) :
    (chunks size columns).zip (chunks size labels) = (chunks size entries).map setOf := by
  rw [← parts.columns, ← parts.labels, chunks_map, chunks_map, zip_map']
  rfl

omit [Field F] in
theorem chunk_blocks_join {size : Nat} (positive : 0 < size)
    (parts : EntryParts inputs tables columns values labels entries) :
    joinBlocks ((chunks size entries).map blockOf) = (values, labels) := by
  have joined : ∀ view : ColumnEntry F → List F,
      ((chunks size entries).map fun chunk => chunk.map view).flatten = entries.map view := by
    intro view
    rw [← map_flatten, chunks_flatten_eq positive]
  rw [← parts.values, ← parts.labels, joinBlocks, map_map, map_map, ← joined, ← joined]
  rfl

theorem commit_follows (honest : Honest inputs tables columns values successor) :
    ∃ polys, commit inputs tables columns
        (permutationValues inputs.domain inputs.delta successor) = some polys ∧
      Follows inputs 1 1 ((chunks (inputs.csDegree - 2)
          (columnEntries inputs columns values successor)).map blockOf)
        (polys.map (smallValues inputs.domain)) 1 := by
  have degree := honest.degree
  have parts := column_entry_parts honest
  have positive : 0 < inputs.csDegree - 2 := by omega
  let entries := columnEntries inputs columns values successor
  have sets : (chunks (inputs.csDegree - 2) columns).zip (chunks (inputs.csDegree - 2)
      (permutationValues inputs.domain inputs.delta successor)) =
      (chunks (inputs.csDegree - 2) entries).map setOf := chunk_sets parts
  have hasBlocks : Forall₂ (HasBlock inputs tables)
      ((chunks (inputs.csDegree - 2) entries).map setOf)
      ((chunks (inputs.csDegree - 2) entries).map blockOf) := by
    rw [forall₂_map_left_iff, forall₂_map_right_iff, forall₂_same]
    exact fun chunk mem => chunk_has_block parts fun entry => mem_chunk positive mem
  rcases commit_sets_follow honest.threads hasBlocks honest.rows ⟨1, 1, 0⟩ with
    ⟨zs, final, ran, follows⟩
  have paired : ∀ block ∈ (chunks (inputs.csDegree - 2) entries).map blockOf,
      block.1.length = block.2.length := by
    intro block mem
    rcases mem_map.mp mem with ⟨chunk, _, rfl⟩
    rw [blockOf, length_map, length_map]
  have joined : joinBlocks ((chunks (inputs.csDegree - 2) entries).map blockOf) =
      (values, permutationValues inputs.domain inputs.delta successor) :=
    chunk_blocks_join positive parts
  have ends : final = 1 := by
    rw [follows_final paired follows, joined, fractions_cancel honest, mul_one]
  rw [ends] at follows
  have lengths : ∀ z ∈ zs, z.length = 2 ^ inputs.domain.k := by
    rw [← honest.wellFormed.n]
    exact follows_rows follows
  rcases interpolate_all honest.wellFormed honest.threads lengths with ⟨polys, found, small, -⟩
  have committed : commit inputs tables columns
      (permutationValues inputs.domain inputs.delta successor) = some polys := by
    rw [commit, if_neg (by omega)]
    simp only [sets, ran, some_bind]
    exact found
  rw [← small] at follows
  exact ⟨polys, committed, follows⟩

/-! ### All identities of a row -/

section Evaluated

variable {entries : List (ColumnEntry F)} {polys : List (List F)} {row : Nat}
  {point : Challenges F}

abbrev rowSets (inputs : CommitInputs F) (row : Nat) (polys : List (List F)) :
    List (PermutationEvaluated F) :=
  evaluateSets inputs.domain inputs.blindingFactors (inputs.domain.omega ^ row) polys

variable {size : Nat} {poly : List F}

section

variable (follows : Follows inputs 1 1 ((chunks size entries).map blockOf)
      (polys.map (smallValues inputs.domain)) 1)

include follows

theorem committed_get {c : Nat} (stored : polys[c]? = some poly) :
    ∃ start chunk, (chunks size entries)[c]? = some chunk ∧
      RunsOver inputs start (inputs.delta ^ (c * size)) (blockOf chunk)
        (smallValues inputs.domain poly) ∧
      (c = 0 → start = 1) ∧
      ∀ before, c = before + 1 → ∃ earlier, polys[before]? = some earlier ∧
        start = (smallValues inputs.domain earlier).getD (lastRow inputs) 0 := by
  have full : ∀ c, c + 1 < ((chunks size entries).map blockOf).length →
      (((chunks size entries).map blockOf).map fun block => block.1.length)[c]? = some size := by
    intro c within
    rw [length_map] at within
    have inside : c < (chunks size entries).length := by omega
    have found := getElem?_eq_getElem inside
    have whole := chunks_before_last entries found within
    simp [found, blockOf, whole]
  have column : (polys.map (smallValues inputs.domain))[c]? =
      some (smallValues inputs.domain poly) := by
    rw [getElem?_map, stored, map_some]
  rcases follows_get follows full column with ⟨start, block, there, runs, atFirst, atLater⟩
  rw [getElem?_map, map_eq_some_iff] at there
  rcases there with ⟨chunk, inChunks, rfl⟩
  rw [one_mul] at runs
  have before_column : ∀ before, c = before + 1 → ∃ earlier, polys[before]? = some earlier ∧
      start = (smallValues inputs.domain earlier).getD (lastRow inputs) 0 := by
    intro before next
    rcases atLater before next with ⟨z, found, same⟩
    rw [getElem?_map, map_eq_some_iff] at found
    rcases found with ⟨earlier, inPolys, rfl⟩
    exact ⟨earlier, inPolys, same⟩
  exact ⟨start, chunk, inChunks, runs, atFirst, before_column⟩

theorem committed_start {c : Nat} (stored : polys[c]? = some poly) :
    (c = 0 → (smallValues inputs.domain poly).getD 0 0 = 1) ∧
      ∀ before earlier, c = before + 1 → polys[before]? = some earlier →
        (smallValues inputs.domain poly).getD 0 0 =
          (smallValues inputs.domain earlier).getD (lastRow inputs) 0 := by
  rcases committed_get follows stored with ⟨start, _, _, runs, atFirst, atLater⟩
  have starts := runs.rows 0 (Nat.zero_le _)
  rw [Finset.prod_range_zero, mul_one] at starts
  constructor
  · intro first
    rw [starts, atFirst first]
  · intro before earlier next found
    rcases atLater before next with ⟨other, stored_other, same⟩
    rw [found, Option.some.injEq] at stored_other
    rw [starts, same, stored_other]

theorem committed_end (stored : polys.getLast? = some poly) :
    (smallValues inputs.domain poly).getD (lastRow inputs) 0 = 1 := by
  have column : (polys.map (smallValues inputs.domain)).getLast? =
      some (smallValues inputs.domain poly) := by
    rw [getLast?_map, stored, map_some]
  exact follows_last follows column

end

variable (wellFormed : WellFormed inputs.domain) (inside : row < inputs.domain.n)
  (enough : inputs.blindingFactors + 1 ≤ inputs.domain.n)

include wellFormed

variable (challenges : RowChallenges inputs row point) {size : Nat} (positive : 0 < size)
  (follows : Follows inputs 1 1 ((chunks size entries).map blockOf)
    (polys.map (smallValues inputs.domain)) 1)

include inside challenges positive follows

omit positive in
theorem first_identity_zero {set : PermutationEvaluated F}
    (head : (rowSets inputs row polys).head? = some set) :
    point.l0 * (1 - set.productEval) = 0 := by
  rw [head?_eq_getElem?, evaluate_sets_get, map_eq_some_iff] at head
  rcases head with ⟨poly, stored, rfl⟩
  rw [challenges.l0]
  by_cases first : row = 0
  · have starts := (committed_start follows stored).1 rfl
    dsimp only
    rw [row_value wellFormed poly inside, first, starts, sub_self, mul_zero]
  · rw [if_neg first, zero_mul]

omit positive in
theorem last_identity_zero {set : PermutationEvaluated F}
    (last : (rowSets inputs row polys).getLast? = some set) :
    (set.productEval ^ 2 - set.productEval) * point.lLast = 0 := by
  rw [getLast?_eq_getElem?, evaluate_sets_get, evaluate_sets_length, map_eq_some_iff] at last
  rcases last with ⟨poly, stored, rfl⟩
  rw [challenges.lLast]
  by_cases at_last : row = lastRow inputs
  · rw [← getLast?_eq_getElem?] at stored
    have ends := committed_end follows stored
    dsimp only
    rw [row_value wellFormed poly inside, at_last, ends, one_pow, sub_self, zero_mul]
  · rw [if_neg at_last, mul_zero]

include enough in
omit positive in
theorem link_zero {pair : PermutationEvaluated F × PermutationEvaluated F}
    (mem : pair ∈ ((rowSets inputs row polys).drop 1).zip (rowSets inputs row polys)) :
    permutationLink point.l0 pair.1 pair.2 = some 0 := by
  rcases mem_iff_getElem?.mp mem with ⟨c, found⟩
  have both := getElem?_zip_eq_some.mp found
  have later := both.1
  have before := both.2
  rw [getElem?_drop, evaluate_sets_get, map_eq_some_iff] at later
  rw [evaluate_sets_get, map_eq_some_iff] at before
  rcases later with ⟨next, inPolys, same_next⟩
  rcases before with ⟨poly, stored, same_poly⟩
  have more : c + 1 < polys.length := by
    have bound := (List.getElem?_eq_some_iff.mp inPolys).1
    omega
  rw [permutationLink, ← same_next, ← same_poly, if_pos more, map_some, challenges.l0]
  congr 1
  by_cases first : row = 0
  · have starts := (committed_start follows inPolys).2 c poly (Nat.add_comm 1 c) stored
    dsimp only
    rw [first] at inside ⊢
    rw [row_value wellFormed next inside,
      row_from_end_value wellFormed poly (Nat.succ_pos _) enough, starts, lastRow, sub_self,
      zero_mul]
  · rw [if_neg first, mul_zero]

theorem product_zero (nonzero : DenominatorsNonzero inputs entries) {evals : Point F}
    (row_evals : ∀ entry ∈ entries, columnEval evals entry.1 = entry.2.1.getD row 0)
    {item : ((PermutationEvaluated F × List AnyColumn) × List F) × Nat}
    (mem : item ∈ (((rowSets inputs row polys).zip
        (chunks size (entries.map Prod.fst))).zip
      (chunks size (entries.map fun entry => entry.2.2.getD row 0))).zipIdx) :
    permutationChunk point (point.beta * point.x * point.delta ^ (item.2 * size)) item.1.1.1
      (item.1.1.2.map (columnEval evals)) item.1.2 = 0 := by
  rw [mem_zipIdx_iff_getElem?] at mem
  have both := getElem?_zip_eq_some.mp mem
  have sets := getElem?_zip_eq_some.mp both.1
  have set_found := sets.1
  have columns_found := sets.2
  have labels_found := both.2
  rw [evaluate_sets_get, map_eq_some_iff] at set_found
  rcases set_found with ⟨poly, stored, same_set⟩
  rcases committed_get follows stored with ⟨start, chunk, inChunks, runs, _, _⟩
  rw [chunks_map, getElem?_map, inChunks, map_some, Option.some.injEq]
    at columns_found labels_found
  have chunk_entries : ∀ entry ∈ chunk, entry ∈ entries := fun entry =>
    mem_chunk positive (mem_of_getElem? inChunks)
  have columns_eq : item.1.1.2.map (columnEval evals) = chunk.map fun entry => entry.2.1.getD row 0 := by
    rw [← columns_found, map_map]
    exact map_congr_left fun entry inside => row_evals entry (chunk_entries entry inside)
  have eval : item.1.1.1.productEval = (smallValues inputs.domain poly).getD row 0 := by
    rw [← same_set]
    exact row_value wellFormed poly inside
  have next : row < lastRow inputs →
      item.1.1.1.productNextEval = (smallValues inputs.domain poly).getD (row + 1) 0 := by
    intro active
    rw [← same_set]
    have below : row + 1 < inputs.domain.n := by
      unfold lastRow at active
      omega
    exact next_row_value wellFormed poly below
  have here : point.beta * point.x * point.delta ^ (item.2 * size) =
      inputs.delta ^ (item.2 * size) * inputs.domain.omega ^ row * inputs.beta := by
    rw [challenges.beta, challenges.x, challenges.delta]
    ring
  rw [columns_eq, ← labels_found]
  exact permutation_chunk_zero runs challenges
    (fun entry inside => nonzero entry (chunk_entries entry inside)) here eval next

include enough in
theorem row_identities_zero {labels : List (List F)}
    (parts : EntryParts inputs tables columns values labels entries)
    (chunk_length : inputs.csDegree - 2 = size) (nonzero : DenominatorsNonzero inputs entries)
    {evals : Point F}
    (row_evals : columns.map (columnEval evals) = values.map fun column => column.getD row 0) :
    ∃ identities, permutationExpressions columns inputs.csDegree
        (labels.map fun labels => labels.getD row 0) evals point (rowSets inputs row polys) =
        some identities ∧
      ∀ identity ∈ identities, identity = 0 := by
  have links : (((rowSets inputs row polys).drop 1).zip (rowSets inputs row polys)).mapM
      (fun pair => permutationLink point.l0 pair.1 pair.2) = some _ :=
    map_m_of_forall _ fun _ mem =>
      link_zero wellFormed inside enough challenges follows mem
  have entry_evals : ∀ entry ∈ entries, columnEval evals entry.1 = entry.2.1.getD row 0 := by
    rw [← parts.columns, ← parts.values, map_map, map_map, map_inj_left] at row_evals
    exact row_evals
  have columns_eq := parts.columns
  have labels_eq : (labels.map fun labels => labels.getD row 0) =
      entries.map fun entry => entry.2.2.getD row 0 := by
    rw [← parts.labels, map_map]
    rfl
  rw [← columns_eq, labels_eq]
  simp only [permutationExpressions, chunk_length, links, some_bind, pure_some_iff, exists_eq_left']
  intro identity mem
  rw [mem_append, mem_append, mem_append] at mem
  rcases mem with ((first | last) | link) | product
  · rw [mem_toList, map_eq_some_iff] at first
    rcases first with ⟨set, head, rfl⟩
    exact first_identity_zero wellFormed inside challenges follows head
  · rw [mem_toList, map_eq_some_iff] at last
    rcases last with ⟨set, tail, rfl⟩
    exact last_identity_zero wellFormed inside challenges follows tail
  · rcases mem_map.mp link with ⟨pair, _, same⟩
    exact same.symm
  · rcases mem_map.mp product with ⟨item, inside_items, rfl⟩
    exact product_zero wellFormed inside challenges positive follows nonzero entry_evals
      inside_items

end Evaluated

omit [Field F] in
theorem chunk_count {labels : List (List F)} {entries : List (ColumnEntry F)} {size : Nat}
    (parts : EntryParts inputs tables columns values labels entries) :
    (chunks size entries).length = (chunks size columns).length := by
  rw [← parts.columns, chunks_map, length_map]

variable (inputs tables columns values successor) in
/-- The committed products: they start with 1, continue from set to set and end with 1, and all
identities are zero on every row. -/
structure Complete (polys : List (List F)) : Prop where
  committed : commit inputs tables columns
    (permutationValues inputs.domain inputs.delta successor) = some polys
  sets : polys.length = (chunks (inputs.csDegree - 2) columns).length
  starts : ∀ poly, polys[0]? = some poly → (smallValues inputs.domain poly).getD 0 0 = 1
  continues : ∀ c poly next, polys[c]? = some poly → polys[c + 1]? = some next →
    (smallValues inputs.domain next).getD 0 0 =
      (smallValues inputs.domain poly).getD (lastRow inputs) 0
  ends : ∀ poly, polys.getLast? = some poly →
    (smallValues inputs.domain poly).getD (lastRow inputs) 0 = 1
  identities : ∀ row < inputs.domain.n, ∀ (point : Challenges F) (evals : Point F),
    RowChallenges inputs row point →
    columns.map (columnEval evals) = values.map (fun column => column.getD row 0) →
    ∃ identities, permutationExpressions columns inputs.csDegree
        ((permutationValues inputs.domain inputs.delta successor).map fun labels =>
          labels.getD row 0) evals point (rowSets inputs row polys) = some identities ∧
      ∀ identity ∈ identities, identity = 0

theorem honest_denominators (honest : Honest inputs tables columns values successor) :
    DenominatorsNonzero inputs (columnEntries inputs columns values successor) := by
  intro entry mem row active
  rcases mem_iff_getElem?.mp mem with ⟨index, found⟩
  have both := getElem?_zip_eq_some.mp found
  have parts := getElem?_zip_eq_some.mp both.2
  have inColumns : index < columns.length := (List.getElem?_eq_some_iff.mp both.1).1
  have inRows : row < inputs.domain.n := by
    unfold lastRow at active
    omega
  let cell : Cell columns inputs.domain.n := (⟨index, inColumns⟩, ⟨row, inRows⟩)
  have label : entry.2.2.getD row 0 = cellLabel inputs (successor cell) := by
    have column : (permutationValues inputs.domain inputs.delta successor).getD index [] =
        entry.2.2 := by
      rw [getD_eq_getElem?_getD, parts.2, getD_some]
    rw [← column]
    exact label_get cell
  have value : entry.2.1.getD row 0 = cellValue values cell := by
    have column : values.getD index [] = entry.2.1 := by
      rw [getD_eq_getElem?_getD, parts.1, getD_some]
    rw [← column]
    rfl
  rw [label, value]
  exact honest.nonzero cell active

theorem commit_complete (honest : Honest inputs tables columns values successor) :
    ∃ polys, Complete inputs tables columns values successor polys := by
  have degree := honest.degree
  have parts := column_entry_parts honest
  have positive : 0 < inputs.csDegree - 2 := by omega
  rcases commit_follows honest with ⟨polys, committed, follows⟩
  have count : polys.length = (chunks (inputs.csDegree - 2) columns).length := by
    have lengths := follows_length follows
    rw [length_map, length_map] at lengths
    rw [lengths, chunk_count parts]
  exact ⟨polys, {
    committed := committed
    sets := count
    starts := fun poly stored => (committed_start follows stored).1 rfl
    continues := fun c poly next stored later =>
      (committed_start follows later).2 c poly rfl stored
    ends := fun poly stored => committed_end follows stored
    identities := by
      intro row inside point evals challenges row_evals
      exact row_identities_zero honest.wellFormed inside honest.rows challenges positive follows
        parts rfl (honest_denominators honest) row_evals }⟩

end Completeness

end Commit

/-! ### One copied pair of cells -/

def copyInputs (domain : EvaluationDomain (ZMod 13)) : CommitInputs (ZMod 13) where
  threads := 2
  domain := domain
  delta := ((2 : Nat) : ZMod 13)
  csDegree := 3
  blindingFactors := 2
  beta := 1
  gamma := 1
  random := fun drawn => drawn

def copyValues : List (List (ZMod 13)) :=
  ([[3, 4, 5, 6], [3, 8, 9, 10]] : List (List Nat)).map fun column => column.map Nat.cast

/-- The first cells of both columns are equal. -/
def copyTables : ColumnTables (ZMod 13) where
  advice := copyValues.take 1
  fixed := copyValues.drop 1
  instances := []

def topCell {n : Nat} (positive : 0 < n) (column : Fin 2) : Cell twoColumns n :=
  (column, ⟨0, positive⟩)

def copiedPair {n : Nat} (positive : 0 < n) : Perm (Cell twoColumns n) :=
  swap (topCell positive 0) (topCell positive 1)

theorem copied_pair_top {n : Nat} (positive : 0 < n) (column : Fin 2) :
    copiedPair positive (topCell positive column) = topCell positive column.rev := by
  fin_cases column
  · exact swap_apply_left _ _
  · exact swap_apply_right _ _

theorem copied_pair_below {n : Nat} (positive : 0 < n) {cell : Cell twoColumns n}
    (below : cell.2.val ≠ 0) : copiedPair positive cell = cell := by
  apply swap_apply_of_ne_of_ne
  · intro same
    rw [same] at below
    exact below rfl
  · intro same
    rw [same] at below
    exact below rfl

theorem top_cell_eq {n : Nat} (positive : 0 < n) {cell : Cell twoColumns n} (top : cell.2.val = 0) :
    ∃ column, cell = topCell positive column :=
  ⟨cell.1, Prod.ext rfl (Fin.ext top)⟩

section CopiedCells

variable {domain : EvaluationDomain (ZMod 13)} (positive : 0 < (copyInputs domain).domain.n)

theorem top_value (column : Fin 2) : cellValue copyValues (topCell positive column) = 3 := by
  fin_cases column
  · rfl
  · rfl

theorem top_label (column : Fin 2) :
    cellLabel (copyInputs domain) (topCell positive column) = 2 ^ column.val := by
  simp [cellLabel, topCell, copyInputs]

theorem copied_values_equal (cell : Cell twoColumns (copyInputs domain).domain.n) :
    cellValue copyValues (copiedPair positive cell) = cellValue copyValues cell := by
  by_cases top : cell.2.val = 0
  · rcases top_cell_eq positive top with ⟨column, rfl⟩
    rw [copied_pair_top, top_value, top_value]
  · rw [copied_pair_below positive top]

theorem copied_denominators {cell : Cell twoColumns (copyInputs domain).domain.n}
    (top : cell.2.val = 0) : (copyInputs domain).beta *
      cellLabel (copyInputs domain) (copiedPair positive cell) + (copyInputs domain).gamma +
        cellValue copyValues cell ≠ 0 := by
  rcases top_cell_eq positive top with ⟨column, rfl⟩
  rw [copied_pair_top, top_label, top_value]
  have all : ∀ column : Fin 2, (1 : ZMod 13) * 2 ^ column.rev.val + 1 + 3 ≠ 0 := by decide
  exact all column

end CopiedCells

theorem commit_complete_copy :
    ∃ domain, EvaluationDomain.new thirteenGroup true 2 2 = some domain ∧
      ∃ (positive : 0 < domain.n) (polys : List (List (ZMod 13))),
        Complete (copyInputs domain) copyTables twoColumns copyValues (copiedPair positive) polys := by
  rcases four_rows with ⟨domain, built, rows, -⟩
  have positive : 0 < domain.n := by omega
  have last : lastRow (copyInputs domain) = 1 := by
    have unfolded : lastRow (copyInputs domain) = domain.n - 3 := rfl
    omega
  have sizes : ∀ column ∈ copyValues, column.length = domain.n := by
    rw [rows]
    decide
  have honest : Honest (copyInputs domain) copyTables twoColumns copyValues (copiedPair positive) := {
    wellFormed := new_well_formed built
    threads := Nat.two_pos
    degree := Nat.le_refl 3
    rows := by
      have enough : 2 + 1 ≤ domain.n := by omega
      exact enough
    columns := rfl
    lengths := sizes
    blinding := by
      intro cell below
      rw [last] at below
      exact copied_pair_below positive (Nat.one_le_iff_ne_zero.mp below)
    equal := fun a b cycle => constant_on_cycles (copied_values_equal positive) cycle
    nonzero := by
      intro cell top
      rw [last, Nat.lt_one_iff] at top
      exact copied_denominators positive top }
  exact ⟨domain, built, positive, commit_complete honest⟩

end Midfall.PermutationProducts
