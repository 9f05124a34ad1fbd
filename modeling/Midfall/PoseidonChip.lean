import Midfall.PoseidonRoundSkips
import Midfall.ProofReadOrder

/-!
# The Poseidon chip

`poseidon_chip.rs` and `poseidon_cpu.rs`: the permutation with skipped rounds off
the circuit, the rows and gates of the permutation in the circuit, and the two
sponges. A row is the values of its cells; the constraints of a gate are the
values of its expressions on the row and the next one.
-/

namespace Midfall.PoseidonChip

open CircuitPrograms PoseidonRounds PoseidonRoundSkips List
open ProofReadOrder (chunks)

variable {F : Type} [Field F] {nbPartialRounds : Nat}
  (constants : PoseidonConstants F nbPartialRounds)

/-- `PreComputedRoundCPU` and `PreComputedRoundCircuit`. -/
structure PreComputedRound (F : Type) where
  roundConstants : List (List F)
  partialRoundId : RoundId F

variable (nbSkipsMax nbSkips : Nat)

def preComputedRound : PreComputedRound F :=
  let partialRoundId := RoundId.generate nbSkipsMax constants.mds nbSkips
  { partialRoundId := partialRoundId
    roundConstants := partialRoundId.roundConstantsOf constants }

def preComputedCircuit : Option (PreComputedRound F) :=
  if nbPartialRounds % (1 + nbSkips) ≠ 0 then none
  else if nbFullRounds % 2 ≠ 0 then none
  else some (preComputedRound constants nbSkipsMax nbSkips)

/-- The last columns of the skipped rows and the next state. -/
def partialRound (preComputed : PreComputedRound F) (roundBatchIndex : Nat) (state : List F) :
    List F × List F :=
  preComputed.partialRoundId.eval nbSkipsMax (preComputed.roundConstants.getD roundBatchIndex []) state

def permutationCpu (preComputed : PreComputedRound F) (state : List F) : List F :=
  let nbSkips := preComputed.partialRoundId.nbSkips
  let nbMainPartialRounds := nbPartialRounds / (1 + nbSkips)
  let remainderPartialRounds := nbPartialRounds % (1 + nbSkips)
  let started := addFirst constants state
  let opened := (range (nbFullRounds / 2)).foldl
    (fun state round => fullRoundCpu constants round state) started
  let main := (range nbMainPartialRounds).foldl
    (fun state batch => (partialRound nbSkipsMax preComputed batch state).2) opened
  let trailing := (range' (nbFullRounds / 2 + nbPartialRounds - remainderPartialRounds)
    remainderPartialRounds).foldl (fun state round => partialRoundCpuRaw constants round state) main
  (range' (nbFullRounds / 2 + nbPartialRounds) (nbFullRounds / 2)).foldl
    (fun state round => fullRoundCpu constants round state) trailing

section Permutation

variable {nbSkipsMax nbSkips} (skips : nbSkips ≤ nbSkipsMax)

theorem batch_constants {batch : Nat} (inside : batch < nbPartialRounds / (1 + nbSkips)) :
    (preComputedRound constants nbSkipsMax nbSkips).roundConstants.getD batch [] =
      (RoundId.generate nbSkipsMax constants.mds nbSkips).evalConstants constants
        (nbFullRounds / 2 + (1 + nbSkips) * batch) := by
  unfold preComputedRound RoundId.roundConstantsOf
  dsimp only
  rw [generate_skips, getD_eq_getElem _ _ (by rwa [length_map, length_range']),
    getElem_map, getElem_range']

variable {state : List F}

include skips in
theorem partial_round_eq (length : state.length = width) {batch : Nat}
    (inside : batch < nbPartialRounds / (1 + nbSkips)) :
    partialRound nbSkipsMax (preComputedRound constants nbSkipsMax nbSkips) batch state =
      ((range nbSkips).map fun row => (partialStates constants
          (nbFullRounds / 2 + (1 + nbSkips) * batch) state (row + 1)).getD (width - 1) 0,
        partialStates constants (nbFullRounds / 2 + (1 + nbSkips) * batch) state (1 + nbSkips)) := by
  unfold partialRound
  rw [batch_constants constants inside]
  exact eval_eq constants skips _ length

include skips in
theorem batches_eq (length : state.length = width) {count : Nat}
    (within : count ≤ nbPartialRounds / (1 + nbSkips)) :
    (range count).foldl (fun state batch => (partialRound nbSkipsMax
      (preComputedRound constants nbSkipsMax nbSkips) batch state).2) state =
        partialStates constants (nbFullRounds / 2) state ((1 + nbSkips) * count) := by
  induction count with
  | zero => rfl
  | succ count ih =>
    have before := partial_states_length constants (nbFullRounds / 2) length
      ((1 + nbSkips) * count)
    rw [range_succ, foldl_append, ih (by omega), foldl_cons, foldl_nil,
      partial_round_eq constants skips before (by omega)]
    exact (partial_states_add constants _ _ _ _).trans (by rw [Nat.mul_succ])

theorem full_rounds_length (length : state.length = width) (rounds : List Nat) :
    (rounds.foldl (fun state round => fullRoundCpu constants round state) state).length = width := by
  induction rounds using List.reverseRecOn with
  | nil => exact length
  | append_singleton rounds round _ =>
    rw [foldl_append, foldl_cons, foldl_nil]
    exact full_round_length constants _ _

include skips in
theorem permutation_cpu_eq (length : state.length = width) :
    permutationCpu constants nbSkipsMax (preComputedRound constants nbSkipsMax nbSkips) state =
      permutationCpuRaw constants state := by
  have opened := full_rounds_length constants (add_first_length constants length)
    (range (nbFullRounds / 2))
  have whole := Nat.div_add_mod nbPartialRounds (1 + nbSkips)
  have start : nbFullRounds / 2 + nbPartialRounds - nbPartialRounds % (1 + nbSkips) =
      nbFullRounds / 2 + (1 + nbSkips) * (nbPartialRounds / (1 + nbSkips)) := by omega
  have skipped : (preComputedRound constants nbSkipsMax nbSkips).partialRoundId.nbSkips = nbSkips :=
    generate_skips constants nbSkipsMax nbSkips
  unfold permutationCpu permutationCpuRaw
  dsimp only
  rw [skipped, batches_eq constants skips opened le_rfl, start, fold_partial_rounds,
    fold_partial_rounds, partial_states_add, whole, range_eq_range']

end Permutation

def nbPoseidonAdviceCols (nbSkips : Nat) : Nat :=
  if width ≤ nbSkips then width + nbSkips else 2 * width

/-- `val + c - res`. -/
def parallelAddGate (inputs coeffs outputs : List F) : List F :=
  (range width).map fun i => inputs.getD i 0 + coeffs.getD i 0 - outputs.getD i 0

def linearLayerIds (inputs outputs roundConstants : List F) : List F :=
  (range width).map fun i =>
    (range width).foldl (fun id j => id + (constants.mds.getD i []).getD j 0 * inputs.getD j 0)
      (roundConstants.getD i 0 - outputs.getD i 0)

def fullRoundGate (inputs hints outputs roundConstants : List F) : List F :=
  ((range width).map fun i =>
    inputs.getD i 0 * (inputs.getD i 0 * inputs.getD i 0) - hints.getD i 0) ++
  linearLayerIds constants
    ((range width).map fun i => inputs.getD i 0 * inputs.getD i 0 * hints.getD i 0)
    outputs roundConstants

section Expressions

variable [DecidableEq F]

/-- Terms without a coefficient are left out. -/
def varIdToExpression (id : RoundVarId F) (vars : List F) : F :=
  let linear := ((id.varCoeffs.take (width - 1)).zip (vars.take (width - 1))).foldl
    (fun accu entry => if entry.1 = 0 then accu else accu + entry.1 * entry.2) 0
  ((id.varCoeffs.drop (width - 1)).zip (vars.drop (width - 1))).foldl
    (fun accu entry => if entry.1 = 0 then accu else accu + entry.1 * sbox entry.2) linear

def toExpression (id : RoundId F) (vars : List F) : List F :=
  id.used.map fun id => varIdToExpression id vars

/-- `inputs` are all advice columns, `outputs` the first columns of the next row. -/
def partialRoundGate (ids : RoundId F) (inputs outputs roundConstants : List F) : List F :=
  let constraints := toExpression ids inputs
  let nbSkips := ids.nbSkips
  ((range (width - 1)).map fun i =>
    roundConstants.getD i 0 - outputs.getD i 0 + constraints.getD i 0) ++
  ((range' (width - 1) nbSkips).map fun i =>
    roundConstants.getD i 0 - inputs.getD (i + 1) 0 + constraints.getD i 0) ++
  [roundConstants.getD (width + nbSkips - 1) 0 - outputs.getD (width - 1) 0 +
    constraints.getD (width + nbSkips - 1) 0]

end Expressions

section GateValues

theorem fold_terms (coeffs values : List F) (start : F) [DecidableEq F] :
    (coeffs.zip values).foldl (fun accu entry => if entry.1 = 0 then accu
      else accu + entry.1 * entry.2) start = start + dot coeffs values := by
  rw [← fold_products]
  congr 1
  funext accu entry
  split_ifs with zero
  · rw [zero, zero_mul, add_zero]
  · rfl

/-- The row with the powers of its last columns. -/
def powered (vars : List F) : List F := vars.take (width - 1) ++ (vars.drop (width - 1)).map sbox

theorem powered_length (vars : List F) : (powered vars).length = vars.length := by
  rw [powered, length_append, length_map, ← length_append, take_append_drop]

theorem powered_linear (vars : List F) {i : Nat} (inside : i < width - 1) :
    (powered vars).getD i 0 = vars.getD i 0 := by
  unfold powered
  by_cases within : i < vars.length
  · rw [getD_append _ _ _ _ (by rw [length_take]; omega), getD_eq_getElem?_getD,
      getElem?_take_of_lt inside, ← getD_eq_getElem?_getD]
  · rw [drop_eq_nil_of_le (by omega), take_of_length_le (by omega), map_nil, append_nil]

theorem powered_power {vars : List F} {row : Nat} (inside : width - 1 + row < vars.length) :
    (powered vars).getD (width - 1 + row) 0 = sbox (vars.getD (width - 1 + row) 0) := by
  have taken : (vars.take (width - 1)).length = width - 1 := by
    rw [length_take]
    omega
  have place : width - 1 + row - (width - 1) = row := by omega
  unfold powered
  rw [getD_append_right _ _ _ _ (by omega), taken, place, getD_eq_getElem _ _ inside,
    getD_eq_getElem _ _ (by rw [length_map, length_drop]; omega), getElem_map, getElem_drop]

theorem dot_append {first second : List F} (firstValues secondValues : List F)
    (same : first.length = firstValues.length) : dot (first ++ second) (firstValues ++ secondValues) =
      dot first firstValues + dot second secondValues := by
  unfold dot
  rw [zipWith_append same, sum_append]

theorem var_id_to_expression_eq [DecidableEq F] {nbSkipsMax : Nat} {id : RoundVarId F}
    (sized : RoundVarId.Sized nbSkipsMax id) {vars : List F} (length : width ≤ vars.length) :
    varIdToExpression id vars = dot id.varCoeffs (powered vars) := by
  have same : (id.varCoeffs.take (width - 1)).length = (vars.take (width - 1)).length := by
    rw [length_take, length_take, sized.vars]
    omega
  have powers : ∀ (coeffs values : List F) (start : F),
      (coeffs.zip values).foldl (fun accu entry => if entry.1 = 0 then accu
        else accu + entry.1 * sbox entry.2) start = start + dot coeffs (values.map sbox) := by
    intro coeffs values start
    rw [← fold_terms, zip_map_right, foldl_map]
    rfl
  unfold varIdToExpression
  dsimp only
  rw [powers, fold_terms, zero_add, powered, ← dot_append _ _ same, take_append_drop]

end GateValues

section Gates

variable [DecidableEq F] {nbSkipsMax nbSkips : Nat} (skips : nbSkips ≤ nbSkipsMax)

include skips in
theorem constraint_value (round : Nat) {inputs : List F} (length : width ≤ inputs.length) {i : Nat}
    (inside : i < width + nbSkips) :
    ((RoundId.generate nbSkipsMax constants.mds nbSkips).evalConstants constants round).getD i 0 +
        (toExpression (RoundId.generate nbSkipsMax constants.mds nbSkips) inputs).getD i 0 =
      ((RoundId.generate nbSkipsMax constants.mds nbSkips).idAt nbSkipsMax
        (if i < width - 1 then i else i + 1)).value (powered inputs)
          (rowConstants constants round nbSkips) := by
  have varsLength : width ≤ (powered inputs).length := by rwa [powered_length]
  have sized := (generate_generated constants varsLength [] skips).sized (if i < width - 1 then i else i + 1)
  unfold toExpression
  rw [eval_constants_get constants skips round inside, used_get constants skips _ _ inside,
    var_id_to_expression_eq sized length, RoundVarId.evalConstants, fold_products, zero_add,
    RoundVarId.value, rowConstants, add_comm]

omit [DecidableEq F] in
theorem difference_zero_iff (constant output constraint : F) :
    constant - output + constraint = 0 ↔ output = constant + constraint := by
  constructor
  · intro zero
    calc output = output + (constant - output + constraint) := by rw [zero, add_zero]
      _ = constant + constraint := by ring
  · intro same
    rw [same]
    ring

variable {inputs outputs : List F}

include skips in
theorem partial_gate_values (round : Nat) (length : width + nbSkips ≤ inputs.length) :
    (∀ constraint ∈ partialRoundGate (RoundId.generate nbSkipsMax constants.mds nbSkips) inputs
        outputs ((RoundId.generate nbSkipsMax constants.mds nbSkips).evalConstants constants round),
      constraint = 0) ↔
    (∀ i < width - 1, outputs.getD i 0 = (linearStates constants (powered inputs)
      (rowConstants constants round nbSkips) (1 + nbSkips)).getD i 0) ∧
    (∀ row < nbSkips, inputs.getD (width + row) 0 = (linearStates constants (powered inputs)
      (rowConstants constants round nbSkips) (row + 1)).getD (width - 1) 0) ∧
    outputs.getD (width - 1) 0 = (linearStates constants (powered inputs)
      (rowConstants constants round nbSkips) (1 + nbSkips)).getD (width - 1) 0 := by
  have pos : 0 < width := by decide
  have inputsLength : width ≤ inputs.length := by omega
  have varsLength : width ≤ (powered inputs).length := by rwa [powered_length]
  have value := fun i => @constraint_value F _ nbPartialRounds constants _ nbSkipsMax nbSkips skips
    round inputs inputsLength i
  have linear := (generate_generated constants varsLength
    (rowConstants constants round nbSkips) skips).linear
  have last := fun row => @row_value F _ nbPartialRounds constants nbSkipsMax nbSkips skips round
    (powered inputs) varsLength row
  unfold partialRoundGate
  rw [generate_skips]
  dsimp only
  simp only [forall_mem_append, forall_mem_map, forall_mem_singleton,
    mem_range, mem_range'_1, difference_zero_iff, and_assoc]
  have firsts : ∀ i < width - 1, ((RoundId.generate nbSkipsMax constants.mds nbSkips).evalConstants
      constants round).getD i 0 + (toExpression (RoundId.generate nbSkipsMax constants.mds nbSkips)
        inputs).getD i 0 = (linearStates constants (powered inputs)
          (rowConstants constants round nbSkips) (1 + nbSkips)).getD i 0 := by
    intro i inside
    rw [value i (by omega), if_pos inside, linear i inside]
  have lasts : ∀ row ≤ nbSkips, ((RoundId.generate nbSkipsMax constants.mds nbSkips).evalConstants
      constants round).getD (width - 1 + row) 0 + (toExpression
        (RoundId.generate nbSkipsMax constants.mds nbSkips) inputs).getD (width - 1 + row) 0 =
          (linearStates constants (powered inputs) (rowConstants constants round nbSkips)
            (row + 1)).getD (width - 1) 0 := by
    intro row inside
    have place : width - 1 + row + 1 = width + row := by omega
    rw [value _ (by omega), if_neg (by omega), place, last row inside]
  have lastPlace : width + nbSkips - 1 = width - 1 + nbSkips := by omega
  rw [lastPlace, lasts nbSkips le_rfl, Nat.add_comm nbSkips 1]
  refine and_congr ?_ (and_congr ?_ Iff.rfl)
  · exact forall₂_congr fun i inside => by rw [firsts i inside]
  · constructor
    · intro holds row inside
      have place : width - 1 + row + 1 = width + row := by omega
      have here := holds (width - 1 + row) ⟨by omega, by omega⟩
      rwa [lasts row inside.le, place] at here
    · intro holds i within
      have row : i = width - 1 + (i - (width - 1)) := by omega
      have place : i + 1 = width + (i - (width - 1)) := by omega
      rw [place, row, lasts _ (by omega), ← row]
      exact holds _ (by omega)

include skips in
theorem partial_gate_iff (round : Nat) (length : width + nbSkips ≤ inputs.length)
    (outputsLength : outputs.length = width) :
    (∀ constraint ∈ partialRoundGate (RoundId.generate nbSkipsMax constants.mds nbSkips) inputs
        outputs ((RoundId.generate nbSkipsMax constants.mds nbSkips).evalConstants constants round),
      constraint = 0) ↔
    outputs = partialStates constants round (inputs.take width) (1 + nbSkips) ∧
    ∀ row < nbSkips, inputs.getD (width + row) 0 =
      (partialStates constants round (inputs.take width) (row + 1)).getD (width - 1) 0 := by
  have pos : 0 < width := by decide
  have stateLength : (inputs.take width).length = width := by
    rw [length_take]
    omega
  have varsLength : width ≤ (powered inputs).length := by
    rw [powered_length]
    omega
  have first : ∀ j < width, (inputs.take width).getD j 0 = inputs.getD j 0 := by
    intro j inside
    rw [getD_eq_getElem?_getD, getElem?_take_of_lt inside, ← getD_eq_getElem?_getD]
  have plain : ∀ count ≤ nbSkips, (∀ row < count, inputs.getD (width + row) 0 =
      (partialStates constants round (inputs.take width) (row + 1)).getD (width - 1) 0) →
        linearStates constants (powered inputs) (rowConstants constants round nbSkips) (count + 1) =
          partialStates constants round (inputs.take width) (count + 1) := by
    intro count within columns
    have follows : Follows constants round (inputs.take width) (powered inputs) (count + 1) := by
      refine ⟨?_, ?_⟩
      · intro j inside
        rw [powered_linear inputs inside, first j (by omega)]
      · intro row below
        rw [powered_power (by omega)]
        cases row with
        | zero =>
          rw [Nat.add_zero, partialStates, first (width - 1) (by omega)]
        | succ row =>
          have place : width - 1 + (row + 1) = width + row := by omega
          rw [place, columns row (by omega)]
    exact (linear_states_plain constants nbSkips stateLength varsLength follows
      (by omega)).2 (Nat.succ_pos count)
  rw [partial_gate_values constants skips round length, Nat.add_comm 1 nbSkips]
  constructor
  · rintro ⟨linear, columns, last⟩
    have plainColumns : ∀ count ≤ nbSkips, ∀ row < count, inputs.getD (width + row) 0 =
        (partialStates constants round (inputs.take width) (row + 1)).getD (width - 1) 0 := by
      intro count within
      induction count with
      | zero => exact fun row none => absurd none (Nat.not_lt_zero row)
      | succ count ih =>
        intro row below
        by_cases earlier : row < count
        · exact ih (by omega) row earlier
        · have same : row = count := by omega
          rw [columns row (by omega), same, plain count (by omega) (ih (by omega))]
    rw [plain nbSkips le_rfl (plainColumns nbSkips le_rfl)] at linear last
    refine ⟨?_, plainColumns nbSkips le_rfl⟩
    apply ext_getElem
    · rw [outputsLength, partial_states_length constants round stateLength]
    · intro i inside second
      rw [← getD_eq_getElem _ 0 inside, ← getD_eq_getElem _ 0 second]
      by_cases below : i < width - 1
      · exact linear i below
      · have same : i = width - 1 := by omega
        rw [same]
        exact last
  · rintro ⟨rfl, columns⟩
    rw [plain nbSkips le_rfl columns]
    refine ⟨fun _ _ => rfl, ?_, rfl⟩
    intro row below
    rw [columns row below, plain row below.le fun other earlier => columns other (by omega)]

end Gates

end Midfall.PoseidonChip
