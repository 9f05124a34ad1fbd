import Midfall.PoseidonChip

/-!
# The Poseidon sponges

The permutation of the chip row by row, and the sponge calls off the circuit and
in the circuit.
-/

namespace Midfall.PoseidonSponge

open CircuitPrograms PoseidonRounds PoseidonRoundSkips List
open PoseidonChip
open ProofReadOrder (chunks)

variable {F : Type} [Field F] [DecidableEq F] {nbPartialRounds : Nat}
  (constants : PoseidonConstants F nbPartialRounds)

/-- A row with further cells of its own and the cells of the next row. -/
def gateRow (columns outputs : List F) (gate : List F → List F → List F) : Circuit (List F) := do
  let columns ← columns.mapM assign
  let outputs ← outputs.mapM assign
  constrain (∀ constraint ∈ gate columns outputs, constraint = 0)
  return outputs

def addConstantsInRegion (inputs : List F) : Circuit (List F) :=
  gateRow [] (addFirst constants inputs) fun _ outputs =>
    parallelAddGate inputs (constantsAt constants 0) outputs

def constantsFull (roundIndex : Nat) : List F :=
  if roundIndex = nbFullRounds + nbPartialRounds - 1 then replicate width 0
  else constantsAt constants (roundIndex + 1)

def fullRound (inputs : List F) (roundIndex : Nat) : Circuit (List F) :=
  gateRow (inputs.map fun x => x * (x * x)) (fullRoundCpu constants roundIndex inputs)
    fun hints outputs => fullRoundGate constants inputs hints outputs
      (constantsFull constants roundIndex)

/-- Columns without a cell of this row are free. -/
def partialRoundRow (nbSkipsMax nbSkips : Nat) (preComputed : PreComputedRound F) (inputs : List F)
    (roundBatchIndex : Nat) : Circuit (List F) :=
  let evaluated := partialRound nbSkipsMax preComputed roundBatchIndex inputs
  gateRow (evaluated.1 ++ replicate (nbPoseidonAdviceCols nbSkips - (width + nbSkips)) 0)
    evaluated.2 fun columns outputs =>
      partialRoundGate preComputed.partialRoundId (inputs ++ columns) outputs
        (preComputed.roundConstants.getD roundBatchIndex [])

def permutation (nbSkipsMax nbSkips : Nat) (preComputed : PreComputedRound F) (inputs : List F) :
    Circuit (List F) := do
  let started ← addConstantsInRegion constants inputs
  let opened ← (range (nbFullRounds / 2)).foldlM (fullRound constants) started
  let middle ← (range (nbPartialRounds / (1 + nbSkips))).foldlM
    (partialRoundRow nbSkipsMax nbSkips preComputed) opened
  (range' (nbFullRounds / 2 + nbPartialRounds) (nbFullRounds / 2)).foldlM (fullRound constants)
    middle

section Rows

omit [Field F] [DecidableEq F] in
theorem assign_many_allows (hints results : List F) :
    (hints.mapM assign).allows results ↔ results.length = hints.length := by
  rw [loop_allows]
  constructor
  · exact fun all => all.length_eq.symm
  · intro same
    exact forall₂_iff_zip.mpr ⟨same.symm, fun _ => trivial⟩

omit [Field F] [DecidableEq F] in
theorem satisfies_assign_many (hints : List F) : Satisfies (hints.mapM assign) hints := by
  have loop := @satisfies_loop F F assign id hints fun input _ => satisfies_assign input
  rwa [map_id] at loop

theorem computes_gate_row {columnHints outputHints : List F} {gate : List F → List F → List F}
    (holds : ∀ constraint ∈ gate columnHints outputHints, constraint = 0)
    (forced : ∀ columns outputs : List F, columns.length = columnHints.length →
      outputs.length = outputHints.length →
        (∀ constraint ∈ gate columns outputs, constraint = 0) → outputs = outputHints) :
    Computes (gateRow columnHints outputHints gate) outputHints := by
  apply Satisfies.computes
  · apply (satisfies_assign_many columnHints).bind
    apply (satisfies_assign_many outputHints).bind
    exact (computes_constrain holds).satisfies.bind (satisfies_pure outputHints)
  · rintro result ⟨columns, columnsAllowed, outputs, outputsAllowed, _, gateHolds, same⟩
    rw [assign_many_allows] at columnsAllowed outputsAllowed
    rw [pure_allows] at same
    rw [same]
    exact forced columns outputs columnsAllowed outputsAllowed gateHolds

omit [DecidableEq F] in
theorem map_get (image : F → F) {entries : List F} {j : Nat} (inside : j < entries.length) :
    (entries.map image).getD j 0 = image (entries.getD j 0) := by
  have mapped : j < (entries.map image).length := by rwa [length_map]
  rw [getD_eq_getElem _ _ mapped, getElem_map, getD_eq_getElem _ _ inside]

omit [DecidableEq F] in
theorem eq_of_columns {first second : List F} (firstLength : first.length = width)
    (secondLength : second.length = width)
    (same : ∀ i < width, first.getD i 0 = second.getD i 0) : first = second := by
  apply ext_getElem (firstLength.trans secondLength.symm)
  intro i inFirst inSecond
  rw [← getD_eq_getElem _ 0 inFirst, ← getD_eq_getElem _ 0 inSecond]
  exact same i (by omega)

theorem computes_add_constants {inputs : List F} (length : inputs.length = width) :
    Computes (addConstantsInRegion constants inputs) (addFirst constants inputs) := by
  have coeffsLength := constants_at_length constants 0
  have sum : ∀ i < width, (addFirst constants inputs).getD i 0 =
      inputs.getD i 0 + (constantsAt constants 0).getD i 0 := by
    intro i inside
    have within : i < (addFirst constants inputs).length :=
      (add_first_length constants length).symm ▸ inside
    rw [getD_eq_getElem _ _ within, getD_eq_getElem _ _ (by omega), getD_eq_getElem _ _ (by omega)]
    exact getElem_zipWith
  apply computes_gate_row
  · simp only [parallelAddGate, forall_mem_map, mem_range]
    intro i inside
    rw [sum i inside, sub_self]
  · intro _ outputs _ outputsLength gate
    simp only [parallelAddGate, forall_mem_map, mem_range] at gate
    rw [add_first_length constants length] at outputsLength
    refine eq_of_columns outputsLength (add_first_length constants length) fun i inside => ?_
    rw [sum i inside]
    exact (sub_eq_zero.mp (gate i inside)).symm

omit [DecidableEq F] in
theorem linear_layer_ids_iff {inputs outputs roundConstants : List F}
    (constantsLength : roundConstants.length = width) (outputsLength : outputs.length = width) :
    (∀ id ∈ linearLayerIds constants inputs outputs roundConstants, id = 0) ↔
      outputs = linearLayer constants inputs roundConstants := by
  have loop : ∀ (row : List F) (start : F) (count : Nat), (range count).foldl
      (fun id j => id + row.getD j 0 * inputs.getD j 0) start =
        start + ∑ j ∈ Finset.range count, row.getD j 0 * inputs.getD j 0 := by
    intro row start count
    induction count with
    | zero => exact (add_zero start).symm
    | succ count ih =>
      rw [range_succ, foldl_append, foldl_cons, foldl_nil, ih, Finset.sum_range_succ, add_assoc]
  have value : ∀ i < width, ∑ j ∈ Finset.range width,
      (constants.mds.getD i []).getD j 0 * inputs.getD j 0 = dot (constants.mds.getD i []) inputs := by
    intro i inside
    have rowLength : (constants.mds.getD i []).length = width := by
      rw [getD_eq_getElem _ _ (constants.mds_length.symm ▸ inside)]
      exact constants.mds_rows _ (getElem_mem _)
    rw [dot_eq_sum, rowLength]
  simp only [linearLayerIds, forall_mem_map, mem_range, loop]
  constructor
  · intro zero
    refine eq_of_columns outputsLength (linear_layer_length constants constantsLength)
      fun i inside => ?_
    rw [linear_layer_get constants constantsLength inside, ← value i inside]
    exact (difference_zero_iff _ _ _).mp (zero i inside)
  · intro same i inside
    rw [difference_zero_iff, value i inside, same, linear_layer_get constants constantsLength inside]

omit [DecidableEq F] in
theorem constants_full_length (roundIndex : Nat) :
    (constantsFull constants roundIndex).length = width := by
  unfold constantsFull
  split_ifs
  · exact length_replicate
  · exact constants_at_length constants _

omit [DecidableEq F] in
theorem full_round_cpu_eq (roundIndex : Nat) (state : List F) :
    fullRoundCpu constants roundIndex state = linearLayer constants
      (state.map fun x => x * x * (x * x) * x) (constantsFull constants roundIndex) := rfl

theorem computes_full_round {inputs : List F} (length : inputs.length = width) (roundIndex : Nat) :
    Computes (fullRound constants inputs roundIndex) (fullRoundCpu constants roundIndex inputs) := by
  have cubes : ∀ hints : List F, (∀ i < width, hints.getD i 0 =
      inputs.getD i 0 * (inputs.getD i 0 * inputs.getD i 0)) →
        linearLayer constants ((range width).map fun i =>
          inputs.getD i 0 * inputs.getD i 0 * hints.getD i 0) (constantsFull constants roundIndex) =
        fullRoundCpu constants roundIndex inputs := by
    intro hints cube
    rw [full_round_cpu_eq]
    apply linear_layer_congr
    intro j inside
    have within : j < inputs.length := length.symm ▸ inside
    rw [map_range_get (fun i => inputs.getD i 0 * inputs.getD i 0 * hints.getD i 0) 0 inside,
      cube j inside, map_get _ within]
    ring
  have cubed : ∀ i < width, (inputs.map fun x => x * (x * x)).getD i 0 =
      inputs.getD i 0 * (inputs.getD i 0 * inputs.getD i 0) := by
    intro i inside
    exact map_get (fun x => x * (x * x)) (length.symm ▸ inside)
  have outputsLength := full_round_length constants roundIndex inputs
  apply computes_gate_row
  · rw [fullRoundGate, forall_mem_append]
    refine ⟨?_, ?_⟩
    · simp only [forall_mem_map, mem_range]
      intro i inside
      rw [cubed i inside, sub_self]
    · exact (linear_layer_ids_iff constants (constants_full_length constants roundIndex)
        outputsLength).mpr (cubes _ cubed).symm
  · intro hints outputs _ sameLength gate
    rw [fullRoundGate, forall_mem_append] at gate
    rcases gate with ⟨hintsHold, linear⟩
    simp only [forall_mem_map, mem_range] at hintsHold
    have cube : ∀ i < width, hints.getD i 0 =
        inputs.getD i 0 * (inputs.getD i 0 * inputs.getD i 0) :=
      fun i inside => (sub_eq_zero.mp (hintsHold i inside)).symm
    rw [← cubes hints cube]
    exact (linear_layer_ids_iff constants (constants_full_length constants roundIndex)
      (sameLength.trans outputsLength)).mp linear

end Rows

section Region

variable {nbSkipsMax nbSkips : Nat} (skips : nbSkips ≤ nbSkipsMax)

include skips in
theorem computes_partial_round {inputs : List F} (length : inputs.length = width) {batch : Nat}
    (inside : batch < nbPartialRounds / (1 + nbSkips)) :
    Computes (partialRoundRow nbSkipsMax nbSkips (preComputedRound constants nbSkipsMax nbSkips) inputs
        batch)
      (partialRound nbSkipsMax (preComputedRound constants nbSkipsMax nbSkips) batch inputs).2 := by
  have evaluated := partial_round_eq constants skips length inside
  have taken : ∀ columns : List F, (inputs ++ columns).take width = inputs :=
    fun columns => take_left' length
  have outputsLength := partial_states_length constants
    (nbFullRounds / 2 + (1 + nbSkips) * batch) length (1 + nbSkips)
  unfold partialRoundRow
  dsimp only
  rw [evaluated, batch_constants constants inside]
  apply computes_gate_row
  · refine (partial_gate_iff constants skips _ ?_ outputsLength).mpr ⟨?_, ?_⟩
    · rw [length_append, length_append, length_map, length_range]
      omega
    · rw [taken]
    · intro row below
      have place : width + row - inputs.length = row := by omega
      rw [taken, getD_append_right _ _ _ _ (by omega), place,
        getD_append _ _ _ _ (by rwa [length_map, length_range]), map_range_get _ _ below]
  · intro columns outputs columnsLength sameLength gate
    have wide : width + nbSkips ≤ (inputs ++ columns).length := by
      rw [length_append, length, columnsLength, length_append, length_map, length_range]
      omega
    have plain := (partial_gate_iff constants skips _ wide (sameLength.trans outputsLength)).mp gate
    rw [taken] at plain
    exact plain.1

include skips in
theorem computes_permutation (whole : nbPartialRounds % (1 + nbSkips) = 0) {inputs : List F}
    (length : inputs.length = width) :
    Computes (permutation constants nbSkipsMax nbSkips (preComputedRound constants nbSkipsMax nbSkips)
      inputs) (permutationCpuRaw constants inputs) := by
  have fullRounds : ∀ (rounds : List Nat) {state : List F}, state.length = width →
      Computes (rounds.foldlM (fullRound constants) state)
        (rounds.foldl (fun state round => fullRoundCpu constants round state) state) := by
    intro rounds state stateLength
    exact @computes_fold _ _ _ _ (fun state => state.length = width) (fun _ => True)
      (fun state round holds _ => ⟨computes_full_round constants holds round,
        full_round_length constants round state⟩) rounds (fun _ _ => trivial) _ stateLength
  have started := add_first_length constants length
  have opened := full_rounds_length constants started (range (nbFullRounds / 2))
  have batchLength : ∀ state : List F, ∀ batch, state.length = width →
      batch < nbPartialRounds / (1 + nbSkips) → (partialRound nbSkipsMax
        (preComputedRound constants nbSkipsMax nbSkips) batch state).2.length = width := by
    intro state batch holds inside
    rw [partial_round_eq constants skips holds inside]
    exact partial_states_length constants _ holds _
  have middle := @computes_fold _ _
    (partialRoundRow nbSkipsMax nbSkips (preComputedRound constants nbSkipsMax nbSkips)) _
    (fun state => state.length = width) (fun batch => batch < nbPartialRounds / (1 + nbSkips))
    (fun state batch holds inside =>
      ⟨computes_partial_round constants skips holds inside, batchLength state batch holds inside⟩)
    (range (nbPartialRounds / (1 + nbSkips))) (fun batch => mem_range.mp) _ opened
  have main := batches_eq constants skips opened le_rfl
  have rounds := Nat.div_add_mod nbPartialRounds (1 + nbSkips)
  rw [whole, Nat.add_zero] at rounds
  rw [main, rounds] at middle
  have raw : permutationCpuRaw constants inputs = (range' (nbFullRounds / 2 + nbPartialRounds)
      (nbFullRounds / 2)).foldl (fun state round => fullRoundCpu constants round state)
        (partialStates constants (nbFullRounds / 2) ((range (nbFullRounds / 2)).foldl
          (fun state round => fullRoundCpu constants round state) (addFirst constants inputs))
            nbPartialRounds) := by
    unfold permutationCpuRaw
    dsimp only
    rw [fold_partial_rounds, range_eq_range']
  rw [raw]
  apply (computes_add_constants constants length).bind
  apply (fullRounds _ started).bind
  apply middle.bind
  exact fullRounds _ (partial_states_length constants _ opened _)

end Region

/-- `PoseidonState` without its precomputed rounds, and `AssignedPoseidonState`. -/
structure PoseidonState (F : Type) where
  register : List F
  queue : List F
  squeezePosition : Nat
  inputLen : Option Nat

inductive SpongeCall (F : Type) where
  | init (inputLen : Option Nat)
  | absorb (inputs : List F)
  | squeeze

def absorb {Cell : Type} (state : PoseidonState Cell) (inputs : List Cell) : PoseidonState Cell :=
  { state with queue := state.queue ++ inputs, squeezePosition := 0 }

/-- The capacity of the register: the input length, or `1 << 64`. -/
def capacity (inputLen : Option Nat) : F := ((inputLen.getD (1 <<< 64) : Nat) : F)

section Cpu

variable (nbSkipsMax : Nat) (preComputed : PreComputedRound F)

omit [DecidableEq F] in
def initCpu (inputLen : Option Nat) : PoseidonState F where
  register := (replicate width 0).set rate (capacity inputLen)
  queue := []
  squeezePosition := 0
  inputLen := inputLen

/-- The queue with its padding; a fixed length is checked. -/
def paddedCpu (state : PoseidonState F) : Option (List F) :=
  match state.inputLen with
  | none => some (state.queue ++ [(state.queue.length : F)])
  | some len => if state.queue.length ≠ len then none else some state.queue

def squeezeCpu (state : PoseidonState F) : Option (F × PoseidonState F) :=
  if 0 < state.squeezePosition then
    if state.inputLen.isSome then none
    else some (state.register.getD (state.squeezePosition % rate) 0,
      { state with squeezePosition := (state.squeezePosition + 1) % rate })
  else do
    let queue ← paddedCpu state
    let register := (chunks rate queue).foldl (fun register chunk =>
      permutationCpu constants nbSkipsMax preComputed (absorbChunk register chunk)) state.register
    return (register.getD 0 0,
      { state with register := register, queue := [], squeezePosition := 1 % rate })

/-- The squeezed outputs; some calls panic. -/
def runCpu : PoseidonState F → List (SpongeCall F) → Option (List F)
  | _, [] => some []
  | _, .init inputLen :: calls => runCpu (initCpu inputLen) calls
  | state, .absorb inputs :: calls => runCpu (absorb state inputs) calls
  | state, .squeeze :: calls => do
    let squeezed ← squeezeCpu constants nbSkipsMax preComputed state
    let outputs ← runCpu squeezed.2 calls
    return squeezed.1 :: outputs

end Cpu

section Chip

variable (nbSkipsMax nbSkips : Nat) (preComputed : PreComputedRound F)

def assignFixed (constant : F) : Circuit F := do
  let x ← assign constant
  constrain (x = constant)
  return x

/-- `add` of the native chip is a linear combination. -/
def linearCombination (terms : List (F × F)) (constant : F) : Circuit F := do
  let result ← assign (constant + (terms.map fun term => term.1 * term.2).sum)
  constrain (constant + (terms.map fun term => term.1 * term.2).sum - result = 0)
  return result

def add (x y : F) : Circuit F := linearCombination [(1, x), (1, y)] 0

def initChip (inputLen : Option Nat) : Circuit (PoseidonState F) := do
  let zero ← assignFixed 0
  let length ← assignFixed (capacity inputLen)
  return { register := (replicate width zero).set rate length
           queue := []
           squeezePosition := 0
           inputLen := inputLen }

def paddedChip (state : PoseidonState F) : Circuit (List F) :=
  match state.inputLen with
  | none => do
    let padding ← assignFixed (state.queue.length : F)
    return state.queue ++ [padding]
  | some len => if state.queue.length ≠ len then panic else return state.queue

def squeezeChip (state : PoseidonState F) : Circuit (F × PoseidonState F) :=
  if 0 < state.squeezePosition then
    if state.inputLen.isSome then panic
    else return (state.register.getD (state.squeezePosition % rate) 0,
      { state with squeezePosition := (state.squeezePosition + 1) % rate })
  else do
    let queue ← paddedChip state
    let register ← (chunks rate queue).foldlM (fun register chunk => do
      let sums ← addChunk add register chunk
      permutation constants nbSkipsMax nbSkips preComputed sums) state.register
    return (register.getD 0 0,
      { state with register := register, queue := [], squeezePosition := 1 % rate })

def runChip : PoseidonState F → List (SpongeCall F) → Circuit (List F)
  | _, [] => return []
  | _, .init inputLen :: calls => do
    let state ← initChip inputLen
    runChip state calls
  | state, .absorb inputs :: calls => runChip (absorb state inputs) calls
  | state, .squeeze :: calls => do
    let squeezed ← squeezeChip constants nbSkipsMax nbSkips preComputed state
    let outputs ← runChip squeezed.2 calls
    return squeezed.1 :: outputs

end Chip

/-- The circuit pins what the program returns, and stops where it panics. -/
def Agrees {Value : Type} (circuit : Circuit Value) (returned : Option Value) : Prop :=
  match returned with
  | some value => Computes circuit value
  | none => circuit.honest = none ∧ ∀ result, ¬circuit.allows result

section Agreement

theorem Computes.agrees {Value : Type} {circuit : Circuit Value} {value : Value}
    (computes : Computes circuit value) : Agrees circuit (some value) := computes

theorem Agrees.bind {Value Result : Type} {first : Circuit Value} {next : Value → Circuit Result}
    {returned : Option Value} {rest : Value → Option Result} (agrees : Agrees first returned)
    (later : ∀ value, returned = some value → Agrees (next value) (rest value)) :
    Agrees (first >>= next) (returned >>= rest) := by
  cases returned with
  | none =>
    refine ⟨stops_first agrees.1, ?_⟩
    rintro result ⟨value, allowed, -⟩
    exact agrees.2 value allowed
  | some value =>
    have firstComputes : Computes first value := agrees
    have nextAgrees := later value rfl
    show Agrees _ (rest value)
    cases outcome : rest value with
    | some result =>
      rw [outcome] at nextAgrees
      exact firstComputes.bind nextAgrees
    | none =>
      rw [outcome] at nextAgrees
      refine ⟨?_, ?_⟩
      · show first.honest.bind _ = none
        rw [firstComputes.honest]
        exact nextAgrees.1
      · rintro result ⟨other, allowed, rest⟩
        rw [firstComputes.allows] at allowed
        subst allowed
        exact nextAgrees.2 result rest

omit [Field F] in
theorem computes_assign_fixed (constant : F) : Computes (assignFixed constant) constant := by
  apply computes_assign
  · exact (computes_constrain rfl).bind (computes_pure constant)
  · rintro x other ⟨_, same, -⟩
    exact same

theorem computes_add (x y : F) : Computes (add x y) (x + y) := by
  have sum : (0 : F) + ([(1, x), (1, y)].map fun term => term.1 * term.2).sum = x + y := by simp
  unfold add linearCombination
  rw [sum]
  apply computes_assign
  · exact (computes_constrain (sub_self _)).bind (computes_pure _)
  · rintro result other ⟨_, holds, -⟩
    exact (sub_eq_zero.mp holds).symm

theorem computes_init (inputLen : Option Nat) :
    Computes (initChip inputLen) (initCpu inputLen : PoseidonState F) :=
  (computes_assign_fixed 0).bind ((computes_assign_fixed _).bind (computes_pure _))

theorem padded_agrees (state : PoseidonState F) : Agrees (paddedChip state) (paddedCpu state) := by
  unfold paddedChip paddedCpu
  cases state.inputLen with
  | none => exact (computes_assign_fixed _).bind (computes_pure _)
  | some len =>
    dsimp only
    split_ifs
    · exact ⟨rfl, fun _ => id⟩
    · exact computes_pure _

variable {nbSkipsMax nbSkipsCpu nbSkipsCircuit : Nat} (cpu : nbSkipsCpu ≤ nbSkipsMax)
  (circuit : nbSkipsCircuit ≤ nbSkipsMax) (whole : nbPartialRounds % (1 + nbSkipsCircuit) = 0)

include cpu circuit whole in
theorem computes_absorb_chunks {register : List F} (length : register.length = width)
    (groups : List (List F)) :
    Computes (groups.foldlM (fun register chunk => do
        let sums ← addChunk add register chunk
        permutation constants nbSkipsMax nbSkipsCircuit
          (preComputedRound constants nbSkipsMax nbSkipsCircuit) sums) register)
      (groups.foldl (fun register chunk => permutationCpu constants nbSkipsMax
        (preComputedRound constants nbSkipsMax nbSkipsCpu) (absorbChunk register chunk)) register) ∧
    (groups.foldl (fun register chunk => permutationCpu constants nbSkipsMax
        (preComputedRound constants nbSkipsMax nbSkipsCpu)
          (absorbChunk register chunk)) register).length = width := by
  induction groups generalizing register with
  | nil => exact ⟨computes_pure register, length⟩
  | cons chunk groups ih =>
    have sums := (absorb_chunk_length register chunk).trans length
    have plain := permutation_cpu_eq constants cpu sums
    have next := (permutation_raw_length constants (absorbChunk register chunk))
    rw [foldlM_cons, foldl_cons, plain]
    have rest := ih next
    refine ⟨?_, rest.2⟩
    exact ((computes_add_chunk computes_add register chunk).bind
      (computes_permutation constants circuit whole sums)).bind rest.1

include cpu circuit whole in
theorem squeeze_agrees {state : PoseidonState F} (length : state.register.length = width) :
    Agrees (squeezeChip constants nbSkipsMax nbSkipsCircuit
        (preComputedRound constants nbSkipsMax nbSkipsCircuit) state)
      (squeezeCpu constants nbSkipsMax (preComputedRound constants nbSkipsMax nbSkipsCpu) state) ∧
    ∀ output next, squeezeCpu constants nbSkipsMax
      (preComputedRound constants nbSkipsMax nbSkipsCpu) state = some (output, next) →
        next.register.length = width := by
  unfold squeezeChip squeezeCpu
  by_cases squeezed : 0 < state.squeezePosition
  · rw [if_pos squeezed, if_pos squeezed]
    by_cases fixed : state.inputLen.isSome = true
    · rw [if_pos fixed, if_pos fixed]
      exact ⟨⟨rfl, fun _ => id⟩, fun _ _ none => by cases none⟩
    · rw [if_neg fixed, if_neg fixed]
      refine ⟨computes_pure _, ?_⟩
      intro output next same
      cases same
      exact length
  · rw [if_neg squeezed, if_neg squeezed]
    have absorbed := fun queue => computes_absorb_chunks constants cpu circuit whole length
      (chunks rate queue)
    constructor
    · apply (padded_agrees state).bind
      intro queue _
      exact (absorbed queue).1.bind (computes_pure _)
    · intro output next returned
      cases padded : paddedCpu state with
      | none =>
        rw [padded] at returned
        cases returned
      | some queue =>
        rw [padded] at returned
        cases returned
        exact (absorbed queue).2

include cpu circuit whole in
theorem run_agrees {state : PoseidonState F} (length : state.register.length = width)
    (calls : List (SpongeCall F)) :
    Agrees (runChip constants nbSkipsMax nbSkipsCircuit
        (preComputedRound constants nbSkipsMax nbSkipsCircuit) state calls)
      (runCpu constants nbSkipsMax (preComputedRound constants nbSkipsMax nbSkipsCpu) state
        calls) := by
  induction calls generalizing state with
  | nil => exact computes_pure []
  | cons call calls ih =>
    cases call with
    | init inputLen =>
      have started : (initCpu inputLen : PoseidonState F).register.length = width :=
        length_set.trans length_replicate
      show Agrees (initChip inputLen >>= fun state => runChip constants nbSkipsMax nbSkipsCircuit
          (preComputedRound constants nbSkipsMax nbSkipsCircuit) state calls)
        (some (initCpu inputLen) >>= fun state => runCpu constants nbSkipsMax
          (preComputedRound constants nbSkipsMax nbSkipsCpu) state calls)
      apply (Computes.agrees (computes_init inputLen)).bind
      intro next same
      cases same
      exact ih started
    | absorb inputs => exact ih length
    | squeeze =>
      have squeezed := squeeze_agrees constants cpu circuit whole length
      apply squeezed.1.bind
      rintro ⟨output, next⟩ returned
      apply (ih (squeezed.2 output next returned)).bind
      exact fun outputs _ => computes_pure (output :: outputs)

def GateExact (preComputed : PreComputedRound F) (nbSkips batch : Nat) : Prop :=
  let round := nbFullRounds / 2 + (1 + nbSkips) * batch
  ∀ inputs outputs : List F, inputs.length = nbPoseidonAdviceCols nbSkips → outputs.length = width →
    ((∀ constraint ∈ partialRoundGate preComputed.partialRoundId inputs outputs
        (preComputed.roundConstants.getD batch []), constraint = 0) ↔
      outputs = partialStates constants round (inputs.take width) (1 + nbSkips) ∧
      ∀ row < nbSkips, inputs.getD (width + row) 0 =
        (partialStates constants round (inputs.take width) (row + 1)).getD (width - 1) 0)

theorem gate_exact {nbSkips batch : Nat} (skips : nbSkips ≤ nbSkipsMax)
    (inside : batch < nbPartialRounds / (1 + nbSkips)) :
    GateExact constants (preComputedRound constants nbSkipsMax nbSkips) nbSkips batch := by
  intro inputs outputs columns outputsLength
  rw [batch_constants constants inside]
  refine partial_gate_iff constants skips _ ?_ outputsLength
  rw [columns]
  unfold nbPoseidonAdviceCols
  split_ifs <;> omega

/-- The permutations, the gate and the sponges, for any split that the chip accepts. -/
theorem round_skipping_exact (nbSkipsCpu nbSkipsCircuit : Nat) :
    (∀ state : List F, state.length = width →
      permutationCpu constants (max nbSkipsCpu nbSkipsCircuit)
        (preComputedRound constants (max nbSkipsCpu nbSkipsCircuit) nbSkipsCpu) state =
          permutationCpuRaw constants state) ∧
    (∀ batch < nbPartialRounds / (1 + nbSkipsCircuit),
      GateExact constants (preComputedRound constants (max nbSkipsCpu nbSkipsCircuit) nbSkipsCircuit)
        nbSkipsCircuit batch) ∧
    ∀ chip, preComputedCircuit constants (max nbSkipsCpu nbSkipsCircuit) nbSkipsCircuit = some chip →
      ∀ inputLen calls, Agrees
        (initChip inputLen >>= fun state =>
          runChip constants (max nbSkipsCpu nbSkipsCircuit) nbSkipsCircuit chip state calls)
        (runCpu constants (max nbSkipsCpu nbSkipsCircuit)
          (preComputedRound constants (max nbSkipsCpu nbSkipsCircuit) nbSkipsCpu) (initCpu inputLen)
          calls) := by
  have cpuSkips : nbSkipsCpu ≤ max nbSkipsCpu nbSkipsCircuit := le_max_left _ _
  have circuitSkips : nbSkipsCircuit ≤ max nbSkipsCpu nbSkipsCircuit := le_max_right _ _
  generalize max nbSkipsCpu nbSkipsCircuit = nbSkipsMax at cpuSkips circuitSkips
  refine ⟨fun state length => permutation_cpu_eq constants cpuSkips length,
    fun batch inside => gate_exact constants circuitSkips inside, ?_⟩
  intro chip configured inputLen calls
  unfold preComputedCircuit at configured
  split_ifs at configured with uneven
  cases configured
  have started : (initCpu inputLen : PoseidonState F).register.length = width :=
    length_set.trans length_replicate
  show Agrees _ (some (initCpu inputLen) >>= fun state => runCpu constants nbSkipsMax
    (preComputedRound constants nbSkipsMax nbSkipsCpu) state calls)
  apply (Computes.agrees (computes_init inputLen)).bind
  intro next same
  cases same
  exact run_agrees constants cpuSkips circuitSkips (not_not.mp uneven) started calls

end Agreement

end Midfall.PoseidonSponge
