import Midfall.CircuitPrograms

/-!
# Poseidon rounds with any split

The rounds of Poseidon over a field with its own matrix, constants and number of
partial rounds, round by round, and the chunks that a sponge adds to its register.
-/

namespace Midfall.PoseidonRounds

open CircuitPrograms List

def width : Nat := 3

def rate : Nat := 2

def nbFullRounds : Nat := 8

section Dot

variable {F : Type} [Field F]

def dot (coeffs values : List F) : F := (zipWith (· * ·) coeffs values).sum

theorem dot_cons (coeff value : F) (coeffs values : List F) :
    dot (coeff :: coeffs) (value :: values) = coeff * value + dot coeffs values := rfl

theorem dot_replicate_zero (count : Nat) (values : List F) :
    dot (replicate count 0) values = 0 := by
  induction count generalizing values with
  | zero => rfl
  | succ count ih =>
    cases values with
    | nil => rfl
    | cons value values =>
      rw [replicate_succ, dot_cons, ih, zero_mul, zero_add]

theorem dot_unit {count place : Nat} (inside : place < count) (values : List F) :
    dot ((replicate count 0).set place 1) values = values.getD place 0 := by
  induction count generalizing place values with
  | zero => exact absurd inside (Nat.not_lt_zero place)
  | succ count ih =>
    cases values with
    | nil => simp [dot]
    | cons value values =>
      cases place with
      | zero =>
        rw [replicate_succ, set_cons_zero, dot_cons, dot_replicate_zero, one_mul,
          add_zero, getD_cons_zero]
      | succ place =>
        rw [replicate_succ, set_cons_succ, dot_cons, zero_mul, zero_add,
          ih (Nat.lt_of_succ_lt_succ inside), getD_cons_succ]

theorem dot_add_and_mul {first second : List F} (same : first.length = second.length) (c : F)
    (values : List F) : dot (zipWith (fun a b => a + b * c) first second) values =
      dot first values + dot second values * c := by
  induction first generalizing second values with
  | nil =>
    have empty := length_eq_zero_iff.mp same.symm
    subst empty
    simp [dot]
  | cons a first ih =>
    cases second with
    | nil => cases same
    | cons b second =>
      cases values with
      | nil => simp [dot]
      | cons value values =>
        rw [zipWith_cons_cons, dot_cons, dot_cons, dot_cons, ih (Nat.succ.inj same)]
        ring

theorem dot_eq_sum (coeffs values : List F) : dot coeffs values =
    ∑ i ∈ Finset.range coeffs.length, coeffs.getD i 0 * values.getD i 0 := by
  induction coeffs generalizing values with
  | nil => rfl
  | cons coeff coeffs ih =>
    rw [length_cons, Finset.sum_range_succ']
    cases values with
    | nil => simp [dot]
    | cons value values =>
      rw [dot_cons, ih values, add_comm]
      simp only [getD_cons_succ, getD_cons_zero]

theorem dot_congr {first second : List F} (coeffs : List F)
    (same : ∀ i < coeffs.length, first.getD i 0 = second.getD i 0) :
    dot coeffs first = dot coeffs second := by
  rw [dot_eq_sum, dot_eq_sum]
  exact Finset.sum_congr rfl fun i mem => by rw [same i (Finset.mem_range.mp mem)]

theorem fold_products (coeffs values : List F) (start : F) :
    (coeffs.zip values).foldl (fun accu entry => accu + entry.1 * entry.2) start =
      start + dot coeffs values := by
  induction coeffs generalizing values start with
  | nil => exact (add_zero start).symm
  | cons coeff coeffs ih =>
    cases values with
    | nil => exact (add_zero start).symm
    | cons value values =>
      rw [zip_cons_cons, foldl_cons, ih, dot_cons, add_assoc]

end Dot

/-- The matrix and the round constants, for any number of partial rounds. -/
structure PoseidonConstants (F : Type) (nbPartialRounds : Nat) where
  mds : List (List F)
  roundConstants : List (List F)
  mds_length : mds.length = width
  mds_rows : ∀ row ∈ mds, row.length = width
  rounds : roundConstants.length = nbFullRounds + nbPartialRounds
  rows : ∀ constants ∈ roundConstants, constants.length = width

variable {F : Type} [Field F] {nbPartialRounds : Nat}
  (constants : PoseidonConstants F nbPartialRounds)

/-- `F::ROUND_CONSTANTS[round]`. -/
def constantsAt (round : Nat) : List F :=
  constants.roundConstants.getD round (replicate width 0)

def linearLayer (state roundConstants : List F) : List F :=
  zipWith (fun row constant => constant + dot row state) constants.mds roundConstants

def fullRoundCpu (roundIndex : Nat) (state : List F) : List F :=
  let powers := state.map fun x => x * x * (x * x) * x
  let newState := if roundIndex = nbFullRounds + nbPartialRounds - 1 then replicate width 0
    else constantsAt constants (roundIndex + 1)
  linearLayer constants powers newState

def partialRoundCpuRaw (round : Nat) (state : List F) : List F :=
  linearLayer constants (state.modify (width - 1) fun x => x * (x * x * (x * x)))
    (constantsAt constants (round + 1))

def addFirst (state : List F) : List F := zipWith (· + ·) state (constantsAt constants 0)

def permutationCpuRaw (state : List F) : List F :=
  let started := addFirst constants state
  let opened := (range' 0 (nbFullRounds / 2)).foldl
    (fun state round => fullRoundCpu constants round state) started
  let middle := (range' (nbFullRounds / 2) nbPartialRounds).foldl
    (fun state round => partialRoundCpuRaw constants round state) opened
  (range' (nbFullRounds / 2 + nbPartialRounds) (nbFullRounds / 2)).foldl
    (fun state round => fullRoundCpu constants round state) middle

theorem constants_at_length (round : Nat) : (constantsAt constants round).length = width := by
  unfold constantsAt
  rw [getD_eq_getElem?_getD]
  cases found : constants.roundConstants[round]? with
  | none => exact length_replicate
  | some row => exact constants.rows row (mem_of_getElem? found)

theorem linear_layer_length {state roundConstants : List F} (length : roundConstants.length = width) :
    (linearLayer constants state roundConstants).length = width := by
  rw [linearLayer, length_zipWith, constants.mds_length, length, Nat.min_self]

theorem linear_layer_get {state roundConstants : List F} (length : roundConstants.length = width)
    {i : Nat} (inside : i < width) : (linearLayer constants state roundConstants).getD i 0 =
      roundConstants.getD i 0 + dot (constants.mds.getD i []) state := by
  have inMds : i < constants.mds.length := constants.mds_length.symm ▸ inside
  have inConstants : i < roundConstants.length := length.symm ▸ inside
  have inResult : i < (linearLayer constants state roundConstants).length :=
    (linear_layer_length constants length).symm ▸ inside
  rw [getD_eq_getElem _ _ inResult, getD_eq_getElem _ _ inMds, getD_eq_getElem _ _ inConstants]
  exact getElem_zipWith

theorem linear_layer_congr {first second : List F}
    (same : ∀ j < width, first.getD j 0 = second.getD j 0) (roundConstants : List F) :
    linearLayer constants first roundConstants = linearLayer constants second roundConstants := by
  have rows : ∀ row ∈ constants.mds, dot row first = dot row second := by
    intro row mem
    apply dot_congr
    rw [constants.mds_rows row mem]
    exact same
  unfold linearLayer
  generalize constants.mds = mds at rows
  induction mds generalizing roundConstants with
  | nil => rfl
  | cons row mds ih =>
    cases roundConstants with
    | nil => rfl
    | cons constant roundConstants =>
      rw [zipWith_cons_cons, zipWith_cons_cons, rows row mem_cons_self,
        ih roundConstants (forall_mem_cons.mp rows).2]

theorem full_round_length (roundIndex : Nat) (state : List F) :
    (fullRoundCpu constants roundIndex state).length = width := by
  apply linear_layer_length
  split_ifs
  · exact length_replicate
  · exact constants_at_length constants _

theorem partial_round_length (round : Nat) (state : List F) :
    (partialRoundCpuRaw constants round state).length = width :=
  linear_layer_length constants (constants_at_length constants _)

theorem add_first_length {state : List F} (length : state.length = width) :
    (addFirst constants state).length = width := by
  rw [addFirst, length_zipWith, length, constants_at_length, Nat.min_self]

/-- The states of the partial rounds from `round` on. -/
def partialStates (round : Nat) (state : List F) : Nat → List F
  | 0 => state
  | count + 1 => partialRoundCpuRaw constants (round + count) (partialStates round state count)

theorem partial_states_length (round : Nat) {state : List F} (length : state.length = width)
    (count : Nat) : (partialStates constants round state count).length = width := by
  cases count with
  | zero => exact length
  | succ count => exact partial_round_length constants _ _

theorem fold_partial_rounds (round : Nat) (state : List F) (count : Nat) :
    (range' round count).foldl (fun state round => partialRoundCpuRaw constants round state)
      state = partialStates constants round state count := by
  induction count with
  | zero => rfl
  | succ count ih =>
    rw [range'_1_concat, foldl_append, ih]
    rfl

theorem partial_states_add (round : Nat) (state : List F) (first second : Nat) :
    partialStates constants (round + first) (partialStates constants round state first) second =
      partialStates constants round state (first + second) := by
  induction second with
  | zero => rfl
  | succ second ih =>
    rw [partialStates, ih, ← Nat.add_assoc, partialStates, Nat.add_assoc round first second]

theorem permutation_raw_length (state : List F) :
    (permutationCpuRaw constants state).length = width := by
  have last : range' (nbFullRounds / 2 + nbPartialRounds) (nbFullRounds / 2) =
      range' (nbFullRounds / 2 + nbPartialRounds) 3 ++
        [nbFullRounds / 2 + nbPartialRounds + 3] := by
    rw [← range'_1_concat]
    rfl
  unfold permutationCpuRaw
  dsimp only
  rw [last, foldl_append, foldl_cons, foldl_nil]
  exact full_round_length constants _ _

/-! ### Chunks -/

section Chunks

variable {F : Type}

/-- `for (entry, value) in register.iter_mut().zip(chunk)`. -/
def absorbChunk [Add F] : List F → List F → List F
  | entry :: register, value :: chunk => (entry + value) :: absorbChunk register chunk
  | register, [] => register
  | [], _ => []

/-- The same with the addition of a chip. -/
def addChunk (add : F → F → Circuit F) : List F → List F → Circuit (List F)
  | entry :: register, value :: chunk => do
    let sum ← add entry value
    let rest ← addChunk add register chunk
    return sum :: rest
  | register, [] => return register
  | [], _ => return []

variable [Add F]

theorem computes_add_chunk {add : F → F → Circuit F} (adds : ∀ x y, Computes (add x y) (x + y))
    (register chunk : List F) :
    Computes (addChunk add register chunk) (absorbChunk register chunk) := by
  induction register generalizing chunk with
  | nil => cases chunk <;> exact computes_pure []
  | cons entry register ih =>
    cases chunk with
    | nil => exact computes_pure _
    | cons value chunk => exact (adds entry value).bind ((ih chunk).bind (computes_pure _))

theorem absorb_chunk_length (register chunk : List F) :
    (absorbChunk register chunk).length = register.length := by
  induction register generalizing chunk with
  | nil => cases chunk <;> rfl
  | cons entry register ih =>
    cases chunk with
    | nil => rfl
    | cons value chunk => rw [absorbChunk, length_cons, length_cons, ih]

end Chunks

end Midfall.PoseidonRounds
