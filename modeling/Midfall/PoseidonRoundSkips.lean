import Midfall.PoseidonRounds

/-!
# Skipped partial rounds

`round_skips.rs`: several partial rounds are one linear combination of the first
columns, of the powers of the last column in each round and of the round
constants. The combinations are generated symbolically and then evaluated.
-/

namespace Midfall.PoseidonRoundSkips

open PoseidonRounds List

variable {F : Type} [Field F]

/-! ### Linear combinations -/

structure RoundVarId (F : Type) where
  varCoeffs : List F
  constCoeffs : List F

/-- All round identities of the partial rounds of one row. -/
structure RoundId (F : Type) where
  nbSkips : Nat
  ids : List (RoundVarId F)

namespace RoundVarId

/-- Adds `c * rhs`. -/
def addAndMul (id rhs : RoundVarId F) (c : F) : RoundVarId F where
  varCoeffs := zipWith (fun a b => a + b * c) id.varCoeffs rhs.varCoeffs
  constCoeffs := zipWith (fun a b => a + b * c) id.constCoeffs rhs.constCoeffs

def init (nbSkipsMax : Nat) : RoundVarId F where
  varCoeffs := replicate (width + nbSkipsMax) 0
  constCoeffs := replicate (width * (1 + nbSkipsMax)) 0

def fromVarIndex (nbSkipsMax place : Nat) : RoundVarId F :=
  { init nbSkipsMax with varCoeffs := (init nbSkipsMax).varCoeffs.set place 1 }

def fromConstantIndex (nbSkipsMax roundOffset column : Nat) : RoundVarId F :=
  { init nbSkipsMax with
    constCoeffs := (init nbSkipsMax).constCoeffs.set (roundOffset * width + column) 1 }

def evalConstants (id : RoundVarId F) (instances : List (List F)) : F :=
  (id.constCoeffs.zip instances.flatten).foldl (fun accu entry => accu + entry.1 * entry.2) 0

/-- The variables that are not linear have been exponentiated. -/
def evalVars (id : RoundVarId F) (instances : List F) (constant : F) : F :=
  (id.varCoeffs.zip instances).foldl (fun accu entry => accu + entry.1 * entry.2) constant

end RoundVarId

/-! ### Generation -/

namespace RoundId

variable (nbSkipsMax : Nat)

def init (nbSkips : Nat) : RoundId F where
  nbSkips := nbSkips
  ids := (range (width + 1 + nbSkipsMax)).map fun i =>
    if i < width then RoundVarId.fromVarIndex nbSkipsMax i else RoundVarId.init nbSkipsMax

def idAt (id : RoundId F) (i : Nat) : RoundVarId F := id.ids.getD i (RoundVarId.init nbSkipsMax)

/-- The identities of a row: the linear ones and the power of its last column. -/
def rowId (id : RoundId F) (row : Nat) : List (RoundVarId F) :=
  (range width).map fun i =>
    if i = width - 1 then RoundVarId.fromVarIndex nbSkipsMax (width - 1 + row)
    else id.idAt nbSkipsMax i

/-- The identity of one column after the linear layer. -/
def mixed (mds : List (List F)) (currentRow : List (RoundVarId F)) (roundOffset i : Nat) :
    RoundVarId F :=
  (range width).foldl (fun sum j => sum.addAndMul (currentRow.getD j (RoundVarId.init nbSkipsMax))
    ((mds.getD i []).getD j 0)) (RoundVarId.fromConstantIndex nbSkipsMax roundOffset i)

def updateRow (mds : List (List F)) (id : RoundId F) (roundOffset : Nat) : RoundId F :=
  let currentRow := id.rowId nbSkipsMax roundOffset
  let linear := (range (width - 1)).foldl
    (fun ids i => ids.set i (mixed nbSkipsMax mds currentRow roundOffset i)) id.ids
  { id with
    ids := linear.set (width + roundOffset) (mixed nbSkipsMax mds currentRow roundOffset (width - 1)) }

def generate (mds : List (List F)) (nbSkips : Nat) : RoundId F :=
  (range (1 + nbSkips)).foldl (updateRow nbSkipsMax mds) (init nbSkipsMax nbSkips)

/-- `self.ids[..WIDTH - 1]` and `self.ids[WIDTH..]`. -/
def used (id : RoundId F) : List (RoundVarId F) := id.ids.take (width - 1) ++ id.ids.drop width

variable {nbPartialRounds : Nat} (constants : PoseidonConstants F nbPartialRounds)

/-- `arg` has `WIDTH + self.nb_skips` entries. -/
def evalConstants (id : RoundId F) (round : Nat) : List F :=
  let instances := (constants.roundConstants.drop (round + 1)).take (1 + id.nbSkips)
  (id.used.map fun id => id.evalConstants instances).take (width + id.nbSkips)

/-- One skipped round: the last column and its power. -/
def evalStep (id : RoundId F) (roundConstants : List F) (state : List F × List F) (i : Nat) :
    List F × List F :=
  let next := (id.idAt nbSkipsMax (width + i)).evalVars state.2 (roundConstants.getD (width - 1 + i) 0)
  (state.1.set i next, state.2.set (width + i) (next * next * (next * next) * next))

/-- The last columns of the skipped rows and the output. -/
def eval (id : RoundId F) (roundConstants instances : List F) : List F × List F :=
  let instances := instances.modify (width - 1) fun x => x * (x * x * (x * x))
  let state := (range id.nbSkips).foldl (id.evalStep nbSkipsMax roundConstants)
    (replicate id.nbSkips 0, instances ++ replicate id.nbSkips 0)
  let linear := (range (width - 1)).map fun i =>
    (id.idAt nbSkipsMax i).evalVars state.2 (roundConstants.getD i 0)
  let last := (id.idAt nbSkipsMax (width + id.nbSkips)).evalVars state.2
    (roundConstants.getD (width + id.nbSkips - 1) 0)
  (state.1, linear ++ [last])

/-- `(NB_FULL_ROUNDS / 2..).take(..).step_by(1 + NB_SKIPS)`. -/
def roundConstantsOf (id : RoundId F) : List (List F) :=
  (range' (nbFullRounds / 2) (nbPartialRounds / (1 + id.nbSkips)) (1 + id.nbSkips)).map
    (id.evalConstants constants)

end RoundId

/-! ### Values of combinations -/

namespace RoundVarId

def value (id : RoundVarId F) (vars consts : List F) : F :=
  dot id.varCoeffs vars + dot id.constCoeffs consts

structure Sized (nbSkipsMax : Nat) (id : RoundVarId F) : Prop where
  vars : id.varCoeffs.length = width + nbSkipsMax
  consts : id.constCoeffs.length = width * (1 + nbSkipsMax)

theorem init_sized (nbSkipsMax : Nat) : Sized nbSkipsMax (init nbSkipsMax : RoundVarId F) where
  vars := length_replicate
  consts := length_replicate

theorem var_index_sized (nbSkipsMax place : Nat) :
    Sized nbSkipsMax (fromVarIndex nbSkipsMax place : RoundVarId F) where
  vars := length_set.trans length_replicate
  consts := length_replicate

theorem constant_index_sized (nbSkipsMax roundOffset column : Nat) :
    Sized nbSkipsMax (fromConstantIndex nbSkipsMax roundOffset column : RoundVarId F) where
  vars := length_replicate
  consts := length_set.trans length_replicate

theorem Sized.addAndMul {nbSkipsMax : Nat} {id rhs : RoundVarId F} (sized : Sized nbSkipsMax id)
    (rhsSized : Sized nbSkipsMax rhs) (c : F) : Sized nbSkipsMax (id.addAndMul rhs c) where
  vars := by
    show (zipWith _ _ _).length = _
    rw [length_zipWith, sized.vars, rhsSized.vars, Nat.min_self]
  consts := by
    show (zipWith _ _ _).length = _
    rw [length_zipWith, sized.consts, rhsSized.consts, Nat.min_self]

section Values

variable {nbSkipsMax : Nat} (vars consts : List F)

theorem value_var_index {place : Nat} (inside : place < width + nbSkipsMax) :
    (fromVarIndex nbSkipsMax place : RoundVarId F).value vars consts = vars.getD place 0 := by
  show dot ((replicate _ 0).set place 1) vars + dot (replicate _ 0) consts = _
  rw [dot_unit inside, dot_replicate_zero, add_zero]

theorem value_constant_index {roundOffset column : Nat}
    (inside : roundOffset * width + column < width * (1 + nbSkipsMax)) :
    (fromConstantIndex nbSkipsMax roundOffset column : RoundVarId F).value vars consts =
      consts.getD (roundOffset * width + column) 0 := by
  show dot (replicate _ 0) vars + dot ((replicate _ 0).set _ 1) consts = _
  rw [dot_unit inside, dot_replicate_zero, zero_add]

theorem value_add_and_mul {id rhs : RoundVarId F} (sized : Sized nbSkipsMax id)
    (rhsSized : Sized nbSkipsMax rhs) (c : F) :
    (id.addAndMul rhs c).value vars consts = id.value vars consts + rhs.value vars consts * c := by
  unfold value addAndMul
  rw [dot_add_and_mul (sized.vars.trans rhsSized.vars.symm),
    dot_add_and_mul (sized.consts.trans rhsSized.consts.symm)]
  ring

end Values

theorem eval_value (id : RoundVarId F) (instances : List (List F)) (vars : List F) :
    id.evalVars vars (id.evalConstants instances) = id.value vars instances.flatten := by
  unfold evalVars evalConstants value
  rw [fold_products, fold_products, zero_add, add_comm]

end RoundVarId

/-! ### What the generated identities say -/

section Generate

variable {nbPartialRounds : Nat} (constants : PoseidonConstants F nbPartialRounds)

/-- The states of rounds whose last columns are given with their powers. -/
def linearStates (vars consts : List F) : Nat → List F
  | 0 => vars
  | count + 1 => linearLayer constants
      ((linearStates vars consts count).take (width - 1) ++ [vars.getD (width - 1 + count) 0])
      ((range width).map fun i => consts.getD (count * width + i) 0)

theorem linear_states_length {vars : List F} (length : width ≤ vars.length) (consts : List F)
    (count : Nat) : width ≤ (linearStates constants vars consts count).length := by
  cases count with
  | zero => exact length
  | succ count =>
    have row : ((range width).map fun i => consts.getD (count * width + i) 0).length =
        width := by rw [length_map, length_range]
    exact (linear_layer_length constants row).ge

variable {Entry : Type}

theorem map_range_get (entry : Nat → Entry) (other : Entry) {count i : Nat} (inside : i < count) :
    ((range count).map entry).getD i other = entry i := by
  rw [getD_eq_getElem _ _ (by rwa [length_map, length_range]), getElem_map, getElem_range]

theorem row_get {state : List F} (length : width ≤ state.length) (last : F) (i : Nat)
    (inside : i < width) : (state.take (width - 1) ++ [last]).getD i 0 =
      if i = width - 1 then last else state.getD i 0 := by
  have taken : (state.take (width - 1)).length = width - 1 := by
    rw [length_take]
    omega
  by_cases same : i = width - 1
  · rw [if_pos same, getD_append_right _ _ _ _ (by omega), taken, same, Nat.sub_self]
    rfl
  · have below : i < width - 1 := by omega
    rw [if_neg same, getD_append _ _ _ _ (by omega), getD_eq_getElem?_getD,
      getElem?_take_of_lt below, ← getD_eq_getElem?_getD]

theorem fold_set_length (entry : Nat → Entry) (entries : List Entry) (count : Nat) :
    ((range count).foldl (fun entries i => entries.set i (entry i)) entries).length =
      entries.length := by
  induction count with
  | zero => rfl
  | succ count ih =>
    rw [range_succ, foldl_append, foldl_cons, foldl_nil, length_set, ih]

theorem fold_set (entry : Nat → Entry) (entries : List Entry) {count : Nat}
    (inside : count ≤ entries.length) (j : Nat) :
    ((range count).foldl (fun entries i => entries.set i (entry i)) entries)[j]? =
      if j < count then some (entry j) else entries[j]? := by
  induction count with
  | zero => rfl
  | succ count ih =>
    rw [range_succ, foldl_append, foldl_cons, foldl_nil]
    by_cases same : count = j
    · subst same
      rw [if_pos (Nat.lt_succ_self count), getElem?_set_self]
      rw [fold_set_length]
      exact inside
    · rw [getElem?_set_ne same, ih (by omega)]
      by_cases below : j < count
      · rw [if_pos below, if_pos (by omega)]
      · rw [if_neg below, if_neg (by omega)]

variable {nbSkipsMax : Nat}

variable {currentRow : List (RoundVarId F)}

section

variable (sized : ∀ j, RoundVarId.Sized nbSkipsMax (currentRow.getD j (RoundVarId.init nbSkipsMax)))

include sized

theorem mixed_sized (mds : List (List F)) (roundOffset i : Nat) :
    RoundVarId.Sized nbSkipsMax (RoundId.mixed nbSkipsMax mds currentRow roundOffset i) := by
  unfold RoundId.mixed
  induction range width using List.reverseRecOn with
  | nil => exact RoundVarId.constant_index_sized _ _ _
  | append_singleton js j ih =>
    rw [foldl_append, foldl_cons, foldl_nil]
    exact ih.addAndMul (sized j) _

theorem mixed_value {roundOffset i : Nat} (inside : i < width) (offset : roundOffset ≤ nbSkipsMax)
    (vars consts : List F) {row : List F}
    (values : ∀ j < width, (currentRow.getD j (RoundVarId.init nbSkipsMax)).value vars consts =
      row.getD j 0) :
    (RoundId.mixed nbSkipsMax constants.mds currentRow roundOffset i).value vars consts =
      consts.getD (roundOffset * width + i) 0 + dot (constants.mds.getD i []) row := by
  have rowLength : (constants.mds.getD i []).length = width := by
    rw [getD_eq_getElem _ _ (constants.mds_length.symm ▸ inside)]
    exact constants.mds_rows _ (getElem_mem _)
  have place : roundOffset * width + i < width * (1 + nbSkipsMax) := by
    calc roundOffset * width + i < (roundOffset + 1) * width := by
          rw [Nat.succ_mul]
          omega
      _ ≤ (1 + nbSkipsMax) * width := Nat.mul_le_mul_right _ (by omega)
      _ = width * (1 + nbSkipsMax) := Nat.mul_comm _ _
  have loop : ∀ count ≤ width,
      let sum := (range count).foldl (fun sum j =>
        sum.addAndMul (currentRow.getD j (RoundVarId.init nbSkipsMax))
          ((constants.mds.getD i []).getD j 0)) (RoundVarId.fromConstantIndex nbSkipsMax roundOffset i)
      RoundVarId.Sized nbSkipsMax sum ∧ sum.value vars consts =
        consts.getD (roundOffset * width + i) 0 +
          ∑ j ∈ Finset.range count, (constants.mds.getD i []).getD j 0 * row.getD j 0 := by
    intro count within
    induction count with
    | zero =>
      refine ⟨RoundVarId.constant_index_sized _ _ _, ?_⟩
      rw [Finset.sum_range_zero, add_zero]
      exact RoundVarId.value_constant_index vars consts place
    | succ count ih =>
      rcases ih (by omega) with ⟨sumSized, sumValue⟩
      rw [range_succ, foldl_append, foldl_cons, foldl_nil]
      refine ⟨sumSized.addAndMul (sized count) _, ?_⟩
      rw [RoundVarId.value_add_and_mul vars consts sumSized (sized count), sumValue,
        values count (by omega), Finset.sum_range_succ]
      ring
  rw [dot_eq_sum, rowLength]
  exact (loop width le_rfl).2

end

variable (nbSkipsMax) in
/-- The identities after `count` rounds. -/
structure Generated (vars consts : List F) (count : Nat) (id : RoundId F) : Prop where
  length : id.ids.length = width + 1 + nbSkipsMax
  sized : ∀ i, RoundVarId.Sized nbSkipsMax (id.idAt nbSkipsMax i)
  linear : ∀ i < width - 1, (id.idAt nbSkipsMax i).value vars consts =
    (linearStates constants vars consts count).getD i 0
  last : ∀ row < count, (id.idAt nbSkipsMax (width + row)).value vars consts =
    (linearStates constants vars consts (row + 1)).getD (width - 1) 0

theorem init_generated (vars consts : List F) (nbSkips : Nat) :
    Generated constants nbSkipsMax vars consts 0 (RoundId.init nbSkipsMax nbSkips) := by
  have entry : ∀ i, (RoundId.init nbSkipsMax nbSkips : RoundId F).idAt nbSkipsMax i =
      if i < width then RoundVarId.fromVarIndex nbSkipsMax i else RoundVarId.init nbSkipsMax := by
    intro i
    unfold RoundId.idAt RoundId.init
    by_cases inside : i < width + 1 + nbSkipsMax
    · exact map_range_get _ _ inside
    · rw [getD_eq_default _ _ (by rw [length_map, length_range]; omega), if_neg (by omega)]
  refine ⟨by rw [RoundId.init, length_map, length_range], ?_, ?_, ?_⟩
  · intro i
    rw [entry i]
    split_ifs
    · exact RoundVarId.var_index_sized _ _
    · exact RoundVarId.init_sized _
  · intro i inside
    rw [entry i, if_pos (by omega)]
    exact RoundVarId.value_var_index vars consts (by omega)
  · exact fun row none => absurd none (Nat.not_lt_zero row)

theorem update_row_generated {vars consts : List F} (length : width ≤ vars.length) {count : Nat}
    (offset : count ≤ nbSkipsMax) {id : RoundId F}
    (generated : Generated constants nbSkipsMax vars consts count id) :
    Generated constants nbSkipsMax vars consts (count + 1)
      (id.updateRow nbSkipsMax constants.mds count) := by
  have pos : 0 < width := by decide
  let currentRow := id.rowId nbSkipsMax count
  have rowAt : ∀ j < width, currentRow.getD j (RoundVarId.init nbSkipsMax) =
      if j = width - 1 then RoundVarId.fromVarIndex nbSkipsMax (width - 1 + count)
      else id.idAt nbSkipsMax j := by
    intro j inside
    exact map_range_get (fun i => if i = width - 1 then
      RoundVarId.fromVarIndex nbSkipsMax (width - 1 + count) else id.idAt nbSkipsMax i) _ inside
  have sized : ∀ j,
      RoundVarId.Sized nbSkipsMax (currentRow.getD j (RoundVarId.init nbSkipsMax)) := by
    intro j
    by_cases inside : j < width
    · rw [rowAt j inside]
      split_ifs
      · exact RoundVarId.var_index_sized _ _
      · exact generated.sized j
    · rw [getD_eq_default _ _ (by
        show (List.map _ _).length ≤ j
        rw [length_map, length_range]
        omega)]
      exact RoundVarId.init_sized _
  have values : ∀ j < width, (currentRow.getD j (RoundVarId.init nbSkipsMax)).value vars consts =
      ((linearStates constants vars consts count).take (width - 1) ++
        [vars.getD (width - 1 + count) 0]).getD j 0 := by
    intro j inside
    rw [rowAt j inside, row_get (linear_states_length constants length consts count) _ j inside]
    by_cases same : j = width - 1
    · rw [if_pos same, if_pos same]
      exact RoundVarId.value_var_index vars consts (by omega)
    · rw [if_neg same, if_neg same]
      exact generated.linear j (by omega)
  have column : ∀ i < width,
      (RoundId.mixed nbSkipsMax constants.mds currentRow count i).value vars consts =
        (linearStates constants vars consts (count + 1)).getD i 0 := by
    intro i inside
    have roundLength : ((range width).map fun i => consts.getD (count * width + i) 0).length =
        width := by rw [length_map, length_range]
    rw [mixed_value constants sized inside offset vars consts values, linearStates,
      linear_layer_get constants roundLength inside,
      map_range_get (fun i => consts.getD (count * width + i) 0) 0 inside]
  have entry : ∀ i, (id.updateRow nbSkipsMax constants.mds count).idAt nbSkipsMax i =
      if i < width - 1 then RoundId.mixed nbSkipsMax constants.mds currentRow count i
      else if i = width + count then
        RoundId.mixed nbSkipsMax constants.mds currentRow count (width - 1)
      else id.idAt nbSkipsMax i := by
    intro i
    unfold RoundId.idAt RoundId.updateRow
    dsimp only
    have within : width - 1 ≤ id.ids.length := by
      rw [generated.length]
      omega
    by_cases here : i = width + count
    · rw [if_neg (by omega), if_pos here, here, getD_eq_getElem?_getD, getElem?_set_self,
        Option.getD_some]
      rw [fold_set_length, generated.length]
      omega
    · rw [if_neg here, getD_eq_getElem?_getD, getElem?_set_ne (Ne.symm here), fold_set _ _ within]
      by_cases below : i < width - 1
      · rw [if_pos below, if_pos below, Option.getD_some]
      · rw [if_neg below, if_neg below, getD_eq_getElem?_getD]
  refine ⟨?_, ?_, ?_, ?_⟩
  · show (List.set _ _ _).length = _
    rw [length_set, fold_set_length, generated.length]
  · intro i
    rw [entry i]
    split_ifs
    · exact mixed_sized sized _ _ _
    · exact mixed_sized sized _ _ _
    · exact generated.sized i
  · intro i inside
    rw [entry i, if_pos inside]
    exact column i (by omega)
  · intro row inside
    rw [entry (width + row), if_neg (by omega)]
    by_cases same : row = count
    · rw [if_pos (by rw [same]), same]
      exact column (width - 1) (by omega)
    · rw [if_neg (by omega)]
      exact generated.last row (by omega)

theorem generate_generated {vars : List F} (length : width ≤ vars.length) (consts : List F) {nbSkips : Nat}
    (skips : nbSkips ≤ nbSkipsMax) : Generated constants nbSkipsMax vars consts (1 + nbSkips)
      (RoundId.generate nbSkipsMax constants.mds nbSkips) := by
  have loop : ∀ count ≤ 1 + nbSkips, Generated constants nbSkipsMax vars consts count
      ((range count).foldl (RoundId.updateRow nbSkipsMax constants.mds)
        (RoundId.init nbSkipsMax nbSkips)) := by
    intro count within
    induction count with
    | zero => exact init_generated constants vars consts nbSkips
    | succ count ih =>
      rw [range_succ, foldl_append, foldl_cons, foldl_nil]
      exact update_row_generated constants length (by omega) (ih (by omega))
  exact loop (1 + nbSkips) le_rfl

end Generate

/-! ### Plain rounds -/

section Plain

variable {nbPartialRounds : Nat} (constants : PoseidonConstants F nbPartialRounds)

def sbox (x : F) : F := x * (x * x * (x * x))

theorem flatten_get {size : Nat} {rows : List (List F)} (lengths : ∀ row ∈ rows, row.length = size)
    {i : Nat} (inside : i < size) (k : Nat) :
    rows.flatten.getD (k * size + i) 0 = (rows.getD k (replicate size 0)).getD i 0 := by
  induction rows generalizing k with
  | nil => simp [inside]
  | cons row rows ih =>
    rw [forall_mem_cons] at lengths
    rw [flatten_cons]
    cases k with
    | zero =>
      rw [Nat.zero_mul, Nat.zero_add, getD_append _ _ _ _ (by omega), getD_cons_zero]
    | succ k =>
      have beyond : row.length ≤ (k + 1) * size + i := by
        rw [lengths.1, Nat.succ_mul]
        omega
      have rest : (k + 1) * size + i - row.length = k * size + i := by
        rw [lengths.1, Nat.succ_mul]
        omega
      rw [getD_append_right _ _ _ _ beyond, rest, ih lengths.2, getD_cons_succ]

def rowConstants (round nbSkips : Nat) : List F :=
  ((constants.roundConstants.drop (round + 1)).take (1 + nbSkips)).flatten

theorem row_constants_get (round : Nat) {nbSkips k : Nat} (within : k < 1 + nbSkips) :
    (range width).map (fun i => (rowConstants constants round nbSkips).getD (k * width + i) 0) =
      constantsAt constants (round + k + 1) := by
  have lengths : ∀ row ∈ (constants.roundConstants.drop (round + 1)).take (1 + nbSkips),
      row.length = width :=
    fun row mem => constants.rows row (mem_of_mem_drop (mem_of_mem_take mem))
  have chosen : ((constants.roundConstants.drop (round + 1)).take (1 + nbSkips)).getD k
      (replicate width 0) = constantsAt constants (round + k + 1) := by
    unfold constantsAt
    rw [getD_eq_getElem?_getD, getElem?_take_of_lt within, getElem?_drop,
      ← getD_eq_getElem?_getD, Nat.add_right_comm]
  apply ext_getElem
  · rw [length_map, length_range, constants_at_length]
  · intro i inside second
    rw [length_map, length_range] at inside
    rw [getElem_map, getElem_range]
    unfold rowConstants
    rw [flatten_get lengths inside, chosen, getD_eq_getElem _ _ second]

/-- The variables are those of the plain rounds. -/
structure Follows (round : Nat) (state vars : List F) (count : Nat) : Prop where
  linear : ∀ j < width - 1, vars.getD j 0 = state.getD j 0
  powers : ∀ row < count, vars.getD (width - 1 + row) 0 =
    sbox ((partialStates constants round state row).getD (width - 1) 0)

theorem modify_last_get {state : List F} (length : state.length = width) {j : Nat}
    (inside : j < width) : (state.modify (width - 1) fun x => x * (x * x * (x * x))).getD j 0 =
      if j = width - 1 then sbox (state.getD (width - 1) 0) else state.getD j 0 := by
  have within : j < state.length := length.symm ▸ inside
  have modified : j < (state.modify (width - 1) fun x => x * (x * x * (x * x))).length := by
    rwa [length_modify]
  rw [getD_eq_getElem _ _ modified, getElem_modify]
  by_cases same : j = width - 1
  · subst same
    rw [if_pos rfl, if_pos rfl, getD_eq_getElem _ _ within]
    rfl
  · rw [if_neg (Ne.symm same), if_neg same, getD_eq_getElem _ _ within]

theorem linear_states_plain (nbSkips : Nat) {round count : Nat} {state vars : List F}
    (length : state.length = width) (varsLength : width ≤ vars.length)
    (follows : Follows constants round state vars count) (within : count ≤ 1 + nbSkips) :
    (∀ j < width - 1, (linearStates constants vars (rowConstants constants round nbSkips) count).getD
        j 0 = (partialStates constants round state count).getD j 0) ∧
      (0 < count → linearStates constants vars (rowConstants constants round nbSkips) count =
        partialStates constants round state count) := by
  induction count with
  | zero => exact ⟨follows.linear, fun none => absurd none (Nat.lt_irrefl 0)⟩
  | succ count ih =>
    have before := (ih ⟨follows.linear, fun row below => follows.powers row (by omega)⟩
      (by omega)).1
    have same : linearStates constants vars (rowConstants constants round nbSkips) (count + 1) =
        partialStates constants round state (count + 1) := by
      rw [linearStates, partialStates, partialRoundCpuRaw,
        row_constants_get constants round (by omega)]
      apply linear_layer_congr
      intro j inside
      rw [row_get (linear_states_length constants varsLength _ count) _ j inside,
        modify_last_get (partial_states_length constants round length count) inside]
      by_cases last : j = width - 1
      · rw [if_pos last, if_pos last]
        exact follows.powers count (Nat.lt_succ_self count)
      · rw [if_neg last, if_neg last]
        exact before j (by omega)
    exact ⟨fun j _ => by rw [same], fun _ => same⟩

end Plain

/-! ### Evaluation -/

section Evaluate

variable {nbPartialRounds : Nat} (constants : PoseidonConstants F nbPartialRounds)
  {nbSkipsMax nbSkips : Nat} (skips : nbSkips ≤ nbSkipsMax)

theorem generate_skips (nbSkipsMax nbSkips : Nat) :
    (RoundId.generate nbSkipsMax constants.mds nbSkips).nbSkips = nbSkips := by
  unfold RoundId.generate
  induction range (1 + nbSkips) using List.reverseRecOn with
  | nil => rfl
  | append_singleton rows row ih =>
    rw [foldl_append, foldl_cons, foldl_nil]
    exact ih

include skips in
theorem used_get {Value : Type} (view : RoundVarId F → Value) (other : Value) {i : Nat}
    (inside : i < width + nbSkips) :
    ((RoundId.generate nbSkipsMax constants.mds nbSkips).used.map view).getD i other =
      view ((RoundId.generate nbSkipsMax constants.mds nbSkips).idAt nbSkipsMax
        (if i < width - 1 then i else i + 1)) := by
  have length := (@generate_generated F _ _ constants _ (replicate width 0)
    (by rw [length_replicate]) [] _ skips).length
  generalize RoundId.generate nbSkipsMax constants.mds nbSkips = id at length
  have pos : 0 < width := by decide
  have taken : (id.ids.take (width - 1)).length = width - 1 := by
    rw [length_take]
    omega
  unfold RoundId.used RoundId.idAt
  have within : i < (id.ids.take (width - 1) ++ id.ids.drop width).length := by
    rw [length_append, taken, length_drop]
    omega
  rw [getD_eq_getElem _ _ (by rwa [length_map]), getElem_map]
  by_cases below : i < width - 1
  · rw [if_pos below, getElem_append_left (by omega), getElem_take, getD_eq_getElem _ _ (by omega)]
  · rw [if_neg below, getElem_append_right (by omega), getElem_drop, getD_eq_getElem _ _ (by omega)]
    congr 2
    omega

include skips in
theorem eval_constants_get (round : Nat) {i : Nat} (inside : i < width + nbSkips) :
    ((RoundId.generate nbSkipsMax constants.mds nbSkips).evalConstants constants round).getD i 0 =
      ((RoundId.generate nbSkipsMax constants.mds nbSkips).idAt nbSkipsMax
        (if i < width - 1 then i else i + 1)).evalConstants
          ((constants.roundConstants.drop (round + 1)).take (1 + nbSkips)) := by
  unfold RoundId.evalConstants
  rw [generate_skips, getD_eq_getElem?_getD, getElem?_take_of_lt inside, ← getD_eq_getElem?_getD]
  exact used_get constants skips _ _ inside

include skips in
theorem row_value (round : Nat) {vars : List F} (length : width ≤ vars.length) {row : Nat}
    (inside : row ≤ nbSkips) :
    ((RoundId.generate nbSkipsMax constants.mds nbSkips).idAt nbSkipsMax (width + row)).value vars
        (rowConstants constants round nbSkips) =
      (linearStates constants vars (rowConstants constants round nbSkips) (row + 1)).getD
        (width - 1) 0 :=
  (generate_generated constants length _ skips).last row (by omega)

include skips in
theorem eval_row (round : Nat) {vars : List F} (length : width ≤ vars.length) {row : Nat}
    (inside : row ≤ nbSkips) :
    ((RoundId.generate nbSkipsMax constants.mds nbSkips).idAt nbSkipsMax (width + row)).evalVars vars
        (((RoundId.generate nbSkipsMax constants.mds nbSkips).evalConstants constants round).getD
          (width - 1 + row) 0) =
      (linearStates constants vars (rowConstants constants round nbSkips) (row + 1)).getD
        (width - 1) 0 := by
  have pos : 0 < width := by decide
  have place : width - 1 + row + 1 = width + row := by omega
  rw [eval_constants_get constants skips round (by omega), if_neg (by omega), place,
    RoundVarId.eval_value]
  exact row_value constants skips round length inside

include skips in
theorem eval_linear (round : Nat) {vars : List F} (length : width ≤ vars.length) {i : Nat}
    (inside : i < width - 1) :
    ((RoundId.generate nbSkipsMax constants.mds nbSkips).idAt nbSkipsMax i).evalVars vars
        (((RoundId.generate nbSkipsMax constants.mds nbSkips).evalConstants constants round).getD i
          0) =
      (linearStates constants vars (rowConstants constants round nbSkips) (1 + nbSkips)).getD i
        0 := by
  rw [eval_constants_get constants skips round (by omega), if_pos inside, RoundVarId.eval_value]
  exact (generate_generated constants length _ skips).linear i inside

variable (nbSkips) in
/-- The variables and the last columns after some skipped rounds. -/
structure Evaluated (round : Nat) (state : List F) (count : Nat) (values : List F × List F) :
    Prop where
  skipped : values.1.length = nbSkips
  vars : values.2.length = width + nbSkips
  columns : ∀ row < count, values.1.getD row 0 =
    (partialStates constants round state (row + 1)).getD (width - 1) 0
  follows : Follows constants round state values.2 (count + 1)

variable {state : List F}

theorem start_evaluated (round : Nat) (length : state.length = width) :
    Evaluated constants nbSkips round state 0 (replicate nbSkips 0,
      (state.modify (width - 1) fun x => x * (x * x * (x * x))) ++ replicate nbSkips 0) := by
  have pos : 0 < width := by decide
  have modified : (state.modify (width - 1) fun x => x * (x * x * (x * x))).length = width := by
    rw [length_modify, length]
  refine ⟨length_replicate, ?_, fun row none => absurd none (Nat.not_lt_zero row), ?_, ?_⟩
  · rw [length_append, modified, length_replicate]
  · intro j inside
    rw [getD_append _ _ _ _ (by omega), modify_last_get length (by omega), if_neg (by omega)]
  · intro row none
    have zero : row = 0 := by omega
    subst zero
    rw [Nat.add_zero, getD_append _ _ _ _ (by omega), modify_last_get length (by omega), if_pos rfl]
    rfl

include skips in
theorem eval_step_evaluated {round : Nat} (length : state.length = width) {count : Nat}
    (within : count < nbSkips) {values : List F × List F}
    (evaluated : Evaluated constants nbSkips round state count values) :
    Evaluated constants nbSkips round state (count + 1)
      ((RoundId.generate nbSkipsMax constants.mds nbSkips).evalStep nbSkipsMax
        ((RoundId.generate nbSkipsMax constants.mds nbSkips).evalConstants constants round)
        values count) := by
  have pos : 0 < width := by decide
  have varsLength : width ≤ values.2.length := by
    rw [evaluated.vars]
    omega
  have plain := linear_states_plain constants nbSkips length varsLength
    evaluated.follows (by omega)
  unfold RoundId.evalStep
  rw [eval_row constants skips round varsLength within.le, plain.2 (Nat.succ_pos count)]
  refine ⟨length_set.trans evaluated.skipped, length_set.trans evaluated.vars, ?_, ?_, ?_⟩
  · intro row below
    rw [getD_eq_getElem?_getD]
    by_cases same : count = row
    · subst same
      rw [getElem?_set_self (by rw [evaluated.skipped]; exact within), Option.getD_some]
    · rw [getElem?_set_ne same, ← getD_eq_getElem?_getD]
      exact evaluated.columns row (by omega)
  · intro j inside
    rw [getD_eq_getElem?_getD, getElem?_set_ne (by omega), ← getD_eq_getElem?_getD]
    exact evaluated.follows.linear j inside
  · intro row below
    rw [getD_eq_getElem?_getD]
    by_cases same : row = count + 1
    · subst same
      have place : width - 1 + (count + 1) = width + count := by omega
      rw [place, getElem?_set_self (by rw [evaluated.vars]; omega), Option.getD_some]
      exact mul_comm _ _
    · rw [getElem?_set_ne (by omega), ← getD_eq_getElem?_getD]
      exact evaluated.follows.powers row (by omega)

include skips in
theorem eval_eq (round : Nat) (length : state.length = width) :
    (RoundId.generate nbSkipsMax constants.mds nbSkips).eval nbSkipsMax
        ((RoundId.generate nbSkipsMax constants.mds nbSkips).evalConstants constants round) state =
      ((range nbSkips).map fun row =>
          (partialStates constants round state (row + 1)).getD (width - 1) 0,
        partialStates constants round state (1 + nbSkips)) := by
  have pos : 0 < width := by decide
  have loop : ∀ count ≤ nbSkips, Evaluated constants nbSkips round state count
      ((range count).foldl ((RoundId.generate nbSkipsMax constants.mds nbSkips).evalStep
        nbSkipsMax ((RoundId.generate nbSkipsMax constants.mds nbSkips).evalConstants constants
          round)) (replicate nbSkips 0,
        (state.modify (width - 1) fun x => x * (x * x * (x * x))) ++ replicate nbSkips 0)) := by
    intro count within
    induction count with
    | zero => exact start_evaluated constants round length
    | succ count ih =>
      rw [range_succ, foldl_append, foldl_cons, foldl_nil]
      exact eval_step_evaluated constants skips length (by omega) (ih (by omega))
  have final := loop nbSkips le_rfl
  unfold RoundId.eval
  rw [generate_skips]
  dsimp only
  generalize (range nbSkips).foldl _ _ = values at final
  have varsLength : width ≤ values.2.length := by
    rw [final.vars]
    omega
  have plain := (linear_states_plain constants nbSkips length varsLength
    (Nat.add_comm 1 nbSkips ▸ final.follows) le_rfl).2 (by omega)
  have lastPlace : width + nbSkips - 1 = width - 1 + nbSkips := by omega
  refine Prod.ext ?_ ?_
  · apply ext_getElem
    · rw [final.skipped, length_map, length_range]
    · intro row first second
      rw [← getD_eq_getElem _ 0 first, final.columns row (by rwa [final.skipped] at first),
        getElem_map, getElem_range]
  · dsimp only
    rw [lastPlace, eval_row constants skips round varsLength le_rfl, Nat.add_comm nbSkips 1, plain]
    apply ext_getElem
    · rw [length_append, length_map, length_range, partial_states_length constants round length]
      rfl
    · intro i first second
      rw [partial_states_length constants round length] at second
      by_cases below : i < width - 1
      · rw [getElem_append_left (by rwa [length_map, length_range]), getElem_map, getElem_range,
          eval_linear constants skips round varsLength below, plain, getD_eq_getElem]
      · have same : i = width - 1 := by omega
        subst same
        rw [getElem_append_right (by rw [length_map, length_range])]
        simp only [length_map, length_range, Nat.sub_self, getElem_cons_zero]
        exact getD_eq_getElem _ _ _

end Evaluate

end Midfall.PoseidonRoundSkips
