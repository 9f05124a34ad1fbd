import Midfall.EdwardsChip

/-!
# The rows of the native Edwards chip

Each gate has one solution at points of the curve, and one row of a
multiplication is determined by its accumulator, its base and its bit.
-/

namespace Midfall.EdwardsChip

open CircuitPrograms EdwardsCurves NativeGadget RegionPrograms List

variable {modulus : Nat} [Fact modulus.Prime] (C : EdwardsCurve (ZMod modulus))

def productOf (q s : C.Point) : ZMod modulus :=
  (C.coordinates q).1 * (C.coordinates q).2 * (C.coordinates s).1 * (C.coordinates s).2

section

variable (query : Nat → Nat → ZMod modulus)

include query

theorem cond_add_gate_iff {q s : C.Point} {b : Bool}
    (qCells : (query 0 0, query 1 0) = C.coordinates q)
    (sCells : (query 2 0, query 3 0) = C.coordinates s) (bCell : query 4 0 = bit b) :
    (∀ identity ∈ condAddGate C.d query, identity = 0) ↔
      (query 5 0, query 6 0) = C.coordinates (if b then q + s else q) ∧
        query 8 0 = productOf C q s := by
  have unique := C.sum_unique q s (query 5 0, query 6 0)
  simp only [condAddGate, productOf, bCell, ← qCells, ← sCells, forall_mem_cons,
    not_mem_nil, false_imp_iff, implies_true, and_true] at unique ⊢
  cases b with
  | false =>
    simp only [bit, Bool.false_eq_true, if_false, zero_mul, add_zero, sub_zero, mul_one,
      sub_eq_zero, Prod.mk.injEq, ← qCells, and_assoc]
  | true =>
    rw [if_pos rfl, ← unique]
    constructor
    · rintro ⟨first, second, product⟩
      have same := sub_eq_zero.mp product
      simp only [bit, if_true, same] at first second
      constructor
      · constructor
        · linear_combination first
        · linear_combination second
      · exact same
    · rintro ⟨⟨first, second⟩, same⟩
      simp only [bit, if_true, same]
      constructor
      · linear_combination first
      constructor
      · linear_combination second
      · ring

theorem double_gate_iff {p : C.Point} (pCells : (query 5 0, query 6 0) = C.coordinates p) :
    (∀ identity ∈ doubleGate C.d query, identity = 0) ↔
      (query 0 1, query 1 1) = C.coordinates (p + p) ∧
        query 7 0 = (C.coordinates p).1 * (C.coordinates p).1 := by
  rw [← C.sum_unique p p, ← pCells]
  simp only [doubleGate, forall_mem_cons, not_mem_nil, false_imp_iff, implies_true, and_true]
  constructor
  · rintro ⟨first, second, square⟩
    have same := (sub_eq_zero.mp square).symm
    rw [same] at first second
    constructor
    · constructor
      · linear_combination first
      · linear_combination second
    · exact same
  · rintro ⟨⟨first, second⟩, same⟩
    rw [same]
    constructor
    · linear_combination first
    constructor
    · linear_combination second
    · ring

theorem membership_gate_iff :
    (∀ identity ∈ membershipGate C.d query, identity = 0) ↔
      ∃ p, C.coordinates p = (query 0 0, query 1 0) := by
  simp only [membershipGate, forall_mem_cons, not_mem_nil, false_imp_iff, implies_true, and_true]
  constructor
  · intro equation
    apply C.everyPoint
    unfold OnCurve
    linear_combination equation
  · rintro ⟨p, same⟩
    have onCurve := C.onCurve p
    rw [same] at onCurve
    unfold OnCurve at onCurve
    linear_combination onCurve

end

variable {C}

def cells (p : MarkedPoint C) : AssignedNativePoint modulus where
  x := (C.coordinates p.point).1
  y := (C.coordinates p.point).2
  inSubgroup := p.inSubgroup

@[simp]
theorem curve_value_cells (p : MarkedPoint C) : curveValue C (cells p) = some p.point :=
  C.fromCoordinates p.point

/-- The cells of a row that the addition gate determines. -/
structure RowFilled (table : Table (ZMod modulus)) (row : Nat) (acc base : MarkedPoint C)
    (b : Bool) : Prop where
  sum : (table row 5, table row 6) = C.coordinates (acc.condAdd base b).point
  product : table row 8 = productOf C acc.point base.point

/-- The cells that the doubling gate determines. -/
structure NextFilled (table : Table (ZMod modulus)) (row : Nat) (sum : MarkedPoint C) : Prop where
  double : (table (row + 1) 0, table (row + 1) 1) = C.coordinates (sum.multiple 2).point
  square : table row 7 = (C.coordinates sum.point).1 * (C.coordinates sum.point).1

structure RowInputs (table : Table (ZMod modulus)) (row : Nat) (acc base : MarkedPoint C)
    (b : Bool) : Prop where
  acc : (table row 0, table row 1) = C.coordinates acc.point
  base : (table row 2, table row 3) = C.coordinates base.point
  bit : table row 4 = bit b

def KeepsBefore (row width : Nat) (table written : Table (ZMod modulus)) : Prop :=
  ∀ other column, other < row ∨ other = row ∧ column < width →
    written other column = table other column

section Row

variable {table : Table (ZMod modulus)} {row : Nat} {acc base : MarkedPoint C} {b : Bool}

theorem cond_add_checks (inputs : RowInputs table row acc base b)
    (q s : AssignedNativePoint modulus) (bitCell : ZMod modulus) :
    (condAdd C row q s bitCell).checks table = true ↔ RowFilled table row acc base b := by
  have gate := cond_add_gate_iff C (fun column rotation => table (row + rotation) column) inputs.acc
    inputs.base inputs.bit
  simp only [condAdd, bind_checks, assign_advice_checks, pure_checks, Bool.and_true,
    enable_checks, gate]
  constructor
  · rintro ⟨sum, product⟩
    exact ⟨sum, product⟩
  · intro filled
    exact ⟨filled.sum, filled.product⟩

theorem add_then_double_checks (inputs : RowInputs table row acc base b)
    (p q : AssignedNativePoint modulus) (bitCell : ZMod modulus) :
    (addThenDouble C row p q bitCell).checks table = true ↔
      RowFilled table row acc base b ∧ NextFilled table row (acc.condAdd base b) := by
  have gate := cond_add_gate_iff C (fun column rotation => table (row + rotation) column) inputs.acc
    inputs.base inputs.bit
  simp only [addThenDouble, bind_checks, assign_advice_checks, pure_checks, Bool.and_true,
    Bool.and_eq_true, enable_checks, gate]
  constructor
  · rintro ⟨⟨sum, product⟩, doubled⟩
    rw [double_gate_iff C _ sum, ← two_nsmul] at doubled
    exact ⟨⟨sum, product⟩, ⟨doubled.1, doubled.2⟩⟩
  · rintro ⟨filled, next⟩
    rw [double_gate_iff C _ filled.sum, ← two_nsmul]
    exact ⟨⟨filled.sum, filled.product⟩, next.double, next.square⟩

/-! The prover's run of a row. -/

theorem bit_nonzero (b : Bool) : decide ((bit b : ZMod modulus) ≠ 0) = b := by
  cases b <;> simp [bit]

theorem p_plus_b_q_cells (acc base : MarkedPoint C) (b : Bool) :
    pPlusBQ C (some acc.point) (some base.point) b =
      some (C.coordinates (acc.condAdd base b).point) := rfl

theorem coordinate_product_cells (acc base : MarkedPoint C) :
    coordinateProduct C (some acc.point) (some base.point) =
      some (productOf C acc.point base.point) := rfl

theorem cond_add_write (table : Table (ZMod modulus)) (row : Nat) (acc base : MarkedPoint C)
    (b : Bool) : ∃ written,
      (condAdd C row (cells acc) (cells base) (bit b)).write table =
        some (cells (acc.condAdd base b), written) ∧
      RowFilled written row acc base b ∧ KeepsBefore row 5 table written := by
  simp only [condAdd, bind_write, enable_write, Option.bind_some, curve_value_cells, bit_nonzero,
    p_plus_b_q_cells, coordinate_product_cells, Option.map_some, assign_advice_write, pure_write]
  apply Exists.intro
  apply And.intro rfl
  constructor
  · constructor <;> simp
  · intro other column before
    have skips5 : ¬(other = row ∧ column = 5) := by omega
    have skips6 : ¬(other = row ∧ column = 6) := by omega
    have skips8 : ¬(other = row ∧ column = 8) := by omega
    simp [skips5, skips6, skips8]

theorem add_then_double_write (table : Table (ZMod modulus)) (row : Nat)
    (acc base : MarkedPoint C) (b : Bool) : ∃ written,
      (addThenDouble C row (cells acc) (cells base) (bit b)).write table =
        some (cells ((acc.condAdd base b).multiple 2), written) ∧
      (RowFilled written row acc base b ∧ NextFilled written row (acc.condAdd base b)) ∧
      KeepsBefore row 5 table written := by
  have doubled : C.coordinates ((acc.condAdd base b).point + (acc.condAdd base b).point) =
      C.coordinates ((acc.condAdd base b).multiple 2).point := by
    rw [← two_nsmul]
    rfl
  simp only [addThenDouble, bind_write, enable_write, Option.bind_some, curve_value_cells,
    bit_nonzero, p_plus_b_q_cells, coordinate_product_cells, Option.map_some, assign_advice_write,
    pure_write, Option.bind_eq_bind, C.fromCoordinates, Option.pure_def, doubled]
  apply Exists.intro
  apply And.intro rfl
  constructor
  · constructor
    · constructor <;> simp
    · constructor <;> simp
  · intro other column before
    have skips0 : ¬(other = row + 1 ∧ column = 0) := by omega
    have skips1 : ¬(other = row + 1 ∧ column = 1) := by omega
    have skips5 : ¬(other = row ∧ column = 5) := by omega
    have skips6 : ¬(other = row ∧ column = 6) := by omega
    have skips7 : ¬(other = row ∧ column = 7) := by omega
    have skips8 : ¬(other = row ∧ column = 8) := by omega
    simp [skips0, skips1, skips5, skips6, skips7, skips8]

end Row

end Midfall.EdwardsChip
