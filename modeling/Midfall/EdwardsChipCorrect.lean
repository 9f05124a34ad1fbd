import Midfall.EdwardsChipGates

/-!
# The native Edwards chip computes the group law

The rows of a multiplication keep one invariant: the first two cells of a row
hold the accumulator. Each row determines the next accumulator, and the prover's
later rows leave the earlier ones alone. The instructions follow.
-/

namespace Midfall.EdwardsChip

open CircuitPrograms EdwardsCurves NativeGadget RegionPrograms List

variable {modulus : Nat} [Fact modulus.Prime] {C : EdwardsCurve (ZMod modulus)}

/-- The accumulator after a row: the last row adds but does not double. -/
def nextAcc (length row : Nat) (acc base : MarkedPoint C) (b : Bool) : MarkedPoint C :=
  if row < length - 1 then (acc.condAdd base b).multiple 2 else acc.condAdd base b

/-- The cells that a row of a multiplication determines. -/
structure RowDone (length : Nat) (table : Table (ZMod modulus)) (row : Nat)
    (acc base : MarkedPoint C) (b : Bool) : Prop where
  baseCells : (table row 2, table row 3) = C.coordinates base.point
  bitCell : table row 4 = bit b
  filled : RowFilled table row acc base b
  next : row < length - 1 → NextFilled table row (acc.condAdd base b)

section Row

variable {length row : Nat} {table : Table (ZMod modulus)} {acc base : MarkedPoint C} {b : Bool}

theorem mul_row_checks (holds : (table row 0, table row 1) = C.coordinates acc.point)
    (q : AssignedNativePoint modulus) :
    (mulRow C length (cells base) q (bit b, row)).checks table = true ↔
      RowDone length table row acc base b := by
  simp only [mulRow, bind_checks, copy_advice_checks, Bool.and_eq_true, decide_eq_true_eq]
  constructor
  · rintro ⟨baseX, baseY, bitCell, rest⟩
    have inputs : RowInputs table row acc base b := ⟨holds, Prod.ext baseX baseY, bitCell⟩
    split_ifs at rest with inside
    · rw [add_then_double_checks inputs] at rest
      exact ⟨inputs.base, bitCell, rest.1, fun _ => rest.2⟩
    · rw [cond_add_checks inputs] at rest
      exact ⟨inputs.base, bitCell, rest, fun other => absurd other inside⟩
  · intro done
    have inputs : RowInputs table row acc base b := ⟨holds, done.baseCells, done.bitCell⟩
    apply And.intro (congrArg Prod.fst done.baseCells)
    apply And.intro (congrArg Prod.snd done.baseCells)
    apply And.intro done.bitCell
    split_ifs with inside
    · rw [add_then_double_checks inputs]
      exact ⟨done.filled, done.next inside⟩
    · rw [cond_add_checks inputs]
      exact done.filled

theorem mul_row_value (done : RowDone length table row acc base b) :
    (mulRow C length (cells base) (cells acc) (bit b, row)).value table =
      cells (nextAcc length row acc base b) := by
  simp only [mulRow, nextAcc, bind_value]
  split_ifs with inside
  · have double := (done.next inside).double
    apply AssignedNativePoint.ext
    · exact congrArg Prod.fst double
    · exact congrArg Prod.snd double
    · rfl
  · have sum := done.filled.sum
    apply AssignedNativePoint.ext
    · exact congrArg Prod.fst sum
    · exact congrArg Prod.snd sum
    · rfl

theorem RowDone.next_holds (done : RowDone length table row acc base b)
    (inside : row < length - 1) : (table (row + 1) 0, table (row + 1) 1) =
      C.coordinates (nextAcc length row acc base b).point := by
  rw [nextAcc, if_pos inside]
  exact (done.next inside).double

omit [Fact modulus.Prime] in
theorem KeepsBefore.trans {first second third : Table (ZMod modulus)} {width wide : Nat}
    (one : KeepsBefore row width first second) (two : KeepsBefore row wide second third)
    (le : width ≤ wide) : KeepsBefore row width first third := by
  intro other column before
  rw [two other column (by omega), one other column before]

theorem RowDone.kept {written : Table (ZMod modulus)}
    (done : RowDone length table row acc base b) (keeps : KeepsBefore (row + 1) 2 table written) :
    RowDone length written row acc base b := by
  have same : ∀ column, written row column = table row column :=
    fun column => keeps row column (by omega)
  constructor
  · rw [same, same]
    exact done.baseCells
  · rw [same]
    exact done.bitCell
  · constructor
    · rw [same, same]
      exact done.filled.sum
    · rw [same]
      exact done.filled.product
  · intro inside
    constructor
    · rw [keeps _ 0 (by omega), keeps _ 1 (by omega)]
      exact (done.next inside).double
    · rw [same]
      exact (done.next inside).square

theorem mul_row_write (length row : Nat) (table : Table (ZMod modulus)) (acc base : MarkedPoint C)
    (b : Bool) : ∃ written,
      (mulRow C length (cells base) (cells acc) (bit b, row)).write table =
        some (cells (nextAcc length row acc base b), written) ∧
      RowDone length written row acc base b ∧ KeepsBefore row 2 table written := by
  let copied := setCell (setCell (setCell table row 2 (cells base).x) row 3 (cells base).y) row 4
    (bit b)
  have copies : KeepsBefore row 2 table copied := by
    intro other column before
    have skips2 : ¬(other = row ∧ column = 2) := by omega
    have skips3 : ¬(other = row ∧ column = 3) := by omega
    have skips4 : ¬(other = row ∧ column = 4) := by omega
    simp [copied, skips2, skips3, skips4]
  have kept : ∀ {written : Table (ZMod modulus)}, KeepsBefore row 5 copied written →
      (written row 2, written row 3) = C.coordinates base.point ∧ written row 4 = bit b := by
    intro written keeps
    rw [keeps row 2 (by omega), keeps row 3 (by omega), keeps row 4 (by omega)]
    constructor
    · simp [copied, cells]
    · simp [copied]
  simp only [mulRow, bind_write, copy_advice_write, Option.bind_some, nextAcc]
  split_ifs with inside
  · rcases add_then_double_write copied row acc base b with ⟨written, run, filled, keeps⟩
    use written
    apply And.intro run
    constructor
    · exact ⟨(kept keeps).1, (kept keeps).2, filled.1, fun _ => filled.2⟩
    · exact copies.trans keeps (by omega)
  · rcases cond_add_write copied row acc base b with ⟨written, run, filled, keeps⟩
    use written
    apply And.intro run
    constructor
    · exact ⟨(kept keeps).1, (kept keeps).2, filled, fun other => absurd other inside⟩
    · exact copies.trans keeps (by omega)

end Row

theorem double_and_add_next (base acc : MarkedPoint C) (b : Bool) (rest : List Bool)
    {length row : Nat} (fits : length = row + (b :: rest).length) :
    base.doubleAndAdd (b :: rest) acc =
      base.doubleAndAdd rest (nextAcc length row acc base b) := by
  rw [length_cons] at fits
  cases rest with
  | nil =>
    rw [nextAcc, if_neg (by simp at fits; omega)]
    rfl
  | cons next rest =>
    rw [length_cons] at fits
    rw [nextAcc, if_pos (by omega)]
    rfl

def mulRows (C : EdwardsCurve (ZMod modulus)) (length : Nat) (base : AssignedNativePoint modulus)
    (bits : List Bool) (row : Nat) (acc : AssignedNativePoint modulus) :
    Region (ZMod modulus) (AssignedNativePoint modulus) :=
  ((bits.map bit).zipIdx row).foldlM (mulRow C length base) acc

theorem mul_rows_cons (length : Nat) (base : AssignedNativePoint modulus) (b : Bool)
    (rest : List Bool) (row : Nat) (acc : AssignedNativePoint modulus) :
    mulRows C length base (b :: rest) row acc =
      mulRow C length base acc (bit b, row) >>= mulRows C length base rest (row + 1) := by
  unfold mulRows
  rw [map_cons, zipIdx_cons, foldlM_cons]

/-- A table that passes every row holds the result of double and add. -/
theorem mul_rows_forced {length : Nat} {base : MarkedPoint C} {table : Table (ZMod modulus)}
    (bits : List Bool) {row : Nat} {acc : MarkedPoint C} (fits : length = row + bits.length)
    (holds : bits ≠ [] → (table row 0, table row 1) = C.coordinates acc.point)
    (accepted : (mulRows C length (cells base) bits row (cells acc)).checks table = true) :
    (mulRows C length (cells base) bits row (cells acc)).value table =
      cells (base.doubleAndAdd bits acc) := by
  induction bits generalizing row acc with
  | nil => rfl
  | cons b rest ih =>
    rw [mul_rows_cons, bind_checks, Bool.and_eq_true, mul_row_checks (holds (by simp))]
      at accepted
    rcases accepted with ⟨done, later⟩
    rw [mul_row_value done] at later
    rw [mul_rows_cons, bind_value, mul_row_value done, double_and_add_next base acc b rest fits]
    apply ih
    · rw [fits, length_cons]
      omega
    · intro present
      have more := length_pos_iff.mpr present
      rw [length_cons] at fits
      exact done.next_holds (by omega)
    · exact later

theorem mul_rows_write {length : Nat} (base : MarkedPoint C) (bits : List Bool) {row : Nat}
    {acc : MarkedPoint C} {table : Table (ZMod modulus)} (fits : length = row + bits.length)
    (holds : bits ≠ [] → (table row 0, table row 1) = C.coordinates acc.point) : ∃ written,
      (mulRows C length (cells base) bits row (cells acc)).write table =
        some (cells (base.doubleAndAdd bits acc), written) ∧
      (mulRows C length (cells base) bits row (cells acc)).checks written = true ∧
      KeepsBefore row 2 table written := by
  induction bits generalizing row acc table with
  | nil => exact ⟨table, rfl, rfl, fun _ _ _ => rfl⟩
  | cons b rest ih =>
    rcases mul_row_write length row table acc base b with ⟨first, run, done, keeps⟩
    have laterFits : length = row + 1 + rest.length := by
      rw [fits, length_cons]
      omega
    have laterHolds : rest ≠ [] → (first (row + 1) 0, first (row + 1) 1) =
        C.coordinates (nextAcc length row acc base b).point := by
      intro present
      have more := length_pos_iff.mpr present
      exact done.next_holds (by omega)
    rcases ih laterFits laterHolds with ⟨written, laterRun, accepted, laterKeeps⟩
    have kept := done.kept laterKeeps
    have rowHolds : (written row 0, written row 1) = C.coordinates acc.point := by
      rw [laterKeeps row 0 (by omega), laterKeeps row 1 (by omega), keeps row 0 (by omega),
        keeps row 1 (by omega)]
      exact holds (by simp)
    use written
    rw [mul_rows_cons, double_and_add_next base acc b rest fits]
    constructor
    · rw [bind_write, run]
      exact laterRun
    constructor
    · rw [bind_checks, Bool.and_eq_true, mul_row_checks rowHolds, mul_row_value kept]
      exact ⟨kept, accepted⟩
    · intro other column before
      rw [laterKeeps other column (by omega), keeps other column before]

theorem computes_mul_region (base : MarkedPoint C) (bits : List Bool) :
    Computes (assignRegion (mulRegion C (bits.map bit) (cells base)
        (cells (MarkedPoint.ofSubgroup (0 : C.subgroup)))))
      (cells (base.doubleAndAdd bits (MarkedPoint.ofSubgroup 0))) := by
  let identity : MarkedPoint C := MarkedPoint.ofSubgroup 0
  let start : Table (ZMod modulus) :=
    setCell (setCell (fun _ _ => 0) 0 0 (cells identity).x) 0 1 (cells identity).y
  have length : (bits.map bit : List (ZMod modulus)).length = 0 + bits.length := by simp
  have startHolds : (start 0 0, start 0 1) = C.coordinates identity.point := by
    simp [start, cells]
  rcases mul_rows_write base bits length (fun _ => startHolds) with
    ⟨written, run, accepted, keeps⟩
  apply computes_assign_region run
  · simp only [mulRegion, bind_checks, copy_advice_checks, Bool.and_eq_true, decide_eq_true_eq]
    rw [keeps 0 0 (by omega), keeps 0 1 (by omega)]
    exact ⟨congrArg Prod.fst startHolds, congrArg Prod.snd startHolds, accepted⟩
  · intro table checked
    simp only [mulRegion, bind_checks, copy_advice_checks, Bool.and_eq_true, decide_eq_true_eq]
      at checked
    exact mul_rows_forced bits length (fun _ => Prod.ext checked.1 checked.2.1) checked.2.2

theorem computes_assign_fixed_point (constant : C.subgroup) :
    Computes (assignFixedPoint C constant) (cells (MarkedPoint.ofSubgroup constant)) := by
  apply (computes_assign_fixed _).bind
  exact (computes_assign_fixed _).returning _

theorem computes_mul (bits : List Bool) (base : MarkedPoint C) :
    Computes (mul C (bits.map bit) (cells base)) (cells (MarkedPoint.mul bits base)) := by
  apply (computes_assign_fixed_point 0).bind
  rw [← map_reverse, ← MarkedPoint.double_and_add_mul]
  exact computes_mul_region base bits.reverse

theorem computes_add_points (p q : MarkedPoint C) :
    Computes (add C (cells p) (cells q)) (cells (p.add q)) := by
  apply (computes_assign_fixed _).bind
  let start : Table (ZMod modulus) := setCell (setCell (setCell (setCell (setCell (fun _ _ => 0)
    0 0 (cells p).x) 0 1 (cells p).y) 0 2 (cells q).x) 0 3 (cells q).y) 0 4 (bit true)
  rcases cond_add_write start 0 p q true with ⟨written, run, filled, keeps⟩
  have kept : ∀ column, column < 5 → written 0 column = start 0 column :=
    fun column small => keeps 0 column (by omega)
  have inputs : RowInputs written 0 p q true := by
    constructor
    · rw [kept 0 (by omega), kept 1 (by omega)]
      simp [start, cells]
    · rw [kept 2 (by omega), kept 3 (by omega)]
      simp [start, cells]
    · rw [kept 4 (by omega)]
      simp [start]
  apply computes_assign_region run
  · simp only [bind_checks, copy_advice_checks, Bool.and_eq_true, decide_eq_true_eq,
      cond_add_checks inputs]
    exact ⟨congrArg Prod.fst inputs.acc, congrArg Prod.snd inputs.acc, congrArg Prod.fst inputs.base,
      congrArg Prod.snd inputs.base, inputs.bit, filled⟩
  · intro table checked
    simp only [bind_checks, copy_advice_checks, Bool.and_eq_true, decide_eq_true_eq] at checked
    rcases checked with ⟨px, py, qx, qy, b, row⟩
    have tableInputs : RowInputs table 0 p q true := ⟨Prod.ext px py, Prod.ext qx qy, b⟩
    have sum := ((cond_add_checks tableInputs _ _ _).mp row).sum
    apply AssignedNativePoint.ext
    · exact congrArg Prod.fst sum
    · exact congrArg Prod.snd sum
    · rfl

theorem computes_negate (p : MarkedPoint C) : Computes (negate (cells p)) (cells p.neg) := by
  have combination := computes_linear_combination [(-1, (cells p).x)] (0 : ZMod modulus)
  have mirrored := C.coordinates_neg p.point
  have value : (0 : ZMod modulus) + ([(-1, (cells p).x)].map fun term : ZMod modulus × ZMod modulus =>
      term.1 * term.2).sum = (cells p.neg).x := by
    simp [cells, MarkedPoint.neg, mirrored]
  have same : cells p.neg =
      { x := (cells p.neg).x, y := (cells p).y, inSubgroup := (cells p).inSubgroup } := by
    simp [cells, MarkedPoint.neg, mirrored]
  rw [value] at combination
  rw [same]
  exact combination.returning _

end Midfall.EdwardsChip
