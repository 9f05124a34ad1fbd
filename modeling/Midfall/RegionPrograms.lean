import Midfall.CircuitPrograms

/-!
# Regions of advice cells

A region is a table of advice cells with gates enabled at some of its rows. The
prover fills cells one after another; the constraints read a finished table,
where a copied cell equals its source and every enabled gate vanishes. A gate may
look at the next row, so that rows share cells.
-/

namespace Midfall.RegionPrograms

open CircuitPrograms

abbrev Table (F : Type) := Nat → Nat → F

variable {F Value Result Input : Type}

def setCell (table : Table F) (row column : Nat) (value : F) : Table F :=
  fun otherRow otherColumn =>
    if otherRow = row ∧ otherColumn = column then value else table otherRow otherColumn

@[simp]
theorem set_cell_apply (table : Table F) (row column otherRow otherColumn : Nat) (value : F) :
    setCell table row column value otherRow otherColumn =
      if otherRow = row ∧ otherColumn = column then value else table otherRow otherColumn := rfl

/-- The prover's run, the result on a finished table and the constraints on it. -/
structure Region (F Value : Type) where
  write : Table F → Option (Value × Table F)
  value : Table F → Value
  checks : Table F → Bool

protected def Region.pure (value : Value) : Region F Value where
  write := fun table => some (value, table)
  value := fun _ => value
  checks := fun _ => true

protected def Region.bind (first : Region F Value) (next : Value → Region F Result) :
    Region F Result where
  write := fun table => (first.write table).bind fun written => (next written.1).write written.2
  value := fun table => (next (first.value table)).value table
  checks := fun table => first.checks table && (next (first.value table)).checks table

instance : Monad (Region F) where
  pure := Region.pure
  bind := Region.bind

/-- A gate is a list of identities over the cells of a column at a rotation. -/
abbrev Gate (F : Type) := (Nat → Nat → F) → List F

/-- A cell that the prover fills; without a hint it panics. -/
def assignAdvice (column row : Nat) (hint : Option F) : Region F F where
  write := fun table => hint.map fun value => (value, setCell table row column value)
  value := fun table => table row column
  checks := fun _ => true

def copyAdvice [DecidableEq F] (cell : F) (column row : Nat) : Region F F where
  write := fun table => some (cell, setCell table row column cell)
  value := fun table => table row column
  checks := fun table => table row column = cell

def enable [DecidableEq F] [Zero F] (gate : Gate F) (row : Nat) : Region F Unit where
  write := fun table => some ((), table)
  value := fun _ => ()
  checks := fun table => (gate fun column rotation => table (row + rotation) column).all (· = 0)

/-- The prover starts from empty cells; the constraints allow every table. -/
def assignRegion [Zero F] (region : Region F Value) : Circuit Value where
  honest := (region.write fun _ _ => 0).bind fun written =>
    if region.checks written.2 then some written.1 else none
  allows := fun result => ∃ table, region.checks table ∧ region.value table = result

@[simp]
theorem pure_write (value : Value) (table : Table F) :
    (pure value : Region F Value).write table = some (value, table) := rfl

@[simp]
theorem pure_value (value : Value) (table : Table F) :
    (pure value : Region F Value).value table = value := rfl

@[simp]
theorem pure_checks (value : Value) (table : Table F) :
    (pure value : Region F Value).checks table = true := rfl

section

variable (first : Region F Value) (next : Value → Region F Result) (table : Table F)

include first next table

@[simp]
theorem bind_write :
    (first >>= next).write table =
      (first.write table).bind fun written => (next written.1).write written.2 := rfl

@[simp]
theorem bind_value :
    (first >>= next).value table = (next (first.value table)).value table := rfl

@[simp]
theorem bind_checks :
    (first >>= next).checks table =
      (first.checks table && (next (first.value table)).checks table) := rfl

end

/-! Cells and gates. -/

@[simp]
theorem assign_advice_write (column row : Nat) (hint : F) (table : Table F) :
    (assignAdvice column row (some hint)).write table =
      some (hint, setCell table row column hint) := rfl

@[simp]
theorem assign_advice_value (column row : Nat) (hint : Option F) (table : Table F) :
    (assignAdvice column row hint).value table = table row column := rfl

@[simp]
theorem assign_advice_checks (column row : Nat) (hint : Option F) (table : Table F) :
    (assignAdvice column row hint).checks table = true := rfl

section Decided

variable [DecidableEq F] [Zero F]

omit [Zero F] in
@[simp]
theorem copy_advice_write (cell : F) (column row : Nat) (table : Table F) :
    (copyAdvice cell column row).write table = some (cell, setCell table row column cell) := rfl

omit [Zero F] in
@[simp]
theorem copy_advice_checks (cell : F) (column row : Nat) (table : Table F) :
    (copyAdvice cell column row).checks table = decide (table row column = cell) := rfl

@[simp]
theorem enable_write (gate : Gate F) (row : Nat) (table : Table F) :
    (enable gate row).write table = some ((), table) := rfl

@[simp]
theorem enable_checks (gate : Gate F) (row : Nat) (table : Table F) :
    (enable gate row).checks table = true ↔
      ∀ identity ∈ gate fun column rotation => table (row + rotation) column, identity = 0 := by
  simp [enable]

end Decided

variable [Zero F]

theorem computes_assign_region {region : Region F Value} {value : Value} {table : Table F}
    (written : region.write (fun _ _ => 0) = some (value, table)) (accepted : region.checks table)
    (forced : ∀ other, region.checks other → region.value other = value) :
    Computes (assignRegion region) value where
  honest := by
    simp [assignRegion, written, accepted]
  allows := by
    intro result
    constructor
    · rintro ⟨other, checked, same⟩
      rw [← same]
      exact forced other checked
    · intro same
      rw [same]
      exact ⟨table, accepted, forced table accepted⟩

end Midfall.RegionPrograms
