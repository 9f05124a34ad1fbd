import Midfall.RawAutomata

/-!
# Lookup tables

A table layouter assigns fixed cells, and records the first value and the
assigned rows of each column. The single pass layouter then fills the rest of
each column with its first value, in the assembly of the key generator.
-/

namespace Midfall.TableFilling

open ListLoops List
open RawAutomata (HashOrder)

variable {F : Type}

inductive Error (F : Type)
  | notEnoughRowsAvailable (currentK : Nat)
  | boundsFailure
  | synthesis
  | usedColumn (column : Nat)
  | overwriteDefault (column : Nat) (default value : Option F)
  | columnNotAssigned (column : Nat)
  | unevenColumnLengths (first second : Nat × Nat)
  | panicked

/-- The usable rows start at zero. An unknown `Value` is `none`. -/
structure Assembly (F : Type) where
  k : Nat
  fixed : List (List F)
  usableRows : Nat

def Assembly.cell (cs : Assembly F) (column row : Nat) : Option F :=
  (cs.fixed[column]?).bind fun values => values[row]?

def assignValue : Option F → Except (Error F) F
  | none => .error .synthesis
  | some value => .ok value

def Assembly.assignFixed (cs : Assembly F) (column row : Nat) (value : Option F) :
    Except (Error F) (Assembly F) :=
  if row < cs.usableRows then do
    -- The right side of an assignment is evaluated first.
    let known ← assignValue value
    if (cs.cell column row).isNone then .error .boundsFailure
    else return { cs with fixed := cs.fixed.modify column fun values => values.set row known }
  else .error (.notEnoughRowsAvailable cs.k)

def fillRow (filler : F) (values : List F) (row : Nat) : Except (Error F) (List F) :=
  if row < values.length then .ok (values.set row filler) else .error .panicked

def Assembly.fillFromRow (cs : Assembly F) (column fromRow : Nat) (value : Option F) :
    Except (Error F) (Assembly F) :=
  if fromRow < cs.usableRows then
    match cs.fixed[column]? with
    | none => .error .boundsFailure
    | some values => do
      let filler ← assignValue value
      let values ← ((List.range cs.usableRows).drop fromRow).foldlM (fillRow filler) values
      return { cs with fixed := cs.fixed.set column values }
  else .error (.notEnoughRowsAvailable cs.k)

abbrev DefaultTableValue (F : Type) := Option (Option F)

/-- The map has its keys, and `or_default` for the other columns. -/
structure SimpleTableLayouter (F : Type) where
  cs : Assembly F
  usedColumns : List Nat
  keys : List Nat
  entry : Nat → DefaultTableValue F × List Bool

def nextDefault (column : Nat) (value : Option F) :
    DefaultTableValue F → Nat → Except (Error F) (DefaultTableValue F)
  | none, 0 => .ok (some value)
  | some default, 0 => .error (.overwriteDefault column default value)
  | default, _ + 1 => .ok default

/-- `resize(row + 1, false)` where the row is missing. -/
def markRow (assigned : List Bool) (row : Nat) : List Bool :=
  (assigned ++ replicate (row + 1 - assigned.length) false).set row true

def SimpleTableLayouter.new (cs : Assembly F) (usedColumns : List Nat) : SimpleTableLayouter F :=
  { cs, usedColumns, keys := [], entry := fun _ => (none, []) }

def SimpleTableLayouter.assignCell (table : SimpleTableLayouter F) (column offset : Nat)
    (value : Option F) : Except (Error F) (SimpleTableLayouter F) :=
  if column ∈ table.usedColumns then .error (.usedColumn column)
  else do
    let entry := table.entry column
    let cs ← table.cs.assignFixed column offset value
    let default ← nextDefault column value entry.1 offset
    return { table with
      cs
      keys := table.keys.insert column
      entry := Function.update table.entry column (default, markRow entry.2 offset) }

/-- A call of `assign_cell`: column and offset, and the value. -/
def SimpleTableLayouter.assignCall (table : SimpleTableLayouter F)
    (call : (Nat × Nat) × Option F) : Except (Error F) (SimpleTableLayouter F) :=
  table.assignCell call.1.1 call.1.2 call.2

def columnLength (entry : Nat → DefaultTableValue F × List Bool) (column : Nat) :
    Except (Error F) (Nat × Nat) :=
  if (entry column).1.isNone ∨ (entry column).2 = [] then .error (.columnNotAssigned column)
  else if (entry column).2.all id then .ok (column, (entry column).2.length)
  else .error (.columnNotAssigned column)

def sameLength (acc : Option Nat × Nat) (length : Nat × Nat) :
    Except (Error F) (Option Nat × Nat) :=
  if acc.2 = 0 ∨ acc.2 = length.2 then .ok (some length.1, length.2)
  else
    match acc.1 with
    | none => .error .panicked
    | some column =>
      if length.1 ≤ column then .error (.unevenColumnLengths length (column, acc.2))
      else .error (.unevenColumnLengths (column, acc.2) length)

def computeTableLengths (entry : Nat → DefaultTableValue F × List Bool) (keys : List Nat) :
    Except (Error F) Nat := do
  let lengths ← keys.mapM (columnLength entry)
  let joined ← lengths.foldlM sameLength (none, 0)
  return joined.2

def fillColumn (entry : Nat → DefaultTableValue F × List Bool) (firstUnused : Nat)
    (cs : Assembly F) (column : Nat) : Except (Error F) (Assembly F) :=
  match (entry column).1 with
  | none => .error .panicked
  | some default => cs.fillFromRow column firstUnused default

structure SingleChipLayouter (F : Type) where
  cs : Assembly F
  tableColumns : List Nat

/-- The closure makes the calls of `assign_cell` one after another. -/
def SingleChipLayouter.assignTable (order : HashOrder) (layouter : SingleChipLayouter F)
    (calls : List ((Nat × Nat) × Option F)) : Except (Error F) (SingleChipLayouter F) := do
  let table ← calls.foldlM SimpleTableLayouter.assignCall (.new layouter.cs layouter.tableColumns)
  let keys := order.arrange table.keys
  let firstUnused ← computeTableLengths table.entry keys
  let cs ← keys.foldlM (fillColumn table.entry firstUnused) table.cs
  return { cs, tableColumns := layouter.tableColumns ++ keys }

theorem assign_fixed_cell {cs : Assembly F} {column row : Nat} (value : F)
    (usable : row < cs.usableRows) (there : (cs.cell column row).isSome) :
    ∃ after, cs.assignFixed column row (some value) = .ok after ∧
      after.usableRows = cs.usableRows ∧
      ∀ other line, after.cell other line =
        if (other, line) = (column, row) then some value else cs.cell other line := by
  refine ⟨{ cs with fixed := cs.fixed.modify column fun values => values.set row value },
    ?_, rfl, fun other line => ?_⟩
  · have present : (cs.cell column row).isNone = false := by simpa using there
    simp only [Assembly.assignFixed, if_pos usable, assignValue, present]
    rfl
  · unfold Assembly.cell at there ⊢
    rw [getElem?_modify]
    by_cases same : column = other
    · subst same
      cases found : cs.fixed[column]? with
      | none => simp [found] at there
      | some values =>
        have inside : row < values.length := by simpa [found] using there
        simp [getElem?_set, inside, eq_comm]
    · simp [same, Ne.symm same]

theorem fill_rows (filler : F) (rows : List Nat) :
    ∀ values : List F, (∀ row ∈ rows, row < values.length) →
      ∃ after, rows.foldlM (fillRow filler) values = .ok after ∧
        ∀ line, after[line]? = if line ∈ rows then some filler else values[line]? := by
  induction rows with
  | nil => exact fun values inside => ⟨values, rfl, by simp⟩
  | cons row rows ih =>
    intro values inside
    have first := inside row mem_cons_self
    obtain ⟨after, ran, filled⟩ := ih (values.set row filler) fun other mem => by
      rw [length_set]
      exact inside other (mem_cons_of_mem row mem)
    refine ⟨after, ?_, fun line => ?_⟩
    · rw [foldlM_cons, fillRow, if_pos first]
      exact ran
    · rw [filled, getElem?_set]
      by_cases later : line ∈ rows
      · simp [later]
      · by_cases same : row = line
        · simp [later, same, same ▸ first]
        · simp [later, same, Ne.symm same]

theorem fill_from_row_cell {cs : Assembly F} {column fromRow : Nat} (filler : F)
    (usable : fromRow < cs.usableRows)
    (there : ∀ row < cs.usableRows, (cs.cell column row).isSome) :
    ∃ after, cs.fillFromRow column fromRow (some filler) = .ok after ∧
      after.usableRows = cs.usableRows ∧
      ∀ other line, after.cell other line =
        if other = column ∧ fromRow ≤ line ∧ line < cs.usableRows then some filler
        else cs.cell other line := by
  have first := there fromRow usable
  cases found : cs.fixed[column]? with
  | none => simp [Assembly.cell, found] at first
  | some values =>
    have rows : ∀ line, line ∈ (List.range cs.usableRows).drop fromRow ↔
        fromRow ≤ line ∧ line < cs.usableRows := by
      intro line
      rw [range_eq_range', drop_range', mem_range'_1]
      omega
    obtain ⟨after, ran, filled⟩ := fill_rows filler _ values fun row mem => by
      have inside := there row ((rows row).mp mem).2
      simpa [Assembly.cell, found] using inside
    refine ⟨{ cs with fixed := cs.fixed.set column after }, ?_, rfl, fun other line => ?_⟩
    · simp only [Assembly.fillFromRow, if_pos usable, found]
      change ((List.range cs.usableRows).drop fromRow).foldlM (fillRow filler) values >>= _ = _
      rw [ran]
      rfl
    · unfold Assembly.cell
      rw [getElem?_set]
      by_cases same : column = other
      · subst same
        have inside : column < cs.fixed.length := (List.getElem?_eq_some_iff.mp found).1
        rw [if_pos rfl, if_pos inside, Option.bind_some, filled, found, Option.bind_some]
        simp only [rows, true_and]
      · simp [same, Ne.symm same]

/-- What the calls so far leave: the assigned cells, and the record of them. -/
structure Tracks (start : SingleChipLayouter F) (value : Nat → Nat → F) (len : Nat)
    (done : List (Nat × Nat)) (table : SimpleTableLayouter F) : Prop where
  usable : table.cs.usableRows = start.cs.usableRows
  cells : ∀ column row, table.cs.cell column row =
    if (column, row) ∈ done then some (value column row) else start.cs.cell column row
  used : table.usedColumns = start.tableColumns
  distinct : table.keys.Nodup
  keys : ∀ column, column ∈ table.keys ↔ ∃ row, (column, row) ∈ done
  default : ∀ column, (table.entry column).1 =
    if (column, 0) ∈ done then some (some (value column 0)) else none
  assigned : ∀ column row, (table.entry column).2.getD row false = decide ((column, row) ∈ done)
  short : ∀ column, (table.entry column).2.length ≤ len

def callOf (value : Nat → Nat → F) (position : Nat × Nat) : (Nat × Nat) × Option F :=
  (position, some (value position.1 position.2))

/-- Every row below `len` of every column is assigned once, in any order. -/
structure ContiguousTable (layouter : SingleChipLayouter F) (columns : List Nat) (len : Nat)
    (positions : List (Nat × Nat)) : Prop where
  distinct : columns.Nodup
  positive : 0 < len
  fits : len ≤ layouter.cs.usableRows
  fresh : ∀ column ∈ columns, column ∉ layouter.tableColumns
  allocated : ∀ column ∈ columns, ∀ row < layouter.cs.usableRows,
    (layouter.cs.cell column row).isSome
  once : positions.Perm (columns.product (List.range len))

variable {layouter : SingleChipLayouter F} {value : Nat → Nat → F} {len : Nat}
  {done : List (Nat × Nat)} {table : SimpleTableLayouter F}

theorem marked_get (assigned : List Bool) (row line : Nat) :
    (markRow assigned row).getD line false = (decide (line = row) || assigned.getD line false) := by
  unfold markRow
  simp only [getD_eq_getElem?_getD, getElem?_set]
  by_cases same : row = line
  · have inside : row < (assigned ++ replicate (row + 1 - assigned.length) false).length := by
      rw [length_append, length_replicate]
      omega
    rw [if_pos same, if_pos inside]
    simp [same]
  · rw [if_neg same, getElem?_append, getElem?_replicate]
    by_cases old : line < assigned.length
    · simp [old, Ne.symm same]
    · simp only [old, if_false, Ne.symm same, decide_false, Bool.false_or]
      rw [getElem?_eq_none (Nat.le_of_not_lt old)]
      split_ifs <;> rfl

theorem assign_cell_tracks (tracks : Tracks layouter value len done table) {column row : Nat}
    (fresh : column ∉ layouter.tableColumns) (new : (column, row) ∉ done) (inside : row < len)
    (usable : row < layouter.cs.usableRows) (there : (layouter.cs.cell column row).isSome) :
    ∃ after, table.assignCell column row (some (value column row)) = .ok after ∧
      Tracks layouter value len ((column, row) :: done) after := by
  have present : (table.cs.cell column row).isSome := by rwa [tracks.cells, if_neg new]
  obtain ⟨cs, ran, sameRows, cells⟩ := assign_fixed_cell (value column row)
    (by rwa [tracks.usable]) present
  have default : nextDefault column (some (value column row)) (table.entry column).1 row =
      .ok (if (column, 0) ∈ (column, row) :: done then some (some (value column 0)) else none) := by
    rw [tracks.default]
    cases row with
    | zero => simp [new, nextDefault]
    | succ row =>
      by_cases first : (column, 0) ∈ done <;> simp [first, nextDefault]
  refine ⟨{ table with
    cs
    keys := table.keys.insert column
    entry := Function.update table.entry column
      (if (column, 0) ∈ (column, row) :: done then some (some (value column 0)) else none,
        markRow (table.entry column).2 row) }, ?_, ?_⟩
  · rw [SimpleTableLayouter.assignCell, if_neg (by rwa [tracks.used])]
    dsimp only
    rw [ran]
    change (nextDefault _ _ _ _ >>= _) = _
    rw [default]
    rfl
  · exact {
      usable := sameRows.trans tracks.usable
      cells := by
        intro other line
        rw [cells, tracks.cells]
        by_cases same : (other, line) = (column, row)
        · simp only [Prod.mk.injEq] at same
          simp [same.1, same.2]
        · simp [same]
      used := tracks.used
      distinct := tracks.distinct.insert
      keys := by
        intro other
        rw [mem_insert_iff, tracks.keys]
        simp only [mem_cons, Prod.mk.injEq, exists_or, exists_and_left, exists_eq, and_true]
      default := by
        intro other
        by_cases same : other = column
        · simp [same]
        · simp [same, tracks.default]
      assigned := by
        intro other line
        by_cases same : other = column
        · simp [same, marked_get, tracks.assigned, -getD_eq_getElem?_getD]
        · simp [same, tracks.assigned, -getD_eq_getElem?_getD]
      short := by
        intro other
        have before := tracks.short other
        by_cases same : other = column
        · rw [same] at before
          simp only [same, Function.update_self, markRow, length_set, length_append,
            length_replicate]
          omega
        · simpa [same] using before }

theorem assign_cells_track (positions : List (Nat × Nat)) :
    ∀ (done : List (Nat × Nat)) (table : SimpleTableLayouter F),
      Tracks layouter value len done table → (positions ++ done).Nodup →
        (∀ position ∈ positions, position.1 ∉ layouter.tableColumns ∧ position.2 < len ∧
          position.2 < layouter.cs.usableRows ∧
          (layouter.cs.cell position.1 position.2).isSome) →
          ∃ after, (positions.map (callOf value)).foldlM SimpleTableLayouter.assignCall table = .ok after ∧
            Tracks layouter value len (positions.reverse ++ done) after := by
  induction positions with
  | nil => exact fun done table tracks _ _ => ⟨table, rfl, tracks⟩
  | cons position positions ih =>
    intro done table tracks distinct allowed
    rw [cons_append, nodup_cons] at distinct
    have first := allowed position mem_cons_self
    obtain ⟨next, ran, tracksNext⟩ := assign_cell_tracks tracks first.1
      (fun mem => distinct.1 (mem_append_right _ mem)) first.2.1 first.2.2.1 first.2.2.2
    obtain ⟨after, rest, tracksAfter⟩ := ih (position :: done) next tracksNext
      (by
        rw [nodup_middle, nodup_cons]
        exact distinct)
      (forall_mem_cons.mp allowed).2
    refine ⟨after, ?_, ?_⟩
    · have called : table.assignCall (callOf value position) = .ok next := ran
      rw [map_cons, foldlM_cons, called]
      exact rest
    · rwa [reverse_cons, append_assoc]

theorem column_length_full (tracks : Tracks layouter value len done table) {column : Nat}
    (full : ∀ row, (column, row) ∈ done ↔ row < len) (pos : 0 < len) :
    columnLength table.entry column = .ok (column, len) := by
  have assigned : ∀ row, (table.entry column).2.getD row false = decide (row < len) := fun row => by
    rw [tracks.assigned, decide_eq_decide]
    exact full row
  have long : (table.entry column).2.length = len := by
    have last := assigned (len - 1)
    have short := tracks.short column
    rw [decide_eq_true (by omega)] at last
    by_contra other
    rw [getD_eq_default _ _ (by omega)] at last
    contradiction
  have nonempty : (table.entry column).2 ≠ [] := ne_nil_of_length_pos (by omega)
  have all : (table.entry column).2.all id = true := by
    rw [all_eq_true]
    intro flag mem
    obtain ⟨row, inside, same⟩ := mem_iff_getElem.mp mem
    have set := assigned row
    rw [decide_eq_true (by omega), getD_eq_getElem _ _ inside, same] at set
    exact set
  have first : (table.entry column).1.isNone = false := by
    rw [tracks.default, if_pos ((full 0).mpr pos)]
    rfl
  simp [columnLength, first, nonempty, all, long]

theorem join_lengths (keys : List Nat) :
    ∀ acc : Option Nat × Nat, acc.2 = 0 ∨ acc.2 = len →
      ∃ joined, (keys.map fun column => (column, len)).foldlM (@sameLength F) acc = .ok joined ∧
        joined.2 = if keys = [] then acc.2 else len := by
  induction keys with
  | nil => exact fun acc _ => ⟨acc, rfl, rfl⟩
  | cons column keys ih =>
    intro acc same
    obtain ⟨joined, ran, length⟩ := ih (some column, len) (.inr rfl)
    refine ⟨joined, ?_, ?_⟩
    · rw [map_cons, foldlM_cons, sameLength, if_pos same]
      exact ran
    · simpa using length

theorem compute_lengths {entry : Nat → DefaultTableValue F × List Bool} {keys : List Nat}
    (lengths : ∀ column ∈ keys, columnLength entry column = .ok (column, len)) :
    computeTableLengths entry keys = .ok (if keys = [] then 0 else len) := by
  obtain ⟨joined, ran, length⟩ := @join_lengths F len keys (none, 0) (.inl rfl)
  unfold computeTableLengths
  rw [map_m_of_forall keys lengths, pure_bind, ran, ← length]
  rfl

theorem fill_columns {entry : Nat → DefaultTableValue F × List Bool} {firstUnused : Nat}
    (keys : List Nat) :
    ∀ cs : Assembly F, firstUnused < cs.usableRows →
      (∀ column ∈ keys, (entry column).1 = some (some (value column 0))) →
      (∀ column ∈ keys, ∀ row < cs.usableRows, (cs.cell column row).isSome) →
        ∃ after, keys.foldlM (fillColumn entry firstUnused) cs = .ok after ∧
          ∀ column row, after.cell column row =
            if column ∈ keys ∧ firstUnused ≤ row ∧ row < cs.usableRows then some (value column 0)
            else cs.cell column row := by
  induction keys with
  | nil => exact fun cs _ _ _ => ⟨cs, rfl, by simp⟩
  | cons first keys ih =>
    intro cs usable defaults there
    obtain ⟨next, ran, sameRows, cells⟩ := fill_from_row_cell (value first 0) usable
      (there first mem_cons_self)
    obtain ⟨after, rest, filled⟩ := ih next (by rwa [sameRows])
      (forall_mem_cons.mp defaults).2
      (by
        intro column mem row inside
        rw [cells]
        rw [sameRows] at inside
        have before := there column (mem_cons_of_mem first mem) row inside
        split_ifs <;> simp [before])
    refine ⟨after, ?_, fun column row => ?_⟩
    · rw [foldlM_cons, fillColumn, defaults first mem_cons_self]
      dsimp only
      rw [ran]
      exact rest
    · rw [filled, cells, sameRows]
      by_cases same : column = first
      · by_cases inside : firstUnused ≤ row ∧ row < cs.usableRows <;> simp [same, inside]
      · simp [same]

/-- A table is filled exactly when it leaves a usable row: the default fill of a
table of full length starts at a row that is not usable. -/
theorem assign_table_filled_iff (order : HashOrder) (layouter : SingleChipLayouter F)
    (columns : List Nat) (len : Nat) (value : Nat → Nat → F) (positions : List (Nat × Nat))
    (contiguous : ContiguousTable layouter columns len positions) :
    (∃ after, layouter.assignTable order
          (positions.map (callOf value)) = .ok after ∧
        ∀ column ∈ columns, ∀ row < layouter.cs.usableRows,
          after.cs.cell column row = some (value column (if row < len then row else 0))) ↔
      columns = [] ∨ len < layouter.cs.usableRows := by
  have mem : ∀ column row, (column, row) ∈ positions ↔ column ∈ columns ∧ row < len := by
    intro column row
    rw [contiguous.once.mem_iff, pair_mem_product, mem_range]
  obtain ⟨table, ran, tracks⟩ := @assign_cells_track _ layouter value len positions []
    (.new layouter.cs layouter.tableColumns)
    { usable := rfl, cells := by simp [SimpleTableLayouter.new], used := rfl,
      distinct := nodup_nil, keys := by simp [SimpleTableLayouter.new],
      default := by simp [SimpleTableLayouter.new], assigned := by simp [SimpleTableLayouter.new],
      short := by simp [SimpleTableLayouter.new] }
    (by
      rw [append_nil, contiguous.once.nodup_iff]
      exact contiguous.distinct.product nodup_range)
    (fun position inside => by
      have split := (mem position.1 position.2).mp inside
      have usable := Nat.lt_of_lt_of_le split.2 contiguous.fits
      exact ⟨contiguous.fresh _ split.1, split.2, usable, contiguous.allocated _ split.1 _ usable⟩)
  have done : ∀ column row, (column, row) ∈ positions.reverse ++ [] ↔ column ∈ columns ∧ row < len := by
    intro column row
    rw [append_nil, mem_reverse, mem]
  have keys : ∀ column, column ∈ order.arrange table.keys ↔ column ∈ columns := by
    intro column
    rw [(order.perm _).mem_iff, tracks.keys]
    simp only [done, exists_and_left]
    exact ⟨fun both => both.1, fun inside => ⟨inside, 0, contiguous.positive⟩⟩
  have lengths := @compute_lengths _ len table.entry (order.arrange table.keys) fun column inside =>
    column_length_full tracks (fun row => by
      rw [done, and_iff_right ((keys column).mp inside)]) contiguous.positive
  have program : layouter.assignTable order
      (positions.map (callOf value)) =
        ((order.arrange table.keys).foldlM (fillColumn table.entry
          (if order.arrange table.keys = [] then 0 else len)) table.cs >>= fun cs =>
            pure { cs, tableColumns := layouter.tableColumns ++ order.arrange table.keys }) := by
    unfold SingleChipLayouter.assignTable
    rw [ran]
    change (computeTableLengths _ _ >>= _) = _
    rw [lengths]
    rfl
  have defaults : ∀ column ∈ order.arrange table.keys,
      (table.entry column).1 = some (some (value column 0)) := by
    intro column inside
    rw [tracks.default, if_pos ((done column 0).mpr ⟨(keys column).mp inside, contiguous.positive⟩)]
  rw [program]
  cases arranged : order.arrange table.keys with
  | nil =>
    have none : columns = [] := by
      rw [eq_nil_iff_forall_not_mem]
      intro column inside
      have listed := (keys column).mpr inside
      rw [arranged] at listed
      contradiction
    rw [none]
    exact iff_of_true ⟨_, rfl, by simp⟩ (.inl rfl)
  | cons first rest =>
    have inside : first ∈ columns := (keys first).mp (by rw [arranged]; exact mem_cons_self)
    rw [if_neg (cons_ne_nil _ _), or_iff_right (ne_nil_of_mem inside), ← arranged]
    constructor
    · intro succeeds
      obtain ⟨after, returned, _⟩ := succeeds
      by_contra full
      rw [arranged, foldlM_cons, fillColumn, defaults first (by rw [arranged]; exact mem_cons_self)]
        at returned
      simp only [Assembly.fillFromRow, tracks.usable, if_neg full] at returned
      cases returned
    · intro room
      obtain ⟨cs, filledAll, cells⟩ := @fill_columns _ value table.entry len (order.arrange table.keys)
        table.cs (by rwa [tracks.usable]) defaults (by
          intro column listed row usable
          rw [tracks.usable] at usable
          have before := contiguous.allocated column ((keys column).mp listed) row usable
          rw [tracks.cells]
          split_ifs <;> simp [before])
      rw [filledAll]
      refine ⟨_, rfl, fun column listed row usable => ?_⟩
      dsimp only
      rw [cells, tracks.cells, tracks.usable]
      simp only [keys, done, listed, usable, true_and, and_true]
      by_cases low : row < len
      · simp [low]
      · simp [low, Nat.le_of_not_lt low]

theorem one_row_of_two_filled :
    ∃ after, SingleChipLayouter.assignTable HashOrder.inOrder
        (⟨⟨3, [replicate 8 0], 2⟩, []⟩ : SingleChipLayouter Nat) [((0, 0), some 5)] = .ok after ∧
      ∀ column ∈ [0], ∀ row < 2, after.cs.cell column row = some 5 :=
  (assign_table_filled_iff HashOrder.inOrder ⟨⟨3, [replicate 8 0], 2⟩, []⟩ [0] 1 (fun _ _ => 5)
    [(0, 0)] ⟨by decide, by decide, by decide, by decide, by decide, List.Perm.refl _⟩).mpr
    (.inr (by decide))

theorem two_rows_of_two_refused :
    ContiguousTable (⟨⟨3, [replicate 8 0], 2⟩, []⟩ : SingleChipLayouter Nat) [0] 2
        [(0, 0), (0, 1)] ∧
      ¬ ∃ after, SingleChipLayouter.assignTable HashOrder.inOrder
        (⟨⟨3, [replicate 8 0], 2⟩, []⟩ : SingleChipLayouter Nat)
          [((0, 0), some 5), ((0, 1), some 6)] = .ok after := by
  refine ⟨⟨by decide, by decide, by decide, by decide, by decide, List.Perm.refl _⟩, ?_⟩
  intro succeeds
  obtain ⟨after, returned⟩ := succeeds
  cases returned

end Midfall.TableFilling
