import Mathlib

/-!
# Running products and sums over rows

A table that starts with a value and continues with one step for each row, and
lists of rows given by a function.
-/

namespace Midfall.RunningFolds

open List

variable {Value Step : Type}

def rowTable (count : Nat) (f : Nat → Value) : List Value := (range count).map f

@[simp] theorem row_table_length (count : Nat) (f : Nat → Value) :
    (rowTable count f).length = count := by
  simp [rowTable]

theorem row_table_get {count row : Nat} (f : Nat → Value) (inside : row < count) :
    (rowTable count f)[row]? = some (f row) := by
  simp [rowTable, inside]

theorem row_table_get_d {count row : Nat} (f : Nat → Value) (default : Value)
    (inside : row < count) : (rowTable count f).getD row default = f row := by
  rw [getD_eq_getElem?_getD, row_table_get f inside, Option.getD_some]

theorem row_table_congr {count : Nat} {f g : Nat → Value} (same : ∀ row < count, f row = g row) :
    rowTable count f = rowTable count g :=
  map_congr_left fun row mem => same row (mem_range.mp mem)

theorem row_table_take {count fewer : Nat} (f : Nat → Value) (le : fewer ≤ count) :
    (rowTable count f).take fewer = rowTable fewer f := by
  rw [rowTable, ← map_take, take_range, Nat.min_eq_left le, rowTable]

theorem row_table_constant (count : Nat) (value : Value) :
    replicate count value = rowTable count fun _ => value := by
  simp [rowTable]

variable {Image : Type}

theorem row_table_map (count : Nat) (f : Nat → Value) (view : Value → Image) :
    (rowTable count f).map view = rowTable count fun row => view (f row) := by
  simp [rowTable]

theorem row_table_zip {Other : Type} (count : Nat) (f : Nat → Value) (g : Nat → Other) :
    (rowTable count f).zip (rowTable count g) = rowTable count fun row => (f row, g row) := by
  rw [rowTable, rowTable, zip_map', rowTable]

theorem row_table_zip_idx (count : Nat) (f : Nat → Value) (view : Value × Nat → Image) :
    (rowTable count f).zipIdx.map view = rowTable count fun row => view (f row, row) := by
  apply ext_getElem (by simp)
  intro row _ _
  simp [rowTable]

theorem zip_map_self (items : List Value) (view : Value → Image) :
    items.zip (items.map view) = items.map fun item => (item, view item) := by
  induction items with
  | nil => rfl
  | cons item rest ih => rw [map_cons, zip_cons_cons, ih, map_cons]

theorem scanl_row_table (op : Value → Step → Value) (start : Value) (count : Nat)
    (steps : Nat → Step) :
    List.scanl op start (rowTable count steps) =
      rowTable (count + 1) fun row => (rowTable row steps).foldl op start := by
  apply ext_getElem (by simp [length_scanl])
  intro row inside _
  rw [length_scanl, row_table_length] at inside
  have short : row ≤ count := by omega
  rw [getElem_scanl, row_table_take steps short]
  simp [rowTable]

section Products

variable {M : Type} [CommMonoid M]

theorem foldl_products (start : M) (count : Nat) (steps : Nat → M) :
    (rowTable count steps).foldl (fun last step => last * step) start =
      start * ∏ row ∈ Finset.range count, steps row := by
  induction count with
  | zero => simp [rowTable]
  | succ count ih =>
    have split : rowTable (count + 1) steps = rowTable count steps ++ [steps count] := by
      simp [rowTable, range_succ]
    rw [split, foldl_append, ih, Finset.prod_range_succ]
    simp [mul_assoc]

theorem scanl_products (start : M) (count : Nat) (steps : Nat → M) :
    List.scanl (fun last step => last * step) start (rowTable count steps) =
      rowTable (count + 1) fun row => start * ∏ earlier ∈ Finset.range row, steps earlier := by
  rw [scanl_row_table]
  exact row_table_congr fun row _ => foldl_products start row steps

end Products

section Sums

variable {M : Type} [AddCommMonoid M]

theorem foldl_sums (start : M) (count : Nat) (steps : Nat → M) :
    (rowTable count steps).foldl (fun last step => last + step) start =
      start + ∑ row ∈ Finset.range count, steps row :=
  @foldl_products (Multiplicative M) _ start count steps

theorem sum_rows (count : Nat) (steps : Nat → M) :
    (rowTable count steps).sum = ∑ row ∈ Finset.range count, steps row := by
  rw [sum_eq_foldl, foldl_sums, zero_add]

theorem scanl_sums (start : M) (count : Nat) (steps : Nat → M) :
    List.scanl (fun last step => last + step) start (rowTable count steps) =
      rowTable (count + 1) fun row => start + ∑ earlier ∈ Finset.range row, steps earlier :=
  @scanl_products (Multiplicative M) _ start count steps

end Sums

theorem prod_reindexed {Cell M : Type} [Fintype Cell] [CommMonoid M] (successor : Equiv.Perm Cell)
    (inside : Cell → Prop) [DecidablePred inside]
    (fixed : ∀ cell, ¬inside cell → successor cell = cell) (f : Cell → M) :
    ∏ cell with inside cell, f (successor cell) = ∏ cell with inside cell, f cell := by
  have stays : ∀ cell, inside (successor cell) ↔ inside cell := by
    intro cell
    constructor
    · intro next
      by_contra outside
      rw [fixed cell outside] at next
      exact outside next
    · intro here
      by_contra outside
      have same := successor.injective (fixed (successor cell) outside)
      rw [same] at outside
      exact outside here
  rw [Finset.prod_filter, Finset.prod_filter,
    ← Equiv.prod_comp successor fun cell => if inside cell then f cell else 1]
  simp only [stays]

theorem prod_first_rows {M : Type} [CommMonoid M] {columns count first : Nat} (le : first ≤ count)
    (f : Nat → Nat → M) :
    ∏ cell : Fin columns × Fin count with cell.2.val < first, f cell.1 cell.2 =
      ∏ row ∈ Finset.range first, ∏ column : Fin columns, f column row := by
  have column_rows : ∀ column : Fin columns,
      (∏ row : Fin count, if row.val < first then f column row else 1) =
        ∏ row ∈ Finset.range first, f column row := by
    intro column
    have within : (Finset.range count).filter (fun row => row < first) = Finset.range first := by
      ext row
      simp only [Finset.mem_filter, Finset.mem_range]
      omega
    rw [Fin.prod_univ_eq_prod_range (fun row => if row < first then f column row else 1) count,
      ← Finset.prod_filter, within]
  rw [Finset.prod_filter, Fintype.prod_prod_type, Finset.prod_congr rfl fun column _ =>
    column_rows column, Finset.prod_comm]

section Groups

variable {Key F : Type} [DecidableEq Key] [CommRing F]

def addGroup (before : Key → Key → Bool) (key : Key) (value : F) : List (Key × F) → List (Key × F)
  | [] => [(key, 0 + value)]
  | group :: rest =>
    if before key group.1 then (key, 0 + value) :: group :: rest
    else if key = group.1 then (key, group.2 + value) :: rest
    else group :: addGroup before key value rest

def weightedSum (g : Key → F) (weights : List (Key × F)) : F :=
  (weights.map fun weight => weight.2 * g weight.1).sum

omit [DecidableEq Key] in
theorem weighted_sum_cons (g : Key → F) (weight : Key × F) (rest : List (Key × F)) :
    weightedSum g (weight :: rest) = weight.2 * g weight.1 + weightedSum g rest := by
  rw [weightedSum, map_cons, sum_cons, weightedSum]

theorem weighted_sum_add_group (g : Key → F) (before : Key → Key → Bool) (key : Key) (value : F)
    (groups : List (Key × F)) :
    weightedSum g (addGroup before key value groups) =
      weightedSum g groups + value * g key := by
  induction groups with
  | nil => simp [addGroup, weightedSum]
  | cons group rest ih =>
    rw [addGroup]
    split_ifs with first same
    · simp only [weighted_sum_cons, zero_add]
      ring
    · simp only [weighted_sum_cons, same]
      ring
    · simp only [weighted_sum_cons, ih]
      ring

theorem weighted_sum_groups (g : Key → F) (before : Key → Key → Bool)
    (weights groups : List (Key × F)) :
    weightedSum g (weights.foldl (fun groups weight => addGroup before weight.1 weight.2 groups)
        groups) = weightedSum g groups + weightedSum g weights := by
  induction weights generalizing groups with
  | nil => simp [weightedSum]
  | cons weight rest ih =>
    rw [foldl_cons, ih, weighted_sum_add_group, weighted_sum_cons]
    ring

variable {before : Key → Key → Bool}

theorem mem_add_group {key : Key} {value : F} {groups : List (Key × F)} {group : Key × F}
    (mem : group ∈ addGroup before key value groups) :
    group.1 = key ∨ ∃ old ∈ groups, group.1 = old.1 := by
  induction groups with
  | nil =>
    rw [addGroup, mem_singleton] at mem
    exact Or.inl (congrArg Prod.fst mem)
  | cons first rest ih =>
    rw [addGroup] at mem
    split_ifs at mem with earlier same
    · rcases mem_cons.mp mem with added | old
      · exact Or.inl (congrArg Prod.fst added)
      · exact Or.inr ⟨group, old, rfl⟩
    · rcases mem_cons.mp mem with added | old
      · exact Or.inl (congrArg Prod.fst added)
      · exact Or.inr ⟨group, mem_cons_of_mem first old, rfl⟩
    · rcases mem_cons.mp mem with here | later
      · exact Or.inr ⟨first, mem_cons_self, congrArg Prod.fst here⟩
      · rcases ih later with added | old
        · exact Or.inl added
        · rcases old with ⟨other, inRest, key_same⟩
          exact Or.inr ⟨other, mem_cons_of_mem first inRest, key_same⟩

theorem groups_keys (property : Key → Prop) {weights groups : List (Key × F)}
    (old : ∀ group ∈ groups, property group.1) (added : ∀ weight ∈ weights, property weight.1) :
    ∀ group ∈ weights.foldl (fun groups weight => addGroup before weight.1 weight.2 groups) groups,
      property group.1 := by
  induction weights generalizing groups with
  | nil => exact old
  | cons weight rest ih =>
    apply ih _ (forall_mem_cons.mp added).2
    intro group mem
    rcases mem_add_group mem with new | earlier
    · rw [new]
      exact added weight mem_cons_self
    · rcases earlier with ⟨other, inGroups, same⟩
      rw [same]
      exact old other inGroups

end Groups

end Midfall.RunningFolds
