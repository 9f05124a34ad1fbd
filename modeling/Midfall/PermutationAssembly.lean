import Midfall.DomainRotations
import Midfall.ListLoops
import Midfall.MergedCycles
import Midfall.PlonkConstraintSystem

/-!
# The assembly of the permutation argument

Copies merge cycles of cells. The assembly keeps three tables: the next cell of
the cycle, the representative of the cycle, and the size at each representative.
Out of range accesses are panics (`none`).
-/

namespace Midfall.PermutationAssembly

open Equiv DomainConversions DomainRotations ListLoops
open Option (bind_eq_bind bind_some)
open MergedCycles PlonkConstraintSystem

variable {Value : Type}

/-! ### Tables of cells -/

/-- `table[i.0][i.1]`. -/
def entry (table : List (List Value)) (i : Nat × Nat) : Option Value :=
  table[i.1]?.bind fun column => column[i.2]?

/-- `table[i.0][i.1] = value`. -/
def setEntry (table : List (List Value)) (i : Nat × Nat) (value : Value) :
    Option (List (List Value)) :=
  table[i.1]?.bind fun column =>
    if i.2 < column.length then some (table.set i.1 (column.set i.2 value)) else none

/-! ### The assembly -/

structure Assembly where
  columns : List AnyColumn
  mapping : List (List (Nat × Nat))
  aux : List (List (Nat × Nat))
  sizes : List (List Nat)
  deriving DecidableEq, Repr

inductive CopyError where
  | columnNotInPermutation (column : AnyColumn)
  | boundsFailure
  deriving DecidableEq, Repr

structure CopyCall where
  leftColumn : AnyColumn
  leftRow : Nat
  rightColumn : AnyColumn
  rightRow : Nat
  deriving DecidableEq, Repr

namespace Assembly

def new (n : Nat) (columns : List AnyColumn) : Assembly :=
  let cells := (List.range columns.length).map fun i => (List.range n).map fun j => (i, j)
  { columns := columns
    mapping := cells
    aux := cells
    sizes := List.replicate columns.length (List.replicate n 1) }

/-- The loop around the right cycle; it fails where it takes more than the steps given. -/
def repoint (mapping : List (List (Nat × Nat))) (leftCycle rightCycle : Nat × Nat) :
    Nat → List (List (Nat × Nat)) → Nat × Nat → Option (List (List (Nat × Nat)))
  | 0, _, _ => none
  | fuel + 1, aux, i => do
    let aux ← setEntry aux i leftCycle
    let next ← entry mapping i
    if next = rightCycle then return aux
    else repoint mapping leftCycle rightCycle fuel aux next

def mergeCycles (assembly : Assembly) (left right leftCycle rightCycle : Nat × Nat) :
    Option Assembly := do
  let leftSize ← entry assembly.sizes leftCycle
  let rightSize ← entry assembly.sizes rightCycle
  let sizes ← setEntry assembly.sizes leftCycle (leftSize + rightSize)
  let aux ← repoint assembly.mapping leftCycle rightCycle assembly.mapping.flatten.length
    assembly.aux rightCycle
  let tmp ← entry assembly.mapping left
  let successor ← entry assembly.mapping right
  let mapping ← setEntry assembly.mapping left successor
  let mapping ← setEntry mapping right tmp
  return { assembly with mapping := mapping, aux := aux, sizes := sizes }

def copyCells (assembly : Assembly) (left right : Nat × Nat) : Option Assembly := do
  let leftCycle ← entry assembly.aux left
  let rightCycle ← entry assembly.aux right
  if leftCycle = rightCycle then return assembly
  else do
    let leftSize ← entry assembly.sizes leftCycle
    let rightSize ← entry assembly.sizes rightCycle
    if leftSize < rightSize then assembly.mergeCycles left right rightCycle leftCycle
    else assembly.mergeCycles left right leftCycle rightCycle

/-- The state after the call, and what the call returns. -/
def copy (assembly : Assembly) (call : CopyCall) : Option (Assembly × Except CopyError Unit) :=
  match assembly.columns.idxOf? call.leftColumn with
  | none => some (assembly, .error (.columnNotInPermutation call.leftColumn))
  | some left =>
    match assembly.columns.idxOf? call.rightColumn with
    | none => some (assembly, .error (.columnNotInPermutation call.rightColumn))
    | some right => do
      let leftRows ← assembly.mapping[left]?
      let rightRows ← assembly.mapping[right]?
      if leftRows.length ≤ call.leftRow ∨ rightRows.length ≤ call.rightRow then
        return (assembly, .error .boundsFailure)
      else
        return (← assembly.copyCells (left, call.leftRow) (right, call.rightRow), .ok ())

/-- One call after the other; a failed one does not stop the next. -/
def copyAll : Assembly → List CopyCall → Option (Assembly × List (Except CopyError Unit))
  | assembly, [] => some (assembly, [])
  | assembly, call :: rest => do
    let first ← assembly.copy call
    let others ← copyAll first.1 rest
    return (others.1, first.2 :: others.2)

end Assembly

/-! ### Tables as functions on the cells -/

section Tables

variable {m n : Nat}

def position (cell : Fin m × Fin n) : Nat × Nat := (cell.1, cell.2)

theorem position_injective : Function.Injective (position : Fin m × Fin n → Nat × Nat) := by
  intro first second same
  have parts := Prod.ext_iff.mp same
  exact Prod.ext (Fin.ext parts.1) (Fin.ext parts.2)

def tabulate (f : Fin m × Fin n → Value) : List (List Value) :=
  List.ofFn fun i => List.ofFn fun j => f (i, j)

theorem entry_tabulate (f : Fin m × Fin n → Value) (cell : Fin m × Fin n) :
    entry (tabulate f) (position cell) = some (f cell) := by
  simp [entry, tabulate, position]

theorem column_tabulate (f : Fin m × Fin n → Value) (i : Fin m) :
    (tabulate f)[i.val]? = some (List.ofFn fun j => f (i, j)) := by
  simp [tabulate]

theorem set_of_fn {count : Nat} {Entry : Type} (f : Fin count → Entry) (i : Fin count)
    (value : Entry) : (List.ofFn f).set i value = List.ofFn (Function.update f i value) := by
  apply List.ext_getElem (by simp)
  intro index bound _
  simp only [List.getElem_set, List.getElem_ofFn, Function.update_apply, Fin.ext_iff]
  by_cases same : i.val = index
  · rw [if_pos same, if_pos same.symm]
  · rw [if_neg same, if_neg fun other => same other.symm]

theorem set_tabulate (f : Fin m × Fin n → Value) (cell : Fin m × Fin n) (value : Value) :
    setEntry (tabulate f) (position cell) value = some (tabulate (Function.update f cell value)) := by
  have inside : cell.2.val < (List.ofFn fun j => f (cell.1, j)).length := by simp
  have written : Function.update (fun i => List.ofFn fun j => f (i, j)) cell.1
      (List.ofFn (Function.update (fun j => f (cell.1, j)) cell.2 value)) =
        fun i => List.ofFn fun j => Function.update f cell value (i, j) := by
    funext i
    by_cases same : i = cell.1
    · rw [same, Function.update_self]
      congr 1
      funext j
      simp only [Function.update_apply, Prod.ext_iff, true_and]
    · rw [Function.update_of_ne same]
      congr 1
      funext j
      rw [Function.update_of_ne]
      exact fun equal => same (Prod.ext_iff.mp equal).1
  rw [setEntry, position, column_tabulate, bind_some, if_pos inside, set_of_fn, tabulate,
    set_of_fn, written, tabulate]

theorem cells_of_tabulate (f : Fin m × Fin n → Value) : (tabulate f).flatten.length = m * n := by
  simp [tabulate, List.length_flatten, Function.comp_def]

end Tables

/-! ### The assembly follows the cycle table -/

section Simulation

variable {columns : List AnyColumn} {n : Nat}

abbrev Cell (columns : List AnyColumn) (n : Nat) : Type := Fin columns.length × Fin n

def encode (columns : List AnyColumn) (n : Nat) (table : CycleTable (Cell columns n)) : Assembly where
  columns := columns
  mapping := tabulate fun cell => position (table.successor cell)
  aux := tabulate fun cell => position (table.representative cell)
  sizes := tabulate table.size

theorem new_encode (columns : List AnyColumn) (n : Nat) :
    Assembly.new n columns = encode columns n singletons := by
  have cells : ((List.range columns.length).map fun i => (List.range n).map fun j => (i, j)) =
      tabulate (m := columns.length) (n := n) position := by
    apply List.ext_getElem (by simp [tabulate])
    intro i _ _
    apply List.ext_getElem (by simp [tabulate])
    intro j _ _
    simp [tabulate, position]
  have ones : List.replicate columns.length (List.replicate n 1) =
      tabulate (m := columns.length) (n := n) fun _ => 1 := by
    simp [tabulate, List.ofFn_const]
  simp only [Assembly.new, cells, ones]
  rfl

variable {table : CycleTable (Cell columns n)}

theorem visit_next (successor : Perm (Cell columns n)) (left right : Cell columns n) (visited : Nat)
    (f : Cell columns n → Cell columns n) :
    Function.update (fun cell => position
        (if ∃ count < visited, successor^[count] right = cell then left else f cell))
      (successor^[visited] right) (position left) =
    fun cell => position
      (if ∃ count < visited + 1, successor^[count] right = cell then left else f cell) := by
  funext cell
  rw [Function.update_apply]
  by_cases here : cell = successor^[visited] right
  · rw [if_pos here, if_pos ⟨visited, Nat.lt_succ_self visited, here.symm⟩]
  · have same : (∃ count < visited + 1, successor^[count] right = cell) ↔
        ∃ count < visited, successor^[count] right = cell := by
      constructor
      · intro found
        rcases found with ⟨count, bound, reached⟩
        have different : count ≠ visited := by
          intro last
          rw [last] at reached
          exact here reached.symm
        exact ⟨count, by omega, reached⟩
      · intro found
        rcases found with ⟨count, bound, reached⟩
        exact ⟨count, by omega, reached⟩
    rw [if_neg here]
    simp only [same]

theorem repoint_visits {successor : Perm (Cell columns n)} {left right : Cell columns n}
    (remaining visited fuel : Nat) (enough : remaining + 1 ≤ fuel)
    (round : visited + (remaining + 1) = Function.minimalPeriod successor right)
    (f : Cell columns n → Cell columns n) :
    Assembly.repoint (tabulate fun cell => position (successor cell)) (position left)
        (position right) fuel
        (tabulate fun cell => position
          (if ∃ count < visited, successor^[count] right = cell then left else f cell))
        (position (successor^[visited] right)) =
      some (tabulate fun cell => position
        (if successor.SameCycle right cell then left else f cell)) := by
  induction remaining generalizing visited fuel with
  | zero =>
    rcases Nat.exists_eq_add_of_le' enough with ⟨rest, rfl⟩
    have returns : successor^[visited + 1] right = right := by
      rw [round, Function.iterate_minimalPeriod]
    rw [Nat.zero_add, Assembly.repoint, set_tabulate, bind_eq_bind, bind_some,
      visit_next, entry_tabulate, ← Function.iterate_succ_apply' successor, returns]
    simp only [Nat.zero_add] at round
    simp [round, visited_iff]
  | succ remaining ih =>
    have again : ∃ rest, fuel = rest + 1 := ⟨fuel - 1, by omega⟩
    rcases again with ⟨rest, rfl⟩
    have goesOn : successor^[visited + 1] right ≠ right :=
      Function.not_isPeriodicPt_of_pos_of_lt_minimalPeriod (Nat.succ_ne_zero visited) (by omega)
    have differs : position (successor^[visited + 1] right) ≠ position right :=
      fun same => goesOn (position_injective same)
    rw [Assembly.repoint, set_tabulate, bind_eq_bind, bind_some, visit_next,
      entry_tabulate, ← Function.iterate_succ_apply' successor]
    simp only [bind_eq_bind, bind_some, if_neg differs]
    exact ih (visited + 1) rest (by omega) (by omega)

theorem repoint_cycle (successor : Perm (Cell columns n)) (left right : Cell columns n)
    (f : Cell columns n → Cell columns n) :
    Assembly.repoint (tabulate fun cell => position (successor cell)) (position left)
        (position right) (columns.length * n) (tabulate fun cell => position (f cell))
        (position right) =
      some (tabulate fun cell => position
        (if successor.SameCycle right cell then left else f cell)) := by
  have pos := period_positive successor right
  have bound : Function.minimalPeriod successor right ≤ columns.length * n := by
    have card := Function.minimalPeriod_le_card (f := successor) (x := right)
    simpa using card
  have round : 0 + (Function.minimalPeriod successor right - 1 + 1) =
      Function.minimalPeriod successor right := by omega
  have enough : Function.minimalPeriod successor right - 1 + 1 ≤ columns.length * n := by omega
  have loop : Assembly.repoint _ (position left) _ _ _ _ = _ :=
    repoint_visits _ 0 (columns.length * n) enough round f
  simpa using loop

theorem swap_successors (successor : Perm (Cell columns n)) (a b : Cell columns n) :
    Function.update (Function.update (fun cell => position (successor cell)) a
        (position (successor b))) b (position (successor a)) =
      fun cell => position ((successor * swap a b) cell) := by
  funext cell
  have swapped := congrFun (comp_swap_eq_update b a fun cell => position (successor cell)) cell
  rw [swap_comm] at swapped
  simpa using swapped.symm

theorem merge_cycles_encode (a b left right : Cell columns n) :
    (encode columns n table).mergeCycles (position a) (position b) (position left)
        (position right) =
      some (encode columns n {
        successor := table.successor * swap a b
        representative := fun cell =>
          if table.successor.SameCycle right cell then left else table.representative cell
        size := Function.update table.size left (table.size left + table.size right) }) := by
  simp only [Assembly.mergeCycles, encode, entry_tabulate, set_tabulate, bind_eq_bind,
    bind_some, cells_of_tabulate, repoint_cycle, Option.pure_def, swap_successors]

variable {related : Cell columns n → Cell columns n → Prop} {call : CopyCall}

theorem copy_cells_encode (tracks : Tracks table related) (a b : Cell columns n) :
    (encode columns n table).copyCells (position a) (position b) =
      some (encode columns n (table.merge a b)) := by
  have reads_aux : ∀ cell, entry (encode columns n table).aux (position cell) =
      some (position (table.representative cell)) :=
    entry_tabulate fun cell => position (table.representative cell)
  have reads_size : ∀ cell, entry (encode columns n table).sizes (position cell) =
      some (table.size cell) := entry_tabulate _
  rw [Assembly.copyCells, reads_aux, reads_aux, bind_eq_bind, bind_some, bind_eq_bind, bind_some]
  by_cases same : table.representative a = table.representative b
  · rw [if_pos (congrArg position same), CycleTable.merge, if_pos same]
    rfl
  · have differs : position (table.representative a) ≠ position (table.representative b) :=
      fun equal => same (position_injective equal)
    have goes : ∀ x cell, table.successor.SameCycle (table.representative x) cell ↔
        table.representative cell = table.representative x := by
      intro x cell
      rw [← tracks.representative_iff, representative_again tracks, eq_comm]
    rw [if_neg differs, reads_size, reads_size, bind_some, bind_some, CycleTable.merge, if_neg same]
    by_cases smaller : table.size (table.representative a) < table.size (table.representative b)
    · rw [if_pos smaller, merge_cycles_encode]
      simp only [CycleTable.join, CycleTable.order, if_pos smaller, goes]
    · rw [if_neg smaller, merge_cycles_encode]
      simp only [CycleTable.join, CycleTable.order, if_neg smaller, goes]

/-! ### Calls -/

/-- The call copies these cells: both columns are registered and both rows in range. -/
def CopyCall.Names (call : CopyCall) (a b : Cell columns n) : Prop :=
  (columns.idxOf? call.leftColumn = some a.1.val ∧ call.leftRow = a.2) ∧
    columns.idxOf? call.rightColumn = some b.1.val ∧ call.rightRow = b.2

def Copied (calls : List CopyCall) (a b : Cell columns n) : Prop := ∃ call ∈ calls, call.Names a b

theorem column_position {column : AnyColumn} {index : Nat}
    (found : columns.idxOf? column = some index) : index < columns.length :=
  (List.idxOf?_eq_some_iff.mp found).1

theorem names_unique {a b : Cell columns n} (names : call.Names a b) (x y : Cell columns n) :
    call.Names x y ↔ x = a ∧ y = b := by
  rcases names with ⟨⟨leftColumn, leftRow⟩, rightColumn, rightRow⟩
  simp only [CopyCall.Names, leftColumn, leftRow, rightColumn, rightRow, Option.some.injEq,
    Prod.ext_iff, Fin.ext_iff]
  grind

theorem tracks_unchanged (tracks : Tracks table related)
    (unnamed : ¬∃ a b : Cell columns n, call.Names a b) :
    Tracks table fun x y => related x y ∨ call.Names x y := by
  have same : (fun x y => related x y ∨ call.Names x y) = related := by
    funext x y
    have none : ¬call.Names x y := fun names => unnamed ⟨x, y, names⟩
    simp [none]
  rwa [same]

theorem copy_encode (tracks : Tracks table related) (call : CopyCall) :
    ∃ next result, (encode columns n table).copy call = some (encode columns n next, result) ∧
      (Tracks next fun x y => related x y ∨ call.Names x y) ∧
      (result = .ok () ↔ ∃ a b : Cell columns n, call.Names a b) := by
  unfold Assembly.copy
  cases left : (encode columns n table).columns.idxOf? call.leftColumn with
  | none =>
    have unnamed : ¬∃ a b : Cell columns n, call.Names a b := by
      intro named
      rcases named with ⟨a, b, ⟨found, -⟩, -⟩
      rw [encode] at left
      rw [left] at found
      cases found
    exact ⟨table, _, rfl, tracks_unchanged tracks unnamed,
      iff_of_false (by simp) unnamed⟩
  | some leftIndex =>
    cases right : (encode columns n table).columns.idxOf? call.rightColumn with
    | none =>
      have unnamed : ¬∃ a b : Cell columns n, call.Names a b := by
        intro named
        rcases named with ⟨a, b, -, found, -⟩
        rw [encode] at right
        rw [right] at found
        cases found
      exact ⟨table, _, rfl, tracks_unchanged tracks unnamed,
        iff_of_false (by simp) unnamed⟩
    | some rightIndex =>
      have leftBound : leftIndex < columns.length := column_position left
      have rightBound : rightIndex < columns.length := column_position right
      have leftRows : (encode columns n table).mapping[leftIndex]? =
          some (List.ofFn fun j => position (table.successor (⟨leftIndex, leftBound⟩, j))) :=
        column_tabulate (fun cell => position (table.successor cell)) ⟨leftIndex, leftBound⟩
      have rightRows : (encode columns n table).mapping[rightIndex]? =
          some (List.ofFn fun j => position (table.successor (⟨rightIndex, rightBound⟩, j))) :=
        column_tabulate (fun cell => position (table.successor cell)) ⟨rightIndex, rightBound⟩
      simp only [leftRows, rightRows, bind_eq_bind, bind_some, List.length_ofFn]
      by_cases outside : n ≤ call.leftRow ∨ n ≤ call.rightRow
      · have unnamed : ¬∃ a b : Cell columns n, call.Names a b := by
          intro named
          rcases named with ⟨a, b, ⟨-, leftRow⟩, -, rightRow⟩
          have inLeft := a.2.isLt
          have inRight := b.2.isLt
          omega
        rw [if_pos outside]
        exact ⟨table, _, rfl, tracks_unchanged tracks unnamed,
        iff_of_false (by simp) unnamed⟩
      · have leftRow : call.leftRow < n := by omega
        have rightRow : call.rightRow < n := by omega
        have named : ∃ a b : Cell columns n, position a = (leftIndex, call.leftRow) ∧
            position b = (rightIndex, call.rightRow) ∧ call.Names a b :=
          ⟨(⟨leftIndex, leftBound⟩, ⟨call.leftRow, leftRow⟩),
            (⟨rightIndex, rightBound⟩, ⟨call.rightRow, rightRow⟩), rfl, rfl, ⟨left, rfl⟩, right,
            rfl⟩
        rcases named with ⟨a, b, atLeft, atRight, names⟩
        have tracksMerged := tracks_merge tracks a b
        simp only [← names_unique names] at tracksMerged
        rw [if_neg outside, ← atLeft, ← atRight, copy_cells_encode tracks]
        exact ⟨table.merge a b, .ok (), rfl, tracksMerged, iff_of_true rfl ⟨a, b, names⟩⟩

theorem copy_all_encode (tracks : Tracks table related) (calls : List CopyCall) :
    ∃ next results, (encode columns n table).copyAll calls = some (encode columns n next, results) ∧
      (Tracks next fun x y => related x y ∨ Copied calls x y) ∧
      List.Forall₂ (fun call result => result = Except.ok () ↔
        ∃ a b : Cell columns n, call.Names a b) calls results := by
  induction calls generalizing table related with
  | nil =>
    have same : (fun x y => related x y ∨ Copied [] x y) = related := by
      funext x y
      simp [Copied]
    exact ⟨table, [], rfl, by rwa [same], List.Forall₂.nil⟩
  | cons call rest ih =>
    rcases copy_encode tracks call with ⟨middle, result, copied, tracksMiddle, outcome⟩
    rcases ih tracksMiddle with ⟨next, results, ran, tracksNext, outcomes⟩
    have same : (fun x y => (related x y ∨ call.Names x y) ∨ Copied rest x y) =
        fun x y => related x y ∨ Copied (call :: rest) x y := by
      funext x y
      simp [Copied, or_assoc]
    rw [same] at tracksNext
    exact ⟨next, result :: results, by simp [Assembly.copyAll, copied, ran], tracksNext,
      List.Forall₂.cons outcome outcomes⟩

theorem copy_error_unchanged {assembly next : Assembly} {error : CopyError}
    (failed : assembly.copy call = some (next, .error error)) : next = assembly := by
  unfold Assembly.copy at failed
  cases left : assembly.columns.idxOf? call.leftColumn with
  | none => simp_all
  | some leftIndex =>
    cases right : assembly.columns.idxOf? call.rightColumn with
    | none => simp_all
    | some rightIndex =>
      simp only [left, right, bind_eq_bind, Option.bind_eq_some_iff] at failed
      rcases failed with ⟨leftRows, -, rightRows, -, decided⟩
      split_ifs at decided with outside
      · exact (Prod.ext_iff.mp (Option.some.inj decided)).1.symm
      · simp only [Option.bind_eq_some_iff, Option.pure_def, Option.some.injEq, Prod.mk.injEq,
          reduceCtorEq, and_false, exists_false] at decided

end Simulation

/-! ### Permutation polynomials -/

section Keys

variable {F : Type} [Field F]

def fillPowers (base : F) : F → List F → List F
  | _, [] => []
  | cur, _ :: rest => cur :: fillPowers base (cur * base) rest

def omegaPowers (threads : Nat) (domain : EvaluationDomain F) : List F :=
  parallelize threads (fun o start => fillPowers domain.omega (domain.omega ^ start) o)
    (List.replicate domain.n 0)

/-- Each row of powers times the next power of `delta`. -/
def scaleRows (delta : F) : F → List (List F) → List (List F)
  | _, [] => []
  | cur, powers :: rest => powers.map (fun v => v * cur) :: scaleRows delta (cur * delta) rest

/-- `omega` powers times `delta` powers, one row for each column. -/
def deltaOmega (threads : Nat) (domain : EvaluationDomain F) (delta : F) (columns : Nat) :
    List (List F) :=
  parallelize threads (fun o start => scaleRows delta (delta ^ start) o)
    (List.replicate columns (omegaPowers threads domain))

/-- `deltaomega[permuted_i][permuted_j]`. -/
def permutedPower (deltaomega : List (List F)) (mapping : List (List (Nat × Nat))) (i j : Nat) :
    Option F :=
  (entry mapping (i, j)).bind (entry deltaomega)

/-- Empty polynomials, before the loops write them. -/
def emptyPolys (domain : EvaluationDomain F) (columns : Nat) : List (List (Option F)) :=
  List.replicate columns (List.replicate domain.n (some 0))

/-- A panic in one thread is a panic. -/
def joined (polys : List (List (Option F))) : Option (List (List F)) :=
  polys.mapM fun poly => poly.mapM fun value => value

/-- The parallel loops of `build_pk`. -/
def permutationsPk (threads : Nat) (domain : EvaluationDomain F) (delta : F) (columns : Nat)
    (mapping : List (List (Nat × Nat))) : Option (List (List F)) :=
  let deltaomega := deltaOmega threads domain delta columns
  joined <| parallelize threads (fun o start => (o.zipIdx start).map fun poly =>
    poly.1.zipIdx.map fun p => permutedPower deltaomega mapping poly.2 p.2)
      (emptyPolys domain columns)

/-- The inner loop of `build_vk`. -/
def writePoly (power : Nat → Option F) : Nat → List (Option F) → List (Option F)
  | _, [] => []
  | j, _ :: rest => power j :: writePoly power (j + 1) rest

/-- The outer loop of `build_vk`. -/
def writePolys (power : Nat → Nat → Option F) : Nat → List (List (Option F)) →
    List (List (Option F))
  | _, [] => []
  | i, poly :: rest => writePoly (power i) 0 poly :: writePolys power (i + 1) rest

def permutationsVk (threads : Nat) (domain : EvaluationDomain F) (delta : F) (columns : Nat)
    (mapping : List (List (Nat × Nat))) : Option (List (List F)) :=
  let deltaomega := deltaOmega threads domain delta columns
  joined <| parallelize threads
    (fun o start => writePolys (permutedPower deltaomega mapping) start o) (emptyPolys domain columns)

structure ProvingKey (F : Type) where
  permutations : List (List F)
  polys : List (List F)
  cosets : List (List F)

structure VerifyingKey (Commitment : Type) where
  commitments : List Commitment

/-- The conversion of polynomial number `i` for each column. -/
def convertAll (threads : Nat) (columns : Nat) (convert : List F → Option (List F))
    (polys : List (List F)) : Option (List (List F)) :=
  (parallelize threads (fun o start => (o.zipIdx start).map fun poly =>
    polys[poly.2]?.bind convert) (List.replicate columns (some []))).mapM fun poly => poly

def buildPk (threads : Nat) (domain : EvaluationDomain F) (delta : F) (columns : Nat)
    (mapping : List (List (Nat × Nat))) : Option (ProvingKey F) := do
  let permutations ← permutationsPk threads domain delta columns mapping
  let polys ← convertAll threads columns (domain.lagrangeToCoeff threads) permutations
  let cosets ← convertAll threads columns (domain.coeffToExtended threads) polys
  return ⟨permutations, polys, cosets⟩

def buildVk {Commitment : Type} (commitLagrange : List F → Commitment) (threads : Nat)
    (domain : EvaluationDomain F) (delta : F) (columns : Nat) (mapping : List (List (Nat × Nat))) :
    Option (VerifyingKey Commitment) := do
  let permutations ← permutationsVk threads domain delta columns mapping
  return ⟨permutations.map commitLagrange⟩

/-! ### Values of the permutation polynomials -/

theorem fill_powers_elementwise (base : F) :
    Elementwise (fun o start => fillPowers base (base ^ start) o) fun entry => base ^ entry.2 := by
  intro chunk start
  induction chunk generalizing start with
  | nil => rfl
  | cons value rest ih =>
    have later := ih (start + 1)
    dsimp only at later ⊢
    rw [fillPowers, ← pow_succ, later, List.zipIdx_cons, List.map_cons]

theorem scale_rows_elementwise (delta : F) :
    Elementwise (fun o start => scaleRows delta (delta ^ start) o)
      fun entry => entry.1.map fun v => v * delta ^ entry.2 := by
  intro chunk start
  induction chunk generalizing start with
  | nil => rfl
  | cons powers rest ih =>
    have later := ih (start + 1)
    dsimp only at later ⊢
    rw [scaleRows, ← pow_succ, later, List.zipIdx_cons, List.map_cons]

omit [Field F] in
theorem write_poly_eq (power : Nat → Option F) (poly : List (Option F)) (start : Nat) :
    writePoly power start poly = (poly.zipIdx start).map fun p => power p.2 := by
  induction poly generalizing start with
  | nil => rfl
  | cons value rest ih => rw [writePoly, ih, List.zipIdx_cons, List.map_cons]

omit [Field F] in
theorem write_polys_elementwise (power : Nat → Nat → Option F) :
    Elementwise (fun o start => writePolys power start o)
      fun entry => entry.1.zipIdx.map fun p => power entry.2 p.2 := by
  intro chunk start
  induction chunk generalizing start with
  | nil => rfl
  | cons poly rest ih =>
    have later := ih (start + 1)
    dsimp only at later ⊢
    rw [writePolys, write_poly_eq, later, List.zipIdx_cons, List.map_cons]

theorem map_constant_table {m n : Nat} (constant : Value) {Image : Type} (f : Nat → Nat → Image) :
    ((List.replicate m (List.replicate n constant)).zipIdx.map fun row =>
        row.1.zipIdx.map fun value => f row.2 value.2) =
      tabulate fun cell : Fin m × Fin n => f cell.1 cell.2 := by
  apply List.ext_getElem (by simp [tabulate])
  intro i _ _
  apply List.ext_getElem (by simp [tabulate])
  intro j _ _
  simp [tabulate]

variable {domain : EvaluationDomain F} {threads : Nat}

theorem omega_powers_eq (pos : 0 < threads) :
    omegaPowers threads domain = (List.range domain.n).map fun j => domain.omega ^ j := by
  rw [omegaPowers, parallelize_elementwise (fill_powers_elementwise domain.omega) pos]
  apply List.ext_getElem (by simp)
  intro j _ _
  simp

theorem delta_omega_eq (pos : 0 < threads) (delta : F) (columns : Nat) :
    deltaOmega threads domain delta columns =
      tabulate fun cell : Fin columns × Fin domain.n =>
        domain.omega ^ cell.2.val * delta ^ cell.1.val := by
  rw [deltaOmega, parallelize_elementwise (scale_rows_elementwise delta) pos, omega_powers_eq pos]
  apply List.ext_getElem (by simp [tabulate])
  intro i _ _
  apply List.ext_getElem (by simp [tabulate])
  intro j _ _
  simp [tabulate]

omit [Field F] in
theorem joined_tabulate {m n : Nat} (f : Fin m × Fin n → F) :
    joined (tabulate fun cell => some (f cell)) = some (tabulate f) := by
  have rows : ∀ i : Fin m, (List.ofFn fun j => some (f (i, j))).mapM (fun value => value) =
      some (List.ofFn fun j => f (i, j)) := by
    intro i
    have split : (List.ofFn fun j => some (f (i, j))) = (List.ofFn fun j => f (i, j)).map some := by
      rw [List.map_ofFn]
      rfl
    rw [split, List.mapM_map]
    exact (map_m_of_forall _ fun _ _ => rfl).trans (congrArg some (List.map_id _))
  have split : (tabulate fun cell => some (f cell)) =
      (List.finRange m).map fun i => List.ofFn fun j => some (f (i, j)) := by
    rw [tabulate, List.ofFn_eq_map]
  rw [joined, split, List.mapM_map, tabulate, List.ofFn_eq_map]
  exact map_m_of_forall _ fun i _ => rows i

def permutationValues {columns : List AnyColumn} (domain : EvaluationDomain F) (delta : F)
    (successor : Perm (Cell columns domain.n)) : List (List F) :=
  tabulate fun cell => domain.omega ^ (successor cell).2.val * delta ^ (successor cell).1.val

section Values

variable {columns : List AnyColumn} (pos : 0 < threads) (delta : F)
  (successor : Perm (Cell columns domain.n))

include pos

theorem permuted_powers :
    ((emptyPolys domain columns.length).zipIdx.map fun poly => poly.1.zipIdx.map fun p =>
        permutedPower (deltaOmega threads domain delta columns.length)
          (tabulate fun cell => position (successor cell)) poly.2 p.2) =
      tabulate fun cell : Cell columns domain.n => some (domain.omega ^ (successor cell).2.val *
        delta ^ (successor cell).1.val) := by
  rw [emptyPolys, map_constant_table, delta_omega_eq pos]
  congr 1
  funext cell
  have next : entry (tabulate fun cell => position (successor cell)) (cell.1.val, cell.2.val) =
      some (position (successor cell)) := entry_tabulate _ cell
  rw [permutedPower, next, bind_some]
  exact entry_tabulate _ (successor cell)

theorem permutations_pk_eq :
    permutationsPk threads domain delta columns.length
        (tabulate fun cell => position (successor cell)) =
      some (permutationValues domain delta successor) := by
  have each : Elementwise (fun (o : List (List (Option F))) start => (o.zipIdx start).map fun poly =>
      poly.1.zipIdx.map fun p => permutedPower (deltaOmega threads domain delta columns.length)
        (tabulate fun cell => position (successor cell)) poly.2 p.2) _ := fun _ _ => rfl
  rw [permutationsPk, parallelize_elementwise each pos, permuted_powers pos,
    joined_tabulate, permutationValues]

theorem permutations_vk_eq :
    permutationsVk threads domain delta columns.length
        (tabulate fun cell => position (successor cell)) =
      some (permutationValues domain delta successor) := by
  rw [permutationsVk, parallelize_elementwise (write_polys_elementwise _) pos,
    permuted_powers pos, joined_tabulate, permutationValues]

omit [Field F] in
theorem convert_all_eq {convert : List F → Option (List F)} {polys : List (List F)} {count : Nat}
    (length : polys.length = count) :
    convertAll threads count convert polys = polys.mapM convert := by
  have each : Elementwise (fun (o : List (Option (List F))) start => (o.zipIdx start).map fun poly =>
      polys[poly.2]?.bind convert) _ := fun _ _ => rfl
  have numbered : (List.replicate count (some ([] : List F))).zipIdx.map
      (fun poly => polys[poly.2]?.bind convert) = polys.map convert := by
    apply List.ext_getElem (by simp [length])
    intro i _ inside
    rw [List.length_map] at inside
    simp [List.getElem?_eq_getElem inside]
  rw [convertAll, parallelize_elementwise each pos, numbered, List.mapM_map]
  rfl

theorem keys_agree (wellFormed : WellFormed domain) :
    (∀ (Commitment : Type) (commitLagrange : List F → Commitment),
      buildVk commitLagrange threads domain delta columns.length
          (tabulate fun cell => position (successor cell)) =
        some ⟨(permutationValues domain delta successor).map commitLagrange⟩) ∧
    ∃ polys, buildPk threads domain delta columns.length
          (tabulate fun cell => position (successor cell)) =
        some ⟨permutationValues domain delta successor, polys, polys.map (cosetValues domain)⟩ ∧
      polys.map (smallValues domain) = permutationValues domain delta successor := by
  have converts := well_formed_converts wellFormed
  have size : (permutationValues domain delta successor).length = columns.length := by
    rw [permutationValues, tabulate, List.length_ofFn]
  have rows : ∀ values ∈ permutationValues domain delta successor,
      values.length = 2 ^ domain.k := by
    intro values mem
    rw [permutationValues, tabulate, List.mem_ofFn] at mem
    rcases mem with ⟨i, rfl⟩
    rw [List.length_ofFn, wellFormed.n]
  rcases interpolate_all wellFormed pos rows with ⟨polys, found, small, lengths⟩
  have cosets : polys.mapM (domain.coeffToExtended threads) =
      some (polys.map (cosetValues domain)) :=
    map_m_of_forall polys fun poly mem =>
      converts.toExtended threads poly pos (lengths poly mem)
  have count : polys.length = columns.length := by rw [← map_m_length found, size]
  constructor
  · intro Commitment commitLagrange
    rw [buildVk, permutations_vk_eq pos]
    rfl
  · have built : buildPk threads domain delta columns.length
        (tabulate fun cell => position (successor cell)) =
          some ⟨permutationValues domain delta successor, polys, polys.map (cosetValues domain)⟩ := by
      simp only [buildPk, permutations_pk_eq pos, bind_eq_bind, bind_some,
        convert_all_eq pos size, found, convert_all_eq pos count, cosets, Option.pure_def]
    exact ⟨polys, built, small⟩

end Values

/-! ### Calls and keys together -/

/-- Cycles of the mapping are the classes of the copied cells, `aux` and `sizes` name them, and
both keys hold the same polynomials. -/
theorem assembly_tracks_copies :
    (∀ (assembly next : Assembly) (call : CopyCall) (error : CopyError),
      assembly.copy call = some (next, .error error) → next = assembly) ∧
    ∀ (columns : List AnyColumn) (domain : EvaluationDomain F) (calls : List CopyCall),
      ∃ (table : CycleTable (Cell columns domain.n)) (results : List (Except CopyError Unit)),
        (Assembly.new domain.n columns).copyAll calls =
          some (encode columns domain.n table, results) ∧
        Tracks table (Copied calls) ∧
        List.Forall₂ (fun call result => result = Except.ok () ↔
          ∃ a b : Cell columns domain.n, call.Names a b) calls results ∧
        (WellFormed domain → ∀ (threads : Nat) (delta : F), 0 < threads →
          (∀ (Commitment : Type) (commitLagrange : List F → Commitment),
            buildVk commitLagrange threads domain delta columns.length
                (encode columns domain.n table).mapping =
              some ⟨(permutationValues domain delta table.successor).map commitLagrange⟩) ∧
          ∃ polys, buildPk threads domain delta columns.length
                (encode columns domain.n table).mapping =
              some ⟨permutationValues domain delta table.successor, polys,
                polys.map (cosetValues domain)⟩ ∧
            polys.map (smallValues domain) = permutationValues domain delta table.successor) := by
  constructor
  · intro assembly next call error failed
    exact copy_error_unchanged failed
  · intro columns domain calls
    rcases copy_all_encode singletons_track calls with ⟨table, results, ran, tracks, outcomes⟩
    rw [← new_encode] at ran
    simp only [false_or] at tracks
    exact ⟨table, results, ran, tracks, outcomes, fun wellFormed threads delta positive =>
      keys_agree positive delta table.successor wellFormed⟩

end Keys

def twoColumns : List AnyColumn := [.advice 0, .fixed 0]

/-- The first cell of one column and the second of the other. -/
def crossCopy : CopyCall where
  leftColumn := .advice 0
  leftRow := 0
  rightColumn := .fixed 0
  rightRow := 1

/-- A column that is not registered. -/
def strayCopy : CopyCall where
  leftColumn := .instance 0
  leftRow := 0
  rightColumn := .fixed 0
  rightRow := 1

theorem assembly_tracks_one_copy :
    (∃ next, (Assembly.new 2 twoColumns).copy strayCopy =
      some (next, .error (.columnNotInPermutation (.instance 0))) ∧ next = Assembly.new 2 twoColumns) ∧
    ∃ domain, EvaluationDomain.new thirteenGroup true 3 1 = some domain ∧
      ∃ table : CycleTable (Cell twoColumns domain.n), Tracks table (Copied [crossCopy]) ∧
        ∃ polys, buildPk 2 domain 1 2 (encode twoColumns domain.n table).mapping =
          some ⟨permutationValues domain 1 table.successor, polys,
            polys.map (cosetValues domain)⟩ := by
  have accepted : (EvaluationDomain.new thirteenGroup true 3 1).isSome := by decide +kernel
  rcases Option.isSome_iff_exists.mp accepted with ⟨domain, built⟩
  rcases assembly_tracks_copies (F := ZMod 13) with ⟨unchanged, tracked⟩
  rcases tracked twoColumns domain [crossCopy] with ⟨table, _, _, tracks, _, keys⟩
  have key := (keys (new_well_formed built) 2 1 Nat.two_pos).2
  rcases key with ⟨polys, pk, -⟩
  exact ⟨⟨_, rfl, unchanged _ _ strayCopy _ rfl⟩, domain, built, table, tracks, polys, pk⟩

/-- The copied cells point to each other. -/
example : (Assembly.new 2 twoColumns).copyAll [crossCopy, strayCopy] =
    some ({ columns := twoColumns
            mapping := [[(1, 1), (0, 1)], [(1, 0), (0, 0)]]
            aux := [[(0, 0), (0, 1)], [(1, 0), (0, 0)]]
            sizes := [[2, 1], [1, 1]] },
      [.ok (), .error (.columnNotInPermutation (.instance 0))]) := by rfl

end Midfall.PermutationAssembly
