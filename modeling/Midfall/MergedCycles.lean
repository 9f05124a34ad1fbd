import Mathlib

/-!
# Merging the cycles of a permutation

Swapping the successors of two elements in different cycles joins the cycles. A
table that names one representative for each cycle and keeps the sizes decides
whether the cycles differ; the smaller cycle takes the representative of the
larger one.
-/

namespace Midfall.MergedCycles

open Equiv

variable {Cell : Type}

section Walk

variable [Finite Cell] {successor : Perm Cell}

theorem same_cycle_steps {related : Cell → Cell → Prop} (equivalence : Equivalence related)
    (steps : ∀ cell, related cell (successor cell)) {x y : Cell}
    (same : successor.SameCycle x y) : related x y := by
  rcases same.exists_nat_pow_eq with ⟨count, rfl⟩
  induction count with
  | zero => exact equivalence.refl x
  | succ count ih =>
    rw [pow_succ', Perm.mul_apply]
    exact equivalence.trans (ih ⟨count, by simp⟩) (steps _)

theorem period_positive (successor : Perm Cell) (start : Cell) :
    0 < Function.minimalPeriod successor start := by
  rcases isOfFinOrder_iff_pow_eq_one.mp (isOfFinOrder_of_finite successor) with
    ⟨count, pos, identity⟩
  apply Function.IsPeriodicPt.minimalPeriod_pos pos
  rw [Function.IsPeriodicPt, Function.IsFixedPt, Perm.iterate_eq_pow, identity, Perm.one_apply]

theorem visited_iff {start cell : Cell} :
    (∃ count < Function.minimalPeriod successor start, successor^[count] start = cell) ↔
      successor.SameCycle start cell := by
  constructor
  · intro visited
    rcases visited with ⟨count, -, reached⟩
    rw [Perm.iterate_eq_pow] at reached
    exact ⟨count, by simpa using reached⟩
  · intro same
    rcases same.exists_nat_pow_eq with ⟨count, reached⟩
    rw [← Perm.iterate_eq_pow, ← Function.iterate_mod_minimalPeriod_eq] at reached
    exact ⟨_, Nat.mod_lt count (period_positive successor start), reached⟩

end Walk

section Swap

variable {successor : Perm Cell} {a b : Cell}

/-- Within one of the cycles, or within the two joined ones. -/
def Joined (successor : Perm Cell) (a b x y : Cell) : Prop :=
  successor.SameCycle x y ∨
    (successor.SameCycle a x ∨ successor.SameCycle b x) ∧
      (successor.SameCycle a y ∨ successor.SameCycle b y)

theorem joined_equivalence (successor : Perm Cell) (a b : Cell) :
    Equivalence (Joined successor a b) where
  refl x := Or.inl (Perm.SameCycle.refl successor x)
  symm joined := joined.imp Perm.SameCycle.symm And.symm
  trans := by
    intro x y z first second
    rcases first with same | ⟨atX, atY⟩
    · rcases second with next | ⟨atY, atZ⟩
      · exact Or.inl (same.trans next)
      · exact Or.inr ⟨atY.imp (fun along => along.trans same.symm) fun along =>
          along.trans same.symm, atZ⟩
    · rcases second with next | ⟨_, atZ⟩
      · exact Or.inr ⟨atX, atY.imp (fun along => along.trans next) fun along => along.trans next⟩
      · exact Or.inr ⟨atX, atZ⟩

variable [DecidableEq Cell]

theorem walk_around (apart : ¬successor.SameCycle a b) (count : Nat)
    (within : count < Function.minimalPeriod successor b) :
    ((successor * swap a b) ^ (count + 1)) a = (successor ^ (count + 1)) b := by
  induction count with
  | zero => simp
  | succ count ih =>
    have earlier := ih (by omega)
    have not_a : (successor ^ (count + 1)) b ≠ a := by
      intro reached
      have along : successor.SameCycle b ((successor ^ (count + 1)) b) :=
        Perm.sameCycle_pow_right.mpr (Perm.SameCycle.refl _ _)
      rw [reached] at along
      exact apart along.symm
    have not_b : (successor ^ (count + 1)) b ≠ b := by
      rw [← Perm.iterate_eq_pow]
      exact Function.not_isPeriodicPt_of_pos_of_lt_minimalPeriod (by omega) within
    rw [pow_succ', Perm.mul_apply, earlier, Perm.mul_apply, swap_apply_of_ne_of_ne not_a not_b,
      ← Perm.mul_apply, ← pow_succ']

variable [Finite Cell]

theorem swap_meets (apart : ¬successor.SameCycle a b) :
    (successor * swap a b).SameCycle a b := by
  have pos := period_positive successor b
  have around := walk_around apart (Function.minimalPeriod successor b - 1) (by omega)
  rw [Nat.sub_add_cancel pos, ← Perm.iterate_eq_pow successor,
    Function.iterate_minimalPeriod] at around
  exact ⟨Function.minimalPeriod successor b, by simpa using around⟩

theorem same_cycle_swap (apart : ¬successor.SameCycle a b) {x y : Cell} :
    (successor * swap a b).SameCycle x y ↔ Joined successor a b x y := by
  have meets := swap_meets apart
  have inside : ∀ {x y : Cell}, successor.SameCycle x y →
      (successor * swap a b).SameCycle x y := by
    intro x y same
    apply same_cycle_steps (Perm.SameCycle.equivalence (successor * swap a b)) _ same
    intro cell
    by_cases atA : cell = a
    · have next : (successor * swap a b) b = successor cell := by
        rw [Perm.mul_apply, swap_apply_right, atA]
      rw [← next, atA, Perm.sameCycle_apply_right]
      exact meets
    · by_cases atB : cell = b
      · have next : (successor * swap a b) a = successor cell := by
          rw [Perm.mul_apply, swap_apply_left, atB]
        rw [← next, atB, Perm.sameCycle_apply_right]
        exact meets.symm
      · have next : (successor * swap a b) cell = successor cell := by
          rw [Perm.mul_apply, swap_apply_of_ne_of_ne atA atB]
        rw [← next, Perm.sameCycle_apply_right]
  constructor
  · intro same
    apply same_cycle_steps (joined_equivalence successor a b) _ same
    intro cell
    rw [Perm.mul_apply]
    by_cases atA : cell = a
    · rw [atA, swap_apply_left]
      exact Or.inr ⟨Or.inl (Perm.SameCycle.refl _ _),
        Or.inr (Perm.sameCycle_apply_right.mpr (Perm.SameCycle.refl _ _))⟩
    · by_cases atB : cell = b
      · rw [atB, swap_apply_right]
        exact Or.inr ⟨Or.inr (Perm.SameCycle.refl _ _),
          Or.inl (Perm.sameCycle_apply_right.mpr (Perm.SameCycle.refl _ _))⟩
      · rw [swap_apply_of_ne_of_ne atA atB]
        exact Or.inl (Perm.sameCycle_apply_right.mpr (Perm.SameCycle.refl _ _))
  · intro joined
    have toA : ∀ {cell : Cell}, successor.SameCycle a cell ∨ successor.SameCycle b cell →
        (successor * swap a b).SameCycle a cell := by
      intro cell either
      rcases either with along | along
      · exact inside along
      · exact meets.trans (inside along)
    rcases joined with same | ⟨atX, atY⟩
    · exact inside same
    · exact (toA atX).symm.trans (toA atY)

end Swap

/-- Successors, and for each element a representative; a size for each representative. -/
structure CycleTable (Cell : Type) where
  successor : Perm Cell
  representative : Cell → Cell
  size : Cell → Nat

section Tables

def singletons : CycleTable Cell where
  successor := 1
  representative := fun cell => cell
  size := fun _ => 1

/-- The representative that stays, and the one that goes. -/
def CycleTable.order (table : CycleTable Cell) (a b : Cell) : Cell × Cell :=
  if table.size (table.representative a) < table.size (table.representative b) then
    (table.representative b, table.representative a)
  else (table.representative a, table.representative b)

def CycleTable.join [DecidableEq Cell] (table : CycleTable Cell) (a b : Cell) : CycleTable Cell where
  successor := table.successor * swap a b
  representative := fun cell =>
    if table.representative cell = (table.order a b).2 then (table.order a b).1
    else table.representative cell
  size := Function.update table.size (table.order a b).1
    (table.size (table.order a b).1 + table.size (table.order a b).2)

/-- Elements that are in the same cycle already change nothing. -/
def CycleTable.merge [DecidableEq Cell] (table : CycleTable Cell) (a b : Cell) : CycleTable Cell :=
  if table.representative a = table.representative b then table else table.join a b

/-- The cycles are the classes of the generated equivalence, and the table names them. -/
structure Tracks (table : CycleTable Cell) (related : Cell → Cell → Prop) : Prop where
  classes : ∀ x y, table.successor.SameCycle x y ↔ Relation.EqvGen related x y
  representative_iff : ∀ x y,
    table.representative x = table.representative y ↔ table.successor.SameCycle x y
  representative_same : ∀ x, table.successor.SameCycle x (table.representative x)
  size_eq : ∀ x, table.size (table.representative x) =
    {y | table.successor.SameCycle x y}.ncard

theorem singletons_track : Tracks (singletons : CycleTable Cell) fun _ _ => False where
  classes := by
    intro x y
    rw [singletons, Perm.sameCycle_one]
    constructor
    · intro same
      rw [same]
      exact Relation.EqvGen.refl y
    · intro generated
      induction generated with
      | rel x y related => exact related.elim
      | refl x => rfl
      | symm x y _ ih => exact ih.symm
      | trans x y z _ _ first second => exact first.trans second
  representative_iff := fun x y => by rw [singletons, Perm.sameCycle_one]
  representative_same := fun x => Perm.SameCycle.refl _ x
  size_eq := by
    intro x
    have single : {y | Perm.SameCycle (1 : Perm Cell) x y} = {x} := by
      ext y
      simp [eq_comm]
    rw [singletons, single, Set.ncard_singleton]

variable {table : CycleTable Cell} {related : Cell → Cell → Prop} {a b : Cell}

theorem related_more {x y : Cell} (generated : Relation.EqvGen related x y) :
    Relation.EqvGen (fun u v => related u v ∨ u = a ∧ v = b) x y :=
  Relation.EqvGen.mono (fun _ _ holds => Or.inl holds) x y generated

theorem joined_iff_generated
    (classes : ∀ x y, table.successor.SameCycle x y ↔ Relation.EqvGen related x y) (x y : Cell) :
    Joined table.successor a b x y ↔
      Relation.EqvGen (fun u v => related u v ∨ u = a ∧ v = b) x y := by
  have pair : Relation.EqvGen (fun u v => related u v ∨ u = a ∧ v = b) a b :=
    Relation.EqvGen.rel a b (Or.inr ⟨rfl, rfl⟩)
  have equivalence := joined_equivalence table.successor a b
  constructor
  · intro joined
    have fromA : ∀ cell, table.successor.SameCycle a cell ∨ table.successor.SameCycle b cell →
        Relation.EqvGen (fun u v => related u v ∨ u = a ∧ v = b) a cell := by
      intro cell either
      rcases either with along | along
      · exact related_more ((classes a cell).mp along)
      · exact Relation.EqvGen.trans _ _ _ pair (related_more ((classes b cell).mp along))
    rcases joined with same | ⟨atX, atY⟩
    · exact related_more ((classes x y).mp same)
    · exact Relation.EqvGen.trans _ _ _ (Relation.EqvGen.symm _ _ (fromA x atX)) (fromA y atY)
  · intro generated
    induction generated with
    | rel u v holds =>
      rcases holds with old | ⟨atU, atV⟩
      · exact Or.inl ((classes u v).mpr (Relation.EqvGen.rel u v old))
      · rw [atU, atV]
        exact Or.inr ⟨Or.inl (Perm.SameCycle.refl _ _), Or.inr (Perm.SameCycle.refl _ _)⟩
    | refl u => exact equivalence.refl u
    | symm u v _ ih => exact equivalence.symm ih
    | trans u v w _ _ first second => exact equivalence.trans first second

theorem representative_again (tracks : Tracks table related) (x : Cell) :
    table.representative (table.representative x) = table.representative x :=
  (tracks.representative_iff _ _).mpr (tracks.representative_same x).symm

theorem order_cases (table : CycleTable Cell) (a b : Cell) :
    table.order a b = (table.representative a, table.representative b) ∨
      table.order a b = (table.representative b, table.representative a) := by
  unfold CycleTable.order
  split
  · exact Or.inr rfl
  · exact Or.inl rfl

theorem joined_representatives (tracks : Tracks table related) (x y : Cell) :
    Joined table.successor a b x y ↔
      table.representative x = table.representative y ∨
        (table.representative a = table.representative x ∨
          table.representative b = table.representative x) ∧
        (table.representative a = table.representative y ∨
          table.representative b = table.representative y) := by
  simp only [Joined, tracks.representative_iff]

theorem joined_of_same (same : table.successor.SameCycle a b) (x y : Cell) :
    Joined table.successor a b x y ↔ table.successor.SameCycle x y := by
  constructor
  · intro joined
    rcases joined with within | ⟨atX, atY⟩
    · exact within
    · have fromA : ∀ cell, table.successor.SameCycle a cell ∨ table.successor.SameCycle b cell →
          table.successor.SameCycle a cell := fun cell either =>
        either.elim (fun along => along) fun along => same.trans along
      exact (fromA x atX).symm.trans (fromA y atY)
  · exact Or.inl

theorem joined_class [Finite Cell] (apart : ¬table.successor.SameCycle a b) {x : Cell}
    (atX : table.successor.SameCycle a x ∨ table.successor.SameCycle b x) :
    {y | Joined table.successor a b x y}.ncard =
      {y | table.successor.SameCycle a y}.ncard + {y | table.successor.SameCycle b y}.ncard := by
  have union : {y | Joined table.successor a b x y} =
      {y | table.successor.SameCycle a y} ∪ {y | table.successor.SameCycle b y} := by
    ext y
    constructor
    · intro joined
      rcases joined with same | ⟨-, atY⟩
      · exact atX.imp (fun along => along.trans same) fun along => along.trans same
      · exact atY
    · exact fun atY => Or.inr ⟨atX, atY⟩
  have disjoint : Disjoint {y | table.successor.SameCycle a y}
      {y | table.successor.SameCycle b y} := by
    rw [Set.disjoint_left]
    exact fun y atA atB => apart (atA.trans (Perm.SameCycle.symm atB))
  rw [union, Set.ncard_union_eq disjoint (Set.toFinite _) (Set.toFinite _)]

theorem outside_class {x : Cell}
    (outside : ¬(table.successor.SameCycle a x ∨ table.successor.SameCycle b x)) :
    {y | Joined table.successor a b x y} = {y | table.successor.SameCycle x y} := by
  ext y
  constructor
  · intro joined
    rcases joined with same | ⟨atX, -⟩
    · exact same
    · exact absurd atX outside
  · exact Or.inl

variable [Finite Cell] [DecidableEq Cell]

theorem tracks_join (tracks : Tracks table related)
    (apart : table.representative a ≠ table.representative b) :
    Tracks (table.join a b) fun u v => related u v ∨ u = a ∧ v = b := by
  have apartCycles : ¬table.successor.SameCycle a b :=
    fun same => apart ((tracks.representative_iff a b).mpr same)
  have cycles : ∀ x y, (table.join a b).successor.SameCycle x y ↔ Joined table.successor a b x y :=
    fun x y => same_cycle_swap apartCycles
  have again := representative_again tracks
  have order := order_cases table a b
  have sizes : table.size (table.order a b).1 + table.size (table.order a b).2 =
      {y | table.successor.SameCycle a y}.ncard + {y | table.successor.SameCycle b y}.ncard := by
    rcases order with kept | swapped
    · rw [kept, tracks.size_eq, tracks.size_eq]
    · rw [swapped, tracks.size_eq, tracks.size_eq, Nat.add_comm]
  constructor
  · intro x y
    rw [cycles, joined_iff_generated tracks.classes]
  · intro x y
    rw [cycles, joined_representatives tracks]
    simp only [CycleTable.join]
    grind
  · intro x
    rw [cycles, joined_representatives tracks]
    simp only [CycleTable.join]
    grind
  · intro x
    simp only [cycles]
    by_cases atX : table.successor.SameCycle a x ∨ table.successor.SameCycle b x
    · have stays : (table.join a b).representative x = (table.order a b).1 := by
        simp only [← tracks.representative_iff] at atX
        simp only [CycleTable.join]
        grind
      rw [joined_class apartCycles atX, stays, ← sizes]
      simp [CycleTable.join]
    · have stays : (table.join a b).representative x = table.representative x ∧
          table.representative x ≠ (table.order a b).1 := by
        simp only [← tracks.representative_iff] at atX
        simp only [CycleTable.join]
        grind
      rw [outside_class atX, stays.1, ← tracks.size_eq]
      simp [CycleTable.join, stays.2]

theorem tracks_merge (tracks : Tracks table related) (a b : Cell) :
    Tracks (table.merge a b) fun u v => related u v ∨ u = a ∧ v = b := by
  unfold CycleTable.merge
  split_ifs with same
  · have together := (tracks.representative_iff a b).mp same
    exact {
      classes := fun x y => by
        rw [← joined_iff_generated tracks.classes, joined_of_same together]
      representative_iff := tracks.representative_iff
      representative_same := tracks.representative_same
      size_eq := tracks.size_eq }
  · exact tracks_join tracks same

end Tables

end Midfall.MergedCycles
