import Mathlib

/-!
# Refining a partition

Classes of states are cut by the predecessors of splitters. When a class is cut,
its parts replace it among the splitters; if it is not one of them, one part is
enough, since a label leads from a state to at most one class. States of one
class that agree on the splitters then agree on all classes, so that without
splitters the classes are stable.
-/

namespace Midfall.PartitionRefinement

open List hiding Disjoint

variable {Label State : Type}

/-- Nonempty disjoint classes that cover the states. -/
structure IsPartition (states : Finset State) (classes : List (Finset State)) : Prop where
  nonempty : ∀ class_ ∈ classes, class_.Nonempty
  disjoint : classes.Pairwise Disjoint
  cover : ∀ state, state ∈ states ↔ ∃ class_ ∈ classes, state ∈ class_

def Together (classes : List (Finset State)) (first second : State) : Prop :=
  ∃ class_ ∈ classes, first ∈ class_ ∧ second ∈ class_

/-- No class has states inside and outside of the set. -/
def Uniform (classes : List (Finset State)) (set : Finset State) : Prop :=
  ∀ first second, Together classes first second → (first ∈ set ↔ second ∈ set)

variable {states cut class_ : Finset State} {classes others rest : List (Finset State)}

theorem IsPartition.perm (partition : IsPartition states classes) (perm : classes.Perm others) :
    IsPartition states others where
  nonempty := fun set mem => partition.nonempty set (perm.mem_iff.mpr mem)
  disjoint := (perm.pairwise_iff fun disjoint => Disjoint.symm disjoint).mp partition.disjoint
  cover := by
    intro state
    rw [partition.cover]
    constructor
    · rintro ⟨set, mem, inside⟩
      exact ⟨set, perm.mem_iff.mp mem, inside⟩
    · rintro ⟨set, mem, inside⟩
      exact ⟨set, perm.mem_iff.mpr mem, inside⟩

variable [DecidableEq State] in
theorem IsPartition.split (partition : IsPartition states (class_ :: rest))
    (inter : (class_ ∩ cut).Nonempty) (minus : (class_ \ cut).Nonempty) :
    IsPartition states (class_ ∩ cut :: class_ \ cut :: rest) := by
  have disjoint := pairwise_cons.mp partition.disjoint
  constructor
  · intro set mem
    rcases mem_cons.mp mem with rfl | later
    · exact inter
    · rcases mem_cons.mp later with rfl | old
      · exact minus
      · exact partition.nonempty set (mem_cons_of_mem _ old)
  · rw [pairwise_cons, pairwise_cons]
    refine ⟨fun set mem => ?_, fun set mem => ?_, disjoint.2⟩
    · rcases mem_cons.mp mem with rfl | old
      · exact Finset.disjoint_sdiff_inter class_ cut |>.symm
      · exact (disjoint.1 set old).mono_left Finset.inter_subset_left
    · exact (disjoint.1 set mem).mono_left Finset.sdiff_subset
  · intro state
    rw [partition.cover]
    constructor
    · rintro ⟨set, mem, inside⟩
      rcases mem_cons.mp mem with rfl | old
      · by_cases in_ : state ∈ cut
        · exact ⟨_, mem_cons_self, Finset.mem_inter.mpr ⟨inside, in_⟩⟩
        · exact ⟨_, mem_cons_of_mem _ mem_cons_self, Finset.mem_sdiff.mpr ⟨inside, in_⟩⟩
      · exact ⟨set, mem_cons_of_mem _ (mem_cons_of_mem _ old), inside⟩
    · rintro ⟨set, mem, inside⟩
      rcases mem_cons.mp mem with rfl | later
      · exact ⟨class_, mem_cons_self, (Finset.mem_inter.mp inside).1⟩
      · rcases mem_cons.mp later with rfl | old
        · exact ⟨class_, mem_cons_self, (Finset.mem_sdiff.mp inside).1⟩
        · exact ⟨set, mem_cons_of_mem _ old, inside⟩

variable [DecidableEq State] in
theorem IsPartition.length_le (partition : IsPartition states classes) :
    classes.length ≤ states.card := by
  induction classes generalizing states with
  | nil => exact Nat.zero_le _
  | cons class_ classes ih =>
    have disjoint := pairwise_cons.mp partition.disjoint
    have inside : class_ ⊆ states := fun state mem =>
      (partition.cover state).mpr ⟨class_, mem_cons_self, mem⟩
    have smaller : IsPartition (states \ class_) classes := by
      refine ⟨fun set mem => partition.nonempty set (mem_cons_of_mem _ mem),
        disjoint.2, fun state => ?_⟩
      rw [Finset.mem_sdiff, partition.cover]
      constructor
      · rintro ⟨⟨set, mem, stateIn⟩, outside⟩
        rcases mem_cons.mp mem with rfl | later
        · exact absurd stateIn outside
        · exact ⟨set, later, stateIn⟩
      · rintro ⟨set, mem, stateIn⟩
        refine ⟨⟨set, mem_cons_of_mem _ mem, stateIn⟩, fun both => ?_⟩
        exact Finset.disjoint_left.mp (disjoint.1 set mem) both stateIn
    have bound := ih smaller
    have some_ := Finset.card_pos.mpr (partition.nonempty class_ mem_cons_self)
    rw [Finset.card_sdiff_of_subset inside] at bound
    have fits := Finset.card_le_card inside
    rw [length_cons]
    omega

theorem Together.perm {first second : State} (perm : classes.Perm others)
    (together : Together classes first second) : Together others first second := by
  rcases together with ⟨set, mem, both⟩
  exact ⟨set, perm.mem_iff.mp mem, both⟩

variable [DecidableEq State] in
/-- States that are still together after a cut were so before, on one side of the cut. -/
theorem together_split {first second : State}
    (together : Together (class_ ∩ cut :: class_ \ cut :: rest) first second) :
    Together (class_ :: rest) first second := by
  rcases together with ⟨set, mem, firstIn, secondIn⟩
  rcases mem_cons.mp mem with rfl | later
  · exact ⟨class_, mem_cons_self, (Finset.mem_inter.mp firstIn).1, (Finset.mem_inter.mp secondIn).1⟩
  · rcases mem_cons.mp later with rfl | old
    · exact ⟨class_, mem_cons_self, (Finset.mem_sdiff.mp firstIn).1,
        (Finset.mem_sdiff.mp secondIn).1⟩
    · exact ⟨set, mem_cons_of_mem _ old, firstIn, secondIn⟩

variable [DecidableEq State] in
/-- The predecessors of a set by a label that leads to at most one state. -/
structure Backward (pre : Label → Finset State → Finset State) : Prop where
  union : ∀ label first second, pre label (first ∪ second) = pre label first ∪ pre label second
  disjoint : ∀ label first second, Disjoint first second → Disjoint (pre label first) (pre label second)

/-- States of one class that agree on the splitters, and on the cuts by the current one that are
still to come, agree on all classes. -/
def Refining (pre : Label → Finset State → Finset State) (classes splitters : List (Finset State))
    (current : Finset State) (cuts : List (Finset State)) : Prop :=
  ∀ label first second, Together classes first second →
    (∀ splitter ∈ splitters, first ∈ pre label splitter ↔ second ∈ pre label splitter) →
    (pre label current ∈ cuts → (first ∈ pre label current ↔ second ∈ pre label current)) →
      ∀ set ∈ classes, first ∈ pre label set ↔ second ∈ pre label set

/-- No label leads from one class to different ones. -/
def Stable (pre : Label → Finset State → Finset State) (classes : List (Finset State)) : Prop :=
  ∀ label first second, Together classes first second →
    ∀ set ∈ classes, first ∈ pre label set ↔ second ∈ pre label set

section Stability

variable {pre : Label → Finset State → Finset State} {splitters newSplitters cuts : List (Finset State)}
  {current : Finset State}

theorem refining_start : Refining pre classes classes current cuts :=
  fun _ _ _ _ agree _ set mem => agree set mem

theorem Refining.perm (refining : Refining pre classes splitters current cuts)
    (perm : classes.Perm others) : Refining pre others splitters current cuts := by
  intro label first second together agree pending set mem
  exact refining label first second (together.perm perm.symm) agree pending set (perm.mem_iff.mpr mem)

theorem Refining.stable (refining : Refining pre classes [] current []) : Stable pre classes :=
  fun label first second together set mem => refining label first second together
    (fun _ none => absurd none not_mem_nil) (fun none => absurd none not_mem_nil) set mem

theorem Refining.take (refining : Refining pre classes (splitters ++ [cut]) current [])
    (every : ∀ label, pre label cut ∈ cuts ∨ pre label cut = ∅) :
    Refining pre classes splitters cut cuts := by
  intro label first second together agree pending set mem
  apply refining label first second together
  · intro splitter inside
    rcases mem_append.mp inside with before | last
    · exact agree splitter before
    · rw [mem_singleton.mp last]
      rcases every label with listed | none
      · exact pending listed
      · rw [none]
        exact iff_of_false (Finset.notMem_empty _) (Finset.notMem_empty _)
  · exact fun none => absurd none not_mem_nil
  · exact mem

theorem Refining.cut_done (refining : Refining pre classes splitters current (cut :: cuts))
    (uniform : Uniform classes cut) : Refining pre classes splitters current cuts := by
  intro label first second together agree pending set mem
  apply refining label first second together agree
  · intro listed
    rcases mem_cons.mp listed with same | later
    · rw [same]
      exact uniform first second together
    · exact pending later
  · exact mem

variable [DecidableEq State] in
theorem Refining.split_both (refining : Refining pre (class_ :: rest) splitters current cuts)
    (backward : Backward pre) (kept : ∀ splitter ∈ splitters, splitter = class_ ∨ splitter ∈ newSplitters)
    (inter : class_ ∩ cut ∈ newSplitters) (minus : class_ \ cut ∈ newSplitters) :
    Refining pre (class_ ∩ cut :: class_ \ cut :: rest) newSplitters current cuts := by
  intro label first second together agree pending set mem
  have parts : first ∈ pre label class_ ↔ second ∈ pre label class_ := by
    have whole : pre label class_ = pre label (class_ \ cut) ∪ pre label (class_ ∩ cut) := by
      rw [← backward.union, Finset.sdiff_union_inter]
    rw [whole, Finset.mem_union, Finset.mem_union, agree _ inter, agree _ minus]
  have before := refining label first second (together_split together) (fun splitter inside => by
    rcases kept splitter inside with rfl | new
    · exact parts
    · exact agree splitter new) pending
  rcases mem_cons.mp mem with rfl | later
  · exact agree _ inter
  · rcases mem_cons.mp later with rfl | old
    · exact agree _ minus
    · exact before set (mem_cons_of_mem _ old)

variable [DecidableEq State] in
theorem Refining.split_one (refining : Refining pre (class_ :: rest) splitters current cuts)
    (backward : Backward pre) (kept : ∀ splitter ∈ splitters, splitter ∈ newSplitters)
    (part : class_ ∩ cut ∈ newSplitters ∨ class_ \ cut ∈ newSplitters) :
    Refining pre (class_ ∩ cut :: class_ \ cut :: rest) newSplitters current cuts := by
  intro label first second together agree pending set mem
  have before := refining label first second (together_split together)
    (fun splitter inside => agree splitter (kept splitter inside)) pending
  have whole : pre label class_ = pre label (class_ \ cut) ∪ pre label (class_ ∩ cut) := by
    rw [← backward.union, Finset.sdiff_union_inter]
  have apart := Finset.disjoint_left.mp (backward.disjoint label _ _
    (Finset.disjoint_sdiff_inter class_ cut))
  have parts := before class_ mem_cons_self
  rw [whole, Finset.mem_union, Finset.mem_union] at parts
  have both : (first ∈ pre label (class_ ∩ cut) ↔ second ∈ pre label (class_ ∩ cut)) ∧
      (first ∈ pre label (class_ \ cut) ↔ second ∈ pre label (class_ \ cut)) := by
    have firstApart := @apart first
    have secondApart := @apart second
    rcases part with inter | minus
    · have here := agree _ inter
      tauto
    · have here := agree _ minus
      tauto
  rcases mem_cons.mp mem with rfl | later
  · exact both.1
  · rcases mem_cons.mp later with rfl | old
    · exact both.2
    · exact before set (mem_cons_of_mem _ old)

end Stability

def Respects (states : Finset State) (related : State → State → Prop) (set : Finset State) : Prop :=
  ∀ first ∈ set, ∀ second ∈ states, related first second → second ∈ set

variable [DecidableEq State] in
theorem Respects.inter {related : State → State → Prop} (class_Respects : Respects states related class_)
    (cutRespects : Respects states related cut) : Respects states related (class_ ∩ cut) := by
  intro first mem second inside relates
  rw [Finset.mem_inter] at mem
  exact Finset.mem_inter.mpr ⟨class_Respects first mem.1 second inside relates,
    cutRespects first mem.2 second inside relates⟩

variable [DecidableEq State] in
theorem Respects.sdiff {related : State → State → Prop} (symmetric : ∀ first second, related first second → related second first)
    (inStates : class_ ⊆ states) (class_Respects : Respects states related class_)
    (cutRespects : Respects states related cut) : Respects states related (class_ \ cut) := by
  intro first mem second inside relates
  rw [Finset.mem_sdiff] at mem
  refine Finset.mem_sdiff.mpr ⟨class_Respects first mem.1 second inside relates, fun inCut => ?_⟩
  exact mem.2 (cutRespects second inCut first (inStates mem.1) (symmetric first second relates))

end Midfall.PartitionRefinement
