import Midfall.PartitionRefinement
import Midfall.RawAutomatonPowerset

/-!
# The congruence of states

The loop of the minimisation leaves classes that the transitions respect. Where
every transition leads on to a final state, the classes are those of the states
that accept the same words.
-/

namespace Midfall.RawAutomata.RawAutomaton

open AutomatonLanguages ListLoops PartitionRefinement List

variable {order : HashOrder} {automaton : RawAutomaton} {alphabetSize : Nat} {markers : List Nat}

def pre (automaton : RawAutomaton) (letter : Letter) (set : Finset Nat) : Finset Nat :=
  (Finset.range automaton.nbStates).filter fun state =>
    ∃ target ∈ set, (letter, target) ∈ automaton.outgoing state

theorem mem_pre {letter : Letter} {set : Finset Nat} {state : Nat} :
    state ∈ automaton.pre letter set ↔ ∃ target ∈ set, (letter, target) ∈ automaton.outgoing state := by
  unfold pre
  rw [Finset.mem_filter, Finset.mem_range]
  constructor
  · exact fun both => both.2
  · rintro ⟨target, inside, step⟩
    exact ⟨lt_of_outgoing step, target, inside, step⟩

theorem IsDeterministic.target_unique (deterministic : IsDeterministic automaton) {state first second : Nat}
    {letter : Letter} (firstStep : (letter, first) ∈ automaton.outgoing state)
    (secondStep : (letter, second) ∈ automaton.outgoing state) : first = second :=
  congrArg Prod.snd (inj_on_of_nodup_map (deterministic state) firstStep secondStep rfl)

theorem backward_pre (deterministic : IsDeterministic automaton) : Backward automaton.pre := by
  constructor
  · intro letter first second
    ext state
    rw [Finset.mem_union, mem_pre, mem_pre, mem_pre]
    simp only [Finset.mem_union, or_and_right, exists_or]
  · intro letter first second disjoint
    apply Finset.disjoint_left.mpr
    intro state inFirst inSecond
    rcases mem_pre.mp inFirst with ⟨target, mem, step⟩
    rcases mem_pre.mp inSecond with ⟨other, otherIn, otherStep⟩
    rw [deterministic.target_unique otherStep step] at otherIn
    exact Finset.disjoint_left.mp disjoint mem otherIn

/-- Words are accepted after every transition. -/
def Useful (automaton : RawAutomaton) : Prop :=
  ∀ source letter target, (letter, target) ∈ automaton.outgoing source →
    ∃ word, word ∈ acceptsAt automaton.nfa target

def Equivalent (automaton : RawAutomaton) (first second : Nat) : Prop :=
  acceptsAt automaton.nfa first = acceptsAt automaton.nfa second

theorem targets_agree {other : RawAutomaton} (deterministic : IsDeterministic automaton)
    (otherDeterministic : IsDeterministic other) {first second target next : Nat} {letter : Letter}
    (same : acceptsAt automaton.nfa first = acceptsAt other.nfa second)
    (step : (letter, target) ∈ automaton.outgoing first)
    (otherStep : (letter, next) ∈ other.outgoing second) :
    acceptsAt automaton.nfa target = acceptsAt other.nfa next := by
  apply Language.ext
  intro word
  have both : letter :: word ∈ acceptsAt automaton.nfa first ↔
      letter :: word ∈ acceptsAt other.nfa second := by rw [same]
  rw [cons_at, cons_at] at both
  constructor
  · intro accepted
    rcases both.mp ⟨target, step, accepted⟩ with ⟨image, imageStep, rest⟩
    rw [otherDeterministic.target_unique otherStep imageStep]
    exact rest
  · intro accepted
    rcases both.mpr ⟨next, otherStep, accepted⟩ with ⟨image, imageStep, rest⟩
    rw [deterministic.target_unique step imageStep]
    exact rest

theorem pre_respects (inRange : InRange automaton) (deterministic : IsDeterministic automaton)
    (useful : Useful automaton) {set : Finset Nat}
    (respects : Respects (Finset.range automaton.nbStates) (Equivalent automaton) set) (letter : Letter) :
    Respects (Finset.range automaton.nbStates) (Equivalent automaton) (automaton.pre letter set) := by
  intro first mem second _ equivalent
  rcases mem_pre.mp mem with ⟨target, targetIn, step⟩
  rcases useful first letter target step with ⟨word, accepted⟩
  have again : letter :: word ∈ acceptsAt automaton.nfa second := by
    rw [← equivalent]
    exact cons_at.mpr ⟨target, step, accepted⟩
  rcases cons_at.mp again with ⟨other, otherStep, -⟩
  refine mem_pre.mpr ⟨other, ?_, otherStep⟩
  exact respects target targetIn other
    (Finset.mem_range.mpr (inRange.targets second _ otherStep))
    (targets_agree deterministic deterministic equivalent step otherStep)

theorem predecessors_some (inRange : InRange automaton)
    (fits : ∀ state, ∀ entry ∈ automaton.outgoing state, entry.1.Fits alphabetSize markers)
    (dist : Finset Nat) : ∃ preds, automaton.predecessors alphabetSize markers dist = some preds ∧
      (∀ letter, automaton.pre letter dist ∈ preds ∨ automaton.pre letter dist = ∅) ∧
        ∀ pred ∈ preds, pred = ∅ ∨ ∃ letter, pred = automaton.pre letter dist := by
  generalize entriesAre : (automaton.transitions.zipIdx.flatMap fun entry =>
    entry.1.map fun transition => (entry.2, transition)) = entries
  have mem : ∀ source transition, (source, transition) ∈ entries ↔
      transition ∈ automaton.outgoing source := by
    intro source transition
    rw [← entriesAre, mem_flatMap]
    constructor
    · rintro ⟨⟨succ, index⟩, inside, member⟩
      rcases mem_map.mp member with ⟨taken, step, same⟩
      cases same
      rw [outgoing_of_lookup (mem_zipIdx_iff_getElem?.mp inside)]
      exact step
    · intro step
      exact ⟨(automaton.outgoing source, source),
        mem_zipIdx_iff_getElem?.mpr (lookup_of_lt (lt_of_outgoing step)),
        mem_map_of_mem step⟩
  have inside : ∀ entry ∈ entries, entry.2.2 < automaton.nbStates := fun entry member =>
    inRange.targets entry.1 entry.2 ((mem entry.1 entry.2).mp member)
  generalize stepIs : (fun entry : Nat × Letter × Nat =>
    (entry.2.1.encode alphabetSize markers).map fun code => (code, entry.1)) = step
  have stepAt : ∀ source letter target code, letter.encode alphabetSize markers = some code →
      step (source, letter, target) = some (code, source) := by
    intro source letter target code encoded
    rw [← stepIs]
    dsimp only
    rw [encoded, Option.map_some]
  have codesAre := @map_m_filter_map _ _ step (entries.filter fun entry => entry.2.2 ∈ dist)
    (by
      rintro ⟨source, letter, target⟩ member
      have taken := (mem source (letter, target)).mp (mem_filter.mp member).1
      rcases Letter.encode_fits (fits source _ taken) with ⟨code, encoded, -⟩
      exact ⟨_, stepAt source letter target code encoded⟩)
  generalize codesIs : (entries.filter fun entry => entry.2.2 ∈ dist).filterMap step = codes at codesAre
  have memCodes : ∀ code source, (code, source) ∈ codes ↔ ∃ letter target,
      letter.encode alphabetSize markers = some code ∧ target ∈ dist ∧
        (letter, target) ∈ automaton.outgoing source := by
    intro code source
    rw [← codesIs, mem_filterMap]
    constructor
    · rintro ⟨⟨old, letter, target⟩, member, found⟩
      rw [mem_filter, decide_eq_true_iff] at member
      rw [← stepIs] at found
      rcases Option.map_eq_some_iff.mp found with ⟨value, encoded, same⟩
      cases same
      exact ⟨letter, target, encoded, member.2, (mem _ _).mp member.1⟩
    · rintro ⟨letter, target, encoded, targetIn, taken⟩
      refine ⟨(source, letter, target), mem_filter.mpr ⟨(mem _ _).mpr taken, ?_⟩,
        stepAt source letter target code encoded⟩
      exact decide_eq_true targetIn
  have below : ∀ code ∈ codes, code.1 < Letter.encodingBound alphabetSize markers := by
    rintro ⟨code, source⟩ member
    rcases (memCodes code source).mp member with ⟨letter, target, encoded, -, taken⟩
    rcases Letter.encode_fits (fits source _ taken) with ⟨value, valueIs, bound, -⟩
    rw [encoded, Option.some.injEq] at valueIs
    rw [valueIs]
    exact bound
  have row : ∀ code letter, letter.encode alphabetSize markers = some code →
      letter.Fits alphabetSize markers →
        ((codes.filter fun entry => entry.1 = code).map Prod.snd).toFinset = automaton.pre letter dist := by
    intro code letter encoded letterFits
    ext source
    rw [mem_toFinset, mem_map, mem_pre]
    constructor
    · rintro ⟨⟨value, other⟩, member, rfl⟩
      rw [mem_filter, decide_eq_true_iff] at member
      rcases member with ⟨member, rfl⟩
      rcases (memCodes _ other).mp member with ⟨label, target, labelEncoded, targetIn, taken⟩
      rw [Letter.encode_inj letterFits (fits other _ taken) (encoded.trans labelEncoded.symm)]
      exact ⟨target, targetIn, taken⟩
    · rintro ⟨target, targetIn, taken⟩
      refine ⟨(code, source), mem_filter.mpr ⟨?_, decide_eq_true rfl⟩, rfl⟩
      exact (memCodes code source).mpr ⟨letter, target, encoded, targetIn, taken⟩
  refine ⟨(List.range (Letter.encodingBound alphabetSize markers)).map fun code =>
    ((codes.filter fun entry => entry.1 = code).map Prod.snd).toFinset, ?_, fun letter => ?_, ?_⟩
  · unfold predecessors
    dsimp only
    rw [entriesAre, if_pos inside, stepIs]
    simp only [Option.bind_eq_bind, codesAre, Option.bind_some]
    exact if_pos below
  · by_cases none : automaton.pre letter dist = ∅
    · exact Or.inr none
    · left
      rcases Finset.nonempty_iff_ne_empty.mpr none with ⟨source, member⟩
      rcases mem_pre.mp member with ⟨target, targetIn, taken⟩
      have letterFits := fits source _ taken
      rcases Letter.encode_fits letterFits with ⟨code, encoded, bound, -⟩
      exact mem_map.mpr ⟨code, mem_range.mpr bound, row code letter encoded letterFits⟩
  · intro pred member
    rcases mem_map.mp member with ⟨code, -, rfl⟩
    by_cases none : codes.filter (fun entry => entry.1 = code) = []
    · left
      rw [none]
      rfl
    · right
      rcases exists_mem_of_ne_nil _ none with ⟨⟨value, source⟩, entryIn⟩
      rw [mem_filter, decide_eq_true_iff] at entryIn
      rcases entryIn with ⟨entryIn, rfl⟩
      rcases (memCodes _ source).mp entryIn with ⟨letter, target, encoded, -, taken⟩
      exact ⟨letter, row _ letter encoded (fits source _ taken)⟩

theorem swap_remove_perm {Entry : Type} {entries : List Entry} {index : Nat}
    (below : index < entries.length) : (swapRemove entries index).Perm (entries.eraseIdx index) := by
  induction entries using List.reverseRecOn with
  | nil => exact absurd below (Nat.not_lt_zero _)
  | append_singleton entries last _ =>
    unfold swapRemove
    rw [getLast?_concat]
    dsimp only
    rw [length_append, length_singleton] at below
    rcases Nat.lt_or_ge index entries.length with inside | outside
    · rw [set_append_left _ _ inside, dropLast_concat, eraseIdx_append_of_lt_length inside]
      exact (set_perm_cons_eraseIdx inside last).trans
        (perm_append_singleton last (entries.eraseIdx index)).symm
    · have position : index = entries.length := by omega
      rw [position, set_append_right _ _ le_rfl, eraseIdx_append_of_length_le le_rfl, Nat.sub_self]
      simp only [set_cons_zero, dropLast_concat, eraseIdx_cons_zero, append_nil]
      exact List.Perm.refl _

structure Congruence (automaton : RawAutomaton) (classes splitters : List (Finset Nat))
    (current : Finset Nat) (cuts : List (Finset Nat)) : Prop where
  partition : IsPartition (Finset.range automaton.nbStates) classes
  refining : Refining automaton.pre classes splitters current cuts
  finals : Uniform classes automaton.finalStates
  respects : Useful automaton → ∀ set, set ∈ classes ∨ set ∈ splitters →
    Respects (Finset.range automaton.nbStates) (Equivalent automaton) set

section Classes

variable {current cut class_ : Finset Nat} {cuts rest splitters : List (Finset Nat)}
  {classes others newSplitters : List (Finset Nat)}

theorem Congruence.perm (congruence : Congruence automaton classes splitters current cuts)
    (perm : classes.Perm others) : Congruence automaton others splitters current cuts where
  partition := congruence.partition.perm perm
  refining := congruence.refining.perm perm
  finals := fun first second together => congruence.finals first second (together.perm perm.symm)
  respects := fun useful set mem => congruence.respects useful set
    (mem.imp perm.mem_iff.mpr id)

theorem Congruence.split (congruence : Congruence automaton (class_ :: rest) splitters current cuts)
    (deterministic : IsDeterministic automaton)
    (cutRespects : Useful automaton →
      Respects (Finset.range automaton.nbStates) (Equivalent automaton) cut)
    (inter : (class_ ∩ cut).Nonempty) (minus : (class_ \ cut).Nonempty)
    (new : ∀ splitter ∈ newSplitters, splitter ∈ splitters ∨ splitter = class_ ∩ cut ∨
      splitter = class_ \ cut)
    (part : ((∀ splitter ∈ splitters, splitter = class_ ∨ splitter ∈ newSplitters) ∧
        class_ ∩ cut ∈ newSplitters ∧ class_ \ cut ∈ newSplitters) ∨
      ((∀ splitter ∈ splitters, splitter ∈ newSplitters) ∧
        (class_ ∩ cut ∈ newSplitters ∨ class_ \ cut ∈ newSplitters))) :
    Congruence automaton (class_ ∩ cut :: class_ \ cut :: rest) newSplitters current cuts := by
  have inStates : class_ ⊆ Finset.range automaton.nbStates := fun state mem =>
    (congruence.partition.cover state).mpr ⟨class_, mem_cons_self, mem⟩
  constructor
  · exact congruence.partition.split inter minus
  · rcases part with ⟨kept, both⟩ | ⟨kept, one⟩
    · exact congruence.refining.split_both (backward_pre deterministic) kept both.1 both.2
    · exact congruence.refining.split_one (backward_pre deterministic) kept one
  · exact fun first second together => congruence.finals first second (together_split together)
  · intro useful set mem
    have whole := congruence.respects useful class_ (Or.inl mem_cons_self)
    have parts : set = class_ ∩ cut ∨ set = class_ \ cut →
        Respects (Finset.range automaton.nbStates) (Equivalent automaton) set := by
      rintro (rfl | rfl)
      · exact whole.inter (cutRespects useful)
      · exact whole.sdiff (fun first second equivalent => Eq.symm equivalent) inStates
          (cutRespects useful)
    rcases mem with inClasses | inSplitters
    · rcases mem_cons.mp inClasses with same | later
      · exact parts (Or.inl same)
      · rcases mem_cons.mp later with same | old
        · exact parts (Or.inr same)
        · exact congruence.respects useful set (Or.inl (mem_cons_of_mem _ old))
    · rcases new set inSplitters with old | either
      · exact congruence.respects useful set (Or.inr old)
      · exact parts either

/-- What the loop over the classes leaves when some are still to come. -/
structure RefinedBy (automaton : RawAutomaton) (current cut : Finset Nat) (cuts : List (Finset Nat))
    (state next : Refinement) (rest : List (Finset Nat)) : Prop where
  congruence : Congruence automaton (next.classes ++ rest) next.distinguishers current cuts
  sides : ∀ set ∈ next.classes, set ∈ state.classes ∨ set ⊆ cut ∨ Disjoint set cut

/-- Every cut of a class adds one class and one distinguisher. -/
def Grows (state next : Refinement) (classes : Nat) : Prop :=
  ∃ cuts, next.classes.length = state.classes.length + classes + cuts ∧
    next.distinguishers.length = state.distinguishers.length + cuts

theorem refine_class_refines {state : Refinement}
    (congruence : Congruence automaton (state.classes ++ class_ :: rest) state.distinguishers current cuts)
    (deterministic : IsDeterministic automaton)
    (cutRespects : Useful automaton →
      Respects (Finset.range automaton.nbStates) (Equivalent automaton) cut) :
    RefinedBy automaton current cut cuts state (refineClass cut state class_) rest ∧
      Grows state (refineClass cut state class_) 1 := by
  have front : (state.classes ++ class_ :: rest).Perm (class_ :: (state.classes ++ rest)) :=
    perm_middle
  unfold refineClass
  dsimp only
  by_cases splits : (class_ ∩ cut).card ≠ 0 ∧ (class_ \ cut).card ≠ 0
  · rw [if_pos splits]
    have inter := Finset.card_ne_zero.mp splits.1
    have minus := Finset.card_ne_zero.mp splits.2
    have back : (class_ ∩ cut :: class_ \ cut :: (state.classes ++ rest)).Perm
        (state.classes ++ [class_ ∩ cut, class_ \ cut] ++ rest) := by
      rw [append_assoc]
      exact (perm_append_comm_assoc [class_ ∩ cut, class_ \ cut] state.classes rest)
    have sides : ∀ set ∈ state.classes ++ [class_ ∩ cut, class_ \ cut],
        set ∈ state.classes ∨ set ⊆ cut ∨ Disjoint set cut := by
      intro set mem
      rcases mem_append.mp mem with old | parts
      · exact Or.inl old
      · rcases mem_pair.mp parts with rfl | rfl
        · exact Or.inr (Or.inl Finset.inter_subset_right)
        · exact Or.inr (Or.inr Finset.sdiff_disjoint)
    have split := fun newSplitters new part => (@Congruence.split automaton current cut class_ cuts
      (state.classes ++ rest) state.distinguishers newSplitters (congruence.perm front)
      deterministic cutRespects inter minus new part).perm back
    by_cases listed : class_ ∈ state.distinguishers
    · rw [if_pos listed]
      have position := idxOf_lt_length_of_mem listed
      have removed := swap_remove_perm position
      have kept : ∀ splitter ∈ state.distinguishers, splitter = class_ ∨
          splitter ∈ state.distinguishers.eraseIdx (state.distinguishers.idxOf class_) := by
        intro splitter mem
        have perm := getElem_cons_eraseIdx_perm position
        rcases mem_cons.mp (perm.mem_iff.mpr mem) with same | old
        · left
          rw [same]
          exact getElem_idxOf position
        · exact Or.inr old
      refine ⟨⟨split _ ?_ ?_, sides⟩, ?_⟩
      · intro splitter mem
        rcases mem_append.mp mem with old | parts
        · exact Or.inl (mem_of_mem_eraseIdx (removed.mem_iff.mp old))
        · exact Or.inr (mem_pair.mp parts)
      · refine Or.inl ⟨fun splitter mem => (kept splitter mem).imp id fun old =>
          mem_append_left _ (removed.mem_iff.mpr old), ?_, ?_⟩
        · exact mem_append_right _ mem_cons_self
        · exact mem_append_right _ (mem_cons_of_mem _ mem_cons_self)
      · refine ⟨1, length_append, ?_⟩
        dsimp only
        rw [length_append, removed.length_eq, length_eraseIdx_of_lt position]
        simp only [length_cons, length_nil]
        omega
    · rw [if_neg listed]
      split_ifs
      · refine ⟨⟨split _ ?_ ?_, sides⟩, ?_⟩
        · intro splitter mem
          exact (mem_append.mp mem).imp id fun last => Or.inl (mem_singleton.mp last)
        · exact Or.inr ⟨fun splitter mem => mem_append_left _ mem,
            Or.inl (mem_append_right _ (mem_singleton_self _))⟩
        · exact ⟨1, length_append, length_append⟩
      · refine ⟨⟨split _ ?_ ?_, sides⟩, ?_⟩
        · intro splitter mem
          exact (mem_append.mp mem).imp id fun last => Or.inr (mem_singleton.mp last)
        · exact Or.inr ⟨fun splitter mem => mem_append_left _ mem,
            Or.inr (mem_append_right _ (mem_singleton_self _))⟩
        · exact ⟨1, length_append, length_append⟩
  · rw [if_neg splits]
    refine ⟨⟨?_, ?_⟩, ?_⟩
    · dsimp only
      rw [append_assoc]
      exact congruence
    · intro set mem
      rcases mem_append.mp mem with old | last
      · exact Or.inl old
      · right
        rw [mem_singleton.mp last]
        rcases not_and_or.mp splits with outside | inside
        · right
          rw [not_not, Finset.card_eq_zero] at outside
          exact Finset.disjoint_iff_inter_eq_empty.mpr outside
        · left
          rw [not_not, Finset.card_eq_zero] at inside
          exact Finset.sdiff_eq_empty_iff_subset.mp inside
    · exact ⟨0, length_append, rfl⟩

theorem refine_classes_refine (rest : List (Finset Nat)) {state : Refinement}
    (congruence : Congruence automaton (state.classes ++ rest) state.distinguishers current cuts)
    (deterministic : IsDeterministic automaton)
    (cutRespects : Useful automaton →
      Respects (Finset.range automaton.nbStates) (Equivalent automaton) cut) :
    RefinedBy automaton current cut cuts state (rest.foldl (refineClass cut) state) [] ∧
      Grows state (rest.foldl (refineClass cut) state) rest.length := by
  induction rest generalizing state with
  | nil => exact ⟨⟨congruence, fun set mem => Or.inl mem⟩, 0, rfl, rfl⟩
  | cons class_ rest ih =>
    rcases refine_class_refines congruence deterministic cutRespects with
      ⟨step, first, firstClasses, firstSplitters⟩
    rcases ih step.congruence with ⟨later, second, secondClasses, secondSplitters⟩
    rw [foldl_cons]
    refine ⟨⟨later.congruence, fun set mem => ?_⟩, first + second, ?_, ?_⟩
    · rcases later.sides set mem with before | side
      · exact step.sides set before
      · exact Or.inr side
    · rw [secondClasses, firstClasses, length_cons]
      omega
    · omega

theorem refine_partition_refines {state : Refinement}
    (congruence : Congruence automaton state.classes state.distinguishers current (cut :: cuts))
    (deterministic : IsDeterministic automaton)
    (cutRespects : Useful automaton →
      Respects (Finset.range automaton.nbStates) (Equivalent automaton) cut) :
    Congruence automaton (refinePartition state cut).classes (refinePartition state cut).distinguishers
        current cuts ∧ Grows state (refinePartition state cut) 0 := by
  have reversed := congruence.perm (reverse_perm state.classes).symm
  rcases @refine_classes_refine automaton current cut (cut :: cuts) state.classes.reverse
    { state with classes := [] } reversed deterministic cutRespects with
    ⟨refined, made, classesGrow, splittersGrow⟩
  unfold refinePartition
  generalize state.classes.reverse.foldl (refineClass cut) { state with classes := [] } = next
    at refined classesGrow splittersGrow
  have whole := refined.congruence
  rw [append_nil] at whole
  have uniform : Uniform next.classes cut := by
    rintro first second ⟨set, mem, firstIn, secondIn⟩
    rcases refined.sides set mem with none | inside | outside
    · exact absurd none not_mem_nil
    · exact iff_of_true (inside firstIn) (inside secondIn)
    · exact iff_of_false (Finset.disjoint_left.mp outside firstIn)
        (Finset.disjoint_left.mp outside secondIn)
  refine ⟨⟨whole.partition, whole.refining.cut_done uniform, whole.finals, whole.respects⟩, made, ?_,
    splittersGrow⟩
  rw [length_reverse, length_nil, Nat.zero_add] at classesGrow
  exact classesGrow

theorem refine_partitions_refine (cuts : List (Finset Nat)) {state : Refinement}
    (congruence : Congruence automaton state.classes state.distinguishers current cuts)
    (deterministic : IsDeterministic automaton)
    (cutRespects : ∀ cut ∈ cuts, Useful automaton →
      Respects (Finset.range automaton.nbStates) (Equivalent automaton) cut) :
    Congruence automaton (cuts.foldl refinePartition state).classes
        (cuts.foldl refinePartition state).distinguishers current [] ∧
      Grows state (cuts.foldl refinePartition state) 0 := by
  induction cuts generalizing state with
  | nil => exact ⟨congruence, 0, rfl, rfl⟩
  | cons cut cuts ih =>
    rcases refine_partition_refines congruence deterministic (cutRespects cut mem_cons_self) with
      ⟨step, first, firstClasses, firstSplitters⟩
    rcases ih step (forall_mem_cons.mp cutRespects).2 with
      ⟨later, second, secondClasses, secondSplitters⟩
    rw [foldl_cons]
    exact ⟨later, first + second, by omega, by omega⟩

end Classes

/-- Classes of states that the transitions and the final states respect. -/
structure Congruent (automaton : RawAutomaton) (classes : List (Finset Nat)) : Prop where
  partition : IsPartition (Finset.range automaton.nbStates) classes
  stable : Stable automaton.pre classes
  finals : Uniform classes automaton.finalStates
  respects : Useful automaton → ∀ set ∈ classes,
    Respects (Finset.range automaton.nbStates) (Equivalent automaton) set

theorem Congruence.congruent {classes splitters : List (Finset Nat)} {current : Finset Nat}
    (congruence : Congruence automaton classes splitters current []) (none : splitters = []) :
    Congruent automaton classes := by
  have refining := congruence.refining
  rw [none] at refining
  exact ⟨congruence.partition, refining.stable, congruence.finals,
    fun useful set mem => congruence.respects useful set (Or.inl mem)⟩

/-- Each distinguisher that is taken is paid for by a class that can no longer be cut. -/
theorem refine_loop_congruent (inRange : InRange automaton) (deterministic : IsDeterministic automaton)
    (fits : ∀ state, ∀ entry ∈ automaton.outgoing state, entry.1.Fits alphabetSize markers)
    {fuel : Nat} {state : Refinement} {current : Finset Nat}
    (congruence : Congruence automaton state.classes state.distinguishers current [])
    (enough : 2 * automaton.nbStates + state.distinguishers.length ≤ fuel + 2 * state.classes.length) :
    ∃ classes, automaton.refineLoop order alphabetSize markers fuel state = some classes ∧
      Congruent automaton classes := by
  induction fuel generalizing state current with
  | zero =>
    have bound := congruence.partition.length_le
    rw [Finset.card_range] at bound
    have none : state.distinguishers = [] := by
      apply eq_nil_of_length_eq_zero
      omega
    rw [refineLoop, if_pos none]
    exact ⟨_, rfl, congruence.congruent none⟩
  | succ fuel ih =>
    rw [refineLoop]
    cases taken : state.distinguishers.getLast? with
    | none => exact ⟨_, rfl, congruence.congruent (getLast?_eq_none_iff.mp taken)⟩
    | some dist =>
      have split := dropLast_append_getLast? dist taken
      rcases predecessors_some inRange fits dist with ⟨preds, predsAre, every, origin⟩
      simp only [Option.bind_eq_bind, predsAre, Option.bind_some]
      generalize cutsAre : order.arrange preds.dedup = cuts
      have memCuts : ∀ cut, cut ∈ cuts ↔ cut ∈ preds := by
        intro cut
        rw [← cutsAre, order.mem_arrange, mem_dedup]
      have distRespects : Useful automaton →
          Respects (Finset.range automaton.nbStates) (Equivalent automaton) dist := fun useful =>
        congruence.respects useful dist (Or.inr (mem_of_getLast? taken))
      have start : Congruence automaton state.classes state.distinguishers.dropLast dist cuts := by
        constructor
        · exact congruence.partition
        · have whole := congruence.refining
          rw [← split] at whole
          apply whole.take
          intro letter
          rw [memCuts]
          exact every letter
        · exact congruence.finals
        · exact fun useful set mem => congruence.respects useful set
            (mem.imp id mem_of_mem_dropLast)
      have refined := @refine_partitions_refine automaton dist cuts
        { state with distinguishers := state.distinguishers.dropLast } start deterministic
        (by
          intro cut mem useful
          rcases origin cut ((memCuts cut).mp mem) with rfl | ⟨letter, rfl⟩
          · intro first inside
            exact absurd inside (Finset.notMem_empty first)
          · exact pre_respects inRange deterministic useful (distRespects useful) letter)
      generalize cuts.foldl refinePartition
        { state with distinguishers := state.distinguishers.dropLast } = next at refined
      rcases refined with ⟨later, made, classesGrow, splittersGrow⟩
      dsimp only at classesGrow splittersGrow
      have shorter : state.distinguishers.dropLast.length + 1 = state.distinguishers.length := by
        rw [← split, length_append, length_singleton, dropLast_concat]
      apply ih later
      omega

theorem nerode_congruence_congruent (inRange : InRange automaton)
    (deterministic : IsDeterministic automaton)
    (fits : ∀ state, ∀ entry ∈ automaton.outgoing state, entry.1.Fits alphabetSize markers) :
    ∃ classes, automaton.nerodeCongruence order alphabetSize markers = some classes ∧
      Congruent automaton classes := by
  have inside : automaton.finalStates ⊆ Finset.range automaton.nbStates := fun state final =>
    Finset.mem_range.mpr (inRange.finals state final)
  unfold nerodeCongruence
  rw [if_pos inRange.finals]
  dsimp only
  generalize partitionIs : [automaton.finalStates,
    Finset.range automaton.nbStates \ automaton.finalStates].filter (fun states => states.card ≠ 0) =
      partition
  have mem : ∀ set, set ∈ partition ↔ (set = automaton.finalStates ∨
      set = Finset.range automaton.nbStates \ automaton.finalStates) ∧ set.Nonempty := by
    intro set
    rw [← partitionIs, mem_filter, mem_pair, decide_eq_true_iff, Finset.card_ne_zero]
  have halves : IsPartition (Finset.range automaton.nbStates) partition := by
    constructor
    · exact fun set member => ((mem set).mp member).2
    · rw [← partitionIs]
      apply List.Pairwise.filter
      rw [pairwise_pair]
      exact Finset.disjoint_sdiff
    · intro state
      constructor
      · intro member
        by_cases final : state ∈ automaton.finalStates
        · exact ⟨_, (mem _).mpr ⟨Or.inl rfl, state, final⟩, final⟩
        · have other := Finset.mem_sdiff.mpr ⟨member, final⟩
          exact ⟨_, (mem _).mpr ⟨Or.inr rfl, state, other⟩, other⟩
      · rintro ⟨set, member, stateIn⟩
        rcases ((mem set).mp member).1 with rfl | rfl
        · exact inside stateIn
        · exact (Finset.mem_sdiff.mp stateIn).1
  have finalRespects : Respects (Finset.range automaton.nbStates) (Equivalent automaton)
      automaton.finalStates := by
    intro first final second _ equivalent
    apply nil_at.mp
    rw [← equivalent]
    exact nil_at.mpr final
  have allRespect : ∀ set ∈ partition,
      Respects (Finset.range automaton.nbStates) (Equivalent automaton) set := by
    intro set member
    rcases ((mem set).mp member).1 with rfl | rfl
    · exact finalRespects
    · apply Respects.sdiff (fun first second equivalent => Eq.symm equivalent) (Finset.Subset.refl _)
      · exact fun first _ second secondIn _ => secondIn
      · exact finalRespects
  apply @refine_loop_congruent order automaton alphabetSize markers inRange deterministic fits
    (2 * automaton.nbStates + 2) { classes := partition, distinguishers := partition } ∅
  · refine ⟨halves, refining_start, ?_, fun _ set member => allRespect set (member.elim id id)⟩
    rintro first second ⟨set, member, firstIn, secondIn⟩
    rcases ((mem set).mp member).1 with rfl | rfl
    · exact iff_of_true firstIn secondIn
    · exact iff_of_false (Finset.mem_sdiff.mp firstIn).2 (Finset.mem_sdiff.mp secondIn).2
  · dsimp only
    omega

end Midfall.RawAutomata.RawAutomaton
