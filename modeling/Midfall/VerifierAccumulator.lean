import Midfall.VerifierUtils

/-!
# Accumulators

Two partial MSMs, one for each side of the pairing check. A dual MSM becomes an
accumulator by setting the scalars of the fixed bases aside under their names;
accumulators are combined with powers of a hash, off circuit and in circuit.
-/

namespace Midfall.VerifierAccumulator

open CircuitPrograms NativeGadget OrderedMaps KzgMultiPrepare List
open VerifierMsm VerifierUtils

variable {modulus : Nat} {C : Type}

@[ext]
structure Accumulator (modulus : Nat) (C : Type) where
  lhs : Msm modulus C
  rhs : Msm modulus C

def fixedCommitmentName (vkName : String) (i : Nat) : String := vkName ++ "_fixed_com_" ++ toString i

def permCommitmentName (vkName : String) (i : Nat) : String := vkName ++ "_perm_com_" ++ toString i

/-! ### From dual MSMs -/

/-- The name under which the scalar of a labelled base is set aside. -/
def fixedName (vkName : String) : CommitmentLabel → Option String
  | .fixed i => some (fixedCommitmentName vkName i)
  | .permutation i => some (permCommitmentName vkName i)
  | .custom s => if s = "-G" then some "-G" else none
  | _ => none

/-- A named base must be the one of the map; its scalar is inserted. -/
def processTerm [DecidableEq C] (vkName : String) (fixedBases : OrderedMap String C)
    (msm : Msm modulus C) (term : Term modulus C) : Option (Msm modulus C) :=
  match fixedName vkName term.label with
  | some name =>
    if fixedBases.get? name = some term.base then
      some { msm with fixedBaseScalars := msm.fixedBaseScalars.insert name term.scalar }
    else none
  | none => some {
      bases := msm.bases ++ [term.base]
      scalars := msm.scalars ++ [term.scalar]
      fixedBaseScalars := msm.fixedBaseScalars
      sameLength := by simp [msm.sameLength] }

theorem no_terms_same_length : ([] : List C).length = ([] : List (ZMod modulus)).length := rfl

def processMsm [DecidableEq C] (vkName : String) (fixedBases : OrderedMap String C)
    (msm : MsmKzg modulus C) : Option (Msm modulus C) :=
  msm.foldlM (processTerm vkName fixedBases) ⟨[], [], OrderedMap.empty, no_terms_same_length⟩

def fromDualMsm [DecidableEq C] (dual : DualMsm modulus C) (vkName : String)
    (fixedBases : OrderedMap String C) : Option (Accumulator modulus C) := do
  let lhs ← processMsm vkName fixedBases dual.left
  let rhs ← processMsm vkName fixedBases dual.right
  return { lhs := lhs, rhs := rhs }

/-! ### Operations -/

def Accumulator.asPublicInput (emulation : SelfEmulation modulus C) (acc : Accumulator modulus C) :
    List (ZMod modulus) :=
  acc.lhs.asPublicInput emulation ++ acc.rhs.asPublicInput emulation

def Accumulator.accumulateWithR (acc other : Accumulator modulus C) (r : ZMod modulus) :
    Accumulator modulus C where
  lhs := acc.lhs.accumulateWithR other.lhs r
  rhs := acc.rhs.accumulateWithR other.rhs r

def batchingChallenge (emulation : SelfEmulation modulus C) (accs : List (Accumulator modulus C)) :
    ZMod modulus :=
  emulation.hash (accs.flatMap (·.asPublicInput emulation))

def accumulate (emulation : SelfEmulation modulus C) (truncated : Bool)
    (accs : List (Accumulator modulus C)) : Option (Accumulator modulus C) := do
  let r := batchingChallenge emulation accs
  let rs ← (List.range accs.length).mapM fun i =>
    if truncated then truncateOffCircuit (r ^ i) else some (r ^ i)
  let first ← accs.head?
  return ((accs.zip rs).drop 1).foldl (fun acc entry => acc.accumulateWithR entry.1 entry.2) first

def Accumulator.collapse [AddCommGroup C] [Module (ZMod modulus) C] (acc : Accumulator modulus C) :
    Accumulator modulus C where
  lhs := acc.lhs.collapse
  rhs := acc.rhs.collapse

/-! ### In circuit -/

structure AssignedAccumulator (modulus : Nat) (C : Type) where
  lhs : AssignedMsm modulus C
  rhs : AssignedMsm modulus C

namespace AssignedAccumulator

variable [Fact modulus.Prime]

def asPublicInput (emulation : SelfEmulation modulus C) (acc : AssignedAccumulator modulus C) :
    Circuit (List (ZMod modulus)) := do
  let lhs ← acc.lhs.inCircuitAsPublicInput emulation
  let rhs ← acc.rhs.inCircuitAsPublicInput emulation
  return lhs ++ rhs

def scaleByBit (cond : ZMod modulus) (acc : AssignedAccumulator modulus C) :
    Circuit (AssignedAccumulator modulus C) := do
  let condAsBounded : AssignedBoundedScalar modulus := { scalar := cond, bound := 1 }
  let lhs ← acc.lhs.scale condAsBounded
  let rhs ← acc.rhs.scale condAsBounded
  return { lhs := lhs, rhs := rhs }

def collapse (emulation : SelfEmulation modulus C) (acc : AssignedAccumulator modulus C) :
    Circuit (AssignedAccumulator modulus C) := do
  let lhs ← acc.lhs.collapse emulation
  let rhs ← acc.rhs.collapse emulation
  return { lhs := lhs, rhs := rhs }

def accumulateWithR (acc other : AssignedAccumulator modulus C)
    (ri : AssignedBoundedScalar modulus) : Circuit (AssignedAccumulator modulus C) := do
  let lhs ← acc.lhs.accumulateWithR other.lhs ri
  let rhs ← acc.rhs.accumulateWithR other.rhs ri
  return { lhs := lhs, rhs := rhs }

def batchingPowers (truncated : Bool) (r : ZMod modulus) (n : Nat) :
    Circuit (List (AssignedBoundedScalar modulus)) :=
  if truncated then truncatedPowers r n
  else do
    let rs ← powers r n
    return rs.map fun ri => AssignedBoundedScalar.new ri none

def accumulate (emulation : SelfEmulation modulus C) (truncated : Bool)
    (accs : List (AssignedAccumulator modulus C)) : Circuit (AssignedAccumulator modulus C) := do
  let hashInput ← accs.mapM (asPublicInput emulation)
  let r ← emulation.hashInCircuit hashInput.flatten
  let rs ← batchingPowers truncated r accs.length
  match accs.head? with
  | none => panic
  | some first =>
    ((accs.zip rs).drop 1).foldlM (fun acc entry => acc.accumulateWithR entry.1 entry.2) first

end AssignedAccumulator

/-! ### What the conversion keeps -/

section Conversion

variable [DecidableEq C] (vkName : String) (fixedBases : OrderedMap String C)

def anonymous (msm : MsmKzg modulus C) : MsmKzg modulus C :=
  msm.filter fun term => (fixedName vkName term.label).isNone

/-- Names with scalars, in order. -/
def named (msm : MsmKzg modulus C) : List (String × ZMod modulus) :=
  msm.filterMap fun term => (fixedName vkName term.label).map fun name => (name, term.scalar)

def Provided (msm : MsmKzg modulus C) : Prop :=
  ∀ term ∈ msm, ∀ name, fixedName vkName term.label = some name →
    fixedBases.get? name = some term.base

def overwritten : MsmKzg modulus C → MsmKzg modulus C
  | [] => []
  | term :: rest =>
    match fixedName vkName term.label with
    | some name =>
      if name ∈ (named vkName rest).map Prod.fst then term :: overwritten rest
      else overwritten rest
    | none => overwritten rest

variable {vkName fixedBases}

omit [DecidableEq C] in
theorem provided_cons {term : Term modulus C} {rest : MsmKzg modulus C}
    (provided : Provided vkName fixedBases (term :: rest)) : Provided vkName fixedBases rest :=
  (forall_mem_cons.mp provided).2

theorem process_provided {msm : MsmKzg modulus C} (provided : Provided vkName fixedBases msm)
    (start : Msm modulus C) :
    ∃ result, msm.foldlM (processTerm vkName fixedBases) start = some result ∧
      result.bases = start.bases ++ (anonymous vkName msm).map (·.base) ∧
      result.scalars = start.scalars ++ (anonymous vkName msm).map (·.scalar) ∧
      result.fixedBaseScalars = (named vkName msm).foldl
        (fun map entry => map.insert entry.1 entry.2) start.fixedBaseScalars := by
  induction msm generalizing start with
  | nil => exact ⟨start, rfl, (append_nil _).symm, (append_nil _).symm, rfl⟩
  | cons term rest ih =>
    rw [foldlM_cons]
    unfold anonymous named
    cases label : fixedName vkName term.label with
    | some name =>
      rcases ih (provided_cons provided)
        { start with fixedBaseScalars := start.fixedBaseScalars.insert name term.scalar } with
        ⟨result, run, bases, scalars, fixed⟩
      refine ⟨result, ?_, ?_, ?_, ?_⟩
      · unfold processTerm
        rw [label]
        dsimp only
        rw [if_pos (provided term mem_cons_self name label)]
        exact run
      · rw [filter_cons_of_neg (by simp [label])]
        exact bases
      · rw [filter_cons_of_neg (by simp [label])]
        exact scalars
      · rw [filterMap_cons_some (b := (name, term.scalar)) (by rw [label, Option.map_some])]
        exact fixed
    | none =>
      rcases ih (provided_cons provided) {
        bases := start.bases ++ [term.base]
        scalars := start.scalars ++ [term.scalar]
        fixedBaseScalars := start.fixedBaseScalars
        sameLength := by simp [start.sameLength] } with ⟨result, run, bases, scalars, fixed⟩
      refine ⟨result, ?_, ?_, ?_, ?_⟩
      · unfold processTerm
        rw [label]
        exact run
      · rw [filter_cons_of_pos (by simp [label]), map_cons, append_cons]
        exact bases
      · rw [filter_cons_of_pos (by simp [label]), map_cons, append_cons]
        exact scalars
      · rw [filterMap_cons_none (by rw [label, Option.map_none])]
        exact fixed

theorem process_needs_provided {msm : MsmKzg modulus C} {start result : Msm modulus C}
    (run : msm.foldlM (processTerm vkName fixedBases) start = some result) :
    Provided vkName fixedBases msm := by
  induction msm generalizing start with
  | nil => exact fun term mem => absurd mem not_mem_nil
  | cons term rest ih =>
    rw [foldlM_cons] at run
    rcases bind_some_iff.mp run with ⟨next, step, later⟩
    intro other mem name label
    rcases mem_cons.mp mem with rfl | inRest
    · unfold processTerm at step
      rw [label] at step
      dsimp only at step
      by_contra missing
      rw [if_neg missing] at step
      cases step
    · exact ih later other inRest name label

section Sums

variable [AddCommGroup C] [Module (ZMod modulus) C]

omit [DecidableEq C] in
theorem converted_sum {msm : MsmKzg modulus C} (provided : Provided vkName fixedBases msm) :
    ((anonymous vkName msm).map fun term => term.scalar • term.base).sum +
        (OrderedMap.ofList (named vkName msm)).total
          (fun name scalar => scalar • (fixedBases.get? name).getD 0) =
      (msm.map fun term => term.scalar • term.base).sum -
        ((overwritten vkName msm).map fun term => term.scalar • term.base).sum := by
  induction msm with
  | nil => simp [anonymous, named, overwritten, OrderedMap.ofList, OrderedMap.total, OrderedMap.empty]
  | cons term rest ih =>
    have later := ih (provided_cons provided)
    rw [map_cons, sum_cons]
    unfold overwritten
    cases label : fixedName vkName term.label with
    | none =>
      have kept : anonymous vkName (term :: rest) = term :: anonymous vkName rest :=
        filter_cons_of_pos (by simp [label])
      have names : named vkName (term :: rest) = named vkName rest :=
        filterMap_cons_none (by rw [label, Option.map_none])
      rw [kept, names, map_cons, sum_cons, add_assoc, later]
      exact (add_sub_assoc _ _ _).symm
    | some name =>
      have kept : anonymous vkName (term :: rest) = anonymous vkName rest :=
        filter_cons_of_neg (by simp [label])
      have names : named vkName (term :: rest) = (name, term.scalar) :: named vkName rest := by
        unfold named
        rw [filterMap_cons, label]
        rfl
      have base := provided term mem_cons_self name label
      rw [kept, names, OrderedMap.total_of_list_cons, ← add_assoc, later]
      dsimp only
      rw [base, Option.getD_some]
      split_ifs with repeated
      · rw [map_cons, sum_cons]
        abel
      · abel

def SideConverts (vkName : String) (fixedBases : OrderedMap String C) (msm : MsmKzg modulus C) :
    Prop :=
  ∃ side, processMsm vkName fixedBases msm = some side ∧ side.eval fixedBases = some msm.eval

theorem side_converts_iff (msm : MsmKzg modulus C) :
    SideConverts vkName fixedBases msm ↔
      Provided vkName fixedBases msm ∧ (overwritten vkName msm).eval = 0 := by
  have evaluated : Provided vkName fixedBases msm → ∃ side,
      processMsm vkName fixedBases msm = some side ∧
        side.eval fixedBases = some (msm.eval - (overwritten vkName msm).eval) := by
    intro provided
    rcases process_provided provided ⟨[], [], OrderedMap.empty, rfl⟩ with
      ⟨side, run, bases, scalars, fixed⟩
    refine ⟨side, run, ?_⟩
    rw [nil_append] at bases scalars
    have names : ∀ name ∈ side.fixedBaseScalars.keys, name ∈ fixedBases.keys := by
      intro name mem
      rw [fixed] at mem
      rcases mem_map.mp (OrderedMap.mem_keys_of_list.mp mem) with ⟨entry, inNamed, rfl⟩
      rcases mem_filterMap.mp inNamed with ⟨term, inMsm, found⟩
      rcases Option.map_eq_some_iff.mp found with ⟨name, label, rfl⟩
      exact OrderedMap.mem_keys_iff.mpr ⟨term.base, provided term inMsm name label⟩
    have sums := converted_sum provided
    rw [← MsmKzg.eval_eq_sum msm, ← MsmKzg.eval_eq_sum (overwritten vkName msm)] at sums
    have variables_ : msmBest side.scalars side.bases =
        ((anonymous vkName msm).map fun term => term.scalar • term.base).sum := by
      rw [msmBest, bases, scalars, zipWith_map, zipWith_self]
    rw [Msm.eval_eq, if_pos names, ← sums, Msm.sum, variables_, fixed]
    rfl
  constructor
  · rintro ⟨side, run, value⟩
    have provided := process_needs_provided run
    rcases evaluated provided with ⟨other, otherRun, otherValue⟩
    rw [run] at otherRun
    rw [← Option.some.inj otherRun, value] at otherValue
    exact ⟨provided, sub_eq_self.mp (Option.some.inj otherValue).symm⟩
  · rintro ⟨provided, lost⟩
    rcases evaluated provided with ⟨side, run, value⟩
    rw [lost, sub_zero] at value
    exact ⟨side, run, value⟩

end Sums

end Conversion

/-! ### What combining keeps -/

section Combination

def coefficient (truncated : Bool) (r : ZMod modulus) (i : Nat) : ZMod modulus :=
  if i = 0 then 1 else if truncated then truncate (r ^ i) else r ^ i

/-- The accumulators with their factors, from the second on. -/
def batchedEntries (truncated : Bool) (r : ZMod modulus) (accs : List (Accumulator modulus C)) :
    List (Accumulator modulus C × ZMod modulus) :=
  (accs.zip ((List.range accs.length).map (coefficient truncated r))).drop 1

def combined (emulation : SelfEmulation modulus C) (truncated : Bool) (first : Accumulator modulus C)
    (others : List (Accumulator modulus C)) : Accumulator modulus C :=
  (batchedEntries truncated (batchingChallenge emulation (first :: others)) (first :: others)).foldl
    (fun acc entry => acc.accumulateWithR entry.1 entry.2) first

theorem zip_range_tail {Entry Image : Type} (view : Nat → Image) (first : Entry)
    (others : List Entry) :
    ((first :: others).zip ((List.range (first :: others).length).map view)).drop 1 =
      others.zipIdx.map fun entry => (entry.1, view (entry.2 + 1)) := by
  apply ext_getElem
  · simp
  · intro i _ _
    simp only [getElem_drop, getElem_zip, getElem_map, getElem_range,
      getElem_zipIdx, getElem_cons, Nat.zero_add]
    rw [dif_neg (by omega)]
    simp only [Nat.add_comm 1 i, Nat.add_sub_cancel]

theorem drop_one_zip_range {Entry Image : Type} (view other : Nat → Image) (entries : List Entry)
    (same : ∀ i, i ≠ 0 → view i = other i) :
    (entries.zip ((List.range entries.length).map view)).drop 1 =
      (entries.zip ((List.range entries.length).map other)).drop 1 := by
  apply ext_getElem
  · simp
  · intro i _ _
    simp only [getElem_drop, getElem_zip, getElem_map, getElem_range]
    rw [same (1 + i) (by omega)]

theorem accumulate_eq [NeZero modulus] (emulation : SelfEmulation modulus C) (truncated : Bool)
    (first : Accumulator modulus C) (others : List (Accumulator modulus C)) :
    accumulate emulation truncated (first :: others) =
      some (combined emulation truncated first others) := by
  have powers : ∀ r : ZMod modulus, ((List.range (first :: others).length).mapM fun i =>
      if truncated then truncateOffCircuit (r ^ i) else some (r ^ i)) =
        some ((List.range (first :: others).length).map fun i =>
          if truncated then truncate (r ^ i) else r ^ i) := by
    intro r
    apply ListLoops.map_m_of_forall
    intro i _
    split_ifs
    · exact truncate_off_circuit_eq _
    · rfl
  unfold accumulate
  dsimp only
  rw [powers]
  show some (List.foldl _ first _) = some (List.foldl _ first _)
  rw [drop_one_zip_range _ (coefficient truncated (batchingChallenge emulation (first :: others)))]
  · rfl
  · intro i later
    rw [coefficient, if_neg later]

section Group

variable [AddCommGroup C] [Module (ZMod modulus) C]

/-- `Σ c_i P_i`. -/
def batchedSum (truncated : Bool) (r : ZMod modulus) (points : List C) : C :=
  (points.zipIdx.map fun entry => coefficient truncated r entry.2 • entry.1).sum

/-- Both sides of the accumulator evaluate to the batched sum of the sides. -/
def EvaluatesToSum (emulation : SelfEmulation modulus C) (truncated : Bool)
    (accs : List (Accumulator modulus C)) (result : Accumulator modulus C)
    (fixedBases : OrderedMap String C) : Prop :=
  let r := batchingChallenge emulation accs
  result.lhs.eval fixedBases =
      (accs.mapM fun acc : Accumulator modulus C => acc.lhs.eval fixedBases).map
        (batchedSum truncated r) ∧
    result.rhs.eval fixedBases =
      (accs.mapM fun acc : Accumulator modulus C => acc.rhs.eval fixedBases).map
        (batchedSum truncated r)

theorem fold_side {side : Accumulator modulus C → Msm modulus C}
    (accumulates : ∀ acc other r,
      side (acc.accumulateWithR other r) = (side acc).accumulateWithR (side other) r)
    (entries : List (Accumulator modulus C × ZMod modulus)) (start : Accumulator modulus C)
    (fixedBases : OrderedMap String C) :
    (side (entries.foldl (fun acc entry => acc.accumulateWithR entry.1 entry.2) start)).sum
        fixedBases = (side start).sum fixedBases +
          (entries.map fun entry => entry.2 • (side entry.1).sum fixedBases).sum ∧
      ∀ name, name ∈ (side (entries.foldl (fun acc entry => acc.accumulateWithR entry.1 entry.2)
          start)).fixedBaseScalars.keys ↔ name ∈ (side start).fixedBaseScalars.keys ∨
            ∃ entry ∈ entries, name ∈ (side entry.1).fixedBaseScalars.keys := by
  induction entries generalizing start with
  | nil => simp
  | cons entry entries ih =>
    rcases ih (start.accumulateWithR entry.1 entry.2) with ⟨sums, names⟩
    constructor
    · rw [foldl_cons, sums, accumulates, Msm.sum_accumulate, map_cons, sum_cons, add_assoc]
    · intro name
      rw [foldl_cons, names, accumulates, Msm.keys_accumulate]
      simp only [mem_cons, exists_eq_or_imp]
      tauto

omit [AddCommGroup C] [Module (ZMod modulus) C] in
theorem batched_entries_eq (truncated : Bool) (r : ZMod modulus) (first : Accumulator modulus C)
    (others : List (Accumulator modulus C)) :
    batchedEntries truncated r (first :: others) =
      others.zipIdx.map fun entry => (entry.1, coefficient truncated r (entry.2 + 1)) :=
  zip_range_tail (coefficient truncated r) first others

theorem combined_side {side : Accumulator modulus C → Msm modulus C}
    (accumulates : ∀ acc other r,
      side (acc.accumulateWithR other r) = (side acc).accumulateWithR (side other) r)
    (emulation : SelfEmulation modulus C) (truncated : Bool) (first : Accumulator modulus C)
    (others : List (Accumulator modulus C)) (fixedBases : OrderedMap String C) :
    (side (combined emulation truncated first others)).eval fixedBases =
      ((first :: others).mapM fun acc => (side acc).eval fixedBases).map
        (batchedSum truncated (batchingChallenge emulation (first :: others))) := by
  set r := batchingChallenge emulation (first :: others) with challenge
  rcases fold_side accumulates (batchedEntries truncated r (first :: others)) first fixedBases with
    ⟨sums, names⟩
  have guarded : (∀ name ∈ (side (combined emulation truncated first others)).fixedBaseScalars.keys,
      name ∈ fixedBases.keys) ↔ ∀ acc ∈ first :: others,
        ∀ name ∈ (side acc).fixedBaseScalars.keys, name ∈ fixedBases.keys := by
    have entries : ∀ acc, (∃ entry ∈ batchedEntries truncated r (first :: others), entry.1 = acc) ↔
        acc ∈ others := by
      intro acc
      rw [batched_entries_eq, ← mem_map]
      simp [map_map, Function.comp_def]
    have members : ∀ name, name ∈
        (side (combined emulation truncated first others)).fixedBaseScalars.keys ↔
          ∃ acc ∈ first :: others, name ∈ (side acc).fixedBaseScalars.keys := by
      intro name
      rw [combined, ← challenge, names]
      simp only [mem_cons, exists_eq_or_imp, ← entries]
      constructor
      · rintro (here | ⟨entry, mem, found⟩)
        · exact Or.inl here
        · exact Or.inr ⟨entry.1, ⟨entry, mem, rfl⟩, found⟩
      · rintro (here | ⟨acc, ⟨entry, mem, rfl⟩, found⟩)
        · exact Or.inl here
        · exact Or.inr ⟨entry, mem, found⟩
    simp only [members]
    constructor
    · intro all acc mem name found
      exact all name ⟨acc, mem, found⟩
    · rintro all name ⟨acc, mem, found⟩
      exact all acc mem name found
  have evaluated := ListLoops.map_m_guarded (first :: others)
    fun acc => Msm.eval_eq (side acc) fixedBases
  have total : (side (combined emulation truncated first others)).sum fixedBases =
      batchedSum truncated r ((first :: others).map fun acc => (side acc).sum fixedBases) := by
    rw [combined, ← challenge, sums, batched_entries_eq, batchedSum, map_cons,
      zipIdx_cons, map_cons, sum_cons, coefficient, if_pos rfl, one_smul,
      Nat.zero_add, zipIdx_map, map_map, map_map, zipIdx_succ, map_map]
    rfl
  rw [evaluated, Msm.eval_eq]
  by_cases all : ∀ acc ∈ first :: others, ∀ name ∈ (side acc).fixedBaseScalars.keys,
      name ∈ fixedBases.keys
  · rw [if_pos (guarded.mpr all), if_pos all, Option.map_some, total]
  · rw [if_neg fun names => all (guarded.mp names), if_neg all, Option.map_none]

end Group

end Combination

/-! ### In circuit and off circuit -/

structure AssignedAccumulator.Represents (assigned : AssignedAccumulator modulus C)
    (acc : Accumulator modulus C) : Prop where
  lhs : VerifierMsm.Represents assigned.lhs acc.lhs
  rhs : VerifierMsm.Represents assigned.rhs acc.rhs

def Accumulator.scaled (acc : Accumulator modulus C) (r : ZMod modulus) : Accumulator modulus C where
  lhs := acc.lhs.scaled r
  rhs := acc.rhs.scaled r

theorem forall₂_zip_idx {First Second Image View : Type} {relation : First → Second → Prop}
    {related : Image → View → Prop} {left : First × Nat → Image} {right : Second × Nat → View}
    (keeps : ∀ first second i, relation first second → related (left (first, i)) (right (second, i)))
    {firsts : List First} {seconds : List Second} (all : Forall₂ relation firsts seconds)
    (start : Nat) :
    Forall₂ related ((firsts.zipIdx start).map left) ((seconds.zipIdx start).map right) := by
  induction all generalizing start with
  | nil => exact Forall₂.nil
  | cons head _ ih =>
    rw [zipIdx_cons, zipIdx_cons, map_cons, map_cons]
    exact Forall₂.cons (keeps _ _ start head) (ih (start + 1))

section Agreement

variable [Fact modulus.Prime]

open AssignedAccumulator

def assignedCoefficient (truncated : Bool) (r : ZMod modulus) (i : Nat) :
    AssignedBoundedScalar modulus :=
  if truncated then truncatedPowerAt r i else AssignedBoundedScalar.new (r ^ i) none

theorem assigned_coefficient_scalar (truncated : Bool) (r : ZMod modulus) (i : Nat) :
    (assignedCoefficient truncated r i).scalar = coefficient truncated r i := by
  unfold assignedCoefficient coefficient truncatedPowerAt
  by_cases first : i = 0
  · subst first
    cases truncated <;> simp [AssignedBoundedScalar.new]
  · cases truncated <;> simp [first, AssignedBoundedScalar.new, truncatedScalar]

theorem assigned_coefficient_bounded (truncated : Bool) (r : ZMod modulus) (i : Nat) :
    (assignedCoefficient truncated r i).Bounded := by
  unfold assignedCoefficient
  split_ifs
  · exact bounded_truncated_power r i
  · exact AssignedBoundedScalar.bounded_new _

theorem computes_batching_powers (size : 8 ≤ modulus.size) (truncated : Bool) (r : ZMod modulus)
    {n : Nat} (pos : 0 < n) :
    Computes (batchingPowers truncated r n) ((List.range n).map (assignedCoefficient truncated r)) := by
  have odd : modulus % 2 = 1 := by
    rcases (Fact.out : modulus.Prime).eq_two_or_odd with two | odd
    · rw [two] at size
      exact absurd size (by decide)
    · exact odd
  unfold batchingPowers assignedCoefficient
  cases truncated with
  | true => exact computes_truncated_powers odd size r pos
  | false =>
    have powers := (computes_powers r pos).returning fun rs =>
      rs.map fun ri => AssignedBoundedScalar.new ri none
    rw [map_map] at powers
    exact powers

theorem represents_accumulate_with_r {assigned other : AssignedAccumulator modulus C}
    {acc otherAcc : Accumulator modulus C} (represents : assigned.Represents acc)
    (otherRepresents : other.Represents otherAcc) {ri : AssignedBoundedScalar modulus}
    (bounded : ri.Bounded) :
    ∃ result, Computes (assigned.accumulateWithR other ri) result ∧
      result.Represents (acc.accumulateWithR otherAcc ri.scalar) := by
  rcases represents_accumulate represents.lhs otherRepresents.lhs bounded with
    ⟨lhs, computesLhs, lhsRepresents⟩
  rcases represents_accumulate represents.rhs otherRepresents.rhs bounded with
    ⟨rhs, computesRhs, rhsRepresents⟩
  exact ⟨{ lhs := lhs, rhs := rhs }, computesLhs.bind (computesRhs.returning
    fun rhs => AssignedAccumulator.mk lhs rhs), lhsRepresents, rhsRepresents⟩

structure EntryRepresents (entry : AssignedAccumulator modulus C × AssignedBoundedScalar modulus)
    (other : Accumulator modulus C × ZMod modulus) : Prop where
  acc : entry.1.Represents other.1
  bounded : entry.2.Bounded
  scalar : entry.2.scalar = other.2

variable {acc : Accumulator modulus C}

theorem represents_fold
    {assigned : List (AssignedAccumulator modulus C × AssignedBoundedScalar modulus)}
    {entries : List (Accumulator modulus C × ZMod modulus)}
    (all : Forall₂ EntryRepresents assigned entries) {start : AssignedAccumulator modulus C}
    (represents : start.Represents acc) :
    ∃ result, Computes (assigned.foldlM (fun acc entry => acc.accumulateWithR entry.1 entry.2)
        start) result ∧
      result.Represents (entries.foldl (fun acc entry => acc.accumulateWithR entry.1 entry.2) acc) := by
  induction all generalizing start acc with
  | nil => exact ⟨start, computes_pure start, represents⟩
  | cons head _ ih =>
    rcases represents_accumulate_with_r represents head.acc head.bounded with
      ⟨next, step, nextRepresents⟩
    rw [head.scalar] at nextRepresents
    rcases ih nextRepresents with ⟨result, rest, resultRepresents⟩
    refine ⟨result, ?_, resultRepresents⟩
    rw [foldlM_cons]
    exact step.bind rest

variable {assigned : AssignedAccumulator modulus C}

theorem scale_by_bit_represents (cond : Bool) (represents : assigned.Represents acc) :
    ∃ result, Computes (scaleByBit (bit cond) assigned) result ∧
      result.Represents (acc.scaled (bit cond)) := by
  have bounded : ({ scalar := bit cond, bound := 1 } : AssignedBoundedScalar modulus).Bounded := by
    cases cond with
    | false => exact le_of_eq_of_le ZMod.val_zero (Nat.zero_le 1)
    | true => exact AssignedBoundedScalar.bounded_one
  rcases represents_scale represents.lhs bounded with ⟨lhs, computesLhs, lhsRepresents⟩
  rcases represents_scale represents.rhs bounded with ⟨rhs, computesRhs, rhsRepresents⟩
  exact ⟨{ lhs := lhs, rhs := rhs }, computesLhs.bind (computesRhs.returning
    fun rhs => AssignedAccumulator.mk lhs rhs), lhsRepresents, rhsRepresents⟩

variable [AddCommGroup C] [Module (ZMod modulus) C] {emulation : SelfEmulation modulus C}

theorem represents_as_public_input (lawful : emulation.Lawful)
    (represents : assigned.Represents acc) :
    Computes (assigned.asPublicInput emulation) (acc.asPublicInput emulation) :=
  (represents_public_input lawful represents.lhs).bind
    ((represents_public_input lawful represents.rhs).returning
      fun rhs => acc.lhs.asPublicInput emulation ++ rhs)

variable {accs : List (Accumulator modulus C)}

theorem represents_public_inputs (lawful : emulation.Lawful)
    {assigned : List (AssignedAccumulator modulus C)}
    (all : Forall₂ AssignedAccumulator.Represents assigned accs) :
    Computes (assigned.mapM (AssignedAccumulator.asPublicInput emulation))
      (accs.map (·.asPublicInput emulation)) := by
  induction all with
  | nil => exact computes_pure []
  | cons head _ ih =>
    rw [mapM_cons, map_cons]
    exact (represents_as_public_input lawful head).bind (ih.returning _)

theorem accumulate_represents (lawful : emulation.Lawful) (size : 8 ≤ modulus.size)
    (truncated : Bool) {assigned : List (AssignedAccumulator modulus C)}
    (all : Forall₂ AssignedAccumulator.Represents assigned accs) (nonempty : accs ≠ []) :
    ∃ result acc, Computes (AssignedAccumulator.accumulate emulation truncated assigned) result ∧
      accumulate emulation truncated accs = some acc ∧ result.Represents acc := by
  cases all with
  | nil => exact absurd rfl nonempty
  | @cons head first heads others headRepresents rest =>
    have inputs := represents_public_inputs lawful (Forall₂.cons headRepresents rest)
    have challenge : emulation.hash ((first :: others).map
        (·.asPublicInput emulation)).flatten = batchingChallenge emulation (first :: others) := by
      rw [batchingChallenge, flatMap_def]
    have powers := computes_batching_powers size truncated
      (batchingChallenge emulation (first :: others)) (Nat.succ_pos heads.length)
    have entries := @forall₂_zip_idx _ _ _ _ AssignedAccumulator.Represents EntryRepresents
      (fun entry => (entry.1, assignedCoefficient truncated
        (batchingChallenge emulation (first :: others)) (entry.2 + 1)))
      (fun entry => (entry.1, coefficient truncated
        (batchingChallenge emulation (first :: others)) (entry.2 + 1)))
      (fun _ _ _ represents => ⟨represents, assigned_coefficient_bounded truncated _ _,
        assigned_coefficient_scalar truncated _ _⟩) _ _ rest 0
    rcases represents_fold entries headRepresents with ⟨result, folds, represents⟩
    refine ⟨result, combined emulation truncated first others, ?_,
      accumulate_eq emulation truncated first others, ?_⟩
    · refine inputs.bind ?_
      refine (lawful.hash _).bind ?_
      rw [challenge]
      refine powers.bind ?_
      rw [head?_cons]
      dsimp only
      have length : heads.length.succ = (head :: heads).length := rfl
      rw [length, zip_range_tail]
      exact folds
    · rw [combined, batched_entries_eq]
      exact represents

theorem collapse_represents (lawful : emulation.Lawful) (represents : assigned.Represents acc) :
    ∃ result, Computes (assigned.collapse emulation) result ∧ result.Represents acc.collapse := by
  rcases represents_collapse lawful represents.lhs with ⟨lhs, computesLhs, lhsRepresents⟩
  rcases represents_collapse lawful represents.rhs with ⟨rhs, computesRhs, rhsRepresents⟩
  exact ⟨{ lhs := lhs, rhs := rhs }, computesLhs.bind (computesRhs.returning
    fun rhs => AssignedAccumulator.mk lhs rhs), lhsRepresents, rhsRepresents⟩

end Agreement

/-! ### Evaluation -/

section Evaluation

variable [Fact modulus.Prime] [DecidableEq C] [AddCommGroup C] [Module (ZMod modulus) C]

/-- Dual MSMs that results of `multi_prepare` become by `scale` and `add_msm`. -/
inductive FromPrepare (build : Build) (generator : C) : DualMsm modulus C → Prop where
  | prepared {commitments : Nat → C} {queries : List (VerifierQuery modulus C)}
      {proof : OpeningProof modulus C} {dual : DualMsm modulus C}
      (returned : multiPrepare build generator commitments queries proof = some dual) :
      FromPrepare build generator dual
  | scale (factor : ZMod modulus) {dual : DualMsm modulus C}
      (obtained : FromPrepare build generator dual) : FromPrepare build generator (dual.scale factor)
  | addMsm {dual other : DualMsm modulus C} (obtained : FromPrepare build generator dual)
      (otherObtained : FromPrepare build generator other) :
      FromPrepare build generator (dual.addMsm other)

/-- The in-circuit operations give what the others give, with bounds that hold. -/
structure InCircuitAgrees (emulation : SelfEmulation modulus C) (truncated : Bool) : Prop where
  accumulate : ∀ (assigned : List (AssignedAccumulator modulus C))
    (accs : List (Accumulator modulus C)),
    Forall₂ AssignedAccumulator.Represents assigned accs → accs ≠ [] →
      ∃ result acc, Computes (AssignedAccumulator.accumulate emulation truncated assigned) result ∧
        accumulate emulation truncated accs = some acc ∧ result.Represents acc
  scaleByBit : ∀ (cond : Bool) (assigned : AssignedAccumulator modulus C)
    (acc : Accumulator modulus C), assigned.Represents acc →
      ∃ result, Computes (AssignedAccumulator.scaleByBit (bit cond) assigned) result ∧
        result.Represents (acc.scaled (bit cond))
  collapse : ∀ (assigned : AssignedAccumulator modulus C) (acc : Accumulator modulus C),
    assigned.Represents acc → ∃ result, Computes (assigned.collapse emulation) result ∧
      result.Represents acc.collapse

/-- Conversion, collapsing and accumulation keep the points, and the circuits follow. -/
structure PreservesEvaluation (emulation : SelfEmulation modulus C) (truncated : Bool)
    (vkName : String) (fixedBases : OrderedMap String C) (dual : DualMsm modulus C) : Prop where
  converts : ∃ acc, fromDualMsm dual vkName fixedBases = some acc ∧
    acc.lhs.eval fixedBases = some dual.left.eval ∧
    acc.rhs.eval fixedBases = some dual.right.eval
  collapse : ∀ (acc : Accumulator modulus C) (bases : OrderedMap String C),
    acc.collapse.lhs.eval bases = acc.lhs.eval bases ∧
      acc.collapse.rhs.eval bases = acc.rhs.eval bases
  accumulate : ∀ accs : List (Accumulator modulus C), accs ≠ [] →
    ∃ result, accumulate emulation truncated accs = some result ∧
      ∀ bases, EvaluatesToSum emulation truncated accs result bases
  inCircuit : InCircuitAgrees emulation truncated

/-- The map has the bases of the named terms, and no point is lost under a repeated name. -/
structure NothingOverwritten (vkName : String) (fixedBases : OrderedMap String C)
    (dual : DualMsm modulus C) : Prop where
  left : Provided vkName fixedBases dual.left
  right : Provided vkName fixedBases dual.right
  leftKept : (overwritten vkName dual.left).eval = 0
  rightKept : (overwritten vkName dual.right).eval = 0

theorem converts_iff {vkName : String} {fixedBases : OrderedMap String C}
    {dual : DualMsm modulus C} :
    (∃ acc, fromDualMsm dual vkName fixedBases = some acc ∧
      acc.lhs.eval fixedBases = some dual.left.eval ∧
      acc.rhs.eval fixedBases = some dual.right.eval) ↔
        NothingOverwritten vkName fixedBases dual := by
  have sides : (∃ acc, fromDualMsm dual vkName fixedBases = some acc ∧
      acc.lhs.eval fixedBases = some dual.left.eval ∧
      acc.rhs.eval fixedBases = some dual.right.eval) ↔
        SideConverts vkName fixedBases dual.left ∧ SideConverts vkName fixedBases dual.right := by
    constructor
    · rintro ⟨acc, converted, left, right⟩
      rcases bind_some_iff.mp converted with ⟨lhs, lhsRun, later⟩
      rcases bind_some_iff.mp later with ⟨rhs, rhsRun, built⟩
      rw [← Option.some.inj built] at left right
      exact ⟨⟨lhs, lhsRun, left⟩, ⟨rhs, rhsRun, right⟩⟩
    · rintro ⟨⟨lhs, lhsRun, left⟩, ⟨rhs, rhsRun, right⟩⟩
      refine ⟨{ lhs := lhs, rhs := rhs }, ?_, left, right⟩
      unfold fromDualMsm
      rw [lhsRun, rhsRun]
      rfl
  rw [sides, side_converts_iff, side_converts_iff]
  constructor
  · rintro ⟨⟨left, leftKept⟩, ⟨right, rightKept⟩⟩
    exact ⟨left, right, leftKept, rightKept⟩
  · intro kept
    exact ⟨⟨kept.left, kept.leftKept⟩, ⟨kept.right, kept.rightKept⟩⟩

/-- Everything but the conversion always holds. -/
theorem preserves_evaluation_iff {emulation : SelfEmulation modulus C} (lawful : emulation.Lawful)
    (size : 8 ≤ modulus.size) (truncated : Bool) (vkName : String)
    (fixedBases : OrderedMap String C) (dual : DualMsm modulus C) :
    PreservesEvaluation emulation truncated vkName fixedBases dual ↔
      NothingOverwritten vkName fixedBases dual := by
  rw [← converts_iff]
  constructor
  · exact fun preserves => preserves.converts
  · intro converts
    refine ⟨converts, ?_, ?_, ?_⟩
    · intro acc bases
      exact ⟨Msm.collapse_eval acc.lhs bases, Msm.collapse_eval acc.rhs bases⟩
    · intro accs nonempty
      cases accs with
      | nil => exact absurd rfl nonempty
      | cons first others =>
        refine ⟨_, accumulate_eq emulation truncated first others, fun bases => ⟨?_, ?_⟩⟩
        · exact @combined_side _ _ _ _ Accumulator.lhs (fun _ _ _ => rfl) emulation truncated
            first others bases
        · exact @combined_side _ _ _ _ Accumulator.rhs (fun _ _ _ => rfl) emulation truncated
            first others bases
    · exact ⟨fun _ _ => accumulate_represents lawful size truncated,
        fun cond _ _ => scale_by_bit_represents cond, fun _ _ => collapse_represents lawful⟩

end Evaluation

/-! ### Added results of one key -/

instance twoHundredFiftySevenPrime : Fact (Nat.Prime 257) := ⟨by norm_num⟩

/-- The field as its own curve, with a sum as the hash. -/
def additiveEmulation : SelfEmulation 257 (ZMod 257) where
  hash := List.sum
  hashInCircuit := fun inputs => pure inputs.sum
  pointInputs := fun point => [point]
  pointInputsInCircuit := fun point => pure [point]
  assignPoint := assign
  msm := fun scalars bases => pure (msmBest (scalars.map Prod.fst) bases)

theorem additive_emulation_lawful : additiveEmulation.Lawful where
  hash := fun _ => computes_pure _
  pointInputs := fun _ => computes_pure _
  assignPoint := fun _ => satisfies_assign _
  msm := fun _ _ _ _ => computes_pure _

def plainBuild : Build where
  fewerPointSets := false
  truncatedChallenges := false
  numThreads := 1

/-- An advice column opened at zero. -/
def adviceQuery : VerifierQuery 257 (ZMod 257) where
  point := 0
  commitmentLabel := { label := .advice 0, termLabels := [] }
  commitment := .onePiece 0
  eval := 1

def openingProof : OpeningProof 257 (ZMod 257) where
  dummyEval := fun _ => 0
  x1 := ((2 : Nat) : ZMod 257)
  x2 := ((3 : Nat) : ZMod 257)
  fCom := ((7 : Nat) : ZMod 257)
  x3 := 1
  qEval := fun _ => 1
  x4 := 0
  pi := ((4 : Nat) : ZMod 257)

def openedOnce : DualMsm 257 (ZMod 257) :=
  assembleDual 1 [{ label := .advice 0, scalar := 1, base := ((5 : Nat) : ZMod 257) },
    { label := .noLabel, scalar := 0, base := ((7 : Nat) : ZMod 257) }] 1 1 ((4 : Nat) : ZMod 257)

theorem opened_once_prepared :
    multiPrepare plainBuild 1 (fun _ => (5 : ZMod 257)) [adviceQuery] openingProof =
      some openedOnce := by
  decide +kernel

def generatorBase : OrderedMap String (ZMod 257) := OrderedMap.empty.insert "-G" (-1)

theorem repeated_base_overwritten :
    FromPrepare plainBuild 1 (openedOnce.addMsm openedOnce) ∧
      ¬PreservesEvaluation additiveEmulation false "vk" generatorBase
        (openedOnce.addMsm openedOnce) := by
  constructor
  · exact FromPrepare.addMsm (FromPrepare.prepared opened_once_prepared)
      (FromPrepare.prepared opened_once_prepared)
  · intro preserves
    have kept := (converts_iff.mp preserves.converts).rightKept
    revert kept
    decide +kernel

theorem opened_once_preserved :
    NothingOverwritten "vk" generatorBase openedOnce ∧
      PreservesEvaluation additiveEmulation false "vk" generatorBase openedOnce := by
  have kept : NothingOverwritten "vk" generatorBase openedOnce := by
    refine ⟨?_, ?_, by decide +kernel, by decide +kernel⟩
    · unfold Provided
      decide +kernel
    · unfold Provided
      decide +kernel
  exact ⟨kept, (preserves_evaluation_iff additive_emulation_lawful (by decide) false "vk"
    generatorBase openedOnce).mpr kept⟩

end Midfall.VerifierAccumulator
