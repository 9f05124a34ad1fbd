import Midfall.CircuitPrograms

/-!
# Programs over cells

A program that fills a column of advice cells. An assigned value names its cell:
a cached constant or a position in the column, which only grows. Three readings
of a postcondition: the prover's run meets it (`Honest`), every allowed run does
(`Allowed`), or both (`Exact`).
-/

namespace Midfall.CellPrograms

open CircuitPrograms List

variable {Value Result Next Input : Type}

/-- A constant has one cell; advice cells are numbered. -/
inductive Cell (Value : Type) where
  | fixed (constant : Value)
  | advice (position : Nat)
  deriving DecidableEq

structure Assigned (Value : Type) where
  cell : Cell Value
  value : Value

abbrev Layout (Value Result : Type) := StateT (List Value) Circuit Result

def fillCell (circuit : Circuit Value) : Layout Value (Assigned Value) := fun cells => do
  let value ← circuit
  return ({ cell := .advice cells.length, value := value }, cells ++ [value])

def fillCells (circuit : Circuit (List Value)) : Layout Value (List (Assigned Value)) :=
  fun cells => do
    let values ← circuit
    return (values.zipIdx.map fun entry =>
      { cell := .advice (cells.length + entry.2), value := entry.1 }, cells ++ values)

def constantCell (constant : Value) : Layout Value (Assigned Value) :=
  return { cell := .fixed constant, value := constant }

def emit (circuit : Circuit Result) : Layout Value Result := fun cells => do
  let result ← circuit
  return (result, cells)

def stop : Layout Value Result := fun _ => panic

/-- The prover panics while it computes its witnesses; the constraints do not see it. -/
def proverChecks (condition : Bool) : Layout Value Unit := emit {
  honest := if condition then some () else none
  allows := fun _ => True }

def Holds (cells : List Value) (assigned : Assigned Value) : Prop :=
  match assigned.cell with
  | .fixed constant => assigned.value = constant
  | .advice position => cells[position]? = some assigned.value

theorem Holds.append {cells : List Value} {assigned : Assigned Value}
    (holds : Holds cells assigned) (added : List Value) : Holds (cells ++ added) assigned := by
  unfold Holds at holds ⊢
  cases place : assigned.cell with
  | fixed constant =>
    rw [place] at holds
    exact holds
  | advice position =>
    rw [place] at holds
    dsimp only at holds ⊢
    rw [getElem?_append_left (List.getElem?_eq_some_iff.mp holds).1, holds]

section Readings

variable {program : Layout Value Result} {next : Result → Layout Value Next}
  {cells : List Value} {post : Result → List Value → Prop} {last : Next → List Value → Prop}

def Honest (program : Layout Value Result) (cells : List Value)
    (post : Result → List Value → Prop) : Prop :=
  ∃ result added, Satisfies (program cells) (result, cells ++ added) ∧
    post result (cells ++ added)

def Allowed (program : Layout Value Result) (cells : List Value)
    (post : Result → List Value → Prop) : Prop :=
  ∀ outcome, (program cells).allows outcome → ∃ added, outcome.2 = cells ++ added ∧
    post outcome.1 outcome.2

structure Exact (program : Layout Value Result) (cells : List Value)
    (post : Result → List Value → Prop) : Prop where
  honest : Honest program cells post
  allowed : Allowed program cells post

theorem Honest.bind (first : Honest program cells post)
    (continues : ∀ result added, post result (cells ++ added) →
      Honest (next result) (cells ++ added) last) : Honest (program >>= next) cells last := by
  rcases first with ⟨result, added, satisfies, holds⟩
  rcases continues result added holds with ⟨final, more, rest, lastHolds⟩
  rw [append_assoc] at rest lastHolds
  exact ⟨final, added ++ more, satisfies.bind rest, lastHolds⟩

theorem Allowed.bind (first : Allowed program cells post)
    (continues : ∀ result added, post result (cells ++ added) →
      Allowed (next result) (cells ++ added) last) : Allowed (program >>= next) cells last := by
  rintro final ⟨outcome, allowed, rest⟩
  rcases first outcome allowed with ⟨added, grown, holds⟩
  have later : (next outcome.1 (cells ++ added)).allows final := by
    rw [← grown]
    exact rest
  rw [grown] at holds
  rcases continues outcome.1 added holds final later with ⟨more, grownMore, lastHolds⟩
  exact ⟨added ++ more, by rw [grownMore, append_assoc], lastHolds⟩

theorem Exact.bind (first : Exact program cells post)
    (continues : ∀ result added, post result (cells ++ added) →
      Exact (next result) (cells ++ added) last) : Exact (program >>= next) cells last where
  honest := first.honest.bind fun result added holds => (continues result added holds).honest
  allowed := first.allowed.bind fun result added holds => (continues result added holds).allowed

variable {weaker : Result → List Value → Prop} {view : Result → Next}

theorem Honest.weaken (honest : Honest program cells post)
    (implies : ∀ result added, post result (cells ++ added) → weaker result (cells ++ added)) :
    Honest program cells weaker := by
  rcases honest with ⟨result, added, satisfies, holds⟩
  exact ⟨result, added, satisfies, implies result added holds⟩

theorem Allowed.weaken (allowed : Allowed program cells post)
    (implies : ∀ result added, post result (cells ++ added) → weaker result (cells ++ added)) :
    Allowed program cells weaker := by
  intro outcome accepted
  rcases allowed outcome accepted with ⟨added, grown, holds⟩
  refine ⟨added, grown, ?_⟩
  rw [grown] at holds ⊢
  exact implies outcome.1 added holds

variable {other : Result → List Value → Prop}

theorem Honest.and (honest : Honest program cells post) (allowed : Allowed program cells other) :
    Honest program cells fun result cells => post result cells ∧ other result cells := by
  rcases honest with ⟨result, added, satisfies, holds⟩
  rcases allowed (result, cells ++ added) satisfies.allowed with ⟨more, -, also⟩
  exact ⟨result, added, satisfies, holds, also⟩

theorem Allowed.and (first : Allowed program cells post) (second : Allowed program cells other) :
    Allowed program cells fun result cells => post result cells ∧ other result cells := by
  intro outcome accepted
  rcases first outcome accepted with ⟨added, grown, holds⟩
  rcases second outcome accepted with ⟨-, -, also⟩
  exact ⟨added, grown, holds, also⟩

theorem Exact.weaken (exact_ : Exact program cells post)
    (implies : ∀ result added, post result (cells ++ added) → weaker result (cells ++ added)) :
    Exact program cells weaker :=
  ⟨exact_.honest.weaken implies, exact_.allowed.weaken implies⟩

theorem exact_pure {result : Result} (holds : post result cells) :
    Exact (pure result : Layout Value Result) cells post where
  honest := ⟨result, [], by rw [append_nil]; exact satisfies_pure _,
    by rw [append_nil]; exact holds⟩
  allowed := by
    intro outcome allowed
    have same : outcome = (result, cells) := allowed
    rw [same]
    exact ⟨[], (append_nil cells).symm, holds⟩

theorem Exact.returning (first : Exact program cells post)
    (holds : ∀ result added, post result (cells ++ added) →
      last (view result) (cells ++ added)) :
    Exact (program >>= fun result => pure (view result)) cells last :=
  first.bind fun result added reached => exact_pure (holds result added reached)

theorem Honest.returning (first : Honest program cells post)
    (holds : ∀ result added, post result (cells ++ added) →
      last (view result) (cells ++ added)) :
    Honest (program >>= fun result => pure (view result)) cells last :=
  first.bind fun result added reached =>
    (@exact_pure _ _ _ _ (view result) (holds result added reached)).honest

theorem Allowed.returning (first : Allowed program cells post)
    (holds : ∀ result added, post result (cells ++ added) →
      last (view result) (cells ++ added)) :
    Allowed (program >>= fun result => pure (view result)) cells last :=
  first.bind fun result added reached =>
    (@exact_pure _ _ _ _ (view result) (holds result added reached)).allowed

variable {circuit : Circuit Value}

/-- A cell that was filled after these. -/
def Fresh (cells : List Value) (assigned : Assigned Value) : Prop :=
  ∃ position, cells.length ≤ position ∧ assigned.cell = .advice position

theorem Fresh.ne {assigned other : Assigned Value} (fresh : Fresh cells assigned)
    (holds : Holds cells other) : assigned.cell ≠ other.cell := by
  rcases fresh with ⟨position, later, cell⟩
  intro same
  unfold Holds at holds
  rw [← same, cell] at holds
  dsimp only at holds
  rw [getElem?_eq_none later] at holds
  cases holds

theorem allowed_fresh (circuit : Circuit Value) (added : List Value) :
    Allowed (fillCell circuit) (cells ++ added) fun assigned _ => Fresh cells assigned := by
  rintro outcome ⟨found, allowed, same⟩
  have result : outcome = ({ cell := .advice (cells ++ added).length, value := found },
    (cells ++ added) ++ [found]) := same
  rw [result]
  refine ⟨[found], rfl, (cells ++ added).length, ?_, rfl⟩
  rw [length_append]
  exact Nat.le_add_right _ _

theorem allowed_fill {circuit : Circuit Value} {range : Value → Prop}
    (ensures : Ensures circuit range) :
    Allowed (fillCell circuit) cells fun assigned cells =>
      range assigned.value ∧ Holds cells assigned := by
  rintro outcome ⟨found, allowed, same⟩
  have result : outcome = ({ cell := .advice cells.length, value := found }, cells ++ [found]) :=
    same
  rw [result]
  exact ⟨[found], rfl, ensures found allowed, getElem?_concat_length⟩

theorem honest_fill {value : Value} (satisfies : Satisfies circuit value) :
    Honest (fillCell circuit) cells fun assigned cells =>
      assigned.value = value ∧ Holds cells assigned := by
  refine ⟨{ cell := .advice cells.length, value := value }, [value], ?_, rfl, ?_⟩
  · exact satisfies.returning fun value =>
      (Assigned.mk (Cell.advice cells.length) value, cells ++ [value])
  · exact getElem?_concat_length

theorem exact_fill {value : Value} (computes : Computes circuit value) :
    Exact (fillCell circuit) cells fun assigned cells =>
      assigned.value = value ∧ Holds cells assigned where
  honest := honest_fill computes.satisfies
  allowed := allowed_fill computes.ensures

theorem exact_fill_cells {circuit : Circuit (List Value)} {values : List Value}
    (computes : Computes circuit values) :
    Exact (fillCells circuit) cells fun assigned cells =>
      Forall₂ (fun entry value => entry.value = value ∧ Holds cells entry) assigned values := by
  have placed : Forall₂ (fun entry value => entry.value = value ∧ Holds (cells ++ values) entry)
      (values.zipIdx.map fun entry => (Assigned.mk (Cell.advice (cells.length + entry.2)) entry.1))
      values := by
    rw [forall₂_iff_get]
    refine ⟨by rw [length_map, length_zipIdx], ?_⟩
    intro position inside _
    have inValues : position < values.length := by
      rw [length_map, length_zipIdx] at inside
      exact inside
    simp only [get_eq_getElem, getElem_map, getElem_zipIdx, Nat.zero_add]
    refine ⟨trivial, ?_⟩
    show (cells ++ values)[cells.length + position]? = some values[position]
    rw [getElem?_append_right (Nat.le_add_right _ _), Nat.add_sub_cancel_left,
      getElem?_eq_getElem inValues]
  constructor
  · refine ⟨_, values, ?_, placed⟩
    exact computes.satisfies.returning fun values =>
      (values.zipIdx.map fun entry =>
        Assigned.mk (Cell.advice (cells.length + entry.2)) entry.1, cells ++ values)
  · rintro outcome ⟨found, allowed, same⟩
    have result : outcome = (found.zipIdx.map fun entry =>
        Assigned.mk (Cell.advice (cells.length + entry.2)) entry.1, cells ++ found) := same
    rw [(computes.allows found).mp allowed] at result
    rw [result]
    exact ⟨values, rfl, placed⟩

theorem exact_constant (constant : Value) :
    Exact (constantCell constant) cells fun assigned cells =>
      assigned.value = constant ∧ Holds cells assigned :=
  exact_pure ⟨rfl, rfl⟩

theorem allowed_emit {circuit : Circuit Result} {fact : Result → Prop}
    (ensures : Ensures circuit fact) :
    Allowed (emit circuit : Layout Value Result) cells fun result _ => fact result := by
  rintro outcome ⟨found, allowed, same⟩
  have result : outcome = (found, cells) := same
  rw [result]
  exact ⟨[], (append_nil cells).symm, ensures found allowed⟩

theorem exact_emit {circuit : Circuit Result} {result : Result}
    (computes : Computes circuit result) :
    Exact (emit circuit : Layout Value Result) cells fun found _ => found = result where
  honest := by
    refine ⟨result, [], ?_, rfl⟩
    rw [append_nil]
    exact computes.satisfies.returning fun result => (result, cells)
  allowed := allowed_emit computes.ensures

theorem exact_prover_checks {condition : Bool} (holds : condition = true) :
    Exact (proverChecks condition : Layout Value Unit) cells fun _ _ => True := by
  have computes : Computes (Circuit.mk (if condition then some () else none) fun _ => True) () := by
    constructor
    · rw [if_pos holds]
    · intro result
      exact iff_of_true trivial rfl
  exact (exact_emit computes).weaken fun _ _ _ => trivial

theorem allowed_prover_checks (condition : Bool) :
    Allowed (proverChecks condition : Layout Value Unit) cells fun _ _ => True :=
  allowed_emit fun _ _ => trivial

end Readings

theorem forall₂_replicate {First Second : Type} {relation : First → Second → Prop} {first : First}
    {second : Second} (count : Nat) (related : relation first second) :
    Forall₂ relation (replicate count first) (replicate count second) := by
  induction count with
  | zero => exact Forall₂.nil
  | succ count ih => exact Forall₂.cons related ih

section Loops

variable {cells : List Value} {body : Input → Layout Value Result}

theorem exact_nil {post : Input → Result → List Value → Prop} :
    Exact (pure [] : Layout Value (List Result)) cells fun results cells =>
      Forall₂ (fun input result => post input result cells) [] results :=
  exact_pure Forall₂.nil

section Every

variable {post : Input → Result → List Value → Prop}
  (monotone : ∀ input result (cells added : List Value),
    post input result cells → post input result (cells ++ added))
  (inputs : List Input)

include monotone inputs

theorem allowed_loop
    (allowed : ∀ input ∈ inputs, ∀ added, Allowed (body input) (cells ++ added) (post input)) :
    Allowed (inputs.mapM body) cells fun results cells =>
      Forall₂ (fun input result => post input result cells) inputs results := by
  induction inputs generalizing cells with
  | nil =>
    rw [mapM_nil]
    exact exact_nil.allowed
  | cons input inputs ih =>
    rw [mapM_cons]
    have one := allowed input mem_cons_self []
    rw [append_nil] at one
    refine one.bind fun result added holds => ?_
    have rest := @ih (cells ++ added) fun other mem more => by
      rw [append_assoc]
      exact allowed other (mem_cons_of_mem _ mem) (added ++ more)
    exact rest.returning fun results more all =>
      Forall₂.cons (monotone input result _ more holds) all

theorem honest_loop
    (honest : ∀ input ∈ inputs, ∀ added, Honest (body input) (cells ++ added) (post input)) :
    Honest (inputs.mapM body) cells fun results cells =>
      Forall₂ (fun input result => post input result cells) inputs results := by
  induction inputs generalizing cells with
  | nil =>
    rw [mapM_nil]
    exact exact_nil.honest
  | cons input inputs ih =>
    rw [mapM_cons]
    have one := honest input mem_cons_self []
    rw [append_nil] at one
    refine one.bind fun result added holds => ?_
    have rest := @ih (cells ++ added) fun other mem more => by
      rw [append_assoc]
      exact honest other (mem_cons_of_mem _ mem) (added ++ more)
    exact rest.returning fun results more all =>
      Forall₂.cons (monotone input result _ more holds) all

theorem exact_loop
    (exact_ : ∀ input ∈ inputs, ∀ added, Exact (body input) (cells ++ added) (post input)) :
    Exact (inputs.mapM body) cells fun results cells =>
      Forall₂ (fun input result => post input result cells) inputs results where
  honest := honest_loop monotone inputs fun input mem added => (exact_ input mem added).honest
  allowed := allowed_loop monotone inputs fun input mem added =>
    (exact_ input mem added).allowed

end Every

theorem honest_each {check : Input → Layout Value Unit} (inputs : List Input)
    (honest : ∀ input ∈ inputs, ∀ added,
      Honest (check input) (cells ++ added) fun _ _ => True) :
    Honest (inputs.forM check) cells fun _ _ => True := by
  induction inputs generalizing cells with
  | nil =>
    have ended : Exact (pure () : Layout Value Unit) cells fun _ _ => True := exact_pure trivial
    exact ended.honest
  | cons input inputs ih =>
    have one := honest input mem_cons_self []
    rw [append_nil] at one
    refine one.bind fun _ added _ => ih fun other mem more => ?_
    rw [append_assoc]
    exact honest other (mem_cons_of_mem _ mem) (added ++ more)

theorem allowed_each {check : Input → Layout Value Unit} {fact : Input → Prop}
    (inputs : List Input)
    (allowed : ∀ input ∈ inputs, ∀ added,
      Allowed (check input) (cells ++ added) fun _ _ => fact input) :
    Allowed (inputs.forM check) cells fun _ _ => ∀ input ∈ inputs, fact input := by
  induction inputs generalizing cells with
  | nil =>
    have ended : Exact (pure () : Layout Value Unit) cells
        fun _ _ => ∀ input ∈ ([] : List Input), fact input :=
      exact_pure fun input mem => absurd mem not_mem_nil
    exact ended.allowed
  | cons input inputs ih =>
    have one := allowed input mem_cons_self []
    rw [append_nil] at one
    refine one.bind fun _ added holds => ?_
    have rest := @ih (cells ++ added) fun other mem more => by
      rw [append_assoc]
      exact allowed other (mem_cons_of_mem _ mem) (added ++ more)
    refine rest.weaken fun _ _ all other mem => ?_
    rcases mem_cons.mp mem with rfl | later
    · exact holds
    · exact all other later

/-- A fold whose state keeps an invariant that knows how many elements were read. -/
theorem exact_fold {step : Result → Input → Layout Value Result} {inputs : List Input}
    (invariant : List Input → Result → List Value → Prop) {start : Result}
    (holds : invariant [] start cells)
    (exact_ : ∀ before input after state added, inputs = before ++ input :: after →
      invariant before state (cells ++ added) →
        Exact (step state input) (cells ++ added) (invariant (before ++ [input]))) :
    Exact (inputs.foldlM step start) cells (invariant inputs) := by
  have run : ∀ after before state added, inputs = before ++ after →
      invariant before state (cells ++ added) →
        Exact (after.foldlM step state) (cells ++ added) (invariant inputs) := by
    intro after
    induction after with
    | nil =>
      intro before state added split reached
      rw [append_nil] at split
      rw [split]
      exact exact_pure reached
    | cons input after ih =>
      intro before state added split reached
      rw [foldlM_cons]
      refine (exact_ before input after state added split reached).bind fun next more onward => ?_
      have rest := ih (before ++ [input]) next (added ++ more)
        (by rw [split, append_assoc]; rfl) (by rw [← append_assoc]; exact onward)
      rwa [← append_assoc] at rest
  have whole := run inputs [] start [] rfl (by rw [append_nil]; exact holds)
  rwa [append_nil] at whole

end Loops

end Midfall.CellPrograms
