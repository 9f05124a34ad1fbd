import Mathlib

/-!
# Programs that emit constraints

A circuit program is read twice. The prover runs it with its own witnesses and
stops where a constraint fails or the program panics; the constraints allow
every result that some assignment of the free cells leads to. `Computes` says
that both readings agree on one value, `Ensures` what every allowed result
meets.
-/

namespace Midfall.CircuitPrograms

open List

/-- The prover's run and the results that the constraints allow. -/
@[ext]
structure Circuit (Value : Type) where
  honest : Option Value
  allows : Value → Prop

variable {Value Result Input : Type}

protected def Circuit.pure (value : Value) : Circuit Value where
  honest := some value
  allows := fun result => result = value

/-- One program after another, on the same assignment. -/
protected def Circuit.bind (first : Circuit Value) (next : Value → Circuit Result) :
    Circuit Result where
  honest := first.honest.bind fun value => (next value).honest
  allows := fun result => ∃ value, first.allows value ∧ (next value).allows result

instance : Monad Circuit where
  pure := Circuit.pure
  bind := Circuit.bind

theorem bind_pure_left (value : Value) (next : Value → Circuit Result) :
    pure value >>= next = next value := by
  apply Circuit.ext
  · rfl
  · funext result
    apply propext
    constructor
    · rintro ⟨other, same, allowed⟩
      cases same
      exact allowed
    · intro allowed
      exact ⟨value, rfl, allowed⟩

theorem map_id_circuit (circuit : Circuit Value) : id <$> circuit = circuit := by
  apply Circuit.ext
  · exact Option.bind_fun_some circuit.honest
  · funext result
    apply propext
    constructor
    · rintro ⟨value, allowed, same⟩
      cases same
      exact allowed
    · intro allowed
      exact ⟨result, allowed, rfl⟩

theorem bind_bind {Last : Type} (circuit : Circuit Value) (second : Value → Circuit Result)
    (third : Result → Circuit Last) :
    circuit >>= second >>= third = circuit >>= fun value => second value >>= third := by
  apply Circuit.ext
  · exact Option.bind_assoc circuit.honest _ _
  · funext result
    apply propext
    constructor
    · rintro ⟨middle, ⟨value, allowed, next⟩, last⟩
      exact ⟨value, allowed, middle, next, last⟩
    · rintro ⟨value, allowed, middle, next, last⟩
      exact ⟨middle, ⟨value, allowed, next⟩, last⟩

instance : LawfulMonad Circuit :=
  LawfulMonad.mk' Circuit map_id_circuit bind_pure_left bind_bind

/-- A fresh cell: the prover fills it with the hint, the constraints do not. -/
def assign (hint : Value) : Circuit Value where
  honest := some hint
  allows := fun _ => True

def constrain (holds : Prop) [Decidable holds] : Circuit Unit where
  honest := if holds then some () else none
  allows := fun _ => holds

/-- The program stops before the circuit is built. -/
def panic : Circuit Value where
  honest := none
  allows := fun _ => False

@[simp]
theorem pure_allows (value result : Value) :
    (pure value : Circuit Value).allows result ↔ result = value := Iff.rfl

@[simp]
theorem bind_allows (first : Circuit Value) (next : Value → Circuit Result) (result : Result) :
    (first >>= next).allows result ↔ ∃ value, first.allows value ∧ (next value).allows result :=
  Iff.rfl

@[simp]
theorem assign_allows (hint value : Value) : (assign hint).allows value := trivial

@[simp]
theorem constrain_allows (holds : Prop) [Decidable holds] (result : Unit) :
    (constrain holds).allows result ↔ holds := Iff.rfl

@[simp]
theorem panic_allows (result : Value) : ¬(panic : Circuit Value).allows result := id

/-- The prover gets this value and the constraints allow no other. -/
structure Computes (circuit : Circuit Value) (value : Value) : Prop where
  honest : circuit.honest = some value
  allows : ∀ result, circuit.allows result ↔ result = value

theorem computes_pure (value : Value) : Computes (pure value : Circuit Value) value where
  honest := rfl
  allows := fun _ => Iff.rfl

theorem Computes.bind {first : Circuit Value} {next : Value → Circuit Result} {value : Value}
    {result : Result} (firstComputes : Computes first value)
    (nextComputes : Computes (next value) result) : Computes (first >>= next) result where
  honest := by
    change first.honest.bind _ = some result
    rw [firstComputes.honest]
    exact nextComputes.honest
  allows := by
    intro other
    change (∃ value, first.allows value ∧ (next value).allows other) ↔ other = result
    constructor
    · rintro ⟨found, allowed, rest⟩
      rw [firstComputes.allows] at allowed
      subst allowed
      exact (nextComputes.allows other).mp rest
    · intro same
      exact ⟨value, (firstComputes.allows value).mpr rfl, (nextComputes.allows other).mpr same⟩

variable {first circuit : Circuit Value} {value : Value} {next : Value → Circuit Result}

theorem Computes.returning (firstComputes : Computes first value) (view : Value → Result) :
    Computes (first >>= fun value => pure (view value)) (view value) :=
  firstComputes.bind (computes_pure (view value))

theorem computes_witness {hint : Value} {result : Result} (computes : Computes (next hint) result)
    (forced : ∀ value other, (next value).allows other → other = result) :
    Computes (assign hint >>= next) result where
  honest := computes.honest
  allows := by
    intro other
    change (∃ value, True ∧ (next value).allows other) ↔ other = result
    constructor
    · rintro ⟨value, -, allowed⟩
      exact forced value other allowed
    · intro same
      exact ⟨hint, trivial, (computes.allows other).mpr same⟩

theorem computes_assign {hint : Value} {result : Result} (computes : Computes (next hint) result)
    (pinned : ∀ value other, (next value).allows other → value = hint) :
    Computes (assign hint >>= next) result := by
  apply computes_witness computes
  intro value other allowed
  have same := pinned value other allowed
  subst same
  exact (computes.allows other).mp allowed

theorem computes_constrain {holds : Prop} [Decidable holds] (fact : holds) :
    Computes (constrain holds) () where
  honest := if_pos fact
  allows := fun _ => iff_of_true fact rfl

theorem computes_loop {body : Input → Circuit Value} {value : Input → Value} (inputs : List Input)
    (computes : ∀ input ∈ inputs, Computes (body input) (value input)) :
    Computes (inputs.mapM body) (inputs.map value) := by
  induction inputs with
  | nil =>
    rw [mapM_nil]
    exact computes_pure []
  | cons input inputs ih =>
    rw [mapM_cons, map_cons]
    apply (computes input mem_cons_self).bind
    have rest := ih (forall_mem_cons.mp computes).2
    exact rest.bind (computes_pure _)

theorem computes_fold {step : Result → Input → Circuit Result} {value : Result → Input → Result}
    {invariant : Result → Prop} {valid : Input → Prop}
    (computes : ∀ state input, invariant state → valid input →
      Computes (step state input) (value state input) ∧ invariant (value state input))
    (inputs : List Input) (allValid : ∀ input ∈ inputs, valid input) {start : Result}
    (holds : invariant start) :
    Computes (inputs.foldlM step start) (inputs.foldl value start) := by
  induction inputs generalizing start with
  | nil => exact computes_pure start
  | cons input inputs ih =>
    rw [foldlM_cons, foldl_cons]
    have one := computes start input holds (allValid input mem_cons_self)
    exact one.1.bind (ih (forall_mem_cons.mp allValid).2 one.2)

theorem Computes.unique {first second : Value} (computesFirst : Computes circuit first)
    (computesSecond : Computes circuit second) :
    first = second :=
  Option.some.inj (computesFirst.honest.symm.trans computesSecond.honest)

/-- Every allowed result meets the postcondition. -/
def Ensures (circuit : Circuit Value) (post : Value → Prop) : Prop :=
  ∀ result, circuit.allows result → post result

theorem Computes.ensures (computes : Computes circuit value) :
    Ensures circuit fun result => result = value :=
  fun result allowed => (computes.allows result).mp allowed

/-- The prover gets this value and the constraints allow it, perhaps among others. -/
structure Satisfies (circuit : Circuit Value) (value : Value) : Prop where
  honest : circuit.honest = some value
  allowed : circuit.allows value

theorem satisfies_assign (hint : Value) : Satisfies (assign hint) hint where
  honest := rfl
  allowed := trivial

theorem satisfies_pure (value : Value) : Satisfies (pure value : Circuit Value) value where
  honest := rfl
  allowed := rfl

theorem Computes.satisfies (computes : Computes circuit value) : Satisfies circuit value where
  honest := computes.honest
  allowed := (computes.allows value).mpr rfl

theorem Satisfies.bind {first : Circuit Value} {next : Value → Circuit Result} {value : Value}
    {result : Result} (firstSatisfies : Satisfies first value)
    (nextSatisfies : Satisfies (next value) result) : Satisfies (first >>= next) result where
  honest := by
    change first.honest.bind _ = some result
    rw [firstSatisfies.honest]
    exact nextSatisfies.honest
  allowed := ⟨value, firstSatisfies.allowed, nextSatisfies.allowed⟩

theorem Satisfies.returning (firstSatisfies : Satisfies first value) (view : Value → Result) :
    Satisfies (first >>= fun value => pure (view value)) (view value) :=
  firstSatisfies.bind (satisfies_pure (view value))

theorem Satisfies.computes (satisfies : Satisfies circuit value)
    (ensures : Ensures circuit fun result => result = value) :
    Computes circuit value where
  honest := satisfies.honest
  allows := by
    intro result
    constructor
    · exact ensures result
    · intro same
      rw [same]
      exact satisfies.allowed

theorem satisfies_loop {body : Input → Circuit Value} {value : Input → Value}
    (inputs : List Input) (satisfies : ∀ input ∈ inputs, Satisfies (body input) (value input)) :
    Satisfies (inputs.mapM body) (inputs.map value) := by
  induction inputs with
  | nil =>
    rw [mapM_nil]
    exact satisfies_pure []
  | cons input inputs ih =>
    rw [mapM_cons, map_cons]
    apply (satisfies input mem_cons_self).bind
    have rest := ih (forall_mem_cons.mp satisfies).2
    exact rest.bind (satisfies_pure _)

theorem loop_allows {body : Input → Circuit Value} (inputs : List Input) (results : List Value) :
    (inputs.mapM body).allows results ↔
      Forall₂ (fun input result => (body input).allows result) inputs results := by
  induction inputs generalizing results with
  | nil =>
    rw [mapM_nil, pure_allows, forall₂_nil_left_iff]
  | cons input inputs ih =>
    rw [mapM_cons]
    simp only [bind_allows, pure_allows, ih]
    constructor
    · rintro ⟨result, first, rest, later, rfl⟩
      exact Forall₂.cons first later
    · intro all
      cases all with
      | cons first later => exact ⟨_, first, _, later, rfl⟩

theorem ensures_loop {body : Input → Circuit Value} {post : Value → Prop} (inputs : List Input)
    (ensures : ∀ input ∈ inputs, Ensures (body input) post) :
    Ensures (inputs.mapM body) fun results =>
      results.length = inputs.length ∧ ∀ result ∈ results, post result := by
  intro results allowed
  rw [loop_allows] at allowed
  refine ⟨allowed.length_eq.symm, ?_⟩
  induction allowed with
  | nil => simp
  | cons first _ ih =>
    intro result mem
    rcases mem_cons.mp mem with rfl | later
    · exact ensures _ mem_cons_self result first
    · exact ih (fun input inLater => ensures input (mem_cons_of_mem _ inLater))
        result later

theorem stops_later (stops : ∀ value, (next value).honest = none) :
    (first >>= next).honest = none := by
  change first.honest.bind (fun value => (next value).honest) = none
  simp only [stops, Option.bind_fun_none]

theorem stops_first (stops : first.honest = none) : (first >>= next).honest = none := by
  change first.honest.bind _ = none
  rw [stops]
  rfl

end Midfall.CircuitPrograms
