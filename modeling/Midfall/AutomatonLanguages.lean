import Mathlib

/-!
# Languages of automata

The words that an automaton accepts from one state, and what happens to them
when automata are compared by a relation of states, plugged together, or closed
into a loop: by copying the first transitions of the next automaton to the
accepting states, or by redirecting transitions to its initial state.
-/

namespace Midfall.AutomatonLanguages

open Computability List

variable {Label State Other : Type}

section From

variable (M : NFA Label State)

def acceptsAt (state : State) : Language Label := M.acceptsFrom {state}

variable {M}

variable {state : State}

theorem nil_accepted : [] ∈ acceptsAt M state ↔ state ∈ M.accept := by
  unfold acceptsAt
  rw [NFA.nil_mem_acceptsFrom]
  constructor
  · rintro ⟨other, single, accepting⟩
    rw [Set.mem_singleton_iff.mp single] at accepting
    exact accepting
  · exact fun accepting => ⟨state, Set.mem_singleton state, accepting⟩

theorem mem_accepts_from {states : Set State} {word : List Label} :
    word ∈ M.acceptsFrom states ↔ ∃ state ∈ states, word ∈ acceptsAt M state := by
  unfold acceptsAt
  rw [NFA.mem_acceptsFrom]
  simp only [NFA.mem_acceptsFrom]
  constructor
  · rintro ⟨last, accepting, reached⟩
    rcases NFA.mem_evalFrom_iff_exists.mp reached with ⟨state, inside, reaches⟩
    exact ⟨state, inside, last, accepting, reaches⟩
  · rintro ⟨state, inside, last, accepting, reaches⟩
    exact ⟨last, accepting, NFA.mem_evalFrom_iff_exists.mpr ⟨state, inside, reaches⟩⟩

theorem cons_accepted {label : Label} {word : List Label} :
    label :: word ∈ acceptsAt M state ↔ ∃ target ∈ M.step state label, word ∈ acceptsAt M target := by
  unfold acceptsAt
  rw [NFA.cons_mem_acceptsFrom, NFA.stepSet_singleton]
  exact mem_accepts_from

theorem stuck_rejects (stuck : ∀ label, M.step state label = ∅) {word : List Label}
    (accepted : word ∈ acceptsAt M state) : word = [] := by
  cases word with
  | nil => rfl
  | cons label word =>
    rcases cons_accepted.mp accepted with ⟨target, inside, -⟩
    rw [stuck label] at inside
    exact absurd inside (Set.notMem_empty target)

theorem stuck_language (stuck : ∀ label, M.step state label = ∅) (accepting : state ∈ M.accept) :
    acceptsAt M state = 1 := by
  apply Language.ext
  intro word
  rw [Language.mem_one]
  exact ⟨stuck_rejects stuck, fun none => none ▸ nil_accepted.mpr accepting⟩

theorem nil_product {next : Language Label} :
    [] ∈ acceptsAt M state * next ↔ state ∈ M.accept ∧ [] ∈ next := by
  rw [Language.mem_mul, ← nil_accepted]
  constructor
  · rintro ⟨first, firstIn, second, secondIn, joined⟩
    rcases append_eq_nil_iff.mp joined with ⟨rfl, rfl⟩
    exact ⟨firstIn, secondIn⟩
  · exact fun both => ⟨[], both.1, [], both.2, rfl⟩

theorem cons_product {next : Language Label} {label : Label} {word : List Label} :
    label :: word ∈ acceptsAt M state * next ↔
      (∃ target ∈ M.step state label, word ∈ acceptsAt M target * next) ∨
        (state ∈ M.accept ∧ label :: word ∈ next) := by
  rw [Language.mem_mul]
  constructor
  · rintro ⟨before, beforeIn, after, afterIn, joined⟩
    cases before with
    | nil => exact Or.inr ⟨nil_accepted.mp beforeIn, joined ▸ afterIn⟩
    | cons other before =>
      rw [cons_append, List.cons.injEq] at joined
      rcases joined with ⟨rfl, rfl⟩
      rcases cons_accepted.mp beforeIn with ⟨target, step, rest⟩
      exact Or.inl ⟨target, step, Language.append_mem_mul rest afterIn⟩
  · rintro (⟨target, step, mem⟩ | ⟨accepting, mem⟩)
    · rcases Language.mem_mul.mp mem with ⟨before, beforeIn, after, afterIn, rfl⟩
      exact ⟨label :: before, cons_accepted.mpr ⟨target, step, beforeIn⟩, after, afterIn, rfl⟩
    · exact ⟨[], nil_accepted.mpr accepting, _, mem, rfl⟩

end From

section Simulations

variable {M : NFA Label State} {N : NFA Label Other}

/-- Related states follow each other on the transitions from which a word is accepted. -/
structure Simulates (M : NFA Label State) (N : NFA Label Other) (related : State → Other → Prop) :
    Prop where
  accept : ∀ state other, related state other → state ∈ M.accept → other ∈ N.accept
  step : ∀ state other, related state other → ∀ label, ∀ target ∈ M.step state label,
    (∃ word, word ∈ acceptsAt M target) → ∃ image ∈ N.step other label, related target image

theorem Simulates.le {related : State → Other → Prop} (simulates : Simulates M N related)
    {state : State} {other : Other} (relates : related state other) {word : List Label}
    (accepted : word ∈ acceptsAt M state) : word ∈ acceptsAt N other := by
  induction word generalizing state other with
  | nil => exact nil_accepted.mpr (simulates.accept state other relates (nil_accepted.mp accepted))
  | cons label word ih =>
    rcases cons_accepted.mp accepted with ⟨target, inside, rest⟩
    rcases simulates.step state other relates label target inside ⟨word, rest⟩ with
      ⟨image, imageIn, targetRelates⟩
    exact cons_accepted.mpr ⟨image, imageIn, ih targetRelates rest⟩

theorem languages_agree {related : State → Other → Prop} (forth : Simulates M N related)
    (back : Simulates N M fun other state => related state other) {state : State} {other : Other}
    (relates : related state other) : acceptsAt M state = acceptsAt N other := by
  apply Language.ext
  intro word
  exact ⟨forth.le relates, back.le relates⟩

end Simulations

section Concatenation

variable {M : NFA Label State} {N : NFA Label Other} {embed : State → Other} {next : Other}

/-- The transitions of the next state are copied to the accepting states. -/
structure Copied (M : NFA Label State) (N : NFA Label Other) (embed : State → Other)
    (next : Other) : Prop where
  accept : ∀ state, embed state ∈ N.accept ↔ state ∈ M.accept ∧ next ∈ N.accept
  step : ∀ state label other, other ∈ N.step (embed state) label ↔
    (∃ target ∈ M.step state label, embed target = other) ∨
      (state ∈ M.accept ∧ other ∈ N.step next label)

theorem Copied.language (copied : Copied M N embed next) (state : State) :
    acceptsAt N (embed state) = acceptsAt M state * acceptsAt N next := by
  apply Language.ext
  intro word
  induction word generalizing state with
  | nil => rw [nil_accepted, copied.accept, nil_product, nil_accepted]
  | cons label word ih =>
    rw [cons_accepted, cons_product]
    constructor
    · rintro ⟨other, inside, rest⟩
      rcases (copied.step state label other).mp inside with ⟨target, step, rfl⟩ | ⟨accepting, first⟩
      · exact Or.inl ⟨target, step, (ih target).mp rest⟩
      · exact Or.inr ⟨accepting, cons_accepted.mpr ⟨other, first, rest⟩⟩
    · rintro (⟨target, step, mem⟩ | ⟨accepting, mem⟩)
      · exact ⟨embed target, (copied.step state label _).mpr (Or.inl ⟨target, step, rfl⟩),
          (ih target).mpr mem⟩
      · rcases cons_accepted.mp mem with ⟨other, first, rest⟩
        exact ⟨other, (copied.step state label other).mpr (Or.inr ⟨accepting, first⟩), rest⟩

/-- Transitions to accepting states, which lead nowhere, go to the next state. -/
structure Redirected (M : NFA Label State) (N : NFA Label Other) (embed : State → Other)
    (next : Other) : Prop where
  ending : ∀ state ∈ M.accept, ∀ label, M.step state label = ∅
  accept : ∀ state, embed state ∉ N.accept
  step : ∀ state label other, other ∈ N.step (embed state) label ↔
    ∃ target ∈ M.step state label,
      (target ∉ M.accept ∧ embed target = other) ∨ (target ∈ M.accept ∧ next = other)

theorem Redirected.accepting_rejects (redirected : Redirected M N embed next) {state : State}
    (accepting : state ∈ M.accept) : acceptsAt N (embed state) = 0 := by
  apply Language.ext
  intro word
  refine iff_of_false (fun accepted => ?_) (Language.notMem_zero word)
  have stuck : ∀ label, N.step (embed state) label = ∅ := by
    intro label
    apply Set.eq_empty_of_forall_notMem
    intro other inside
    rcases (redirected.step state label other).mp inside with ⟨target, step, -⟩
    rw [redirected.ending state accepting label] at step
    exact step
  rw [stuck_rejects stuck accepted] at accepted
  exact redirected.accept state (nil_accepted.mp accepted)

theorem Redirected.language (redirected : Redirected M N embed next) {state : State}
    (rejecting : state ∉ M.accept) :
    acceptsAt N (embed state) = acceptsAt M state * acceptsAt N next := by
  apply Language.ext
  intro word
  induction word generalizing state with
  | nil =>
    rw [nil_accepted, nil_product]
    exact iff_of_false (redirected.accept state) fun both => rejecting both.1
  | cons label word ih =>
    rw [cons_accepted, cons_product, or_iff_left fun both => rejecting both.1]
    constructor
    · rintro ⟨other, inside, rest⟩
      rcases (redirected.step state label other).mp inside with
        ⟨target, step, ⟨onward, rfl⟩ | ⟨accepting, rfl⟩⟩
      · exact ⟨target, step, (ih onward).mp rest⟩
      · refine ⟨target, step, ?_⟩
        rwa [stuck_language (redirected.ending target accepting) accepting, one_mul]
    · rintro ⟨target, step, mem⟩
      by_cases accepting : target ∈ M.accept
      · rw [stuck_language (redirected.ending target accepting) accepting, one_mul] at mem
        exact ⟨next, (redirected.step state label next).mpr
          ⟨target, step, Or.inr ⟨accepting, rfl⟩⟩, mem⟩
      · exact ⟨embed target, (redirected.step state label _).mpr
          ⟨target, step, Or.inl ⟨accepting, rfl⟩⟩, (ih accepting).mpr mem⟩

end Concatenation

section Iteration

variable {M N : NFA Label State} {initial : State}

/-- The transitions of the initial state are copied to the accepting states. -/
structure Looped (M N : NFA Label State) (initial : State) : Prop where
  accept : N.accept = M.accept
  step : ∀ state label target, target ∈ N.step state label ↔
    target ∈ M.step state label ∨ (state ∈ M.accept ∧ target ∈ M.step initial label)

theorem Looped.continues (looped : Looped M N initial) {state : State} {before after : List Label}
    (first : before ∈ acceptsAt M state) (then_ : after = [] ∨ after ∈ acceptsAt N initial) :
    before ++ after ∈ acceptsAt N state := by
  induction before generalizing state with
  | nil =>
    have accepting := nil_accepted.mp first
    rw [nil_append]
    rcases then_ with rfl | again
    · rw [nil_accepted, looped.accept]
      exact accepting
    · cases after with
      | nil =>
        rw [nil_accepted, looped.accept]
        exact accepting
      | cons label after =>
        rcases cons_accepted.mp again with ⟨target, step, rest⟩
        have fromInitial : target ∈ M.step initial label := by
          rcases (looped.step initial label target).mp step with direct | ⟨-, direct⟩
          · exact direct
          · exact direct
        exact cons_accepted.mpr ⟨target,
          (looped.step state label target).mpr (Or.inr ⟨accepting, fromInitial⟩), rest⟩
  | cons label before ih =>
    rcases cons_accepted.mp first with ⟨target, step, rest⟩
    exact cons_accepted.mpr ⟨target, (looped.step state label target).mpr (Or.inl step),
      ih rest⟩

theorem Looped.language (looped : Looped M N initial) (state : State) :
    acceptsAt N state = acceptsAt M state * (acceptsAt M initial)∗ := by
  apply Language.ext
  intro word
  constructor
  · intro accepted
    induction word generalizing state with
    | nil =>
      rw [nil_accepted, looped.accept] at accepted
      exact Language.append_mem_mul (nil_accepted.mpr accepted) (Language.nil_mem_kstar _)
    | cons label word ih =>
      rcases cons_accepted.mp accepted with ⟨target, step, rest⟩
      rcases Language.mem_mul.mp (ih target rest) with ⟨before, beforeIn, after, afterIn, rfl⟩
      rcases (looped.step state label target).mp step with direct | ⟨accepting, restart⟩
      · exact Language.mem_mul.mpr ⟨label :: before, cons_accepted.mpr ⟨target, direct, beforeIn⟩,
          after, afterIn, rfl⟩
      · have again : label :: before ∈ acceptsAt M initial :=
          cons_accepted.mpr ⟨target, restart, beforeIn⟩
        have loop : (label :: before) ++ after ∈ (acceptsAt M initial)∗ := by
          rw [← Language.one_add_self_mul_kstar_eq_kstar]
          exact Or.inr (Language.append_mem_mul again afterIn)
        exact Language.mem_mul.mpr ⟨[], nil_accepted.mpr accepting, _, loop, rfl⟩
  · intro mem
    rcases Language.mem_mul.mp mem with ⟨before, beforeIn, after, afterIn, rfl⟩
    apply looped.continues beforeIn
    rcases Language.mem_kstar.mp afterIn with ⟨words, rfl, each⟩
    clear mem afterIn
    induction words with
    | nil => exact Or.inl rfl
    | cons first words ih =>
      right
      exact looped.continues (each first mem_cons_self)
        (ih fun other inside => each other (mem_cons_of_mem _ inside))

/-- Transitions to accepting states, which lead nowhere, go back to the initial state,
which alone accepts. -/
structure Closed (M N : NFA Label State) (initial : State) : Prop where
  ending : ∀ state ∈ M.accept, ∀ label, M.step state label = ∅
  entered : ∀ state label, initial ∉ M.step state label
  rejecting : initial ∉ M.accept
  accept : N.accept = {initial}
  step : ∀ state label other, other ∈ N.step state label ↔
    ∃ target ∈ M.step state label,
      (target ∉ M.accept ∧ target = other) ∨ (target ∈ M.accept ∧ initial = other)

theorem Closed.splits (closed : Closed M N initial) {state : State} (rejecting : state ∉ M.accept)
    {word : List Label} (some_ : word ≠ []) :
    word ∈ acceptsAt N state ↔ word ∈ acceptsAt M state * acceptsAt N initial := by
  induction word generalizing state with
  | nil => exact absurd rfl some_
  | cons label word ih =>
    rw [cons_accepted, cons_product, or_iff_left fun both => rejecting both.1]
    constructor
    · rintro ⟨other, inside, rest⟩
      rcases (closed.step state label other).mp inside with
        ⟨target, step, ⟨onward, rfl⟩ | ⟨accepting, rfl⟩⟩
      · have more : word ≠ [] := by
          rintro rfl
          have accepts := nil_accepted.mp rest
          rw [closed.accept, Set.mem_singleton_iff] at accepts
          rw [accepts] at step
          exact closed.entered state label step
        exact ⟨target, step, (ih onward more).mp rest⟩
      · refine ⟨target, step, ?_⟩
        rwa [stuck_language (closed.ending target accepting) accepting, one_mul]
    · rintro ⟨target, step, mem⟩
      by_cases accepting : target ∈ M.accept
      · rw [stuck_language (closed.ending target accepting) accepting, one_mul] at mem
        exact ⟨initial, (closed.step state label initial).mpr
          ⟨target, step, Or.inr ⟨accepting, rfl⟩⟩, mem⟩
      · have more : word ≠ [] := by
          rintro rfl
          exact accepting (nil_product.mp mem).1
        exact ⟨target, (closed.step state label target).mpr
          ⟨target, step, Or.inl ⟨accepting, rfl⟩⟩, (ih accepting more).mpr mem⟩

theorem Closed.language (closed : Closed M N initial) :
    acceptsAt N initial = (acceptsAt M initial)∗ := by
  have proper : [] ∉ acceptsAt M initial := fun accepts => closed.rejecting (nil_accepted.mp accepts)
  have unfolds : acceptsAt N initial = acceptsAt M initial * acceptsAt N initial + 1 := by
    apply Language.ext
    intro word
    rw [Language.mem_add, Language.mem_one]
    by_cases none : word = []
    · subst none
      refine iff_of_true (nil_accepted.mpr ?_) (Or.inr rfl)
      rw [closed.accept]
      exact Set.mem_singleton initial
    · rw [closed.splits closed.rejecting none]
      exact ⟨Or.inl, fun either => either.resolve_right none⟩
  rw [Language.self_eq_mul_add_iff proper, mul_one] at unfolds
  exact unfolds

theorem fresh_language {fresh : State} (accept : fresh ∈ N.accept)
    (step : ∀ label, N.step fresh label = M.step initial label)
    (kept : ∀ state label, state ∈ M.step initial label → acceptsAt N state = acceptsAt M state) :
    acceptsAt N fresh = 1 + acceptsAt M initial := by
  apply Language.ext
  intro word
  rw [Language.mem_add, Language.mem_one]
  cases word with
  | nil => exact iff_of_true (nil_accepted.mpr accept) (Or.inl rfl)
  | cons label word =>
    rw [cons_accepted, cons_accepted, step label]
    constructor
    · rintro ⟨target, inside, rest⟩
      rw [kept target label inside] at rest
      exact Or.inr ⟨target, inside, rest⟩
    · rintro (none | ⟨target, inside, rest⟩)
      · cases none
      · rw [← kept target label inside] at rest
        exact ⟨target, inside, rest⟩

end Iteration

end Midfall.AutomatonLanguages
