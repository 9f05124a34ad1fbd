import Midfall.PlonkConstraintSystem
import Midfall.ScalarField
import Midfall.VerifierData

/-!
# Yul lines

The assignments of a generated Yul block. A right-hand side is kept as the tree
of its text. A line can be run when what it reads was assigned before; where
every variable is assigned once, the variables satisfy their lines in the end.
-/

namespace Midfall.YulLines

open List

open PlonkConstraintSystem (QueryKey)
open ScalarField (scalarModulus addmod mulmod)
open VerifierData (Word)

inductive ColumnKind where
  | fixed
  | advice
  | instances
  deriving DecidableEq, Repr

/-- `var0`, a column at a rotation, or a challenge. -/
inductive Name where
  | var (count : Nat)
  | column (kind : ColumnKind) (query : QueryKey)
  | challenge (index : Nat)
  deriving DecidableEq, Repr

/-- Sums and products are reduced, and what is subtracted is subtracted from the modulus. -/
inductive YulValue where
  | name (name : Name)
  | literal (value : Nat)
  | load (word : Word)
  | sub (value : YulValue)
  | addmod (lhs rhs : YulValue)
  | mulmod (lhs rhs : YulValue)
  | pow5 (x : YulValue)
  deriving DecidableEq, Repr

/-- The functions of seven limbs. -/
inductive LimbHelper where
  | limb7
  | limb7Wide
  deriving DecidableEq, Repr

/-- `let name := value`, or a call of one of the functions. -/
inductive Line where
  | assign (name : Name) (value : YulValue)
  | call (name : Name) (helper : LimbHelper) (x0 : YulValue) (limbs : List YulValue)
  deriving DecidableEq, Repr

def LimbHelper.coeffs : LimbHelper → List Nat
  | limb7 => [
      0x100000000000000,
      0x10000000000000000000000000000,
      0x400000000,
      0x40000000000000000000000,
      0x1000,
      0x100000000000000000]
  | limb7Wide => [
      0x100000000000000,
      0x10000000000000000000000000000,
      0x1000000000000000000000000000000000000000000,
      0x100000000000000000000000000000000000000000000000000000000,
      0x6bc66e553973f396854f5626172ba135587d41e37a68209402355093fdcaaf6c,
      0x63f31e3f446953960c9d6964474300df43ab29179970f642a28e39d6c883c74b]

def Line.name : Line → Name
  | assign name _ => name
  | call name _ _ _ => name

def wordSize : Nat := 2 ^ 256

def subFromModulus (x : Nat) : Nat := (wordSize + scalarModulus - x) % wordSize

/-- `q_pow5`. -/
def qPow5 (x : Nat) : Nat :=
  let x2 := mulmod x x
  mulmod x (mulmod x2 x2)

/-- `q_limb7` and `q_limb7_wide`. -/
def qLimb7 (coeffs : List Nat) (x0 : Nat) (limbs : List Nat) : Nat :=
  (coeffs.zip limbs).foldl (fun z term => addmod z (mulmod term.1 term.2)) x0

abbrev Env := Name → Option Nat

def YulValue.eval (memory : Word → Nat) (env : Env) : YulValue → Option Nat
  | name read => env read
  | literal value => some value
  | load word => some (memory word)
  | sub value => (value.eval memory env).map subFromModulus
  | addmod lhs rhs => Option.map₂ ScalarField.addmod (lhs.eval memory env) (rhs.eval memory env)
  | mulmod lhs rhs => Option.map₂ ScalarField.mulmod (lhs.eval memory env) (rhs.eval memory env)
  | pow5 x => (x.eval memory env).map qPow5

def evalAll (memory : Word → Nat) (env : Env) : List YulValue → Option (List Nat)
  | [] => some []
  | value :: values => Option.map₂ List.cons (value.eval memory env) (evalAll memory env values)

def Line.eval (memory : Word → Nat) (env : Env) : Line → Option Nat
  | assign _ value => value.eval memory env
  | call _ helper x0 limbs => Option.map₂ (qLimb7 helper.coeffs) (x0.eval memory env) (evalAll memory env limbs)

/-- A variable that is not assigned cannot be read. -/
def run (memory : Word → Nat) : List Line → Env → Option Env
  | [], env => some env
  | line :: lines, env =>
    (line.eval memory env).bind fun value =>
      run memory lines (Function.update env line.name (some value))

def YulValue.names : YulValue → List Name
  | name read => [read]
  | literal _ => []
  | load _ => []
  | sub value => value.names
  | addmod lhs rhs => lhs.names ++ rhs.names
  | mulmod lhs rhs => lhs.names ++ rhs.names
  | pow5 x => x.names

def Line.names : Line → List Name
  | assign _ value => value.names
  | call _ _ x0 limbs => x0.names ++ limbs.flatMap YulValue.names

section Values

variable {memory : Word → Nat} {env other : Env}

theorem map_two_some {first second : Option Nat} {Item : Type} {f : Nat → Nat → Item} :
    (Option.map₂ f first second).isSome = true ↔ first.isSome = true ∧ second.isSome = true := by
  cases first with
  | none => exact iff_of_false nofun nofun
  | some x =>
    cases second with
    | none => exact iff_of_false nofun nofun
    | some y => exact iff_of_true rfl ⟨rfl, rfl⟩

theorem eval_defined {value : YulValue} :
    (value.eval memory env).isSome = true ↔ ∀ name ∈ value.names, (env name).isSome = true := by
  induction value with
  | name name =>
    rw [YulValue.eval, YulValue.names, forall_mem_singleton]
  | literal value => exact iff_of_true rfl fun _ absent => absurd absent not_mem_nil
  | load word => exact iff_of_true rfl fun _ absent => absurd absent not_mem_nil
  | sub value ih =>
    rw [YulValue.eval, YulValue.names, Option.isSome_map, ih]
  | addmod lhs rhs left right =>
    rw [YulValue.eval, YulValue.names, map_two_some, forall_mem_append, left, right]
  | mulmod lhs rhs left right =>
    rw [YulValue.eval, YulValue.names, map_two_some, forall_mem_append, left, right]
  | pow5 x ih =>
    rw [YulValue.eval, YulValue.names, Option.isSome_map, ih]

theorem eval_all_defined {values : List YulValue} : (evalAll memory env values).isSome = true ↔
    ∀ name ∈ values.flatMap YulValue.names, (env name).isSome = true := by
  induction values with
  | nil => exact iff_of_true rfl fun _ absent => absurd absent not_mem_nil
  | cons value values ih =>
    rw [flatMap_cons, forall_mem_append, ← ih, ← @eval_defined memory, evalAll]
    cases value.eval memory env with
    | none => exact iff_of_false nofun fun both => nomatch both.1
    | some x =>
      cases evalAll memory env values with
      | none => exact iff_of_false nofun fun both => nomatch both.2
      | some rest => exact iff_of_true rfl ⟨rfl, rfl⟩

theorem Line.eval_defined {line : Line} :
    (line.eval memory env).isSome = true ↔ ∀ name ∈ line.names, (env name).isSome = true := by
  cases line with
  | assign name value => exact YulLines.eval_defined
  | call name helper x0 limbs =>
    rw [Line.names, forall_mem_append, ← @eval_all_defined memory, ← @YulLines.eval_defined memory, Line.eval]
    cases x0.eval memory env with
    | none => exact iff_of_false nofun fun both => nomatch both.1
    | some x =>
      cases evalAll memory env limbs with
      | none => exact iff_of_false nofun fun both => nomatch both.2
      | some rest => exact iff_of_true rfl ⟨rfl, rfl⟩

theorem eval_agrees {value : YulValue} (agree : ∀ name ∈ value.names, env name = other name) :
    value.eval memory env = value.eval memory other := by
  induction value with
  | name name => exact agree name (mem_singleton_self name)
  | literal value => rfl
  | load word => rfl
  | sub value ih => rw [YulValue.eval, YulValue.eval, ih agree]
  | addmod lhs rhs left right =>
    rw [YulValue.names, forall_mem_append] at agree
    rw [YulValue.eval, YulValue.eval, left agree.1, right agree.2]
  | mulmod lhs rhs left right =>
    rw [YulValue.names, forall_mem_append] at agree
    rw [YulValue.eval, YulValue.eval, left agree.1, right agree.2]
  | pow5 x ih => rw [YulValue.eval, YulValue.eval, ih agree]

theorem eval_all_agrees {values : List YulValue}
    (agree : ∀ name ∈ values.flatMap YulValue.names, env name = other name) :
    evalAll memory env values = evalAll memory other values := by
  induction values with
  | nil => rfl
  | cons value values ih =>
    rw [flatMap_cons, forall_mem_append] at agree
    rw [evalAll, evalAll, eval_agrees agree.1, ih agree.2]

theorem Line.eval_agrees {line : Line} (agree : ∀ name ∈ line.names, env name = other name) :
    line.eval memory env = line.eval memory other := by
  cases line with
  | assign name value => exact YulLines.eval_agrees agree
  | call name helper x0 limbs =>
    rw [Line.names, forall_mem_append] at agree
    rw [Line.eval, Line.eval, YulLines.eval_agrees agree.1, eval_all_agrees agree.2]

end Values

def Closed (defined : List Name) : List Line → Prop
  | [] => True
  | line :: lines => (∀ name ∈ line.names, name ∈ defined) ∧ Closed (line.name :: defined) lines

def Domain (env : Env) (defined : List Name) : Prop := ∀ name, (env name).isSome = true ↔ name ∈ defined

def noVariables : Env := fun _ => none

theorem domain_none : Domain noVariables [] := fun _ => iff_of_false nofun not_mem_nil

theorem Domain.update {env : Env} {defined : List Name} (domain : Domain env defined) (name : Name)
    (value : Nat) : Domain (Function.update env name (some value)) (name :: defined) := by
  intro other
  rw [mem_cons, ← domain other]
  by_cases same : other = name
  · rw [same, Function.update_self]
    exact iff_of_true rfl (Or.inl rfl)
  · rw [Function.update_of_ne same, or_iff_right same]

section Runs

variable {memory : Word → Nat} {defined : List Name} {env : Env} {lines : List Line}

theorem closed_append {others : List Line} : Closed defined (lines ++ others) ↔
    Closed defined lines ∧ Closed ((lines.map Line.name).reverse ++ defined) others := by
  induction lines generalizing defined with
  | nil => exact (and_iff_right trivial).symm
  | cons line lines ih =>
    rw [cons_append, Closed, Closed, ih, and_assoc, map_cons, reverse_cons,
      append_assoc, singleton_append]

theorem Closed.reads (closed : Closed defined lines) : ∀ line ∈ lines, ∀ name ∈ line.names,
    name ∈ defined ∨ name ∈ lines.map Line.name := by
  induction lines generalizing defined with
  | nil => exact fun _ absent => absurd absent not_mem_nil
  | cons first lines ih =>
    rw [forall_mem_cons]
    refine ⟨fun name mem => Or.inl (closed.1 name mem), fun line lineIn name mem => ?_⟩
    rcases ih closed.2 line lineIn name mem with before | after
    · rcases mem_cons.mp before with rfl | given
      · exact Or.inr mem_cons_self
      · exact Or.inl given
    · exact Or.inr (mem_cons_of_mem _ after)

theorem run_closed (domain : Domain env defined) :
    (∃ after, run memory lines env = some after) ↔ Closed defined lines := by
  induction lines generalizing defined env with
  | nil => exact iff_of_true ⟨env, rfl⟩ trivial
  | cons line lines ih =>
    have readable : (line.eval memory env).isSome = true ↔ ∀ name ∈ line.names, name ∈ defined := by
      rw [Line.eval_defined]
      exact forall₂_congr fun name _ => domain name
    rw [run, Closed, ← readable]
    cases line.eval memory env with
    | none => exact iff_of_false nofun fun both => nomatch both.1
    | some value =>
      rw [Option.bind_some, ih (domain.update line.name value)]
      exact (and_iff_right rfl).symm

theorem run_domain (domain : Domain env defined) {after : Env} (ran : run memory lines env = some after) :
    Domain after ((lines.map Line.name).reverse ++ defined) := by
  induction lines generalizing defined env with
  | nil =>
    cases ran
    exact domain
  | cons line lines ih =>
    rcases bind_some_iff.mp ran with ⟨value, -, rest⟩
    have later := ih (domain.update line.name value) rest
    rw [map_cons, reverse_cons, append_assoc]
    exact later

theorem run_agrees {final after : Env} (holds : ∀ line ∈ lines, line.eval memory final = final line.name)
    (agree : ∀ name, (env name).isSome = true → final name = env name)
    (ran : run memory lines env = some after) :
    ∀ name, (after name).isSome = true → final name = after name := by
  induction lines generalizing env with
  | nil =>
    cases ran
    exact agree
  | cons line lines ih =>
    rw [forall_mem_cons] at holds
    rcases bind_some_iff.mp ran with ⟨value, valueIs, rest⟩
    apply ih holds.2 _ rest
    intro name assigned
    by_cases same : name = line.name
    · rw [same, Function.update_self, ← holds.1, ← valueIs]
      have defined_ : (line.eval memory env).isSome = true := by rw [valueIs]; rfl
      rw [Line.eval_defined] at defined_
      exact Line.eval_agrees fun read mem => agree read (defined_ read mem)
    · rw [Function.update_of_ne same] at assigned ⊢
      exact agree name assigned

/-- Variables are assigned once, after what they read. -/
structure SingleAssignment (defined : List Name) (lines : List Line) : Prop where
  closed : Closed defined lines
  once : (lines.map Line.name).Nodup
  fresh : ∀ name ∈ lines.map Line.name, name ∉ defined

theorem SingleAssignment.tail {line : Line} (single : SingleAssignment defined (line :: lines)) :
    SingleAssignment (line.name :: defined) lines where
  closed := single.closed.2
  once := (nodup_cons.mp single.once).2
  fresh := by
    intro name mem before
    rcases mem_cons.mp before with rfl | given
    · exact (nodup_cons.mp single.once).1 mem
    · exact single.fresh name (mem_cons_of_mem _ mem) given

theorem SingleAssignment.append {others : List Line} (single : SingleAssignment defined lines)
    (next : SingleAssignment ((lines.map Line.name).reverse ++ defined) others) :
    SingleAssignment defined (lines ++ others) where
  closed := closed_append.mpr ⟨single.closed, next.closed⟩
  once := by
    rw [map_append, nodup_append]
    refine ⟨single.once, next.once, fun name first other second same => ?_⟩
    rw [same] at first
    exact next.fresh other second (mem_append_left _ (mem_reverse.mpr first))
  fresh := by
    rw [map_append, forall_mem_append]
    exact ⟨single.fresh, fun name mem given => next.fresh name mem (mem_append_right _ given)⟩

theorem SingleAssignment.run (memory : Word → Nat) (single : SingleAssignment defined lines)
    (domain : Domain env defined) : ∃ final, YulLines.run memory lines env = some final ∧
      (∀ name ∈ defined, final name = env name) ∧
        ∀ line ∈ lines, line.eval memory final = final line.name := by
  induction lines generalizing defined env with
  | nil => exact ⟨env, rfl, fun _ _ => rfl, fun _ absent => absurd absent not_mem_nil⟩
  | cons line lines ih =>
    have readable : (line.eval memory env).isSome = true :=
      Line.eval_defined.mpr fun name mem => (domain name).mpr (single.closed.1 name mem)
    rcases Option.isSome_iff_exists.mp readable with ⟨value, valueIs⟩
    rcases ih single.tail (domain.update line.name value) with ⟨final, ran, kept, holds⟩
    have before : ∀ name ∈ defined, final name = env name := by
      intro name mem
      rw [kept name (mem_cons_of_mem _ mem), Function.update_of_ne]
      rintro rfl
      exact single.fresh _ mem_cons_self mem
    refine ⟨final, ?_, before, ?_⟩
    · rw [YulLines.run, valueIs]
      exact ran
    · rw [forall_mem_cons]
      refine ⟨?_, holds⟩
      rw [kept line.name mem_cons_self, Function.update_self, ← valueIs]
      exact Line.eval_agrees fun name mem => before name (single.closed.1 name mem)

end Runs

end Midfall.YulLines
