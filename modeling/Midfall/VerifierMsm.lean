import Midfall.CurveMsm
import Midfall.ListLoops
import Midfall.NativeDecomposition
import Midfall.OrderedMaps

/-!
# Partial multi-scalar multiplications

Off circuit an MSM has bases with scalars and a map from names of fixed bases to
scalars. In circuit the same data is assigned and each scalar carries a bound
that decides how many of its bits are decomposed. `Represents` ties the two.
-/

namespace Midfall.VerifierMsm

open CircuitPrograms ListLoops NativeGadget NativeDecomposition List
open OrderedMaps

variable {modulus : Nat} {C : Type}

@[ext]
structure Msm (modulus : Nat) (C : Type) where
  bases : List C
  scalars : List (ZMod modulus)
  fixedBaseScalars : OrderedMap String (ZMod modulus)
  sameLength : bases.length = scalars.length

def addToEntry (map : OrderedMap String (ZMod modulus)) (key : String) (value : ZMod modulus) :
    OrderedMap String (ZMod modulus) :=
  match map.get? key with
  | some old => map.insert key (old + value)
  | none => map.insert key value

def Msm.accumulateWithR (acc other : Msm modulus C) (r : ZMod modulus) : Msm modulus C where
  bases := acc.bases ++ other.bases
  scalars := acc.scalars ++ other.scalars.map fun s => s * r
  fixedBaseScalars := other.fixedBaseScalars.entries.foldl
    (fun map entry => addToEntry map entry.1 (r * entry.2)) acc.fixedBaseScalars
  sameLength := by simp [acc.sameLength, other.sameLength]

section Group

variable [AddCommGroup C] [Module (ZMod modulus) C]

/-- The sum that `msm_best` returns. -/
def msmBest (scalars : List (ZMod modulus)) (bases : List C) : C :=
  (zipWith (fun scalar base => scalar • base) scalars bases).sum

/-- In a group whose order is the modulus. -/
theorem msm_sum_best [NeZero modulus] {repr : CurveMsm.ScalarRepr (ZMod modulus)}
    (canonical : ∀ scalar, repr.value scalar = scalar.val) (scalars : List (ZMod modulus))
    (bases : List C) : CurveMsm.msmSum repr scalars bases = msmBest scalars bases := by
  unfold CurveMsm.msmSum msmBest
  rw [← map_uncurry_zip_eq_zipWith]
  congr 1
  apply map_congr_left
  intro entry _
  rw [canonical, Function.uncurry_def, ← Nat.cast_smul_eq_nsmul (ZMod modulus),
    ZMod.natCast_zmod_val]

def Msm.collapse (msm : Msm modulus C) : Msm modulus C where
  bases := [msmBest msm.scalars msm.bases]
  scalars := [1]
  fixedBaseScalars := msm.fixedBaseScalars
  sameLength := rfl

/-- Panics where a fixed base is not provided. -/
def Msm.eval (msm : Msm modulus C) (fixedBases : OrderedMap String C) : Option C := do
  let provided ← msm.fixedBaseScalars.entries.mapM fun entry =>
    (fixedBases.get? entry.1).map fun base => (base, entry.2)
  return msmBest (msm.scalars ++ provided.map Prod.snd) (msm.bases ++ provided.map Prod.fst)

/-- The variable part and the sum over the names. -/
def Msm.sum (msm : Msm modulus C) (fixedBases : OrderedMap String C) : C :=
  msmBest msm.scalars msm.bases + msm.fixedBaseScalars.total fun name scalar =>
    scalar • (fixedBases.get? name).getD 0

theorem msm_best_append {scalars more : List (ZMod modulus)} {bases others : List C}
    (same : bases.length = scalars.length) :
    msmBest (scalars ++ more) (bases ++ others) = msmBest scalars bases + msmBest more others := by
  unfold msmBest
  rw [zipWith_append same.symm, sum_append]

theorem msm_best_scaled (r : ZMod modulus) (scalars : List (ZMod modulus)) (bases : List C) :
    msmBest (scalars.map fun s => s * r) bases = r • msmBest scalars bases := by
  unfold msmBest
  induction scalars generalizing bases with
  | nil => simp
  | cons scalar scalars ih =>
    cases bases with
    | nil => simp
    | cons base bases =>
      simp only [map_cons, zipWith_cons_cons, sum_cons, ih, smul_add, mul_comm scalar r, mul_smul]

omit [Module (ZMod modulus) C] in
theorem provided_bases (fixedBases : OrderedMap String C)
    (entries : List (String × ZMod modulus)) :
    (entries.mapM fun entry => (fixedBases.get? entry.1).map fun base => (base, entry.2)) =
      if ∀ entry ∈ entries, entry.1 ∈ fixedBases.keys then
        some (entries.map fun entry => ((fixedBases.get? entry.1).getD 0, entry.2))
      else none := by
  apply map_m_guarded
  intro entry
  cases found : fixedBases.get? entry.1 with
  | none => rw [if_neg (OrderedMap.get_eq_none_iff.mp found), Option.map_none]
  | some base =>
    rw [if_pos (OrderedMap.mem_keys_iff.mpr ⟨base, found⟩), Option.map_some, Option.getD_some]

theorem Msm.eval_eq (msm : Msm modulus C) (fixedBases : OrderedMap String C) :
    msm.eval fixedBases =
      if ∀ name ∈ msm.fixedBaseScalars.keys, name ∈ fixedBases.keys then
        some (msm.sum fixedBases) else none := by
  unfold Msm.eval
  rw [provided_bases]
  have names : (∀ entry ∈ msm.fixedBaseScalars.entries, entry.1 ∈ fixedBases.keys) ↔
      ∀ name ∈ msm.fixedBaseScalars.keys, name ∈ fixedBases.keys := by
    unfold OrderedMap.keys
    simp only [mem_map, forall_exists_index, and_imp, forall_apply_eq_imp_iff₂]
  by_cases all : ∀ name ∈ msm.fixedBaseScalars.keys, name ∈ fixedBases.keys
  · rw [if_pos (names.mpr all), if_pos all]
    show some _ = some _
    rw [msm_best_append msm.sameLength, Msm.sum, OrderedMap.total]
    simp only [map_map, msmBest, zipWith_map, Function.comp_def, zipWith_self]
  · rw [if_neg fun entries => all (names.mp entries), if_neg all]
    rfl

theorem Msm.collapse_eval (msm : Msm modulus C) (fixedBases : OrderedMap String C) :
    msm.collapse.eval fixedBases = msm.eval fixedBases := by
  have single : msmBest [(1 : ZMod modulus)] [msmBest msm.scalars msm.bases] =
      msmBest msm.scalars msm.bases := by
    nth_rewrite 1 [msmBest]
    rw [zipWith_cons_cons, zipWith_nil_left, sum_singleton, one_smul]
  rw [Msm.eval_eq, Msm.eval_eq, Msm.sum, Msm.sum, ← single]
  rfl

theorem total_add_to_entry (map : OrderedMap String (ZMod modulus)) (key : String)
    (value : ZMod modulus) (base : String → C) :
    (addToEntry map key value).total (fun name scalar => scalar • base name) =
      map.total (fun name scalar => scalar • base name) + value • base key := by
  unfold addToEntry
  split
  · rename_i old found
    rw [OrderedMap.total_insert, OrderedMap.share, found, add_smul, Option.map_some,
      Option.getD_some]
    abel
  · rename_i missing
    rw [OrderedMap.total_insert, OrderedMap.share, missing, Option.map_none, Option.getD_none,
      sub_zero]

theorem total_add_entries (entries : List (String × ZMod modulus)) (r : ZMod modulus)
    (map : OrderedMap String (ZMod modulus)) (base : String → C) :
    (entries.foldl (fun map entry => addToEntry map entry.1 (r * entry.2)) map).total
        (fun name scalar => scalar • base name) =
      map.total (fun name scalar => scalar • base name) +
        r • (entries.map fun entry => entry.2 • base entry.1).sum := by
  induction entries generalizing map with
  | nil => simp
  | cons entry entries ih =>
    rw [foldl_cons, ih, total_add_to_entry, map_cons, sum_cons, smul_add, mul_smul, add_assoc]

theorem keys_add_to_entry (map : OrderedMap String (ZMod modulus)) (key name : String)
    (value : ZMod modulus) : name ∈ (addToEntry map key value).keys ↔ name = key ∨ name ∈ map.keys := by
  unfold addToEntry
  split <;> exact OrderedMap.mem_keys_insert

theorem keys_add_entries (entries : List (String × ZMod modulus)) (r : ZMod modulus)
    (map : OrderedMap String (ZMod modulus)) (name : String) :
    name ∈ (entries.foldl (fun map entry => addToEntry map entry.1 (r * entry.2)) map).keys ↔
      name ∈ map.keys ∨ name ∈ entries.map Prod.fst := by
  induction entries generalizing map with
  | nil => simp
  | cons entry entries ih =>
    rw [foldl_cons, ih, keys_add_to_entry, map_cons, mem_cons]
    tauto

omit [AddCommGroup C] [Module (ZMod modulus) C] in
theorem Msm.keys_accumulate (acc other : Msm modulus C) (r : ZMod modulus) (name : String) :
    name ∈ (acc.accumulateWithR other r).fixedBaseScalars.keys ↔
      name ∈ acc.fixedBaseScalars.keys ∨ name ∈ other.fixedBaseScalars.keys :=
  keys_add_entries other.fixedBaseScalars.entries r acc.fixedBaseScalars name

theorem Msm.sum_accumulate (acc other : Msm modulus C) (r : ZMod modulus)
    (fixedBases : OrderedMap String C) :
    (acc.accumulateWithR other r).sum fixedBases =
      acc.sum fixedBases + r • other.sum fixedBases := by
  unfold Msm.sum Msm.accumulateWithR
  dsimp only
  rw [msm_best_append acc.sameLength, msm_best_scaled,
    total_add_entries other.fixedBaseScalars.entries r acc.fixedBaseScalars
      fun name => (fixedBases.get? name).getD 0, smul_add, OrderedMap.total]
  abel

end Group

/-- The chips of a `SelfEmulation` with their counterparts off circuit. -/
structure SelfEmulation (modulus : Nat) (C : Type) where
  hash : List (ZMod modulus) → ZMod modulus
  hashInCircuit : List (ZMod modulus) → Circuit (ZMod modulus)
  pointInputs : C → List (ZMod modulus)
  pointInputsInCircuit : C → Circuit (List (ZMod modulus))
  assignPoint : C → Circuit C
  /-- Scalars come with upper bounds on their bit lengths. -/
  msm : List (ZMod modulus × Nat) → List C → Circuit C

/-- A scalar in the range `[0, bound]`. -/
structure AssignedBoundedScalar (modulus : Nat) where
  scalar : ZMod modulus
  bound : Nat

namespace AssignedBoundedScalar

/-- Without a bound, that of all field elements. -/
def new (scalar : ZMod modulus) (boundOpt : Option Nat) : AssignedBoundedScalar modulus where
  scalar := scalar
  bound := boundOpt.getD (modulus - 1)

def Bounded (s : AssignedBoundedScalar modulus) : Prop := s.scalar.val ≤ s.bound

/-- What `add_bounded_scalars` returns. -/
def plus (x y : AssignedBoundedScalar modulus) : AssignedBoundedScalar modulus where
  scalar := x.scalar + y.scalar
  bound := min (x.bound + y.bound) (modulus - 1)

/-- What `mul_bounded_scalars` returns. -/
def times (x y : AssignedBoundedScalar modulus) : AssignedBoundedScalar modulus where
  scalar := x.scalar * y.scalar
  bound := min (x.bound * y.bound) (modulus - 1)

end AssignedBoundedScalar

structure AssignedMsm (modulus : Nat) (C : Type) where
  bases : List C
  scalars : List (AssignedBoundedScalar modulus)
  fixedBaseScalars : OrderedMap String (AssignedBoundedScalar modulus)

section Circuits

variable [Fact modulus.Prime]

namespace AssignedBoundedScalar

def one : Circuit (AssignedBoundedScalar modulus) := do
  let one ← assignFixed 1
  return { scalar := one, bound := 1 }

def addBoundedScalars (x y : AssignedBoundedScalar modulus) :
    Circuit (AssignedBoundedScalar modulus) := do
  let scalar ← add x.scalar y.scalar
  return { scalar := scalar, bound := min (x.bound + y.bound) (modulus - 1) }

def mulBoundedScalars (x y : AssignedBoundedScalar modulus) :
    Circuit (AssignedBoundedScalar modulus) := do
  let scalar ← mul x.scalar y.scalar
  return { scalar := scalar, bound := min (x.bound * y.bound) (modulus - 1) }

theorem computes_one :
    Computes (one : Circuit (AssignedBoundedScalar modulus)) { scalar := 1, bound := 1 } :=
  (computes_assign_fixed 1).returning fun one => AssignedBoundedScalar.mk one 1

theorem computes_add_bounded (x y : AssignedBoundedScalar modulus) :
    Computes (addBoundedScalars x y) (x.plus y) :=
  (computes_add x.scalar y.scalar).returning fun scalar =>
    AssignedBoundedScalar.mk scalar (min (x.bound + y.bound) (modulus - 1))

theorem computes_mul_bounded (x y : AssignedBoundedScalar modulus) :
    Computes (mulBoundedScalars x y) (x.times y) :=
  (computes_mul x.scalar y.scalar).returning fun scalar =>
    AssignedBoundedScalar.mk scalar (min (x.bound * y.bound) (modulus - 1))

theorem val_le_pred (scalar : ZMod modulus) : scalar.val ≤ modulus - 1 :=
  Nat.le_sub_one_of_lt (ZMod.val_lt scalar)

variable {x y : AssignedBoundedScalar modulus}

theorem Bounded.plus (first : x.Bounded) (second : y.Bounded) : (x.plus y).Bounded := by
  refine le_min ?_ (val_le_pred _)
  calc (x.scalar + y.scalar).val ≤ x.scalar.val + y.scalar.val := ZMod.val_add_le _ _
    _ ≤ x.bound + y.bound := Nat.add_le_add first second

theorem Bounded.times (first : x.Bounded) (second : y.Bounded) : (x.times y).Bounded := by
  refine le_min ?_ (val_le_pred _)
  calc (x.scalar * y.scalar).val ≤ x.scalar.val * y.scalar.val := by
        rw [ZMod.val_mul]
        exact Nat.mod_le _ _
    _ ≤ x.bound * y.bound := Nat.mul_le_mul first second

theorem bounded_new (scalar : ZMod modulus) : (new scalar none).Bounded := val_le_pred scalar

theorem bounded_one : ({ scalar := 1, bound := 1 } : AssignedBoundedScalar modulus).Bounded :=
  le_of_eq (ZMod.val_one modulus)

end AssignedBoundedScalar

open AssignedBoundedScalar

namespace AssignedMsm

/-- A name that both sides have gets the sum. -/
def addFixedEntry (map : OrderedMap String (AssignedBoundedScalar modulus))
    (entry : String × AssignedBoundedScalar modulus) :
    Circuit (OrderedMap String (AssignedBoundedScalar modulus)) :=
  match map.get? entry.1 with
  | some old => do
    let sum ← addBoundedScalars old entry.2
    return map.insert entry.1 sum
  | none => return map.insert entry.1 entry.2

def addMsm (msm other : AssignedMsm modulus C) : Circuit (AssignedMsm modulus C) := do
  let fixed ← other.fixedBaseScalars.entries.foldlM addFixedEntry msm.fixedBaseScalars
  return {
    bases := msm.bases ++ other.bases
    scalars := msm.scalars ++ other.scalars
    fixedBaseScalars := fixed }

def scale (msm : AssignedMsm modulus C) (r : AssignedBoundedScalar modulus) :
    Circuit (AssignedMsm modulus C) := do
  let scalars ← msm.scalars.mapM fun s => mulBoundedScalars s r
  let fixed ← msm.fixedBaseScalars.values.mapM fun s => mulBoundedScalars s r
  return {
    bases := msm.bases
    scalars := scalars
    fixedBaseScalars := msm.fixedBaseScalars.withValues fixed }

def accumulateWithR (msm other : AssignedMsm modulus C) (r : AssignedBoundedScalar modulus) :
    Circuit (AssignedMsm modulus C) := do
  let scaled ← other.scale r
  msm.addMsm scaled

/-- One base with scalar 1 for the variable part. -/
def collapse (emulation : SelfEmulation modulus C) (msm : AssignedMsm modulus C) :
    Circuit (AssignedMsm modulus C) := do
  let collapsedBase ← emulation.msm (msm.scalars.map fun s => (s.scalar, s.bound.size)) msm.bases
  let scalar ← one
  return {
    bases := [collapsedBase]
    scalars := [scalar]
    fixedBaseScalars := msm.fixedBaseScalars }

def inCircuitAsPublicInput (emulation : SelfEmulation modulus C) (msm : AssignedMsm modulus C) :
    Circuit (List (ZMod modulus)) := do
  let bases ← msm.bases.mapM emulation.pointInputsInCircuit
  return bases.flatten ++ msm.scalars.map (·.scalar) ++
    msm.fixedBaseScalars.values.map (·.scalar)

end AssignedMsm

end Circuits

/-- The field elements that a value becomes as a public input. -/
def Msm.asPublicInput (emulation : SelfEmulation modulus C) (msm : Msm modulus C) :
    List (ZMod modulus) :=
  msm.bases.flatMap emulation.pointInputs ++ msm.scalars ++ msm.fixedBaseScalars.values

/-- The same bases and scalars, each scalar within its bound. -/
structure Represents (assigned : AssignedMsm modulus C) (msm : Msm modulus C) : Prop where
  bases : assigned.bases = msm.bases
  scalars : assigned.scalars.map (·.scalar) = msm.scalars
  fixedBaseScalars : assigned.fixedBaseScalars.mapValues (·.scalar) = msm.fixedBaseScalars
  bounded : ∀ s ∈ assigned.scalars, s.Bounded
  fixedBounded : ∀ name s, assigned.fixedBaseScalars.get? name = some s → s.Bounded

/-- What the chips compute, as their trait documents it. -/
structure SelfEmulation.Lawful [AddCommGroup C] [Module (ZMod modulus) C]
    (emulation : SelfEmulation modulus C) : Prop where
  hash : ∀ inputs, Computes (emulation.hashInCircuit inputs) (emulation.hash inputs)
  pointInputs : ∀ point,
    Computes (emulation.pointInputsInCircuit point) (emulation.pointInputs point)
  assignPoint : ∀ point, Satisfies (emulation.assignPoint point) point
  msm : ∀ scalars bases, scalars.length = bases.length →
    (∀ s ∈ scalars, ZMod.val s.1 < 2 ^ s.2) →
      Computes (emulation.msm scalars bases) (msmBest (scalars.map Prod.fst) bases)

/-- All scalars times a factor, as `accumulate_with_r` scales the other side. -/
def Msm.scaled (msm : Msm modulus C) (r : ZMod modulus) : Msm modulus C where
  bases := msm.bases
  scalars := msm.scalars.map fun s => s * r
  fixedBaseScalars := msm.fixedBaseScalars.mapValues fun s => r * s
  sameLength := by rw [msm.sameLength, length_map]

theorem accumulate_entries (msm : Msm modulus C) (r : ZMod modulus)
    (map : OrderedMap String (ZMod modulus)) :
    msm.fixedBaseScalars.entries.foldl (fun map entry => addToEntry map entry.1 (r * entry.2)) map =
      (msm.scaled r).fixedBaseScalars.entries.foldl
        (fun map entry => addToEntry map entry.1 entry.2) map := by
  unfold Msm.scaled OrderedMap.mapValues
  rw [foldl_map]

section Agreement

variable [Fact modulus.Prime]

open AssignedBoundedScalar AssignedMsm

def addedEntry (map : OrderedMap String (AssignedBoundedScalar modulus))
    (entry : String × AssignedBoundedScalar modulus) :
    OrderedMap String (AssignedBoundedScalar modulus) :=
  match map.get? entry.1 with
  | some old => map.insert entry.1 (old.plus entry.2)
  | none => map.insert entry.1 entry.2

theorem computes_add_fixed_entry (map : OrderedMap String (AssignedBoundedScalar modulus))
    (entry : String × AssignedBoundedScalar modulus) :
    Computes (addFixedEntry map entry) (addedEntry map entry) := by
  unfold addFixedEntry addedEntry
  cases map.get? entry.1 with
  | some old =>
    exact (computes_add_bounded old entry.2).returning fun sum => map.insert entry.1 sum
  | none => exact computes_pure _

omit [Fact modulus.Prime] in
theorem added_entry_scalars (map : OrderedMap String (AssignedBoundedScalar modulus))
    (entry : String × AssignedBoundedScalar modulus) :
    (addedEntry map entry).mapValues (·.scalar) =
      addToEntry (map.mapValues (·.scalar)) entry.1 entry.2.scalar := by
  unfold addedEntry addToEntry
  rw [OrderedMap.get_map_values]
  cases map.get? entry.1 <;> exact OrderedMap.map_values_insert _ _ _ _

def AllBounded (map : OrderedMap String (AssignedBoundedScalar modulus)) : Prop :=
  ∀ name s, map.get? name = some s → s.Bounded

theorem AllBounded.added {map : OrderedMap String (AssignedBoundedScalar modulus)}
    {entry : String × AssignedBoundedScalar modulus} (all : AllBounded map)
    (bounded : entry.2.Bounded) : AllBounded (addedEntry map entry) := by
  intro name s found
  unfold addedEntry at found
  cases place : map.get? entry.1 with
  | some old =>
    rw [place] at found
    dsimp only at found
    rw [OrderedMap.get_insert] at found
    split_ifs at found with same
    · rw [← Option.some.inj found]
      exact (all entry.1 old place).plus bounded
    · exact all name s found
  | none =>
    rw [place] at found
    dsimp only at found
    rw [OrderedMap.get_insert] at found
    split_ifs at found with same
    · rw [← Option.some.inj found]
      exact bounded
    · exact all name s found

theorem added_entries {entries : List (String × AssignedBoundedScalar modulus)}
    (bounded : ∀ entry ∈ entries, entry.2.Bounded)
    (map : OrderedMap String (AssignedBoundedScalar modulus)) (all : AllBounded map) :
    Computes (entries.foldlM addFixedEntry map) (entries.foldl addedEntry map) ∧
      AllBounded (entries.foldl addedEntry map) ∧
      (entries.foldl addedEntry map).mapValues (·.scalar) =
        (entries.map fun entry => (entry.1, entry.2.scalar)).foldl
          (fun map entry => addToEntry map entry.1 entry.2) (map.mapValues (·.scalar)) := by
  induction entries generalizing map with
  | nil => exact ⟨computes_pure map, all, rfl⟩
  | cons entry entries ih =>
    have first := all.added (bounded entry mem_cons_self)
    rcases ih (forall_mem_cons.mp bounded).2
      (addedEntry map entry) first with ⟨computes, allAdded, scalars⟩
    refine ⟨?_, allAdded, ?_⟩
    · rw [foldlM_cons]
      exact (computes_add_fixed_entry map entry).bind computes
    · rw [foldl_cons, scalars, map_cons, foldl_cons, added_entry_scalars]

variable {assigned : AssignedMsm modulus C} {msm : Msm modulus C}

omit [Fact modulus.Prime] in
theorem Represents.entries_bounded (represents : Represents assigned msm) :
    ∀ entry ∈ assigned.fixedBaseScalars.entries, entry.2.Bounded := by
  rintro ⟨name, s⟩ mem
  exact represents.fixedBounded name s (OrderedMap.mem_iff_get.mp mem)

variable {acc other : AssignedMsm modulus C}

theorem represents_add_msm {scaled : Msm modulus C} {r : ZMod modulus}
    (represents : Represents acc msm) (otherRepresents : Represents other (scaled.scaled r)) :
    ∃ result, Computes (acc.addMsm other) result ∧
      Represents result (msm.accumulateWithR scaled r) := by
  rcases added_entries otherRepresents.entries_bounded acc.fixedBaseScalars
    represents.fixedBounded with ⟨computes, allAdded, scalars⟩
  refine ⟨_, computes.returning fun fixed => AssignedMsm.mk (acc.bases ++ other.bases)
    (acc.scalars ++ other.scalars) fixed, ?_, ?_, ?_, ?_, allAdded⟩
  · show acc.bases ++ other.bases = msm.bases ++ scaled.bases
    rw [represents.bases, otherRepresents.bases]
    rfl
  · show (acc.scalars ++ other.scalars).map (·.scalar) = msm.scalars ++ scaled.scalars.map _
    rw [map_append, represents.scalars, otherRepresents.scalars]
    rfl
  · show (other.fixedBaseScalars.entries.foldl addedEntry acc.fixedBaseScalars).mapValues _ = _
    rw [scalars, represents.fixedBaseScalars]
    have entries : (other.fixedBaseScalars.entries.map fun entry => (entry.1, entry.2.scalar)) =
        (scaled.scaled r).fixedBaseScalars.entries := by
      rw [← otherRepresents.fixedBaseScalars]
      rfl
    rw [entries, ← accumulate_entries]
    rfl
  · intro s mem
    rcases mem_append.mp mem with first | second
    · exact represents.bounded s first
    · exact otherRepresents.bounded s second

variable {r : AssignedBoundedScalar modulus}

theorem represents_scale (represents : Represents assigned msm) (bounded : r.Bounded) :
    ∃ result, Computes (assigned.scale r) result ∧ Represents result (msm.scaled r.scalar) := by
  have products : ∀ scalars : List (AssignedBoundedScalar modulus),
      Computes (scalars.mapM fun s => mulBoundedScalars s r) (scalars.map fun s => s.times r) :=
    fun scalars => computes_loop scalars fun s _ => computes_mul_bounded s r
  have scalars := products assigned.scalars
  have fixed := products assigned.fixedBaseScalars.values
  refine ⟨AssignedMsm.mk assigned.bases (assigned.scalars.map fun s => s.times r)
    (assigned.fixedBaseScalars.withValues
      (assigned.fixedBaseScalars.values.map fun s => s.times r)),
    scalars.bind (fixed.returning fun fixed => AssignedMsm.mk assigned.bases
      (assigned.scalars.map fun s => s.times r) (assigned.fixedBaseScalars.withValues fixed)),
    represents.bases, ?_, ?_, ?_, ?_⟩
  · show (assigned.scalars.map fun s => s.times r).map (·.scalar) =
      msm.scalars.map fun s => s * r.scalar
    rw [← represents.scalars, map_map, map_map]
    rfl
  · show (assigned.fixedBaseScalars.withValues
      (assigned.fixedBaseScalars.values.map fun s => s.times r)).mapValues (·.scalar) =
        msm.fixedBaseScalars.mapValues fun s => r.scalar * s
    rw [OrderedMap.with_values_map, ← represents.fixedBaseScalars]
    apply OrderedMap.ext_get
    intro name
    simp only [OrderedMap.get_map_values, Option.map_map, Function.comp_def,
      AssignedBoundedScalar.times, mul_comm]
  · intro s mem
    rcases mem_map.mp mem with ⟨before, inBefore, rfl⟩
    exact (represents.bounded before inBefore).times bounded
  · intro name s found
    dsimp only at found
    rw [OrderedMap.with_values_map, OrderedMap.get_map_values] at found
    rcases Option.map_eq_some_iff.mp found with ⟨before, inBefore, rfl⟩
    exact (represents.fixedBounded name before inBefore).times bounded

theorem represents_accumulate {otherMsm : Msm modulus C} (represents : Represents acc msm)
    (otherRepresents : Represents other otherMsm) (bounded : r.Bounded) :
    ∃ result, Computes (acc.accumulateWithR other r) result ∧
      Represents result (msm.accumulateWithR otherMsm r.scalar) := by
  rcases represents_scale otherRepresents bounded with ⟨scaled, computesScaled, scaledRepresents⟩
  rcases represents_add_msm represents scaledRepresents with ⟨result, computes, resultRepresents⟩
  exact ⟨result, computesScaled.bind computes, resultRepresents⟩

variable {emulation : SelfEmulation modulus C}

section

variable [AddCommGroup C] [Module (ZMod modulus) C] (lawful : emulation.Lawful)
  (represents : Represents assigned msm)

include lawful represents

set_option linter.unusedSectionVars false in
theorem represents_public_input :
    Computes (assigned.inCircuitAsPublicInput emulation) (msm.asPublicInput emulation) := by
  have bases := computes_loop assigned.bases fun base _ => lawful.pointInputs base
  have value : msm.asPublicInput emulation =
      (assigned.bases.map emulation.pointInputs).flatten ++ assigned.scalars.map (·.scalar) ++
        assigned.fixedBaseScalars.values.map (·.scalar) := by
    unfold Msm.asPublicInput
    rw [← OrderedMap.values_map_values, represents.fixedBaseScalars, represents.scalars,
      represents.bases, flatMap_def]
  rw [value]
  exact bases.returning fun bases => bases.flatten ++ assigned.scalars.map (·.scalar) ++
    assigned.fixedBaseScalars.values.map (·.scalar)

theorem represents_collapse :
    ∃ result, Computes (assigned.collapse emulation) result ∧ Represents result msm.collapse := by
  have enough : ∀ s ∈ assigned.scalars.map (fun s => (s.scalar, s.bound.size)),
      ZMod.val s.1 < 2 ^ s.2 := by
    intro s mem
    rcases mem_map.mp mem with ⟨bounded, inScalars, rfl⟩
    calc bounded.scalar.val ≤ bounded.bound := represents.bounded bounded inScalars
      _ < 2 ^ bounded.bound.size := Nat.lt_size_self _
  have length : (assigned.scalars.map fun s => (s.scalar, s.bound.size)).length =
      assigned.bases.length := by
    rw [length_map, represents.bases, msm.sameLength, ← represents.scalars, length_map]
  have base := lawful.msm _ assigned.bases length enough
  have value : msmBest ((assigned.scalars.map fun s => (s.scalar, s.bound.size)).map Prod.fst)
      assigned.bases = msmBest msm.scalars msm.bases := by
    rw [map_map, ← represents.scalars, represents.bases]
    rfl
  rw [value] at base
  refine ⟨_, base.bind (computes_one.returning fun scalar => AssignedMsm.mk _ [scalar]
    assigned.fixedBaseScalars), rfl, rfl, represents.fixedBaseScalars, ?_,
    represents.fixedBounded⟩
  intro s mem
  rw [mem_singleton.mp mem]
  exact bounded_one

end

end Agreement

end Midfall.VerifierMsm
