import Mathlib

/-!
# Straight-line programs

Operation number `i` of a list computes value number `i` from the values before
it. A run appends the values one after another. A program can also work in a
table that has its final size from the start, where each operation overwrites
the entry with its own number; if no operation reads an entry at or behind its
own, the old entries do not matter.
-/

namespace Midfall.StraightLinePrograms

open List

variable {Op Value : Type} (step : List Value → Op → Option Value)

/-- The known values, extended by one value for each operation. -/
def run : List Value → List Op → Option (List Value)
  | known, [] => some known
  | known, op :: rest => (step known op).bind fun value => run (known ++ [value]) rest

/-- Each operation overwrites its target; a target outside of the table fails. -/
def overwrite (target : Op → Nat) : List Value → List Op → Option (List Value)
  | table, [] => some table
  | table, op :: rest => (step table op).bind fun value =>
    if target op < table.length then overwrite target (table.set (target op) value) rest else none

variable {step}

theorem run_append (known : List Value) (first second : List Op) :
    run step known (first ++ second) = (run step known first).bind fun values =>
      run step values second := by
  induction first generalizing known with
  | nil => rfl
  | cons op rest ih =>
    simp only [cons_append, run, Option.bind_assoc]
    congr 1
    funext value
    exact ih (known ++ [value])

variable {known values : List Value} {ops : List Op} {op : Op}

theorem run_snoc {value : Value} (ran : run step known ops = some values)
    (computed : step values op = some value) :
    run step known (ops ++ [op]) = some (values ++ [value]) := by
  rw [run_append, ran]
  simp [run, computed]

theorem run_cons_some {rest : List Op} (ran : run step known (op :: rest) = some values) :
    ∃ value, step known op = some value ∧ run step (known ++ [value]) rest = some values := by
  simpa only [run, Option.bind_eq_some_iff] using ran

theorem run_prefix (ran : run step known ops = some values) : known <+: values := by
  induction ops generalizing known with
  | nil =>
    cases ran
    exact prefix_rfl
  | cons op rest ih =>
    rcases run_cons_some ran with ⟨value, -, later⟩
    exact (prefix_append known [value]).trans (ih later)

theorem run_length (ran : run step known ops = some values) :
    values.length = known.length + ops.length := by
  induction ops generalizing known with
  | nil =>
    cases ran
    simp
  | cons op rest ih =>
    rcases run_cons_some ran with ⟨value, -, later⟩
    have total := ih later
    simp only [length_append, length_cons, length_nil] at total ⊢
    omega

theorem run_mono {richer : List Value → Op → Option Value}
    (grows : ∀ known op value, step known op = some value → richer known op = some value)
    (ran : run step known ops = some values) :
    run richer known ops = some values := by
  induction ops generalizing known with
  | nil => exact ran
  | cons op rest ih =>
    rcases run_cons_some ran with ⟨value, computed, later⟩
    rw [run, grows known op value computed]
    exact ih later

theorem run_value (ran : run step known ops = some values) {position : Nat}
    (found : ops[position]? = some op) :
    ∃ value, step (values.take (known.length + position)) op = some value ∧
      values[known.length + position]? = some value := by
  induction ops generalizing known position with
  | nil => simp at found
  | cons first rest ih =>
    rcases run_cons_some ran with ⟨value, computed, later⟩
    cases position with
    | zero =>
      rw [getElem?_cons_zero, Option.some.injEq] at found
      rw [← found]
      rcases run_prefix later with ⟨tail, whole⟩
      rw [← whole, Nat.add_zero, append_assoc, take_left]
      exact ⟨value, computed, by simp⟩
    | succ position =>
      rw [getElem?_cons_succ] at found
      have behind := ih later found
      have shifted : (known ++ [value]).length + position = known.length + (position + 1) := by
        simp only [length_append, length_singleton]
        omega
      rwa [shifted] at behind

theorem run_eq_map_m (compute : Op → Option Value) (known : List Value) (ops : List Op) :
    run (fun _ op => compute op) known ops = (ops.mapM compute).map fun values => known ++ values := by
  induction ops generalizing known with
  | nil => simp [run]
  | cons op rest ih =>
    rw [run, mapM_cons]
    cases compute op with
    | none => rfl
    | some value =>
      simp only [Option.bind_some, ih, Option.bind_eq_bind]
      cases rest.mapM compute <;> simp

def Local (step : List Value → Op → Option Value) (reads : Op → List Nat) : Prop :=
  ∀ first second op, (∀ entry ∈ reads op, first[entry]? = second[entry]?) →
    step first op = step second op

/-- The operations write one entry after another. -/
def Numbered (target : Op → Nat) (start : Nat) (ops : List Op) : Prop :=
  ∀ position op, ops[position]? = some op → target op = start + position

/-- No operation reads an entry at or behind its own. -/
def Backward (reads : Op → List Nat) (start : Nat) (ops : List Op) : Prop :=
  ∀ position op, ops[position]? = some op → ∀ entry ∈ reads op, entry < start + position

theorem Numbered.tail {target : Op → Nat} {start : Nat} {op : Op} {rest : List Op}
    (numbered : Numbered target start (op :: rest)) : Numbered target (start + 1) rest := by
  intro position other found
  have number := numbered (position + 1) other (by rwa [getElem?_cons_succ])
  omega

theorem Backward.tail {reads : Op → List Nat} {start : Nat} {op : Op} {rest : List Op}
    (backward : Backward reads start (op :: rest)) : Backward reads (start + 1) rest := by
  intro position other found entry mem
  have below := backward (position + 1) other (by rwa [getElem?_cons_succ]) entry mem
  omega

theorem found_snoc {other : Op} {position : Nat} (found : (ops ++ [op])[position]? = some other) :
    ops[position]? = some other ∨ position = ops.length ∧ other = op := by
  by_cases earlier : position < ops.length
  · rw [getElem?_append_left earlier] at found
    exact Or.inl found
  · rw [getElem?_append_right (by omega), getElem?_singleton] at found
    split_ifs at found with last
    exact Or.inr ⟨by omega, (Option.some.inj found).symm⟩

theorem Numbered.snoc {target : Op → Nat} (numbered : Numbered target 0 ops)
    (next : target op = ops.length) :
    Numbered target 0 (ops ++ [op]) := by
  intro position other found
  rcases found_snoc found with earlier | ⟨last, same⟩
  · exact numbered position other earlier
  · rw [same, next, last, Nat.zero_add]

theorem Backward.snoc {reads : Op → List Nat} (backward : Backward reads 0 ops)
    (below : ∀ entry ∈ reads op, entry < ops.length) :
    Backward reads 0 (ops ++ [op]) := by
  intro position other found entry mem
  rcases found_snoc found with earlier | ⟨last, same⟩
  · exact backward position other earlier entry mem
  · rw [same] at mem
    have bound := below entry mem
    omega

/-- The table ends with the values of the run, whatever it held. -/
theorem overwrite_eq_run {reads : Op → List Nat} {target : Op → Nat} (isLocal : Local step reads)
    {stale : List Value} (numbered : Numbered target known.length ops)
    (backward : Backward reads known.length ops) (ran : run step known ops = some values)
    (room : stale.length = ops.length) :
    overwrite step target (known ++ stale) ops = some values := by
  induction ops generalizing known stale with
  | nil =>
    have empty : stale = [] := eq_nil_of_length_eq_zero (by simpa using room)
    rw [empty, append_nil]
    exact ran
  | cons op rest ih =>
    rcases run_cons_some ran with ⟨value, computed, later⟩
    rcases exists_cons_of_length_eq_add_one (by simpa using room) with ⟨old, others, split⟩
    have number : target op = known.length := by simpa using numbered 0 op (by simp)
    have same : step (known ++ stale) op = step known op := by
      apply isLocal
      intro entry mem
      have below := backward 0 op (by simp) entry mem
      exact getElem?_append_left (by omega)
    have written : (known ++ stale).set known.length value = known ++ [value] ++ others := by
      rw [split, set_append_right _ _ (Nat.le_refl _)]
      simp
    have inside : known.length < (known ++ stale).length := by simp [split]
    have size : (known ++ [value]).length = known.length + 1 := by simp
    have numbered_rest : Numbered target (known ++ [value]).length rest := by
      rw [size]
      exact numbered.tail
    have backward_rest : Backward reads (known ++ [value]).length rest := by
      rw [size]
      exact backward.tail
    have next := ih numbered_rest backward_rest later (by simpa [split] using room)
    rw [overwrite, same, computed, Option.bind_some, number, if_pos inside, written]
    exact next

end Midfall.StraightLinePrograms
