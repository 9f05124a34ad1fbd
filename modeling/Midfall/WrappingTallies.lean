import Mathlib
import Midfall.ListLoops

/-!
# Tables of counters

Counters of a fixed width that wrap around, or stop the program where overflows
are checked. A table counts how often each key occurs in a list of keys.
-/

namespace Midfall.WrappingTallies

open List

variable {Key : Type} [DecidableEq Key]

/-- The next value of a counter; `none` stops the program. -/
def increment (width : Nat) (overflowChecks : Bool) (count : Nat) : Option Nat :=
  if count + 1 < 2 ^ width then some (count + 1) else if overflowChecks then none else some 0

def bump (width : Nat) (overflowChecks : Bool) (tally : Key → Option Nat) (key : Key)
    (count : Nat) : Option (Key → Option Nat) := do
  let next ← increment width overflowChecks count
  return Function.update tally key (some next)

/-- A key without a counter gets one. -/
def countAny (width : Nat) (overflowChecks : Bool) (tally : Key → Option Nat) (key : Key) :
    Option (Key → Option Nat) :=
  bump width overflowChecks tally key ((tally key).getD 0)

/-- A key without a counter stops the program. -/
def countKnown (width : Nat) (overflowChecks : Bool) (tally : Key → Option Nat) (key : Key) :
    Option (Key → Option Nat) := do
  let count ← tally key
  bump width overflowChecks tally key count

/-- The table of these keys, after some occurrences. -/
def tallyOf (width : Nat) (keys seen : List Key) : Key → Option Nat := fun key =>
  if key ∈ keys then some (seen.count key % 2 ^ width) else none

variable {width : Nat} {overflowChecks : Bool} {keys seen events : List Key}

theorem increment_wraps (count : Nat) (fits : overflowChecks = true → count + 1 < 2 ^ width) :
    increment width overflowChecks (count % 2 ^ width) = some ((count + 1) % 2 ^ width) := by
  have below := Nat.mod_lt count (Nat.two_pow_pos width)
  rw [increment, ← Nat.mod_add_mod]
  by_cases short : count % 2 ^ width + 1 < 2 ^ width
  · rw [if_pos short, Nat.mod_eq_of_lt short]
  · have wraps : count % 2 ^ width + 1 = 2 ^ width := by omega
    have unchecked : overflowChecks = false := by
      cases overflowChecks with
      | false => rfl
      | true =>
        have small := fits rfl
        rw [Nat.mod_eq_of_lt (by omega)] at short
        exact absurd small short
    rw [if_neg short, unchecked, if_neg Bool.false_ne_true, wraps, Nat.mod_self]

theorem bump_tally {key : Key} {grown : List Key}
    (grows : ∀ other, other ∈ grown ↔ other = key ∨ other ∈ keys)
    (fits : overflowChecks = true → seen.count key + 1 < 2 ^ width) :
    bump width overflowChecks (tallyOf width keys seen) key (seen.count key % 2 ^ width) =
      some (tallyOf width grown (seen ++ [key])) := by
  rw [bump, increment_wraps _ fits, some_bind]
  congr 1
  funext other
  simp only [tallyOf, grows, Function.update_apply, count_append]
  by_cases same : other = key
  · simp [same]
  · have different : ([key] : List Key).count other = 0 :=
      count_eq_zero.mpr fun mem => same (mem_singleton.mp mem)
    simp [same, different]

theorem bump_overflow (tally : Key → Option Nat) (key : Key) {count : Nat}
    (full : 2 ^ width ≤ count + 1) : bump width true tally key count = none := by
  rw [bump, increment, if_neg (Nat.not_lt.mpr full)]
  rfl

/-- A key that is not in the table has no occurrence. -/
def Covers (keys seen : List Key) : Prop := ∀ key, key ∈ seen → key ∈ keys

omit [DecidableEq Key] in
theorem mem_snoc_iff (keys : List Key) (key other : Key) :
    other ∈ keys ++ [key] ↔ other = key ∨ other ∈ keys := by
  rw [mem_append, mem_singleton, or_comm]

section

variable (covers : Covers keys seen)

include covers

omit [DecidableEq Key] in
theorem covers_snoc (key : Key) : Covers (keys ++ [key]) (seen ++ [key]) := by
  intro other mem
  rcases mem_append.mp mem with before | last
  · exact mem_append_left [key] (covers other before)
  · exact mem_append_right keys last

theorem count_any_step (key : Key) :
    countAny width overflowChecks (tallyOf width keys seen) key =
      bump width overflowChecks (tallyOf width keys seen) key (seen.count key % 2 ^ width) := by
  have value : (tallyOf width keys seen key).getD 0 = seen.count key % 2 ^ width := by
    rw [tallyOf]
    by_cases mem : key ∈ keys
    · rw [if_pos mem, Option.getD_some]
    · rw [if_neg mem, Option.getD_none, count_eq_zero.mpr fun inside =>
        mem (covers key inside), Nat.zero_mod]
  rw [countAny, value]

theorem count_all_any (fits : overflowChecks = true → ∀ key,
    (seen ++ events).count key < 2 ^ width) :
    events.foldlM (countAny width overflowChecks) (tallyOf width keys seen) =
      some (tallyOf width (keys ++ events) (seen ++ events)) := by
  induction events generalizing keys seen with
  | nil => simp
  | cons key rest ih =>
    have small : overflowChecks = true → seen.count key + 1 < 2 ^ width := by
      intro checked
      have total := fits checked key
      rw [count_append, count_cons_self] at total
      omega
    rw [foldlM_cons, count_any_step covers, bump_tally (mem_snoc_iff keys key) small,
      some_bind,
      ih (covers_snoc covers key) (by simpa using fits)]
    simp

theorem count_all_overflow (small : ∀ key, seen.count key < 2 ^ width) {full : Key}
    (overflows : 2 ^ width ≤ (seen ++ events).count full) :
    events.foldlM (countAny width true) (tallyOf width keys seen) = none := by
  induction events generalizing keys seen with
  | nil =>
    rw [append_nil] at overflows
    exact absurd (small full) (Nat.not_lt.mpr overflows)
  | cons key rest ih =>
    rw [foldlM_cons, count_any_step covers]
    by_cases next : seen.count key + 1 < 2 ^ width
    · have later : ∀ other, (seen ++ [key]).count other < 2 ^ width := by
        intro other
        rw [count_append]
        by_cases same : other = key
        · simpa [same] using next
        · have different : ([key] : List Key).count other = 0 :=
            count_eq_zero.mpr fun mem => same (mem_singleton.mp mem)
          rw [different]
          exact small other
      rw [bump_tally (mem_snoc_iff keys key) fun _ => next, some_bind]
      exact ih (covers_snoc covers key) later (by simpa using overflows)
    · have wrapped : 2 ^ width ≤ seen.count key % 2 ^ width + 1 := by
        rw [Nat.mod_eq_of_lt (small key)]
        omega
      rw [bump_overflow _ key wrapped]
      rfl

end

theorem count_all_other {tally next : Key → Option Nat} {other : Key}
    (ran : events.foldlM (countAny width overflowChecks) tally = some next)
    (absent : other ∉ events) : next other = tally other := by
  induction events generalizing tally with
  | nil => rw [← Option.some.inj ran]
  | cons key rest ih =>
    rw [foldlM_cons, bind_some_iff] at ran
    rcases ran with ⟨middle, stepped, later⟩
    have different : other ≠ key := fun same => absent (same ▸ mem_cons_self)
    rw [ih later fun mem => absent (mem_cons_of_mem key mem)]
    rw [countAny, bump, bind_some_iff] at stepped
    rcases stepped with ⟨value, -, updated⟩
    rw [← Option.some.inj updated, Function.update_of_ne different]

theorem bump_get {tally next : Key → Option Nat} {key : Key} {count : Nat}
    (bumped : bump width overflowChecks tally key count = some next) (other : Key) :
    (next other).isSome ↔ other = key ∨ (tally other).isSome := by
  rw [bump, bind_some_iff] at bumped
  rcases bumped with ⟨value, -, updated⟩
  rw [← Option.some.inj updated, Function.update_apply]
  by_cases same : other = key
  · simp [same]
  · simp [same]

theorem count_known_any {tally : Key → Option Nat} (known : ∀ key ∈ events, (tally key).isSome) :
    events.foldlM (countKnown width overflowChecks) tally =
      events.foldlM (countAny width overflowChecks) tally := by
  induction events generalizing tally with
  | nil => rfl
  | cons key rest ih =>
    rcases Option.isSome_iff_exists.mp (known key mem_cons_self) with ⟨count, stored⟩
    have same : countKnown width overflowChecks tally key =
        countAny width overflowChecks tally key := by
      rw [countKnown, countAny, stored]
      rfl
    rw [foldlM_cons, foldlM_cons, same]
    cases stepped : countAny width overflowChecks tally key with
    | none => rfl
    | some next =>
      exact ih fun other mem =>
        (bump_get stepped other).mpr (Or.inr (known other (mem_cons_of_mem key mem)))

theorem tally_known {key : Key} (mem : key ∈ keys) :
    (tallyOf width keys seen key).isSome := by
  rw [tallyOf, if_pos mem]
  rfl

theorem count_all_known (known : ∀ key ∈ events, key ∈ keys) (covers : Covers keys seen)
    (fits : overflowChecks = true → ∀ key, (seen ++ events).count key < 2 ^ width) :
    events.foldlM (countKnown width overflowChecks) (tallyOf width keys seen) =
      some (tallyOf width keys (seen ++ events)) := by
  have nothing_new : ∀ other, other ∈ keys ++ events ↔ other ∈ keys := by
    intro other
    rw [mem_append]
    exact or_iff_left_of_imp (known other)
  rw [count_known_any fun key mem => tally_known (known key mem), count_all_any covers fits]
  congr 1
  funext other
  simp only [tallyOf, nothing_new]

theorem count_known_overflow (known : ∀ key ∈ events, key ∈ keys) {full : Key}
    (overflows : 2 ^ width ≤ events.count full) :
    events.foldlM (countKnown width true) (tallyOf width keys []) = none := by
  have covers : Covers keys [] := fun key mem => absurd mem not_mem_nil
  have small : ∀ key, ([] : List Key).count key < 2 ^ width := fun _ => Nat.two_pow_pos width
  rw [count_known_any fun key mem => tally_known (known key mem)]
  exact count_all_overflow covers small overflows

theorem count_all_missing {tally : Key → Option Nat} {missing : Key} (mem : missing ∈ events)
    (absent : tally missing = none) :
    events.foldlM (countKnown width overflowChecks) tally = none := by
  induction events generalizing tally with
  | nil => exact absurd mem not_mem_nil
  | cons key rest ih =>
    rw [foldlM_cons]
    cases stepped : countKnown width overflowChecks tally key with
    | none => rfl
    | some next =>
      rw [countKnown, bind_some_iff] at stepped
      rcases stepped with ⟨count, stored, bumped⟩
      have different : missing ≠ key := by
        intro same
        rw [← same, absent] at stored
        cases stored
      have later := (mem_cons.mp mem).resolve_left different
      have still := bump_get bumped missing
      rw [absent] at still
      have gone : next missing = none := by simpa [different] using still
      exact ih later gone

end Midfall.WrappingTallies
