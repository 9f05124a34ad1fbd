import Mathlib

/-!
# Sums over buckets

The sum of buckets weighted with their numbers, as a loop from the last bucket
keeps it, and what one addition to a bucket changes.
-/

namespace Midfall.BucketSums

open List

variable {G : Type} [AddCommGroup G]

def weighted (count : Nat) (bucket : Nat → G) : G :=
  ∑ i ∈ Finset.range count, (i + 1) • bucket i

theorem weighted_zero (count : Nat) : weighted count (fun _ => (0 : G)) = 0 := by
  unfold weighted
  simp only [smul_zero, Finset.sum_const_zero]

theorem weighted_add (count : Nat) (first second : Nat → G) :
    weighted count (fun i => first i + second i) = weighted count first + weighted count second := by
  unfold weighted
  simp only [smul_add, Finset.sum_add_distrib]

theorem weighted_grow {count place : Nat} (inside : place < count) {before after : Nat → G} {more : G}
    (here : after place = before place + more) (others : ∀ i, i ≠ place → after i = before i) :
    weighted count after = weighted count before + (place + 1) • more := by
  have each : ∀ i, after i = before i + if i = place then more else 0 := by
    intro i
    by_cases same : i = place
    · rw [if_pos same, same, here]
    · rw [if_neg same, others i same, add_zero]
  have spike : weighted count (fun i => if i = place then more else 0) = (place + 1) • more := by
    unfold weighted
    simp only [smul_ite, smul_zero]
    rw [Finset.sum_ite_eq' (Finset.range count) place fun i => (i + 1) • more,
      if_pos (Finset.mem_range.mpr inside)]
  calc weighted count after
      = weighted count fun i => before i + if i = place then more else 0 := by
        congr 1
        exact funext each
    _ = weighted count before + (place + 1) • more := by rw [weighted_add, spike]

def addRunning (state : G × G) (bucket : G) : G × G :=
  (state.1 + bucket, state.2 + (state.1 + bucket))

theorem fold_running (buckets : List G) (running acc : G) :
    buckets.reverse.foldl addRunning (running, acc) =
      (running + buckets.sum, acc + buckets.length • running +
        weighted buckets.length fun i => buckets.getD i 0) := by
  induction buckets with
  | nil =>
    show (running, acc) = _
    simp [weighted]
  | cons bucket buckets ih =>
    have shifted : weighted (bucket :: buckets).length (fun i => (bucket :: buckets).getD i 0) =
        (weighted buckets.length fun i => buckets.getD i 0) + buckets.sum + bucket := by
      have plain : buckets.sum = ∑ i ∈ Finset.range buckets.length, buckets.getD i 0 := by
        clear ih
        induction buckets with
        | nil => rfl
        | cons first rest sums =>
          rw [sum_cons, sums, length_cons, Finset.sum_range_succ']
          simp only [getD_cons_zero, getD_cons_succ]
          exact add_comm _ _
      unfold weighted
      rw [length_cons, Finset.sum_range_succ', plain, ← Finset.sum_add_distrib]
      simp only [getD_cons_zero, getD_cons_succ, zero_add, one_smul, add_smul]
    rw [reverse_cons, foldl_append, ih, foldl_cons, foldl_nil,
      addRunning, shifted, sum_cons, length_cons, add_smul, one_smul]
    refine Prod.ext ?_ ?_
    · dsimp only
      abel
    · dsimp only
      abel

/-- Windows from the highest one: the accumulator is shifted before each is added. -/
theorem fold_windows (shift : Nat) (window : Nat → G) (windows : Nat) (acc : G)
    (step : G → Nat → Option G)
    (steps : ∀ current w, w < windows → step current w = some (2 ^ shift • current + window w)) :
    (range windows).reverse.foldlM step acc =
      some (2 ^ (shift * windows) • acc +
        ∑ w ∈ Finset.range windows, 2 ^ (shift * w) • window w) := by
  induction windows generalizing acc with
  | zero => simp
  | succ windows ih =>
    have rest := ih (2 ^ shift • acc + window windows)
      fun current w below => steps current w (Nat.lt_succ_of_lt below)
    rw [range_succ, reverse_append, reverse_singleton, singleton_append,
      foldlM_cons, steps acc windows (Nat.lt_succ_self windows)]
    refine rest.trans ?_
    rw [Finset.sum_range_succ, smul_add, smul_smul, ← pow_add, Nat.mul_succ]
    congr 1
    abel

end Midfall.BucketSums
