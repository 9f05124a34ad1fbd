import Midfall.ExpressionGraphs

/-!
# Optimal limb sizes

A row of the range table holds up to `max_parallel_lookups` limbs of one bit
length. The fewest rows with a given number of bits are found by a recursion over
the first row, whose solved bounds are kept in a table that all calls share.
A call that panics or never returns is `none` with every amount of fuel.
-/

namespace Midfall.LimbSizes

open List

open ExpressionGraphs (i32 i32_fits i32_wraps)
open ListLoops (mem_of_lookup)

abbrev Solutions := List (Int × List (List Nat))

/-- The bound that is left after a row: the `usize` product is cast to `i32`. -/
def nextBound (overflowChecks : Bool) (bound : Int) (parallelLookups bitLength : Nat) :
    Option Int :=
  if overflowChecks && decide (2 ^ 64 ≤ bitLength * parallelLookups) then none
  else i32 overflowChecks (bound - ((bitLength * parallelLookups : Nat) : Int).bmod (2 ^ 32))

structure Search where
  solutions : Solutions
  optSolution : List (List Nat)
  optValue : Nat

def tryRow (overflowChecks : Bool) (solve : Solutions → Int → Option (List (List Nat) × Solutions))
    (bound : Int) (search : Search) (row : Nat × Nat) : Option Search := do
  let next ← nextBound overflowChecks bound row.1 row.2
  if 0 ≤ next then
    let solved ← solve search.solutions next
    let sol := solved.1 ++ [replicate row.1 row.2]
    if sol.length < search.optValue then
      return { solutions := solved.2, optSolution := sol, optValue := sol.length }
    else
      return { search with solutions := solved.2 }
  else
    return search

def candidateRows (maxParallelLookups maxBitLength : Nat) : List (Nat × Nat) :=
  (range' 1 maxParallelLookups).flatMap fun parallelLookups =>
    (range' 1 maxBitLength).reverse.map fun bitLength => (parallelLookups, bitLength)

/-- The search starts with no solution, and `usize::MAX` as its value. -/
def newSearch (solutions : Solutions) : Search :=
  { solutions := solutions, optSolution := [], optValue := 2 ^ 64 - 1 }

def computeOptimalLimbSizes (overflowChecks : Bool) (maxParallelLookups maxBitLength : Nat) :
    Nat → Solutions → Int → Option (List (List Nat) × Solutions)
  | 0, _, _ => none
  | fuel + 1, solutions, bound =>
    match solutions.lookup bound with
    | some solution => some (solution, solutions)
    | none =>
      if bound = 0 then some ([], (bound, []) :: solutions)
      else do
        let solve := computeOptimalLimbSizes overflowChecks maxParallelLookups maxBitLength fuel
        let search ← (candidateRows maxParallelLookups maxBitLength).foldlM
          (tryRow overflowChecks solve bound) (newSearch solutions)
        return (search.optSolution, (bound, search.optSolution) :: search.solutions)

section Decompositions

variable (maxParallelLookups maxBitLength : Nat)

def IsRow (row : List Nat) : Prop :=
  ∃ parallelLookups bitLength, 1 ≤ parallelLookups ∧ parallelLookups ≤ maxParallelLookups ∧
    1 ≤ bitLength ∧ bitLength ≤ maxBitLength ∧ row = replicate parallelLookups bitLength

def Decomposes (bound : Int) (rows : List (List Nat)) : Prop :=
  (∀ row ∈ rows, IsRow maxParallelLookups maxBitLength row) ∧ (rows.flatten.sum : Int) = bound

def Optimal (bound : Int) (rows : List (List Nat)) : Prop :=
  Decomposes maxParallelLookups maxBitLength bound rows ∧
    ∀ other, Decomposes maxParallelLookups maxBitLength bound other → rows.length ≤ other.length

def Solved (solutions : Solutions) : Prop :=
  ∀ entry ∈ solutions, Optimal maxParallelLookups maxBitLength entry.1 entry.2

/-- The tables that calls with bounds from zero leave behind. -/
inductive Filled (overflowChecks : Bool) : Solutions → Prop
  | new : Filled overflowChecks []
  | call {solutions next : Solutions} {fuel : Nat} {bound : Int} {rows : List (List Nat)} :
      Filled overflowChecks solutions → 0 ≤ bound → bound < 2 ^ 31 →
      computeOptimalLimbSizes overflowChecks maxParallelLookups maxBitLength fuel solutions bound =
        some (rows, next) →
      Filled overflowChecks next

def ReturnsOptimum (overflowChecks : Bool) (bound : Int) : Prop :=
  ∀ solutions, Filled maxParallelLookups maxBitLength overflowChecks solutions →
    ∃ fuel rows next,
      computeOptimalLimbSizes overflowChecks maxParallelLookups maxBitLength fuel solutions bound =
        some (rows, next) ∧
      Optimal maxParallelLookups maxBitLength bound rows

end Decompositions

variable {lookups longest : Nat} {checks : Bool}

variable {row : Nat × Nat} {bound : Int} {rows : List (List Nat)}
  {solve : Solutions → Int → Option (List (List Nat) × Solutions)} {search : Search}
  {solutions : Solutions}

theorem mem_candidate_rows :
    row ∈ candidateRows lookups longest ↔
      (1 ≤ row.1 ∧ row.1 ≤ lookups) ∧ 1 ≤ row.2 ∧ row.2 ≤ longest := by
  simp only [candidateRows, mem_flatMap, mem_map, mem_reverse, mem_range'_1]
  constructor
  · rintro ⟨parallelLookups, lookups, bitLength, bits, rfl⟩
    simp only
    omega
  · intro inside
    exact ⟨row.1, by omega, row.2, by omega, rfl⟩

theorem decomposes_snoc (mem : row ∈ candidateRows lookups longest) :
    Decomposes lookups longest bound (rows ++ [replicate row.1 row.2]) ↔
      Decomposes lookups longest (bound - (row.2 * row.1 : Nat)) rows := by
  have inside := mem_candidate_rows.mp mem
  have isRow : IsRow lookups longest (replicate row.1 row.2) :=
    ⟨row.1, row.2, inside.1.1, inside.1.2, inside.2.1, inside.2.2, rfl⟩
  have total : ((rows ++ [replicate row.1 row.2]).flatten.sum : Int) =
      rows.flatten.sum + (row.2 * row.1 : Nat) := by
    simp [Nat.mul_comm]
  rw [Decomposes, Decomposes, total]
  constructor
  · intro decomposed
    constructor
    · intro other earlier
      exact decomposed.1 other (mem_append_left _ earlier)
    · have := decomposed.2
      omega
  · intro decomposed
    constructor
    · intro other inRows
      rcases mem_append.mp inRows with earlier | last
      · exact decomposed.1 other earlier
      · rw [mem_singleton.mp last]
        exact isRow
    · have := decomposed.2
      omega

theorem optimal_zero : Optimal lookups longest 0 [] := by
  constructor
  · exact ⟨fun row mem => absurd mem not_mem_nil, by simp⟩
  · intro other decomposed
    exact Nat.zero_le _

theorem decomposes_positive (pos : 0 < bound)
    (decomposed : Decomposes lookups longest bound rows) :
    ∃ row ∈ candidateRows lookups longest, ∃ rest,
      Decomposes lookups longest (bound - (row.2 * row.1 : Nat)) rest ∧
      rows.length = rest.length + 1 := by
  rcases eq_nil_or_concat' rows with rfl | ⟨rest, last, rfl⟩
  · have total := decomposed.2
    simp only [flatten_nil, sum_nil, Nat.cast_zero] at total
    omega
  · rcases decomposed.1 last (by simp) with ⟨parallelLookups, bitLength, many, few, long, short, rfl⟩
    have mem : (parallelLookups, bitLength) ∈ candidateRows lookups longest :=
      mem_candidate_rows.mpr ⟨⟨many, few⟩, long, short⟩
    exact ⟨_, mem, rest, (decomposes_snoc mem).mp decomposed, by simp⟩

theorem decomposes_ones (columns : 1 ≤ lookups) (bits : 1 ≤ longest) (count : Nat) :
    Decomposes lookups longest count (replicate count [1]) := by
  constructor
  · intro row mem
    rw [eq_of_mem_replicate mem]
    exact ⟨1, 1, Nat.le_refl 1, columns, Nat.le_refl 1, bits, rfl⟩
  · simp

/-- A product from `2 ^ 31` on is negative after the cast. Without overflow checks
the two smallest of them still leave a negative bound. -/
def productLimit (checks : Bool) : Nat := 2 ^ 31 + if checks then 0 else 2

theorem next_bound_exact {bound : Int} {row : Nat × Nat} (pos : 0 < bound)
    (fits : bound < 2 ^ 31) (many : 1 ≤ row.1) (long : 1 ≤ row.2)
    (small : row.2 * row.1 < productLimit checks) :
    nextBound checks bound row.1 row.2 = some (bound - (row.2 * row.1 : Nat)) := by
  have product : 1 ≤ row.2 * row.1 := Nat.mul_pos long many
  rw [nextBound, if_neg]
  · cases checks with
    | true =>
      simp only [productLimit, if_true] at small
      have cast : ((row.2 * row.1 : Nat) : Int).bmod (2 ^ 32) = (row.2 * row.1 : Nat) := by
        apply Int.bmod_eq_of_le
        · omega
        · omega
      rw [cast]
      exact i32_fits true (by omega) (by omega)
    | false =>
      simp only [productLimit, Bool.false_eq_true, if_false] at small
      rw [i32]
      simp only [Bool.false_and, Bool.false_eq_true, if_false, Int.sub_bmod_bmod]
      congr 1
      apply Int.bmod_eq_of_le
      · omega
      · omega
  · have limit : productLimit checks ≤ 2 ^ 31 + 2 := by
      cases checks with
      | true => decide
      | false => decide
    simp only [Bool.and_eq_true, decide_eq_true_eq, not_and]
    omega

/-- What the search knows after the rows it has tried. -/
structure Searched (lookups longest : Nat) (bound : Int) (tried : List (Nat × Nat))
    (search : Search) : Prop where
  stored : Solved lookups longest search.solutions
  reached : search.optValue = 2 ^ 64 - 1 ∨
    Decomposes lookups longest bound search.optSolution ∧
      search.optSolution.length = search.optValue
  least : ∀ row ∈ tried, ∀ rest,
    Decomposes lookups longest (bound - (row.2 * row.1 : Nat)) rest →
      search.optValue ≤ rest.length + 1

theorem least_snoc {tried : List (Nat × Nat)} {value lower : Nat} (least : ∀ row ∈ tried, ∀ rest,
      Decomposes lookups longest (bound - (row.2 * row.1 : Nat)) rest → value ≤ rest.length + 1)
    (le : lower ≤ value) (last : ∀ rest,
      Decomposes lookups longest (bound - (row.2 * row.1 : Nat)) rest → lower ≤ rest.length + 1) :
    ∀ other ∈ tried ++ [row], ∀ rest,
      Decomposes lookups longest (bound - (other.2 * other.1 : Nat)) rest →
        lower ≤ rest.length + 1 := by
  intro other inTried rest decomposed
  rcases mem_append.mp inTried with earlier | isLast
  · exact le_trans le (least other earlier rest decomposed)
  · rw [mem_singleton.mp isLast] at decomposed
    exact last rest decomposed

theorem try_row_searched {tried : List (Nat × Nat)} (mem : row ∈ candidateRows lookups longest)
    (bounded : nextBound checks bound row.1 row.2 = some (bound - (row.2 * row.1 : Nat)))
    (solves : ∀ solutions, Solved lookups longest solutions →
      0 ≤ bound - (row.2 * row.1 : Nat) → ∃ rows next,
        solve solutions (bound - (row.2 * row.1 : Nat)) = some (rows, next) ∧
        Optimal lookups longest (bound - (row.2 * row.1 : Nat)) rows ∧
        Solved lookups longest next) (searched : Searched lookups longest bound tried search) :
    ∃ next, tryRow checks solve bound search row = some next ∧
      Searched lookups longest bound (tried ++ [row]) next := by
  rw [tryRow, bounded, some_bind]
  by_cases nonneg : 0 ≤ bound - (row.2 * row.1 : Nat)
  · rcases solves search.solutions searched.stored nonneg with ⟨rows, next, solved, optimal, stored⟩
    rw [if_pos nonneg, solved, some_bind]
    have length : (rows ++ [replicate row.1 row.2]).length = rows.length + 1 := by simp
    have fewest : ∀ rest, Decomposes lookups longest (bound - (row.2 * row.1 : Nat)) rest →
        rows.length + 1 ≤ rest.length + 1 := by
      intro rest decomposed
      exact Nat.add_le_add_right (optimal.2 rest decomposed) 1
    simp only [length]
    by_cases better : rows.length + 1 < search.optValue
    · rw [if_pos better]
      exact ⟨_, rfl, stored, Or.inr ⟨(decomposes_snoc mem).mpr optimal.1, length⟩,
        least_snoc searched.least (Nat.le_of_lt better) fewest⟩
    · rw [if_neg better]
      refine ⟨_, rfl, stored, searched.reached, least_snoc searched.least (Nat.le_refl _) ?_⟩
      intro rest decomposed
      exact le_trans (Nat.le_of_not_lt better) (fewest rest decomposed)
  · rw [if_neg nonneg]
    refine ⟨search, rfl, searched.stored, searched.reached,
      least_snoc searched.least (Nat.le_refl _) ?_⟩
    intro rest decomposed
    have total := decomposed.2
    omega

theorem fold_searched (rows tried : List (Nat × Nat)) (steps : ∀ row ∈ rows, ∀ tried search,
      Searched lookups longest bound tried search →
      ∃ next, tryRow checks solve bound search row = some next ∧
        Searched lookups longest bound (tried ++ [row]) next)
    (searched : Searched lookups longest bound tried search) :
    ∃ result, rows.foldlM (tryRow checks solve bound) search = some result ∧
      Searched lookups longest bound (tried ++ rows) result := by
  induction rows generalizing tried search with
  | nil =>
    rw [append_nil]
    exact ⟨search, rfl, searched⟩
  | cons row rows ih =>
    rcases steps row mem_cons_self tried search searched with ⟨next, stepped, further⟩
    rcases ih (tried ++ [row])
        (forall_mem_cons.mp steps).2 further with
      ⟨result, folded, all⟩
    rw [append_assoc, singleton_append] at all
    refine ⟨result, ?_, all⟩
    rw [foldlM_cons, stepped]
    exact folded

theorem fold_m_mono {State Input : Type} {first second : State → Input → Option State}
    (grows : ∀ state input result, first state input = some result →
      second state input = some result) (inputs : List Input) {state result : State}
    (ran : inputs.foldlM first state = some result) : inputs.foldlM second state = some result := by
  induction inputs generalizing state with
  | nil => exact ran
  | cons input inputs ih =>
    rw [foldlM_cons, bind_some_iff] at ran ⊢
    rcases ran with ⟨middle, stepped, rest⟩
    exact ⟨middle, grows state input middle stepped, ih rest⟩

theorem try_row_mono {first second : Solutions → Int → Option (List (List Nat) × Solutions)}
    (grows : ∀ solutions next result, first solutions next = some result →
      second solutions next = some result) (search : Search) (row : Nat × Nat) (result : Search)
    (tried : tryRow checks first bound search row = some result) :
    tryRow checks second bound search row = some result := by
  rw [tryRow, bind_some_iff] at tried ⊢
  rcases tried with ⟨next, fits, rest⟩
  refine ⟨next, fits, ?_⟩
  by_cases nonneg : 0 ≤ next
  · rw [if_pos nonneg, bind_some_iff] at rest ⊢
    rcases rest with ⟨solved, returned, chosen⟩
    exact ⟨solved, grows search.solutions next solved returned, chosen⟩
  · rw [if_neg nonneg] at rest ⊢
    exact rest

theorem compute_mono {fuel more : Nat} (le : fuel ≤ more) {result : List (List Nat) × Solutions}
    (returned : computeOptimalLimbSizes checks lookups longest fuel
      solutions bound = some result) :
    computeOptimalLimbSizes checks lookups longest more solutions bound =
      some result := by
  induction fuel generalizing more solutions bound result with
  | zero => cases returned
  | succ fuel ih =>
    rcases Nat.exists_eq_add_of_le le with ⟨extra, rfl⟩
    rw [Nat.add_right_comm, computeOptimalLimbSizes]
    rw [computeOptimalLimbSizes] at returned
    cases looked : solutions.lookup bound with
    | some solution =>
      rw [looked] at returned
      exact returned
    | none =>
      rw [looked] at returned
      by_cases zero : bound = 0
      · simp only [if_pos zero] at returned ⊢
        exact returned
      · simp only [if_neg zero, bind_some_iff] at returned ⊢
        rcases returned with ⟨search, folded, chosen⟩
        refine ⟨search, fold_m_mono ?_ _ folded, chosen⟩
        intro state row result
        apply try_row_mono
        intro solutions next result returned
        exact ih (Nat.le_add_right fuel extra) returned

section

variable (columns : 1 ≤ lookups) (bits : 1 ≤ longest)
  (small : longest * lookups < productLimit checks)

include columns bits small

/-- A call returns an optimum, and every bound that it stores is solved by one. -/
theorem compute_optimal (bound : Nat) (fits : bound < 2 ^ 31) (solutions : Solutions)
    (stored : Solved lookups longest solutions) (fuel : Nat) (enough : bound < fuel) :
    ∃ rows next,
      computeOptimalLimbSizes checks lookups longest fuel solutions bound =
        some (rows, next) ∧
      Optimal lookups longest bound rows ∧
      Solved lookups longest next := by
  induction fuel generalizing bound solutions with
  | zero => omega
  | succ fuel ih =>
    rw [computeOptimalLimbSizes]
    cases looked : solutions.lookup (bound : Int) with
    | some solution =>
      exact ⟨solution, solutions, rfl, stored _ (mem_of_lookup looked), stored⟩
    | none =>
      by_cases zero : bound = 0
      · subst zero
        refine ⟨[], _, if_pos rfl, optimal_zero, ?_⟩
        intro entry mem
        rcases mem_cons.mp mem with rfl | earlier
        · exact optimal_zero
        · exact stored entry earlier
      · have pos : (0 : Int) < bound := by omega
        have start : Searched lookups longest bound [] (newSearch solutions) :=
          ⟨stored, Or.inl rfl, fun row mem => absurd mem not_mem_nil⟩
        have steps : ∀ row ∈ candidateRows lookups longest, ∀ tried search,
            Searched lookups longest bound tried search →
            ∃ next, tryRow checks (computeOptimalLimbSizes checks
                lookups longest fuel) bound search row = some next ∧
              Searched lookups longest bound (tried ++ [row]) next := by
          intro row mem tried search searched
          have inside := mem_candidate_rows.mp mem
          have product : 1 ≤ row.2 * row.1 := Nat.mul_pos inside.2.1 inside.1.1
          have within : row.2 * row.1 < productLimit checks :=
            lt_of_le_of_lt (Nat.mul_le_mul inside.2.2 inside.1.2) small
          apply try_row_searched mem (next_bound_exact pos (by omega) inside.1.1
            inside.2.1 within) ?_ searched
          intro solutions stored nonneg
          have smaller : (bound : Int) - (row.2 * row.1 : Nat) =
              ((bound - row.2 * row.1 : Nat) : Int) := by omega
          rw [smaller]
          exact ih (bound - row.2 * row.1) (by omega) solutions stored (by omega)
        rcases fold_searched _ [] steps start with ⟨result, folded, searched⟩
        rw [nil_append] at searched
        have ones := searched.least (1, 1) (mem_candidate_rows.mpr ⟨⟨Nat.le_refl 1, columns⟩,
          Nat.le_refl 1, bits⟩) (replicate (bound - 1) [1]) (by
            have one : (bound : Int) - (1 * 1 : Nat) = ((bound - 1 : Nat) : Int) := by omega
            rw [one]
            exact decomposes_ones columns bits (bound - 1))
        rw [length_replicate] at ones
        have optimal : Optimal lookups longest bound result.optSolution := by
          rcases searched.reached with unset | reached
          · omega
          · refine ⟨reached.1, ?_⟩
            intro other decomposed
            rcases decomposes_positive pos decomposed with
              ⟨row, mem, rest, decomposedRest, length⟩
            have least := searched.least row mem rest decomposedRest
            omega
        refine ⟨result.optSolution, (bound, result.optSolution) :: result.solutions, ?_,
          optimal, ?_⟩
        · have nonzero : ¬(bound : Int) = 0 := by omega
          simp only [if_neg nonzero, folded, some_bind, Option.pure_def]
        · intro entry mem
          rcases mem_cons.mp mem with rfl | earlier
          · exact optimal
          · exact searched.stored entry earlier

theorem filled_optimal (filled : Filled lookups longest checks solutions) :
    Solved lookups longest solutions := by
  induction filled with
  | new =>
    intro entry mem
    exact absurd mem not_mem_nil
  | @call solutions next fuel bound rows earlier nonneg fits returned stored =>
    have natural : ((bound.toNat : Nat) : Int) = bound := by omega
    rcases compute_optimal columns bits small bound.toNat (by omega) solutions stored
        (max fuel (bound.toNat + 1)) (by omega) with ⟨found, after, solved, optimal, storedAfter⟩
    rw [natural, compute_mono (Nat.le_max_left fuel _) returned] at solved
    cases solved
    exact storedAfter

end

/-- Only the bound zero has ever been solved. -/
def Unsolved (solutions : Solutions) : Prop := ∀ entry ∈ solutions, entry = (0, [])

theorem product_beyond (large : productLimit checks ≤ longest * lookups) :
    ∃ row ∈ candidateRows lookups longest,
      productLimit checks ≤ row.2 * row.1 ∧ row.2 * row.1 < 2 ^ 32 := by
  have limit : 2 ^ 31 ≤ productLimit checks ∧ productLimit checks ≤ 2 ^ 31 + 2 := by
    cases checks with
    | true => decide
    | false => decide
  generalize productLimit checks = least at large limit ⊢
  have columns : 0 < lookups := by
    rcases Nat.eq_zero_or_pos lookups with rfl | pos
    · omega
    · exact pos
  have bits : 0 < longest := by
    rcases Nat.eq_zero_or_pos longest with rfl | pos
    · omega
    · exact pos
  by_cases single : least ≤ longest
  · exact ⟨(1, least), mem_candidate_rows.mpr ⟨⟨Nat.le_refl 1, columns⟩, by omega, single⟩,
      by omega, by omega⟩
  · by_cases long : 2 ^ 30 < longest
    · have double : 2 ≤ lookups := by
        by_contra one
        have same : lookups = 1 := by omega
        rw [same] at large
        omega
      exact ⟨(2, 2 ^ 30 + 1), mem_candidate_rows.mpr ⟨⟨by omega, double⟩, by omega, by omega⟩,
        by omega, by omega⟩
    · -- The fewest lookups whose product with the longest limb is beyond the limit.
      have below := Nat.mul_div_le (least - 1) longest
      have above := Nat.lt_mul_div_succ (least - 1) bits
      have few : (least - 1) / longest < lookups :=
        (Nat.div_lt_iff_lt_mul bits).mpr (by rw [Nat.mul_comm]; omega)
      have next : longest * ((least - 1) / longest + 1) =
          longest * ((least - 1) / longest) + longest := Nat.mul_succ _ _
      exact ⟨((least - 1) / longest + 1, longest),
        mem_candidate_rows.mpr ⟨⟨Nat.le_add_left 1 _, few⟩, bits, Nat.le_refl _⟩, by simp only; omega,
        by simp only; omega⟩

theorem next_bound_beyond {next : Int} (large : productLimit checks ≤ row.2 * row.1)
    (within : row.2 * row.1 < 2 ^ 32) (returned : nextBound checks 1 row.1 row.2 = some next) :
    1 < next := by
  rw [nextBound, if_neg (by simp; omega)] at returned
  have cast : ((row.2 * row.1 : Nat) : Int).bmod (2 ^ 32) = (row.2 * row.1 : Nat) - 2 ^ 32 := by
    rw [← Int.sub_bmod_right]
    apply Int.bmod_eq_of_le
    · have half : 2 ^ 31 ≤ productLimit checks := Nat.le_add_right _ _
      omega
    · omega
  rw [cast] at returned
  cases checks with
  | true =>
    simp only [productLimit, if_true] at large
    rw [i32] at returned
    split_ifs at returned with changed
    simp only [Bool.true_and, bne_iff_ne, ne_eq, Decidable.not_not] at changed
    rw [changed] at returned
    cases returned
    omega
  | false =>
    simp only [productLimit, Bool.false_eq_true, if_false] at large
    rw [i32_fits false (by omega) (by omega)] at returned
    cases returned
    omega

/-- From every positive bound some row leads to a positive bound again. -/
theorem row_stuck (columns : 1 ≤ lookups) (bits : 1 ≤ longest)
    (large : productLimit checks ≤ longest * lookups) (pos : 0 < bound) (fits : bound < 2 ^ 31) :
    ∃ row ∈ candidateRows lookups longest, ∀ next,
      nextBound checks bound row.1 row.2 = some next → 0 < next := by
  by_cases one : bound = 1
  · rcases product_beyond large with ⟨row, mem, beyond, within⟩
    refine ⟨row, mem, ?_⟩
    intro next returned
    rw [one] at returned
    have larger := next_bound_beyond beyond within returned
    omega
  · refine ⟨(1, 1), mem_candidate_rows.mpr ⟨⟨Nat.le_refl 1, columns⟩, Nat.le_refl 1, bits⟩, ?_⟩
    intro next returned
    have small : 1 * 1 < productLimit checks := Nat.lt_add_right _ (by norm_num)
    have predecessor := @next_bound_exact checks bound (1, 1) pos fits (Nat.le_refl 1)
      (Nat.le_refl 1) small
    rw [predecessor] at returned
    cases returned
    omega

theorem compute_zero {fuel : Nat} {next : Solutions} (unsolved : Unsolved solutions)
    (returned : computeOptimalLimbSizes checks lookups longest fuel
      solutions 0 = some (rows, next)) : Unsolved next := by
  cases fuel with
  | zero => cases returned
  | succ fuel =>
    rw [computeOptimalLimbSizes] at returned
    cases looked : solutions.lookup 0 with
    | some solution =>
      rw [looked] at returned
      cases returned
      exact unsolved
    | none =>
      rw [looked] at returned
      cases returned
      intro entry mem
      rcases mem_cons.mp mem with rfl | earlier
      · rfl
      · exact unsolved entry earlier

theorem fold_m_stuck {State Input : Type} {step : State → Input → Option State}
    {good : State → Prop} (keeps : ∀ state input next, good state → step state input = some next →
      good next) {inputs : List Input} {input : Input} (mem : input ∈ inputs)
    (stuck : ∀ state, good state → step state input = none) {state : State} (start : good state) :
    inputs.foldlM step state = none := by
  induction inputs generalizing state with
  | nil => exact absurd mem not_mem_nil
  | cons first inputs ih =>
    rw [foldlM_cons]
    cases stepped : step state first with
    | none => rfl
    | some next =>
      rcases mem_cons.mp mem with rfl | later
      · rw [stuck state start] at stepped
        cases stepped
      · exact ih later (keeps state first next start stepped)

theorem try_row_returns {result : Search}
    (tried : tryRow checks solve bound search row = some result) :
    ∃ next, nextBound checks bound row.1 row.2 = some next ∧
      (next < 0 ∧ result = search ∨ 0 ≤ next ∧ ∃ solved,
        solve search.solutions next = some solved ∧ result.solutions = solved.2) := by
  rw [tryRow, bind_some_iff] at tried
  rcases tried with ⟨next, returned, rest⟩
  refine ⟨next, returned, ?_⟩
  by_cases nonneg : 0 ≤ next
  · rw [if_pos nonneg, bind_some_iff] at rest
    rcases rest with ⟨solved, found, chosen⟩
    refine Or.inr ⟨nonneg, solved, found, ?_⟩
    simp only [Option.pure_def] at chosen
    split_ifs at chosen with better
    · cases chosen
      rfl
    · cases chosen
      rfl
  · rw [if_neg nonneg] at rest
    cases rest
    exact Or.inl ⟨by omega, rfl⟩

theorem next_bound_lt {next : Int} {parallelLookups bitLength : Nat}
    (returned : nextBound checks bound parallelLookups bitLength = some next) :
    next < 2 ^ 31 := by
  rw [nextBound] at returned
  split_ifs at returned with overflow
  exact (i32_wraps returned).2.2

section

variable (columns : 1 ≤ lookups) (bits : 1 ≤ longest)
  (large : productLimit checks ≤ longest * lookups)

include columns bits large

theorem compute_never (fuel : Nat) (unsolved : Unsolved solutions) (pos : 0 < bound)
    (fits : bound < 2 ^ 31) :
    computeOptimalLimbSizes checks lookups longest fuel solutions bound =
      none := by
  induction fuel generalizing solutions bound with
  | zero => rfl
  | succ fuel ih =>
    have missing : solutions.lookup bound = none := by
      cases looked : solutions.lookup bound with
      | none => rfl
      | some solution =>
        have same := unsolved _ (mem_of_lookup looked)
        have zero := congrArg Prod.fst same
        simp only at zero
        omega
    have nonzero : ¬bound = 0 := by omega
    rcases row_stuck columns bits large pos fits with ⟨row, mem, further⟩
    rw [computeOptimalLimbSizes, missing]
    simp only [if_neg nonzero]
    rw [@fold_m_stuck _ _ _ (fun search => Unsolved search.solutions) ?_ _ _ mem ?_ _ unsolved]
    · rfl
    · intro search other result unsolved tried
      rcases try_row_returns tried with ⟨next, returned, ⟨negative, rfl⟩ | ⟨nonneg, solved, found, same⟩⟩
      · exact unsolved
      · rcases Int.lt_or_eq_of_le nonneg with larger | rfl
        · rw [ih unsolved larger (next_bound_lt returned)] at found
          cases found
        · rw [same]
          exact compute_zero unsolved found
    · intro search unsolved
      cases tried : tryRow checks (computeOptimalLimbSizes checks
          lookups longest fuel) bound search row with
      | none => rfl
      | some result =>
        rcases try_row_returns tried with
          ⟨next, returned, ⟨negative, same⟩ | ⟨nonneg, solved, found, same⟩⟩
        · have larger := further next returned
          omega
        · rw [ih unsolved (further next returned) (next_bound_lt returned)] at found
          cases found

theorem filled_unsolved (filled : Filled lookups longest checks solutions) :
    Unsolved solutions := by
  induction filled with
  | new =>
    intro entry mem
    exact absurd mem not_mem_nil
  | @call solutions next fuel bound rows earlier nonneg fits returned unsolved =>
    rcases Int.lt_or_eq_of_le nonneg with pos | rfl
    · rw [compute_never columns bits large fuel unsolved pos fits] at returned
      cases returned
    · exact compute_zero unsolved returned

end

/-- The rows of an optimum are found for every bound and table exactly as long as
no product of a row is beyond the machine words; the bound zero needs no row. -/
theorem compute_optimal_limb_sizes_iff (checks : Bool)
    (lookups longest : Nat) (bound : Int) (columns : 1 ≤ lookups)
    (bits : 1 ≤ longest) (nonneg : 0 ≤ bound) (fits : bound < 2 ^ 31) :
    ReturnsOptimum lookups longest checks bound ↔
      bound = 0 ∨ longest * lookups < productLimit checks := by
  constructor
  · intro returns
    by_contra neither
    rw [not_or, not_lt] at neither
    rcases returns [] Filled.new with ⟨fuel, rows, next, returned, optimal⟩
    have unsolved : Unsolved [] := fun entry mem => absurd mem not_mem_nil
    rw [compute_never columns bits neither.2 fuel unsolved (by omega) fits] at returned
    cases returned
  · intro solvable solutions filled
    by_cases small : longest * lookups < productLimit checks
    · have natural : ((bound.toNat : Nat) : Int) = bound := by omega
      rcases compute_optimal columns bits small bound.toNat (by omega) solutions
          (filled_optimal columns bits small filled) (bound.toNat + 1) (by omega) with
        ⟨rows, next, returned, optimal, stored⟩
      rw [natural] at returned optimal
      exact ⟨_, rows, next, returned, optimal⟩
    · have zero := solvable.resolve_right small
      subst zero
      have unsolved := filled_unsolved columns bits (Nat.le_of_not_lt small) filled
      cases looked : solutions.lookup (0 : Int) with
      | some solution =>
        have same := congrArg Prod.snd (unsolved _ (mem_of_lookup looked))
        simp only at same
        subst same
        refine ⟨1, [], solutions, ?_, optimal_zero⟩
        rw [computeOptimalLimbSizes, looked]
      | none =>
        refine ⟨1, [], (0, []) :: solutions, ?_, optimal_zero⟩
        rw [computeOptimalLimbSizes, looked]
        exact if_pos rfl

/-- Four columns and limbs of at most eight bits solve every bound. -/
theorem four_columns_of_a_byte : ReturnsOptimum 4 8 true 255 := by
  apply (compute_optimal_limb_sizes_iff true 4 8 255 (by decide) (by decide) (by decide)
    (by decide)).mpr
  exact Or.inr (by decide)

/-- The product `2 ^ 32` is cast to zero, and the bound one asks for itself. -/
theorem limbs_of_a_word_never_return :
    ¬∀ (checks : Bool) (lookups longest : Nat) (bound : Int),
      1 ≤ lookups → 1 ≤ longest → 0 ≤ bound → bound < 2 ^ 31 →
      ReturnsOptimum lookups longest checks bound := by
  intro always
  rcases always false 1 (2 ^ 32) 1 (by decide) (by decide) (by decide) (by decide) [] Filled.new with
    ⟨fuel, rows, next, returned, optimal⟩
  have unsolved : Unsolved [] := fun entry mem => absurd mem not_mem_nil
  rw [compute_never (by decide) (by decide) (by decide) fuel unsolved (by decide) (by decide)]
    at returned
  cases returned

end Midfall.LimbSizes
