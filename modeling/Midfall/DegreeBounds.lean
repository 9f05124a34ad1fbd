import Midfall.ListLoops
import Midfall.ProofReadOrder

/-!
# Degrees of the identities

The degree of a constraint system rounds the lookups up from a provisional degree
that leaves them out. The lookups are then chunked at the final degree, which
must bound every identity.
-/

namespace Midfall.DegreeBounds

open ListLoops PlonkConstraintSystem ProofReadOrder List

theorem le_next_power (n : Nat) : n ≤ nextPowerOfTwo n := Nat.le_pow_clog one_lt_two n

theorem next_power_le {n m : Nat} (le : n ≤ nextPowerOfTwo m) : nextPowerOfTwo n ≤ nextPowerOfTwo m :=
  Nat.pow_le_pow_right two_pos (Nat.clog_le_of_le_pow le)

theorem half_next_power {n m : Nat} (more : nextPowerOfTwo m < 2 * n) :
    nextPowerOfTwo m ≤ nextPowerOfTwo n := by
  have above := le_next_power n
  unfold nextPowerOfTwo at *
  have less : 2 ^ Nat.clog 2 m < 2 ^ (Nat.clog 2 n + 1) := by
    rw [Nat.pow_succ]
    omega
  have exponents := (Nat.pow_lt_pow_iff_right one_lt_two).mp less
  exact Nat.pow_le_pow_right two_pos (Nat.le_of_lt_succ exponents)

/-- `h · ∏ (f + β) - ∑ ∏ (f + β)` -/
def helperDegree (chunk : List (List Nat)) : Nat :=
  let inputs := chunk.map (maxOr 0)
  max (1 + inputs.sum) (maxOr 0 (inputs.map (inputs.sum - ·)))

/-- `active · ((Z(ωx) - Z - selector · h) · (t + β) + m)` -/
def accumulatorDegree (lookup : BatchedArgument) : Nat :=
  1 + max (max 1 (lookup.selectorDegree + 1) + maxOr 0 lookup.tableDegrees) 1

def lookupIdentityDegrees (lookup : BatchedArgument) (chunked : List (List (List Nat))) :
    List Nat :=
  2 :: chunked.map helperDegree ++ [accumulatorDegree lookup]

/-- The first and last products, those between, and one product of each set of
columns. -/
def permutationIdentityDegrees (columns : List AnyColumn) (csDegree : Nat) : List Nat :=
  let sets := chunks (csDegree - 2) columns
  if sets = [] then []
  else [2, 3] ++ replicate (sets.length - 1) 2 ++ sets.map fun set => 1 + (1 + set.length)

/-- The compressed constraints less `(1 - q) · trash`. -/
def trashDegree (constraintDegrees : List Nat) : Nat := max (maxOr 0 constraintDegrees) 2

structure Bounded (cs : ConstraintSystem) (csDegree : Nat) : Prop where
  computed : cs.degree = some csDegree
  lookups : ∀ lookup ∈ cs.lookups, ∃ chunked, chunkByDegree lookup lookup.inputDegrees csDegree = some chunked ∧
    chunked.flatten = lookup.inputDegrees ∧
    ∀ degree ∈ lookupIdentityDegrees lookup chunked, degree ≤ csDegree
  gates : ∀ degree ∈ cs.gates.flatten, degree ≤ csDegree
  permutation : ∀ degree ∈ permutationIdentityDegrees cs.permutationColumns csDegree,
    degree ≤ csDegree
  trash : ∀ constraints ∈ cs.trashcans, trashDegree constraints ≤ csDegree

def degreeWithoutLookup (cs : ConstraintSystem) : Nat :=
  maxOr 1 <| [ConstraintSystem.permutationRequiredDegree] ++
    (cs.trashcans.map ConstraintSystem.trashRequiredDegree).max?.toList ++
    cs.gates.flatten.max?.toList ++ cs.minimumDegree.toList

/-- The degree of the accumulator constraint before its active rows. -/
def tableDegree (lookup : BatchedArgument) : Nat :=
  1 + lookup.selectorDegree + maxOr 1 lookup.tableDegrees

/-- What the gates and the tables need, apart from the inputs of the lookups. -/
def neededDegree (cs : ConstraintSystem) : Nat :=
  max (degreeWithoutLookup cs - 1) (maxOr 0 (cs.lookups.map tableDegree))

theorem max_or_le {default bound : Nat} {values : List Nat} (least : default ≤ bound)
    (all : ∀ value ∈ values, value ≤ bound) : maxOr default values ≤ bound := by
  rw [maxOr]
  cases found : values.max? with
  | none => exact least
  | some value => exact all value (max?_mem found)

theorem max_or_mem {default : Nat} {values : List Nat} (above : default < maxOr default values) :
    maxOr default values ∈ values := by
  rw [maxOr] at above ⊢
  cases found : values.max? with
  | none => simp [found] at above
  | some value => exact max?_mem found

theorem le_without_lookup {cs : ConstraintSystem} {values : List Nat} {value : Nat}
    (mem : value ∈ values) (counted : ∀ largest ∈ values.max?.toList,
      largest ∈ (cs.trashcans.map ConstraintSystem.trashRequiredDegree).max?.toList ++
        cs.gates.flatten.max?.toList) : value ≤ degreeWithoutLookup cs := by
  have below := @le_max_or 0 _ _ mem
  rw [maxOr] at below
  cases found : values.max? with
  | none => exact absurd (max?_eq_none_iff.mp found ▸ mem) not_mem_nil
  | some largest =>
    rw [found] at below
    apply le_trans below
    apply le_max_or
    have inside := counted largest (by simp [found])
    simp only [mem_append] at inside ⊢
    exact Or.inl (inside.imp (Or.inr ·) id)

theorem batched_eq (lookup : BatchedArgument) (degree batched : Nat) :
    lookup.degreeBatchedArgument degree = some batched ↔ 0 < lookup.lookupDegree ∧
      batched = nextPowerOfTwo (max (nextPowerOfTwo (degree - 1) / lookup.lookupDegree * lookup.lookupDegree)
        (tableDegree lookup)) + 1 := by
  have table : ∀ helper, max (helper + 1)
      (2 + lookup.selectorDegree + maxOr 1 lookup.tableDegrees) - 1 =
        max helper (tableDegree lookup) := by
    intro helper
    rw [tableDegree]
    omega
  by_cases zero : lookup.lookupDegree = 0
  · simp [BatchedArgument.degreeBatchedArgument, BatchedArgument.nbParallelLookupsPerChunk, zero]
  · simp [BatchedArgument.degreeBatchedArgument, BatchedArgument.nbParallelLookupsPerChunk, zero,
      table, Nat.pos_of_ne_zero zero, eq_comm]

theorem table_below {lookup : BatchedArgument} {degree batched : Nat}
    (returned : lookup.degreeBatchedArgument degree = some batched) :
    nextPowerOfTwo (tableDegree lookup) < batched := by
  rw [((batched_eq lookup degree batched).mp returned).2]
  apply Nat.lt_succ_of_le
  apply next_power_le
  exact le_trans (Nat.le_max_right _ _) (le_next_power _)

theorem degree_eq (cs : ConstraintSystem) : cs.degree =
    Option.map (fun lookupDegrees =>
      max (degreeWithoutLookup cs) (maxOr (degreeWithoutLookup cs) lookupDegrees))
      (cs.lookups.mapM fun lookup => lookup.degreeBatchedArgument (degreeWithoutLookup cs)) := by
  rw [Option.map_eq_bind]
  rfl

section Computed

variable {cs : ConstraintSystem} {csDegree : Nat} (computed : cs.degree = some csDegree)

include computed

theorem degree_parts : degreeWithoutLookup cs ≤ csDegree ∧
    (∀ lookup ∈ cs.lookups, ∃ batched,
      lookup.degreeBatchedArgument (degreeWithoutLookup cs) = some batched ∧ batched ≤ csDegree) ∧
    (csDegree = degreeWithoutLookup cs ∨ ∃ lookup ∈ cs.lookups,
      lookup.degreeBatchedArgument (degreeWithoutLookup cs) = some csDegree) := by
  rw [degree_eq, Option.map_eq_some_iff] at computed
  rcases computed with ⟨lookupDegrees, mapped, rfl⟩
  refine ⟨Nat.le_max_left _ _, ?_, ?_⟩
  · intro lookup mem
    rcases map_m_returns mapped mem with ⟨batched, returned, inside⟩
    exact ⟨batched, returned, le_trans (le_max_or inside) (Nat.le_max_right _ _)⟩
  · by_cases more : degreeWithoutLookup cs < maxOr (degreeWithoutLookup cs) lookupDegrees
    · rcases (mem_map_m mapped).mp (max_or_mem more) with ⟨lookup, mem, returned⟩
      have largest : max (degreeWithoutLookup cs) (maxOr (degreeWithoutLookup cs) lookupDegrees) =
          maxOr (degreeWithoutLookup cs) lookupDegrees := Nat.max_eq_right (by omega)
      exact Or.inr ⟨lookup, mem, by rw [returned]; exact congrArg some largest.symm⟩
    · exact Or.inl (Nat.max_eq_left (by omega))

theorem rounded_degree : nextPowerOfTwo (csDegree - 1) = nextPowerOfTwo (neededDegree cs) := by
  rcases degree_parts computed with ⟨without, batched, reached⟩
  apply Nat.le_antisymm
  · apply next_power_le
    rcases reached with rfl | ⟨lookup, mem, returned⟩
    · exact le_trans (Nat.le_max_left _ _) (le_next_power _)
    · rw [(batched_eq lookup _ _).mp returned |>.2, Nat.add_sub_cancel]
      apply next_power_le
      apply Nat.max_le.mpr
      constructor
      · apply le_trans (Nat.div_mul_le_self _ _)
        apply next_power_le
        exact le_trans (Nat.le_max_left _ _) (le_next_power _)
      · apply le_trans (@le_max_or 0 _ _ (mem_map_of_mem mem))
        exact le_trans (Nat.le_max_right _ _) (le_next_power _)
  · apply next_power_le
    apply le_trans _ (le_next_power _)
    apply Nat.max_le.mpr
    constructor
    · omega
    · apply max_or_le (Nat.zero_le _)
      intro needed mem
      rcases mem_map.mp mem with ⟨lookup, inLookups, rfl⟩
      rcases batched lookup inLookups with ⟨degree, returned, le⟩
      have below := table_below returned
      have above := le_next_power (tableDegree lookup)
      omega

/-- With a lookup that fits, the degree less one is itself a power of two. -/
theorem degree_is_rounded {lookup : BatchedArgument} (mem : lookup ∈ cs.lookups)
    (fits : lookup.lookupDegree ≤ nextPowerOfTwo (neededDegree cs)) :
    nextPowerOfTwo (neededDegree cs) < csDegree := by
  rcases degree_parts computed with ⟨without, batched, -⟩
  by_cases tables : maxOr 0 (cs.lookups.map tableDegree) ≤ degreeWithoutLookup cs - 1
  · have needed : neededDegree cs = degreeWithoutLookup cs - 1 := Nat.max_eq_left tables
    rcases batched lookup mem with ⟨degree, returned, le⟩
    have parts := (batched_eq lookup _ _).mp returned
    rw [needed] at fits ⊢
    have half : nextPowerOfTwo (degreeWithoutLookup cs - 1) < 2 *
        max (nextPowerOfTwo (degreeWithoutLookup cs - 1) / lookup.lookupDegree * lookup.lookupDegree)
          (tableDegree lookup) := by
      have some := Nat.div_pos fits parts.1
      have split := Nat.div_add_mod (nextPowerOfTwo (degreeWithoutLookup cs - 1)) lookup.lookupDegree
      have rest := Nat.mod_lt (nextPowerOfTwo (degreeWithoutLookup cs - 1)) parts.1
      have once := Nat.mul_le_mul_right lookup.lookupDegree some
      rw [Nat.mul_comm] at split
      omega
    have rounded := half_next_power half
    omega
  · have needed : neededDegree cs = maxOr 0 (cs.lookups.map tableDegree) :=
      Nat.max_eq_right (by omega)
    rcases mem_map.mp (@max_or_mem 0 (cs.lookups.map tableDegree) (by omega)) with
      ⟨widest, inLookups, same⟩
    rcases batched widest inLookups with ⟨degree, returned, le⟩
    have below := table_below returned
    rw [needed, ← same]
    omega

end Computed

theorem chunk_sum_le {size largest : Nat} {chunk : List (List Nat)} (short : chunk.length ≤ size)
    (bounded : ∀ input ∈ chunk, ∀ degree ∈ input, degree ≤ largest) :
    (chunk.map (maxOr 0)).sum ≤ size * largest := by
  have sum := sum_le_card_nsmul (chunk.map (maxOr 0)) largest (by
    intro degree mem
    rcases mem_map.mp mem with ⟨input, inside, rfl⟩
    exact max_or_le (Nat.zero_le _) (bounded input inside))
  rw [length_map, smul_eq_mul] at sum
  exact le_trans sum (Nat.mul_le_mul_right largest short)

theorem permutation_bounded {columns : List AnyColumn} {csDegree : Nat} (least : 3 ≤ csDegree) :
    ∀ degree ∈ permutationIdentityDegrees columns csDegree, degree ≤ csDegree := by
  intro degree mem
  simp only [permutationIdentityDegrees] at mem
  split_ifs at mem with empty
  · exact absurd mem not_mem_nil
  · simp only [mem_append, mem_cons, not_mem_nil, or_false, mem_replicate, mem_map] at mem
    rcases mem with ((rfl | rfl) | ⟨-, rfl⟩) | ⟨set, inSets, rfl⟩
    · omega
    · omega
    · omega
    · have short := mem_chunks_length inSets
      omega

theorem lookup_bounded {cs : ConstraintSystem} {csDegree : Nat}
    (computed : cs.degree = some csDegree) {lookup : BatchedArgument} (mem : lookup ∈ cs.lookups)
    (pos : 0 < lookup.lookupDegree)
    (fits : lookup.lookupDegree ≤ nextPowerOfTwo (neededDegree cs))
    (table : nextPowerOfTwo (tableDegree lookup) < csDegree) :
    ∃ chunked, chunkByDegree lookup lookup.inputDegrees csDegree = some chunked ∧
      chunked.flatten = lookup.inputDegrees ∧
      ∀ degree ∈ lookupIdentityDegrees lookup chunked, degree ≤ csDegree := by
  have some := Nat.div_pos fits pos
  have rounded := degree_is_rounded computed mem fits
  refine ⟨chunks (nextPowerOfTwo (neededDegree cs) / lookup.lookupDegree) lookup.inputDegrees,
    ?_, chunks_flatten_eq some _, ?_⟩
  · simp [chunkByDegree, BatchedArgument.nbParallelLookupsPerChunk, pos.ne',
      rounded_degree computed, some.ne']
  · intro degree identity
    rw [lookupIdentityDegrees, mem_append, mem_singleton, mem_cons, mem_map] at identity
    rcases identity with (rfl | ⟨chunk, inChunks, rfl⟩) | rfl
    · have least := ConstraintSystem.degree_bound cs computed
      omega
    · have sum := chunk_sum_le (mem_chunks_length inChunks) fun input inside degree inInput =>
        @le_max_or 1 _ _ (mem_flatten.mpr ⟨input, mem_chunk some inChunks inside, inInput⟩)
      have within := le_trans sum (Nat.div_mul_le_self _ lookup.lookupDegree)
      have partials : maxOr 0 ((chunk.map (maxOr 0)).map ((chunk.map (maxOr 0)).sum - ·)) ≤
          (chunk.map (maxOr 0)).sum := by
        apply max_or_le (Nat.zero_le _)
        intro part isPart
        rcases mem_map.mp isPart with ⟨input, -, rfl⟩
        exact Nat.sub_le _ _
      simp only [helperDegree]
      omega
    · have smaller : maxOr 0 lookup.tableDegrees ≤ maxOr 1 lookup.tableDegrees :=
        max_or_le (Nat.zero_le _) fun degree inside => le_max_or inside
      have above := le_next_power (tableDegree lookup)
      simp only [accumulatorDegree]
      rw [tableDegree] at above table
      omega

theorem degree_computes {cs : ConstraintSystem}
    (pos : ∀ lookup ∈ cs.lookups, 0 < lookup.lookupDegree) :
    ∃ csDegree, cs.degree = some csDegree := by
  have mapped := @map_m_of_forall _ _ Option _ _ _ _ cs.lookups fun lookup mem =>
    (batched_eq lookup (degreeWithoutLookup cs) _).mpr ⟨pos lookup mem, rfl⟩
  rw [degree_eq, mapped]
  exact ⟨_, rfl⟩

/-- The identities stay within the degree of the constraint system exactly as long
as the inputs of every lookup have a positive degree that fits between the
powers of two that the gates and the tables leave. -/
theorem degree_bounds_iff (cs : ConstraintSystem) : (∃ csDegree, Bounded cs csDegree) ↔
    ∀ lookup ∈ cs.lookups, 0 < lookup.lookupDegree ∧
      lookup.lookupDegree ≤ nextPowerOfTwo (neededDegree cs) := by
  constructor
  · rintro ⟨csDegree, bounded⟩ lookup mem
    rcases bounded.lookups lookup mem with ⟨chunked, returned, -⟩
    rcases degree_parts bounded.computed with ⟨-, batched, -⟩
    rcases batched lookup mem with ⟨degree, known, -⟩
    have positive := ((batched_eq lookup _ degree).mp known).1
    refine ⟨positive, ?_⟩
    by_contra more
    simp [chunkByDegree, BatchedArgument.nbParallelLookupsPerChunk, positive.ne',
      rounded_degree bounded.computed, Nat.div_eq_of_lt (Nat.lt_of_not_le more)] at returned
  · intro fit
    rcases degree_computes fun lookup mem => (fit lookup mem).1 with ⟨csDegree, computed⟩
    have least := ConstraintSystem.degree_bound cs computed
    rcases degree_parts computed with ⟨without, batched, -⟩
    refine ⟨csDegree, computed, ?_, ?_, permutation_bounded least, ?_⟩
    · intro lookup mem
      rcases batched lookup mem with ⟨degree, returned, le⟩
      have below := table_below returned
      exact lookup_bounded computed mem (fit lookup mem).1 (fit lookup mem).2 (by omega)
    · intro degree mem
      apply le_trans _ without
      exact le_without_lookup mem fun largest found => mem_append_right _ found
    · intro constraints mem
      apply le_trans _ without
      have same : trashDegree constraints = ConstraintSystem.trashRequiredDegree constraints :=
        Nat.max_comm _ _
      rw [same]
      exact le_without_lookup (mem_map_of_mem mem) fun largest found =>
        mem_append_left _ found

theorem nothing_queried : ∀ query ∈ ([] : List QueryKey), query.column < 0 :=
  fun _ mem => absurd mem not_mem_nil

theorem nothing_allocated : ∀ phase ∈ ([] : List Nat), phase ∈ ([] : List Nat) :=
  fun _ mem => mem

/-- One lookup with an input of degree five, next to a permutation only. -/
def fifthPower : ConstraintSystem where
  numFixedColumns := 0
  selectorFlags := []
  adviceColumnPhase := []
  challengePhase := []
  gates := []
  adviceQueries := []
  instanceQueries := []
  fixedQueries := []
  permutationColumns := []
  lookups := [{ inputDegrees := [[5]], selectorDegree := 0, tableDegrees := [1] }]
  trashcans := []
  minimumDegree := none
  adviceQueries_nodup := nodup_nil
  adviceQueries_column := nothing_queried
  instanceQueries_nodup := nodup_nil
  fixedQueries_nodup := nodup_nil
  fixedQueries_column := nothing_queried
  permutationColumns_nodup := nodup_nil
  challengePhase_allocated := nothing_allocated

theorem fifth_power_not_chunked : ¬∀ cs, ∃ csDegree, Bounded cs csDegree := by
  intro all
  rcases all fifthPower with ⟨csDegree, bounded⟩
  have degree : fifthPower.degree = some 3 := by decide +kernel
  have same := Option.some.inj (degree.symm.trans bounded.computed)
  subst same
  rcases bounded.lookups _ mem_cons_self with ⟨chunked, returned, -⟩
  have fails : chunkByDegree
      { inputDegrees := [[5]], selectorDegree := 0, tableDegrees := [1] } [[5]] 3 = none := by decide +kernel
  rw [fails] at returned
  cases returned

end Midfall.DegreeBounds
