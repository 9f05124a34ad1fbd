import Midfall.EdwardsChipCorrect

/-!
# Sums, constants and the subgroup

Sums of products, products with a constant of the scalar field, and the points
that are assigned as a multiple by the cofactor: the constant that multiplies
them is the cofactor reduced by the order of the subgroup.
-/

namespace Midfall.EdwardsCurves.MarkedPoint

open List

variable {F : Type} [Field F] {C : EdwardsCurve F}

/-- A sum is marked where every term is. -/
def total (points : List (MarkedPoint C)) : MarkedPoint C where
  point := (points.map point).sum
  inSubgroup := points.all inSubgroup
  known := by
    intro marked
    apply C.subgroup.list_sum_mem
    intro p member
    rcases mem_map.mp member with ⟨q, inPoints, same⟩
    rw [← same]
    exact q.known (all_eq_true.mp marked q inPoints)

theorem total_add (acc p : MarkedPoint C) (rest : List (MarkedPoint C)) :
    total (acc.add p :: rest) = total (acc :: p :: rest) := by
  apply ext_point
  · simp [total, add, add_assoc]
  · simp [total, add, Bool.and_assoc]

theorem total_singleton (p : MarkedPoint C) : total [p] = p := by
  apply ext_point
  · simp [total]
  · simp [total]

def combination (entries : List (List Bool × MarkedPoint C)) : MarkedPoint C :=
  total (entries.map fun entry => mul entry.1 entry.2)

theorem combination_point (entries : List (List Bool × MarkedPoint C)) :
    (combination entries).point =
      (entries.map fun entry =>
        Nat.ofDigits 2 (entry.1.map Bool.toNat) • entry.2.point).sum := by
  simp only [combination, total, map_map, Function.comp_def, mul_point]

/-- The product with a scalar; the product with zero is marked. -/
def scale (s : ZMod C.order) (p : MarkedPoint C) : MarkedPoint C where
  point := s.val • p.point
  inSubgroup := s = 0 || p.inSubgroup
  known := by
    intro marked
    rcases Bool.or_eq_true_iff.mp marked with zero | member
    · rw [of_decide_eq_true zero, ZMod.val_zero, zero_nsmul]
      exact C.subgroup.zero_mem
    · exact C.subgroup.nsmul_mem (p.known member) _

end Midfall.EdwardsCurves.MarkedPoint

namespace Midfall.EdwardsChip

open CircuitPrograms EdwardsCurves NativeGadget RegionPrograms List

theorem of_digits_test_bits (value count : Nat) :
    Nat.ofDigits 2 (((range count).map value.testBit).map Bool.toNat) = value % 2 ^ count := by
  induction count with
  | zero => simp [Nat.mod_one]
  | succ count ih =>
    rw [range_succ, map_append, map_append, Nat.ofDigits_append, ih, Nat.mod_pow_succ]
    simp [Nat.toNat_testBit]

theorem last_bit_bound {nbBytes value : Nat} (fits : value < 2 ^ (8 * nbBytes)) :
    value < 2 ^ ((((range (8 * nbBytes)).map value.testBit).reverse.findIdx? id).elim 0
      (fun fromEnd => 8 * nbBytes - 1 - fromEnd) + 1) := by
  apply Nat.lt_pow_two_of_testBit
  intro i above
  by_cases inside : i < 8 * nbBytes
  · cases found : ((range (8 * nbBytes)).map value.testBit).reverse.findIdx? id with
    | none =>
      rw [findIdx?_eq_none_iff] at found
      apply found
      simp only [mem_reverse, mem_map, mem_range]
      exact ⟨i, inside, rfl⟩
    | some fromEnd =>
      rw [found, Option.elim_some] at above
      rw [findIdx?_eq_some_iff_getElem] at found
      rcases found with ⟨bound, set, clear⟩
      have later := clear (8 * nbBytes - 1 - i) (by omega)
      simp only [getElem_reverse, length_map, length_range, getElem_map,
        getElem_range, id_eq, Bool.not_eq_true] at later
      rwa [show 8 * nbBytes - 1 - (8 * nbBytes - 1 - i) = i by omega] at later
  · apply Nat.testBit_lt_two_pow
    exact lt_of_lt_of_le fits (Nat.pow_le_pow_right (by omega) (by omega))

theorem of_digits_to_bits_le {nbBytes value : Nat} (fits : value < 256 ^ nbBytes) :
    Nat.ofDigits 2 ((toBitsLe nbBytes value).map Bool.toNat) = value := by
  have bitsFit : value < 2 ^ (8 * nbBytes) := by
    rwa [pow_mul]
  have bound := last_bit_bound bitsFit
  simp only [toBitsLe, length_map, length_range]
  rw [← map_take, take_range, of_digits_test_bits]
  apply Nat.mod_eq_of_lt
  rcases Nat.le_total ((((range (8 * nbBytes)).map value.testBit).reverse.findIdx? id).elim 0
      (fun fromEnd => 8 * nbBytes - 1 - fromEnd) + 1) (8 * nbBytes) with short | long
  · rwa [Nat.min_eq_left short]
  · rwa [Nat.min_eq_right long]

variable {modulus : Nat} [Fact modulus.Prime] {C : EdwardsCurve (ZMod modulus)}

theorem computes_sum (rest : List (MarkedPoint C)) (first : MarkedPoint C) :
    Computes ((rest.map cells).foldlM (fun acc point => add C acc point) (cells first))
      (cells (MarkedPoint.total (first :: rest))) := by
  induction rest generalizing first with
  | nil =>
    rw [MarkedPoint.total_singleton]
    exact computes_pure _
  | cons p rest ih =>
    rw [map_cons, foldlM_cons, ← MarkedPoint.total_add]
    exact (computes_add_points first p).bind (ih (first.add p))

theorem computes_products (entries : List (List Bool × MarkedPoint C)) :
    Computes ((entries.map fun entry => (entry.1.map bit, cells entry.2)).mapM
        fun entry => mul C entry.1 entry.2)
      ((entries.map fun entry => MarkedPoint.mul entry.1 entry.2).map cells) := by
  rw [mapM_map, map_map]
  exact computes_loop entries fun entry _ => computes_mul entry.1 entry.2

theorem computes_msm (scalars : List (List Bool)) (bases : List (MarkedPoint C))
    (present : scalars.zip bases ≠ []) :
    Computes (msm C (scalars.map fun bits => bits.map bit) (bases.map cells))
      (cells (MarkedPoint.combination (scalars.zip bases))) := by
  have products := computes_products (scalars.zip bases)
  unfold msm MarkedPoint.combination
  rw [zip_map]
  apply products.bind
  cases zipped : scalars.zip bases with
  | nil => exact absurd zipped present
  | cons entry rest => exact computes_sum _ _

theorem scalar_fits (scalar : ZMod C.order) : scalar.val < 256 ^ C.scalarBytes := by
  have : NeZero C.order := ⟨C.orderPrime.ne_zero⟩
  exact lt_of_lt_of_le (ZMod.val_lt scalar) C.orderBytes

theorem computes_assign_fixed_scalar (scalar : ZMod C.order) :
    Computes (assignFixedScalar C scalar : Circuit (AssignedScalar modulus))
      ((toBitsLe C.scalarBytes scalar.val).map bit) :=
  computes_loop _ fun value _ => computes_assign_fixed (bit value)

theorem computes_mul_by_constant (scalar : ZMod C.order) (base : MarkedPoint C) :
    Computes (mulByConstant C scalar (cells base)) (cells (MarkedPoint.scale scalar base)) := by
  have : Fact (1 < C.order) := ⟨C.orderPrime.one_lt⟩
  unfold mulByConstant
  split_ifs with zero one
  · have same : MarkedPoint.scale scalar base = MarkedPoint.ofSubgroup 0 := by
      apply MarkedPoint.ext_point
      · simp [MarkedPoint.scale, MarkedPoint.ofSubgroup, zero]
      · simp [MarkedPoint.scale, MarkedPoint.ofSubgroup, zero]
    rw [same]
    exact computes_assign_fixed_point 0
  · have same : MarkedPoint.scale scalar base = base := by
      apply MarkedPoint.ext_point
      · simp [MarkedPoint.scale, one, ZMod.val_one]
      · simp [MarkedPoint.scale, zero]
    rw [same]
    exact computes_pure _
  · have digits := of_digits_to_bits_le (scalar_fits scalar)
    have present : toBitsLe C.scalarBytes scalar.val ≠ [] := by
      intro empty
      rw [empty] at digits
      exact zero ((ZMod.val_eq_zero scalar).mp digits.symm)
    have same : MarkedPoint.combination [(toBitsLe C.scalarBytes scalar.val, base)] =
        MarkedPoint.scale scalar base := by
      rw [MarkedPoint.combination, map_singleton, MarkedPoint.total_singleton,
        MarkedPoint.mul, if_neg present, digits]
      apply MarkedPoint.ext_point
      · rfl
      · simp [MarkedPoint.multiple, MarkedPoint.scale, zero]
    rw [← same]
    apply (computes_assign_fixed_scalar scalar).bind
    exact computes_msm [toBitsLe C.scalarBytes scalar.val] [base] (by simp)

/-- The product with the reduced cofactor, marked whatever it is. -/
def clearedCells (q : C.Point) : AssignedNativePoint modulus where
  x := (C.coordinates ((C.cofactor : ZMod C.order).val • q)).1
  y := (C.coordinates ((C.cofactor : ZMod C.order).val • q)).2
  inSubgroup := true

def unmarked (q : C.Point) : MarkedPoint C where
  point := q
  inSubgroup := false
  known := by simp

theorem computes_clear_cofactor (q : C.Point) :
    Computes (clearCofactor C (cells (unmarked q))) (clearedCells q) :=
  (computes_mul_by_constant (C.cofactor : ZMod C.order) (unmarked q)).returning _

theorem membership_region_allows (hint : Option (ZMod modulus × ZMod modulus))
    (result : AssignedNativePoint modulus) :
    (assignRegion do
      enable (membershipGate C.d) 0
      let x ← assignAdvice 0 0 (hint.map Prod.fst)
      let y ← assignAdvice 1 0 (hint.map Prod.snd)
      return ({ x := x, y := y, inSubgroup := false } : AssignedNativePoint modulus)).allows result ↔
      ∃ q : C.Point, result = cells (unmarked q) := by
  simp only [assignRegion, bind_checks, assign_advice_checks, pure_checks, Bool.and_true,
    enable_checks, membership_gate_iff, bind_value, assign_advice_value, pure_value]
  constructor
  · rintro ⟨table, ⟨q, same⟩, read⟩
    use q
    rw [← read]
    apply AssignedNativePoint.ext
    · exact (congrArg Prod.fst same).symm
    · exact (congrArg Prod.snd same).symm
    · rfl
  · rintro ⟨q, same⟩
    use fun _ column => if column = 0 then (C.coordinates q).1 else (C.coordinates q).2
    constructor
    · exact ⟨q, rfl⟩
    · exact same.symm

theorem assign_point_allows (value : Option C.subgroup) (result : AssignedNativePoint modulus) :
    (assignPoint C value).allows result ↔ ∃ q : C.Point, result = clearedCells q := by
  unfold assignPoint
  rw [bind_allows]
  simp only [membership_region_allows]
  constructor
  · rintro ⟨root, ⟨q, rfl⟩, cleared⟩
    exact ⟨q, ((computes_clear_cofactor q).allows result).mp cleared⟩
  · rintro ⟨q, same⟩
    exact ⟨_, ⟨q, rfl⟩, ((computes_clear_cofactor q).allows result).mpr same⟩

def InSubgroup (C : EdwardsCurve (ZMod modulus)) (result : AssignedNativePoint modulus) : Prop :=
  ∃ p : C.subgroup, result = cells (MarkedPoint.ofSubgroup p)

theorem cleared_in_subgroup_iff (q : C.Point) :
    InSubgroup C (clearedCells q) ↔ (C.cofactor : ZMod C.order).val • q ∈ C.subgroup := by
  constructor
  · rintro ⟨p, same⟩
    have coordinates : C.coordinates ((C.cofactor : ZMod C.order).val • q) = C.coordinates p := by
      apply Prod.ext
      · exact congrArg AssignedNativePoint.x same
      · exact congrArg AssignedNativePoint.y same
    rw [C.coordinates_injective coordinates]
    exact p.2
  · intro mem
    exact ⟨⟨_, mem⟩, rfl⟩

theorem assign_point_in_subgroup_iff (value : Option C.subgroup) :
    Ensures (assignPoint C value) (InSubgroup C) ↔
      ∀ q : C.Point, (C.cofactor : ZMod C.order).val • q ∈ C.subgroup := by
  constructor
  · intro ensures q
    rw [← cleared_in_subgroup_iff]
    exact ensures _ ((assign_point_allows value _).mpr ⟨q, rfl⟩)
  · intro clears result allowed
    rcases (assign_point_allows value result).mp allowed with ⟨q, same⟩
    rw [same, cleared_in_subgroup_iff]
    exact clears q

theorem cofactor_clears (small : C.cofactor < C.order) (q : C.Point) :
    (C.cofactor : ZMod C.order).val • q ∈ C.subgroup := by
  rw [ZMod.val_cast_of_lt small]
  exact C.cofactor_mem q

theorem ensures_point_from_coordinates (small : C.cofactor < C.order) (x y : ZMod modulus) :
    Ensures (pointFromCoordinates C x y) (InSubgroup C) := by
  intro result allowed
  simp only [pointFromCoordinates, bind_allows, pure_allows] at allowed
  rcases allowed with ⟨point, assigned, _, _, _, _, same⟩
  rw [same]
  exact (assign_point_in_subgroup_iff _).mpr (cofactor_clears small) point assigned

end Midfall.EdwardsChip
