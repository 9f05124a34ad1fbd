import Midfall.EdwardsChipSubgroup

/-!
# The group law of the native Edwards chip

Over every curve the instructions yield the results of the group law, with marks
that only subgroup points carry. An assigned point is in the subgroup where the
cofactor is below the order; a larger cofactor is reduced and may clear nothing.
-/

namespace Midfall.EdwardsChip

open CircuitPrograms EdwardsCurves NativeGadget RegionPrograms

section GroupLaw

variable {modulus : Nat} [Fact modulus.Prime]

def scalarValue (bits : List Bool) : Nat := Nat.ofDigits 2 (bits.map Bool.toNat)

/-- The prover's result is the cells of a point, with a correct mark, and no other is allowed. -/
def Yields (C : EdwardsCurve (ZMod modulus)) (circuit : Circuit (AssignedNativePoint modulus))
    (point : C.Point) : Prop :=
  ∃ result : MarkedPoint C, result.point = point ∧ Computes circuit (cells result)

theorem edwards_group_law (C : EdwardsCurve (ZMod modulus)) :
    (∀ p q : MarkedPoint C, Yields C (add C (cells p) (cells q)) (p.point + q.point)) ∧
    (∀ p : MarkedPoint C, Yields C (double C (cells p)) (2 • p.point)) ∧
    (∀ p : MarkedPoint C, Yields C (negate (cells p)) (-p.point)) ∧
    (∀ (bits : List Bool) (p : MarkedPoint C),
      Yields C (mul C (bits.map bit) (cells p)) (scalarValue bits • p.point)) ∧
    (∀ (scalars : List (List Bool)) (bases : List (MarkedPoint C)), scalars.zip bases ≠ [] →
      Yields C (msm C (scalars.map fun bits => bits.map bit) (bases.map cells))
        ((scalars.zip bases).map fun entry => scalarValue entry.1 • entry.2.point).sum) ∧
    (∀ (scalar : ZMod C.order) (p : MarkedPoint C),
      Yields C (mulByConstant C scalar (cells p)) (scalar.val • p.point)) ∧
    (C.cofactor < C.order → ∀ value, Ensures (assignPoint C value) (InSubgroup C)) ∧
    (C.cofactor < C.order → ∀ x y, Ensures (pointFromCoordinates C x y) (InSubgroup C)) := by
  constructor
  · intro p q
    exact ⟨p.add q, rfl, computes_add_points p q⟩
  constructor
  · intro p
    exact ⟨p.add p, (two_nsmul p.point).symm, computes_add_points p p⟩
  constructor
  · intro p
    exact ⟨p.neg, rfl, computes_negate p⟩
  constructor
  · intro bits p
    exact ⟨MarkedPoint.mul bits p, MarkedPoint.mul_point bits p, computes_mul bits p⟩
  constructor
  · intro scalars bases present
    exact ⟨MarkedPoint.combination (scalars.zip bases), MarkedPoint.combination_point _,
      computes_msm scalars bases present⟩
  constructor
  · intro scalar p
    exact ⟨MarkedPoint.scale scalar p, rfl, computes_mul_by_constant scalar p⟩
  constructor
  · intro small value
    exact (assign_point_in_subgroup_iff value).mpr (cofactor_clears small)
  · intro small x y
    exact ensures_point_from_coordinates small x y

end GroupLaw

instance {F : Type} [Field F] [DecidableEq F] (d : F) (point : F × F) :
    Decidable (OnCurve d point) :=
  inferInstanceAs (Decidable (_ = _))

instance {F : Type} [Field F] [DecidableEq F] (d : F) (p q r : F × F) :
    Decidable (IsSum d p q r) :=
  decidable_of_iff
    (r.1 * (1 + d * (p.1 * q.1 * p.2 * q.2)) = p.1 * q.2 + q.1 * p.2 ∧
      r.2 * (1 - d * (p.1 * q.1 * p.2 * q.2)) = p.2 * q.2 + p.1 * q.1)
    ⟨fun both => ⟨both.1, both.2⟩, fun sum => ⟨sum.x, sum.y⟩⟩

local instance thirteenPrime : Fact (Nat.Prime 13) := ⟨by decide⟩

/-- The coordinates of the multiples of a generator, from the identity on. -/
def tableCoordinates {size : Nat} (table : List (ZMod 13 × ZMod 13)) (p : ZMod size) :
    ZMod 13 × ZMod 13 :=
  table.getD p.val (0, 1)

def tableLookup {size : Nat} (table : List (ZMod 13 × ZMod 13)) (x y : ZMod 13) :
    Option (ZMod size) :=
  (table.findIdx? (· = (x, y))).map fun i => (i : ZMod size)

theorem cyclic_subgroup {size order cofactor : Nat} (pos : size ≠ 0)
    (product : order * cofactor = size) :
    Nat.card (AddSubgroup.zmultiples (cofactor : ZMod size)) = order ∧
      (AddSubgroup.zmultiples (cofactor : ZMod size)).index = cofactor := by
  have cofactorPos : 0 < cofactor := by
    apply Nat.pos_of_ne_zero
    intro zero
    rw [zero, Nat.mul_zero] at product
    exact pos product.symm
  have orderPos : 0 < order := by
    apply Nat.pos_of_ne_zero
    intro zero
    rw [zero, Nat.zero_mul] at product
    exact pos product.symm
  have card : Nat.card (AddSubgroup.zmultiples (cofactor : ZMod size)) = order := by
    rw [Nat.card_zmultiples, ZMod.addOrderOf_coe cofactor pos, ← product,
      Nat.gcd_mul_left_left, Nat.mul_div_cancel _ cofactorPos]
  constructor
  · exact card
  · have total := (AddSubgroup.zmultiples (cofactor : ZMod size)).card_mul_index
    rw [card, Nat.card_zmod] at total
    apply Nat.eq_of_mul_eq_mul_left orderPos
    rw [total, product]

theorem mem_cyclic_subgroup {size cofactor : Nat} [NeZero size] (p : ZMod size) :
    (∃ count : ZMod size, count * cofactor = p) ↔
      p ∈ AddSubgroup.zmultiples (cofactor : ZMod size) := by
  rw [AddSubgroup.mem_zmultiples_iff]
  constructor
  · rintro ⟨count, same⟩
    use count.val
    rw [← same]
    simp
  · rintro ⟨count, same⟩
    use count
    rw [← same, zsmul_eq_mul]

/-- A table that lists a cyclic group of points. -/
structure CyclicTable (size order cofactor : Nat) (d : ZMod 13)
    (table : List (ZMod 13 × ZMod 13)) : Prop where
  nonsquare : ¬IsSquare d
  onCurve : ∀ p : ZMod size, OnCurve d (tableCoordinates table p)
  everyPoint : ∀ point, OnCurve d point → ∃ p : ZMod size, tableCoordinates table p = point
  lookup : ∀ p : ZMod size,
    tableLookup table (tableCoordinates table p).1 (tableCoordinates table p).2 = some p
  zero : tableCoordinates table (0 : ZMod size) = (0, 1)
  add : ∀ p q : ZMod size, IsSum d (tableCoordinates table p) (tableCoordinates table q)
    (tableCoordinates table (p + q))
  prime : order.Prime
  bytes : order ≤ 256 ^ 1
  product : order * cofactor = size

def tableCurve {size order cofactor : Nat} [NeZero size] {d : ZMod 13}
    {table : List (ZMod 13 × ZMod 13)} (lists : CyclicTable size order cofactor d table) :
    EdwardsCurve (ZMod 13) where
  Point := ZMod size
  group := inferInstance
  d := d
  coordinates := tableCoordinates table
  fromXY := tableLookup table
  subgroup := AddSubgroup.zmultiples (cofactor : ZMod size)
  decidesSubgroup := fun p => decidable_of_iff _ (mem_cyclic_subgroup p)
  order := order
  cofactor := cofactor
  scalarBytes := 1
  square := ⟨5, by decide⟩
  nonsquare := lists.nonsquare
  onCurve := lists.onCurve
  everyPoint := lists.everyPoint
  fromCoordinates := lists.lookup
  coordinatesZero := lists.zero
  coordinatesAdd := lists.add
  orderPrime := lists.prime
  orderBytes := lists.bytes
  subgroupOrder := (cyclic_subgroup (NeZero.ne size) lists.product).1
  subgroupIndex := (cyclic_subgroup (NeZero.ne size) lists.product).2

theorem twenty_points : CyclicTable 20 5 4 6 [(0, 1), (1, 6), (10, 4), (7, 2), (4, 8), (5, 0),
    (4, 5), (7, 11), (10, 9), (1, 7), (0, 12), (12, 7), (3, 9), (6, 11), (9, 5), (8, 0), (9, 8),
    (6, 2), (3, 4), (12, 6)] := by
  constructor <;> decide +kernel

theorem twelve_points : CyclicTable 12 3 4 7 [(0, 1), (1, 2), (10, 8), (5, 0), (10, 5), (1, 11),
    (0, 12), (12, 11), (3, 5), (8, 0), (3, 8), (12, 2)] := by
  constructor <;> decide +kernel

/-- The law at a curve whose cofactor is below the order, with the sum of two products. -/
theorem edwards_group_law_twenty_points :
    Yields (tableCurve twenty_points)
      (msm (tableCurve twenty_points) ([[true], [false, true]].map fun bits => bits.map bit)
        ([unmarked (C := tableCurve twenty_points) (3 : ZMod 20),
          unmarked (C := tableCurve twenty_points) (4 : ZMod 20)].map cells))
      ((([[true], [false, true]].zip
        [unmarked (C := tableCurve twenty_points) (3 : ZMod 20),
          unmarked (C := tableCurve twenty_points) (4 : ZMod 20)]).map fun entry =>
            scalarValue entry.1 • entry.2.point).sum) ∧
      Ensures (assignPoint (tableCurve twenty_points) (some 0))
        (InSubgroup (tableCurve twenty_points)) :=
  ⟨(edwards_group_law (tableCurve twenty_points)).2.2.2.2.1 _ _ (by simp),
    (edwards_group_law (tableCurve twenty_points)).2.2.2.2.2.2.1 (by decide) _⟩

/-- A larger cofactor is reduced to one, so that a point outside of the subgroup is assigned as if
it was inside; and a sum of no products is a panic. -/
theorem larger_cofactor_not_cleared :
    ¬Ensures (assignPoint (tableCurve twelve_points) (some 0))
        (InSubgroup (tableCurve twelve_points)) ∧
      (msm (tableCurve twelve_points) [] []).honest = none := by
  constructor
  · rw [assign_point_in_subgroup_iff]
    intro clears
    have outside : ¬(1 : ZMod 12) ∈ AddSubgroup.zmultiples ((4 : Nat) : ZMod 12) := by
      rw [← mem_cyclic_subgroup]
      decide
    exact outside (clears (1 : ZMod 12))
  · rfl

end Midfall.EdwardsChip
