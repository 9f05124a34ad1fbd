import Mathlib

/-!
# Twisted Edwards curves

Curves `-x² + y² = 1 + d x² y²` where `-1` is a square and `d` is not: the
addition law is complete, for its denominators vanish at no pair of points of
the curve. A curve comes with its group, its coordinates and a subgroup of prime
order; a marked point remembers whether it is known to lie in the subgroup.
-/

namespace Midfall.EdwardsCurves

def OnCurve {F : Type} [Field F] (d : F) (point : F × F) : Prop :=
  -(point.1 * point.1) + point.2 * point.2 = 1 + d * (point.1 * point.1) * (point.2 * point.2)

/-- The addition law without its divisions. -/
structure IsSum {F : Type} [Field F] (d : F) (p q r : F × F) : Prop where
  x : r.1 * (1 + d * (p.1 * q.1 * p.2 * q.2)) = p.1 * q.2 + q.1 * p.2
  y : r.2 * (1 - d * (p.1 * q.1 * p.2 * q.2)) = p.2 * q.2 + p.1 * q.1

/-- A curve with its group of points and a subgroup of prime order. -/
structure EdwardsCurve (F : Type) [Field F] where
  Point : Type
  [group : AddCommGroup Point]
  d : F
  coordinates : Point → F × F
  fromXY : F → F → Option Point
  subgroup : AddSubgroup Point
  [decidesSubgroup : DecidablePred (· ∈ subgroup)]
  order : Nat
  cofactor : Nat
  scalarBytes : Nat
  square : IsSquare (-1 : F)
  nonsquare : ¬IsSquare d
  onCurve : ∀ p, OnCurve d (coordinates p)
  everyPoint : ∀ point, OnCurve d point → ∃ p, coordinates p = point
  fromCoordinates : ∀ p, fromXY (coordinates p).1 (coordinates p).2 = some p
  coordinatesZero : coordinates 0 = (0, 1)
  coordinatesAdd : ∀ p q, IsSum d (coordinates p) (coordinates q) (coordinates (p + q))
  orderPrime : order.Prime
  orderBytes : order ≤ 256 ^ scalarBytes
  subgroupOrder : Nat.card subgroup = order
  subgroupIndex : subgroup.index = cofactor

attribute [instance] EdwardsCurve.group EdwardsCurve.decidesSubgroup

section Denominators

variable {F : Type} [Field F] {d : F} {p q : F × F}

/-- Where a denominator vanished, `d` would be the square of a quotient. -/
theorem square_of_denominator {i sign : F} (root : -1 = i * i) (unit : sign * sign = 1)
    (first : OnCurve d p) (second : OnCurve d q)
    (vanishes : (d * (p.1 * q.1 * p.2 * q.2)) ^ 2 = 1)
    (nonzero : q.2 + sign * (d * (p.1 * q.1 * p.2 * q.2)) * i * q.1 ≠ 0) : IsSquare d := by
  have product : p.1 * p.2 ≠ 0 := by
    intro zero
    have unitZero : (d * (p.1 * q.1 * p.2 * q.2)) ^ 2 = 0 := by
      linear_combination d ^ 2 * q.1 ^ 2 * q.2 ^ 2 * p.1 * p.2 * zero
    rw [vanishes] at unitZero
    exact one_ne_zero unitZero
  have squares : (p.2 + sign * i * p.1) ^ 2 = d * ((p.1 * p.2) *
      (q.2 + sign * (d * (p.1 * q.1 * p.2 * q.2)) * i * q.1)) ^ 2 := by
    unfold OnCurve at first second
    linear_combination first - d * p.1 ^ 2 * p.2 ^ 2 * second +
      (d * p.1 ^ 2 * p.2 ^ 2 * q.1 ^ 2 - 1 - 2 * sign * i * p.1 * p.2) * vanishes +
      (p.1 ^ 2 - d * p.1 ^ 2 * p.2 ^ 2 * q.1 ^ 2 * (d * (p.1 * q.1 * p.2 * q.2)) ^ 2) *
        (i ^ 2 * unit - root)
  have divisor := mul_ne_zero product nonzero
  use (p.2 + sign * i * p.1) /
    ((p.1 * p.2) * (q.2 + sign * (d * (p.1 * q.1 * p.2 * q.2)) * i * q.1))
  rw [div_mul_div_comm, eq_div_iff (mul_ne_zero divisor divisor)]
  linear_combination -squares

section

variable (two : (2 : F) ≠ 0) (square : IsSquare (-1 : F)) (nonsquare : ¬IsSquare d)
  (first : OnCurve d p) (second : OnCurve d q)

include two square nonsquare first second

/-- Both signs cannot fail: the second point would have `y = 0`. -/
theorem denominator_square : (d * (p.1 * q.1 * p.2 * q.2)) ^ 2 ≠ 1 := by
  intro vanishes
  rcases square with ⟨i, root⟩
  by_cases plus : q.2 + 1 * (d * (p.1 * q.1 * p.2 * q.2)) * i * q.1 = 0
  · by_cases minus : q.2 + -1 * (d * (p.1 * q.1 * p.2 * q.2)) * i * q.1 = 0
    · have doubled : 2 * q.2 = 0 := by linear_combination plus + minus
      have zero : q.2 = 0 := (mul_eq_zero.mp doubled).resolve_left two
      rw [zero] at vanishes
      simp at vanishes
    · exact nonsquare (square_of_denominator root (by ring) first second vanishes minus)
  · exact nonsquare (square_of_denominator root (by ring) first second vanishes plus)

theorem denominator_plus : 1 + d * (p.1 * q.1 * p.2 * q.2) ≠ 0 := by
  intro zero
  apply denominator_square two square nonsquare first second
  linear_combination (d * (p.1 * q.1 * p.2 * q.2) - 1) * zero

theorem denominator_minus : 1 - d * (p.1 * q.1 * p.2 * q.2) ≠ 0 := by
  intro zero
  apply denominator_square two square nonsquare first second
  linear_combination -(d * (p.1 * q.1 * p.2 * q.2) + 1) * zero

end

end Denominators

namespace EdwardsCurve

variable {F : Type} [Field F] [Finite F] (C : EdwardsCurve F)

include C in
theorem two_ne_zero : (2 : F) ≠ 0 := by
  intro zero
  apply C.nonsquare
  apply FiniteField.isSquare_of_char_two
  apply CharP.ringChar_of_prime_eq_zero Nat.prime_two
  exact_mod_cast zero

theorem denominator_plus (p q : C.Point) :
    1 + C.d * ((C.coordinates p).1 * (C.coordinates q).1 * (C.coordinates p).2 *
      (C.coordinates q).2) ≠ 0 :=
  EdwardsCurves.denominator_plus C.two_ne_zero C.square C.nonsquare (C.onCurve p) (C.onCurve q)

theorem denominator_minus (p q : C.Point) :
    1 - C.d * ((C.coordinates p).1 * (C.coordinates q).1 * (C.coordinates p).2 *
      (C.coordinates q).2) ≠ 0 :=
  EdwardsCurves.denominator_minus C.two_ne_zero C.square C.nonsquare (C.onCurve p) (C.onCurve q)

theorem sum_unique (p q : C.Point) (r : F × F) :
    IsSum C.d (C.coordinates p) (C.coordinates q) r ↔ r = C.coordinates (p + q) := by
  have sum := C.coordinatesAdd p q
  constructor
  · intro other
    apply Prod.ext
    · apply mul_right_cancel₀ (C.denominator_plus p q)
      rw [other.x, sum.x]
    · apply mul_right_cancel₀ (C.denominator_minus p q)
      rw [other.y, sum.y]
  · intro same
    rw [same]
    exact sum

omit [Finite F] in
theorem coordinates_injective : Function.Injective C.coordinates := by
  intro p q same
  apply Option.some.inj
  rw [← C.fromCoordinates p, ← C.fromCoordinates q, same]

theorem coordinates_neg (p : C.Point) :
    C.coordinates (-p) = (-(C.coordinates p).1, (C.coordinates p).2) := by
  have onCurve := C.onCurve p
  unfold OnCurve at onCurve
  have mirrored : OnCurve C.d (-(C.coordinates p).1, (C.coordinates p).2) := by
    unfold OnCurve
    linear_combination onCurve
  rcases C.everyPoint _ mirrored with ⟨q, image⟩
  -- The mirrored point adds to the identity.
  have sum : IsSum C.d (C.coordinates p) (C.coordinates q) (0, 1) := by
    rw [image]
    constructor
    · ring
    · linear_combination -onCurve
  have opposite : p + q = 0 := by
    apply C.coordinates_injective
    rw [C.coordinatesZero, ← (C.sum_unique p q _).mp sum]
  rw [neg_eq_of_add_eq_zero_right opposite, image]

omit [Finite F] in
theorem cofactor_mem (p : C.Point) : C.cofactor • p ∈ C.subgroup := by
  rw [← C.subgroupIndex]
  exact C.subgroup.nsmul_index_mem p

end EdwardsCurve

/-- A point of the curve; the mark says that it is known to lie in the subgroup. -/
structure MarkedPoint {F : Type} [Field F] (C : EdwardsCurve F) where
  point : C.Point
  inSubgroup : Bool
  known : inSubgroup = true → point ∈ C.subgroup

namespace MarkedPoint

variable {F : Type} [Field F] {C : EdwardsCurve F}

theorem ext_point {p q : MarkedPoint C} (point : p.point = q.point)
    (mark : p.inSubgroup = q.inSubgroup) : p = q := by
  cases p
  cases q
  cases point
  cases mark
  rfl

def ofSubgroup (p : C.subgroup) : MarkedPoint C where
  point := p
  inSubgroup := true
  known := fun _ => p.2

def add (p q : MarkedPoint C) : MarkedPoint C where
  point := p.point + q.point
  inSubgroup := p.inSubgroup && q.inSubgroup
  known := fun marked =>
    C.subgroup.add_mem (p.known (Bool.and_elim_left marked)) (q.known (Bool.and_elim_right marked))

def neg (p : MarkedPoint C) : MarkedPoint C where
  point := -p.point
  inSubgroup := p.inSubgroup
  known := fun marked => C.subgroup.neg_mem (p.known marked)

def multiple (count : Nat) (p : MarkedPoint C) : MarkedPoint C where
  point := count • p.point
  inSubgroup := p.inSubgroup
  known := fun marked => C.subgroup.nsmul_mem (p.known marked) count

/-- `p + b q`, marked where both points are. -/
def condAdd (p q : MarkedPoint C) (b : Bool) : MarkedPoint C where
  point := if b then p.point + q.point else p.point
  inSubgroup := p.inSubgroup && q.inSubgroup
  known := by
    intro marked
    have first := p.known (Bool.and_elim_left marked)
    have second := q.known (Bool.and_elim_right marked)
    split_ifs
    · exact C.subgroup.add_mem first second
    · exact first

/-- Double and add over big-endian bits; the last bit is not doubled. -/
def doubleAndAdd (base : MarkedPoint C) : List Bool → MarkedPoint C → MarkedPoint C
  | [], acc => acc
  | [b], acc => acc.condAdd base b
  | b :: next :: rest, acc =>
    doubleAndAdd base (next :: rest) ((acc.condAdd base b).multiple 2)

def bigEndian (start : Nat) (bits : List Bool) : Nat :=
  bits.foldl (fun count b => 2 * count + b.toNat) start

theorem big_endian_reverse (bits : List Bool) :
    bigEndian 0 bits.reverse = Nat.ofDigits 2 (bits.map Bool.toNat) := by
  rw [bigEndian, List.foldl_reverse, Nat.ofDigits_eq_foldr, List.foldr_map]
  simp only [Nat.cast_id, Nat.add_comm]

theorem cond_add_multiple {acc base : MarkedPoint C} {count : Nat} (b : Bool)
    (holds : acc.point = count • base.point) :
    (acc.condAdd base b).point = (count + b.toNat) • base.point := by
  cases b <;> simp [condAdd, holds, add_nsmul]

/-- Before a row the accumulator is twice the multiple of the bits so far. -/
theorem double_and_add_point (base : MarkedPoint C) {bits : List Bool} (present : bits ≠ [])
    {acc : MarkedPoint C} {count : Nat} (holds : acc.point = (2 * count) • base.point) :
    (doubleAndAdd base bits acc).point = bigEndian count bits • base.point := by
  fun_induction doubleAndAdd base bits acc generalizing count with
  | case1 acc => exact absurd rfl present
  | case2 b acc => exact cond_add_multiple b holds
  | case3 b next rest acc ih =>
    apply ih (by simp)
    rw [mul_nsmul']
    change 2 • (acc.condAdd base b).point = 2 • ((2 * count + b.toNat) • base.point)
    rw [cond_add_multiple b holds]

theorem double_and_add_mark (base : MarkedPoint C) {bits : List Bool} (present : bits ≠ [])
    (acc : MarkedPoint C) : (doubleAndAdd base bits acc).inSubgroup =
      (acc.inSubgroup && base.inSubgroup) := by
  fun_induction doubleAndAdd base bits acc with
  | case1 acc => exact absurd rfl present
  | case2 b acc => rfl
  | case3 b next rest acc ih =>
    rw [ih (by simp)]
    simp [multiple, condAdd]

/-- The product with a little-endian scalar; without bits it is the identity. -/
def mul (bits : List Bool) (p : MarkedPoint C) : MarkedPoint C :=
  if bits = [] then ofSubgroup 0 else p.multiple (Nat.ofDigits 2 (bits.map Bool.toNat))

theorem mul_point (bits : List Bool) (p : MarkedPoint C) :
    (mul bits p).point = Nat.ofDigits 2 (bits.map Bool.toNat) • p.point := by
  unfold mul
  split_ifs with empty
  · simp [empty, ofSubgroup]
  · rfl

theorem double_and_add_mul (base : MarkedPoint C) (bits : List Bool) :
    doubleAndAdd base bits.reverse (ofSubgroup 0) = mul bits base := by
  by_cases empty : bits = []
  · rw [empty]
    rfl
  · have present : bits.reverse ≠ [] := by simpa using empty
    rw [mul, if_neg empty]
    apply ext_point
    · rw [double_and_add_point base present (by simp [ofSubgroup] : _ = (2 * 0) • base.point),
        big_endian_reverse]
      rfl
    · rw [double_and_add_mark base present]
      exact Bool.true_and _

end MarkedPoint

end Midfall.EdwardsCurves
