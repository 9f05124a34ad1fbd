import Mathlib
import Midfall.ListLoops

/-!
# Batch addition of affine points

`batch_add` of the curves crate on curves `y² = x³ + b`: the slopes of all
additions share one inversion. A bucket shows a point; after the two passes each
bucket shows its point plus the pending one.
-/

namespace Midfall.BatchAddition

open WeierstrassCurve.Affine List

variable {Base : Type} [Field Base] [DecidableEq Base]

/-- The doubling formula assumes that `a` is zero. -/
def shortCurve (b : Base) : WeierstrassCurve.Affine Base := ⟨0, 0, 0, 0, b⟩

structure Affine (Base : Type) where
  x : Base
  y : Base

omit [DecidableEq Base] in
def Affine.neg (a : Affine Base) : Affine Base := { x := a.x, y := -a.y }

inductive BucketAffine (Base : Type) where
  | none
  | point (a : Affine Base)

structure SchedulePoint where
  baseIdx : Nat
  buckIdx : Nat
  sign : Bool

/-- Numerator and denominator of the slope; nothing for a point and its negative. -/
def slopeParts (bucket base : Affine Base) (sign : Bool) : Option (Base × Base) :=
  if bucket.x = base.x then
    if xor (decide (bucket.y = base.y)) (!sign) then
      let xSquared := base.x * base.x
      some (xSquared + xSquared + xSquared, bucket.y + bucket.y)
    else none
  else if sign then some (bucket.y - base.y, bucket.x - base.x)
  else some (bucket.y + base.y, bucket.x - base.x)

/-- `t` and `z` of one point; points that cancel empty the bucket at once. -/
def forwardStep (bases : List (Affine Base)) (state : List (BucketAffine Base) × Base)
    (point : SchedulePoint) : Option ((List (BucketAffine Base) × Base) × Base × Base) := do
  let bucket ← state.1[point.buckIdx]?
  match bucket with
  | .none => some (state, 0, 0)
  | .point current => do
    let base ← bases[point.baseIdx]?
    match slopeParts current base point.sign with
    | some (num, z) => some ((state.1, state.2 * z), state.2 * num, z)
    | none => some ((state.1.set point.buckIdx .none, state.2), 0, 0)

def forwardPass (bases : List (Affine Base)) : List SchedulePoint →
    List (BucketAffine Base) × Base →
      Option ((List (BucketAffine Base) × Base) × List (Base × Base))
  | [], state => some (state, [])
  | point :: points, state => do
    let first ← forwardStep bases state point
    let rest ← forwardPass bases points first.1
    return (rest.1, first.2 :: rest.2)

omit [DecidableEq Base] in
def sumWithSlope (bucket base : Affine Base) (sign : Bool) (lambda : Base) : Affine Base :=
  let x := lambda * lambda - (bucket.x + base.x)
  { x := x
    y := if sign then lambda * (base.x - x) - base.y else lambda * (base.x - x) + base.y }

def backwardStep (bases : List (Affine Base)) (state : List (BucketAffine Base) × Base)
    (entry : SchedulePoint × Base × Base) : Option (List (BucketAffine Base) × Base) := do
  let bucket ← state.1[entry.1.buckIdx]?
  match bucket with
  | .none => some state
  | .point current => do
    let base ← bases[entry.1.baseIdx]?
    let lambda := state.2 * entry.2.1
    some (state.1.set entry.1.buckIdx (.point (sumWithSlope current base entry.1.sign lambda)),
      state.2 * entry.2.2)

/-- Inverting zero panics. -/
def batchAdd (bases : List (Affine Base)) (buckets : List (BucketAffine Base))
    (points : List SchedulePoint) : Option (List (BucketAffine Base)) := do
  let passed ← forwardPass bases points (buckets, 1)
  if passed.1.2 = 0 then none
  else do
    let final ← (points.zip passed.2).reverse.foldlM (backwardStep bases)
      (passed.1.1, passed.1.2⁻¹)
    return final.1

section Points

variable {b : Base}

def Shows (bucket : BucketAffine Base) (point : (shortCurve b).Point) : Prop :=
  match bucket with
  | .none => point = 0
  | .point a => ∃ nonsingular : (shortCurve b).Nonsingular a.x a.y,
      point = Point.some a.x a.y nonsingular

def signed (sign : Bool) (point : (shortCurve b).Point) : (shortCurve b).Point :=
  if sign then point else -point

omit [DecidableEq Base] in
theorem neg_y_eq (x y : Base) : (shortCurve b).negY x y = -y := by
  simp [shortCurve]

omit [DecidableEq Base] in
theorem shows_some {x y : Base} (nonsingular : (shortCurve b).Nonsingular x y) {a : Affine Base}
    (sameX : a.x = x) (sameY : a.y = y) : Shows (.point a) (Point.some x y nonsingular) := by
  subst sameX sameY
  exact ⟨nonsingular, rfl⟩

def signedAffine (base : Affine Base) (sign : Bool) : Affine Base where
  x := base.x
  y := if sign then base.y else -base.y

omit [DecidableEq Base] in
theorem signed_shows {base : Affine Base} {point : (shortCurve b).Point} (sign : Bool)
    (shown : Shows (.point base) point) :
    Shows (.point (signedAffine base sign)) (signed sign point) := by
  rcases shown with ⟨nonsingular, rfl⟩
  cases sign with
  | true => exact shows_some nonsingular rfl rfl
  | false => exact shows_some ((nonsingular_neg _ _).mpr nonsingular) rfl (neg_y_eq _ _).symm

variable {P Q : (shortCurve b).Point} {first second : Affine Base}

theorem sum_shows (firstShown : Shows (.point first) P) (secondShown : Shows (.point second) Q)
    (differ : ¬(second.x = first.x ∧ second.y = -first.y)) {lambda : Base}
    (slope : lambda = (shortCurve b).slope second.x first.x second.y first.y) :
    Shows (.point (sumWithSlope first second true lambda)) (P + Q) := by
  rcases firstShown with ⟨firstNonsingular, rfl⟩
  rcases secondShown with ⟨secondNonsingular, rfl⟩
  rw [← @neg_y_eq _ _ b first.x first.y] at differ
  rw [add_comm (Point.some first.x first.y firstNonsingular), Point.add_some differ]
  apply shows_some
  · rw [← slope]
    simp only [addX, shortCurve, sumWithSlope]
    ring
  · rw [← slope]
    simp only [addY, negAddY, addX, negY, shortCurve, sumWithSlope, if_true]
    ring

theorem same_x (firstShown : Shows (.point first) P) (secondShown : Shows (.point second) Q)
    (sameX : first.x = second.x) :
    (first.y = second.y ∧ P = Q) ∨ (first.y = -second.y ∧ P + Q = 0) := by
  rcases firstShown with ⟨firstNonsingular, rfl⟩
  rcases secondShown with ⟨secondNonsingular, rfl⟩
  rcases Y_eq_of_X_eq firstNonsingular.1 secondNonsingular.1 sameX with same | opposite
  · refine Or.inl ⟨same, ?_⟩
    simp [sameX, same]
  · exact Or.inr ⟨opposite.trans (neg_y_eq _ _), Point.add_of_Y_eq sameX opposite⟩

theorem y_double_ne_zero (noOrderTwo : ∀ P : (shortCurve b).Point, P + P = 0 → P = 0)
    {a : Affine Base} {P : (shortCurve b).Point} (shown : Shows (.point a) P) : a.y + a.y ≠ 0 := by
  rcases shown with ⟨nonsingular, rfl⟩
  intro zero
  have opposite : a.y = (shortCurve b).negY a.x a.y := by
    rw [neg_y_eq]
    exact eq_neg_of_add_eq_zero_left zero
  exact Point.some_ne_zero nonsingular (noOrderTwo _ (Point.add_self_of_Y_eq opposite))

/-- What the slope says about the sum of the bucket and the signed base. -/
theorem slope_parts_sum (noOrderTwo : ∀ P : (shortCurve b).Point, P + P = 0 → P = 0)
    {current base : Affine Base} (sign : Bool) (currentShown : Shows (.point current) P)
    (baseShown : Shows (.point base) Q) :
    match slopeParts current base sign with
    | none => P + signed sign Q = 0
    | some (num, z) => z ≠ 0 ∧ ∀ lambda, lambda = num * z⁻¹ →
        Shows (.point (sumWithSlope current base sign lambda)) (P + signed sign Q) := by
  have signedShown := signed_shows sign baseShown
  have result : ∀ lambda : Base, sumWithSlope current base sign lambda =
      sumWithSlope current (signedAffine base sign) true lambda := by
    intro lambda
    cases sign with
    | true => rfl
    | false =>
      simp only [sumWithSlope, signedAffine, Bool.false_eq_true, if_false, if_true, sub_neg_eq_add]
  unfold slopeParts
  by_cases sameX : current.x = base.x
  · rw [if_pos sameX]
    have doubled := y_double_ne_zero noOrderTwo currentShown
    have signedX : current.x = (signedAffine base sign).x := sameX
    by_cases tangent : xor (decide (current.y = base.y)) (!sign) = true
    · rw [if_pos tangent]
      refine ⟨doubled, ?_⟩
      intro lambda slope
      have same : current.y = (signedAffine base sign).y := by
        rcases same_x currentShown signedShown signedX with ⟨same, -⟩ | ⟨opposite, -⟩
        · exact same
        · cases sign with
          | true => simpa [signedAffine] using tangent
          | false =>
            have negated : current.y = base.y := by simpa [signedAffine] using opposite
            simp [negated] at tangent
      rw [result lambda]
      apply sum_shows currentShown signedShown
      · rintro ⟨-, opposite⟩
        apply doubled
        nth_rewrite 1 [same]
        rw [opposite, neg_add_cancel]
      · rw [slope_of_Y_ne signedX.symm, slope, neg_y_eq, ← same, ← signedX]
        · simp only [shortCurve, sameX]
          rw [div_eq_mul_inv, sub_neg_eq_add]
          congr 1
          ring
        · rw [neg_y_eq, ← same]
          intro opposite
          exact doubled (by nth_rewrite 1 [opposite]; exact neg_add_cancel _)
    · rw [if_neg tangent]
      show P + signed sign Q = 0
      rcases same_x currentShown signedShown signedX with ⟨same, -⟩ | ⟨-, cancels⟩
      · exfalso
        cases sign with
        | true =>
          have equal : current.y = base.y := same
          simp [equal] at tangent
        | false =>
          have negated : current.y = -base.y := same
          have equal : current.y = base.y := by simpa using tangent
          apply doubled
          nth_rewrite 1 [equal]
          rw [negated, add_neg_cancel]
      · exact cancels
  · rw [if_neg sameX]
    have nonzero : current.x - base.x ≠ 0 := sub_ne_zero.mpr sameX
    have chord : ∀ lambda, lambda =
        (current.y - (signedAffine base sign).y) * (current.x - base.x)⁻¹ →
          Shows (.point (sumWithSlope current base sign lambda)) (P + signed sign Q) := by
      intro lambda slope
      rw [result lambda]
      apply sum_shows currentShown signedShown
      · exact fun both => sameX both.1.symm
      · have differ : (signedAffine base sign).x ≠ current.x := fun same => sameX same.symm
        rw [slope_of_X_ne differ, slope, ← div_eq_mul_inv, ← neg_div_neg_eq, neg_sub, neg_sub]
        rfl
    cases sign with
    | true => exact ⟨nonzero, chord⟩
    | false =>
      refine ⟨nonzero, fun lambda slope => chord lambda ?_⟩
      rw [slope]
      simp [signedAffine]

def BucketsShow (buckets : List (BucketAffine Base)) (points : Nat → (shortCurve b).Point) : Prop :=
  ∀ i bucket, buckets[i]? = some bucket → Shows bucket (points i)

def pendingAt (basePoints : Nat → (shortCurve b).Point) :
    List SchedulePoint → Nat → (shortCurve b).Point
  | [], _ => 0
  | point :: points, i =>
    (if point.buckIdx = i then signed point.sign (basePoints point.baseIdx) else 0) +
      pendingAt basePoints points i

theorem pending_absent {basePoints : Nat → (shortCurve b).Point} {points : List SchedulePoint}
    {i : Nat} (absent : i ∉ points.map (·.buckIdx)) : pendingAt basePoints points i = 0 := by
  induction points with
  | nil => rfl
  | cons point points ih =>
    rw [map_cons, mem_cons, not_or] at absent
    rw [pendingAt, if_neg (Ne.symm absent.1), ih absent.2, add_zero]

theorem pending_append (basePoints : Nat → (shortCurve b).Point) (points : List SchedulePoint)
    (point : SchedulePoint) (i : Nat) :
    pendingAt basePoints (points ++ [point]) i = pendingAt basePoints points i +
      if point.buckIdx = i then signed point.sign (basePoints point.baseIdx) else 0 := by
  induction points with
  | nil => exact (add_zero _).trans (zero_add _).symm
  | cons first points ih => rw [cons_append, pendingAt, ih, pendingAt, add_assoc]

/-- An addition that waits: its bucket is taken and its base is known. -/
structure Waiting (bases : List (Affine Base)) (basePoints : Nat → (shortCurve b).Point)
    (buckets : List (BucketAffine Base)) (point : SchedulePoint) : Prop where
  bucket : ∃ current, buckets[point.buckIdx]? = some (.point current)
  base : ∃ base, bases[point.baseIdx]? = some base ∧
    Shows (.point base) (basePoints point.baseIdx)

omit [DecidableEq Base] in
theorem Waiting.kept {bases : List (Affine Base)} {basePoints : Nat → (shortCurve b).Point}
    {buckets : List (BucketAffine Base)} {point : SchedulePoint}
    (waiting : Waiting bases basePoints buckets point) {place : Nat} (other : point.buckIdx ≠ place)
    (bucket : BucketAffine Base) : Waiting bases basePoints (buckets.set place bucket) point where
  bucket := by
    rcases waiting.bucket with ⟨current, found⟩
    exact ⟨current, (getElem?_set_ne (Ne.symm other)).trans found⟩
  base := waiting.base

omit [DecidableEq Base] in
theorem BucketsShow.set {buckets : List (BucketAffine Base)} {points : Nat → (shortCurve b).Point}
    (shown : BucketsShow buckets points) (place : Nat) {bucket : BucketAffine Base}
    {point : (shortCurve b).Point} (holds : Shows bucket point) :
    BucketsShow (buckets.set place bucket) (Function.update points place point) := by
  intro i other found
  by_cases same : i = place
  · subst same
    rw [Function.update_self]
    rw [getElem?_set_self'] at found
    cases inside : buckets[i]? with
    | none =>
      rw [inside] at found
      cases found
    | some before =>
      rw [inside] at found
      rw [← Option.some.inj found]
      exact holds
  · rw [Function.update_of_ne same]
    rw [getElem?_set_ne (Ne.symm same)] at found
    exact shown i other found

omit b in
theorem forward_step_eq {bases : List (Affine Base)} {buckets : List (BucketAffine Base)}
    {point : SchedulePoint} {current base : Affine Base}
    (inBucket : buckets[point.buckIdx]? = some (.point current))
    (inBases : bases[point.baseIdx]? = some base) (acc : Base) :
    forwardStep bases (buckets, acc) point =
      match slopeParts current base point.sign with
      | some (num, z) => some ((buckets, acc * z), acc * num, z)
      | none => some ((buckets.set point.buckIdx .none, acc), 0, 0) := by
  unfold forwardStep
  simp only [inBucket, inBases, some_bind]

/-- Both passes return, and each bucket gets its pending point. -/
def PassesAdd (bases : List (Affine Base)) (basePoints : Nat → (shortCurve b).Point)
    (points : List SchedulePoint) (buckets : List (BucketAffine Base))
    (bucketPoints : Nat → (shortCurve b).Point) (acc : Base) : Prop :=
  ∃ middle product entries final,
    forwardPass bases points (buckets, acc) = some ((middle, product), entries) ∧
    product ≠ 0 ∧
    (points.zip entries).reverse.foldlM (backwardStep bases) (middle, product⁻¹) =
      some (final, acc⁻¹) ∧
    final.length = buckets.length ∧
    BucketsShow final (fun i => bucketPoints i + pendingAt basePoints points i)

section Step

variable {bases : List (Affine Base)} {basePoints : Nat → (shortCurve b).Point}
  {point : SchedulePoint} {points : List SchedulePoint} {buckets : List (BucketAffine Base)}
  {bucketPoints : Nat → (shortCurve b).Point} {current base : Affine Base} {acc : Base}

section

variable (alone : pendingAt basePoints points point.buckIdx = 0)
  (inBucket : buckets[point.buckIdx]? = some (.point current))

include alone inBucket

theorem passes_cancelled (inBases : bases[point.baseIdx]? = some base)
    (parts : slopeParts current base point.sign = none)
    (cancels : bucketPoints point.buckIdx + signed point.sign (basePoints point.baseIdx) = 0)
    (rest : PassesAdd bases basePoints points (buckets.set point.buckIdx .none)
      (Function.update bucketPoints point.buckIdx 0) acc) :
    PassesAdd bases basePoints (point :: points) buckets bucketPoints acc := by
  rcases rest with ⟨middle, product, entries, final, passed, invertible, back, length, shown⟩
  rw [length_set] at length
  have first := forward_step_eq inBucket inBases acc
  rw [parts] at first
  have inside : point.buckIdx < final.length := by
    rw [length]
    exact (List.getElem?_eq_some_iff.mp inBucket).1
  have emptied : final[point.buckIdx]? = some .none := by
    have found := getElem?_eq_getElem inside
    have holds := shown point.buckIdx _ found
    dsimp only at holds
    rw [Function.update_self, alone, add_zero] at holds
    rw [found]
    cases kind : final[point.buckIdx] with
    | none => rfl
    | point a =>
      rw [kind] at holds
      rcases holds with ⟨nonsingular, zero⟩
      exact absurd zero.symm (Point.some_ne_zero nonsingular)
  refine ⟨middle, product, (0, 0) :: entries, final, ?_, invertible, ?_, length, ?_⟩
  · rw [forwardPass, first]
    show (do let rest ← forwardPass bases points (buckets.set point.buckIdx .none, acc); _) = _
    rw [passed]
    rfl
  · rw [zip_cons_cons, reverse_cons, foldlM_append, back]
    show (backwardStep bases (final, acc⁻¹) (point, 0, 0) >>= pure) = some (final, acc⁻¹)
    unfold backwardStep
    simp only [emptied, some_bind]
    rfl
  · intro i bucket found
    have holds := shown i bucket found
    dsimp only at holds ⊢
    by_cases here : i = point.buckIdx
    · subst here
      rw [Function.update_self, zero_add] at holds
      rw [pendingAt, if_pos rfl, ← add_assoc, cancels, zero_add]
      exact holds
    · rw [Function.update_of_ne here] at holds
      rw [pendingAt, if_neg (Ne.symm here), zero_add]
      exact holds

theorem passes_sloped (currentShown : Shows (.point current) (bucketPoints point.buckIdx))
    (inBases : bases[point.baseIdx]? = some base) {num z : Base}
    (parts : slopeParts current base point.sign = some (num, z)) (nonzero : acc ≠ 0)
    (zNonzero : z ≠ 0) (sum : ∀ lambda, lambda = num * z⁻¹ →
      Shows (.point (sumWithSlope current base point.sign lambda))
        (bucketPoints point.buckIdx + signed point.sign (basePoints point.baseIdx)))
    (rest : PassesAdd bases basePoints points buckets bucketPoints (acc * z)) :
    PassesAdd bases basePoints (point :: points) buckets bucketPoints acc := by
  rcases rest with ⟨middle, product, entries, final, passed, invertible, back, length, shown⟩
  have first := forward_step_eq inBucket inBases acc
  rw [parts] at first
  have inside : point.buckIdx < final.length := by
    rw [length]
    exact (List.getElem?_eq_some_iff.mp inBucket).1
  have kept : final[point.buckIdx]? = some (.point current) := by
    have found := getElem?_eq_getElem inside
    have holds := shown point.buckIdx _ found
    dsimp only at holds
    rw [alone, add_zero] at holds
    rw [found]
    rcases currentShown with ⟨nonsingular, same⟩
    rw [same] at holds
    cases kind : final[point.buckIdx] with
    | none =>
      rw [kind] at holds
      exact absurd holds (Point.some_ne_zero nonsingular)
    | point a =>
      rw [kind] at holds
      rcases holds with ⟨_, equal⟩
      injection equal with sameX sameY
      cases current
      cases a
      dsimp only at sameX sameY
      rw [sameX, sameY]
  have lambda : (acc * z)⁻¹ * (acc * num) = num * z⁻¹ := by
    field_simp
  have restored : (acc * z)⁻¹ * z = acc⁻¹ := by
    field_simp
  have newShown := shown.set point.buckIdx (sum ((acc * z)⁻¹ * (acc * num)) lambda)
  refine ⟨middle, product, (acc * num, z) :: entries, final.set point.buckIdx (.point
    (sumWithSlope current base point.sign ((acc * z)⁻¹ * (acc * num)))), ?_, invertible, ?_,
    length_set.trans length, fun i bucket found => ?_⟩
  · rw [forwardPass, first]
    show (do let rest ← forwardPass bases points (buckets, acc * z); _) = _
    rw [passed]
    rfl
  · rw [zip_cons_cons, reverse_cons, foldlM_append, back]
    show (backwardStep bases (final, (acc * z)⁻¹) (point, acc * num, z) >>= pure) = _
    unfold backwardStep
    simp only [kept, inBases, some_bind, restored]
    rfl
  · have holds := newShown i bucket found
    dsimp only
    by_cases here : i = point.buckIdx
    · subst here
      rw [Function.update_self] at holds
      rw [pendingAt, if_pos rfl, alone, add_zero]
      exact holds
    · rw [Function.update_of_ne here] at holds
      rw [pendingAt, if_neg (Ne.symm here), zero_add]
      exact holds

end

end Step

section

variable (noOrderTwo : ∀ P : (shortCurve b).Point, P + P = 0 → P = 0) {bases : List (Affine Base)}
  {basePoints : Nat → (shortCurve b).Point} {points : List SchedulePoint}
  (distinct : (points.map (·.buckIdx)).Nodup) {buckets : List (BucketAffine Base)}
  {bucketPoints : Nat → (shortCurve b).Point}
  (waiting : ∀ point ∈ points, Waiting bases basePoints buckets point)
  (shown : BucketsShow buckets bucketPoints)

include noOrderTwo distinct waiting shown

/-- Both passes over points in different buckets, from any running product. -/
theorem passes_add {acc : Base} (nonzero : acc ≠ 0) :
    PassesAdd bases basePoints points buckets bucketPoints acc := by
  induction points generalizing buckets bucketPoints acc with
  | nil =>
    refine ⟨buckets, acc, [], buckets, rfl, nonzero, rfl, rfl, ?_⟩
    intro i bucket found
    simpa [pendingAt] using shown i bucket found
  | cons point points ih =>
    rw [map_cons, nodup_cons] at distinct
    rcases waiting point mem_cons_self with ⟨⟨current, inBucket⟩, ⟨base, inBases, baseShown⟩⟩
    have others : ∀ other ∈ points, other.buckIdx ≠ point.buckIdx := by
      intro other mem same
      exact distinct.1 (same ▸ mem_map_of_mem mem)
    have alone : pendingAt basePoints points point.buckIdx = 0 := pending_absent distinct.1
    have currentShown : Shows (.point current) (bucketPoints point.buckIdx) :=
      shown point.buckIdx _ inBucket
    have later : ∀ other ∈ points, Waiting bases basePoints buckets other := (forall_mem_cons.mp waiting).2
    have sum := slope_parts_sum noOrderTwo point.sign currentShown baseShown
    cases parts : slopeParts current base point.sign with
    | none =>
      rw [parts] at sum
      have emptied : BucketsShow (buckets.set point.buckIdx .none)
          (Function.update bucketPoints point.buckIdx 0) :=
        @BucketsShow.set _ _ _ _ _ shown point.buckIdx .none 0 rfl
      exact passes_cancelled alone inBucket inBases parts sum
        (ih distinct.2 (fun other mem =>
          (later other mem).kept (others other mem) .none) emptied nonzero)
    | some numZ =>
      rw [parts] at sum
      exact passes_sloped alone inBucket currentShown inBases parts nonzero sum.1 sum.2
        (ih distinct.2 later shown (mul_ne_zero nonzero sum.1))

theorem batch_add_eq :
    ∃ final, batchAdd bases buckets points = some final ∧ final.length = buckets.length ∧
      BucketsShow final (fun i => bucketPoints i + pendingAt basePoints points i) := by
  rcases passes_add noOrderTwo distinct waiting shown one_ne_zero with
    ⟨middle, product, entries, final, passed, invertible, back, length, finalShown⟩
  refine ⟨final, ?_, length, finalShown⟩
  unfold batchAdd
  rw [passed]
  show (if product = 0 then none else _) = some final
  rw [if_neg invertible]
  show (do let final ← (points.zip entries).reverse.foldlM (backwardStep bases) (middle, product⁻¹); _) = _
  rw [back]
  rfl

end

end Points

end Midfall.BatchAddition
