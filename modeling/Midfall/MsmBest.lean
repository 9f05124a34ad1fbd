import Midfall.BatchAddition
import Midfall.CurveMsm

/-!
# Multi-scalar multiplication with scheduled additions

`msm_best` of the curves crate: from some length on, the additions to affine
buckets are scheduled and done in batches, and a bucket that waits already
collects further points elsewhere.
-/

namespace Midfall.MsmBest

open BatchAddition BoothDigits BucketSums CurveMsm List
open ListLoops ProofReadOrder
open WeierstrassCurve.Affine

variable {Base : Type} [Field Base] [DecidableEq Base] {b : Base}

/-! ### Buckets -/

omit [DecidableEq Base] in
theorem nonsingular_coordinates (x y : Base) : (shortCurve b).Nonsingular x y ↔
    y ^ 2 = x ^ 3 + b ∧ (0 ≠ 3 * x ^ 2 ∨ y ≠ -y) := by
  rw [WeierstrassCurve.Affine.nonsingular_iff, WeierstrassCurve.Affine.equation_iff]
  simp [shortCurve]

instance decidableNonsingular (x y : Base) : Decidable ((shortCurve b).Nonsingular x y) :=
  decidable_of_iff _ (nonsingular_coordinates x y).symm

/-- The coordinates are unwrapped. -/
def Affine.fromPoint : (shortCurve b).Point → Option (Affine Base)
  | .zero => none
  | .some x y _ => some { x := x, y := y }

/-- `from_xy` is unwrapped. -/
def Affine.eval (b : Base) (a : Affine Base) : Option (shortCurve b).Point :=
  if nonsingular : (shortCurve b).Nonsingular a.x a.y then some (Point.some a.x a.y nonsingular)
  else none

inductive Bucket (G : Type) where
  | none
  | point (a : G)

def Bucket.addAssign {G : Type} [AddCommGroup G] (bucket : Bucket G) (point : G) (sign : Bool) :
    Bucket G :=
  match bucket with
  | Bucket.none => Bucket.point (if sign then point else -point)
  | Bucket.point a => Bucket.point (if sign then a + point else a - point)

def Bucket.add (bucket : Bucket (shortCurve b).Point) (other : BucketAffine Base) :
    Option (shortCurve b).Point :=
  match bucket, other with
  | Bucket.point this, BucketAffine.point other =>
    (Affine.eval b other).map fun other => this + other
  | Bucket.point this, BucketAffine.none => some this
  | Bucket.none, BucketAffine.point other => Affine.eval b other
  | Bucket.none, BucketAffine.none => some 0

/-! ### The schedule -/

def batchSize : Nat := 64

/-- `set` has the entries below `ptr`. -/
structure Schedule (Base : Type) where
  buckets : List (BucketAffine Base)
  set : List SchedulePoint

namespace Schedule

omit [Field Base] [DecidableEq Base] in
def new (c : Nat) : Schedule Base where
  buckets := replicate (1 <<< (c - 1)) .none
  set := []

omit [Field Base] [DecidableEq Base] in
def contains (sched : Schedule Base) (buckIdx : Nat) : Bool :=
  sched.set.any fun sch => sch.buckIdx == buckIdx

def execute (bases : List (Affine Base)) (sched : Schedule Base) : Option (Schedule Base) :=
  if sched.set.length ≠ 0 then
    (batchAdd bases sched.buckets sched.set).map fun buckets => { buckets := buckets, set := [] }
  else some sched

/-- An empty bucket takes the base at once; a full schedule is executed. -/
def add (bases : List (Affine Base)) (sched : Schedule Base) (baseIdx buckIdx : Nat) (sign : Bool) :
    Option (Schedule Base) := do
  let bucket ← sched.buckets[buckIdx]?
  let base ← bases[baseIdx]?
  let added : Schedule Base := match bucket with
    | .none => { sched with
        buckets := sched.buckets.set buckIdx (.point (if sign then base else base.neg)) }
    | .point _ => { sched with
        set := sched.set ++ [{ baseIdx := baseIdx, buckIdx := buckIdx, sign := sign }] }
  if added.set.length = batchSize then added.execute bases else some added

end Schedule

/-! ### The algorithm -/

def bestEntry (w c : Nat) (bases : List (shortCurve b).Point) (basesLocal : List (Affine Base))
    (state : List (Bucket (shortCurve b).Point) × Schedule Base) (entry : List Nat × Nat) :
    Option (List (Bucket (shortCurve b).Point) × Schedule Base) :=
  let digit := getBoothIndex w c entry.1
  if digit = 0 then some state
  else
    let sign := decide (0 < digit)
    let buckIdx := digit.natAbs - 1
    if state.2.contains buckIdx then do
      -- the bucket waits for a batch
      let base ← bases[entry.2]?
      let bucket ← state.1[buckIdx]?
      return (state.1.set buckIdx (bucket.addAssign base sign), state.2)
    else do
      let sched ← state.2.add basesLocal entry.2 buckIdx sign
      return (state.1, sched)

def sumStep (state : (shortCurve b).Point × (shortCurve b).Point)
    (entry : Bucket (shortCurve b).Point × BucketAffine Base) :
    Option ((shortCurve b).Point × (shortCurve b).Point) := do
  let sum ← entry.1.add entry.2
  let runningSum := state.1 + sum
  return (runningSum, state.2 + runningSum)

def bestWindow (c : Nat) (coeffs : List (List Nat)) (bases : List (shortCurve b).Point)
    (basesLocal : List (Affine Base)) (w : Nat) : Option (shortCurve b).Point := do
  let state ← coeffs.zipIdx.foldlM (bestEntry w c bases basesLocal)
    (replicate (1 <<< (c - 1)) Bucket.none, Schedule.new c)
  let sched ← state.2.execute basesLocal
  let sums ← (state.1.zip sched.buckets).reverse.foldlM sumStep (0, 0)
  return double^[c * w] sums.2

variable {Scalar : Type}

def msmBest (repr : ScalarRepr Scalar) (numThreads : Nat) (coeffs : List Scalar)
    (bases : List (shortCurve b).Point) : Option (shortCurve b).Point :=
  if coeffs.length ≠ bases.length then none
  else
    let c := windowSize bases.length
    if c < 10 then msmParallel repr numThreads coeffs bases
    else do
      let kept := (coeffs.zip bases).filter fun entry => decide (entry.2 ≠ 0)
      let basesLocal ← kept.mapM fun entry => Affine.fromPoint entry.2
      let numberOfWindows := repr.numBits / c + 1
      let acc ← (range numberOfWindows).mapM (bestWindow c
        (kept.map fun entry => repr.toRepr entry.1) (kept.map Prod.snd) basesLocal)
      return acc.sum

/-! ### One step of a window -/

namespace Bucket

def value : Bucket (shortCurve b).Point → (shortCurve b).Point
  | none => 0
  | point p => p

theorem add_assign_value (bucket : Bucket (shortCurve b).Point) (point : (shortCurve b).Point)
    (sign : Bool) : (bucket.addAssign point sign).value = bucket.value + signed sign point := by
  cases bucket with
  | none => exact (zero_add _).symm
  | point a =>
    cases sign with
    | true => rfl
    | false => exact sub_eq_add_neg a point

theorem add_shown (bucket : Bucket (shortCurve b).Point) {other : BucketAffine Base}
    {point : (shortCurve b).Point} (shown : Shows other point) :
    bucket.add other = some (bucket.value + point) := by
  cases other with
  | none =>
    have zero : point = 0 := shown
    rw [zero, add_zero]
    cases bucket <;> rfl
  | point a =>
    rcases shown with ⟨nonsingular, rfl⟩
    have evaluated : Affine.eval b a = some (Point.some a.x a.y nonsingular) :=
      dif_pos nonsingular
    cases bucket with
    | none => exact evaluated.trans (congrArg some (zero_add _).symm)
    | point this =>
      show Option.map _ (Affine.eval b a) = _
      rw [evaluated]
      rfl

end Bucket

/-! ### The schedule keeps the points -/

section Schedule

variable (basesLocal : List (Affine Base)) (basePoints : Nat → (shortCurve b).Point)

/-- Additions to different buckets wait; with them bucket `i` holds `points i`. -/
structure Scheduled (sched : Schedule Base) (points : Nat → (shortCurve b).Point) : Prop where
  distinct : (sched.set.map (·.buckIdx)).Nodup
  waiting : ∀ point ∈ sched.set, Waiting basesLocal basePoints sched.buckets point
  shown : ∃ bucketPoints, BucketsShow sched.buckets bucketPoints ∧
    ∀ i, points i = bucketPoints i + pendingAt basePoints sched.set i

variable {basesLocal basePoints}

theorem scheduled_new (c : Nat) : Scheduled basesLocal basePoints (Schedule.new c) 0 where
  distinct := nodup_nil
  waiting := fun _ mem => absurd mem not_mem_nil
  shown := by
    refine ⟨0, ?_, fun _ => (add_zero _).symm⟩
    intro i bucket found
    have empty := eq_of_mem_replicate (mem_of_getElem? found)
    rw [empty]
    rfl

omit [Field Base] [DecidableEq Base] in
theorem not_contained {sched : Schedule Base} {buckIdx : Nat}
    (free : sched.contains buckIdx = false) : ∀ point ∈ sched.set, point.buckIdx ≠ buckIdx := by
  intro point mem same
  have taken := any_eq_false.mp free point mem
  exact taken (beq_iff_eq.mpr same)

section Execute

variable (noOrderTwo : ∀ P : (shortCurve b).Point, P + P = 0 → P = 0)

variable {points : Nat → (shortCurve b).Point} {sched : Schedule Base}

include noOrderTwo in
theorem execute_eq (scheduled : Scheduled basesLocal basePoints sched points) :
    ∃ final, sched.execute basesLocal = some final ∧ final.set = [] ∧
      final.buckets.length = sched.buckets.length ∧ BucketsShow final.buckets points := by
  rcases scheduled.shown with ⟨bucketPoints, shown, total⟩
  have same : points = fun i => bucketPoints i + pendingAt basePoints sched.set i := funext total
  unfold Schedule.execute
  by_cases empty : sched.set.length ≠ 0
  · rcases batch_add_eq noOrderTwo scheduled.distinct scheduled.waiting shown with
      ⟨buckets, added, length, after⟩
    refine ⟨{ buckets := buckets, set := [] }, ?_, rfl, length, same ▸ after⟩
    rw [if_pos empty, added, Option.map_some]
  · have none := length_eq_zero_iff.mp (not_not.mp empty)
    refine ⟨sched, if_neg empty, none, rfl, ?_⟩
    intro i bucket found
    rw [total i, none, pendingAt, add_zero]
    exact shown i bucket found

include noOrderTwo in
theorem flush_scheduled (scheduled : Scheduled basesLocal basePoints sched points)
    (room : sched.set.length ≤ batchSize) :
    ∃ next, (if sched.set.length = batchSize then sched.execute basesLocal else some sched) =
        some next ∧ next.buckets.length = sched.buckets.length ∧ next.set.length < batchSize ∧
      Scheduled basesLocal basePoints next points := by
  by_cases full : sched.set.length = batchSize
  · rcases execute_eq noOrderTwo scheduled with ⟨final, executed, empty, length, shown⟩
    refine ⟨final, (if_pos full).trans executed, length, ?_, ?_⟩
    · rw [empty]
      decide
    · refine ⟨?_, ?_, points, shown, ?_⟩
      · rw [empty]
        exact nodup_nil
      · rw [empty]
        exact fun _ mem => absurd mem not_mem_nil
      · intro i
        rw [empty]
        exact (add_zero _).symm
  · exact ⟨sched, if_neg full, rfl, lt_of_le_of_ne room full, scheduled⟩

include noOrderTwo in
theorem schedule_add_eq (scheduled : Scheduled basesLocal basePoints sched points)
    (room : sched.set.length < batchSize) {baseIdx buckIdx : Nat}
    (free : sched.contains buckIdx = false) (inside : buckIdx < sched.buckets.length)
    {base : Affine Base} (inBases : basesLocal[baseIdx]? = some base)
    (baseShown : Shows (.point base) (basePoints baseIdx)) (sign : Bool) :
    ∃ next, sched.add basesLocal baseIdx buckIdx sign = some next ∧
      next.buckets.length = sched.buckets.length ∧ next.set.length < batchSize ∧
      Scheduled basesLocal basePoints next (fun i =>
        points i + if buckIdx = i then signed sign (basePoints baseIdx) else 0) := by
  rcases scheduled.shown with ⟨bucketPoints, shown, total⟩
  have others := not_contained free
  have found := getElem?_eq_getElem inside
  unfold Schedule.add
  cases kind : sched.buckets[buckIdx] with
  | none =>
    rw [kind] at found
    have empty : bucketPoints buckIdx = 0 := shown buckIdx _ found
    have assigned : (if sign then base else base.neg) = signedAffine base sign := by
      cases sign <;> rfl
    have next : Scheduled basesLocal basePoints
        { sched with buckets := sched.buckets.set buckIdx (.point (signedAffine base sign)) }
        (fun i => points i + if buckIdx = i then signed sign (basePoints baseIdx) else 0) := by
      refine ⟨scheduled.distinct, ?_, _,
        shown.set buckIdx (signed_shows sign baseShown), ?_⟩
      · exact fun point mem => (scheduled.waiting point mem).kept (others point mem) _
      · intro i
        rw [total i]
        by_cases here : buckIdx = i
        · subst here
          rw [if_pos rfl, Function.update_self, empty, zero_add, add_comm]
        · rw [if_neg here, add_zero, Function.update_of_ne (Ne.symm here)]
    rcases flush_scheduled noOrderTwo next room.le with ⟨after, flushed, length, left, result⟩
    refine ⟨after, ?_, length.trans length_set, left, result⟩
    simp only [found, inBases, some_bind, assigned]
    exact flushed
  | point current =>
    rw [kind] at found
    have next : Scheduled basesLocal basePoints
        { sched with set := sched.set ++ [{ baseIdx := baseIdx, buckIdx := buckIdx, sign := sign }] }
        (fun i => points i + if buckIdx = i then signed sign (basePoints baseIdx) else 0) := by
      refine ⟨?_, ?_, bucketPoints, shown, ?_⟩
      · rw [map_append, nodup_append]
        refine ⟨scheduled.distinct, nodup_singleton _, ?_⟩
        intro first firstMember second secondMember same
        rcases mem_map.mp firstMember with ⟨point, mem, rfl⟩
        rw [map_singleton, mem_singleton] at secondMember
        exact others point mem (same.trans secondMember)
      · intro point mem
        rcases mem_append.mp mem with before | added
        · exact scheduled.waiting point before
        · rw [mem_singleton.mp added]
          exact ⟨⟨current, found⟩, ⟨base, inBases, baseShown⟩⟩
      · intro i
        rw [pending_append, total i, add_assoc]
    have room : (sched.set ++
        [({ baseIdx := baseIdx, buckIdx := buckIdx, sign := sign } : SchedulePoint)]).length ≤
          batchSize := by
      rw [length_append]
      exact room
    rcases flush_scheduled noOrderTwo next room with ⟨after, flushed, length, left, result⟩
    refine ⟨after, ?_, length, left, result⟩
    simp only [found, inBases, some_bind]
    exact flushed

end Execute

end Schedule

/-! ### One window -/

def LocalBases (bases : List (shortCurve b).Point) (basesLocal : List (Affine Base)) : Prop :=
  ∀ i < bases.length, ∃ base, basesLocal[i]? = some base ∧ Shows (.point base) (bases.getD i 0)

structure Progress (c : Nat) (bases : List (shortCurve b).Point) (basesLocal : List (Affine Base))
    (state : List (Bucket (shortCurve b).Point) × Schedule Base) (total : (shortCurve b).Point) :
    Prop where
  jLength : state.1.length = 2 ^ (c - 1)
  aLength : state.2.buckets.length = 2 ^ (c - 1)
  room : state.2.set.length < batchSize
  buckets : ∃ points, Scheduled basesLocal (fun i => bases.getD i 0) state.2 points ∧
    weighted (2 ^ (c - 1)) (fun i => (state.1.map Bucket.value).getD i 0 + points i) = total

theorem progress_new (c : Nat) (bases : List (shortCurve b).Point)
    (basesLocal : List (Affine Base)) :
    Progress c bases basesLocal (replicate (1 <<< (c - 1)) Bucket.none, Schedule.new c) 0 where
  jLength := by rw [length_replicate, Nat.one_shiftLeft]
  aLength := by
    show (replicate (1 <<< (c - 1)) _).length = _
    rw [length_replicate, Nat.one_shiftLeft]
  room := show 0 < batchSize by decide
  buckets := by
    refine ⟨0, scheduled_new c, ?_⟩
    have empty : (fun i => ((replicate (1 <<< (c - 1))
        (Bucket.none : Bucket (shortCurve b).Point)).map Bucket.value).getD i 0 +
          (0 : Nat → (shortCurve b).Point) i) = fun _ => 0 := by
      funext i
      rw [map_replicate, getD_eq_getElem?_getD, getElem?_replicate]
      split_ifs <;> exact add_zero _
    rw [empty, weighted_zero]

theorem digit_smul {digit : Int} (nonzero : digit ≠ 0) (point : (shortCurve b).Point) :
    (digit.natAbs - 1 + 1) • signed (decide (0 < digit)) point = digit • point := by
  have place : digit.natAbs - 1 + 1 = digit.natAbs := by omega
  rw [place]
  by_cases pos : 0 < digit
  · have value : (digit.natAbs : Int) = digit := by omega
    rw [decide_eq_true pos, ← natCast_zsmul, value]
    rfl
  · have value : (digit.natAbs : Int) = -digit := by omega
    rw [decide_eq_false pos, ← natCast_zsmul, value]
    exact (smul_neg _ _).trans (by rw [neg_smul, neg_neg])

section Window

variable (noOrderTwo : ∀ P : (shortCurve b).Point, P + P = 0 → P = 0)
  {bases : List (shortCurve b).Point} {basesLocal : List (Affine Base)}
  (localBases : LocalBases bases basesLocal)

variable {state : List (Bucket (shortCurve b).Point) × Schedule Base} {total : (shortCurve b).Point}

include noOrderTwo localBases in
/-- A digit adds its multiple of the base, on one of the two ways. -/
theorem best_entry_progress {w c : Nat} (progress : Progress c bases basesLocal state total)
    {entry : List Nat × Nat} (inBases : entry.2 < bases.length)
    (bound : (getBoothIndex w c entry.1).natAbs ≤ 2 ^ (c - 1)) :
    ∃ next, bestEntry w c bases basesLocal state entry = some next ∧
      Progress c bases basesLocal next
        (total + getBoothIndex w c entry.1 • bases.getD entry.2 0) := by
  rcases progress.buckets with ⟨points, scheduled, sum⟩
  unfold bestEntry
  generalize getBoothIndex w c entry.1 = digit at bound ⊢
  dsimp only
  by_cases zero : digit = 0
  · refine ⟨state, if_pos zero, ?_⟩
    rw [zero, zero_smul, add_zero]
    exact progress
  · have inside : digit.natAbs - 1 < 2 ^ (c - 1) := by omega
    rw [if_neg zero, ← digit_smul zero]
    generalize digit.natAbs - 1 = place at inside
    generalize decide (0 < digit) = sign
    cases taken : state.2.contains place with
    | true =>
      have inBuckets : place < state.1.length := progress.jLength.symm ▸ inside
      refine ⟨(state.1.set place (state.1[place].addAssign bases[entry.2] sign), state.2), ?_,
        length_set.trans progress.jLength, progress.aLength, progress.room,
        points, scheduled, ?_⟩
      · simp only [if_true, getElem?_eq_getElem inBases, getElem?_eq_getElem inBuckets, some_bind]
        rfl
      · rw [← sum]
        apply weighted_grow inside
        · rw [map_set, getD_eq_getElem _ _ (by simpa using inBuckets),
            getD_eq_getElem _ _ (by simpa using inBuckets), getElem_set_self,
            getElem_map, Bucket.add_assign_value, getD_eq_getElem _ _ inBases,
            add_right_comm]
        · intro i other
          rw [map_set, getD_eq_getElem?_getD, getD_eq_getElem?_getD,
            getElem?_set_ne (Ne.symm other)]
    | false =>
      rcases localBases entry.2 inBases with ⟨base, found, shown⟩
      rcases schedule_add_eq noOrderTwo scheduled progress.room taken
        (progress.aLength.symm ▸ inside) found shown sign with
          ⟨sched, added, length, room, after⟩
      refine ⟨(state.1, sched), ?_, progress.jLength, length.trans progress.aLength, room, _,
        after, ?_⟩
      · simp only [Bool.false_eq_true, if_false, added, some_bind]
        rfl
      · rw [← sum]
        apply weighted_grow inside
        · rw [if_pos rfl, add_assoc]
        · intro i other
          rw [if_neg (Ne.symm other), add_zero]

include noOrderTwo localBases in
theorem best_entries_progress {w c : Nat} {entries : List (List Nat × Nat)}
    (inBases : ∀ entry ∈ entries, entry.2 < bases.length)
    (bounds : ∀ entry ∈ entries, (getBoothIndex w c entry.1).natAbs ≤ 2 ^ (c - 1))
    (progress : Progress c bases basesLocal state total) :
    ∃ final, entries.foldlM (bestEntry w c bases basesLocal) state = some final ∧
      Progress c bases basesLocal final (total + (entries.map fun entry =>
        getBoothIndex w c entry.1 • bases.getD entry.2 0).sum) := by
  induction entries generalizing state total with
  | nil => exact ⟨state, rfl, by rwa [map_nil, sum_nil, add_zero]⟩
  | cons entry entries ih =>
    rw [forall_mem_cons] at inBases bounds
    rcases best_entry_progress noOrderTwo localBases progress inBases.1 bounds.1 with
      ⟨next, step, after⟩
    rcases ih inBases.2 bounds.2 after with ⟨final, run, result⟩
    refine ⟨final, ?_, ?_⟩
    · rw [foldlM_cons, step]
      exact run
    · rw [map_cons, sum_cons, ← add_assoc]
      exact result

theorem sum_steps {entries : List (Bucket (shortCurve b).Point × BucketAffine Base)}
    (adds : ∀ entry ∈ entries, ∃ sum, entry.1.add entry.2 = some sum)
    (state : (shortCurve b).Point × (shortCurve b).Point) :
    entries.foldlM sumStep state =
      some ((entries.map fun entry => (entry.1.add entry.2).getD 0).foldl addRunning state) := by
  induction entries generalizing state with
  | nil => rfl
  | cons entry entries ih =>
    rw [forall_mem_cons] at adds
    rcases adds.1 with ⟨sum, added⟩
    have step : sumStep state entry = some (addRunning state sum) := by
      unfold sumStep
      rw [added]
      rfl
    rw [foldlM_cons, step, map_cons, foldl_cons, added]
    exact ih adds.2 (addRunning state sum)

include noOrderTwo localBases in
theorem best_window_eq {w c : Nat} {coeffs : List (List Nat)} (same : coeffs.length = bases.length)
    (bounds : ∀ coeff ∈ coeffs, (getBoothIndex w c coeff).natAbs ≤ 2 ^ (c - 1)) :
    bestWindow c coeffs bases basesLocal w = some (2 ^ (c * w) • (coeffs.zipIdx.map fun entry =>
      getBoothIndex w c entry.1 • bases.getD entry.2 0).sum) := by
  have indices : ∀ entry ∈ coeffs.zipIdx, entry.2 < bases.length := by
    intro entry mem
    rw [← same]
    simpa using snd_lt_of_mem_zipIdx mem
  have digits : ∀ entry ∈ coeffs.zipIdx, (getBoothIndex w c entry.1).natAbs ≤ 2 ^ (c - 1) :=
    fun entry mem => bounds entry.1 (fst_mem_of_mem_zipIdx mem)
  rcases best_entries_progress noOrderTwo localBases indices digits
    (progress_new c bases basesLocal) with ⟨state, run, progress⟩
  rw [zero_add] at progress
  rcases progress.buckets with ⟨points, scheduled, total⟩
  rcases execute_eq noOrderTwo scheduled with ⟨final, executed, -, length, shown⟩
  have aLength := length.trans progress.aLength
  have adds : ∀ entry ∈ (state.1.zip final.buckets).reverse,
      ∃ sum, entry.1.add entry.2 = some sum := by
    intro entry mem
    rcases mem_iff_getElem?.mp (mem_reverse.mp mem) with ⟨i, found⟩
    rcases getElem?_zip_eq_some.mp found with ⟨-, other⟩
    exact ⟨_, entry.1.add_shown (shown i _ other)⟩
  have count : (state.1.zip final.buckets).length = 2 ^ (c - 1) := by
    rw [length_zip, progress.jLength, aLength, Nat.min_self]
  have values : weighted (2 ^ (c - 1)) (fun i => ((state.1.zip final.buckets).map fun entry =>
      (entry.1.add entry.2).getD 0).getD i 0) =
        weighted (2 ^ (c - 1)) (fun i => (state.1.map Bucket.value).getD i 0 + points i) := by
    apply Finset.sum_congr rfl
    intro i mem
    have inside := Finset.mem_range.mp mem
    have first : i < state.1.length := progress.jLength.symm ▸ inside
    have second : i < final.buckets.length := aLength.symm ▸ inside
    dsimp only
    rw [getD_eq_getElem _ _ (by rw [length_map, count]; exact inside), getElem_map, getElem_zip,
      getD_eq_getElem _ _ (by rw [length_map]; exact first), getElem_map]
    dsimp only
    rw [Bucket.add_shown _ (shown i _ (getElem?_eq_getElem second)), Option.getD_some]
  unfold bestWindow
  simp only [run, executed, sum_steps adds, some_bind]
  show some _ = some _
  rw [map_reverse, fold_running, length_map, count, values, total, double_iterate]
  dsimp only
  rw [smul_zero, add_zero, zero_add]

end Window

/-! ### All windows -/

section Best

variable {Scalar : Type} (repr : ScalarRepr Scalar)

omit [DecidableEq Base] in
theorem local_bases_of_kept {kept : List (Scalar × (shortCurve b).Point)}
    (points : ∀ entry ∈ kept, entry.2 ≠ 0) :
    ∃ basesLocal, (kept.mapM fun entry => Affine.fromPoint entry.2) = some basesLocal ∧
      LocalBases (kept.map Prod.snd) basesLocal := by
  have coordinates : ∀ point : (shortCurve b).Point, point ≠ 0 →
      ∃ base, Affine.fromPoint point = some base ∧ Shows (.point base) point := by
    intro point nonzero
    cases point with
    | zero => exact absurd rfl nonzero
    | some x y nonsingular => exact ⟨_, rfl, nonsingular, rfl⟩
  let unwrap : Scalar × (shortCurve b).Point → Affine Base :=
    fun entry => (Affine.fromPoint entry.2).getD { x := 0, y := 0 }
  have returned : ∀ entry ∈ kept, Affine.fromPoint entry.2 = some (unwrap entry) := by
    intro entry mem
    rcases coordinates entry.2 (points entry mem) with ⟨base, found, -⟩
    exact found.trans (congrArg some (by simp [unwrap, found]))
  refine ⟨kept.map unwrap, map_m_of_forall kept returned, ?_⟩
  intro i inside
  rw [length_map] at inside
  refine ⟨unwrap kept[i], by rw [getElem?_map, getElem?_eq_getElem inside]; rfl, ?_⟩
  rw [getD_eq_getElem _ _ (by rwa [length_map]), getElem_map]
  have mem := getElem_mem inside
  rcases coordinates kept[i].2 (points _ mem) with ⟨base, found, shown⟩
  rw [returned _ mem] at found
  rw [Option.some.inj found]
  exact shown

theorem kept_sum (coeffs : List Scalar) (bases : List (shortCurve b).Point) :
    (((coeffs.zip bases).filter fun entry => decide (entry.2 ≠ 0)).map fun entry =>
      repr.value entry.1 • entry.2).sum = msmSum repr coeffs bases := by
  unfold msmSum
  induction coeffs.zip bases with
  | nil => rfl
  | cons entry entries ih =>
    by_cases identity : entry.2 = 0
    · rw [filter_cons_of_neg (by simpa using identity), map_cons, sum_cons,
        identity, smul_zero, zero_add, ih]
    · rw [filter_cons_of_pos (by simpa using identity), map_cons, sum_cons,
        map_cons, sum_cons, ih]

theorem indexed_sum {w c : Nat} (kept : List (Scalar × (shortCurve b).Point)) :
    ((kept.map fun entry => repr.toRepr entry.1).zipIdx.map fun entry =>
        getBoothIndex w c entry.1 • (kept.map Prod.snd).getD entry.2 0).sum =
      (kept.map fun entry => getBoothIndex w c (repr.toRepr entry.1) • entry.2).sum := by
  congr 1
  apply ext_getElem
  · rw [length_map, length_zipIdx, length_map, length_map]
  · intro i _ inside
    rw [length_map] at inside
    rw [getElem_map, getElem_map, getElem_zipIdx, getElem_map]
    dsimp only
    rw [Nat.zero_add, getD_eq_getElem _ _ (by rwa [length_map]), getElem_map]

theorem msm_best_eq (noOrderTwo : ∀ P : (shortCurve b).Point, P + P = 0 → P = 0)
    (numThreads : Nat) {coeffs : List Scalar} {bases : List (shortCurve b).Point}
    (same : coeffs.length = bases.length) (wide : ¬windowSize bases.length < 10) :
    msmBest repr numThreads coeffs bases = some (msmSum repr coeffs bases) := by
  unfold msmBest
  rw [if_neg (not_not.mpr same)]
  dsimp only
  rw [if_neg wide]
  have pos : 0 < windowSize bases.length := by omega
  have fits : windowSize bases.length ≤ 24 := (window_size_le _).trans (by omega)
  generalize windowSize bases.length = c at pos fits
  rw [← kept_sum repr coeffs bases]
  have points : ∀ entry ∈ (coeffs.zip bases).filter fun entry => decide (entry.2 ≠ 0),
      entry.2 ≠ 0 := fun entry mem => of_decide_eq_true (mem_filter.mp mem).2
  generalize (coeffs.zip bases).filter (fun entry => decide (entry.2 ≠ 0)) = kept at points
  rcases local_bases_of_kept points with ⟨basesLocal, unwrapped, localBases⟩
  have window : ∀ w, bestWindow c (kept.map fun entry => repr.toRepr entry.1) (kept.map Prod.snd)
      basesLocal w = some (2 ^ (c * w) • (kept.map fun entry =>
        getBoothIndex w c (repr.toRepr entry.1) • entry.2).sum) := by
    intro w
    rw [← indexed_sum]
    apply best_window_eq noOrderTwo localBases
    · rw [length_map, length_map]
    · intro coeff mem
      rcases mem_map.mp mem with ⟨entry, -, rfl⟩
      rw [digit_of_scalar repr pos fits]
      exact booth_digit_bound pos _ _
  have windows := map_m_of_forall (range (repr.numBits / c + 1)) fun w _ => window w
  have enough : ∀ entry ∈ kept, 2 * repr.value entry.1 < 2 ^ (c * (repr.numBits / c + 1)) :=
    fun entry _ => recombines_within (repr.bounded entry.1) pos
  simp only [unwrapped, some_bind]
  rw [show (range (repr.numBits / c + 1)).mapM _ = _ from windows]
  show some _ = some _
  rw [← windows_sum repr pos fits enough, Finset.sum_eq_multiset_sum, Finset.range_val,
    ← Multiset.coe_range, Multiset.map_coe, Multiset.sum_coe]

/-! ### The three algorithms -/

structure ReturnsSum (numThreads : Nat) (coeffs : List Scalar) (bases : List (shortCurve b).Point) :
    Prop where
  serial : msmSerial repr coeffs bases 0 = some (msmSum repr coeffs bases)
  parallel : msmParallel repr numThreads coeffs bases = some (msmSum repr coeffs bases)
  best : msmBest repr numThreads coeffs bases = some (msmSum repr coeffs bases)

def DigitsRecombine (scalar : Scalar) : Prop :=
  ∀ len bits, windowSize len ≠ 0 → repr.value scalar < 2 ^ bits →
    ∑ w ∈ Finset.range (bits / windowSize len + 1), 2 ^ (windowSize len * w) *
      getBoothIndex w (windowSize len) (repr.toRepr scalar) = repr.value scalar

theorem digits_recombine (scalar : Scalar) : DigitsRecombine repr scalar := by
  intro len bits window below
  have pos := Nat.pos_of_ne_zero window
  have fits : windowSize len ≤ 24 := (window_size_le len).trans (by omega)
  simp only [digit_of_scalar repr pos fits]
  exact booth_digits_recombine (recombines_within below pos)

theorem never_inverts_zero (noOrderTwo : ∀ P : (shortCurve b).Point, P + P = 0 → P = 0)
    {basesLocal : List (Affine Base)} {basePoints : Nat → (shortCurve b).Point}
    {sched : Schedule Base} {points : Nat → (shortCurve b).Point}
    (scheduled : Scheduled basesLocal basePoints sched points) :
    ∃ passed, forwardPass basesLocal sched.set (sched.buckets, 1) = some passed ∧
      passed.1.2 ≠ 0 := by
  rcases scheduled.shown with ⟨bucketPoints, shown, -⟩
  rcases passes_add noOrderTwo scheduled.distinct scheduled.waiting shown one_ne_zero with
    ⟨middle, product, entries, -, passed, invertible, -⟩
  exact ⟨((middle, product), entries), passed, invertible⟩

theorem returns_sum_iff (noOrderTwo : ∀ P : (shortCurve b).Point, P + P = 0 → P = 0)
    {numThreads : Nat} (threads : 0 < numThreads) {coeffs : List Scalar}
    {bases : List (shortCurve b).Point} (same : coeffs.length = bases.length) :
    ReturnsSum repr numThreads coeffs bases ↔
      WindowAvailable repr coeffs bases ∧ ParallelAvailable repr numThreads coeffs bases := by
  have serial := msm_serial_eq repr coeffs bases
  have parallel := msm_parallel_eq repr threads same
  constructor
  · rintro ⟨serialReturns, parallelReturns, -⟩
    constructor
    · by_contra missing
      rw [serial.2 missing] at serialReturns
      cases serialReturns
    · by_contra missing
      rw [parallel.2 missing] at parallelReturns
      cases parallelReturns
  · rintro ⟨available, parallelAvailable⟩
    refine ⟨serial.1 available, parallel.1 parallelAvailable, ?_⟩
    by_cases narrow : windowSize bases.length < 10
    · unfold msmBest
      rw [if_neg (not_not.mpr same)]
      dsimp only
      rw [if_pos narrow]
      exact parallel.1 parallelAvailable
    · exact msm_best_eq repr noOrderTwo numThreads same narrow

/-- Exactly the lengths with a window are summed; the digits and batches are always right. -/
theorem multi_scalar_multiplication
    (noOrderTwo : ∀ P : (shortCurve b).Point, P + P = 0 → P = 0) {numThreads : Nat}
    (threads : 0 < numThreads) {coeffs : List Scalar} {bases : List (shortCurve b).Point}
    (same : coeffs.length = bases.length) :
    (ReturnsSum repr numThreads coeffs bases ↔
      WindowAvailable repr coeffs bases ∧ ParallelAvailable repr numThreads coeffs bases) ∧
    (∀ scalar, DigitsRecombine repr scalar) ∧
    (∀ basesLocal basePoints sched points,
      @Scheduled _ _ _ b basesLocal basePoints sched points →
        ∃ passed, forwardPass basesLocal sched.set (sched.buckets, 1) = some passed ∧
          passed.1.2 ≠ 0) :=
  ⟨returns_sum_iff repr noOrderTwo threads same, digits_recombine repr,
    fun _ _ _ _ scheduled => never_inverts_zero noOrderTwo scheduled⟩

end Best

/-! ### A curve with thirteen points -/

section Small

def smallRepr : ScalarRepr (ZMod 13) where
  numBits := 4
  value := ZMod.val
  toRepr scalar := [scalar.val]
  littleEndian _ := by simp [Nat.ofDigits]
  bytes := by decide
  bounded := by decide

instance primeSeven : Fact (Nat.Prime 7) := ⟨by decide⟩

theorem small_no_order_two (P : (shortCurve (3 : ZMod 7)).Point) (zero : P + P = 0) : P = 0 := by
  cases P with
  | zero => rfl
  | some x y nonsingular =>
    exfalso
    have opposite : y = (shortCurve (3 : ZMod 7)).negY x y := by
      by_contra differ
      rw [Point.add_self_of_Y_ne differ] at zero
      exact Point.some_ne_zero _ zero
    rw [neg_y_eq] at opposite
    have equation := ((nonsingular_coordinates x y).mp nonsingular).1
    revert x y
    decide

def smallPoint : (shortCurve (3 : ZMod 7)).Point :=
  Point.some 1 ((2 : Nat) : ZMod 7) ((nonsingular_coordinates 1 _).mpr (by decide))

/-- Enough terms for the windows that are summed side by side. -/
theorem nine_thousand_terms : windowSize 9000 = 10 ∧
    ReturnsSum smallRepr 2 (replicate 9000 5) (replicate 9000 smallPoint) := by
  refine ⟨by decide, (multi_scalar_multiplication smallRepr small_no_order_two Nat.two_pos ?_).1.mpr ⟨?_, ?_⟩⟩
  · rw [length_replicate, length_replicate]
  · left
    rw [length_replicate]
    decide
  · unfold ParallelAvailable
    rw [length_replicate, if_pos (by decide)]
    intro block mem
    have short := mem_chunks_length (of_mem_zip mem).2
    left
    omega

theorem no_window {len : Nat} (long : 32 ≤ len) (cast : len % 2 ^ 32 < 2) :
    ¬WindowAvailable smallRepr (replicate len 1) (replicate len smallPoint) := by
  unfold WindowAvailable
  rw [length_replicate]
  rintro (window | zeros)
  · exact window ⟨long, cast⟩
  · have one := zeros 1 (mem_replicate.mpr ⟨by omega, rfl⟩)
    exact absurd one (by decide)

theorem long_sum_fails : ¬ReturnsSum smallRepr 1 (replicate (2 ^ 32) 1)
    (replicate (2 ^ 32) smallPoint) := by
  intro returns
  have serial := returns.serial
  rw [(msm_serial_eq smallRepr _ _).2 (no_window (by norm_num) (by norm_num))] at serial
  cases serial

end Small

end Midfall.MsmBest
