import Midfall.BigUintArithmetic

/-!
# Products and quotients of big unsigned integers

A product accumulates digits that are not reduced; its bounds depend on the
bounds of the operands alone and decide whether the normalization overflows.
Operands with agreeing cells are squared, which is right when the integers
agree as well.
-/

namespace Midfall.BigUint

open CircuitPrograms NativeGadget NativeDecomposition List
open CellPrograms ProofReadOrder
open ListLoops (forall₂_mem_left)

/-- The bound at a position after a product is added to its limb. -/
def grow (bounds : List Nat) (position bound : Nat) : List Nat :=
  bounds.set position (boundOfAddition (bounds.getD position 0) bound)

def rowBounds (extra : Nat) (x : Nat × Nat) (ys : List (Nat × Nat)) (bounds : List Nat) : List Nat :=
  ys.foldl (fun bounds y => grow bounds (x.2 + y.2) (extra + x.1 + y.1)) bounds

def productBounds (xs ys : List Nat) : List Nat :=
  xs.zipIdx.foldl (fun bounds x => rowBounds 0 x ys.zipIdx bounds)
    (replicate (xs.length + ys.length - 1) 0)

def squareBounds (xs : List Nat) : List Nat :=
  xs.zipIdx.foldl (fun bounds x =>
    rowBounds 1 x (xs.zipIdx.drop (x.2 + 1)) (grow bounds (2 * x.2) (2 * x.1)))
      (replicate (2 * xs.length - 1) 0)

theorem grow_length (bounds : List Nat) (position bound : Nat) :
    (grow bounds position bound).length = bounds.length := length_set

theorem row_length (extra : Nat) (x : Nat × Nat) (ys : List (Nat × Nat)) (bounds : List Nat) :
    (rowBounds extra x ys bounds).length = bounds.length := by
  unfold rowBounds
  induction ys generalizing bounds with
  | nil => rfl
  | cons y ys ih => rw [foldl_cons, ih, grow_length]

variable {bounds : List Nat}

theorem reaches_grow {position bound : Nat} (last : position + 1 = bounds.length)
    (pos : 0 < bound) :
    Reaches (grow bounds position bound) := by
  rcases eq_nil_or_concat bounds with empty | ⟨before, old, split⟩
  · rw [empty, length_nil] at last
    omega
  · rw [concat_eq_append] at split
    rw [split, length_append, length_singleton] at last
    have place : position = before.length := by omega
    have grown : grow bounds position bound =
        before ++ [boundOfAddition (bounds.getD position 0) bound] := by
      unfold grow
      rw [split, place, set_append_right _ _ (le_refl _), Nat.sub_self]
      rfl
    rw [grown]
    exact reaches_last (lt_of_lt_of_le pos (bound_of_addition_le _ _).2.1)

theorem zip_idx_last {xs : List Nat} (present : xs ≠ []) :
    ∃ before last, xs.zipIdx = before ++ [(last, xs.length - 1)] ∧ last ∈ xs.getLast? := by
  rcases eq_nil_or_concat xs with empty | ⟨before, last, split⟩
  · exact absurd empty present
  · rw [concat_eq_append] at split
    refine ⟨before.zipIdx, last, ?_, by rw [split, getLast?_concat]; rfl⟩
    rw [split, zipIdx_append, length_append, length_singleton, Nat.zero_add, Nat.add_sub_cancel]
    rfl

theorem row_concat (extra : Nat) (x last : Nat × Nat) (before : List (Nat × Nat))
    (bounds : List Nat) : rowBounds extra x (before ++ [last]) bounds =
      grow (rowBounds extra x before bounds) (x.2 + last.2) (extra + x.1 + last.1) := by
  unfold rowBounds
  rw [foldl_append]
  rfl

theorem fold_length {step : List Nat → Nat × Nat → List Nat}
    (keeps : ∀ bounds x, (step bounds x).length = bounds.length) (xs : List (Nat × Nat))
    (bounds : List Nat) : (xs.foldl step bounds).length = bounds.length := by
  induction xs generalizing bounds with
  | nil => rfl
  | cons x xs ih => rw [foldl_cons, ih, keeps]

theorem reaches_product {xs ys : List Nat} (first : xs ≠ []) (second : ys ≠ [])
    (pos : ∀ last ∈ xs.getLast?, 0 < last) : Reaches (productBounds xs ys) := by
  rcases zip_idx_last first with ⟨before, last, split, isLast⟩
  rcases zip_idx_last second with ⟨others, other, splitOther, -⟩
  have firstLength := length_pos_iff.mpr first
  have secondLength := length_pos_iff.mpr second
  have length := fold_length (fun bounds x => row_length 0 x ys.zipIdx bounds) before
    (replicate (xs.length + ys.length - 1) 0)
  rw [length_replicate] at length
  unfold productBounds
  rw [split, foldl_append, foldl_cons, foldl_nil]
  generalize before.foldl (fun bounds x => rowBounds 0 x ys.zipIdx bounds)
    (replicate (xs.length + ys.length - 1) 0) = bounds at length ⊢
  rw [splitOther, row_concat]
  have lastPositive := pos last isLast
  refine reaches_grow ?_ (by omega)
  rw [row_length, length]
  dsimp only
  omega

theorem reaches_square {xs : List Nat} (present : xs ≠ [])
    (pos : ∀ last ∈ xs.getLast?, 0 < last) : Reaches (squareBounds xs) := by
  rcases zip_idx_last present with ⟨before, last, split, isLast⟩
  have firstLength := length_pos_iff.mpr present
  have keeps : ∀ (bounds : List Nat) (x : Nat × Nat), (rowBounds 1 x (xs.zipIdx.drop (x.2 + 1))
      (grow bounds (2 * x.2) (2 * x.1))).length = bounds.length := by
    intro bounds x
    rw [row_length, grow_length]
  have length := fold_length keeps before (replicate (2 * xs.length - 1) 0)
  rw [length_replicate] at length
  have none : xs.zipIdx.drop (xs.length - 1 + 1) = [] := by
    rw [drop_eq_nil_iff, length_zipIdx]
    omega
  have folded : ∀ step : List Nat → Nat × Nat → List Nat,
      xs.zipIdx.foldl step (replicate (2 * xs.length - 1) 0) =
        step (before.foldl step (replicate (2 * xs.length - 1) 0)) (last, xs.length - 1) := by
    intro step
    rw [split, foldl_append]
    rfl
  have lastPositive := pos last isLast
  unfold squareBounds
  rw [folded]
  dsimp only
  rw [none]
  refine reaches_grow ?_ (by omega)
  rw [length]
  omega

variable {modulus : Nat} [Fact modulus.Prime] {cells : List (ZMod modulus)}

/-- A product in progress: digits within its bounds that add up to a total. -/
structure Accumulates (cells : List (ZMod modulus)) (state : Product modulus) (count : Nat)
    (bounds : List Nat) (total : Nat) : Prop where
  sum : ∃ digits, Represents cells state.toBiguint digits ∧ digits.length = count ∧
    ofLimbs digits = total
  bounds : state.limbSizeBounds = bounds

theorem of_limbs_set {digits : List Nat} {position : Nat} (inside : position < digits.length)
    (added : Nat) : ofLimbs (digits.set position (digits[position] + added)) =
      ofLimbs digits + base ^ position * added := by
  induction digits generalizing position with
  | nil => exact absurd inside (Nat.not_lt_zero _)
  | cons digit digits ih =>
    cases position with
    | zero =>
      rw [set_cons_zero, of_limbs_cons, of_limbs_cons, getElem_cons_zero, pow_zero]
      ring
    | succ position =>
      rw [length_cons, Nat.succ_lt_succ_iff] at inside
      rw [set_cons_succ, of_limbs_cons, of_limbs_cons, getElem_cons_succ, ih inside, pow_succ]
      ring

/-- A limb of an operand with its bound and position. -/
def EntryHolds (cells : List (ZMod modulus)) (entry : (AssignedNative modulus × Nat) × Nat) : Prop :=
  Holds cells entry.1.1 ∧ entry.1.1.value.val < 2 ^ entry.1.2

omit [Fact modulus.Prime] in
theorem EntryHolds.append {entry : (AssignedNative modulus × Nat) × Nat}
    (holds : EntryHolds cells entry) (added : List (ZMod modulus)) :
    EntryHolds (cells ++ added) entry := ⟨holds.1.append added, holds.2⟩

theorem forall₂_set {First Second : Type} {relation : First → Second → Prop} {firsts : List First}
    {seconds : List Second} (all : Forall₂ relation firsts seconds) {first : First}
    {second : Second} (position : Nat) (related : relation first second) :
    Forall₂ relation (firsts.set position first) (seconds.set position second) := by
  induction all generalizing position with
  | nil => exact Forall₂.nil
  | cons head rest ih =>
    cases position with
    | zero => exact Forall₂.cons related rest
    | succ position => exact Forall₂.cons head (ih position)

theorem exact_add_product {state : Product modulus} {count total position extra m : Nat}
    {bounds : List Nat} {x y : (AssignedNative modulus × Nat) × Nat}
    (accumulates : Accumulates cells state count bounds total) (firstHolds : EntryHolds cells x)
    (secondHolds : EntryHolds cells y) (inside : position < count) (factor : m ≤ 2 ^ extra) :
    Exact (addProduct ((m : Nat) : ZMod modulus) state position (extra + x.1.2 + y.1.2) x.1.1 y.1.1)
      cells fun next cells =>
        Accumulates cells next count (grow bounds position (extra + x.1.2 + y.1.2))
          (total + base ^ position * (m * x.1.1.value.val * y.1.1.value.val)) := by
  rcases accumulates with ⟨⟨digits, represents, length, sum⟩, sameBounds⟩
  have lengths := represents.lengths
  have here : position < digits.length := by omega
  have limbHere : position < state.limbs.length := by
    have same : state.limbs.length = digits.length := lengths.1
    omega
  have boundHere : position < state.limbSizeBounds.length := by
    have same : state.limbSizeBounds.length = digits.length := lengths.2
    omega
  have isDigit : IsDigit cells state.limbs[position] digits[position] :=
    represents.limbs.get limbHere here
  have small : digits[position] < 2 ^ state.limbSizeBounds[position] :=
    represents.bounds.get here boundHere
  have product : m * x.1.1.value.val * y.1.1.value.val < 2 ^ (extra + x.1.2 + y.1.2) := by
    have values := Nat.mul_lt_mul'' firstHolds.2 secondHolds.2
    rw [Nat.mul_assoc, Nat.add_assoc, pow_add, pow_add]
    calc m * (x.1.1.value.val * y.1.1.value.val)
        ≤ 2 ^ extra * (x.1.1.value.val * y.1.1.value.val) := Nat.mul_le_mul_right _ factor
      _ < 2 ^ extra * (2 ^ x.1.2 * 2 ^ y.1.2) := Nat.mul_lt_mul_of_pos_left values (Nat.two_pow_pos _)
  unfold addProduct
  rw [getElem?_eq_getElem limbHere, getElem?_eq_getElem boundHere]
  dsimp only
  have row := computes_add_and_double_mul 0 x.1.1.value 0 y.1.1.value 1 state.limbs[position].value 0
    ((m : Nat) : ZMod modulus) 0
  refine (exact_fill row).returning fun sumLimb added holds => ?_
  have isSum : IsDigit (cells ++ added) sumLimb
      (digits[position] + m * x.1.1.value.val * y.1.1.value.val) := by
    refine ⟨?_, holds.2⟩
    rw [holds.1, isDigit.1]
    push_cast
    rw [ZMod.natCast_zmod_val, ZMod.natCast_zmod_val]
    ring
  constructor
  · refine ⟨digits.set position (digits[position] + m * x.1.1.value.val * y.1.1.value.val),
      ⟨?_, ?_⟩, by rw [length_set, length], ?_⟩
    · exact forall₂_set (digits_append represents.limbs added) position isSum
    · exact forall₂_set represents.bounds position (sum_bound small product)
    · rw [of_limbs_set here, sum]
  · unfold grow
    rw [← sameBounds, getD_eq_getElem _ _ boundHere]

def boundView (entry : (AssignedNative modulus × Nat) × Nat) : Nat × Nat := (entry.1.2, entry.2)

def weigh (entries : List ((AssignedNative modulus × Nat) × Nat)) : Nat :=
  (entries.map fun entry => base ^ entry.2 * entry.1.1.value.val).sum

omit [Fact modulus.Prime] in
theorem weigh_cons (entry : (AssignedNative modulus × Nat) × Nat)
    (entries : List ((AssignedNative modulus × Nat) × Nat)) :
    weigh (entry :: entries) = base ^ entry.2 * entry.1.1.value.val + weigh entries := by
  unfold weigh
  rw [map_cons, sum_cons]

omit [Fact modulus.Prime] in
theorem weigh_append (first second : List ((AssignedNative modulus × Nat) × Nat)) :
    weigh (first ++ second) = weigh first + weigh second := by
  unfold weigh
  rw [map_append, sum_append]

omit [Fact modulus.Prime] in
theorem weigh_zip_idx (limbs : List (AssignedNative modulus × Nat)) (start : Nat) :
    weigh (limbs.zipIdx start) = base ^ start * ofLimbs (limbs.map fun limb => limb.1.value.val) := by
  induction limbs generalizing start with
  | nil => rfl
  | cons limb limbs ih =>
    rw [zipIdx_cons, weigh_cons, ih, map_cons, of_limbs_cons, pow_succ]
    ring

theorem exact_row {m extra count : Nat} (factor : m ≤ 2 ^ extra)
    {x : (AssignedNative modulus × Nat) × Nat} (ys : List ((AssignedNative modulus × Nat) × Nat))
    {state : Product modulus} {bounds : List Nat} {total : Nat}
    (accumulates : Accumulates cells state count bounds total) (firstHolds : EntryHolds cells x)
    (hold : ∀ y ∈ ys, EntryHolds cells y) (inside : ∀ y ∈ ys, x.2 + y.2 < count) :
    Exact (addRow ((m : Nat) : ZMod modulus) extra x ys state) cells fun next cells =>
      Accumulates cells next count (rowBounds extra (boundView x) (ys.map boundView) bounds)
        (total + m * (base ^ x.2 * x.1.1.value.val) * weigh ys) := by
  unfold addRow
  induction ys generalizing cells state bounds total with
  | nil =>
    rw [foldlM_nil]
    refine exact_pure ?_
    exact accumulates
  | cons y ys ih =>
    rw [foldlM_cons]
    have one := exact_add_product accumulates firstHolds (hold y mem_cons_self)
      (inside y mem_cons_self) factor
    refine one.bind fun next added reached => ?_
    have rest := ih reached (firstHolds.append added)
      (fun other mem => (hold other (mem_cons_of_mem _ mem)).append added)
      (forall_mem_cons.mp inside).2
    refine rest.weaken fun final more final_ => ?_
    have totals : total + base ^ (x.2 + y.2) * (m * x.1.1.value.val * y.1.1.value.val) +
        m * (base ^ x.2 * x.1.1.value.val) * weigh ys =
          total + m * (base ^ x.2 * x.1.1.value.val) * weigh (y :: ys) := by
      rw [weigh_cons, pow_add]
      ring
    rw [totals] at final_
    exact final_

theorem exact_empty_product (count : Nat) :
    Exact (emptyProduct count : Program modulus (Product modulus)) cells fun state cells =>
      Accumulates cells state count (replicate count 0) 0 := by
  unfold emptyProduct
  refine exact_zero.returning fun zero added isZero => ⟨⟨replicate count 0, ⟨?_, ?_⟩,
    length_replicate, of_limbs_zeros count⟩, rfl⟩
  · exact forall₂_replicate count isZero
  · exact forall₂_replicate count (by decide)

omit [Fact modulus.Prime] in
theorem Number.entries {x : AssignedBigUint modulus} {n : Nat} (number : Number cells x n) :
    (∀ entry ∈ entries x, EntryHolds cells entry ∧ entry.2 < x.limbs.length) ∧
      weigh (entries x) = n ∧ (BigUint.entries x).map boundView = x.limbSizeBounds.zipIdx := by
  have lengths := number.lengths
  unfold BigUint.entries
  refine ⟨?_, ?_, ?_⟩
  · intro entry mem
    have inside := snd_lt_of_mem_zipIdx mem
    have pair : entry.1 ∈ x.limbs.zip x.limbSizeBounds := fst_mem_of_mem_zipIdx mem
    rw [length_zip, ← lengths, Nat.min_self] at inside
    exact ⟨(forall₂_iff_zip.mp number.limbs).2 pair, by omega⟩
  · have views : (x.limbs.zip x.limbSizeBounds).map (fun limb => limb.1.value.val) =
        x.limbs.map fun limb => limb.value.val := by
      have fst := @map_fst_zip _ _ x.limbs x.limbSizeBounds (by omega)
      conv_rhs => rw [← fst, map_map]
      rfl
    rw [weigh_zip_idx, views, pow_zero, Nat.one_mul, ← value_eq, number.value]
  · have snd := @map_snd_zip _ _ x.limbs x.limbSizeBounds (by omega)
    conv_rhs => rw [← snd, zipIdx_map]
    rfl

theorem last_positive (reaches : Reaches bounds) (small : ∀ bound ∈ bounds, bound ≤ log2Base) :
    ∀ last ∈ bounds.getLast?, 0 < last := by
  intro last isLast
  rcases eq_nil_or_concat bounds with empty | ⟨before, bound, split⟩
  · rw [empty] at isLast
    cases isLast
  · rw [concat_eq_append] at split
    rw [split, getLast?_concat] at isLast
    cases isLast
    by_contra zero
    have pos : 0 < base := Nat.two_pow_pos _
    have value : largest bounds < base ^ before.length := by
      unfold largest
      rw [split, map_append, of_limbs_append, map_singleton, of_limbs_cons, of_limbs_nil,
        Nat.eq_zero_of_not_pos zero, pow_zero, Nat.sub_self, Nat.mul_zero, Nat.add_zero,
        Nat.mul_zero, Nat.add_zero, ← length_map fun bound => 2 ^ bound - 1]
      refine of_limbs_lt fun digit mem => ?_
      rcases mem_map.mp mem with ⟨bound, inside, rfl⟩
      have le := small bound (by rw [split]; exact mem_append_left _ inside)
      have power := Nat.pow_le_pow_right (by decide : 0 < 2) le
      have one := Nat.two_pow_pos bound
      unfold base
      omega
    unfold base at value
    rw [← pow_mul] at value
    have size := Nat.size_le.mpr value
    unfold Reaches limbsOf at reaches
    rw [split] at reaches size
    rw [length_append, length_singleton] at reaches
    unfold log2Base at *
    omega

theorem normalize_number {x : AssignedBigUint modulus} {n : Nat} (number : Number cells x n) :
    normalize x = return x := by
  unfold normalize
  rw [if_pos number.normalized]

variable {x y : AssignedBigUint modulus} {n m : Nat}

omit [Fact modulus.Prime] in
theorem Number.bounds_present (number : Number cells x n) (present : x.limbs ≠ []) :
    x.limbSizeBounds ≠ [] := by
  have length := length_pos_iff.mpr present
  rw [number.lengths] at length
  exact length_pos_iff.mp length

theorem exact_finish {state : Product modulus} {count total : Nat}
    (accumulates : Accumulates cells state count bounds total) (wide : log2Base < modulus.size)
    (reaches : Reaches bounds) (fits : carriesFit modulus.size 0 bounds = true) :
    Exact (normalize state.toBiguint) cells fun z cells => Number cells z total := by
  rcases accumulates with ⟨⟨digits, represents, -, sum⟩, same⟩
  rw [← sum]
  rw [← same] at reaches fits
  exact exact_normalize represents wide reaches fits

theorem exact_mul_rows (first : Number cells x m) (second : Number cells y n)
    (present : x.limbs ≠ []) (other : y.limbs ≠ []) (wide : log2Base < modulus.size)
    (apart : x.eq y = false)
    (fits : carriesFit modulus.size 0 (productBounds x.limbSizeBounds y.limbSizeBounds) = true) :
    Exact (mulBiguint x y) cells fun z cells => Number cells z (m * n) := by
  have firstPositive := length_pos_iff.mpr present
  have secondPositive := length_pos_iff.mpr other
  unfold mulBiguint
  rw [if_neg (by rw [apart]; exact Bool.false_ne_true), normalize_number first, pure_bind,
    normalize_number second, pure_bind, if_neg (by omega)]
  refine (exact_empty_product _).bind fun start added isEmpty => ?_
  rcases (first.append added).entries with ⟨firstHold, firstWeigh, firstViews⟩
  rcases (second.append added).entries with ⟨secondHold, secondWeigh, secondViews⟩
  have rows := @exact_fold _ _ _ (cells ++ added)
    (fun state entry => addRow (1 : ZMod modulus) 0 entry (entries y) state) (entries x)
    (fun before state after => Accumulates after state (x.limbs.length + y.limbs.length - 1)
      ((before.map boundView).foldl (fun bounds entry => rowBounds 0 entry y.limbSizeBounds.zipIdx bounds)
        (replicate (x.limbs.length + y.limbs.length - 1) 0)) (weigh before * n)) start
    (by
      unfold weigh
      rw [map_nil, map_nil, foldl_nil, sum_nil, Nat.zero_mul]
      exact isEmpty)
    fun before entry after state more split accumulates => by
      have mem : entry ∈ entries x := by rw [split]; exact mem_append_right _ mem_cons_self
      have holds := firstHold entry mem
      have row := @exact_row _ _ _ 1 0 _ (by decide) entry (entries y) _ _ _ accumulates
        (holds.1.append more) (fun y inside => (secondHold y inside).1.append more)
        (fun y inside => by
          have later := (secondHold y inside).2
          have earlier := holds.2
          omega)
      rw [Nat.cast_one] at row
      refine row.weaken fun next final reached => ?_
      have total : weigh before * n + 1 * (base ^ entry.2 * entry.1.1.value.val) * weigh (entries y) =
          weigh (before ++ [entry]) * n := by
        rw [weigh_append, weigh_cons, secondWeigh]
        unfold weigh
        rw [map_nil, sum_nil]
        ring
      rw [total, secondViews] at reached
      rw [map_append, foldl_append]
      exact reached
  refine rows.bind fun state more accumulates => ?_
  rw [firstWeigh, firstViews, first.lengths, second.lengths] at accumulates
  have bounds := last_positive first.reaches first.bounds
  exact exact_finish accumulates wide
    (reaches_product (first.bounds_present present) (second.bounds_present other) bounds) fits

theorem exact_square (number : Number cells x n) (present : x.limbs ≠ [])
    (wide : log2Base < modulus.size)
    (fits : carriesFit modulus.size 0 (squareBounds x.limbSizeBounds) = true) :
    Exact (square x) cells fun z cells => Number cells z (n * n) := by
  have pos := length_pos_iff.mpr present
  unfold square
  rw [normalize_number number, pure_bind, if_neg (by omega)]
  refine (exact_empty_product _).bind fun start added isEmpty => ?_
  rcases (number.append added).entries with ⟨hold, isWeigh, views⟩
  have viewsDrop : ∀ count, ((entries x).drop count).map boundView =
      x.limbSizeBounds.zipIdx.drop count := by
    intro count
    rw [map_drop, views]
  have rows := @exact_fold _ _ _ (cells ++ added)
    (fun state entry => do
      let diagonal ← addProduct (1 : ZMod modulus) state (2 * entry.2) (2 * entry.1.2)
        entry.1.1 entry.1.1
      addRow ((2 : Nat) : ZMod modulus) 1 entry ((entries x).drop (entry.2 + 1)) diagonal) (entries x)
    (fun before state after => Accumulates after state (2 * x.limbs.length - 1)
      ((before.map boundView).foldl (fun bounds entry =>
        rowBounds 1 entry (x.limbSizeBounds.zipIdx.drop (entry.2 + 1))
          (grow bounds (2 * entry.2) (2 * entry.1))) (replicate (2 * x.limbs.length - 1) 0))
      (weigh before * weigh before + 2 * weigh before * weigh ((entries x).drop before.length))) start
    (by
      unfold weigh
      rw [map_nil, map_nil, foldl_nil, sum_nil, Nat.zero_mul, Nat.mul_zero, Nat.zero_mul]
      exact isEmpty)
    fun before entry after state more split accumulates => by
      have mem : entry ∈ entries x := by rw [split]; exact mem_append_right _ mem_cons_self
      have holds := hold entry mem
      have place : entry.2 = before.length := by
        have found : (entries x)[before.length]? = some entry := by
          rw [split, getElem?_append_right (le_refl _), Nat.sub_self, getElem?_cons_zero]
        unfold BigUint.entries at found
        rw [getElem?_zipIdx, Option.map_eq_some_iff] at found
        rcases found with ⟨limb, -, rfl⟩
        exact Nat.zero_add _
      have rest : (entries x).drop (before.length + 1) = after := by
        rw [split, ← drop_drop, drop_left]
        rfl
      have here : (entries x).drop before.length = entry :: after := by
        rw [split, drop_left]
      have diagonal := @exact_add_product _ _ _ _ _ _ (2 * entry.2) 0 1 _ entry entry accumulates
        (holds.1.append more) (holds.1.append more) (by have below := holds.2; omega) (by decide)
      rw [Nat.zero_add, ← Nat.two_mul, Nat.cast_one] at diagonal
      refine diagonal.bind fun state further reached => ?_
      have row := @exact_row _ _ _ 2 1 _ (by decide) entry after _ _ _ reached
        ((holds.1.append more).append further)
        (fun y inside => (((hold y (by rw [split]; simp [inside])).1).append more).append further)
        (fun y inside => by
          have later := (hold y (by rw [split]; simp [inside])).2
          have earlier := holds.2
          omega)
      rw [place, rest]
      rw [place] at row
      refine row.weaken fun next final onward => ?_
      have none : weigh ([] : List ((AssignedNative modulus × Nat) × Nat)) = 0 := rfl
      have twice : base ^ (2 * before.length) = base ^ before.length * base ^ before.length := by
        rw [Nat.two_mul, pow_add]
      have length : (before ++ [entry]).length = before.length + 1 := by
        rw [length_append, length_singleton]
      have total : weigh before * weigh before + 2 * weigh before * weigh ((entries x).drop before.length) +
          base ^ (2 * before.length) * (1 * entry.1.1.value.val * entry.1.1.value.val) +
            2 * (base ^ before.length * entry.1.1.value.val) * weigh after =
              weigh (before ++ [entry]) * weigh (before ++ [entry]) +
                2 * weigh (before ++ [entry]) * weigh ((entries x).drop (before ++ [entry]).length) := by
        rw [length, rest, here, weigh_append, weigh_cons, weigh_cons, none, place, twice]
        ring
      rw [total] at onward
      rw [map_append, foldl_append]
      have boundsHere : after.map boundView = x.limbSizeBounds.zipIdx.drop (before.length + 1) := by
        rw [← viewsDrop, rest]
      rw [boundsHere] at onward
      show Accumulates _ _ _ (rowBounds 1 (boundView entry)
        (x.limbSizeBounds.zipIdx.drop ((boundView entry).2 + 1))
          (grow _ (2 * (boundView entry).2) (2 * (boundView entry).1))) _
      unfold boundView at onward ⊢
      rw [place] at onward ⊢
      exact onward
  refine rows.bind fun state more accumulates => ?_
  have lengths : (entries x).length = x.limbSizeBounds.length := by
    rw [← length_map boundView, views, length_zipIdx]
  rw [isWeigh, views, drop_length, number.lengths] at accumulates
  have none : weigh ([] : List ((AssignedNative modulus × Nat) × Nat)) = 0 := rfl
  rw [none, Nat.mul_zero, Nat.add_zero] at accumulates
  have bounds := last_positive number.reaches number.bounds
  exact exact_finish accumulates wide (reaches_square (number.bounds_present present) bounds) fits

def productFits (x y : AssignedBigUint modulus) : Bool :=
  if x.eq y then carriesFit modulus.size 0 (squareBounds x.limbSizeBounds)
  else carriesFit modulus.size 0 (productBounds x.limbSizeBounds y.limbSizeBounds)

section

variable (first : Number cells x m) (second : Number cells y n)

include first second

theorem exact_mul (present : x.limbs ≠ []) (wide : log2Base < modulus.size)
    (agree : x.eq y = true → m = 0 ∨ m = n) (fits : productFits x y = true) :
    Exact (mulBiguint x y) cells fun z cells => Number cells z (m * n) := by
  unfold productFits at fits
  cases same : x.eq y with
  | true =>
    rw [if_pos same] at fits
    have squared := exact_square first present wide fits
    have integers : m * m = m * n := by
      rcases agree same with zero | equal
      · rw [zero, Nat.zero_mul, Nat.zero_mul]
      · rw [equal]
    rw [integers] at squared
    unfold mulBiguint
    rw [if_pos same]
    exact squared
  | false =>
    rw [if_neg (by rw [same]; exact Bool.false_ne_true)] at fits
    have other : y.limbs ≠ [] := by
      intro empty
      unfold AssignedBigUint.eq at same
      rw [empty, zip_nil_right] at same
      cases same
    exact exact_mul_rows first second present other wide same fits

theorem honest_assert_lower (wide : log2Base + 1 < modulus.size) (lower : m < n) :
    Honest (assertLowerThan x y) cells fun _ _ => True := by
  unfold assertLowerThan
  refine (exact_geq first second wide).honest.bind fun b added isBit => ?_
  have zero : b.value = 0 := by
    rw [isBit.1, decide_eq_false (Nat.not_le.mpr lower)]
    rfl
  exact ((exact_emit (computes_constrain zero)).weaken fun _ _ _ => trivial).honest

theorem allowed_assert_lower (wide : log2Base + 1 < modulus.size) :
    Allowed (assertLowerThan x y) cells fun _ _ => m < n := by
  unfold assertLowerThan
  refine (exact_geq first second wide).allowed.bind fun b added isBit => ?_
  have constrained : Ensures (NativeGadget.assertEqualToFixed b.value 0) fun _ => b.value = 0 :=
    fun _ allowed => allowed
  refine (allowed_emit constrained).weaken fun _ _ zero => ?_
  rw [isBit.1] at zero
  have negative : decide (n ≤ m) = false := @bit_injective modulus _ (decide (n ≤ m)) false zero
  exact Nat.not_le.mp (of_decide_eq_false negative)

end

omit [Fact modulus.Prime] in
theorem fresh_apart {q y : AssignedBigUint modulus} {n : Nat} (second : Number cells y n)
    (fresh : ∀ limb ∈ q.limbs, Fresh cells limb) (present : q.limbs ≠ []) (other : y.limbs ≠ []) :
    q.eq y = false := by
  have holds := fun (limb : AssignedNative modulus) (mem : limb ∈ y.limbs) =>
    forall₂_mem_left second.limbs mem
  unfold AssignedBigUint.eq
  cases limbs : q.limbs with
  | nil => exact absurd limbs present
  | cons limb rest =>
    cases others : y.limbs with
    | nil => exact absurd others other
    | cons earlier later =>
      rcases holds earlier (by rw [others]; exact mem_cons_self) with ⟨_, -, held, -⟩
      have apart := (fresh limb (by rw [limbs]; exact mem_cons_self)).ne held
      rw [zip_cons_cons, all_cons, decide_eq_false apart, Bool.false_and]

omit [Fact modulus.Prime] in
theorem bits_present {nbBits : Nat} (number : Number cells x n)
    (bounds : x.limbSizeBounds = boundsOfBits nbBits) : x.limbs ≠ [] := by
  have lengths := number.lengths
  rw [bounds] at lengths
  unfold boundsOfBits at lengths
  rw [length_append, length_singleton] at lengths
  exact length_pos_iff.mp (by omega)

/-- The bounds of the product of the quotient with the divisor. -/
def quotientFits (x y : AssignedBigUint modulus) : Bool :=
  carriesFit modulus.size 0 (productBounds (boundsOfBits x.nbBits) y.limbSizeBounds)

theorem exact_quotient_product {q : AssignedBigUint modulus} {quotient : Nat}
    (isQuotient : Number cells q quotient) (second : Number cells y n) (other : y.limbs ≠ [])
    (bounds : q.limbSizeBounds = boundsOfBits x.nbBits) (apart : q.eq y = false)
    (wide : log2Base < modulus.size) (fits : quotientFits x y = true) :
    Exact (mulBiguint q y) cells fun z cells => Number cells z (quotient * n) := by
  unfold quotientFits at fits
  rw [← bounds] at fits
  exact exact_mul_rows isQuotient second (bits_present isQuotient bounds) other wide apart fits

theorem honest_div_rem {m : Nat} (first : Number cells x m) (second : Number cells y n)
    (present : x.limbs ≠ []) (other : y.limbs ≠ []) (room : log2Base + 2 < modulus.size)
    (fits : quotientFits x y = true) (divisor : n ≠ 0) :
    Honest (divRem x y) cells fun parts cells =>
      Number cells parts.1 (m / n) ∧ Number cells parts.2 (m % n) := by
  have wide : log2Base < modulus.size := by omega
  unfold divRem
  rw [first.value, second.value]
  refine (exact_prover_checks (decide_eq_true divisor)).honest.bind fun _ start _ => ?_
  have quotientSmall : m / n < 2 ^ x.nbBits := lt_of_le_of_lt (Nat.div_le_self m n) first.small
  have restSmall : m % n < 2 ^ y.nbBits :=
    lt_trans (Nat.mod_lt m (Nat.pos_of_ne_zero divisor)) second.small
  have quotient := (@honest_assign_bounded _ _ (cells ++ start) _ _ wide (bits_positive first present)
    quotientSmall).and (allowed_assign_bounded _ wide)
  refine quotient.bind fun q added isQuotient => ?_
  have apart := fresh_apart (second.append start) isQuotient.2.2.2.2
    (bits_present isQuotient.1.1 isQuotient.1.2) other
  refine (honest_assign_bounded wide (bits_positive second other) restSmall).bind
    fun r more isRest => ?_
  have divisorHolds := ((second.append start).append added).append more
  refine (exact_quotient_product (isQuotient.1.1.append more) divisorHolds other isQuotient.1.2 apart
    wide fits).honest.bind fun product third isProduct => ?_
  refine (exact_add_biguint isProduct (isRest.1.append third) room).honest.bind
    fun total fourth isTotal => ?_
  rw [Nat.div_add_mod'] at isTotal
  have dividendHolds := ((((first.append start).append added).append more).append third).append fourth
  refine (honest_assert_equal dividendHolds isTotal wide).bind fun _ fifth _ => ?_
  have lower := honest_assert_lower (((isRest.1.append third).append fourth).append fifth)
    (((divisorHolds.append third).append fourth).append fifth) (by omega)
    (Nat.mod_lt m (Nat.pos_of_ne_zero divisor))
  refine lower.returning fun _ last _ => ⟨?_, ?_⟩
  · exact ((((isQuotient.1.1.append more).append third).append fourth).append fifth).append last
  · exact (((isRest.1.append third).append fourth).append fifth).append last

theorem allowed_div_rem {m : Nat} (first : Number cells x m) (second : Number cells y n)
    (other : y.limbs ≠ []) (room : log2Base + 2 < modulus.size) (fits : quotientFits x y = true) :
    Allowed (divRem x y) cells fun parts cells =>
      n ≠ 0 ∧ Number cells parts.1 (m / n) ∧ Number cells parts.2 (m % n) := by
  have wide : log2Base < modulus.size := by omega
  unfold divRem
  refine (allowed_prover_checks _).bind fun _ start _ => ?_
  refine (allowed_assign_bounded _ wide).bind fun q added isQuotient => ?_
  have apart := fresh_apart (second.append start) isQuotient.2.2.2
    (bits_present isQuotient.1 isQuotient.2.2.1) other
  refine (allowed_assign_bounded _ wide).bind fun r more isRest => ?_
  have divisorHolds := ((second.append start).append added).append more
  refine (exact_quotient_product (isQuotient.1.append more) divisorHolds other isQuotient.2.2.1 apart
    wide fits).allowed.bind fun product third isProduct => ?_
  refine (exact_add_biguint isProduct (isRest.1.append third) room).allowed.bind
    fun total fourth isTotal => ?_
  have dividendHolds := ((((first.append start).append added).append more).append third).append fourth
  refine (allowed_assert_equal dividendHolds isTotal wide).bind fun _ fifth same => ?_
  have lower := allowed_assert_lower (((isRest.1.append third).append fourth).append fifth)
    (((divisorHolds.append third).append fourth).append fifth) (by omega)
  refine lower.returning fun _ last below => ?_
  have parts := Nat.div_mod_unique (Nat.zero_lt_of_lt below) |>.mpr
    ⟨(Nat.add_comm _ _).trans ((congrArg (· + r.value) (Nat.mul_comm n q.value)).trans same.symm), below⟩
  rw [parts.1, parts.2]
  refine ⟨by omega, ?_, ?_⟩
  · exact ((((isQuotient.1.append more).append third).append fourth).append fifth).append last
  · exact (((isRest.1.append third).append fourth).append fifth).append last

end Midfall.BigUint
