import Midfall.NativeComparison
import Midfall.VectorGadget

/-!
# Trimming and resizing vectors

`trim_beginning` shifts the buffer left by the part of the trim that is no whole
chunk, and right again by a chunk where the padding behind the data would
otherwise reach one. Whole chunks are trimmed by the length alone: they become
padding in front of the data.
-/

namespace Midfall.VectorTrimming

open CircuitPrograms CellPrograms NativeRanges NativeComparison List
open NativeGadget (bit computes_is_equal_to_fixed computes_xor computes_select pair_unique val_natCast_lt)
open BigUint (AssignedNative Program IsBit linearCombination exact_linear_combination)
open VectorGadget (getLims dataOf)
open ScalarField

variable {modulus : Nat} [Fact modulus.Prime]

/-! ### Division on cells -/

/-- `div_rem`, with the bounds that its range checks leave. -/
def divRem (bounds : Bounds modulus) (dividend : AssignedNative modulus) (divisor : Nat)
    (dividendBound : Option Nat) :
    Program modulus ((AssignedNative modulus × AssignedNative modulus) × Bounds modulus) :=
  if divisor = 1 then do
    let zero ← constantCell 0
    return ((dividend, zero), bounds)
  else
    let dividendBound := dividendBound.getD (-1 : ZMod modulus).val
    if divisor = 0 ∨ dividendBound < divisor then stop
    else do
      let r ← assignLowerThanFixed bounds ((dividend.value.val % divisor : Nat) : ZMod modulus) divisor
      let q ← assignLowerThanFixed r.2 ((dividend.value.val / divisor : Nat) : ZMod modulus)
        (dividendBound / divisor + 1)
      let sum ← linearCombination [((divisor : ZMod modulus), q.1), (1, r.1)] 0
      emit (NativeGadget.assertEqual dividend.value sum.value)
      return ((q.1, r.1), q.2)

/-! ### Vectors of cells -/

inductive Vectorizable where
  | native
  | byte

namespace Vectorizable

def filler : Vectorizable → ZMod modulus
  | native => 0
  | byte => 0

def assignMany (element : Vectorizable) (values : List (ZMod modulus)) :
    Program modulus (List (AssignedNative modulus)) :=
  match element with
  | native => values.mapM fun value => fillCell (assign value)
  | byte => values.mapM fun value => fillCell (assignLessThanPow2 value 8)

end Vectorizable

/-- A vector of cells. -/
structure AssignedVector (modulus : Nat) where
  buffer : List (AssignedNative modulus)
  len : AssignedNative modulus

def AssignedVector.value (maxLen align : Nat) (vector : AssignedVector modulus) :
    List (ZMod modulus) :=
  dataOf maxLen align (vector.buffer.map (·.value)) vector.len.value.val

/-- As many cells as the capacity, and a length within it. -/
structure AssignedVector.Valid (maxLen : Nat) (cells : List (ZMod modulus))
    (vector : AssignedVector modulus) : Prop where
  buffer_holds : ∀ entry ∈ vector.buffer, Holds cells entry
  buffer_length : vector.buffer.length = maxLen
  len_holds : Holds cells vector.len
  len_le : vector.len.value.val ≤ maxLen

/-- The vector that the cells hold. -/
def AssignedVector.Valid.values {maxLen : Nat} {cells : List (ZMod modulus)}
    {vector : AssignedVector modulus} (valid : vector.Valid maxLen cells) :
    VectorGadget.AssignedVector modulus maxLen where
  buffer := vector.buffer.map (·.value)
  len := vector.len.value
  buffer_length := (length_map _).trans valid.buffer_length
  len_le := valid.len_le

omit [Fact modulus.Prime] in
theorem values_value {maxLen : Nat} (align : Nat) {cells : List (ZMod modulus)}
    {vector : AssignedVector modulus} (valid : vector.Valid maxLen cells) :
    valid.values.value align = vector.value maxLen align := rfl

/-- Whether the padding behind the data would reach a chunk. -/
def needsAdjust (align lastTrim : Nat) (bounds : Bounds modulus) (lastLen : AssignedNative modulus) :
    Program modulus (AssignedNative modulus) := do
  proverChecks (decide (lastLen.value.val < 2 ^ align.size))
  let leqShift ← leqFixed bounds { value := lastLen, bound := align.size }
    ((lastTrim : Nat) : ZMod modulus)
  let fullLast ← fillCell (NativeGadget.isEqualToFixed lastLen.value 0)
  fillCell (NativeGadget.xor [fullLast.value, leqShift.1.value])

/-- `usize` subtraction, which wraps around without overflow checks. -/
def subUsize (overflowChecks : Bool) (x y : Nat) : Option Nat :=
  if y ≤ x then some (x - y) else if overflowChecks then none else some (2 ^ 64 + x - y)

def trimBeginning (overflowChecks : Bool) (element : Vectorizable) (maxLen align : Nat)
    (bounds : Bounds modulus) (input : AssignedVector modulus) (nElems : Nat) :
    Program modulus (AssignedVector modulus) :=
  match subUsize overflowChecks (maxLen + 1) nElems with
  | none => stop
  | some room => if align = 0 then stop else do
    let lenComplement ← linearCombination [(-1, input.len)] ((maxLen : Nat) : ZMod modulus)
    let bounds ← assertLowerThanFixed bounds lenComplement room
    let lastTrim := nElems % align
    let division ← divRem bounds input.len align (some maxLen)
    let lastLen := division.1.2
    let needsAdjust ← needsAdjust align lastTrim division.2 lastLen
    let fillers ← (replicate (align + lastTrim) element.filler).mapM constantCell
    let buffer := fillers.take align ++ input.buffer.drop lastTrim ++ fillers.drop align
    let selected ← ((buffer.take maxLen).zip (buffer.drop align)).mapM fun pair =>
      fillCell (NativeGadget.select needsAdjust.value pair.1.value pair.2.value)
    let len ← linearCombination [(1, input.len)] (-((nElems : Nat) : ZMod modulus))
    return { buffer := selected, len := len }

/-- The new cells in front are free, the prover fills them with the filler. -/
def resize (element : Vectorizable) (maxLen larger align : Nat) (input : AssignedVector modulus) :
    Program modulus (AssignedVector modulus) :=
  if align = 0 ∨ larger % align ≠ 0 ∨ larger ≤ maxLen then stop
  else do
    let extraPad ← element.assignMany (replicate (larger - maxLen) element.filler)
    return { buffer := extraPad ++ input.buffer, len := input.len }

/-! ### Positions -/

section Positions

variable {maxLen align len : Nat}

theorem lims_le (aligned : align ∣ maxLen) (pos : 0 < align) (le : len ≤ maxLen) :
    len + (align - len % align) % align ≤ maxLen := by
  have below : len % align < align := Nat.mod_lt _ pos
  have division := Nat.div_add_mod len align
  by_cases whole : len % align = 0
  · rw [whole, Nat.sub_zero, Nat.mod_self, Nat.add_zero]
    exact le
  · rw [Nat.mod_eq_of_lt (by omega : align - len % align < align)]
    have chunk := VectorGadget.next_chunk_le aligned pos le whole
    omega

theorem trimmed_mod (pos : 0 < align) {nElems : Nat} (enough : nElems ≤ len) :
    (len - nElems) % align = if nElems % align ≤ len % align then len % align - nElems % align
      else align + len % align - nElems % align := by
  have lenDivision := Nat.div_add_mod len align
  have trimDivision := Nat.div_add_mod nElems align
  have lenBelow : len % align < align := Nat.mod_lt _ pos
  have trimBelow : nElems % align < align := Nat.mod_lt _ pos
  have chunks : nElems / align ≤ len / align := Nat.div_le_div_right enough
  split_ifs with within
  · have split : len - nElems = align * (len / align - nElems / align) +
        (len % align - nElems % align) := by
      have scaled : align * (nElems / align) ≤ align * (len / align) := Nat.mul_le_mul_left _ chunks
      rw [Nat.mul_sub]
      omega
    rw [split, Nat.mul_add_mod, Nat.mod_eq_of_lt (by omega)]
  · have fewer : nElems / align + 1 ≤ len / align := by
      by_contra same
      have equal : nElems / align = len / align := by omega
      rw [equal] at trimDivision
      omega
    have split : len - nElems = align * (len / align - (nElems / align + 1)) +
        (align + len % align - nElems % align) := by
      have scaled : align * (nElems / align + 1) ≤ align * (len / align) :=
        Nat.mul_le_mul_left _ fewer
      rw [Nat.mul_sub]
      rw [Nat.mul_succ] at scaled ⊢
      omega
    rw [split, Nat.mul_add_mod, Nat.mod_eq_of_lt (by omega)]

theorem pad_eq (rest : Nat) (below : rest < align) :
    (align - rest) % align = if rest = 0 then 0 else align - rest := by
  split_ifs with none
  · rw [none, Nat.sub_zero, Nat.mod_self]
  · exact Nat.mod_eq_of_lt (by omega)

/-- The padding behind the trimmed data: what the shift to the left leaves, without a chunk where
the buffer is shifted back. -/
theorem trimmed_padding (pos : 0 < align) {nElems : Nat} (enough : nElems ≤ len) :
    (align - (len - nElems) % align) % align +
        (if len % align ≠ 0 ∧ len % align ≤ nElems % align then align else 0) =
      (align - len % align) % align + nElems % align := by
  have below : len % align < align := Nat.mod_lt _ pos
  have trimBelow : nElems % align < align := Nat.mod_lt _ pos
  rw [pad_eq _ (Nat.mod_lt _ pos), pad_eq _ below, trimmed_mod pos enough]
  split_ifs <;> omega

theorem lims_eq (maxLen align len : Nat) : getLims maxLen align len =
    (maxLen - len - (align - len % align) % align, maxLen - (align - len % align) % align) := rfl

end Positions

/-! ### Buffers -/

section Buffers

variable {Entry : Type}

def shifted (align lastTrim : Nat) (adjust : Bool) (filler : Entry) (buffer : List Entry) :
    List Entry :=
  let padded := replicate align filler ++ buffer.drop lastTrim ++ replicate lastTrim filler
  (if adjust then padded else padded.drop align).take buffer.length

theorem shifted_entry {align lastTrim : Nat} {adjust : Bool} {filler : Entry}
    {buffer : List Entry} {position : Nat} (inside : lastTrim ≤ position)
    (before : position < buffer.length)
    (fits : position + (if adjust then align else 0) < buffer.length + lastTrim) :
    (shifted align lastTrim adjust filler buffer)[position + (if adjust then align else 0) - lastTrim]? =
      buffer[position]? := by
  have place : (replicate align filler ++ buffer.drop lastTrim ++
      replicate lastTrim filler)[align + (position - lastTrim)]? = buffer[position]? := by
    rw [append_assoc, getElem?_append_right (by rw [length_replicate]; omega), length_replicate,
      Nat.add_sub_cancel_left, getElem?_append_left (by rw [length_drop]; omega), getElem?_drop]
    congr 1
    omega
  unfold shifted
  dsimp only
  cases adjust with
  | true =>
    simp only [if_pos] at fits ⊢
    rw [getElem?_take_of_lt (by omega), ← place]
    congr 1
    omega
  | false =>
    simp only [Bool.false_eq_true, if_false, Nat.add_zero] at fits ⊢
    rw [getElem?_take_of_lt (by omega), getElem?_drop, ← place]

theorem shifted_length {align lastTrim : Nat} {adjust : Bool} {filler : Entry}
    {buffer : List Entry} (le : lastTrim ≤ buffer.length) :
    (shifted align lastTrim adjust filler buffer).length = buffer.length := by
  unfold shifted
  dsimp only
  rw [length_take]
  cases adjust
  · simp
    omega
  · simp
    omega

end Buffers

/-! ### The remainder -/

section Programs

variable {cells : List (ZMod modulus)} {bounds : Bounds modulus}

omit [Fact modulus.Prime] in
/-- What every allowed run meets is exact when the prover has a run. -/
theorem exact_of_allowed {Result : Type} {program : Program modulus Result}
    {post : Result → List (ZMod modulus) → Prop} (allowed : Allowed program cells post)
    (honest : Honest program cells fun _ _ => True) : Exact program cells post :=
  ⟨(honest.and allowed).weaken fun _ _ both => both.2, allowed⟩

theorem exact_div_rem (known : Known cells bounds) {dividend : AssignedNative modulus}
    {divisor bound : Nat} (pos : divisor ≠ 0)
    (accepted : divisor = 1 ∨ divisor ≤ bound) (bounded : dividend.value.val ≤ bound)
    (fits : bound + divisor ≤ modulus) :
    Exact (divRem bounds dividend divisor (some bound)) cells fun outcome cells =>
      outcome.1.2.value.val = dividend.value.val % divisor ∧ Holds cells outcome.1.2 ∧
        Known cells outcome.2 := by
  have size : modulus < 2 ^ modulus.size := Nat.lt_size_self modulus
  unfold divRem
  dsimp only
  rw [Option.getD_some]
  split_ifs with one refused
  · refine (exact_constant 0).returning fun zero added isZero => ⟨?_, isZero.2, known.append added⟩
    rw [isZero.1, one, Nat.mod_one, ZMod.val_zero]
  · omega
  · have reached := accepted.resolve_left one
    have quotientRange : bound / divisor + 1 ≤ bound + 1 :=
      Nat.succ_le_succ (Nat.div_le_self bound divisor)
    have restBelow : dividend.value.val % divisor < divisor := Nat.mod_lt _ (by omega)
    have quotientBelow : dividend.value.val / divisor < bound / divisor + 1 :=
      Nat.lt_succ_of_le (Nat.div_le_div_right bounded)
    have product : (bound / divisor + 1) * divisor ≤ bound + divisor := by
      rw [Nat.succ_mul]
      exact Nat.add_le_add_right (Nat.div_mul_le_self _ _) _
    have terms : ∀ {after : List (ZMod modulus)} {q r : AssignedNative modulus}, Holds after q →
        Holds after r → ∀ term ∈ [((divisor : ZMod modulus), q), (1, r)], Holds after term.2 := by
      intro after q r first second term mem
      simp only [mem_cons, not_mem_nil, or_false] at mem
      rcases mem with rfl | rfl
      · exact first
      · exact second
    apply exact_of_allowed
    · refine (allowed_assign_lower known _ divisor).bind fun r added rest => ?_
      refine (allowed_assign_lower rest.2.2 _ _).bind fun q more quotient => ?_
      have sums := exact_linear_combination _ (0 : ZMod modulus)
        (terms quotient.2.1 (rest.2.1.append more))
      refine sums.allowed.bind fun sum later total => ?_
      have checked : Allowed (emit (NativeGadget.assertEqual dividend.value sum.value))
          (((cells ++ added) ++ more) ++ later) fun _ _ => dividend.value = sum.value :=
        allowed_emit fun _ same => same
      refine checked.returning fun _ last same => ?_
      have pair : dividend.value = divisor * q.1.value + r.1.value := by
        rw [same, total.1]
        simp
      have integers := pair_unique (by omega) (by omega) (rest.1 pos)
        (quotient.1 (Nat.succ_ne_zero _)) pair
      exact ⟨integers.2, ((rest.2.1.append more).append later).append last,
        (quotient.2.2.append later).append last⟩
    · have restVal : ((dividend.value.val % divisor : Nat) : ZMod modulus).val =
          dividend.value.val % divisor := val_natCast_lt (by omega)
      have quotientVal : ((dividend.value.val / divisor : Nat) : ZMod modulus).val =
          dividend.value.val / divisor := val_natCast_lt (by
            have smaller := Nat.div_le_self dividend.value.val divisor
            have below := ZMod.val_lt dividend.value
            omega)
      have quotientFits : (bound / divisor + 1) * 2 ≤ (bound / divisor + 1) * divisor :=
        Nat.mul_le_mul_left _ (by omega)
      refine (honest_assign_lower (by rwa [restVal]) (by omega)).bind fun r added rest => ?_
      refine (honest_assign_lower (by rwa [quotientVal]) (by omega)).bind fun q more quotient => ?_
      have sums := exact_linear_combination _ (0 : ZMod modulus)
        (terms quotient.2 (rest.2.append more))
      refine sums.honest.bind fun sum later total => ?_
      have same : dividend.value = sum.value := by
        have cast : ((divisor * (dividend.value.val / divisor) + dividend.value.val % divisor : Nat) :
            ZMod modulus) = dividend.value := by rw [Nat.div_add_mod, ZMod.natCast_zmod_val]
        push_cast at cast
        rw [total.1]
        simp [rest.1, quotient.1, cast]
      exact (exact_emit (computes_constrain same)).honest.returning fun _ _ _ => trivial

/-! ### The trim -/

variable {overflowChecks : Bool} {maxLen align lastTrim nElems : Nat} {fillers : List (AssignedNative modulus)}
  {input : AssignedVector modulus}

/-- The complement of the length passes its range check exactly when the vector is long enough. -/
theorem complement_val {len complement : ZMod modulus} (le : len.val ≤ maxLen)
    (inField : maxLen < modulus)
    (value : complement = ((maxLen : Nat) : ZMod modulus) + ([(-1, len)].map
      fun term : ZMod modulus × ZMod modulus => term.1 * term.2).sum) :
    complement.val = maxLen - len.val := by
  have cast : complement = ((maxLen - len.val : Nat) : ZMod modulus) := by
    rw [value, Nat.cast_sub le, ZMod.natCast_zmod_val]
    simp [sub_eq_add_neg]
  rw [cast, val_natCast_lt (by omega)]

theorem all_right {First Second : Type} {relation : First → Second → Prop} {fact : Second → Prop}
    {firsts : List First} {seconds : List Second} (all : Forall₂ relation firsts seconds)
    (holds : ∀ first second, relation first second → fact second) :
    ∀ second ∈ seconds, fact second := by
  induction all with
  | nil => exact fun second mem => absurd mem not_mem_nil
  | cons first _ ih =>
    intro second mem
    rcases mem_cons.mp mem with rfl | later
    · exact holds _ _ first
    · exact ih second later

omit [Fact modulus.Prime] in
theorem fillers_values {values : List (ZMod modulus)}
    (all : Forall₂ (fun value (entry : AssignedNative modulus) =>
      entry.value = value ∧ Holds cells entry) values fillers) :
    fillers.map (·.value) = values := by
  induction all with
  | nil => rfl
  | cons first _ ih => rw [map_cons, first.1, ih]

variable {buffer : List (AssignedNative modulus)} {filler : ZMod modulus}

omit [Fact modulus.Prime] in
theorem padded_length (values : fillers.map (·.value) = replicate (align + lastTrim) filler)
    (length : buffer.length = maxLen) (le : lastTrim ≤ maxLen) :
    (fillers.take align ++ buffer.drop lastTrim ++ fillers.drop align).length = maxLen + align := by
  have count := congrArg List.length values
  rw [length_map, length_replicate] at count
  rw [length_append, length_append, length_take, length_drop, length_drop]
  omega

omit [Fact modulus.Prime] in
theorem padded_values (values : fillers.map (·.value) = replicate (align + lastTrim) filler) :
    (fillers.take align ++ buffer.drop lastTrim ++ fillers.drop align).map (·.value) =
      replicate align filler ++ (buffer.map (·.value)).drop lastTrim ++
        replicate lastTrim filler := by
  rw [map_append, map_append, map_take, map_drop, map_drop, values, take_replicate, drop_replicate,
    Nat.min_eq_left (Nat.le_add_right _ _), Nat.add_sub_cancel_left]

omit [Fact modulus.Prime] in
theorem selected_values {adjust : Bool} {firsts seconds results : List (AssignedNative modulus)}
    (lengths : firsts.length = seconds.length)
    (all : Forall₂ (fun (pair : AssignedNative modulus × AssignedNative modulus)
      (result : AssignedNative modulus) =>
        result.value = (if adjust then pair.1.value else pair.2.value) ∧ Holds cells result)
      (firsts.zip seconds) results) :
    results.map (·.value) = (if adjust then firsts else seconds).map (·.value) := by
  induction firsts generalizing seconds results with
  | nil =>
    have none : seconds = [] := eq_nil_of_length_eq_zero lengths.symm
    subst none
    cases all
    cases adjust <;> rfl
  | cons first firsts ih =>
    cases seconds with
    | nil => cases lengths
    | cons second seconds =>
      rw [zip_cons_cons] at all
      cases all with
      | cons here rest =>
        rw [map_cons, here.1, ih (Nat.succ.inj lengths) rest]
        cases adjust <;> rfl

def shiftsBack (align len nElems : Nat) : Bool :=
  decide (len % align ≠ 0 ∧ len % align ≤ nElems % align)

theorem adjust_bits (lastLen lastTrim : Nat) :
    (decide (lastLen = 0) ^^ decide (lastLen < lastTrim + 1)) =
      decide (lastLen ≠ 0 ∧ lastLen ≤ lastTrim) := by
  by_cases full : lastLen = 0
  · simp [full]
  · simp [full]

theorem exact_adjust (known : Known cells bounds) {lastLen : AssignedNative modulus}
    (holds : Holds cells lastLen) (below : lastLen.value.val < align) (trimBelow : lastTrim < align)
    (fits : 4 * align ≤ modulus) :
    Exact (needsAdjust align lastTrim bounds lastLen) cells fun result cells =>
      IsBit cells result (decide (lastLen.value.val ≠ 0 ∧ lastLen.value.val ≤ lastTrim)) := by
  have size : modulus < 2 ^ modulus.size := Nat.lt_size_self modulus
  have alignSize : align < 2 ^ align.size := Nat.lt_size_self align
  have narrow : align.size ≤ maxBoundInBits modulus := by
    have bits : align.size - 1 < align.size := Nat.sub_one_lt (by
      intro none
      rw [Nat.size_eq_zero] at none
      omega)
    have reached : 2 ^ (align.size - 1) ≤ align := Nat.lt_size.mp bits
    have scaled : 2 ^ (align.size - 1 + 2) < 2 ^ modulus.size := by
      rw [Nat.pow_add]
      omega
    have fewer := (Nat.pow_lt_pow_iff_right (by decide)).mp scaled
    unfold maxBoundInBits
    omega
  have small : lastLen.value.val < 2 ^ align.size := by omega
  have successor : (((lastTrim : Nat) : ZMod modulus) + 1).val = lastTrim + 1 := by
    have cast : ((lastTrim : Nat) : ZMod modulus) + 1 = ((lastTrim + 1 : Nat) : ZMod modulus) := by
      push_cast
      rfl
    rw [cast, val_natCast_lt (by omega)]
  have zero : lastLen.value = 0 ↔ lastLen.value.val = 0 := (ZMod.val_eq_zero _).symm
  unfold needsAdjust
  refine (exact_prover_checks (decide_eq_true small)).bind fun _ one _ => ?_
  have valid : AssignedBounded.Valid (cells ++ one) { value := lastLen, bound := align.size } :=
    { holds := holds.append one, below := small, narrow := narrow }
  have passes : Passes bounds { value := lastLen, bound := align.size }
      (((lastTrim : Nat) : ZMod modulus) + 1) := by
    right
    rw [successor]
    have quarter : 2 ^ modulus.size = 2 ^ maxBoundInBits modulus * 2 ^ 2 := by
      have fewer := narrow_fewer narrow
      rw [← Nat.pow_add]
      congr 1
      unfold maxBoundInBits
      omega
    omega
  refine (exact_leq_fixed (known.append one) valid passes).bind fun leqShift two compared => ?_
  have isLeq := compared.1
  refine (exact_fill (computes_is_equal_to_fixed lastLen.value 0)).bind fun fullLast three isFull => ?_
  have bits := @computes_xor modulus _ (decide (lastLen.value = 0))
    (decide (lastLen.value.val < (((lastTrim : Nat) : ZMod modulus) + 1).val))
  rw [← isFull.1, ← isLeq.1] at bits
  refine (exact_fill bits).weaken fun result four isXor => ?_
  rw [successor, decide_eq_decide.mpr zero, adjust_bits] at isXor
  exact isXor

structure Trimmed (align : Nat) (filler : ZMod modulus) (input : AssignedVector modulus)
    (nElems : Nat) (cells : List (ZMod modulus)) (output : AssignedVector modulus) : Prop where
  buffer : output.buffer.map (·.value) = shifted align (nElems % align)
    (shiftsBack align input.len.value.val nElems) filler (input.buffer.map (·.value))
  buffer_holds : ∀ entry ∈ output.buffer, Holds cells entry
  len : output.len.value.val = input.len.value.val - nElems
  len_holds : Holds cells output.len

theorem sub_usize {x y : Nat} (le : y ≤ x) : subUsize overflowChecks x y = some (x - y) :=
  if_pos le

theorem exact_trim (element : Vectorizable) (pos : 0 < align)
    (accepted : align = 1 ∨ align ≤ maxLen) (fits : 4 * (maxLen + align) ≤ modulus)
    (known : Known cells bounds) (valid : input.Valid maxLen cells)
    (enough : nElems ≤ input.len.value.val) :
    Exact (trimBeginning overflowChecks element maxLen align bounds input nElems) cells
      fun output cells => Trimmed align element.filler input nElems cells output := by
  have lenLe := valid.len_le
  have size : modulus < 2 ^ modulus.size := Nat.lt_size_self modulus
  unfold trimBeginning
  rw [sub_usize (by omega)]
  dsimp only
  rw [if_neg (by omega)]
  have complements := exact_linear_combination [(-1, input.len)] ((maxLen : Nat) : ZMod modulus)
    (by simpa using valid.len_holds)
  refine complements.bind fun complement one isComplement => ?_
  have complementVal := complement_val lenLe (by omega) isComplement.1
  have checked : Exact (assertLowerThanFixed bounds complement (maxLen + 1 - nElems)) (cells ++ one)
      fun after cells => Known cells after :=
    exact_of_allowed ((allowed_assert_lower (known.append one) isComplement.2 _).weaken
      fun _ _ both => both.2) (honest_assert_lower (by omega) (Or.inr (by omega)))
  refine checked.bind fun bounds two knownTwo => ?_
  have lenHolds : Holds ((cells ++ one) ++ two) input.len := (valid.len_holds.append one).append two
  refine (exact_div_rem knownTwo (by omega) accepted lenLe (by omega)).bind
    fun division three isDivision => ?_
  have lenMod : input.len.value.val % align < align := Nat.mod_lt _ pos
  have adjusted := exact_adjust isDivision.2.2 isDivision.2.1 (by rwa [isDivision.1])
    (Nat.mod_lt nElems pos) (by omega)
  rw [isDivision.1] at adjusted
  refine adjusted.bind fun adjust four isAdjust => ?_
  have constants := @exact_loop (ZMod modulus) (AssignedNative modulus) (ZMod modulus)
    ((((cells ++ one) ++ two) ++ three) ++ four) (fun value => constantCell value)
    (fun value entry cells => entry.value = value ∧ Holds cells entry)
    (fun value entry cells added both => ⟨both.1, both.2.append added⟩)
    (replicate (align + nElems % align) element.filler)
    (fun value _ added => exact_constant value)
  refine constants.bind fun fillers five all => ?_
  have isFiller := fillers_values all
  have trimLe : nElems % align ≤ maxLen := by
    have smaller := Nat.mod_le nElems align
    omega
  have bufferLength := padded_length isFiller valid.buffer_length trimLe
  rw [isAdjust.1]
  have selection := @exact_loop (ZMod modulus) (AssignedNative modulus)
    (AssignedNative modulus × AssignedNative modulus)
    (((((cells ++ one) ++ two) ++ three) ++ four) ++ five)
    (fun pair => fillCell (NativeGadget.select (bit (shiftsBack align input.len.value.val nElems))
      pair.1.value pair.2.value))
    (fun pair result cells => result.value =
      (if shiftsBack align input.len.value.val nElems then pair.1.value else pair.2.value) ∧
        Holds cells result)
    (fun pair result cells added both => ⟨both.1, both.2.append added⟩)
    (((fillers.take align ++ input.buffer.drop (nElems % align) ++ fillers.drop align).take maxLen).zip
      ((fillers.take align ++ input.buffer.drop (nElems % align) ++ fillers.drop align).drop align))
    (fun pair _ added => exact_fill (computes_select _ _ _))
  refine selection.bind fun selected six chosen => ?_
  have values := selected_values (by rw [length_take, length_drop]; omega) chosen
  have lenLater := (((lenHolds.append three).append four).append five).append six
  refine (exact_linear_combination [(1, input.len)] (-((nElems : Nat) : ZMod modulus))
    (by simpa using lenLater)).returning fun len seven isLen => ?_
  constructor
  · rw [values, shifted, ← padded_values isFiller, length_map, valid.buffer_length]
    split_ifs
    · rw [map_take]
    · rw [map_drop]
      symm
      apply take_of_length_le
      rw [length_drop, length_map]
      omega
  · exact fun entry mem =>
      (all_right chosen (fun _ _ both => both.2) entry mem).append seven
  · have cast : len.value = ((input.len.value.val - nElems : Nat) : ZMod modulus) := by
      rw [isLen.1, Nat.cast_sub enough, ZMod.natCast_zmod_val]
      simp [sub_eq_neg_add]
    rw [cast, val_natCast_lt (by omega)]
  · exact isLen.2

variable {output : AssignedVector modulus}

omit [Fact modulus.Prime] in
theorem trimmed_value (aligned : align ∣ maxLen) (pos : 0 < align)
    (valid : input.Valid maxLen cells) (enough : nElems ≤ input.len.value.val)
    {after : List (ZMod modulus)} (trimmed : Trimmed align filler input nElems after output) :
    output.value maxLen align = (input.value maxLen align).drop nElems := by
  have lenLe := valid.len_le
  have whole := lims_le aligned pos lenLe
  have shorter := lims_le aligned pos (Nat.sub_le_of_le_add (by omega) :
    input.len.value.val - nElems ≤ maxLen)
  have padding := trimmed_padding pos enough
  have trimLe : nElems % align ≤ nElems := Nat.mod_le nElems align
  have length : (input.buffer.map (·.value)).length = maxLen := by
    rw [length_map, valid.buffer_length]
  unfold AssignedVector.value dataOf
  rw [trimmed.buffer, trimmed.len, lims_eq, lims_eq]
  dsimp only
  apply ext_getElem?
  intro index
  simp only [getElem?_drop, getElem?_take]
  by_cases inside : index < input.len.value.val - nElems
  · rw [if_pos (by omega), if_pos (by omega)]
    have moved := @shifted_entry (ZMod modulus) align (nElems % align)
      (shiftsBack align input.len.value.val nElems) filler (input.buffer.map (·.value))
      (maxLen - input.len.value.val - (align - input.len.value.val % align) % align +
        (nElems + index)) (by omega) (by omega) (by
          simp only [shiftsBack, decide_eq_true_eq]
          omega)
    rw [← moved]
    congr 1
    simp only [shiftsBack, decide_eq_true_eq]
    omega
  · rw [if_neg (by omega), if_neg (by omega)]

theorem trim_refused (element : Vectorizable) (atMost : nElems ≤ maxLen)
    (fits : 4 * (maxLen + align) ≤ modulus) (known : Known cells bounds)
    (valid : input.Valid maxLen cells) (short : input.len.value.val < nElems)
    (outcome : AssignedVector modulus × List (ZMod modulus)) :
    ¬(trimBeginning overflowChecks element maxLen align bounds input nElems cells).allows
      outcome := by
  have lenLe := valid.len_le
  unfold trimBeginning
  rw [sub_usize (by omega)]
  dsimp only
  split_ifs with refused
  · exact panic_allows outcome
  · rintro ⟨first, allowed, later⟩
    have complements := exact_linear_combination [(-1, input.len)] ((maxLen : Nat) : ZMod modulus)
      (by simpa using valid.len_holds)
    rcases complements.allowed first allowed with ⟨one, same, isComplement⟩
    have complementVal := complement_val lenLe (by omega) isComplement.1
    rcases later with ⟨second, asserted, -⟩
    rw [same] at asserted isComplement
    rcases allowed_assert_lower (known.append one) isComplement.2 _ second asserted with
      ⟨two, -, below, -⟩
    omega

/-! ### The resize -/

theorem exact_assign_many (element : Vectorizable) (bytes : 8 < modulus.size) (count : Nat) :
    Exact (element.assignMany (replicate count (element.filler : ZMod modulus))) cells
      fun entries cells => entries.length = count ∧ ∀ entry ∈ entries, Holds cells entry := by
  have monotone : ∀ (value : ZMod modulus) (entry : AssignedNative modulus)
      (cells added : List (ZMod modulus)), Holds cells entry → Holds (cells ++ added) entry :=
    fun value entry cells added holds => holds.append added
  have filled : ∀ {fresh : ZMod modulus → Circuit (ZMod modulus)},
      (∀ value ∈ replicate count element.filler, Satisfies (fresh value) value) →
      Exact ((replicate count element.filler).mapM fun value => fillCell (fresh value)) cells
        fun entries cells => entries.length = count ∧ ∀ entry ∈ entries, Holds cells entry := by
    intro fresh satisfies
    refine (exact_loop monotone _ fun value mem added => ?_).weaken fun entries added all => ?_
    · exact ⟨(honest_fill (satisfies value mem)).weaken fun _ _ both => both.2,
        (@allowed_fill _ _ _ (fun _ => True) fun _ _ => trivial).weaken fun _ _ both => both.2⟩
    · exact ⟨by rw [← all.length_eq, length_replicate], all_right all fun _ _ holds => holds⟩
  cases element with
  | native => exact filled fun value _ => satisfies_assign value
  | byte =>
    refine filled fun value mem => ?_
    rw [eq_of_mem_replicate mem]
    have small : (0 : ZMod modulus).val < 2 ^ 8 := by
      rw [ZMod.val_zero]
      decide
    exact ⟨assign_less_honest bytes small, assign_less_allows.mpr ⟨bytes, small⟩⟩

omit [Fact modulus.Prime] in
theorem resized_value {larger : Nat} (aligned : align ∣ maxLen) (pos : 0 < align)
    (grows : maxLen < larger) (valid : input.Valid maxLen cells)
    {pad : List (AssignedNative modulus)} (padLength : pad.length = larger - maxLen)
    (buffer : output.buffer = pad ++ input.buffer) (len : output.len = input.len) :
    output.value larger align = input.value maxLen align := by
  have whole := lims_le aligned pos valid.len_le
  unfold AssignedVector.value dataOf
  rw [buffer, len, lims_eq, lims_eq, map_append]
  dsimp only
  apply ext_getElem?
  intro index
  simp only [getElem?_drop, getElem?_take]
  by_cases inside : index < input.len.value.val
  · rw [if_pos (by omega), if_pos (by omega), getElem?_append_right
      (by rw [length_map]; omega), length_map, padLength]
    congr 1
    omega
  · rw [if_neg (by omega), if_neg (by omega)]

/-- The data, its length and its alignment; vectors that are too short have no run. -/
structure VectorExact (overflowChecks : Bool) (element : Vectorizable) (maxLen align : Nat)
    (cells : List (ZMod modulus)) (bounds : Bounds modulus) (input : AssignedVector modulus)
    (nElems : Nat) : Prop where
  refused : input.len.value.val < nElems → ∀ outcome,
    ¬(trimBeginning overflowChecks element maxLen align bounds input nElems cells).allows outcome
  trimmed : nElems ≤ input.len.value.val →
    Exact (trimBeginning overflowChecks element maxLen align bounds input nElems) cells
      fun output cells => output.Valid maxLen cells ∧ output.len.value.val = input.len.value.val - nElems ∧
        output.value maxLen align = (input.value maxLen align).drop nElems
  resized : ∀ larger, align ∣ larger → maxLen < larger →
    Exact (resize element maxLen larger align input) cells fun output cells =>
      output.Valid larger cells ∧ output.len = input.len ∧
        output.value larger align = input.value maxLen align ∧
          align ∣ (getLims larger align output.len.value.val).1

theorem start_aligned {larger len : Nat} (aligned : align ∣ larger) (pos : 0 < align) :
    align ∣ (getLims larger align len).1 := by
  have below : len % align < align := Nat.mod_lt _ pos
  have whole : align ∣ len + (align - len % align) % align := by
    rw [pad_eq _ below]
    have division := Nat.div_add_mod len align
    split_ifs with none
    · exact Nat.dvd_of_mod_eq_zero none
    · exact ⟨len / align + 1, by rw [Nat.mul_succ]; omega⟩
  rw [lims_eq, Nat.sub_sub]
  exact Nat.dvd_sub aligned whole

/-- Trimming and resizing are exact for every buffer with a chunk, or with chunks of one cell. -/
theorem trim_and_resize (overflowChecks : Bool) (element : Vectorizable) {maxLen align nElems : Nat}
    (atMost : nElems ≤ maxLen) (aligned : align ∣ maxLen) (positive : 0 < align) (chunked : align = 1 ∨ 0 < maxLen)
    (fits : 4 * (maxLen + align) ≤ modulus) (bytes : 8 < modulus.size)
    (known : Known cells bounds) {input : AssignedVector modulus} (valid : input.Valid maxLen cells) :
    VectorExact overflowChecks element maxLen align cells bounds input nElems where
  refused := fun short => trim_refused element atMost fits known valid short
  trimmed := by
    intro enough
    have accepted : align = 1 ∨ align ≤ maxLen :=
      chunked.imp_right fun some => Nat.le_of_dvd some aligned
    refine (exact_trim element positive accepted fits known valid enough).weaken
      fun output added trimmed => ?_
    have lenLe := valid.len_le
    have length := congrArg List.length trimmed.buffer
    have shift : nElems % align ≤ (input.buffer.map (·.value)).length := by
      have smaller := Nat.mod_le nElems align
      rw [length_map, valid.buffer_length]
      omega
    rw [length_map, shifted_length shift, length_map, valid.buffer_length] at length
    refine ⟨⟨trimmed.buffer_holds, length, trimmed.len_holds, ?_⟩, trimmed.len,
      trimmed_value aligned positive valid enough trimmed⟩
    rw [trimmed.len]
    omega
  resized := by
    intro larger whole grows
    unfold resize
    rw [if_neg (by
      rw [Nat.mod_eq_zero_of_dvd whole]
      omega)]
    refine (exact_assign_many element bytes (larger - maxLen)).returning fun pad added filled => ?_
    refine ⟨⟨?_, ?_, valid.len_holds.append added, le_trans valid.len_le (Nat.le_of_lt grows)⟩, rfl,
      resized_value aligned positive grows valid filled.1 rfl rfl, start_aligned whole positive⟩
    · intro entry mem
      rcases mem_append.mp mem with new | old
      · exact filled.2 entry new
      · exact (valid.buffer_holds entry old).append added
    · rw [length_append, filled.1, valid.buffer_length]
      omega

theorem empty_refused (element : Vectorizable) (chunk : 2 ≤ align) (input : AssignedVector modulus)
    (nElems : Nat) (outcome : AssignedVector modulus × List (ZMod modulus)) :
    ¬(trimBeginning overflowChecks element 0 align bounds input nElems cells).allows outcome := by
  unfold trimBeginning
  cases subUsize overflowChecks (0 + 1) nElems with
  | none => exact panic_allows outcome
  | some room =>
    dsimp only
    rw [if_neg (by omega)]
    rintro ⟨complement, -, after, -, division, divided, -⟩
    unfold divRem at divided
    rw [if_neg (by omega)] at divided
    rw [if_pos (by rw [Option.getD_some]; omega)] at divided
    exact panic_allows division divided

end Programs

/-! ### Two vectors -/

def emptyVector : AssignedVector scalarModulus where
  buffer := []
  len := { cell := .advice 0, value := 0 }

theorem empty_valid : emptyVector.Valid 0 [0] where
  buffer_holds := fun _ mem => absurd mem not_mem_nil
  buffer_length := rfl
  len_holds := rfl
  len_le := Nat.le_of_eq ZMod.val_zero

/-- Nothing is trimmed off the empty vector, which is long enough. -/
theorem empty_trim : emptyVector.Valid 0 [0] ∧ ¬emptyVector.len.value.val < 0 ∧
    ∀ outcome, ¬(trimBeginning true .native 0 2 [] emptyVector 0 [0]).allows outcome :=
  ⟨empty_valid, Nat.not_lt_zero _, empty_refused .native (Nat.le_refl 2) emptyVector 0⟩

/-- The first cells of a circuit that holds their positions. -/
def countingVector (maxLen len : Nat) : AssignedVector scalarModulus where
  buffer := (range maxLen).map fun position =>
    { cell := .advice position, value := (position : ZMod scalarModulus) }
  len := { cell := .advice len, value := (len : ZMod scalarModulus) }

def countingCells (count : Nat) : List (ZMod scalarModulus) :=
  (range count).map fun position : Nat => (position : ZMod scalarModulus)

theorem counting_valid {maxLen len : Nat} (below : len < maxLen) (fits : maxLen < scalarModulus) :
    (countingVector maxLen len).Valid maxLen (countingCells maxLen) := by
  have holds : ∀ position < maxLen, Holds (countingCells maxLen)
      { cell := .advice position, value := (position : ZMod scalarModulus) } := by
    intro position inside
    show (countingCells maxLen)[position]? = some _
    rw [countingCells, getElem?_map, getElem?_range inside, Option.map_some]
  constructor
  · intro entry mem
    rcases mem_map.mp mem with ⟨position, inside, rfl⟩
    exact holds position (mem_range.mp inside)
  · exact (length_map _).trans length_range
  · exact holds len below
  · show ((len : Nat) : ZMod scalarModulus).val ≤ maxLen
    rw [val_natCast_lt (by omega)]
    omega

/-- One element is trimmed off three, in chunks of two. -/
theorem trim_one_of_three :
    VectorExact true .native 4 2 (countingCells 4) [] (countingVector 4 3) 1 :=
  trim_and_resize true .native (by decide) ⟨2, rfl⟩ Nat.two_pos (Or.inr (by decide)) (by decide)
    (by rw [scalar_modulus_size]; decide) (fun _ member => absurd member not_mem_nil)
    (counting_valid (by decide) (by decide))

end Midfall.VectorTrimming
