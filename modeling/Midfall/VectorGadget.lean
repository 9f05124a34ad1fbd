import Midfall.NativeGadget

/-!
# Equality of variable-length vectors

A vector of at most `maxLen` elements stands at the end of its buffer, aligned
to chunks of `align` cells; the cells around the data are unconstrained.
Equality compares the cells that `padding_flag` does not mark. The flags toggle
a running bit at the start of the data, but only in front of the last chunk, so
data that starts in the last chunk is taken for padding.
-/

namespace Midfall.VectorGadget

open CircuitPrograms NativeGadget List

variable {modulus maxLen : Nat}

/-- The range where the data is placed in the buffer. -/
def getLims (maxLen align len : Nat) : Nat × Nat :=
  let finalPadLen := (align - len % align) % align
  (maxLen - len - finalPadLen, maxLen - finalPadLen)

/-- The data of a buffer. -/
def dataOf {Entry : Type} (maxLen align : Nat) (buffer : List Entry) (len : Nat) : List Entry :=
  let lims := getLims maxLen align len
  (buffer.take lims.2).drop lims.1

structure AssignedVector (modulus maxLen : Nat) where
  buffer : List (ZMod modulus)
  len : ZMod modulus
  buffer_length : buffer.length = maxLen
  len_le : len.val ≤ maxLen

def AssignedVector.value (align : Nat) (vector : AssignedVector modulus maxLen) :
    List (ZMod modulus) :=
  dataOf maxLen align vector.buffer vector.len.val

/-- The positions of the buffer outside the data. -/
def isPadding (align : Nat) (vector : AssignedVector modulus maxLen) (index : Nat) : Bool :=
  let lims := getLims maxLen align vector.len.val
  index < lims.1 || lims.2 ≤ index

def SameContents (align : Nat) (x y : AssignedVector modulus maxLen) : Prop :=
  x.len = y.len ∧ x.value align = y.value align

instance (align : Nat) (x y : AssignedVector modulus maxLen) :
    Decidable (SameContents align x y) := by
  unfold SameContents
  exact inferInstance

variable [Fact modulus.Prime]

/-- Where the data starts and ends, as field elements. -/
def getLimits (align : Nat) (input : AssignedVector modulus maxLen) :
    Circuit (ZMod modulus × ZMod modulus) := do
  let offset ← rem input.len align maxLen
  if maxLen < align then panic
  else
    let end1 ← addConstant offset ((maxLen - align : Nat) : ZMod modulus)
    let end2 ← addConstant end1 (align : ZMod modulus)
    let isZero ← isEqualToFixed offset 0
    let last ← select isZero end2 end1
    let start ← sub last input.len
    return (start, last)

/-- Toggle the running bit at the limit; the bits and the last one. -/
def toggleFlags (limit : ZMod modulus) (isData : ZMod modulus) :
    List Nat → Circuit (List (ZMod modulus) × ZMod modulus)
  | [] => return ([], isData)
  | index :: rest => do
    let reached ← isEqualToFixed limit (index : ZMod modulus)
    let toggled ← xor [isData, reached]
    let later ← toggleFlags limit toggled rest
    return (toggled :: later.1, later.2)

def paddingFlag (align : Nat) (input : AssignedVector modulus maxLen) :
    Circuit (List (ZMod modulus)) := do
  let limits ← getLimits align input
  let result ← toggleFlags limits.1 (bit true) (range (maxLen - align))
  let lastChunk ← toggleFlags limits.2 result.2 (range' (maxLen - align) align)
  return result.1 ++ lastChunk.1

def isEqual (align : Nat) (x y : AssignedVector modulus maxLen) : Circuit (ZMod modulus) := do
  let flags ← paddingFlag align x
  let valChecks ← (flags.zip (x.buffer.zip y.buffer)).mapM fun entry => do
    let equal ← NativeGadget.isEqual entry.2.1 entry.2.2
    or [entry.1, equal]
  let lenCheck ← NativeGadget.isEqual x.len y.len
  and (valChecks ++ [lenCheck])

def assertEqual (align : Nat) (x y : AssignedVector modulus maxLen) : Circuit Unit := do
  let equal ← isEqual align x y
  assertEqualToFixed equal (bit true)

/-- The flags mark exactly the positions outside the data. -/
def MarksPadding (align : Nat) (x : AssignedVector modulus maxLen) : Prop :=
  Computes (paddingFlag align x) ((range maxLen).map fun index => bit (isPadding align x index))

structure EqualityExact (align : Nat) (x y : AssignedVector modulus maxLen) : Prop where
  marks : MarksPadding align x
  isEqual : Computes (isEqual align x y) (bit (SameContents align x y))
  assertEqual : (assertEqual align x y).allows () ↔ SameContents align x y

section Limits

variable {align len : Nat}

def lastPosition (maxLen align len : Nat) : Nat :=
  if len % align = 0 then maxLen else maxLen - align + len % align

theorem get_lims_eq (pos : 0 < align) (reached : align ≤ maxLen) (len : Nat) :
    getLims maxLen align len =
      (lastPosition maxLen align len - len, lastPosition maxLen align len) := by
  have below : len % align < align := Nat.mod_lt _ pos
  unfold getLims lastPosition
  dsimp only
  by_cases whole : len % align = 0
  · rw [whole, Nat.sub_zero, Nat.mod_self, if_pos rfl, Nat.sub_zero, Nat.sub_zero]
  · have pad : (align - len % align) % align = align - len % align := Nat.mod_eq_of_lt (by omega)
    rw [pad, if_neg whole, Prod.mk.injEq]
    omega

theorem next_chunk_le (aligned : align ∣ maxLen) (pos : 0 < align) (le : len ≤ maxLen)
    (partly : len % align ≠ 0) : align * (len / align) + align ≤ maxLen := by
  rcases aligned with ⟨chunks, rfl⟩
  have fewer : len / align < chunks := by
    rw [Nat.div_lt_iff_lt_mul pos, Nat.mul_comm]
    rcases Nat.lt_or_eq_of_le le with less | equal
    · exact less
    · rw [equal, Nat.mul_mod_right] at partly
      exact absurd rfl partly
  rw [← Nat.mul_succ]
  exact Nat.mul_le_mul_left align fewer

theorem len_le_last (aligned : align ∣ maxLen) (pos : 0 < align) (le : len ≤ maxLen) :
    len ≤ lastPosition maxLen align len := by
  have below : len % align < align := Nat.mod_lt _ pos
  unfold lastPosition
  split_ifs with whole
  · exact le
  · have division := Nat.div_add_mod len align
    have chunk := next_chunk_le aligned pos le whole
    omega

theorem last_le (pos : 0 < align) (reached : align ≤ maxLen) :
    lastPosition maxLen align len ≤ maxLen ∧ maxLen - align ≤ lastPosition maxLen align len := by
  have below : len % align < align := Nat.mod_lt _ pos
  unfold lastPosition
  split_ifs <;> omega

theorem starts_in_last_chunk (aligned : align ∣ maxLen) (pos : 0 < align)
    (reached : align ≤ maxLen) (le : len ≤ maxLen) :
    lastPosition maxLen align len - len < maxLen - align ↔ align < len := by
  have below : len % align < align := Nat.mod_lt _ pos
  have division := Nat.div_add_mod len align
  unfold lastPosition
  split_ifs with whole
  · rcases Nat.lt_or_ge len align with less | more
    · have zero : len = 0 := by rwa [Nat.mod_eq_of_lt less] at whole
      omega
    · omega
  · constructor
    · intro before
      rcases Nat.eq_zero_or_pos (len / align) with none | some
      · rw [none, Nat.mul_zero] at division
        omega
      · have chunk : align ≤ align * (len / align) := Nat.le_mul_of_pos_right _ some
        omega
    · intro longer
      have chunk : align ≤ align * (len / align) :=
        Nat.le_mul_of_pos_right _ (Nat.div_pos (Nat.le_of_lt longer) pos)
      have inside := len_le_last aligned pos le
      rw [lastPosition, if_neg whole] at inside
      omega

end Limits

section Flags

variable {align : Nat} (x : AssignedVector modulus maxLen)

theorem computes_get_limits (aligned : align ∣ maxLen) (pos : 0 < align)
    (reached : align ≤ maxLen) (fits : 2 * maxLen ≤ modulus) :
    Computes (getLimits align x)
      (((lastPosition maxLen align x.len.val - x.len.val : Nat) : ZMod modulus),
        ((lastPosition maxLen align x.len.val : Nat) : ZMod modulus)) := by
  have cast : ((x.len.val : Nat) : ZMod modulus) = x.len := ZMod.natCast_zmod_val _
  have offset := @computes_rem modulus _ x.len.val align maxLen (by omega) reached (by omega)
    x.len_le
  rw [cast] at offset
  have zero : ((x.len.val % align : Nat) : ZMod modulus) = 0 ↔ x.len.val % align = 0 := by
    have below : x.len.val % align < align := Nat.mod_lt _ pos
    rw [← ZMod.val_eq_zero, val_natCast_lt (by omega)]
  have inside := len_le_last aligned pos x.len_le
  unfold getLimits
  refine offset.bind ?_
  rw [if_neg (by omega)]
  refine (computes_add_constant _ _).bind ?_
  refine (computes_add_constant _ _).bind ?_
  refine (computes_is_equal_to_fixed _ _).bind ?_
  refine (computes_select _ _ _).bind ?_
  have last : (if decide (((x.len.val % align : Nat) : ZMod modulus) = 0) = true then
      ((x.len.val % align : Nat) : ZMod modulus) + ((maxLen - align : Nat) : ZMod modulus) +
        (align : ZMod modulus)
      else ((x.len.val % align : Nat) : ZMod modulus) + ((maxLen - align : Nat) : ZMod modulus)) =
        ((lastPosition maxLen align x.len.val : Nat) : ZMod modulus) := by
    unfold lastPosition
    by_cases whole : x.len.val % align = 0
    · rw [if_pos (decide_eq_true (zero.mpr whole)), if_pos whole, whole, ← Nat.cast_add,
        ← Nat.cast_add]
      congr 1
      omega
    · rw [if_neg (by simpa using mt zero.mp whole), if_neg whole, ← Nat.cast_add]
      congr 1
      omega
  rw [last]
  have start : ((lastPosition maxLen align x.len.val : Nat) : ZMod modulus) - x.len =
      ((lastPosition maxLen align x.len.val - x.len.val : Nat) : ZMod modulus) := by
    rw [Nat.cast_sub inside, cast]
  have difference := computes_sub ((lastPosition maxLen align x.len.val : Nat) : ZMod modulus) x.len
  rw [start] at difference
  exact difference.returning fun start => (start, _)

theorem computes_toggle_flags {limit : Nat} (inField : limit < modulus) (isData : Bool)
    (first count : Nat) (fits : first + count ≤ modulus) :
    Computes (toggleFlags (limit : ZMod modulus) (bit isData) (range' first count))
      ((range' first count).map fun index =>
          bit (isData ^^ (first ≤ limit && limit ≤ index)),
        bit (isData ^^ (first ≤ limit && limit < first + count))) := by
  induction count generalizing first isData with
  | zero =>
    have never : (decide (first ≤ limit) && decide (limit < first + 0)) = false := by
      simp only [Bool.and_eq_false_iff, decide_eq_false_iff_not]
      omega
    rw [never, Bool.xor_false]
    exact computes_pure _
  | succ count ih =>
    have same : ((limit : ZMod modulus) = (first : ZMod modulus)) ↔ limit = first := by
      rw [← (ZMod.val_injective modulus).eq_iff, val_natCast_lt inField, val_natCast_lt (by omega)]
    rw [range'_succ]
    unfold toggleFlags
    refine (computes_is_equal_to_fixed _ _).bind ?_
    refine (computes_xor _ _).bind ?_
    have rest := ih (isData ^^ decide ((limit : ZMod modulus) = (first : ZMod modulus)))
      (first + 1) (by omega)
    have result := rest.returning fun later =>
      ((bit (isData ^^ decide ((limit : ZMod modulus) = (first : ZMod modulus))) : ZMod modulus) ::
        later.1, later.2)
    have head : (isData ^^ decide ((limit : ZMod modulus) = (first : ZMod modulus))) =
        (isData ^^ (decide (first ≤ limit) && decide (limit ≤ first))) := by
      congr 1
      rw [← Bool.decide_and, decide_eq_decide, same]
      omega
    have tail : ∀ index ∈ range' (first + 1) count,
        ((isData ^^ decide ((limit : ZMod modulus) = (first : ZMod modulus))) ^^
          (decide (first + 1 ≤ limit) && decide (limit ≤ index))) =
        (isData ^^ (decide (first ≤ limit) && decide (limit ≤ index))) := by
      intro index mem
      have inside := mem_range'_1.mp mem
      rw [Bool.xor_assoc]
      congr 1
      simp only [same]
      by_cases here : limit = first
      · subst here
        simp
        omega
      · have after : (first + 1 ≤ limit) ↔ first ≤ limit := by omega
        simp [here, after]
    have last : ((isData ^^ decide ((limit : ZMod modulus) = (first : ZMod modulus))) ^^
        (decide (first + 1 ≤ limit) && decide (limit < first + 1 + count))) =
        (isData ^^ (decide (first ≤ limit) && decide (limit < first + (count + 1)))) := by
      rw [Bool.xor_assoc]
      congr 1
      simp only [same]
      by_cases here : limit = first
      · subst here
        simp
      · have after : (first + 1 ≤ limit) ↔ first ≤ limit := by omega
        have bound : first + 1 + count = first + (count + 1) := by omega
        simp [here, after, bound]
    have mapped : (range' (first + 1) count).map (fun index =>
        (bit ((isData ^^ decide ((limit : ZMod modulus) = (first : ZMod modulus))) ^^
          (decide (first + 1 ≤ limit) && decide (limit ≤ index))) : ZMod modulus)) =
        (range' (first + 1) count).map fun index =>
          bit (isData ^^ (decide (first ≤ limit) && decide (limit ≤ index))) :=
      map_congr_left fun index mem => congrArg bit (tail index mem)
    rw [mapped, last, head] at result
    rw [head]
    exact result

def computedFlag (maxLen align len index : Nat) : Bool :=
  let last := lastPosition maxLen align len
  if index < maxLen - align then index < last - len
  else (maxLen - align ≤ last - len) ^^ (last ≤ index)

theorem computes_padding_flag (aligned : align ∣ maxLen) (pos : 0 < align)
    (reached : align ≤ maxLen) (fits : 2 * maxLen ≤ modulus) :
    Computes (paddingFlag align x)
      ((range maxLen).map fun index => bit (computedFlag maxLen align x.len.val index)) := by
  have bounds := @last_le maxLen align x.len.val pos reached
  have limits := computes_get_limits x aligned pos reached fits
  have front := @computes_toggle_flags modulus _
    (lastPosition maxLen align x.len.val - x.len.val) (by omega) true 0 (maxLen - align) (by omega)
  have back := @computes_toggle_flags modulus _ (lastPosition maxLen align x.len.val) (by omega)
    (true ^^ (decide (0 ≤ lastPosition maxLen align x.len.val - x.len.val) &&
      decide (lastPosition maxLen align x.len.val - x.len.val < 0 + (maxLen - align))))
    (maxLen - align) align (by omega)
  have split : range maxLen = range' 0 (maxLen - align) ++
      range' (maxLen - align) align := by
    have parts := @range'_append_1 0 (maxLen - align) align
    rw [Nat.zero_add, Nat.sub_add_cancel reached] at parts
    rw [range_eq_range', parts]
  have frontFlags : (range' 0 (maxLen - align)).map (fun index => (bit (true ^^
      (decide (0 ≤ lastPosition maxLen align x.len.val - x.len.val) &&
        decide (lastPosition maxLen align x.len.val - x.len.val ≤ index))) : ZMod modulus)) =
      (range' 0 (maxLen - align)).map fun index =>
        bit (computedFlag maxLen align x.len.val index) := by
    apply map_congr_left
    intro index mem
    have inside := (mem_range'_1.mp mem).2
    rw [Nat.zero_add] at inside
    congr 1
    simp only [computedFlag, if_pos inside, Nat.zero_le, decide_true, Bool.true_and, Bool.true_xor]
    rw [← decide_not, decide_eq_decide]
    omega
  have backFlags : (range' (maxLen - align) align).map (fun index => (bit ((true ^^
      (decide (0 ≤ lastPosition maxLen align x.len.val - x.len.val) &&
        decide (lastPosition maxLen align x.len.val - x.len.val < 0 + (maxLen - align)))) ^^
        (decide (maxLen - align ≤ lastPosition maxLen align x.len.val) &&
          decide (lastPosition maxLen align x.len.val ≤ index))) : ZMod modulus)) =
      (range' (maxLen - align) align).map fun index =>
        bit (computedFlag maxLen align x.len.val index) := by
    apply map_congr_left
    intro index mem
    have inside := (mem_range'_1.mp mem).1
    congr 1
    simp only [computedFlag, if_neg (Nat.not_lt.mpr inside), Nat.zero_le, Nat.zero_add, decide_true,
      Bool.true_and, Bool.true_xor, bounds.2]
    rw [← decide_not]
    congr 1
    rw [decide_eq_decide]
    omega
  rw [frontFlags] at front
  rw [backFlags] at back
  unfold paddingFlag
  refine limits.bind ?_
  rw [range_eq_range']
  refine front.bind ?_
  rw [split, map_append]
  exact back.returning fun lastChunk => _ ++ lastChunk.1

omit [Fact modulus.Prime] in
/-- The flags are right exactly when the data is empty or starts in front of the last chunk. -/
theorem computed_flags_iff (aligned : align ∣ maxLen) (pos : 0 < align)
    (reached : align ≤ maxLen) :
    (∀ index < maxLen, computedFlag maxLen align x.len.val index = isPadding align x index) ↔
      x.len.val = 0 ∨ align < x.len.val := by
  have bounds := @last_le maxLen align x.len.val pos reached
  have inside := len_le_last aligned pos x.len_le
  have starts := starts_in_last_chunk aligned pos reached x.len_le
  simp only [computedFlag, isPadding, get_lims_eq pos reached]
  constructor
  · intro right
    rw [← starts]
    by_contra neither
    -- the first position of the last chunk holds data
    have first := right (maxLen - align) (by omega)
    rw [if_neg (by omega)] at first
    have toggled : decide (maxLen - align ≤
        lastPosition maxLen align x.len.val - x.len.val) = true := decide_eq_true (by omega)
    have whole : x.len.val ≤ align := by
      by_contra longer
      exact neither (Or.inr (starts.mpr (Nat.lt_of_not_le longer)))
    have start : lastPosition maxLen align x.len.val - x.len.val = maxLen - align := by
      have below : x.len.val % align < align := Nat.mod_lt _ pos
      have nonempty : x.len.val ≠ 0 := fun empty => neither (Or.inl empty)
      unfold lastPosition
      rcases Nat.lt_or_eq_of_le whole with less | equal
      · rw [Nat.mod_eq_of_lt less, if_neg nonempty]
        omega
      · rw [equal, Nat.mod_self, if_pos rfl]
    have after : maxLen - align < lastPosition maxLen align x.len.val := by omega
    have notYet : decide (lastPosition maxLen align x.len.val ≤ maxLen - align) = false :=
      decide_eq_false (by omega)
    rw [toggled, notYet, start] at first
    simp at first
  · intro condition index below
    have front : index < maxLen - align →
        decide (index < lastPosition maxLen align x.len.val - x.len.val) =
          (decide (index < lastPosition maxLen align x.len.val - x.len.val) ||
            decide (lastPosition maxLen align x.len.val ≤ index)) := by
      intro inFront
      have never : decide (lastPosition maxLen align x.len.val ≤ index) = false :=
        decide_eq_false (by omega)
      rw [never, Bool.or_false]
    split_ifs with inFront
    · exact front inFront
    · rcases condition with empty | longer
      · have full : lastPosition maxLen align x.len.val = maxLen := by
          rw [lastPosition, empty, Nat.zero_mod, if_pos rfl]
        rw [full, empty, Nat.sub_zero]
        have all : decide (index < maxLen) = true := decide_eq_true below
        have started : decide (maxLen - align ≤ maxLen) = true := decide_eq_true (by omega)
        have notYet : decide (maxLen ≤ index) = false := decide_eq_false (by omega)
        rw [all, started, notYet]
        rfl
      · have before := starts.mpr longer
        have started : decide (maxLen - align ≤
            lastPosition maxLen align x.len.val - x.len.val) = false := decide_eq_false (by omega)
        have behind : decide (index < lastPosition maxLen align x.len.val - x.len.val) = false :=
          decide_eq_false (by omega)
        rw [started, behind, Bool.false_xor, Bool.false_or]

theorem marks_padding_iff (aligned : align ∣ maxLen) (pos : 0 < align)
    (reached : align ≤ maxLen) (fits : 2 * maxLen ≤ modulus) :
    MarksPadding align x ↔ x.len.val = 0 ∨ align < x.len.val := by
  have computed := computes_padding_flag x aligned pos reached fits
  rw [← computed_flags_iff x aligned pos reached]
  constructor
  · intro marks index below
    have same := computed.unique marks
    have entry := congrArg (fun flags : List (ZMod modulus) => flags[index]?) same
    simp only [getElem?_map, getElem?_range below, Option.map_some, Option.some.injEq] at entry
    exact bit_injective entry
  · intro same
    unfold MarksPadding
    have flags : (range maxLen).map (fun index =>
        (bit (computedFlag maxLen align x.len.val index) : ZMod modulus)) =
        (range maxLen).map fun index => bit (isPadding align x index) := by
      apply map_congr_left
      intro index mem
      rw [same index (mem_range.mp mem)]
    rwa [flags] at computed

end Flags

section Equality

variable {align : Nat} (x y : AssignedVector modulus maxLen)

theorem buffer_eq : x.buffer = (range maxLen).map fun index => x.buffer.getD index 0 := by
  apply ext_getElem
  · rw [length_map, length_range, x.buffer_length]
  · intro index inside _
    rw [getElem_map, getElem_range, getD_eq_getElem _ _ inside]

theorem same_contents_iff (pos : 0 < align) (reached : align ≤ maxLen) :
    SameContents align x y ↔ x.len = y.len ∧
      ∀ index < maxLen, isPadding align x index = false →
        x.buffer.getD index 0 = y.buffer.getD index 0 := by
  have bounds := @last_le maxLen align x.len.val pos reached
  unfold SameContents AssignedVector.value dataOf isPadding
  apply and_congr_right
  intro sameLen
  rw [← sameLen]
  simp only [get_lims_eq pos reached, Bool.or_eq_false_iff, decide_eq_false_iff_not,
    Nat.not_lt, Nat.not_le]
  constructor
  · rintro same index below ⟨behind, before⟩
    have entry := congrArg (fun data : List (ZMod modulus) =>
      data[index - (lastPosition maxLen align x.len.val - x.len.val)]?) same
    simp only [getElem?_drop, Nat.add_sub_cancel' behind, getElem?_take_of_lt before]
      at entry
    rw [getD_eq_getElem?_getD, getD_eq_getElem?_getD, entry]
  · intro same
    apply ext_getElem
    · simp [x.buffer_length, y.buffer_length]
    · intro index inX inY
      rw [length_drop, length_take, x.buffer_length] at inX
      have entry := same (lastPosition maxLen align x.len.val - x.len.val + index) (by omega)
        ⟨by omega, by omega⟩
      rw [getD_eq_getElem _ _ (by rw [x.buffer_length]; omega),
        getD_eq_getElem _ _ (by rw [y.buffer_length]; omega)] at entry
      rw [getElem_drop, getElem_drop, getElem_take, getElem_take]
      exact entry

theorem computes_flagged_is_equal (flag : Nat → Bool)
    (flags : Computes (paddingFlag align x) ((range maxLen).map fun index => bit (flag index))) :
    Computes (isEqual align x y) (bit ((x.len = y.len) && (range maxLen).all fun index =>
      flag index || x.buffer.getD index 0 = y.buffer.getD index 0)) := by
  have entries : ((range maxLen).map fun index =>
      (bit (flag index) : ZMod modulus)).zip (x.buffer.zip y.buffer) =
        (range maxLen).map fun index => ((bit (flag index) : ZMod modulus),
          x.buffer.getD index 0, y.buffer.getD index 0) := by
    conv_lhs => rw [buffer_eq x, buffer_eq y]
    rw [zip_map', zip_map']
  have checks : Computes (((range maxLen).map fun index =>
      ((bit (flag index) : ZMod modulus), x.buffer.getD index 0,
        y.buffer.getD index 0)).mapM fun entry => do
          let equal ← NativeGadget.isEqual entry.2.1 entry.2.2
          or [entry.1, equal])
      (((range maxLen).map fun index => flag index ||
        decide (x.buffer.getD index 0 = y.buffer.getD index 0)).map bit) := by
    rw [mapM_map, map_map]
    exact computes_loop _ fun index _ =>
      (computes_is_equal _ _).bind (computes_or _ _)
  unfold isEqual
  refine flags.bind ?_
  rw [entries]
  refine checks.bind ?_
  refine (computes_is_equal _ _).bind ?_
  have conjunction := @computes_and modulus _ (((range maxLen).map fun index =>
    flag index || decide (x.buffer.getD index 0 = y.buffer.getD index 0)) ++
      [decide (x.len = y.len)]) (by simp)
  have value : (((range maxLen).map fun index => flag index ||
      decide (x.buffer.getD index 0 = y.buffer.getD index 0)) ++
        [decide (x.len = y.len)]).all id = ((x.len = y.len) && (range maxLen).all fun index =>
          flag index || decide (x.buffer.getD index 0 = y.buffer.getD index 0)) := by
    rw [all_append, all_map, Bool.and_comm]
    simp
  rw [value, map_append] at conjunction
  exact conjunction

theorem computes_vector_is_equal (pos : 0 < align) (reached : align ≤ maxLen)
    (marks : MarksPadding align x) :
    Computes (isEqual align x y) (bit (SameContents align x y)) := by
  have flagged := computes_flagged_is_equal x y (isPadding align x) marks
  have value : ((x.len = y.len) && (range maxLen).all fun index =>
      isPadding align x index || decide (x.buffer.getD index 0 = y.buffer.getD index 0)) =
        decide (SameContents align x y) := by
    rw [Bool.eq_iff_iff, decide_eq_true_iff, same_contents_iff x y pos reached]
    simp only [Bool.and_eq_true, decide_eq_true_iff, all_eq_true, mem_range, Bool.or_eq_true]
    apply and_congr_right
    intro sameLen
    apply forall_congr'
    intro index
    apply imp_congr_right
    intro below
    cases isPadding align x index with
    | true => simp
    | false => simp
  rwa [value] at flagged

theorem no_chunk_no_flags (empty : maxLen < align) :
    ¬MarksPadding align x := by
  intro marks
  have stopped : (getLimits align x).honest = none := by
    unfold getLimits
    simp only [if_pos empty]
    exact stops_later fun _ => rfl
  have run := marks.honest
  unfold paddingFlag at run
  change (getLimits align x).honest.bind _ = _ at run
  rw [stopped] at run
  cases run

/-- Padding flags and equality are right exactly for vectors that are empty or longer than
one chunk. -/
theorem equality_exact_iff (align : Nat) (aligned : align ∣ maxLen) (positive : 0 < align)
    (fits : 2 * maxLen ≤ modulus) :
    EqualityExact align x y ↔ 0 < maxLen ∧ (x.len.val = 0 ∨ align < x.len.val) := by
  constructor
  · intro exact_
    have nonempty : 0 < maxLen := by
      by_contra empty
      exact no_chunk_no_flags x (by omega) exact_.marks
    have reached := Nat.le_of_dvd nonempty aligned
    exact ⟨nonempty, (marks_padding_iff x aligned positive reached fits).mp exact_.marks⟩
  · rintro ⟨nonempty, condition⟩
    have reached := Nat.le_of_dvd nonempty aligned
    have marks := (marks_padding_iff x aligned positive reached fits).mpr condition
    have equal := computes_vector_is_equal x y positive reached marks
    refine ⟨marks, equal, ?_⟩
    unfold assertEqual
    simp only [bind_allows, equal.allows, exists_eq_left, assertEqualToFixed,
      NativeGadget.assertEqual, constrain_allows]
    constructor
    · intro one
      exact of_decide_eq_true (bit_injective one)
    · intro same
      rw [decide_eq_true same]

end Equality

instance ninetySevenPrime : Fact (Nat.Prime 97) := ⟨by norm_num⟩

theorem one_chunk_len : ((2 : Nat) : ZMod 97).val ≤ 2 := by decide

def oneChunk (first second : ZMod 97) : AssignedVector 97 2 where
  buffer := [first, second]
  len := ((2 : Nat) : ZMod 97)
  buffer_length := rfl
  len_le := one_chunk_len

def twoChunks (first second third : ZMod 97) : AssignedVector 97 4 where
  buffer := [first, second, third, 0]
  len := ((3 : Nat) : ZMod 97)
  buffer_length := rfl
  len_le := by decide

/-- The circuit accepts that two vectors of one chunk with different elements are equal. -/
theorem different_chunks_asserted_equal :
    (assertEqual 2 (oneChunk 5 7) (oneChunk 6 8)).allows () ∧
      ¬SameContents 2 (oneChunk 5 7) (oneChunk 6 8) := by
  refine ⟨?_, by decide⟩
  have flags := computes_padding_flag (oneChunk 5 7) (by decide : 2 ∣ 2) (by decide) (by decide)
    (by decide)
  have equal := computes_flagged_is_equal (oneChunk 5 7) (oneChunk 6 8) _ flags
  unfold assertEqual
  simp only [bind_allows, equal.allows, exists_eq_left, assertEqualToFixed,
    NativeGadget.assertEqual, constrain_allows]
  decide

theorem two_chunks_equality_exact : EqualityExact 2 (twoChunks 1 2 3) (twoChunks 1 2 4) :=
  (equality_exact_iff _ _ 2 (by decide) (by decide) (by decide)).mpr
    ⟨by decide, Or.inr (by decide)⟩

end Midfall.VectorGadget
