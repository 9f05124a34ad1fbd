import Midfall.PoseidonRounds
import Midfall.ProofReadOrder
import Midfall.VectorGadget

/-!
# Variable-length Poseidon

The circuit hashes the chunks of a vector's buffer from the first chunk of data
on; the off-circuit sponge absorbs the data itself. They differ in the last
chunk: the cells behind the data are meant to be zeroed at the chunk index
`maxLen / rate`, which no chunk has.
-/

namespace Midfall.PoseidonVarlen

open CircuitPrograms NativeGadget PoseidonRounds ProofReadOrder VectorGadget List

def nbPartialRounds : Nat := 60

/-- `PoseidonField`: the matrix and the constants. -/
abbrev PoseidonField (modulus : Nat) [Fact modulus.Prime] :=
  PoseidonConstants (ZMod modulus) nbPartialRounds

variable {modulus maxLen : Nat}

variable [Fact modulus.Prime]

def initialRegister (len : ZMod modulus) : List (ZMod modulus) :=
  (replicate width 0).set rate len

def absorbChunks (field : PoseidonField modulus) (register : List (ZMod modulus))
    (groups : List (List (ZMod modulus))) : List (ZMod modulus) :=
  groups.foldl (fun register chunk => permutationCpuRaw field (absorbChunk register chunk)) register

/-- `init` with the length, `absorb` and one `squeeze`. -/
def poseidonHash (field : PoseidonField modulus) (inputs : List (ZMod modulus)) : ZMod modulus :=
  (absorbChunks field (initialRegister (inputs.length : ZMod modulus))
    (chunks rate inputs)).headD 0

/-- The rounds of the region pin the state after the permutation. -/
def permutationChip (field : PoseidonField modulus) (state : List (ZMod modulus)) :
    Circuit (List (ZMod modulus)) := do
  let result ← assign (permutationCpuRaw field state)
  constrain (result = permutationCpuRaw field state)
  return result

/-- Update the register with the chunk if `update` is set. -/
def condUpdate (field : PoseidonField modulus) (register chunk : List (ZMod modulus))
    (update : ZMod modulus) : Circuit (List (ZMod modulus)) := do
  if chunk.length ≠ rate then panic
  else
    let sums ← addChunk add register chunk
    let result ← permutationChip field sums
    (register.zip result).mapM fun entry => select update entry.2 entry.1

def constrainLastChunk (chunk : List (ZMod modulus)) (offset : ZMod modulus) :
    Circuit (List (ZMod modulus)) := do
  if chunk.length ≠ rate then panic
  else
    let outcome ← (chunk.zipIdx.drop 1).foldlM (fun state entry => do
      let reached ← isEqualToFixed offset (entry.2 : ZMod modulus)
      let afterData ← xor [reached, state.1]
      let element ← select afterData 0 entry.1
      return (afterData, state.2 ++ [element])) (bit false, chunk.take 1)
    return outcome.2

def processChunk (field : PoseidonField modulus) (maxLen : Nat)
    (roundedLen lastChunkLen : ZMod modulus) (state : List (ZMod modulus) × ZMod modulus)
    (entry : List (ZMod modulus) × Nat) : Circuit (List (ZMod modulus) × ZMod modulus) := do
  let first ← isEqualToFixed roundedLen ((maxLen - entry.2 * rate : Nat) : ZMod modulus)
  let updating ← xor [first, state.2]
  let chunk ← if entry.2 = maxLen / rate then constrainLastChunk entry.1 lastChunkLen
    else pure entry.1
  let register ← condUpdate field state.1 chunk updating
  return (register, updating)

def poseidonVarlen (field : PoseidonField modulus) (input : AssignedVector modulus maxLen) :
    Circuit (ZMod modulus) := do
  if maxLen % rate ≠ 0 then panic
  else
    assertLowerThanFixed input.len (maxLen + 1)
    let lastChunkLen ← rem input.len rate maxLen
    let isZero ← isEqualToFixed lastChunkLen 0
    let lenRound ← sub input.len lastChunkLen
    let lenRoundExtra ← addConstant lenRound (rate : ZMod modulus)
    let roundedLen ← select isZero lenRound lenRoundExtra
    let outcome ← (chunks rate input.buffer).zipIdx.foldlM
      (processChunk field maxLen roundedLen lastChunkLen) (initialRegister input.len, bit false)
    return outcome.1.headD 0

def HashesData (field : PoseidonField modulus) (input : AssignedVector modulus maxLen) : Prop :=
  Computes (poseidonVarlen field input) (poseidonHash field (input.value rate))

section Chunks

variable {Entry : Type}

theorem chunks_append {size : Nat} (pos : 0 < size) (groups : Nat)
    {first : List Entry} (whole : first.length = groups * size) (second : List Entry) :
    chunks size (first ++ second) = chunks size first ++ chunks size second := by
  induction groups generalizing first with
  | zero =>
    rw [Nat.zero_mul, length_eq_zero_iff] at whole
    subst whole
    rw [nil_append]
    conv_rhs => arg 1; rw [chunks, if_pos (Or.inl rfl)]
    rfl
  | succ groups ih =>
    rw [Nat.succ_mul] at whole
    have nonempty : first ≠ [] := by
      intro empty
      rw [empty, length_nil] at whole
      omega
    have later := @ih (first.drop size) (by rw [length_drop]; omega)
    conv_lhs => rw [chunks, if_neg (by simp [nonempty, Nat.ne_of_gt pos])]
    conv_rhs => arg 1; rw [chunks, if_neg (by simp [nonempty, Nat.ne_of_gt pos])]
    rw [take_append_of_le_length (by omega), drop_append_of_le_length (by omega), later,
      cons_append]

theorem chunks_drop {size : Nat} (pos : 0 < size) (skipped : Nat) (entries : List Entry) :
    (chunks size entries).drop skipped = chunks size (entries.drop (skipped * size)) := by
  induction skipped generalizing entries with
  | zero => rw [Nat.zero_mul, drop_zero, drop_zero]
  | succ skipped ih =>
    by_cases empty : entries = []
    · subst empty
      rw [drop_nil, chunks, if_pos (Or.inl rfl), drop_nil]
    · conv_lhs => rw [chunks, if_neg (by simp [empty, Nat.ne_of_gt pos])]
      rw [drop_succ_cons, ih, drop_drop, Nat.succ_mul, Nat.add_comm]

end Chunks

section Computed

variable (field : PoseidonField modulus)

theorem computes_permutation_chip (state : List (ZMod modulus)) :
    Computes (permutationChip field state) (permutationCpuRaw field state) := by
  unfold permutationChip
  apply computes_assign
  · exact (computes_constrain rfl).returning fun _ => permutationCpuRaw field state
  · intro result other allowed
    simp only [bind_allows, constrain_allows] at allowed
    rcases allowed with ⟨_, same, -⟩
    exact same

theorem computes_cond_update {register chunk : List (ZMod modulus)}
    (registerLength : register.length = width) (full : chunk.length = rate) (update : Bool) :
    Computes (condUpdate field register chunk (bit update))
      (if update then permutationCpuRaw field (absorbChunk register chunk) else register) := by
  unfold condUpdate
  rw [if_neg (not_not.mpr full)]
  refine (computes_add_chunk computes_add register chunk).bind ?_
  refine (computes_permutation_chip field _).bind ?_
  have loop : Computes ((register.zip (permutationCpuRaw field (absorbChunk register chunk))).mapM
      fun entry => select (bit update) entry.2 entry.1)
      ((register.zip (permutationCpuRaw field (absorbChunk register chunk))).map
        fun entry => if update then entry.2 else entry.1) :=
    computes_loop _ fun entry _ => computes_select update entry.2 entry.1
  have sameLength : register.length = (permutationCpuRaw field (absorbChunk register chunk)).length := by
    rw [permutation_raw_length, registerLength]
  cases update with
  | true =>
    have second : (register.zip (permutationCpuRaw field (absorbChunk register chunk))).map
        (fun entry => if true = true then entry.2 else entry.1) =
          permutationCpuRaw field (absorbChunk register chunk) := by
      simpa using map_snd_zip (Nat.le_of_eq sameLength.symm)
    rwa [second] at loop
  | false =>
    have first : (register.zip (permutationCpuRaw field (absorbChunk register chunk))).map
        (fun entry => if false = true then entry.2 else entry.1) = register := by
      simpa using map_fst_zip (Nat.le_of_eq sameLength)
    rwa [first] at loop

theorem computes_chunk_loop {maxChunks target : Nat} {lastChunkLen : ZMod modulus}
    (fits : maxChunks * rate < modulus) (reached : target ≤ maxChunks)
    (groups : List (List (ZMod modulus))) (full : ∀ chunk ∈ groups, chunk.length = rate)
    (start : Nat) (inside : start + groups.length ≤ maxChunks) {register : List (ZMod modulus)}
    (registerLength : register.length = width) :
    Computes ((groups.zipIdx start).foldlM
        (processChunk field (maxChunks * rate)
          ((maxChunks * rate - target * rate : Nat) : ZMod modulus) lastChunkLen)
        (register, bit (target < start)))
      (absorbChunks field register (groups.drop (target - start)),
        bit (target < start + groups.length)) := by
  induction groups generalizing start register with
  | nil =>
    rw [drop_nil, length_nil, Nat.add_zero]
    exact computes_pure _
  | cons chunk groups ih =>
    rw [length_cons] at inside
    rw [zipIdx_cons, foldlM_cons]
    have aligned : ((maxChunks * rate - target * rate : Nat) : ZMod modulus) =
        ((maxChunks * rate - start * rate : Nat) : ZMod modulus) ↔ start = target := by
      have pos : 0 < rate := by decide
      have targetLe := Nat.mul_le_mul_right rate reached
      have startLe := Nat.mul_le_mul_right rate (by omega : start ≤ maxChunks)
      rw [← (ZMod.val_injective modulus).eq_iff, val_natCast_lt (by omega),
        val_natCast_lt (by omega)]
      constructor
      · intro same
        exact Nat.eq_of_mul_eq_mul_right pos (by omega)
      · intro same
        rw [same]
    have notLast : start ≠ maxChunks * rate / rate := by
      rw [Nat.mul_div_cancel _ (by decide)]
      omega
    have toggled : (decide (((maxChunks * rate - target * rate : Nat) : ZMod modulus) =
        ((maxChunks * rate - start * rate : Nat) : ZMod modulus)) ^^ decide (target < start)) =
          decide (target < start + 1) := by
      rw [Bool.eq_iff_iff]
      simp only [Bool.xor_iff_ne, aligned, decide_eq_true_iff, ne_eq, decide_eq_decide]
      omega
    have step : Computes (processChunk field (maxChunks * rate)
        ((maxChunks * rate - target * rate : Nat) : ZMod modulus) lastChunkLen
        (register, bit (target < start)) (chunk, start))
        (if decide (target < start + 1) then permutationCpuRaw field (absorbChunk register chunk)
          else register, bit (target < start + 1)) := by
      unfold processChunk
      refine (computes_is_equal_to_fixed _ _).bind ?_
      refine (computes_xor _ _).bind ?_
      rw [toggled, if_neg notLast]
      refine (computes_pure chunk).bind ?_
      exact (computes_cond_update field registerLength (full chunk mem_cons_self)
        _).returning fun register => (register, _)
    refine step.bind ?_
    have laterFull : ∀ other ∈ groups, other.length = rate := (forall_mem_cons.mp full).2
    have count : start + 1 + groups.length = start + (groups.length + 1) := by omega
    rw [length_cons, ← count]
    by_cases started : target < start + 1
    · rw [if_pos (decide_eq_true started)]
      have rest := ih laterFull (start + 1) (by omega)
        (permutation_raw_length field (absorbChunk register chunk))
      have skipped : target - (start + 1) = 0 ∧ target - start = 0 := by omega
      rw [skipped.1, drop_zero] at rest
      rw [skipped.2, drop_zero]
      exact rest
    · rw [if_neg (by simpa using started)]
      have rest := ih laterFull (start + 1) (by omega) registerLength
      have skipped : target - start = target - (start + 1) + 1 := by omega
      rw [skipped, drop_succ_cons]
      exact rest

end Computed

section Hash

variable (field : PoseidonField modulus) (input : AssignedVector modulus maxLen)

def roundedLength (len : Nat) : Nat := if len % rate = 0 then len else len - len % rate + rate

/-- The state in front of the last chunk, which holds `len % rate` elements. -/
def lastRegister : List (ZMod modulus) :=
  absorbChunks field (initialRegister input.len)
    (chunks rate ((input.value rate).take (input.len.val / rate * rate)))

def lastElements : List (ZMod modulus) := (input.value rate).drop (input.len.val / rate * rate)

def fillerBehind : List (ZMod modulus) := input.buffer.drop (lastPosition maxLen rate input.len.val)

/-- The permutation gives the same first element with the filler cells as without. -/
def FillerHidden : Prop :=
  (permutationCpuRaw field (absorbChunk (lastRegister field input)
    (lastElements input ++ fillerBehind input))).headD 0 =
      (permutationCpuRaw field (absorbChunk (lastRegister field input) (lastElements input))).headD 0

instance : Decidable (FillerHidden field input) := by
  unfold FillerHidden
  exact inferInstance

variable {input}

theorem rounded_bounds {len : Nat} (aligned : rate ∣ maxLen) (le : len ≤ maxLen) :
    roundedLength len ≤ maxLen ∧ maxLen - roundedLength len =
      lastPosition maxLen rate len - len ∧ rate ∣ roundedLength len := by
  rcases aligned with ⟨groups, rfl⟩
  have twice : rate = 2 := rfl
  unfold roundedLength lastPosition
  rw [twice] at le ⊢
  split_ifs with whole
  · exact ⟨le, rfl, Nat.dvd_of_mod_eq_zero whole⟩
  · have bound : len ≤ 2 * groups - 1 := by omega
    refine ⟨by omega, by omega, by omega⟩

omit [Fact modulus.Prime] in
theorem value_length (aligned : rate ∣ maxLen) (reached : rate ≤ maxLen) :
    (input.value rate).length = input.len.val := by
  have bounds := @last_le maxLen rate input.len.val (by decide) reached
  have inside := len_le_last aligned (by decide) input.len_le
  unfold AssignedVector.value dataOf
  dsimp only
  rw [get_lims_eq (by decide) reached, length_drop, length_take, input.buffer_length]
  omega

omit [Fact modulus.Prime] in
theorem data_and_filler (aligned : rate ∣ maxLen) (reached : rate ≤ maxLen) :
    input.buffer.drop (maxLen - roundedLength input.len.val) =
      input.value rate ++ fillerBehind input := by
  have bounds := @last_le maxLen rate input.len.val (by decide) reached
  have inside := len_le_last aligned (by decide) input.len_le
  rw [(rounded_bounds aligned input.len_le).2.1]
  unfold AssignedVector.value dataOf fillerBehind
  dsimp only
  rw [get_lims_eq (by decide) reached]
  dsimp only
  conv_lhs => rw [← take_append_drop (lastPosition maxLen rate input.len.val) input.buffer]
  rw [drop_append_of_le_length]
  rw [length_take, input.buffer_length]
  omega

theorem computes_poseidon_varlen (aligned : rate ∣ maxLen) (reached : rate ≤ maxLen)
    (fits : maxLen + rate ≤ modulus) : Computes (poseidonVarlen field input)
      ((absorbChunks field (initialRegister input.len)
        (chunks rate (input.value rate ++ fillerBehind input))).headD 0) := by
  have cast : ((input.len.val : Nat) : ZMod modulus) = input.len := ZMod.natCast_zmod_val _
  have lastChunk := @computes_rem modulus _ input.len.val rate maxLen (by decide) reached fits
    input.len_le
  rw [cast] at lastChunk
  have rounded := rounded_bounds aligned input.len_le
  have below : input.len.val % rate < rate := Nat.mod_lt _ (by decide)
  have zero : ((input.len.val % rate : Nat) : ZMod modulus) = 0 ↔ input.len.val % rate = 0 := by
    rw [← ZMod.val_eq_zero, val_natCast_lt (by omega)]
  have roundedValue : (if decide (((input.len.val % rate : Nat) : ZMod modulus) = 0) then
      input.len - ((input.len.val % rate : Nat) : ZMod modulus)
      else input.len - ((input.len.val % rate : Nat) : ZMod modulus) + (rate : ZMod modulus)) =
        ((roundedLength input.len.val : Nat) : ZMod modulus) := by
    have restLe : input.len.val % rate ≤ input.len.val := Nat.mod_le _ _
    unfold roundedLength
    by_cases whole : input.len.val % rate = 0
    · rw [if_pos (decide_eq_true (zero.mpr whole)), if_pos whole, whole, Nat.cast_zero, sub_zero,
        cast]
    · rw [if_neg (by simpa using mt zero.mp whole), if_neg whole, Nat.cast_add,
        Nat.cast_sub restLe, cast]
  rcases aligned with ⟨groups, whole⟩
  rw [Nat.mul_comm] at whole
  rcases rounded.2.2 with ⟨dataGroups, roundedWhole⟩
  rw [Nat.mul_comm] at roundedWhole
  have pos : 0 < rate := by decide
  have fewer : dataGroups ≤ groups := by
    apply Nat.le_of_mul_le_mul_right _ pos
    rw [← roundedWhole, ← whole]
    exact rounded.1
  have target : roundedLength input.len.val = groups * rate - (groups - dataGroups) * rate := by
    rw [Nat.sub_mul, ← roundedWhole, ← whole]
    have bound := rounded.1
    omega
  have shape := chunks_full pos groups (input.buffer_length.trans whole)
  have loop := @computes_chunk_loop modulus _ field groups (groups - dataGroups)
    ((input.len.val % rate : Nat) : ZMod modulus) (by omega) (by omega) (chunks rate input.buffer)
    shape.2 0 (by omega) (initialRegister input.len) (by simp [initialRegister])
  rw [← target, ← whole, Nat.sub_zero, chunks_drop pos] at loop
  have start : (groups - dataGroups) * rate = maxLen - roundedLength input.len.val := by
    rw [Nat.sub_mul, ← roundedWhole, ← whole]
  have notStarted : decide (groups - dataGroups < 0) = false := decide_eq_false (Nat.not_lt_zero _)
  rw [start, data_and_filler ⟨groups, by rw [whole, Nat.mul_comm]⟩ reached, notStarted] at loop
  unfold poseidonVarlen
  rw [if_neg (by rw [whole, Nat.mul_mod_left]; exact not_not.mpr rfl)]
  refine (computes_assert_lower_than_fixed (Nat.succ_ne_zero _) (by omega)
    (Nat.lt_succ_of_le input.len_le)).bind ?_
  refine lastChunk.bind ?_
  refine (computes_is_equal_to_fixed _ _).bind ?_
  refine (computes_sub _ _).bind ?_
  refine (computes_add_constant _ _).bind ?_
  refine (computes_select _ _ _).bind ?_
  rw [roundedValue]
  exact loop.returning fun outcome => outcome.1.headD 0

theorem poseidon_hash_eq (aligned : rate ∣ maxLen) (reached : rate ≤ maxLen) :
    poseidonHash field (input.value rate) =
      (absorbChunks field (initialRegister input.len) (chunks rate (input.value rate))).headD 0 := by
  have cast : ((input.len.val : Nat) : ZMod modulus) = input.len := ZMod.natCast_zmod_val _
  unfold poseidonHash
  rw [value_length aligned reached, cast]

theorem absorb_chunks_append (register : List (ZMod modulus))
    (first : List (List (ZMod modulus))) (last : List (ZMod modulus)) :
    absorbChunks field register (first ++ [last]) =
      permutationCpuRaw field (absorbChunk (absorbChunks field register first) last) := by
  unfold absorbChunks
  rw [foldl_append, foldl_cons, foldl_nil]

omit [Fact modulus.Prime] in
theorem no_filler_behind (whole : input.len.val % rate = 0) : fillerBehind input = [] := by
  unfold fillerBehind lastPosition
  rw [if_pos whole, drop_eq_nil_iff, input.buffer_length]

omit [Fact modulus.Prime] in
theorem partial_chunk (aligned : rate ∣ maxLen) (reached : rate ≤ maxLen)
    (partial_ : input.len.val % rate ≠ 0) {behind : List (ZMod modulus)}
    (short : input.len.val % rate + behind.length ≤ rate) :
    chunks rate (input.value rate ++ behind) =
      chunks rate ((input.value rate).take (input.len.val / rate * rate)) ++
        [lastElements input ++ behind] := by
  have length := @value_length modulus maxLen input aligned reached
  have division := Nat.div_add_mod' input.len.val rate
  have front : ((input.value rate).take (input.len.val / rate * rate)).length =
      input.len.val / rate * rate := by
    rw [length_take, length]
    omega
  have lastLength : (lastElements input).length = input.len.val % rate := by
    rw [lastElements, length_drop, length]
    omega
  have nonempty : lastElements input ++ behind ≠ [] := by
    intro empty
    have none := congrArg List.length empty
    rw [length_append, lastLength, length_nil] at none
    omega
  have fits : (lastElements input ++ behind).length ≤ rate := by
    rw [length_append, lastLength]
    exact short
  have split : input.value rate ++ behind =
      (input.value rate).take (input.len.val / rate * rate) ++ (lastElements input ++ behind) := by
    rw [lastElements, ← append_assoc, take_append_drop]
  rw [split, chunks_append (by decide) _ front, chunks_single nonempty fits]

theorem no_chunk_no_hash (empty : maxLen < rate) : ¬HashesData field input := by
  intro computes
  have stopped : (poseidonVarlen field input).honest = none := by
    unfold poseidonVarlen
    split_ifs with misaligned
    · rfl
    · apply stops_later
      intro checked
      apply stops_first
      have remStops : (divRem input.len rate maxLen).honest = none := by
        unfold divRem
        rw [if_neg (by decide), if_pos (Or.inr empty)]
        rfl
      exact stops_first remStops
  have run := computes.honest
  rw [stopped] at run
  cases run

/-- One vector is hashed right exactly when no filler cell reaches its output. -/
theorem hashes_iff_hidden (aligned : rate ∣ maxLen) (fits : maxLen + rate ≤ modulus) :
    HashesData field input ↔
      0 < maxLen ∧ (input.len.val % rate = 0 ∨ FillerHidden field input) := by
  by_cases empty : maxLen = 0
  · have none : ¬HashesData field input := no_chunk_no_hash field (by rw [empty]; decide)
    exact iff_of_false none fun condition => by omega
  · have reached := Nat.le_of_dvd (Nat.pos_of_ne_zero empty) aligned
    have computed := @computes_poseidon_varlen modulus maxLen _ field input aligned reached fits
    have value : HashesData field input ↔
        (absorbChunks field (initialRegister input.len)
          (chunks rate (input.value rate ++ fillerBehind input))).headD 0 =
          (absorbChunks field (initialRegister input.len) (chunks rate (input.value rate))).headD 0 := by
      unfold HashesData
      rw [poseidon_hash_eq field aligned reached]
      constructor
      · intro hashes
        exact computed.unique hashes
      · intro same
        rwa [same] at computed
    rw [value]
    by_cases whole : input.len.val % rate = 0
    · rw [no_filler_behind whole, append_nil]
      exact iff_of_true rfl ⟨Nat.pos_of_ne_zero empty, Or.inl whole⟩
    · have below : input.len.val % rate < rate := Nat.mod_lt _ (by decide)
      have fillerLength : input.len.val % rate + (fillerBehind input).length ≤ rate := by
        rw [fillerBehind, length_drop, input.buffer_length, lastPosition, if_neg whole]
        omega
      have data := @partial_chunk modulus maxLen input aligned reached whole [] (by
        rw [length_nil]
        omega)
      rw [append_nil, append_nil] at data
      rw [partial_chunk aligned reached whole fillerLength, data, absorb_chunks_append,
        absorb_chunks_append]
      constructor
      · intro same
        exact ⟨Nat.pos_of_ne_zero empty, Or.inr same⟩
      · rintro ⟨-, multiple | hidden⟩
        · exact absurd multiple whole
        · exact hidden

theorem absorb_zeros (register chunk : List (ZMod modulus)) {behind : List (ZMod modulus)}
    (zeros : ∀ cell ∈ behind, cell = 0) :
    absorbChunk register (chunk ++ behind) = absorbChunk register chunk := by
  induction register generalizing chunk behind with
  | nil => cases chunk <;> cases behind <;> rfl
  | cons entry register ih =>
    cases chunk with
    | cons value chunk =>
      rw [cons_append, absorbChunk, absorbChunk, ih chunk zeros]
    | nil =>
      cases behind with
      | nil => rfl
      | cons cell behind =>
        have rest := ih [] (forall_mem_cons.mp zeros).2
        rw [nil_append] at rest ⊢
        rw [absorbChunk, zeros cell mem_cons_self, add_zero, rest]
        cases register <;> rfl

theorem zero_filler_hidden (zeros : ∀ cell ∈ fillerBehind input, cell = 0) :
    FillerHidden field input := by
  unfold FillerHidden
  rw [absorb_zeros _ _ zeros]

end Hash

/-! ### Fillers that reach the hash -/

section Shown

/-- A round copies the second entry to the first one and forgets the others. -/
def copyField : PoseidonField modulus where
  mds := [[0, 1, 0], [0, 1, 0], [0, 0, 0]]
  roundConstants := replicate (nbFullRounds + nbPartialRounds) [0, 0, 0]
  mds_length := rfl
  mds_rows := by simp [width]
  rounds := length_replicate
  rows := by
    intro constants member
    rw [eq_of_mem_replicate member]
    rfl

theorem copy_constants (round : Nat) :
    constantsAt (copyField : PoseidonField modulus) round = [0, 0, 0] := by
  unfold constantsAt copyField
  rw [getD_eq_getElem?_getD, getElem?_replicate]
  split_ifs <;> rfl

theorem copy_layer (a b c : ZMod modulus) :
    linearLayer (copyField : PoseidonField modulus) [a, b, c] [0, 0, 0] = [b, b, 0] := by
  simp [linearLayer, dot, copyField]

theorem copy_full_round (round : Nat) (a b c : ZMod modulus) :
    fullRoundCpu copyField round [a, b, c] =
      [b * b * (b * b) * b, b * b * (b * b) * b, 0] := by
  unfold fullRoundCpu
  have added : (if round = nbFullRounds + nbPartialRounds - 1 then replicate width (0 : ZMod modulus)
      else constantsAt copyField (round + 1)) = [0, 0, 0] := by
    rw [copy_constants]
    exact ite_self _
  dsimp only
  rw [added]
  exact copy_layer _ _ _

theorem copy_partial_round (round : Nat) (a b c : ZMod modulus) :
    partialRoundCpuRaw copyField round [a, b, c] = [b, b, 0] := by
  unfold partialRoundCpuRaw
  rw [copy_constants]
  exact copy_layer _ _ _

/-- The second entry is zero exactly when it was. -/
def SecondKept (b : ZMod modulus) (state : List (ZMod modulus)) : Prop :=
  ∃ first second third, state = [first, second, third] ∧ (second = 0 ↔ b = 0)

variable {b : ZMod modulus} {state : List (ZMod modulus)}

theorem fifth_power_zero (x : ZMod modulus) : x * x * (x * x) * x = 0 ↔ x = 0 := by
  simp [mul_eq_zero]

theorem copy_full_rounds (rounds : List Nat) (kept : SecondKept b state) :
    SecondKept b (rounds.foldl (fun state round => fullRoundCpu copyField round state) state) := by
  refine foldlRecOn rounds _ kept fun state kept round _ => ?_
  rcases kept with ⟨first, second, third, rfl, zero⟩
  rw [copy_full_round]
  exact ⟨_, _, _, rfl, (fifth_power_zero second).trans zero⟩

theorem copy_partial_rounds (rounds : List Nat) (kept : SecondKept b state) :
    SecondKept b
      (rounds.foldl (fun state round => partialRoundCpuRaw copyField round state) state) := by
  refine foldlRecOn rounds _ kept fun state kept round _ => ?_
  rcases kept with ⟨first, second, third, rfl, zero⟩
  rw [copy_partial_round]
  exact ⟨_, _, _, rfl, zero⟩

theorem copy_permutation (a b c : ZMod modulus) : ∃ copied,
    permutationCpuRaw copyField [a, b, c] = [copied, copied, 0] ∧ (copied = 0 ↔ b = 0) := by
  have started : SecondKept b (addFirst (copyField : PoseidonField modulus) [a, b, c]) := by
    unfold addFirst
    rw [copy_constants]
    exact ⟨a + 0, b + 0, c + 0, rfl, by rw [add_zero]⟩
  have last : range' (nbFullRounds / 2 + nbPartialRounds) (nbFullRounds / 2) =
      [64, 65, 66] ++ [67] := rfl
  unfold permutationCpuRaw
  dsimp only
  rw [last, foldl_append, foldl_cons, foldl_nil]
  rcases copy_full_rounds [64, 65, 66] (copy_partial_rounds (range' (nbFullRounds / 2)
    nbPartialRounds) (copy_full_rounds (range' 0 (nbFullRounds / 2)) started)) with
    ⟨first, second, third, reached, zero⟩
  rw [reached, copy_full_round]
  exact ⟨_, rfl, (fifth_power_zero second).trans zero⟩

theorem copy_absorbs_zeros {groups : List (List (ZMod modulus))}
    (zeros : ∀ chunk ∈ groups, ∀ cell ∈ chunk, cell = 0) (a c : ZMod modulus) :
    ∃ first third, absorbChunks copyField [a, 0, c] groups = [first, 0, third] := by
  induction groups generalizing a c with
  | nil => exact ⟨a, c, rfl⟩
  | cons chunk groups ih =>
    have nothing : absorbChunk [a, 0, c] chunk = [a, 0, c] :=
      absorb_zeros [a, 0, c] [] (zeros chunk mem_cons_self)
    rcases copy_permutation a 0 c with ⟨copied, permuted, zero⟩
    rw [zero.mpr rfl] at permuted
    have step : permutationCpuRaw copyField (absorbChunk [a, 0, c] chunk) = [0, 0, 0] := by
      rw [nothing, permuted]
    unfold absorbChunks
    rw [foldl_cons, step]
    exact ih (fun other mem => zeros other (mem_cons_of_mem _ mem)) 0 0

variable {input : AssignedVector modulus maxLen}

/-- Zeros in front of the same filler cells. -/
def zeroData (input : AssignedVector modulus maxLen) : AssignedVector modulus maxLen where
  buffer := replicate (maxLen - (fillerBehind input).length) 0 ++ fillerBehind input
  len := input.len
  buffer_length := by
    rw [length_append, length_replicate, fillerBehind, length_drop, input.buffer_length]
    omega
  len_le := input.len_le

theorem zero_data_filler (reached : rate ≤ maxLen) :
    fillerBehind (zeroData input) = fillerBehind input := by
  have bounds := (@last_le maxLen rate input.len.val (by decide) reached).1
  have length : (fillerBehind input).length = maxLen - lastPosition maxLen rate input.len.val := by
    rw [fillerBehind, length_drop, input.buffer_length]
  have front : (replicate (maxLen - (fillerBehind input).length) (0 : ZMod modulus)).length =
      lastPosition maxLen rate input.len.val := by
    rw [length_replicate, length]
    omega
  show (replicate _ 0 ++ fillerBehind input).drop (lastPosition maxLen rate input.len.val) = _
  rw [← front, drop_left]

theorem zero_data_value (reached : rate ≤ maxLen) :
    ∀ cell ∈ (zeroData input).value rate, cell = 0 := by
  have length : (fillerBehind input).length = maxLen - lastPosition maxLen rate input.len.val := by
    rw [fillerBehind, length_drop, input.buffer_length]
  have bounds := (@last_le maxLen rate input.len.val (by decide) reached).1
  intro cell mem
  unfold AssignedVector.value dataOf at mem
  dsimp only at mem
  rw [get_lims_eq (by decide) reached] at mem
  have taken : cell ∈ (replicate (maxLen - (fillerBehind input).length) 0 ++
      fillerBehind input).take (lastPosition maxLen rate input.len.val) := mem_of_mem_drop mem
  rw [take_append_of_le_length (by rw [length_replicate, length]; omega)] at taken
  exact eq_of_mem_replicate (mem_of_mem_take taken)

/-- With these constants a filler cell reaches the output. -/
theorem filler_shown (aligned : rate ∣ maxLen) (reached : rate ≤ maxLen)
    (partial_ : input.len.val % rate ≠ 0) {cell : ZMod modulus} (mem : cell ∈ fillerBehind input)
    (nonzero : cell ≠ 0) : ¬FillerHidden copyField (zeroData input) := by
  have one : input.len.val % rate = 1 := by
    have below : input.len.val % rate < rate := Nat.mod_lt _ (by decide)
    have two : rate = 2 := rfl
    omega
  have behind : fillerBehind (zeroData input) = [cell] := by
    rw [zero_data_filler reached]
    have count : (fillerBehind input).length = 1 := by
      rw [fillerBehind, length_drop, input.buffer_length, lastPosition, if_neg partial_, one]
      have two : rate = 2 := rfl
      omega
    rcases length_eq_one_iff.mp count with ⟨only, same⟩
    rw [same] at mem ⊢
    rw [mem_singleton.mp mem]
  have zeros := @zero_data_value modulus maxLen _ input reached
  have elements : lastElements (zeroData input) = [0] := by
    have count : (lastElements (zeroData input)).length = 1 := by
      have division := Nat.div_add_mod' input.len.val rate
      rw [lastElements, length_drop, value_length aligned reached]
      show input.len.val - input.len.val / rate * rate = 1
      omega
    rcases length_eq_one_iff.mp count with ⟨only, same⟩
    have here : only ∈ lastElements (zeroData input) := by
      rw [same]
      exact mem_cons_self
    rw [same, zeros only (mem_of_mem_drop here)]
  have front : ∀ chunk ∈ chunks rate
      (((zeroData input).value rate).take (input.len.val / rate * rate)), ∀ cell ∈ chunk,
        cell = 0 := by
    intro chunk inChunks cell inChunk
    have inValue := mem_flatten_of_mem inChunks inChunk
    rw [chunks_flatten_eq (by decide)] at inValue
    exact zeros cell (mem_of_mem_take inValue)
  rcases copy_absorbs_zeros front 0 input.len with ⟨first, third, register⟩
  have started : lastRegister copyField (zeroData input) = [first, 0, third] := register
  rcases copy_permutation (first + 0) (0 + cell) third with ⟨shown, withFiller, nonzeroShown⟩
  rcases copy_permutation (first + 0) 0 third with ⟨hidden, without, zeroHidden⟩
  unfold FillerHidden
  rw [started, elements, behind]
  show (permutationCpuRaw copyField [first + 0, 0 + cell, third]).headD 0 ≠
    (permutationCpuRaw copyField [first + 0, 0, third]).headD 0
  rw [withFiller, without, zeroHidden.mpr rfl]
  intro same
  have zero := nonzeroShown.mp same
  rw [zero_add] at zero
  exact nonzero zero

end Shown

/-- For all constants and data, the vectors of a length with given filler cells are hashed right
exactly when no cell of their last chunk is behind the data, or only zeros are. -/
theorem hashes_data_iff (aligned : rate ∣ maxLen) (fits : maxLen + rate ≤ modulus)
    (input : AssignedVector modulus maxLen) :
    (∀ (field : PoseidonField modulus) (other : AssignedVector modulus maxLen),
      other.len = input.len → fillerBehind other = fillerBehind input → HashesData field other) ↔
        0 < maxLen ∧ (input.len.val % rate = 0 ∨ ∀ cell ∈ fillerBehind input, cell = 0) := by
  constructor
  · intro all
    have zeros := (hashes_iff_hidden copyField aligned fits).mp
      (all copyField input rfl rfl)
    refine ⟨zeros.1, ?_⟩
    have reached := Nat.le_of_dvd zeros.1 aligned
    by_contra neither
    rw [not_or] at neither
    have shown := all copyField (zeroData input) rfl (zero_data_filler reached)
    rcases ((hashes_iff_hidden copyField aligned fits).mp shown).2 with whole | hidden
    · exact neither.1 whole
    · apply neither.2
      intro cell mem
      by_contra nonzero
      exact filler_shown aligned reached neither.1 mem nonzero hidden
  · rintro ⟨pos, condition⟩ field other sameLen sameFiller
    refine (hashes_iff_hidden field aligned fits).mpr ⟨pos, ?_⟩
    rw [sameLen]
    refine condition.imp_right fun zeros => zero_filler_hidden field ?_
    rwa [sameFiller]

/-- Three cells over a small field, each round adding the second to the first. -/
def smallField : PoseidonField 97 where
  mds := [[1, 1, 0], [0, 1, 0], [0, 0, 1]]
  roundConstants := replicate 68 [0, 0, 0]
  mds_length := rfl
  mds_rows := by decide
  rounds := rfl
  rows := by
    intro constants member
    rw [eq_of_mem_replicate member]
    rfl

def oneElement (filler : ZMod 97) : AssignedVector 97 2 where
  buffer := [((7 : Nat) : ZMod 97), filler]
  len := 1
  buffer_length := rfl
  len_le := by decide

/-- A filler cell changes the output of the circuit. -/
theorem filler_changes_hash : ¬HashesData smallField (oneElement 1) := by
  intro hashes
  have computed := @computes_poseidon_varlen 97 2 _ smallField (oneElement 1) (by decide)
    (by decide) (by decide)
  have same := computed.unique hashes
  rw [poseidon_hash_eq smallField (by decide) (by decide)] at same
  revert same
  decide +kernel

theorem zero_filler_hashes_data : HashesData smallField (oneElement 0) :=
  (hashes_data_iff (by decide) (by decide) (oneElement 0)).mpr
    ⟨by decide, Or.inr (by decide)⟩ smallField (oneElement 0) rfl rfl

end Midfall.PoseidonVarlen
