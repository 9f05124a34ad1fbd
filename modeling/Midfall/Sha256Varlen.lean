import Midfall.NativeDecomposition
import Midfall.PoseidonVarlen
import Midfall.ScalarField

/-!
# Variable-length SHA-256

`sha256_varlen.rs`: the whole blocks of data are hashed as they stand in the
buffer; the last one is merged with the padding, in one block or in two. The
compression function is arbitrary.
-/

namespace Midfall.Sha256Varlen

open CircuitPrograms NativeGadget NativeDecomposition List
open ProofReadOrder VectorGadget
open PoseidonVarlen (chunks_append chunks_drop)

variable {modulus maxLen : Nat}

/-! ### The digest -/

/-- The compression function on the cells of the state and the words of the result. -/
structure Compression (modulus : Nat) where
  iv : List (ZMod modulus)
  compress : List (ZMod modulus) → List Nat → List (ZMod modulus)
  plain : List (ZMod modulus) → List (ZMod modulus)
  compress_length : ∀ state block, state.length = iv.length →
    (compress state block).length = iv.length

def lengthBytes (len : Nat) : List Nat := (range 8).map fun i => 8 * len / 256 ^ (7 - i) % 256

/-- A one, zeros and the length. -/
def sha256Padding (len : Nat) : List Nat :=
  0x80 :: (replicate ((119 - len % 64) % 64) 0 ++ lengthBytes len)

def sha256 (hash : Compression modulus) (data : List Nat) : List (ZMod modulus) :=
  hash.plain ((chunks 64 (data ++ sha256Padding data.length)).foldl hash.compress hash.iv)

/-! ### The circuit -/

section Circuits

variable [Fact modulus.Prime]

def assignedToBeBytes (x : ZMod modulus) (nbBytes : Nat) : Circuit (List (ZMod modulus)) := do
  let bytes ← assignedToLeBytes x nbBytes
  return bytes.reverse

def finalBlockLen (maxLen : Nat) (len : ZMod modulus) : Circuit (ZMod modulus × ZMod modulus) := do
  let fbLen ← rem len 64 maxLen
  let lenIsZero ← isZero len
  let fbIsZero ← isZero fbLen
  let fullFinalBlock ← xor [lenIsZero, fbIsZero]
  let maxBlockLen ← assignFixed ((64 : Nat) : ZMod modulus)
  let finalBlockLen ← select fullFinalBlock maxBlockLen fbLen
  assertLowerThanFixed finalBlockLen (2 ^ 7)
  let notExtra ← lowerThanFixed finalBlockLen 7 ((56 : Nat) : ZMod modulus)
  let extra ← not notExtra
  return (finalBlockLen, extra)

def insertInArray (idx : ZMod modulus) (array : List (ZMod modulus)) (elem : ZMod modulus) :
    Circuit (List (ZMod modulus)) :=
  array.zipIdx.mapM fun entry => do
    let atIdx ← isEqualToFixed idx (entry.2 : ZMod modulus)
    select atIdx elem entry.1

/-- The first `len` entries of the first chunk, the others of the second one. -/
def mergeChunks (chunk1 chunk2 : List (ZMod modulus)) (len : ZMod modulus) :
    Circuit (List (ZMod modulus)) := do
  let firstChunk ← assignFixed (bit true)
  let outcome ← (chunk1.zip chunk2).zipIdx.foldlM (fun state entry => do
    let switch ← isEqualToFixed len (entry.2 : ZMod modulus)
    let firstChunk ← xor [state.1, switch]
    let element ← select firstChunk entry.1.1 entry.1.2
    return (firstChunk, state.2 ++ [element])) (firstChunk, ([] : List (ZMod modulus)))
  return outcome.2

def computePadding (inputLen finalChunkLen : ZMod modulus) (finalChunk : List (ZMod modulus))
    (extraBlock : ZMod modulus) : Circuit (List (ZMod modulus)) := do
  let zero ← assignFixed 0
  let notExtraBlock ← not extraBlock
  let block1 ← mergeChunks finalChunk (replicate 64 zero) finalChunkLen
  let condLen ← mul finalChunkLen notExtraBlock
  let block2 ← mergeChunks (finalChunk.take 56) (replicate 56 zero) condLen
  let lenInBits ← linearCombination [(((8 : Nat) : ZMod modulus), inputLen)] 0
  let lenBytes ← assignedToBeBytes lenInBits 8
  let padding := block1 ++ block2 ++ lenBytes
  let one ← assignFixed ((0x80 : Nat) : ZMod modulus)
  -- the one is at 56 to 119 of both blocks
  let idx ← linearCombination [(1, finalChunkLen), (((64 : Nat) : ZMod modulus), notExtraBlock)]
    (-((56 : Nat) : ZMod modulus))
  let inserted ← insertInArray idx ((padding.take 120).drop 56) one
  return padding.take 56 ++ inserted ++ padding.drop 120

variable (hash : Compression modulus)

def updateState (state block : List (ZMod modulus)) : Circuit (List (ZMod modulus)) := do
  let result ← assign (hash.compress state (block.map ZMod.val))
  constrain (result = hash.compress state (block.map ZMod.val))
  return result

def conditionalUpdateState (state block : List (ZMod modulus)) (update : ZMod modulus) :
    Circuit (List (ZMod modulus)) := do
  let newState ← updateState hash state block
  (newState.zip state).mapM fun entry => select update entry.1 entry.2

def processBlock (maxLen : Nat) (roundedLen : ZMod modulus)
    (state : List (ZMod modulus) × ZMod modulus) (entry : List (ZMod modulus) × Nat) :
    Circuit (List (ZMod modulus) × ZMod modulus) := do
  let b ← isEqualToFixed roundedLen ((maxLen - entry.2 * 64 : Nat) : ZMod modulus)
  let updating ← xor [b, state.2]
  let next ← conditionalUpdateState hash state.1 entry.1 updating
  return (next, updating)

def sha256Varlen (input : AssignedVector modulus maxLen) : Circuit (List (ZMod modulus)) := do
  let final ← finalBlockLen maxLen input.len
  let isZero ← isZero final.1
  let lenRound ← sub input.len final.1
  let lenRoundExtra ← addConstant lenRound ((64 : Nat) : ZMod modulus)
  let roundedLen ← select isZero lenRound lenRoundExtra
  let updating ← assignFixed (bit false)
  let state ← hash.iv.mapM assignFixed
  match (chunks 64 input.buffer).getLast? with
  | none => panic
  | some finalBlock => do
    let outcome ← (chunks 64 input.buffer).dropLast.zipIdx.foldlM
      (processBlock hash maxLen roundedLen) (state, updating)
    let paddingData ← computePadding input.len final.1 finalBlock final.2
    let state ← conditionalUpdateState hash outcome.1 (paddingData.take 64) final.2
    let state ← updateState hash state (paddingData.drop 64)
    return hash.plain state

end Circuits

/-! ### The length of the final block -/

section Length

variable [Fact modulus.Prime]

/-- In `0` to `64`; `0` only without data. -/
def finalLength (len : Nat) : Nat := if len % 64 = 0 ∧ len ≠ 0 then 64 else len % 64

theorem final_length_le (len : Nat) : finalLength len ≤ 64 := by
  unfold finalLength
  split_ifs <;> omega

theorem computes_final_block_len {len : Nat} (reached : 64 ≤ maxLen)
    (fits : maxLen + 256 ≤ modulus) (le : len ≤ maxLen) :
    Computes (finalBlockLen maxLen (len : ZMod modulus))
      ((finalLength len : ZMod modulus), bit (decide (56 ≤ finalLength len))) := by
  have zero : ∀ value : Nat, value < modulus →
      (decide (((value : Nat) : ZMod modulus) = 0)) = decide (value = 0) := by
    intro value below
    rw [decide_eq_decide, ← ZMod.val_eq_zero, val_natCast_lt below]
  have selected : (if (decide (((len : Nat) : ZMod modulus) = 0) ^^
      decide (((len % 64 : Nat) : ZMod modulus) = 0)) then ((64 : Nat) : ZMod modulus)
        else ((len % 64 : Nat) : ZMod modulus)) = (finalLength len : ZMod modulus) := by
    rw [zero len (by omega), zero (len % 64) (by omega)]
    unfold finalLength
    by_cases none : len = 0
    · simp [none]
    · by_cases whole : len % 64 = 0
      · simp [none, whole]
      · simp [none, whole]
  have finalVal : ((finalLength len : Nat) : ZMod modulus).val = finalLength len :=
    val_natCast_lt (by have := final_length_le len; omega)
  have below : ((finalLength len : Nat) : ZMod modulus).val < 2 ^ 7 := by
    rw [finalVal]
    have bound := final_length_le len
    omega
  have threshold : ((56 : Nat) : ZMod modulus).val = 56 := val_natCast_lt (by omega)
  have compared := @computes_lower_than_fixed modulus _ 7 _ ((56 : Nat) : ZMod modulus) (by omega)
    below
  rw [finalVal, threshold] at compared
  have negated : (! decide (finalLength len < 56)) = decide (56 ≤ finalLength len) := by
    rw [Bool.eq_iff_iff]
    simp
  unfold finalBlockLen
  refine (computes_rem (by decide) reached (by omega) le).bind ?_
  refine (computes_is_zero _).bind ?_
  refine (computes_is_zero _).bind ?_
  refine (computes_xor _ _).bind ?_
  refine (computes_assign_fixed _).bind ?_
  refine (computes_select _ _ _).bind ?_
  rw [selected]
  refine (computes_assert_lower_than_fixed (by decide) (by omega) below).bind ?_
  refine compared.bind ?_
  refine (computes_not _).bind ?_
  rw [negated]
  exact computes_pure _

end Length

/-! ### Merging and inserting -/

section Arrays

/-- The first `len` entries of the first chunk, the others of the second one. -/
def merged (chunk1 chunk2 : List (ZMod modulus)) (len : Nat) : List (ZMod modulus) :=
  (chunk1.zip chunk2).zipIdx.map fun entry => if entry.2 < len then entry.1.1 else entry.1.2

def inserted (idx : Nat) (array : List (ZMod modulus)) (elem : ZMod modulus) : List (ZMod modulus) :=
  array.zipIdx.map fun entry => if idx = entry.2 then elem else entry.1

theorem merged_length (chunk1 chunk2 : List (ZMod modulus)) (len : Nat) :
    (merged chunk1 chunk2 len).length = min chunk1.length chunk2.length := by
  rw [merged, length_map, length_zipIdx, length_zip]

theorem inserted_length (idx : Nat) (array : List (ZMod modulus)) (elem : ZMod modulus) :
    (inserted idx array elem).length = array.length := by
  rw [inserted, length_map, length_zipIdx]

variable {chunk1 chunk2 : List (ZMod modulus)}

theorem merged_get (len : Nat) {i : Nat} (inFirst : i < chunk1.length)
    (inSecond : i < chunk2.length) :
    (merged chunk1 chunk2 len).getD i 0 =
      if i < len then chunk1.getD i 0 else chunk2.getD i 0 := by
  unfold merged
  rw [getD_eq_getElem _ _ (by
      rw [length_map, length_zipIdx, length_zip]
      omega), getD_eq_getElem _ _ inFirst,
    getD_eq_getElem _ _ inSecond, getElem_map, getElem_zipIdx, getElem_zip]
  dsimp only
  rw [Nat.zero_add]

variable {array : List (ZMod modulus)}

theorem inserted_get (idx : Nat) (elem : ZMod modulus) {i : Nat} (inArray : i < array.length) :
    (inserted idx array elem).getD i 0 = if idx = i then elem else array.getD i 0 := by
  unfold inserted
  rw [getD_eq_getElem _ _ (by rwa [length_map, length_zipIdx]),
    getD_eq_getElem _ _ inArray, getElem_map, getElem_zipIdx]
  dsimp only
  rw [Nat.zero_add]

theorem cast_eq_iff {first second : Nat} (firstBelow : first < modulus)
    (secondBelow : second < modulus) :
    ((first : Nat) : ZMod modulus) = ((second : Nat) : ZMod modulus) ↔ first = second := by
  rw [ZMod.natCast_eq_natCast_iff', Nat.mod_eq_of_lt firstBelow, Nat.mod_eq_of_lt secondBelow]

variable [Fact modulus.Prime]

theorem computes_insert {idx : Nat} (idxBelow : idx < modulus) (fits : array.length ≤ modulus)
    (elem : ZMod modulus) :
    Computes (insertInArray (idx : ZMod modulus) array elem) (inserted idx array elem) := by
  apply computes_loop
  intro entry mem
  have inside := snd_lt_of_mem_zipIdx mem
  refine (computes_is_equal_to_fixed _ _).bind ?_
  have selected := computes_select (decide (((idx : Nat) : ZMod modulus) = (entry.2 : ZMod modulus)))
    elem entry.1
  have same := cast_eq_iff idxBelow (by omega : entry.2 < modulus)
  simp only [decide_eq_true_eq, same] at selected
  simp only [same]
  exact selected

theorem computes_merge {len : Nat} (fits : len + chunk1.length < modulus) :
    Computes (mergeChunks chunk1 chunk2 (len : ZMod modulus)) (merged chunk1 chunk2 len) := by
  have loop : ∀ (entries : List (ZMod modulus × ZMod modulus)) (start : Nat),
      start + entries.length < modulus → ∀ done : List (ZMod modulus),
        Computes ((entries.zipIdx start).foldlM (fun (state : ZMod modulus × List (ZMod modulus))
            (entry : (ZMod modulus × ZMod modulus) × Nat) => do
          let switch ← isEqualToFixed (len : ZMod modulus) (entry.2 : ZMod modulus)
          let firstChunk ← xor [state.1, switch]
          let element ← select firstChunk entry.1.1 entry.1.2
          return (firstChunk, state.2 ++ [element])) (bit (decide (start ≤ len)), done))
          (bit (decide (start + entries.length ≤ len)), done ++ (entries.zipIdx start).map fun entry =>
            if entry.2 < len then entry.1.1 else entry.1.2) := by
    intro entries
    induction entries with
    | nil =>
      intro start _ done
      rw [zipIdx_nil, map_nil, append_nil]
      exact computes_pure _
    | cons entry entries ih =>
      intro start below done
      rw [length_cons] at below
      have toggled : (decide (start ≤ len) ^^
          decide (((len : Nat) : ZMod modulus) = (start : ZMod modulus))) =
            decide (start + 1 ≤ len) := by
        rw [Bool.eq_iff_iff]
        simp only [Bool.xor_iff_ne, cast_eq_iff (by omega : len < modulus)
          (by omega : start < modulus), decide_eq_true_iff, ne_eq, decide_eq_decide]
        omega
      rw [zipIdx_cons, foldlM_cons, map_cons, length_cons]
      have step : Computes (do
          let switch ← isEqualToFixed (len : ZMod modulus) (start : ZMod modulus)
          let firstChunk ← xor [bit (decide (start ≤ len)), switch]
          let element ← select firstChunk entry.1 entry.2
          return (firstChunk, done ++ [element]))
          (bit (decide (start + 1 ≤ len)), done ++ [if start < len then entry.1 else entry.2]) := by
        refine (computes_is_equal_to_fixed _ _).bind ?_
        refine (computes_xor _ _).bind ?_
        rw [toggled]
        have selected := computes_select (decide (start + 1 ≤ len)) entry.1 entry.2
        simp only [decide_eq_true_eq, Nat.succ_le_iff] at selected
        exact selected.returning fun element => (_, done ++ [element])
      have rest := ih (start + 1) (by omega)
        (done ++ [if start < len then entry.1 else entry.2])
      have count : start + 1 + entries.length = start + (entries.length + 1) := by omega
      rw [count, append_assoc] at rest
      exact step.bind rest
  have all := loop (chunk1.zip chunk2) 0 (by rw [length_zip]; omega) []
  unfold mergeChunks
  refine (computes_assign_fixed _).bind ?_
  rw [decide_eq_true (Nat.zero_le len), nil_append] at all
  exact all.returning Prod.snd

end Arrays

/-! ### The padding -/

section Padding

def paddedBlocks (finalChunk lenBytes : List (ZMod modulus)) (len : Nat) : List (ZMod modulus) :=
  let block1 := merged finalChunk (replicate 64 0) len
  let block2 := merged (finalChunk.take 56) (replicate 56 0) (if 56 ≤ len then 0 else len)
  let padding := block1 ++ block2 ++ lenBytes
  padding.take 56 ++ inserted (if 56 ≤ len then len - 56 else len + 8)
    ((padding.take 120).drop 56) ((0x80 : Nat) : ZMod modulus) ++ padding.drop 120

def paddedTail (finalChunk lenBytes : List (ZMod modulus)) (len zeros : Nat) : List (ZMod modulus) :=
  finalChunk.take len ++ ((0x80 : Nat) : ZMod modulus) :: (replicate zeros 0 ++ lenBytes)

variable {finalChunk lenBytes : List (ZMod modulus)}

theorem append_get (first second : List (ZMod modulus)) (i : Nat) : (first ++ second).getD i 0 =
    if i < first.length then first.getD i 0 else second.getD (i - first.length) 0 := by
  split_ifs with inside
  · exact getD_append _ _ _ _ inside
  · exact getD_append_right _ _ _ _ (Nat.not_lt.mp inside)

theorem take_get (entries : List (ZMod modulus)) (count i : Nat) :
    (entries.take count).getD i 0 = if i < count then entries.getD i 0 else 0 := by
  split_ifs with inside
  · rw [getD_eq_getElem?_getD, getElem?_take_of_lt inside, ← getD_eq_getElem?_getD]
  · exact getD_eq_default _ _ (by rw [length_take]; omega)

theorem drop_get (entries : List (ZMod modulus)) (count i : Nat) :
    (entries.drop count).getD i 0 = entries.getD (count + i) 0 := by
  rw [getD_eq_getElem?_getD, getElem?_drop, ← getD_eq_getElem?_getD]

theorem zeros_get (count i : Nat) : (replicate count (0 : ZMod modulus)).getD i 0 = 0 := by
  rw [getD_eq_getElem?_getD, getElem?_replicate]
  split_ifs <;> rfl

theorem padded_blocks_length (chunkLength : finalChunk.length = 64) (bytesLength : lenBytes.length = 8)
    (len : Nat) : (paddedBlocks finalChunk lenBytes len).length = 128 := by
  simp only [paddedBlocks, length_append, length_take, length_drop, inserted_length,
    merged_length, length_replicate, chunkLength, bytesLength]
  omega

variable {len : Nat}

theorem padded_blocks_get (chunkLength : finalChunk.length = 64) (bytesLength : lenBytes.length = 8)
    (le : len ≤ 64) {j : Nat} (inside : j < 128) :
    (paddedBlocks finalChunk lenBytes len).getD j 0 =
      if j = (if 56 ≤ len then len else len + 64) then ((0x80 : Nat) : ZMod modulus)
      else if j < 64 then (if j < len then finalChunk.getD j 0 else 0)
      else if j < 120 then (if len < 56 ∧ j - 64 < len then finalChunk.getD (j - 64) 0 else 0)
      else lenBytes.getD (j - 120) 0 := by
  let block1 := merged finalChunk (replicate 64 0) len
  let block2 := merged (finalChunk.take 56) (replicate 56 0) (if 56 ≤ len then 0 else len)
  let padding := block1 ++ block2 ++ lenBytes
  have firstLength : block1.length = 64 := by
    rw [merged_length, chunkLength, length_replicate, Nat.min_self]
  have secondLength : block2.length = 56 := by
    rw [merged_length, length_take, chunkLength, length_replicate]
    rfl
  have length : padding.length = 128 := by
    rw [length_append, length_append, firstLength, secondLength, bytesLength]
  have entry : ∀ i < 128, padding.getD i 0 =
      if i < 64 then (if i < len then finalChunk.getD i 0 else 0)
      else if i < 120 then (if len < 56 ∧ i - 64 < len then finalChunk.getD (i - 64) 0 else 0)
      else lenBytes.getD (i - 120) 0 := by
    intro i below
    rw [append_get, append_get, length_append, firstLength, secondLength]
    by_cases inFirst : i < 64
    · rw [if_pos (by omega), if_pos inFirst, if_pos inFirst,
        merged_get len (by omega) (by rw [length_replicate]; exact inFirst), zeros_get]
    · by_cases inSecond : i < 120
      · rw [if_pos (by omega), if_neg inFirst, if_neg inFirst, if_pos inSecond,
          merged_get _ (by rw [length_take, chunkLength]; omega) (by rw [length_replicate]; omega),
          zeros_get, take_get, if_pos (by omega : i - 64 < 56)]
        by_cases extra : 56 ≤ len
        · rw [if_pos extra, if_neg (Nat.not_lt_zero _), if_neg (by omega)]
        · rw [if_neg extra]
          by_cases data : i - 64 < len
          · rw [if_pos data, if_pos ⟨by omega, data⟩]
          · rw [if_neg data, if_neg (by omega)]
      · rw [if_neg (by omega), if_neg inFirst, if_neg inSecond]
  have middle : ((padding.take 120).drop 56).length = 64 := by
    rw [length_drop, length_take, length]
    rfl
  have whole : paddedBlocks finalChunk lenBytes len = padding.take 56 ++
      inserted (if 56 ≤ len then len - 56 else len + 8) ((padding.take 120).drop 56)
        ((0x80 : Nat) : ZMod modulus) ++ padding.drop 120 := rfl
  rw [← entry j inside, whole, append_get, append_get, length_append, inserted_length, middle,
    length_take, length]
  by_cases front : j < 56
  · rw [if_pos (by omega), if_pos (by omega), take_get, if_pos front, if_neg]
    split_ifs <;> omega
  · by_cases between : j < 120
    · rw [if_pos (by omega), if_neg (by omega), inserted_get _ _ (by rw [middle]; omega), drop_get,
        take_get]
      have place : 56 + (j - min 56 128) = j := by omega
      rw [place, if_pos between]
      by_cases extra : 56 ≤ len
      · rw [if_pos extra, if_pos extra]
        by_cases here : j = len
        · rw [if_pos (by omega), if_pos here]
        · rw [if_neg (by omega), if_neg here]
      · rw [if_neg extra, if_neg extra]
        by_cases here : j = len + 64
        · rw [if_pos (by omega), if_pos here]
        · rw [if_neg (by omega), if_neg here]
    · have place : 120 + (j - (min 56 128 + 64)) = j := by omega
      rw [if_neg (by omega), drop_get, place, if_neg]
      split_ifs <;> omega

theorem padded_tail_length (chunkLength : finalChunk.length = 64)
    (bytesLength : lenBytes.length = 8) (le : len ≤ 64) (zeros : Nat) :
    (paddedTail finalChunk lenBytes len zeros).length = len + zeros + 9 := by
  simp only [paddedTail, length_append, length_take, length_cons,
    length_replicate, chunkLength, bytesLength]
  omega

theorem padded_tail_get (chunkLength : finalChunk.length = 64) (le : len ≤ 64) (zeros j : Nat) :
    (paddedTail finalChunk lenBytes len zeros).getD j 0 =
      if j < len then finalChunk.getD j 0
      else if j = len then ((0x80 : Nat) : ZMod modulus)
      else if j < len + 1 + zeros then 0 else lenBytes.getD (j - (len + 1 + zeros)) 0 := by
  unfold paddedTail
  rw [append_get, length_take, chunkLength, Nat.min_eq_left le, take_get]
  by_cases data : j < len
  · rw [if_pos data, if_pos data, if_pos data]
  · rw [if_neg data, if_neg data]
    by_cases here : j = len
    · rw [if_pos here, here, Nat.sub_self, getD_cons_zero]
    · have later : j - len = (j - len - 1) + 1 := by omega
      rw [if_neg here, later, getD_cons_succ, append_get, length_replicate, zeros_get]
      by_cases zero : j < len + 1 + zeros
      · rw [if_pos (by omega), if_pos zero]
      · have place : j - len - 1 - zeros = j - (len + 1 + zeros) := by omega
        rw [if_neg (by omega), if_neg zero, place]

theorem eq_of_get {first second : List (ZMod modulus)} (length : first.length = second.length)
    (same : ∀ i < first.length, first.getD i 0 = second.getD i 0) : first = second := by
  apply ext_getElem length
  intro i inFirst inSecond
  rw [← getD_eq_getElem _ 0 inFirst, ← getD_eq_getElem _ 0 inSecond]
  exact same i inFirst

theorem two_final_blocks (chunkLength : finalChunk.length = 64) (bytesLength : lenBytes.length = 8)
    (le : len ≤ 64) (extra : 56 ≤ len) :
    paddedBlocks finalChunk lenBytes len = paddedTail finalChunk lenBytes len (119 - len) := by
  have length := padded_blocks_length chunkLength bytesLength len
  apply eq_of_get
  · rw [length, padded_tail_length chunkLength bytesLength le]
    omega
  · intro j inside
    rw [length] at inside
    have place : len + 1 + (119 - len) = 120 := by omega
    rw [padded_blocks_get chunkLength bytesLength le inside, padded_tail_get chunkLength le,
      if_pos extra, place]
    by_cases here : j = len
    · rw [if_pos here, if_neg (by omega), if_pos here]
    · rw [if_neg here, if_neg here]
      by_cases data : j < len
      · rw [if_pos (by omega), if_pos data, if_pos data]
      · rw [if_neg data, if_neg data]
        by_cases zero : j < 120
        · have none : ¬(len < 56 ∧ j - 64 < len) := by omega
          rw [if_pos zero, if_neg none, if_pos zero, ite_self]
        · rw [if_neg (by omega), if_neg zero, if_neg zero]

theorem one_final_block (chunkLength : finalChunk.length = 64) (bytesLength : lenBytes.length = 8)
    (short : len < 56) : (paddedBlocks finalChunk lenBytes len).drop 64 =
      paddedTail finalChunk lenBytes len (55 - len) := by
  have length := padded_blocks_length chunkLength bytesLength len
  apply eq_of_get
  · rw [length_drop, length, padded_tail_length chunkLength bytesLength (by omega)]
    omega
  · intro j inside
    rw [length_drop, length] at inside
    have place : len + 1 + (55 - len) = 56 := by omega
    have back : 64 + j - 64 = j := by omega
    rw [drop_get, padded_blocks_get chunkLength bytesLength (by omega) (by omega),
      padded_tail_get chunkLength (by omega), if_neg (by omega : ¬56 ≤ len), place, back,
      if_neg (by omega : ¬64 + j < 64)]
    by_cases here : j = len
    · rw [if_pos (by omega), if_neg (by omega), if_pos here]
    · rw [if_neg (by omega), if_neg here]
      by_cases data : j < len
      · rw [if_pos (by omega), if_pos ⟨short, data⟩, if_pos data]
      · rw [if_neg data]
        by_cases zero : j < 56
        · rw [if_pos (by omega), if_neg (by omega), if_pos zero]
        · have bytes : 64 + j - 120 = j - 56 := by omega
          rw [if_neg (by omega), if_neg zero, bytes]

end Padding

section ComputedPadding

variable [Fact modulus.Prime]

theorem length_bytes_lt (len : Nat) : ∀ byte ∈ lengthBytes len, byte < 256 := by
  intro byte mem
  rcases mem_map.mp mem with ⟨i, -, rfl⟩
  exact Nat.mod_lt _ (by decide)

theorem length_bytes_eq (len : Nat) :
    (decomposeInVariableLimbsizes (8 * len) (replicate 8 8)).reverse = lengthBytes len := by
  simp [lengthBytes, decomposeInVariableLimbsizes, replicate, range_succ,
    Nat.shiftRight_eq_div_pow, Nat.div_div_eq_div_mul]

theorem computes_length_bytes (wide : 2 ^ 67 ≤ modulus) {len : Nat} (short : 8 * len < 2 ^ 64) :
    Computes (assignedToBeBytes ((8 * len : Nat) : ZMod modulus) 8)
      ((lengthBytes len).map fun byte : Nat => (byte : ZMod modulus)) := by
  have value : ((8 * len : Nat) : ZMod modulus).val = 8 * len := val_natCast_lt (by omega)
  have limbs := @computes_decompose modulus _ 8 8 (by decide) (by omega)
    ((8 * len : Nat) : ZMod modulus) (by rw [value]; exact short)
  rw [value] at limbs
  have size : 67 < modulus.size := Nat.lt_size.mpr wide
  unfold assignedToBeBytes
  rw [le_bytes_eq (by omega), ← length_bytes_eq, map_reverse]
  exact limbs.returning List.reverse

theorem no_length_bytes (wide : 2 ^ 67 ≤ modulus) {x : ZMod modulus} (long : 2 ^ 64 ≤ x.val)
    (result : List (ZMod modulus)) : ¬(assignedToBeBytes x 8).allows result := by
  have size : 67 < modulus.size := Nat.lt_size.mpr wide
  rintro ⟨bytes, allowed, -⟩
  rw [le_bytes_eq (by omega)] at allowed
  rcases decompose_allows (by decide) (by omega) allowed with ⟨count, small, value⟩
  have below := Nat.ofDigits_lt_base_pow_length (by decide : 1 < 2 ^ 8) small
  rw [← value, length_map, count] at below
  omega

theorem bits_length (len : Nat) :
    Computes (linearCombination [(((8 : Nat) : ZMod modulus), (len : ZMod modulus))] 0)
      ((8 * len : Nat) : ZMod modulus) := by
  have combination := computes_linear_combination
    [(((8 : Nat) : ZMod modulus), (len : ZMod modulus))] 0
  have value : (0 : ZMod modulus) + ([(((8 : Nat) : ZMod modulus), (len : ZMod modulus))].map
      fun term : ZMod modulus × ZMod modulus => term.1 * term.2).sum =
        ((8 * len : Nat) : ZMod modulus) := by simp
  rwa [value] at combination

theorem computes_padding (wide : 2 ^ 67 ≤ modulus) {len finalLen : Nat} (short : 8 * len < 2 ^ 64)
    (le : finalLen ≤ 64) {finalChunk : List (ZMod modulus)} (chunkLength : finalChunk.length = 64) :
    Computes (computePadding (len : ZMod modulus) (finalLen : ZMod modulus) finalChunk
        (bit (decide (56 ≤ finalLen))))
      (paddedBlocks finalChunk ((lengthBytes len).map fun byte : Nat => (byte : ZMod modulus))
        finalLen) := by
  have condLen : ((finalLen : Nat) : ZMod modulus) * bit (! decide (56 ≤ finalLen)) =
      ((if 56 ≤ finalLen then 0 else finalLen : Nat) : ZMod modulus) := by
    by_cases extra : 56 ≤ finalLen
    · simp [extra, bit]
    · simp [extra, bit]
  have idx : (-((56 : Nat) : ZMod modulus)) + ([(1, ((finalLen : Nat) : ZMod modulus)),
      (((64 : Nat) : ZMod modulus), bit (! decide (56 ≤ finalLen)))].map
        fun term : ZMod modulus × ZMod modulus => term.1 * term.2).sum =
          ((if 56 ≤ finalLen then finalLen - 56 else finalLen + 8 : Nat) : ZMod modulus) := by
    by_cases extra : 56 ≤ finalLen
    · rw [if_pos extra, Nat.cast_sub extra]
      simp [extra, bit]
      ring
    · rw [if_neg extra]
      simp [extra, bit]
      ring
  have idxBelow : (if 56 ≤ finalLen then finalLen - 56 else finalLen + 8) < modulus := by
    split_ifs <;> omega
  have condBelow : (if 56 ≤ finalLen then 0 else finalLen) ≤ 64 := by
    split_ifs <;> omega
  have bytesLength : (lengthBytes len).length = 8 := by
    rw [lengthBytes, length_map, length_range]
  unfold computePadding paddedBlocks
  refine (computes_assign_fixed _).bind ?_
  refine (computes_not _).bind ?_
  refine (computes_merge (by omega)).bind ?_
  refine (computes_mul _ _).bind ?_
  rw [condLen]
  refine (computes_merge (by rw [length_take]; omega)).bind ?_
  refine (bits_length len).bind ?_
  refine (computes_length_bytes wide short).bind ?_
  refine (computes_assign_fixed _).bind ?_
  refine (computes_linear_combination _ _).bind ?_
  rw [idx]
  refine (computes_insert idxBelow ?_ _).returning _
  rw [length_drop, length_take]
  omega

theorem no_padding (wide : 2 ^ 67 ≤ modulus) {len : Nat} (usize : len < 2 ^ 64)
    (long : 2 ^ 64 ≤ 8 * len) (finalChunkLen : ZMod modulus) (finalChunk : List (ZMod modulus))
    (extraBlock : ZMod modulus) (result : List (ZMod modulus)) :
    ¬(computePadding (len : ZMod modulus) finalChunkLen finalChunk extraBlock).allows result := by
  rintro ⟨_, -, _, -, _, -, _, -, _, -, bits, bitsAllowed, bytes, bytesAllowed, -⟩
  rw [(bits_length len).allows] at bitsAllowed
  rw [bitsAllowed] at bytesAllowed
  exact no_length_bytes wide (by rwa [val_natCast_lt (by omega)]) bytes bytesAllowed

end ComputedPadding

/-! ### The loop over the blocks -/

section Loop

variable [Fact modulus.Prime] (hash : Compression modulus)

def compressBlocks (state : List (ZMod modulus)) (blocks : List (List (ZMod modulus))) :
    List (ZMod modulus) :=
  blocks.foldl (fun state block => hash.compress state (block.map ZMod.val)) state

omit [Fact modulus.Prime] in
theorem compress_blocks_length {state : List (ZMod modulus)} (length : state.length = hash.iv.length)
    (blocks : List (List (ZMod modulus))) :
    (compressBlocks hash state blocks).length = hash.iv.length := by
  induction blocks generalizing state with
  | nil => exact length
  | cons block blocks ih => exact ih (hash.compress_length state _ length)

omit [Fact modulus.Prime] in
theorem computes_update_state (state block : List (ZMod modulus)) :
    Computes (updateState hash state block) (hash.compress state (block.map ZMod.val)) := by
  unfold updateState
  apply computes_assign
  · exact (computes_constrain rfl).bind (computes_pure _)
  · rintro result other ⟨_, same, -⟩
    exact same

theorem computes_conditional_update {state : List (ZMod modulus)}
    (length : state.length = hash.iv.length) (block : List (ZMod modulus)) (update : Bool) :
    Computes (conditionalUpdateState hash state block (bit update))
      (if update then hash.compress state (block.map ZMod.val) else state) := by
  have newLength := hash.compress_length state (block.map ZMod.val) length
  unfold conditionalUpdateState
  refine (computes_update_state hash state block).bind ?_
  have loop : Computes (((hash.compress state (block.map ZMod.val)).zip state).mapM
      fun entry => select (bit update) entry.1 entry.2)
      (((hash.compress state (block.map ZMod.val)).zip state).map
        fun entry => if update then entry.1 else entry.2) :=
    computes_loop _ fun entry _ => computes_select update entry.1 entry.2
  cases update with
  | true =>
    have first : ((hash.compress state (block.map ZMod.val)).zip state).map
        (fun entry => if true = true then entry.1 else entry.2) =
          hash.compress state (block.map ZMod.val) := by
      simpa using map_fst_zip (Nat.le_of_eq (newLength.trans length.symm))
    rwa [first] at loop
  | false =>
    have second : ((hash.compress state (block.map ZMod.val)).zip state).map
        (fun entry => if false = true then entry.1 else entry.2) = state := by
      simpa using map_snd_zip (Nat.le_of_eq (length.trans newLength.symm))
    rwa [second] at loop

theorem computes_block_loop {maxBlocks target : Nat} (fits : maxBlocks * 64 < modulus)
    (reached : target ≤ maxBlocks) (blocks : List (List (ZMod modulus))) (start : Nat)
    (inside : start + blocks.length ≤ maxBlocks) {state : List (ZMod modulus)}
    (length : state.length = hash.iv.length) :
    Computes ((blocks.zipIdx start).foldlM (processBlock hash (maxBlocks * 64)
        ((maxBlocks * 64 - target * 64 : Nat) : ZMod modulus)) (state, bit (decide (target < start))))
      (compressBlocks hash state (blocks.drop (target - start)),
        bit (decide (target < start + blocks.length))) := by
  induction blocks generalizing start state with
  | nil =>
    rw [drop_nil, length_nil, Nat.add_zero]
    exact computes_pure _
  | cons block blocks ih =>
    rw [length_cons] at inside
    rw [zipIdx_cons, foldlM_cons, length_cons]
    have aligned : ((maxBlocks * 64 - target * 64 : Nat) : ZMod modulus) =
        ((maxBlocks * 64 - start * 64 : Nat) : ZMod modulus) ↔ start = target := by
      rw [cast_eq_iff (by omega) (by omega)]
      omega
    have toggled : (decide (((maxBlocks * 64 - target * 64 : Nat) : ZMod modulus) =
        ((maxBlocks * 64 - start * 64 : Nat) : ZMod modulus)) ^^ decide (target < start)) =
          decide (target < start + 1) := by
      rw [Bool.eq_iff_iff]
      simp only [Bool.xor_iff_ne, aligned, decide_eq_true_iff, ne_eq, decide_eq_decide]
      omega
    have step : Computes (processBlock hash (maxBlocks * 64)
        ((maxBlocks * 64 - target * 64 : Nat) : ZMod modulus)
        (state, bit (decide (target < start))) (block, start))
        (if decide (target < start + 1) then hash.compress state (block.map ZMod.val) else state,
          bit (decide (target < start + 1))) := by
      unfold processBlock
      refine (computes_is_equal_to_fixed _ _).bind ?_
      refine (computes_xor _ _).bind ?_
      rw [toggled]
      exact (computes_conditional_update hash length block _).returning fun next => (next, _)
    have count : start + 1 + blocks.length = start + (blocks.length + 1) := by omega
    refine step.bind ?_
    rw [← count]
    by_cases started : target < start + 1
    · rw [if_pos (decide_eq_true started)]
      have rest := ih (start + 1) (by omega)
        (hash.compress_length state (block.map ZMod.val) length)
      have skipped : target - (start + 1) = 0 ∧ target - start = 0 := by omega
      rw [skipped.1, drop_zero] at rest
      rw [skipped.2, drop_zero]
      exact rest
    · rw [if_neg (by simpa using started)]
      have rest := ih (start + 1) (by omega) length
      have skipped : target - start = target - (start + 1) + 1 := by omega
      rw [skipped, drop_succ_cons]
      exact rest

end Loop

/-! ### The data in the buffer -/

section Data

def dataBlocks (len : Nat) : Nat := (len + 63) / 64

theorem final_length_blocks (len : Nat) :
    (if finalLength len = 0 then len - finalLength len else len - finalLength len + 64) =
        dataBlocks len * 64 ∧
      len = (dataBlocks len - 1) * 64 + finalLength len := by
  unfold finalLength dataBlocks
  by_cases none : len = 0
  · subst none
    exact ⟨rfl, rfl⟩
  · by_cases full : len % 64 = 0
    · have last : (if len % 64 = 0 ∧ len ≠ 0 then 64 else len % 64) = 64 := if_pos ⟨full, none⟩
      rw [last, if_neg (by decide)]
      omega
    · have last : (if len % 64 = 0 ∧ len ≠ 0 then 64 else len % 64) = len % 64 :=
        if_neg (not_and_of_not_left _ full)
      rw [last, if_neg full]
      omega

variable {blocks : Nat} (input : AssignedVector modulus maxLen)

theorem buffer_blocks (whole : maxLen = (blocks + 1) * 64) :
    chunks 64 input.buffer =
      chunks 64 (input.buffer.take (blocks * 64)) ++ [input.buffer.drop (blocks * 64)] := by
  have length := input.buffer_length
  have lastLength : (input.buffer.drop (blocks * 64)).length = 64 := by
    rw [length_drop]
    omega
  have frontLength : (input.buffer.take (blocks * 64)).length = blocks * 64 := by
    rw [length_take]
    omega
  have nonempty : input.buffer.drop (blocks * 64) ≠ [] := by
    intro empty
    rw [empty] at lastLength
    cases lastLength
  rw [← chunks_single nonempty lastLength.le, ← chunks_append (by decide) blocks frontLength,
    take_append_drop]

theorem value_eq (whole : maxLen = (blocks + 1) * 64) :
    input.value 64 = (input.buffer.take (blocks * 64)).drop
        ((blocks + 1 - dataBlocks input.len.val) * 64) ++
      (input.buffer.drop (blocks * 64)).take (finalLength input.len.val) := by
  have length := input.buffer_length
  have le := input.len_le
  have counts := final_length_blocks input.len.val
  have frontLength : (input.buffer.take (blocks * 64)).length = blocks * 64 := by
    rw [length_take]
    omega
  unfold AssignedVector.value dataOf
  dsimp only
  rw [get_lims_eq (by decide) (by omega)]
  dsimp only
  by_cases none : input.len.val = 0
  · have noBlock : dataBlocks input.len.val = 0 := by rw [none]; rfl
    have noFinal : finalLength input.len.val = 0 := by rw [none]; rfl
    have last : lastPosition maxLen 64 input.len.val = maxLen := by
      rw [none]
      rfl
    rw [noBlock, noFinal, last, none, take_zero, append_nil, Nat.sub_zero, Nat.sub_zero,
      drop_of_length_le (by rw [length_take]; omega),
      drop_of_length_le (by rw [length_take]; omega)]
  · have some : 0 < dataBlocks input.len.val := by
      unfold dataBlocks
      omega
    have last : lastPosition maxLen 64 input.len.val =
        (input.buffer.take (blocks * 64)).length + finalLength input.len.val := by
      rw [frontLength]
      unfold lastPosition finalLength
      by_cases full : input.len.val % 64 = 0
      · rw [if_pos full, if_pos ⟨full, none⟩]
        omega
      · rw [if_neg full, if_neg (not_and_of_not_left _ full)]
        omega
    have start : lastPosition maxLen 64 input.len.val - input.len.val =
        (blocks + 1 - dataBlocks input.len.val) * 64 := by
      rw [last, frontLength]
      omega
    have taken : input.buffer.take (lastPosition maxLen 64 input.len.val) =
        input.buffer.take (blocks * 64) ++
          (input.buffer.drop (blocks * 64)).take (finalLength input.len.val) := by
      rw [last, ← take_length_add_append, take_append_drop]
    rw [start, taken, drop_append_of_le_length]
    rw [frontLength]
    omega

theorem value_length_eq (whole : maxLen = (blocks + 1) * 64) :
    (input.value 64).length = input.len.val := by
  have length := input.buffer_length
  have le := input.len_le
  have counts := final_length_blocks input.len.val
  have bound := final_length_le input.len.val
  rw [value_eq input whole, length_append, length_drop, length_take, length_take, length_drop]
  unfold dataBlocks at *
  omega

end Data

/-! ### The output is the digest -/

section Digest

variable [Fact modulus.Prime] (hash : Compression modulus)

theorem padded_tail_values (wide : 2 ^ 67 ≤ modulus) (finalChunk : List (ZMod modulus))
    (len finalLen zeros : Nat) :
    (paddedTail finalChunk ((lengthBytes len).map fun byte : Nat => (byte : ZMod modulus)) finalLen
        zeros).map ZMod.val =
      (finalChunk.take finalLen).map ZMod.val ++
        0x80 :: (replicate zeros 0 ++ lengthBytes len) := by
  have one : ((0x80 : Nat) : ZMod modulus).val = 0x80 := val_natCast_lt (by omega)
  have bytes : ((lengthBytes len).map fun byte : Nat => (byte : ZMod modulus)).map ZMod.val =
      lengthBytes len := by
    rw [map_map]
    have each : ∀ byte ∈ lengthBytes len,
        (ZMod.val ∘ fun byte : Nat => (byte : ZMod modulus)) byte = id byte := by
      intro byte mem
      have small := length_bytes_lt len byte mem
      exact val_natCast_lt (by omega)
    rw [map_congr_left each, map_id]
  unfold paddedTail
  rw [map_append, map_cons, map_append, map_replicate, one, bytes, ZMod.val_zero]

theorem sha256_eq (wide : 2 ^ 67 ≤ modulus) {whole finalChunk : List (ZMod modulus)} {groups len : Nat}
    (wholeLength : whole.length = groups * 64) (chunkLength : finalChunk.length = 64)
    (total : len = groups * 64 + finalLength len) :
    sha256 hash ((whole ++ finalChunk.take (finalLength len)).map ZMod.val) =
      let lenBytes := (lengthBytes len).map fun byte : Nat => (byte : ZMod modulus)
      let padding := paddedBlocks finalChunk lenBytes (finalLength len)
      let state := compressBlocks hash hash.iv (chunks 64 whole)
      let state := if 56 ≤ finalLength len then
        hash.compress state ((padding.take 64).map ZMod.val) else state
      hash.plain (hash.compress state ((padding.drop 64).map ZMod.val)) := by
  have bound := final_length_le len
  have bytesLength : ((lengthBytes len).map fun byte : Nat => (byte : ZMod modulus)).length = 8 := by
    rw [length_map, lengthBytes, length_map, length_range]
  have dataLength : ((whole ++ finalChunk.take (finalLength len)).map ZMod.val).length = len := by
    rw [length_map, length_append, length_take, wholeLength, chunkLength]
    omega
  have mapped : (whole.map ZMod.val).length = groups * 64 := by rw [length_map, wholeLength]
  have message : (whole ++ finalChunk.take (finalLength len)).map ZMod.val ++ sha256Padding len =
      whole.map ZMod.val ++ (paddedTail finalChunk
        ((lengthBytes len).map fun byte : Nat => (byte : ZMod modulus)) (finalLength len)
          ((119 - len % 64) % 64)).map ZMod.val := by
    rw [padded_tail_values wide, map_append, append_assoc]
    rfl
  unfold sha256
  rw [dataLength, message, chunks_append (by decide) groups mapped, foldl_append, chunks_map,
    chunks_map, foldl_map, foldl_map]
  show hash.plain ((chunks 64 (paddedTail finalChunk _ _ _)).foldl _
    (compressBlocks hash hash.iv (chunks 64 whole))) = _
  dsimp only
  generalize compressBlocks hash hash.iv (chunks 64 whole) = state
  by_cases extra : 56 ≤ finalLength len
  · have zeros : (119 - len % 64) % 64 = 119 - finalLength len := by
      unfold finalLength at extra ⊢
      split_ifs at extra ⊢ <;> omega
    have length := padded_blocks_length chunkLength bytesLength (finalLength len)
    have nonempty : ∀ {entries : List (ZMod modulus)}, entries.length = 64 → entries ≠ [] := by
      intro entries full empty
      rw [empty] at full
      cases full
    have firstLength : ((paddedBlocks finalChunk ((lengthBytes len).map
        fun byte : Nat => (byte : ZMod modulus)) (finalLength len)).take 64).length = 64 := by
      rw [length_take, length]
      rfl
    have secondLength : ((paddedBlocks finalChunk ((lengthBytes len).map
        fun byte : Nat => (byte : ZMod modulus)) (finalLength len)).drop 64).length = 64 := by
      rw [length_drop, length]
    have split : chunks 64 (paddedBlocks finalChunk ((lengthBytes len).map
        fun byte : Nat => (byte : ZMod modulus)) (finalLength len)) =
          [(paddedBlocks finalChunk ((lengthBytes len).map
              fun byte : Nat => (byte : ZMod modulus)) (finalLength len)).take 64,
            (paddedBlocks finalChunk ((lengthBytes len).map
              fun byte : Nat => (byte : ZMod modulus)) (finalLength len)).drop 64] := by
      conv_lhs => rw [← take_append_drop 64 (paddedBlocks finalChunk _ _),
        chunks_append (by decide) 1 firstLength, chunks_single (nonempty firstLength) firstLength.le,
        chunks_single (nonempty secondLength) secondLength.le]
      rfl
    rw [if_pos extra, zeros, ← two_final_blocks chunkLength bytesLength bound extra, split]
    rfl
  · have zeros : (119 - len % 64) % 64 = 55 - finalLength len := by
      unfold finalLength at extra ⊢
      split_ifs at extra ⊢ <;> omega
    have one := one_final_block chunkLength bytesLength (Nat.lt_of_not_le extra)
    have tailLength := padded_tail_length chunkLength bytesLength bound (55 - finalLength len)
    have nonempty : paddedTail finalChunk ((lengthBytes len).map
        fun byte : Nat => (byte : ZMod modulus)) (finalLength len) (55 - finalLength len) ≠ [] := by
      intro empty
      rw [empty, length_nil] at tailLength
      omega
    rw [if_neg extra, zeros, chunks_single nonempty (by omega), one]
    rfl

variable {blocks : Nat} (input : AssignedVector modulus maxLen)

theorem rounded_length (large : 64 < modulus) (whole : maxLen = (blocks + 1) * 64) :
    (if decide (((finalLength input.len.val : Nat) : ZMod modulus) = 0) then
      input.len - ((finalLength input.len.val : Nat) : ZMod modulus)
        else input.len - ((finalLength input.len.val : Nat) : ZMod modulus) +
          ((64 : Nat) : ZMod modulus)) =
      (((blocks + 1) * 64 - (blocks + 1 - dataBlocks input.len.val) * 64 : Nat) : ZMod modulus) := by
  have counts := final_length_blocks input.len.val
  have bound := final_length_le input.len.val
  have le := input.len_le
  have blocksLe : dataBlocks input.len.val ≤ blocks + 1 := by
    unfold dataBlocks
    omega
  have finalLe : finalLength input.len.val ≤ input.len.val := by omega
  have difference : input.len - ((finalLength input.len.val : Nat) : ZMod modulus) =
      ((input.len.val - finalLength input.len.val : Nat) : ZMod modulus) := by
    rw [Nat.cast_sub finalLe, ZMod.natCast_zmod_val]
  have rest : (blocks + 1) * 64 - (blocks + 1 - dataBlocks input.len.val) * 64 =
      dataBlocks input.len.val * 64 := by omega
  have zero : decide (((finalLength input.len.val : Nat) : ZMod modulus) = 0) =
      decide (finalLength input.len.val = 0) := by
    rw [decide_eq_decide, ← ZMod.val_eq_zero, val_natCast_lt (by omega)]
  rw [rest, ← counts.1, zero, difference]
  by_cases empty : finalLength input.len.val = 0
  · rw [if_pos (decide_eq_true empty), if_pos empty]
  · rw [if_neg (by simpa using empty), if_neg empty, Nat.cast_add]

/-- Data in at least one block of buffer, with a length that has 64 bits. -/
theorem computes_sha256_varlen (wide : 2 ^ 67 ≤ modulus) (usize : maxLen < 2 ^ 64)
    (whole : maxLen = (blocks + 1) * 64) (short : 8 * input.len.val < 2 ^ 64) :
    Computes (sha256Varlen hash input) (sha256 hash ((input.value 64).map ZMod.val)) := by
  have bufferLength := input.buffer_length
  have le := input.len_le
  have counts := final_length_blocks input.len.val
  have bound := final_length_le input.len.val
  have blocksLe : dataBlocks input.len.val ≤ blocks + 1 := by
    unfold dataBlocks
    omega
  have cast : ((input.len.val : Nat) : ZMod modulus) = input.len := ZMod.natCast_zmod_val _
  have frontLength : (input.buffer.take (blocks * 64)).length = blocks * 64 := by
    rw [length_take]
    omega
  have chunkLength : (input.buffer.drop (blocks * 64)).length = 64 := by
    rw [length_drop]
    omega
  have front := chunks_full (by decide) blocks frontLength
  have buffer := buffer_blocks input whole
  have final := @computes_final_block_len modulus maxLen _ input.len.val (by omega) (by omega) le
  have padding := computes_padding wide short bound chunkLength
  rw [cast] at final padding
  have rounded := rounded_length input (by omega) whole
  have initial : Computes (hash.iv.mapM assignFixed) hash.iv := by
    have loop := @computes_loop _ _ _ id hash.iv fun entry _ => computes_assign_fixed entry
    rwa [map_id] at loop
  have absorbed := @computes_block_loop modulus _ hash (blocks + 1)
    (blocks + 1 - dataBlocks input.len.val) (by omega) (Nat.sub_le _ _)
    (chunks 64 (input.buffer.take (blocks * 64))) 0 (by omega) hash.iv rfl
  rw [Nat.sub_zero, chunks_drop (by decide), ← whole] at absorbed
  have outcome := @compress_blocks_length modulus hash hash.iv rfl (chunks 64
    ((input.buffer.take (blocks * 64)).drop ((blocks + 1 - dataBlocks input.len.val) * 64)))
  have digest := @sha256_eq modulus _ hash wide
    ((input.buffer.take (blocks * 64)).drop ((blocks + 1 - dataBlocks input.len.val) * 64))
    (input.buffer.drop (blocks * 64)) (dataBlocks input.len.val - 1) input.len.val (by
      rw [length_drop, frontLength]
      omega) chunkLength counts.2
  rw [← value_eq input whole] at digest
  unfold sha256Varlen
  refine final.bind ?_
  refine (computes_is_zero _).bind ?_
  refine (computes_sub _ _).bind ?_
  refine (computes_add_constant _ _).bind ?_
  refine (computes_select _ _ _).bind ?_
  rw [rounded, ← whole]
  refine (computes_assign_fixed _).bind ?_
  refine initial.bind ?_
  rw [buffer, getLast?_concat, dropLast_concat]
  refine absorbed.bind ?_
  refine padding.bind ?_
  refine (computes_conditional_update hash outcome _ _).bind ?_
  refine (computes_update_state hash _ _).bind ?_
  rw [digest]
  simp only [decide_eq_true_eq]
  exact computes_pure _

theorem no_block (none : maxLen = 0) (result : List (ZMod modulus)) :
    ¬(sha256Varlen hash input).allows result := by
  have empty : input.buffer = [] := eq_nil_of_length_eq_zero (input.buffer_length.trans none)
  have noFinal : (chunks 64 input.buffer).getLast? = Option.none := by
    rw [empty, chunks, if_pos (Or.inl rfl)]
    rfl
  rintro ⟨_, -, _, -, _, -, _, -, _, -, _, -, _, -, rest⟩
  rw [noFinal] at rest
  exact rest

theorem long_data (wide : 2 ^ 67 ≤ modulus) (usize : maxLen < 2 ^ 64)
    (long : 2 ^ 64 ≤ 8 * input.len.val) (result : List (ZMod modulus)) :
    ¬(sha256Varlen hash input).allows result := by
  have le := input.len_le
  have noBytes := @no_padding modulus _ wide input.len.val (by omega) long
  rw [ZMod.natCast_zmod_val] at noBytes
  rintro ⟨final, -, _, -, _, -, _, -, _, -, _, -, _, -, rest⟩
  cases found : (chunks 64 input.buffer).getLast? with
  | none =>
    rw [found] at rest
    exact rest
  | some finalBlock =>
    rw [found] at rest
    rcases rest with ⟨_, -, padding, padded, -⟩
    exact noBytes final.1 finalBlock final.2 padding padded

/-- The output is the digest of the data, whatever the other cells of the buffer hold. -/
theorem sha256_varlen_digest (wide : 2 ^ 67 ≤ modulus) (usize : maxLen < 2 ^ 64)
    (aligned : 64 ∣ maxLen) :
    Ensures (sha256Varlen hash input)
        (fun result => result = sha256 hash ((input.value 64).map ZMod.val)) ∧
      (input.value 64).length = input.len.val ∧
      (0 < maxLen → 8 * input.len.val < 2 ^ 64 →
        Computes (sha256Varlen hash input) (sha256 hash ((input.value 64).map ZMod.val))) := by
  rcases aligned with ⟨count, size⟩
  cases count with
  | zero =>
    have none : maxLen = 0 := size
    refine ⟨fun result allowed => absurd allowed (no_block hash input none result), ?_, ?_⟩
    · have le := input.len_le
      have zero : input.len.val = 0 := by omega
      have length := input.buffer_length
      unfold AssignedVector.value dataOf
      rw [length_drop, length_take, zero]
      omega
    · intro positive
      omega
  | succ blocks =>
    have whole : maxLen = (blocks + 1) * 64 := by omega
    refine ⟨?_, value_length_eq input whole, fun _ short =>
      computes_sha256_varlen hash input wide usize whole short⟩
    by_cases short : 8 * input.len.val < 2 ^ 64
    · exact (computes_sha256_varlen hash input wide usize whole short).ensures
    · exact fun result allowed =>
        absurd allowed (long_data hash input wide usize (Nat.le_of_not_lt short) result)

end Digest

/-! ### A buffer of one block -/

open ScalarField (scalarModulus scalar_modulus_size)

/-- A compression function that only adds a block up. -/
def sumHash : Compression scalarModulus where
  iv := [0]
  compress := fun state block => state.map fun word => word + (block.sum : Nat)
  plain := id
  compress_length := fun _ _ same => by rw [length_map, same]

def threeBytes (filler : ZMod scalarModulus) : AssignedVector scalarModulus 64 where
  buffer := [1, ((2 : Nat) : ZMod scalarModulus), ((3 : Nat) : ZMod scalarModulus)] ++
    replicate 61 filler
  len := ((3 : Nat) : ZMod scalarModulus)
  buffer_length := by rw [length_append, length_replicate]; rfl
  len_le := by
    rw [val_natCast_lt (by unfold scalarModulus; omega)]
    omega

theorem three_bytes_digest :
    Ensures (sha256Varlen sumHash (threeBytes 9)) (fun result =>
        result = sha256 sumHash (((threeBytes 9).value 64).map ZMod.val)) ∧
      ((threeBytes 9).value 64).length = (threeBytes 9).len.val ∧
      (0 < 64 → 8 * (threeBytes 9).len.val < 2 ^ 64 →
        Computes (sha256Varlen sumHash (threeBytes 9))
          (sha256 sumHash (((threeBytes 9).value 64).map ZMod.val))) :=
  sha256_varlen_digest sumHash (threeBytes 9) (by unfold scalarModulus; norm_num) (by norm_num)
    (by norm_num)

end Midfall.Sha256Varlen
