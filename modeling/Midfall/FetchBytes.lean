import Midfall.PoseidonVarlen
import Midfall.NativeDecomposition
import Midfall.ScalarField

/-!
# Private substrings

The parser gadget packs a byte sequence in field elements, selects the elements
around a private index, and expands them to bytes for a finer selection. The
result is the window at the index.
-/

namespace Midfall.FetchBytes

open CircuitPrograms NativeGadget NativeDecomposition ProofReadOrder List
open PlonkConstraintSystem (divCeil)
open PoseidonVarlen (chunks_drop)

variable {modulus : Nat} [Fact modulus.Prime]

/-- One comparison: the window at `i` replaces the output where the index is `i`. -/
def selectWindow (sequence : List (ZMod modulus)) (idx : ZMod modulus)
    (output : List (ZMod modulus)) (i : Nat) : Circuit (List (ZMod modulus)) := do
  let b ← isEqualToFixed idx ((i : Nat) : ZMod modulus)
  (output.zip (sequence.drop i)).mapM fun entry => select b entry.2 entry.1

def getSubsequence (sequence : List (ZMod modulus)) (idx : ZMod modulus) (len : Nat) :
    Circuit (List (ZMod modulus)) := do
  if sequence.length < len then panic
  else
    assertLowerThanFixed idx (sequence.length - len + 1)
    let default ← assignFixed 0
    (range (sequence.length - len + 1)).foldlM (selectWindow sequence idx)
      (replicate len default)

def byteTerms (coeff : ZMod modulus) : List (ZMod modulus) → List (ZMod modulus × ZMod modulus)
  | [] => []
  | byte :: bytes => (coeff, byte) :: byteTerms (((256 : Nat) : ZMod modulus) * coeff) bytes

def assignedFromLeBytes (bytes : List (ZMod modulus)) : Circuit (ZMod modulus) :=
  linearCombination (byteTerms 1 bytes) 0

/-- `F::CAPACITY / 8`. -/
def nbBytesPerChunk (modulus : Nat) : Nat := (modulus.size - 1) / 8

def fetchBytes (sequence : List (ZMod modulus)) (idx : ZMod modulus) (len : Nat) :
    Circuit (List (ZMod modulus)) := do
  if sequence.length < len then panic
  else
    assertLowerThanFixed idx (sequence.length - len + 1)
    let perChunk := nbBytesPerChunk modulus
    let nbChunks := divCeil sequence.length perChunk
    let chunks ← (chunks perChunk sequence).mapM assignedFromLeBytes
    let parts ← divRem idx perChunk (2 ^ 18)
    let lenForChunks := min nbChunks (1 + divCeil len perChunk)
    let dummy ← assignFixed 0
    let selectedChunks ← getSubsequence (chunks ++ [dummy]) parts.1 lenForChunks
    let selectedBytes ← selectedChunks.mapM fun chunk => assignedToLeBytes chunk perChunk
    getSubsequence selectedBytes.flatten parts.2 len

omit [Fact modulus.Prime] in
theorem select_window_fold (window start : List (ZMod modulus)) (idx count : Nat) :
    (range count).foldl (fun output i => if idx = i then window else output) start =
      if idx < count then window else start := by
  induction count with
  | zero => simp
  | succ count ih =>
    rw [range_succ, foldl_append, ih, foldl_cons, foldl_nil]
    by_cases last : idx = count
    · simp [last]
    · simp only [if_neg last, show idx < count + 1 ↔ idx < count by omega]

theorem computes_get_subsequence {sequence : List (ZMod modulus)} {idx len : Nat}
    (fits : sequence.length < modulus) (inside : idx + len ≤ sequence.length) :
    Computes (getSubsequence sequence ((idx : Nat) : ZMod modulus) len)
      ((sequence.drop idx).take len) := by
  have idxVal : ((idx : Nat) : ZMod modulus).val = idx := val_natCast_lt (by omega)
  have window : ∀ (output : List (ZMod modulus)) (i : Nat), output.length = len →
      i + len ≤ sequence.length →
        Computes (selectWindow sequence ((idx : Nat) : ZMod modulus) output i)
          (if idx = i then (sequence.drop idx).take len else output) := by
    intro output i length low
    unfold selectWindow
    have equal := computes_is_equal_to_fixed ((idx : Nat) : ZMod modulus) ((i : Nat) : ZMod modulus)
    have same : ((idx : Nat) : ZMod modulus) = ((i : Nat) : ZMod modulus) ↔ idx = i := by
      constructor
      · intro cast
        have vals := congrArg ZMod.val cast
        rwa [idxVal, val_natCast_lt (by omega)] at vals
      · intro cast
        rw [cast]
    simp only [same] at equal
    refine equal.bind ?_
    have loop := computes_loop (output.zip (sequence.drop i)) fun entry _ =>
      computes_select (decide (idx = i)) entry.2 entry.1
    have lengths : len ≤ (sequence.drop i).length := by
      rw [length_drop]
      omega
    by_cases here : idx = i
    · subst here
      simp only [decide_true, if_true] at loop ⊢
      have second : (output.zip (sequence.drop idx)).map (fun entry => entry.2) =
          (sequence.drop idx).take len := by
        rw [zip_eq_zip_take_min, length, Nat.min_eq_left lengths, ← length, take_length]
        exact map_snd_zip (by rw [length_take, length]; omega)
      rwa [second] at loop
    · simp only [here, decide_false, Bool.false_eq_true, if_false] at loop ⊢
      have first : (output.zip (sequence.drop i)).map (fun entry => entry.1) = output :=
        map_fst_zip (by omega)
      rwa [first] at loop
  unfold getSubsequence
  rw [if_neg (by omega)]
  refine (computes_assert_lower_than_fixed (Nat.succ_ne_zero _) (by omega) (by omega)).bind ?_
  refine (computes_assign_fixed 0).bind ?_
  have fold := @computes_fold _ _ (selectWindow sequence ((idx : Nat) : ZMod modulus))
    (fun output i => if idx = i then (sequence.drop idx).take len else output)
    (fun output => output.length = len) (fun i => i + len ≤ sequence.length)
    (fun output i length low => ⟨window output i length low, by
      split_ifs
      · rw [length_take, length_drop]
        omega
      · exact length⟩)
    (range (sequence.length - len + 1))
    (fun i mem => by
      have below := mem_range.mp mem
      omega) (replicate len 0) length_replicate
  rwa [select_window_fold, if_pos (by omega)] at fold

def cells (bytes : List Nat) : List (ZMod modulus) :=
  bytes.map fun byte : Nat => (byte : ZMod modulus)

theorem byte_terms_sum (bytes : List Nat) :
    ∀ coeff : ZMod modulus, ((byteTerms coeff (cells bytes)).map fun term => term.1 * term.2).sum =
      coeff * ((Nat.ofDigits 256 bytes : Nat) : ZMod modulus) := by
  induction bytes with
  | nil => simp [cells, byteTerms]
  | cons byte bytes ih =>
    intro coeff
    have rest := ih (((256 : Nat) : ZMod modulus) * coeff)
    unfold cells at rest ⊢
    rw [map_cons, byteTerms, map_cons, sum_cons, rest, Nat.ofDigits_cons]
    push_cast
    ring

theorem computes_from_le_bytes (bytes : List Nat) : Computes (assignedFromLeBytes (cells bytes))
    ((Nat.ofDigits 256 bytes : Nat) : ZMod modulus) := by
  have sum := computes_linear_combination (byteTerms (1 : ZMod modulus) (cells bytes)) 0
  rwa [byte_terms_sum, one_mul, zero_add] at sum

/-- A chunk with the zeros that its element expands to. -/
def padded (perChunk : Nat) (chunk : List Nat) : List Nat :=
  chunk ++ replicate (perChunk - chunk.length) 0

theorem padded_length {perChunk : Nat} {chunk : List Nat} (short : chunk.length ≤ perChunk) :
    (padded perChunk chunk).length = perChunk := by
  rw [padded, length_append, length_replicate]
  omega

theorem computes_to_le_bytes {perChunk : Nat} {chunk : List Nat} (fewer : 8 * perChunk < modulus.size)
    (isByte : ∀ byte ∈ chunk, byte < 256) (short : chunk.length ≤ perChunk) :
    Computes (assignedToLeBytes ((Nat.ofDigits 256 chunk : Nat) : ZMod modulus) perChunk)
      (cells (padded perChunk chunk)) := by
  have fits : 2 ^ (8 * perChunk) ≤ modulus := Nat.lt_size.mp fewer
  have value : Nat.ofDigits 256 (padded perChunk chunk) = Nat.ofDigits 256 chunk := by
    rw [padded, Nat.ofDigits_append_replicate_zero]
  have bytes : ∀ byte ∈ padded perChunk chunk, byte < 256 := by
    intro byte mem
    rcases mem_append.mp mem with inside | zero
    · exact isByte byte inside
    · rw [eq_of_mem_replicate zero]
      decide
  have below := Nat.ofDigits_lt_base_pow_length (by decide : 1 < 256) bytes
  have power : 256 ^ perChunk = 2 ^ (8 * perChunk) := pow_mul 2 8 perChunk |>.symm
  rw [value, padded_length short, power] at below
  have val : ((Nat.ofDigits 256 chunk : Nat) : ZMod modulus).val = Nat.ofDigits 256 chunk :=
    val_natCast_lt (lt_of_lt_of_le below fits)
  have decomposed := @computes_decompose modulus _ 8 perChunk (by decide) fits
    ((Nat.ofDigits 256 chunk : Nat) : ZMod modulus) (by rwa [val])
  have digits := decompose_of_digits (Nat.ofDigits 256 chunk) 8 perChunk
  rw [Nat.mod_eq_of_lt below] at digits
  have same := Nat.ofDigits_inj_of_len_eq (by decide : 1 < 2 ^ 8)
    (by rw [decompose_length, length_replicate, padded_length short])
    (decompose_limb_lt (Nat.ofDigits 256 chunk) 8 perChunk) bytes (digits.trans value.symm)
  rw [val, same] at decomposed
  rw [le_bytes_eq fewer]
  exact decomposed

variable {blocks : List (List Nat)} {perChunk : Nat}

section

variable (whole : ∀ block ∈ blocks, block.length = perChunk)

include whole

theorem flatten_drop (count : Nat) :
    (blocks.drop count).flatten = blocks.flatten.drop (count * perChunk) := by
  induction count generalizing blocks with
  | zero => simp
  | succ count ih =>
    cases blocks with
    | nil => simp
    | cons block blocks =>
      rw [forall_mem_cons] at whole
      rw [drop_succ_cons, ih whole.2, flatten_cons, Nat.succ_mul, ← whole.1,
        Nat.add_comm, ← drop_drop, drop_left]

theorem flatten_take (count : Nat) :
    (blocks.take count).flatten = blocks.flatten.take (count * perChunk) := by
  induction count generalizing blocks with
  | zero => simp
  | succ count ih =>
    cases blocks with
    | nil => simp
    | cons block blocks =>
      rw [forall_mem_cons] at whole
      rw [take_succ_cons, flatten_cons, ih whole.2, flatten_cons, Nat.succ_mul,
        ← whole.1, Nat.add_comm, take_length_add_append]

theorem flatten_length : blocks.flatten.length = blocks.length * perChunk := by
  induction blocks with
  | nil => simp
  | cons block blocks ih =>
    rw [forall_mem_cons] at whole
    rw [flatten_cons, length_append, ih whole.2, whole.1, length_cons, Nat.succ_mul, Nat.add_comm]

end

theorem padded_chunks (pos : 0 < perChunk) (bytes : List Nat) :
    ∃ zeros, ((chunks perChunk bytes).map (padded perChunk)).flatten = bytes ++ zeros := by
  induction bytes using chunks.induct perChunk with
  | case1 bytes stop =>
    rw [chunks, if_pos stop, stop.resolve_right pos.ne']
    exact ⟨[], rfl⟩
  | case2 bytes going ih =>
    obtain ⟨zeros, rest⟩ := ih
    rw [chunks, if_neg going, map_cons, flatten_cons, rest, padded, length_take]
    by_cases short : bytes.length ≤ perChunk
    · rw [take_of_length_le short, drop_of_length_le short, nil_append, append_assoc]
      exact ⟨_, rfl⟩
    · rw [show perChunk - min perChunk bytes.length = 0 by omega, replicate_zero, append_nil,
        ← append_assoc, take_append_drop]
      exact ⟨zeros, rfl⟩

theorem block_short {bytes block : List Nat} (mem : block ∈ chunks perChunk bytes ++ [[]]) :
    block.length ≤ perChunk := by
  rcases mem_append.mp mem with real | dummy
  · exact mem_chunks_length real
  · rw [mem_singleton.mp dummy]
    exact Nat.zero_le _

/-- A window of the expanded blocks, the dummy block included, is one of the bytes. -/
theorem padded_window (pos : 0 < perChunk) (bytes : List Nat) {start count rest len : Nat}
    (inBlocks : start + count ≤ (chunks perChunk bytes).length + 1)
    (inWindow : rest + len ≤ count * perChunk) (inBytes : start * perChunk + rest + len ≤ bytes.length) :
    let window := ((((chunks perChunk bytes ++ [[]]).drop start).take count).map
      (padded perChunk)).flatten
    window.length = count * perChunk ∧
      (window.drop rest).take len = (bytes.drop (start * perChunk + rest)).take len := by
  intro window
  have whole : ∀ block ∈ (chunks perChunk bytes ++ [[]]).map (padded perChunk),
      block.length = perChunk := by
    intro block mem
    obtain ⟨chunk, inside, same⟩ := mem_map.mp mem
    rw [← same]
    exact padded_length (block_short inside)
  have sliced : window = (((chunks perChunk bytes ++ [[]]).map (padded perChunk)).flatten.drop
      (start * perChunk)).take (count * perChunk) := by
    rw [← flatten_drop whole, ← flatten_take fun block mem => whole block (mem_of_mem_drop mem),
      ← map_drop, ← map_take]
  constructor
  · have scaled := Nat.mul_le_mul_right perChunk inBlocks
    rw [Nat.add_mul] at scaled
    rw [sliced, length_take, length_drop, flatten_length whole, length_map,
      length_append, length_singleton]
    omega
  · obtain ⟨zeros, flat⟩ := padded_chunks pos bytes
    rw [sliced, map_append, flatten_append, flat, append_assoc, drop_take, take_take, drop_drop,
      Nat.min_eq_left (by omega), drop_append_of_le_length (by omega),
      take_append_of_le_length (by rw [length_drop]; omega)]

theorem chunk_ranges {n len idx : Nat} (pos : 0 < perChunk) (fits : len ≤ n)
    (low : idx ≤ n - len) :
    idx / perChunk + min (divCeil n perChunk) (1 + divCeil len perChunk) ≤ divCeil n perChunk + 1 ∧
      idx % perChunk + len ≤ min (divCeil n perChunk) (1 + divCeil len perChunk) * perChunk := by
  have index := Nat.div_add_mod' idx perChunk
  have rest := Nat.mod_lt idx pos
  have all := Nat.div_add_mod' (n + perChunk - 1) perChunk
  have allRest := Nat.mod_lt (n + perChunk - 1) pos
  have part := Nat.div_add_mod' (len + perChunk - 1) perChunk
  have partRest := Nat.mod_lt (len + perChunk - 1) pos
  unfold divCeil
  generalize idx / perChunk = q at *
  generalize (n + perChunk - 1) / perChunk = a at *
  generalize (len + perChunk - 1) / perChunk = b at *
  constructor
  · by_contra beyond
    have scaled : (a + 1) * perChunk ≤ (q + b) * perChunk := Nat.mul_le_mul_right _ (by omega)
    rw [Nat.add_mul, Nat.add_mul] at scaled
    omega
  · rcases Nat.le_total a (1 + b) with few | many
    · rw [Nat.min_eq_left few]
      omega
    · rw [Nat.min_eq_right many, Nat.add_mul]
      omega

/-- The circuit is satisfiable exactly for an index up to `n - len`, and then the
bytes are those of the window at the index. -/
theorem fetch_bytes_exact (sized : 20 ≤ modulus.size ∧ modulus.size ≤ 2 ^ 20) {bytes : List Nat}
    (isByte : ∀ byte ∈ bytes, byte < 256) (short : bytes.length ≤ 2 ^ 18) {len : Nat}
    (fits : len ≤ bytes.length) (idx : ZMod modulus) :
    (idx.val ≤ bytes.length - len → Computes (fetchBytes (cells bytes) idx len)
        (cells ((bytes.drop idx.val).take len))) ∧
      (bytes.length - len < idx.val →
        ∀ result, ¬ (fetchBytes (cells bytes) idx len).allows result) := by
  have large : 2 ^ 19 ≤ modulus := Nat.lt_size.mp (by omega)
  have length : (cells bytes : List (ZMod modulus)).length = bytes.length := length_map _
  constructor
  · intro low
    have cast : ((idx.val : Nat) : ZMod modulus) = idx := ZMod.natCast_zmod_val idx
    generalize idx.val = index at *
    subst cast
    have positive : 0 < nbBytesPerChunk modulus := by
      unfold nbBytesPerChunk
      omega
    have fewer : 8 * nbBytesPerChunk modulus < modulus.size := by
      unfold nbBytesPerChunk
      omega
    have ranges := chunk_ranges positive fits low
    have count := chunks_length (nbBytesPerChunk modulus) bytes positive
    have small : nbBytesPerChunk modulus ≤ 2 ^ 17 := by
      unfold nbBytesPerChunk
      omega
    unfold fetchBytes
    rw [length, if_neg (by omega)]
    generalize nbBytesPerChunk modulus = perChunk at *
    have indexVal : ((index : Nat) : ZMod modulus).val = index := val_natCast_lt (by omega)
    refine (computes_assert_lower_than_fixed (Nat.succ_ne_zero _) (by omega) (by omega)).bind ?_
    have top : divCeil bytes.length perChunk * perChunk ≤ bytes.length + perChunk - 1 :=
      Nat.div_mul_le_self _ _
    have few := Nat.le_mul_of_pos_right (divCeil bytes.length perChunk) positive
    have selectedFew := Nat.mul_le_mul_right perChunk
      (Nat.min_le_left (divCeil bytes.length perChunk) (1 + divCeil len perChunk))
    have byteBlocks : ∀ chunk ∈ chunks perChunk bytes ++ [[]], ∀ byte ∈ chunk, byte < 256 := by
      intro chunk mem byte inside
      rcases mem_append.mp mem with real | dummy
      · exact isByte byte (mem_chunk positive real inside)
      · rw [mem_singleton.mp dummy] at inside
        exact absurd inside not_mem_nil
    dsimp only
    have program : chunks perChunk (cells bytes : List (ZMod modulus)) =
        (chunks perChunk bytes).map cells := chunks_map _ _
    rw [program, mapM_map]
    refine (computes_loop (chunks perChunk bytes) fun chunk _ => computes_from_le_bytes chunk).bind ?_
    refine (computes_div_rem positive.ne' (by omega) (by omega) (by omega)).bind ?_
    refine (computes_assign_fixed 0).bind ?_
    have elements : (chunks perChunk bytes).map (fun chunk =>
        ((Nat.ofDigits 256 chunk : Nat) : ZMod modulus)) ++ [0] =
          (chunks perChunk bytes ++ [[]]).map fun chunk =>
            ((Nat.ofDigits 256 chunk : Nat) : ZMod modulus) := by
      simp
    have total : (chunks perChunk bytes ++ [[]]).length = divCeil bytes.length perChunk + 1 := by
      rw [length_append, count, length_singleton]
    rw [elements]
    refine (computes_get_subsequence (by rw [length_map, total]; omega)
      (by rw [length_map, total]; exact ranges.1)).bind ?_
    rw [← map_drop, ← map_take, mapM_map]
    generalize min (divCeil bytes.length perChunk) (1 + divCeil len perChunk) = selected at *
    refine (computes_loop (((chunks perChunk bytes ++ [[]]).drop (index / perChunk)).take selected)
      fun chunk mem => by
        have inside := mem_of_mem_drop (mem_of_mem_take mem)
        exact computes_to_le_bytes fewer (byteBlocks chunk inside) (block_short inside)).bind ?_
    have window := @padded_window perChunk positive bytes (index / perChunk) selected
      (index % perChunk) len (by rw [count]; exact ranges.1) ranges.2
      (by rw [Nat.div_add_mod']; omega)
    rw [Nat.div_add_mod'] at window
    have flat : ∀ blocks : List (List Nat), (blocks.map fun chunk =>
        (cells (padded perChunk chunk) : List (ZMod modulus))).flatten =
          cells ((blocks.map (padded perChunk)).flatten) := by
      intro blocks
      rw [cells, map_flatten, map_map]
      rfl
    have held : (cells (((((chunks perChunk bytes ++ [[]]).drop (index / perChunk)).take
        selected).map (padded perChunk)).flatten) : List (ZMod modulus)).length =
          selected * perChunk := (length_map _).trans window.1
    have fetched : (cells ((bytes.drop index).take len) : List (ZMod modulus)) =
        ((cells (((((chunks perChunk bytes ++ [[]]).drop (index / perChunk)).take
          selected).map (padded perChunk)).flatten)).drop (index % perChunk)).take len := by
      rw [← window.2, cells, map_take, map_drop, cells]
    rw [flat, fetched]
    exact computes_get_subsequence (by rw [held]; omega) (by rw [held]; exact ranges.2)
  · intro high result allowed
    unfold fetchBytes at allowed
    rw [length, if_neg (by omega)] at allowed
    simp only [bind_allows, assert_lower_than_fixed_iff (Nat.succ_ne_zero _)
      (by omega : bytes.length - len + 1 ≤ modulus)] at allowed
    obtain ⟨_, below, _⟩ := allowed
    omega

/-- The bytes come from two chunks. -/
theorem fetch_two_of_forty :
    Computes (fetchBytes (cells (List.range 40)) ((30 : Nat) : ZMod ScalarField.scalarModulus) 2)
      (cells [30, 31]) := by
  have sized : 20 ≤ ScalarField.scalarModulus.size ∧ ScalarField.scalarModulus.size ≤ 2 ^ 20 := by
    decide +kernel
  have fetched := (@fetch_bytes_exact ScalarField.scalarModulus _ sized (List.range 40) (by decide)
    (by decide) 2 (by decide) ((30 : Nat) : ZMod ScalarField.scalarModulus)).1
  have index : ((30 : Nat) : ZMod ScalarField.scalarModulus).val = 30 :=
    val_natCast_lt (by decide +kernel)
  rw [index] at fetched
  exact fetched (by decide)

end Midfall.FetchBytes
