import Midfall.ListLoops
import Midfall.ProofReadOrder
import Midfall.RadixTwo

/-!
# Fast Fourier transforms

`best_fft` of the curves crate: bit reversal by swaps, a table of twiddle
factors, and butterflies either in rounds over the whole vector or by recursion
on its halves. The number of threads chooses between the two.
-/

namespace Midfall.BestFft

open ListLoops ProofReadOrder RadixTwo List

def bitreverse (n l : Nat) : Nat :=
  ((range l).foldl (fun state _ => (state.1 <<< 1 ||| state.2 &&& 1, state.2 >>> 1)) (0, n)).1

section Definitions

variable {Scalar G : Type}

/-- `slice::swap`, which panics outside the slice. -/
def swap (a : List G) (i j : Nat) : Option (List G) := do
  let x ← a[i]?
  let y ← a[j]?
  return (a.set i y).set j x

def swapReversed (logN : Nat) (a : List G) (k : Nat) : Option (List G) :=
  let rk := bitreverse k logN
  if k < rk then swap a rk k else some a

def permute (logN : Nat) (a : List G) : Option (List G) :=
  (range a.length).foldlM (swapReversed logN) a

variable [CommRing Scalar]

/-- The scan that starts with `w`. -/
def twiddlesFrom (omega w : Scalar) : Nat → List Scalar
  | 0 => []
  | count + 1 => w :: twiddlesFrom omega (w * omega) count

variable [AddCommGroup G] [Module Scalar G]

def butterfly (twiddles : List Scalar) (twiddleChunk : Nat) (entry : (G × G) × Nat) :
    Option (G × G) := do
  let twiddle ← twiddles[(entry.2 + 1) * twiddleChunk]?
  let t := twiddle • entry.1.2
  return (entry.1.1 + t, entry.1.1 - t)

def butterflies (twiddles : List Scalar) (twiddleChunk : Nat) (left right : List G) :
    Option (List G) :=
  match left, right with
  | a :: left, b :: right => do
    let pairs ← (left.zip right).zipIdx.mapM (butterfly twiddles twiddleChunk)
    return (a + b) :: pairs.map Prod.fst ++ (a - b) :: pairs.map Prod.snd
  | _, _ => none

/-- All chunks of the vector; then chunks twice as long. -/
def round (twiddles : List Scalar) (state : List G × Nat × Nat) : Option (List G × Nat × Nat) := do
  let updated ← (chunks state.2.1 state.1).mapM fun coeffs =>
    butterflies twiddles state.2.2 (coeffs.take (state.2.1 / 2)) (coeffs.drop (state.2.1 / 2))
  return (updated.flatten, state.2.1 * 2, state.2.2 / 2)

def recursiveButterflyArithmetic (twiddles : List Scalar) (a : List G) (n twiddleChunk : Nat) :
    Option (List G) :=
  if n < 2 then none
  else if n = 2 then
    match a with
    | a :: b :: rest => some ((a + b) :: (a - b) :: rest)
    | _ => none
  else do
    let left ← recursiveButterflyArithmetic twiddles (a.take (n / 2)) (n / 2) (twiddleChunk * 2)
    let right ← recursiveButterflyArithmetic twiddles (a.drop (n / 2)) (n / 2) (twiddleChunk * 2)
    butterflies twiddles twiddleChunk left right
termination_by n

def bestFft (threads : Nat) (a : List G) (omega : Scalar) (logN : Nat) : Option (List G) := do
  if threads = 0 ∨ a.length ≠ 2 ^ logN then none
  else
    let n := a.length
    let permuted ← permute logN a
    let twiddles := twiddlesFrom omega 1 (n / 2)
    if logN ≤ threads.log2 then do
      let state ← (range logN).foldlM (fun state _ => round twiddles state) (permuted, 2, n / 2)
      return state.1
    else recursiveButterflyArithmetic twiddles permuted n 1

end Definitions

theorem reverse_steps (n l : Nat) :
    (range l).foldl (fun state _ => (state.1 <<< 1 ||| state.2 &&& 1, state.2 >>> 1))
      ((0, n) : Nat × Nat) = (bitreverse n l, n / 2 ^ l) := by
  induction l with
  | zero => simp [bitreverse]
  | succ l ih =>
    unfold bitreverse at ih ⊢
    rw [range_succ, foldl_append, ih, foldl_cons, foldl_nil,
      Nat.shiftRight_one, Nat.div_div_eq_div_mul, ← pow_succ]

theorem bitreverse_succ (n l : Nat) :
    bitreverse n (l + 1) = 2 * bitreverse n l + n / 2 ^ l % 2 := by
  have last : bitreverse n (l + 1) = bitreverse n l <<< 1 ||| (n / 2 ^ l) &&& 1 := by
    nth_rewrite 1 [bitreverse]
    rw [range_succ, foldl_append, reverse_steps, foldl_cons, foldl_nil]
  rw [last, Nat.and_one_is_mod, ← Nat.shiftLeft_add_eq_or_of_lt (by omega), Nat.shiftLeft_eq]
  omega

theorem bitreverse_lt (n l : Nat) : bitreverse n l < 2 ^ l := by
  induction l with
  | zero => exact Nat.one_pos
  | succ l ih =>
    rw [bitreverse_succ, pow_succ]
    omega

theorem bitreverse_mod (n l : Nat) : bitreverse (n % 2 ^ l) l = bitreverse n l := by
  induction l generalizing n with
  | zero => rfl
  | succ l ih =>
    have lower : n % 2 ^ (l + 1) % 2 ^ l = n % 2 ^ l :=
      Nat.mod_mod_of_dvd n (pow_dvd_pow 2 (Nat.le_succ l))
    have top : n % 2 ^ (l + 1) / 2 ^ l = n / 2 ^ l % 2 := by
      rw [pow_succ, Nat.mod_mul_right_div_self]
    rw [bitreverse_succ, bitreverse_succ, ← ih (n % 2 ^ (l + 1)), lower, ih, top, Nat.mod_mod]

theorem bitreverse_low (n l : Nat) :
    bitreverse n (l + 1) = n % 2 * 2 ^ l + bitreverse (n / 2) l := by
  induction l with
  | zero => simp [bitreverse]
  | succ l ih =>
    have deeper : n / 2 / 2 ^ l = n / 2 ^ (l + 1) := by
      rw [Nat.div_div_eq_div_mul, pow_succ']
    rw [bitreverse_succ, ih, bitreverse_succ, deeper, pow_succ]
    ring

theorem bitreverse_involutive {n l : Nat} (below : n < 2 ^ l) :
    bitreverse (bitreverse n l) l = n := by
  induction l generalizing n with
  | zero =>
    have zero : n = 0 := Nat.lt_one_iff.mp below
    rw [zero]
    rfl
  | succ l ih =>
    have top : n / 2 ^ l < 2 := by
      rw [Nat.div_lt_iff_lt_mul (Nat.two_pow_pos l), ← pow_succ']
      exact below
    have parts : ∀ rest bit : Nat, bit < 2 →
        (2 * rest + bit % 2) % 2 = bit ∧ (2 * rest + bit % 2) / 2 = rest := by omega
    rcases parts (bitreverse n l) (n / 2 ^ l) top with ⟨low, rest⟩
    rw [bitreverse_succ n, bitreverse_low, low, rest, ← bitreverse_mod n,
      ih (Nat.mod_lt n (Nat.two_pow_pos l)), Nat.mul_comm]
    exact Nat.div_add_mod n (2 ^ l)

section Permutation

variable {G : Type}

variable {a : List G}

theorem swap_get {i j : Nat} (first : i < a.length) (second : j < a.length) :
    ∃ result, swap a i j = some result ∧ result.length = a.length ∧
      ∀ k, result[k]? = if k = j then a[i]? else if k = i then a[j]? else a[k]? := by
  refine ⟨(a.set i a[j]).set j a[i], ?_, by simp, ?_⟩
  · unfold swap
    rw [getElem?_eq_getElem first, getElem?_eq_getElem second]
    rfl
  · intro k
    rw [getElem?_set, getElem?_set, length_set]
    by_cases atSecond : k = j
    · rw [if_pos atSecond.symm, if_pos second, if_pos atSecond, getElem?_eq_getElem first]
    · rw [if_neg (Ne.symm atSecond), if_neg atSecond]
      by_cases atFirst : k = i
      · rw [if_pos atFirst.symm, if_pos first, if_pos atFirst, getElem?_eq_getElem second]
      · rw [if_neg (Ne.symm atFirst), if_neg atFirst]

theorem permute_steps {logN : Nat} (length : a.length = 2 ^ logN) (count : Nat)
    (within : count ≤ 2 ^ logN) :
    ∃ result, (range count).foldlM (swapReversed logN) a = some result ∧
      result.length = 2 ^ logN ∧ ∀ i < 2 ^ logN, result[i]? =
        if min i (bitreverse i logN) < count then a[bitreverse i logN]? else a[i]? := by
  induction count with
  | zero => exact ⟨a, rfl, length, fun i _ => by rw [if_neg (Nat.not_lt_zero _)]⟩
  | succ count ih =>
    rcases ih (by omega) with ⟨before, run, beforeLength, places⟩
    have mirror : bitreverse (bitreverse count logN) logN = count := bitreverse_involutive within
    have inside := bitreverse_lt count logN
    have split : (range (count + 1)).foldlM (swapReversed logN) a =
        swapReversed logN before count := by
      rw [range_succ, foldlM_append, run]
      exact bind_pure (swapReversed logN before count)
    rw [split]
    unfold swapReversed
    dsimp only
    by_cases exchanged : count < bitreverse count logN
    · rw [if_pos exchanged]
      rcases swap_get (i := bitreverse count logN) (j := count) (a := before)
        (by omega) (by omega) with ⟨result, swapped, resultLength, resultPlaces⟩
      refine ⟨result, swapped, by omega, ?_⟩
      intro i bound
      rw [resultPlaces]
      by_cases here : i = count
      · subst here
        rw [if_pos rfl, places _ inside, mirror, if_neg (by omega), if_pos (by omega)]
      · rw [if_neg here]
        by_cases there : i = bitreverse count logN
        · subst there
          rw [if_pos rfl, places _ within, if_neg (by omega), mirror, if_pos (by omega)]
        · have other : bitreverse i logN ≠ count := by
            intro same
            rw [← same, bitreverse_involutive bound] at there
            exact there rfl
          have unchanged : min i (bitreverse i logN) < count + 1 ↔
              min i (bitreverse i logN) < count := by omega
          rw [if_neg there, places i bound]
          simp only [unchanged]
    · rw [if_neg exchanged]
      refine ⟨before, rfl, beforeLength, ?_⟩
      intro i bound
      rw [places i bound]
      by_cases last : min i (bitreverse i logN) = count
      · have fixed : bitreverse i logN = i := by
          rcases Nat.le_total i (bitreverse i logN) with before | after
          · have here : i = count := by omega
            subst here
            omega
          · have back : bitreverse (bitreverse i logN) logN = i := bitreverse_involutive bound
            have there : bitreverse i logN = count := by omega
            rw [there] at back
            omega
        rw [fixed, ite_self, ite_self]
      · have unchanged : min i (bitreverse i logN) < count + 1 ↔
            min i (bitreverse i logN) < count := by omega
        simp only [unchanged]

theorem shuffled_get {log : Nat} {entries : List G} (length : entries.length = 2 ^ log) {i : Nat}
    (inside : i < 2 ^ log) : (shuffled log entries)[i]? = entries[bitreverse i log]? := by
  induction log generalizing entries i with
  | zero =>
    have zero : i = 0 := Nat.lt_one_iff.mp inside
    rw [zero]
    rfl
  | succ log ih =>
    rcases power_halves length with ⟨even, odd⟩
    rw [pow_succ] at inside
    rw [shuffled, bitreverse_succ]
    by_cases first : i < 2 ^ log
    · rw [getElem?_append_left (by rwa [shuffled_length even]), ih even first,
        every_other_get, Nat.div_eq_of_lt first]
      rfl
    · have lower : i - 2 ^ log < 2 ^ log := by omega
      have top : i / 2 ^ log = 1 := by
        rw [Nat.div_eq_iff (Nat.two_pow_pos log)]
        omega
      have low : i % 2 ^ log = i - 2 ^ log := by
        rw [Nat.mod_eq_sub_mod (by omega), Nat.mod_eq_of_lt lower]
      rw [getElem?_append_right (by rw [shuffled_length even]; omega), shuffled_length even,
        ih odd lower, every_other_tail_get, ← low, bitreverse_mod, top]

theorem permute_shuffled {logN : Nat} (length : a.length = 2 ^ logN) :
    permute logN a = some (shuffled logN a) := by
  rcases permute_steps length (2 ^ logN) le_rfl with ⟨result, run, resultLength, places⟩
  unfold permute
  rw [length, run]
  congr 1
  apply ext_getElem?
  intro i
  by_cases inside : i < 2 ^ logN
  · rw [places i inside, if_pos (by omega), shuffled_get length inside]
  · rw [getElem?_eq_none (by omega), getElem?_eq_none (by rw [shuffled_length length]; omega)]

end Permutation

section Butterflies

variable {Scalar G : Type} [CommRing Scalar]

theorem twiddles_get (omega w : Scalar) {count i : Nat} (inside : i < count) :
    (twiddlesFrom omega w count)[i]? = some (w * omega ^ i) := by
  induction count generalizing w i with
  | zero => exact absurd inside (Nat.not_lt_zero i)
  | succ count ih =>
    cases i with
    | zero => rw [twiddlesFrom, getElem?_cons_zero, pow_zero, mul_one]
    | succ i =>
      rw [twiddlesFrom, getElem?_cons_succ, ih _ (by omega), pow_succ', mul_assoc]

variable [AddCommGroup G] [Module Scalar G]

/-- Every `twiddleChunk`-th entry is a power of the root of the chunk. -/
def PowersAt (twiddles : List Scalar) (twiddleChunk : Nat) (omega : Scalar) (half : Nat) : Prop :=
  ∀ i < half, twiddles[i * twiddleChunk]? = some (omega ^ i)

def turned (omega : Scalar) (right : List G) : List G :=
  zipWith (fun i odd => omega ^ i • odd) (range right.length) right

theorem turned_cons (omega : Scalar) (b : G) (right : List G) :
    turned omega (b :: right) =
      b :: zipWith (fun i odd => omega ^ (i + 1) • odd) (range right.length) right := by
  unfold turned
  rw [length_cons, range_succ_eq_map, zipWith_cons_cons, pow_zero, one_smul, zipWith_map_left]

variable {omega : Scalar} {twiddleChunk : Nat} {twiddles : List Scalar}

theorem butterflies_halves {left right : List G} (same : left.length = right.length)
    (nonempty : right ≠ []) (powers : PowersAt twiddles twiddleChunk omega right.length) :
    butterflies twiddles twiddleChunk left right =
      some (zipWith (fun even t => even + t) left (turned omega right) ++
        zipWith (fun even t => even - t) left (turned omega right)) := by
  cases right with
  | nil => exact absurd rfl nonempty
  | cons b right =>
    cases left with
    | nil => cases same
    | cons a left =>
      have rest : left.length = right.length := Nat.succ.inj same
      have pairs := @map_m_of_forall ((G × G) × Nat) (G × G) Option _ _
        (butterfly twiddles twiddleChunk)
        (fun entry => (entry.1.1 + omega ^ (entry.2 + 1) • entry.1.2,
          entry.1.1 - omega ^ (entry.2 + 1) • entry.1.2)) (left.zip right).zipIdx (by
        intro entry mem
        have bound := snd_lt_of_mem_zipIdx mem
        rw [length_zip, rest, Nat.min_self] at bound
        unfold butterfly
        rw [powers (entry.2 + 1) (by rw [length_cons]; omega)]
        rfl)
      unfold butterflies
      dsimp only
      rw [pairs, turned_cons, zipWith_cons_cons, zipWith_cons_cons]
      show some _ = some _
      rw [map_map, map_map]
      congr 3
      · apply ext_getElem
        · simp [rest]
        · intro i _ _
          simp
      · apply ext_getElem
        · simp [rest]
        · intro i _ _
          simp

theorem butterflies_transform {twiddleChunk half : Nat} {coeffs : List G}
    (length : coeffs.length = 2 * half) (pos : 0 < half) (minusOne : omega ^ half = -1)
    (powers : PowersAt twiddles twiddleChunk omega half) :
    butterflies twiddles twiddleChunk (transform (omega * omega) (everyOther coeffs))
        (transform (omega * omega) (everyOther coeffs.tail)) =
      some (transform omega coeffs) := by
  rcases halves_length length with ⟨even, odd⟩
  have nonempty : transform (omega * omega) (everyOther coeffs.tail) ≠ [] := by
    apply ne_nil_of_length_pos
    rwa [transform_length, odd]
  rw [butterflies_halves (by rw [transform_length, transform_length, even, odd]) nonempty
    (by rwa [transform_length, odd]), transform_halves length minusOne, turned, transform_length,
    odd]

omit [AddCommGroup G] [Module Scalar G] in
theorem PowersAt.squared {half : Nat} (powers : PowersAt twiddles twiddleChunk omega (2 * half)) :
    PowersAt twiddles (twiddleChunk * 2) (omega * omega) half := by
  intro i inside
  have place : i * (twiddleChunk * 2) = 2 * i * twiddleChunk := by ring
  rw [place, powers (2 * i) (by omega), pow_mul, sq]

theorem transform_one (omega : Scalar) (coeffs : List G) (length : coeffs.length = 1) :
    transform omega coeffs = coeffs := by
  rcases length_eq_one_iff.mp length with ⟨only, rfl⟩
  show [valueAt (omega ^ 0) [only]] = [only]
  rw [valueAt, valueAt, smul_zero, add_zero]

theorem recursive_transform {log : Nat} {coeffs : List G} (length : coeffs.length = 2 ^ (log + 1))
    (minusOne : omega ^ 2 ^ log = -1) (powers : PowersAt twiddles twiddleChunk omega (2 ^ log)) :
    recursiveButterflyArithmetic twiddles (shuffled (log + 1) coeffs) (2 ^ (log + 1)) twiddleChunk =
      some (transform omega coeffs) := by
  induction log generalizing twiddleChunk omega coeffs with
  | zero =>
    rcases length_eq_two.mp length with ⟨a, b, rfl⟩
    rw [pow_zero, pow_one] at minusOne
    unfold recursiveButterflyArithmetic
    rw [zero_add, pow_one, if_neg (by omega), if_pos rfl]
    show some [a + b, a - b] = some [valueAt (omega ^ 0) [a, b], valueAt (omega ^ 1) [a, b]]
    simp only [valueAt, smul_zero, add_zero, pow_zero, one_smul, pow_one, minusOne, neg_smul,
      sub_eq_add_neg]
  | succ log ih =>
    rcases power_halves length with ⟨even, odd⟩
    have doubled : 2 ^ (log + 1) = 2 * 2 ^ log := pow_succ' 2 log
    have whole : 2 ^ (log + 1 + 1) = 2 * 2 ^ (log + 1) := pow_succ' 2 (log + 1)
    have pos := Nat.two_pow_pos log
    have square : (omega * omega) ^ 2 ^ log = -1 := by
      rw [← sq, ← pow_mul, ← doubled, minusOne]
    have halves := doubled ▸ powers
    have first := ih even square halves.squared
    have second := ih odd square halves.squared
    have half : 2 ^ (log + 1 + 1) / 2 = 2 ^ (log + 1) := by omega
    unfold recursiveButterflyArithmetic
    rw [if_neg (by omega), if_neg (by omega), shuffled, half, take_left' (shuffled_length even),
      drop_left' (shuffled_length even), first, second]
    exact butterflies_transform (by omega) (by omega) minusOne powers

omit [CommRing Scalar] [AddCommGroup G] [Module Scalar G] in
theorem chunks_flatten {size : Nat} (pos : 0 < size) {blocks : List (List G)}
    (lengths : ∀ block ∈ blocks, block.length = size) : chunks size blocks.flatten = blocks := by
  induction blocks with
  | nil => rw [flatten_nil, chunks, if_pos (Or.inl rfl)]
  | cons block blocks ih =>
    have length := lengths block mem_cons_self
    have nonempty : (block :: blocks).flatten ≠ [] := by
      apply ne_nil_of_length_pos
      rw [flatten_cons, length_append]
      omega
    rw [chunks, if_neg (not_or.mpr ⟨nonempty, by omega⟩), flatten_cons, take_left' length,
      drop_left' length, ih (forall_mem_cons.mp lengths).2]

omit [CommRing Scalar] [AddCommGroup G] [Module Scalar G] in
theorem flatten_parts {Block : Type} (blocks : List Block) (first second : Block → List G)
    (image : List G → List G) :
    (blocks.map fun block => image (first block) ++ image (second block)).flatten =
      ((blocks.flatMap fun block => [first block, second block]).map image).flatten := by
  induction blocks with
  | nil => rfl
  | cons block blocks ih =>
    rw [map_cons, flatten_cons, ih, flatMap_cons, map_append, flatten_append]
    congr 1
    rw [map_cons, map_singleton, flatten_cons, flatten_singleton]

theorem round_transform {twiddles : List Scalar} {twiddleChunk half : Nat} {omega : Scalar}
    {blocks : List (List G)} (lengths : ∀ coeffs ∈ blocks, coeffs.length = 2 * half)
    (pos : 0 < half) (minusOne : omega ^ half = -1)
    (powers : PowersAt twiddles twiddleChunk omega half) :
    round twiddles ((blocks.map fun coeffs =>
        transform (omega * omega) (everyOther coeffs) ++
          transform (omega * omega) (everyOther coeffs.tail)).flatten, 2 * half, twiddleChunk) =
      some ((blocks.map (transform omega)).flatten, 2 * half * 2, twiddleChunk / 2) := by
  have cut := @chunks_flatten G (2 * half) (by omega) (blocks.map fun coeffs =>
    transform (omega * omega) (everyOther coeffs) ++
      transform (omega * omega) (everyOther coeffs.tail)) (by
    intro block mem
    rcases mem_map.mp mem with ⟨coeffs, inBlocks, rfl⟩
    rcases halves_length (lengths coeffs inBlocks) with ⟨even, odd⟩
    rw [length_append, transform_length, transform_length, even, odd]
    omega)
  have updated := @map_m_of_forall (List G) (List G) Option _ _ (fun coeffs =>
    butterflies twiddles twiddleChunk
      ((transform (omega * omega) (everyOther coeffs) ++
        transform (omega * omega) (everyOther coeffs.tail)).take half)
      ((transform (omega * omega) (everyOther coeffs) ++
        transform (omega * omega) (everyOther coeffs.tail)).drop half))
    (transform omega) blocks (by
    intro coeffs mem
    rcases halves_length (lengths coeffs mem) with ⟨even, odd⟩
    have first : (transform (omega * omega) (everyOther coeffs)).length = half := by
      rw [transform_length, even]
    rw [take_left' first, drop_left' first]
    exact butterflies_transform (lengths coeffs mem) pos minusOne powers)
  have middle : 2 * half / 2 = half := by omega
  unfold round
  dsimp only
  rw [cut, middle, mapM_map]
  exact congrArg (Option.bind · _) updated

theorem rounds_transform {log : Nat} {twiddles : List Scalar} {twiddleChunk : Nat} {omega : Scalar}
    {blocks : List (List G)} (lengths : ∀ coeffs ∈ blocks, coeffs.length = 2 ^ log)
    (start : Nat) (minusOne : ∀ half, log = half + 1 → start = twiddleChunk * 2 ^ half ∧
      omega ^ 2 ^ half = -1 ∧ PowersAt twiddles twiddleChunk omega (2 ^ half)) :
    (range log).foldlM (fun state _ => round twiddles state)
        ((blocks.map (shuffled log)).flatten, 2, start) =
      some ((blocks.map (transform omega)).flatten, 2 * 2 ^ log, start / 2 ^ log) := by
  induction log generalizing twiddleChunk omega blocks with
  | zero =>
    have single : blocks.map (transform omega) = blocks.map (shuffled 0) := by
      apply map_congr_left
      intro coeffs mem
      exact transform_one omega coeffs (lengths coeffs mem)
    rw [single, pow_zero, Nat.div_one, Nat.mul_one]
    rfl
  | succ log ih =>
    rcases minusOne log rfl with ⟨chunkEq, minus, powers⟩
    have partLengths : ∀ part ∈ blocks.flatMap fun coeffs =>
        [everyOther coeffs, everyOther coeffs.tail], part.length = 2 ^ log := by
      intro part mem
      rcases mem_flatMap.mp mem with ⟨coeffs, inBlocks, inPair⟩
      rcases power_halves (lengths coeffs inBlocks) with ⟨even, odd⟩
      rcases mem_pair.mp inPair with rfl | rfl
      · exact even
      · exact odd
    have before := @ih (twiddleChunk * 2) (omega * omega)
      (blocks.flatMap fun coeffs => [everyOther coeffs, everyOther coeffs.tail]) partLengths (by
        intro half more
        subst more
        refine ⟨by rw [chunkEq, pow_succ]; ring, ?_, ?_⟩
        · rw [← sq, ← pow_mul, ← pow_succ', minus]
        · exact (pow_succ' 2 half ▸ powers).squared)
    rw [← flatten_parts, ← flatten_parts] at before
    have whole : (blocks.map (shuffled (log + 1))).flatten = (blocks.map fun coeffs =>
        shuffled log (everyOther coeffs) ++ shuffled log (everyOther coeffs.tail)).flatten := rfl
    have last : start / 2 ^ log = twiddleChunk := by
      rw [chunkEq, Nat.mul_div_cancel _ (Nat.two_pow_pos log)]
    have step := @round_transform _ _ _ _ _ twiddles twiddleChunk (2 ^ log) omega blocks (by
      intro coeffs mem
      rw [lengths coeffs mem, pow_succ']) (Nat.two_pow_pos log) minus powers
    have size : 2 * 2 ^ (log + 1) = 2 * 2 ^ log * 2 := by ring
    have chunk : start / 2 ^ (log + 1) = twiddleChunk / 2 := by
      rw [pow_succ, ← Nat.div_div_eq_div_mul, last]
    rw [range_succ, foldlM_append, whole, before, last, size, chunk]
    exact (bind_pure _).trans step

theorem best_fft_eq {threads logN : Nat} (pos : 0 < threads) {a : List G}
    (length : a.length = 2 ^ logN) (minusOne : 1 ≤ logN → omega ^ 2 ^ (logN - 1) = -1) :
    bestFft threads a omega logN = some (transform omega a) := by
  have powers : ∀ half, logN = half + 1 →
      omega ^ 2 ^ half = -1 ∧ PowersAt (twiddlesFrom omega 1 (2 ^ half)) 1 omega (2 ^ half) := by
    rintro half rfl
    refine ⟨minusOne (Nat.succ_le_succ (Nat.zero_le half)), ?_⟩
    intro i inside
    rw [Nat.mul_one, twiddles_get omega 1 inside, one_mul]
  unfold bestFft
  rw [if_neg (not_or.mpr ⟨by omega, not_not.mpr length⟩)]
  dsimp only
  rw [permute_shuffled length, length]
  by_cases few : logN ≤ threads.log2
  · have rounds := @rounds_transform _ _ _ _ _ logN (twiddlesFrom omega 1 (2 ^ logN / 2)) 1 omega [a]
      (by
        intro coeffs mem
        rw [mem_singleton.mp mem, length]) (2 ^ logN / 2) (by
        rintro half rfl
        have middle : 2 ^ (half + 1) / 2 = 2 ^ half := by
          rw [pow_succ, Nat.mul_div_cancel _ Nat.two_pos]
        rw [middle, Nat.one_mul]
        exact ⟨rfl, powers half rfl⟩)
    rw [map_singleton, flatten_singleton, map_singleton, flatten_singleton]
      at rounds
    simp only [if_pos few, some_bind, rounds]
    rfl
  · simp only [if_neg few, some_bind]
    cases logN with
    | zero => exact absurd (Nat.zero_le _) few
    | succ half =>
      have middle : 2 ^ (half + 1) / 2 = 2 ^ half := by
        rw [pow_succ, Nat.mul_div_cancel _ Nat.two_pos]
      rcases powers half rfl with ⟨minus, table⟩
      rw [middle]
      exact recursive_transform length minus table

end Butterflies

end Midfall.BestFft
