import Mathlib

/-!
# Booth digits

Windows of a little-endian number that overlap by one bit, read as signed
digits. The digits of enough windows recombine to the number.
-/

namespace Midfall.BoothDigits

def getBoothIndex (windowIndex windowSize : Nat) (el : List Nat) : Int :=
  let skipBits := windowIndex * windowSize - 1
  let skipBytes := skipBits / 8
  let v := Nat.ofDigits 256 ((el.drop skipBytes).take 4)
  -- the lowest window has a zero bit below it
  let padded := if windowIndex = 0 then v <<< 1 % 2 ^ 32 else v
  let tmp := padded >>> (skipBits - skipBytes * 8) &&& (1 <<< (windowSize + 1) - 1)
  let half := (tmp + 1) >>> 1
  if tmp &&& 1 <<< windowSize = 0 then (half : Int)
  else -((2 ^ 32 - 1 - (half - 1)) &&& (1 <<< windowSize - 1) : Nat)

def window (windowIndex windowSize value : Nat) : Nat :=
  2 * value / 2 ^ (windowSize * windowIndex) % 2 ^ (windowSize + 1)

/-- The highest bit of the window counts negatively. -/
def boothDigit (windowIndex windowSize value : Nat) : Int :=
  let raw := window windowIndex windowSize value
  ((raw + 1) / 2 : Nat) - (if 2 ^ windowSize ≤ raw then 2 ^ windowSize else 0 : Nat)

theorem window_lt (windowIndex windowSize value : Nat) :
    window windowIndex windowSize value < 2 ^ (windowSize + 1) :=
  Nat.mod_lt _ (Nat.two_pow_pos _)

theorem mod_shift_mod {value wide shift narrow : Nat} (fits : shift + narrow ≤ wide) :
    value % 2 ^ wide / 2 ^ shift % 2 ^ narrow = value / 2 ^ shift % 2 ^ narrow := by
  have split : 2 ^ wide = 2 ^ shift * 2 ^ (wide - shift) := by
    rw [← pow_add, Nat.add_sub_cancel' (by omega)]
  have divides : 2 ^ narrow ∣ 2 ^ (wide - shift) := pow_dvd_pow 2 (by omega)
  rw [split, Nat.mod_mul_right_div_self, Nat.mod_mod_of_dvd _ divides]

variable {el : List Nat}

theorem low_bytes (bytes : ∀ byte ∈ el, byte < 256) (skip : Nat) :
    Nat.ofDigits 256 ((el.drop skip).take 4) = Nat.ofDigits 256 el / 2 ^ (8 * skip) % 2 ^ 32 := by
  have dropped : ∀ byte ∈ el.drop skip, byte < 256 := fun byte mem =>
    bytes byte (List.mem_of_mem_drop mem)
  have base : ∀ count, 2 ^ (8 * count) = 256 ^ count := fun count => by rw [pow_mul]; norm_num
  rw [← Nat.ofDigits_mod_pow_eq_ofDigits_take 4 (by norm_num) _ dropped,
    ← Nat.ofDigits_div_pow_eq_ofDigits_drop skip (by norm_num) _ bytes, base, ← base 4]

variable {windowSize : Nat}

section

variable (bytes : ∀ byte ∈ el, byte < 256) (pos : 0 < windowSize) (fits : windowSize ≤ 24)
  (windowIndex : Nat)

include bytes pos fits windowIndex

theorem selected_window :
    (if windowIndex = 0 then
        Nat.ofDigits 256 ((el.drop ((windowIndex * windowSize - 1) / 8)).take 4) <<< 1 % 2 ^ 32
      else Nat.ofDigits 256 ((el.drop ((windowIndex * windowSize - 1) / 8)).take 4)) >>>
        (windowIndex * windowSize - 1 - (windowIndex * windowSize - 1) / 8 * 8) &&&
          (1 <<< (windowSize + 1) - 1) =
      window windowIndex windowSize (Nat.ofDigits 256 el) := by
  rw [Nat.one_shiftLeft, Nat.and_two_pow_sub_one_eq_mod, Nat.shiftRight_eq_div_pow, low_bytes bytes,
    window]
  by_cases lowest : windowIndex = 0
  · rw [if_pos lowest, lowest, Nat.zero_mul, Nat.zero_sub, Nat.zero_div, Nat.mul_zero, pow_zero,
      Nat.div_one, Nat.shiftLeft_eq, pow_one, Nat.div_one, Nat.mul_zero, pow_zero, Nat.div_one]
    have doubled : Nat.ofDigits 256 el % 2 ^ 32 * 2 % 2 ^ 32 =
        2 * Nat.ofDigits 256 el % 2 ^ 32 := by omega
    have divides : 2 ^ (windowSize + 1) ∣ 2 ^ 32 := pow_dvd_pow 2 (by omega)
    rw [doubled, Nat.mod_mod_of_dvd _ divides]
  · have skipped : 1 ≤ windowIndex * windowSize :=
      Nat.mul_pos (Nat.pos_of_ne_zero lowest) pos
    generalize place : windowIndex * windowSize - 1 = skipBits
    have bits : windowSize * windowIndex = skipBits + 1 := by
      rw [Nat.mul_comm, ← place, Nat.sub_add_cancel skipped]
    have whole : 8 * (skipBits / 8) + (skipBits - skipBits / 8 * 8) = skipBits := by omega
    rw [if_neg lowest, bits, pow_succ' 2 skipBits, Nat.mul_div_mul_left _ _ Nat.two_pos,
      mod_shift_mod (by omega), Nat.div_div_eq_div_mul, ← pow_add, whole]

theorem get_booth_index_eq :
    getBoothIndex windowIndex windowSize el =
      boothDigit windowIndex windowSize (Nat.ofDigits 256 el) := by
  have below := window_lt windowIndex windowSize (Nat.ofDigits 256 el)
  unfold getBoothIndex boothDigit
  dsimp only
  rw [selected_window bytes pos fits windowIndex]
  generalize window windowIndex windowSize (Nat.ofDigits 256 el) = raw at below ⊢
  rw [Nat.one_shiftLeft, Nat.shiftRight_one, Nat.and_two_pow_sub_one_eq_mod, Nat.and_two_pow]
  by_cases high : 2 ^ windowSize ≤ raw
  · have top : raw.testBit windowSize = true := by
      rw [Nat.testBit_eq_decide_div_mod_eq, decide_eq_true_eq]
      have quotient : raw / 2 ^ windowSize = 1 := by
        rw [Nat.div_eq_iff (Nat.two_pow_pos _)]
        rw [pow_succ] at below
        omega
      rw [quotient]
    have bound := Nat.two_pow_pos windowSize
    rw [top, if_neg (by simp), if_pos high]
    have multiple : 2 ^ 32 = 2 ^ windowSize * 2 ^ (32 - windowSize) := by
      rw [← pow_add, Nat.add_sub_cancel' (by omega)]
    have others : 0 < 2 ^ (32 - windowSize) := Nat.two_pow_pos _
    have complement : (2 ^ 32 - 1 - ((raw + 1) / 2 - 1)) % 2 ^ windowSize =
        2 ^ windowSize - (raw + 1) / 2 := by
      rw [pow_succ] at below
      rcases Nat.exists_eq_add_of_le' others with ⟨rest, restEq⟩
      have value : 2 ^ 32 - 1 - ((raw + 1) / 2 - 1) =
          2 ^ windowSize - (raw + 1) / 2 + 2 ^ windowSize * rest := by
        rw [multiple, restEq, Nat.mul_add, Nat.mul_one]
        omega
      rw [value, Nat.add_mul_mod_self_left, Nat.mod_eq_of_lt (by omega)]
    rw [complement]
    rw [pow_succ] at below
    generalize 2 ^ windowSize = power at *
    omega
  · have top : raw.testBit windowSize = false := by
      exact Nat.testBit_lt_two_pow (Nat.not_le.mp high)
    rw [top, if_pos (by simp), if_neg high, Nat.cast_zero, Int.sub_zero]

end

theorem booth_digit_bound (pos : 0 < windowSize) (windowIndex value : Nat) :
    (boothDigit windowIndex windowSize value).natAbs ≤ 2 ^ (windowSize - 1) := by
  have below := window_lt windowIndex windowSize value
  have halves : 2 ^ windowSize = 2 * 2 ^ (windowSize - 1) := by
    rw [← pow_succ', Nat.sub_add_cancel pos]
  rw [pow_succ, halves] at below
  unfold boothDigit
  dsimp only
  rw [halves]
  generalize 2 ^ (windowSize - 1) = power at *
  split_ifs with high
  · omega
  · omega

def bitBelow (windowIndex windowSize value : Nat) : Nat :=
  2 * value / 2 ^ (windowSize * windowIndex) % 2

/-- A digit takes the bit below and leaves its own highest bit to the next one. -/
theorem booth_digit_eq (windowIndex windowSize value : Nat) :
    boothDigit windowIndex windowSize value =
      (value / 2 ^ (windowSize * windowIndex) % 2 ^ windowSize : Nat) +
        (bitBelow windowIndex windowSize value : Int) -
          2 ^ windowSize * (bitBelow (windowIndex + 1) windowSize value : Int) := by
  unfold boothDigit window bitBelow
  have next : 2 * value / 2 ^ (windowSize * (windowIndex + 1)) =
      2 * value / 2 ^ (windowSize * windowIndex) / 2 ^ windowSize := by
    rw [Nat.div_div_eq_div_mul, ← pow_add, Nat.mul_succ]
  have middle : value / 2 ^ (windowSize * windowIndex) =
      2 * value / 2 ^ (windowSize * windowIndex) / 2 := by
    rw [Nat.div_div_eq_div_mul, Nat.mul_comm _ 2, Nat.mul_div_mul_left _ _ Nat.two_pos]
  rw [next, middle]
  generalize 2 * value / 2 ^ (windowSize * windowIndex) = upper
  have low : upper % 2 ^ (windowSize + 1) % 2 = upper % 2 :=
    Nat.mod_mod_of_dvd _ (dvd_pow_self 2 (Nat.succ_ne_zero _))
  have inner : upper % 2 ^ (windowSize + 1) / 2 = upper / 2 % 2 ^ windowSize := by
    rw [pow_succ', Nat.mod_mul_right_div_self]
  have top : upper % 2 ^ (windowSize + 1) / 2 ^ windowSize = upper / 2 ^ windowSize % 2 := by
    rw [pow_succ, Nat.mod_mul_right_div_self]
  have rounded : (upper % 2 ^ (windowSize + 1) + 1) / 2 =
      upper / 2 % 2 ^ windowSize + upper % 2 := by omega
  have sign : (if 2 ^ windowSize ≤ upper % 2 ^ (windowSize + 1) then 2 ^ windowSize else 0) =
      2 ^ windowSize * (upper / 2 ^ windowSize % 2) := by
    have pos := Nat.two_pow_pos windowSize
    rw [← top]
    by_cases high : 2 ^ windowSize ≤ upper % 2 ^ (windowSize + 1)
    · have quotient : upper % 2 ^ (windowSize + 1) / 2 ^ windowSize = 1 := by
        have below : upper % 2 ^ (windowSize + 1) < 2 ^ (windowSize + 1) :=
          Nat.mod_lt _ (Nat.two_pow_pos _)
        rw [pow_succ] at below
        rw [Nat.div_eq_iff pos]
        omega
      rw [if_pos high, quotient, Nat.mul_one]
    · rw [if_neg high, Nat.div_eq_of_lt (Nat.not_le.mp high), Nat.mul_zero]
  dsimp only
  rw [rounded, sign]
  push_cast
  ring

theorem booth_digits_sum (windowSize value windows : Nat) :
    ∑ w ∈ Finset.range windows, 2 ^ (windowSize * w) * boothDigit w windowSize value =
      (value % 2 ^ (windowSize * windows) : Nat) -
        2 ^ (windowSize * windows) * (bitBelow windows windowSize value : Int) := by
  induction windows with
  | zero => simp [bitBelow, Nat.mod_one]
  | succ windows ih =>
    have parts : value % 2 ^ (windowSize * (windows + 1)) = value % 2 ^ (windowSize * windows) +
        2 ^ (windowSize * windows) *
          (value / 2 ^ (windowSize * windows) % 2 ^ windowSize) := by
      rw [Nat.mul_succ, pow_add, Nat.mod_mul]
    rw [Finset.sum_range_succ, ih, booth_digit_eq, parts, Nat.mul_succ, pow_add]
    push_cast
    ring

theorem booth_digits_recombine {windowSize value windows : Nat}
    (enough : 2 * value < 2 ^ (windowSize * windows)) :
    ∑ w ∈ Finset.range windows, 2 ^ (windowSize * w) * boothDigit w windowSize value = value := by
  have top : bitBelow windows windowSize value = 0 := by
    rw [bitBelow, Nat.div_eq_of_lt enough]
  rw [booth_digits_sum, top, Nat.mod_eq_of_lt (by omega), Nat.cast_zero, mul_zero, sub_zero]

end Midfall.BoothDigits
