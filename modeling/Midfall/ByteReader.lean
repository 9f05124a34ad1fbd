import Mathlib

/-!
# Operand readers over a byte program

A reader takes a byte offset and returns a value with the advanced offset.
Fixed-width readers know how far they move, and a reader decodes an encoder
when it recovers the encoded value wherever the encoding stands in a program.
-/

namespace Midfall.ByteReader

variable {Fault Value Other Byte : Type}

theorem bind_ok_iff {computation : Except Fault Value} {next : Value → Except Fault Other}
    {result : Other} :
    (computation >>= next) = .ok result ↔
      ∃ value, computation = .ok value ∧ next value = .ok result := by
  cases computation with
  | error fault => simp [bind, Except.bind]
  | ok value => simp [bind, Except.bind]

theorem pure_ok_iff {value result : Value} :
    (pure value : Except Fault Value) = .ok result ↔ value = result := by
  simp [pure, Except.pure]

abbrev Reader (Fault Value : Type) := Nat → Except Fault (Value × Nat)

/-- Run a reader `count` times, each pass from where the last one stopped. -/
def repeatRead (read : Reader Fault Value) : Nat → Reader Fault (List Value)
  | 0, pc => .ok ([], pc)
  | count + 1, pc => do
    let (value, pc) ← read pc
    let (values, pc) ← repeatRead read count pc
    return (value :: values, pc)

/-- A reader that moves by `width` bytes and never faults inside the program. -/
structure FixedWidth (programLength : Nat) (read : Reader Fault Value) (width : Nat) : Prop where
  advance : ∀ {pc value next}, read pc = .ok (value, next) → next = pc + width
  total : ∀ pc, pc + width ≤ programLength → ∃ value, read pc = .ok (value, pc + width)

variable {width pc otherPc inner : Nat} {code other : List Byte}

theorem fixed_pure (programLength : Nat) (value : Value) :
    FixedWidth programLength (fun pc => pure (value, pc) : Reader Fault Value) 0 where
  advance := by
    intro pc result next reading
    cases reading
    rfl
  total := fun _ _ => ⟨value, rfl⟩

theorem FixedWidth.bind {programLength : Nat} {read : Reader Fault Value}
    {later : Value → Reader Fault Other} (fixed : FixedWidth programLength read width)
    (rest : ∀ value, FixedWidth programLength (later value) inner) :
    FixedWidth programLength (fun pc => read pc >>= fun found => later found.1 found.2)
      (width + inner) where
  advance := by
    intro pc value next reading
    obtain ⟨found, first, others⟩ := bind_ok_iff.mp reading
    rw [(rest found.1).advance others, fixed.advance first, Nat.add_assoc]
  total := by
    intro pc inside
    obtain ⟨first, firstRead⟩ := fixed.total pc (by omega)
    obtain ⟨value, read⟩ := (rest first).total (pc + width) (by omega)
    exact ⟨value, bind_ok_iff.mpr ⟨_, firstRead, by rw [read, Nat.add_assoc]⟩⟩

theorem FixedWidth.repeat {programLength : Nat} {read : Reader Fault Value}
    (fixed : FixedWidth programLength read width) (count : Nat) :
    FixedWidth programLength (repeatRead read count) (count * width) := by
  induction count with
  | zero =>
    rw [Nat.zero_mul]
    exact fixed_pure programLength []
  | succ count ih =>
    rw [Nat.succ_mul, Nat.add_comm (count * width)]
    exact fixed.bind fun value => ih.bind fun values =>
      fixed_pure programLength (value :: values)

/-- The reader recovers `value` from its encoding anywhere in a program. -/
def Decodes (read : List Byte → Reader Fault Value) (encode : Value → List Byte)
    (value : Value) : Prop :=
  ∀ before after, read (before ++ (encode value ++ after)) before.length =
    .ok (value, before.length + (encode value).length)

/-- `other` has the same `width` bytes at `otherPc` as `code` at `pc`. -/
def Agrees (code other : List Byte) (pc otherPc width : Nat) : Prop :=
  ∀ offset < width, other[otherPc + offset]? = code[pc + offset]?

section

variable (agrees : Agrees code other pc otherPc width)

include agrees

theorem Agrees.within {start : Nat} (fits : start + inner ≤ width) :
    Agrees code other (pc + start) (otherPc + start) inner := by
  intro offset below
  have same := agrees (start + offset) (by omega)
  rwa [← Nat.add_assoc, ← Nat.add_assoc] at same

theorem Agrees.between {here there : Nat} (start : Nat) (atHere : here = pc + start)
    (atThere : there = otherPc + start) (fits : start + inner ≤ width) :
    Agrees code other here there inner := by
  subst atHere atThere
  exact agrees.within fits

theorem Agrees.start (fits : inner ≤ width) : Agrees code other pc otherPc inner :=
  fun offset below => agrees offset (Nat.lt_of_lt_of_le below fits)

end

/-- A reader that only looks at the bytes it moves over. -/
def Movable (read : List Byte → Reader Fault Value) : Prop :=
  ∀ ⦃code pc value next⦄, read code pc = .ok (value, next) →
    ∃ width, next = pc + width ∧ ∀ ⦃other otherPc⦄, Agrees code other pc otherPc width →
      read other otherPc = .ok (value, otherPc + width)

theorem movable_pure (value : Value) :
    Movable fun _ : List Byte => (fun pc => pure (value, pc) : Reader Fault Value) := by
  intro code pc result next reading
  cases reading
  exact ⟨0, rfl, fun _ _ _ => rfl⟩

theorem Movable.bind {Other : Type} {read : List Byte → Reader Fault Value}
    {later : Value → List Byte → Reader Fault Other} (movable : Movable read)
    (rest : ∀ value, Movable (later value)) :
    Movable fun code pc => read code pc >>= fun found => later found.1 code found.2 := by
  intro code pc value next reading
  obtain ⟨found, first, others⟩ := bind_ok_iff.mp reading
  obtain ⟨width, atMiddle, moves⟩ := movable first
  obtain ⟨restWidth, rfl, restMoves⟩ := rest found.1 others
  refine ⟨width + restWidth, by rw [atMiddle, Nat.add_assoc], ?_⟩
  intro other otherPc agrees
  rw [atMiddle] at restMoves
  have here := moves (agrees.start (Nat.le_add_right width restWidth))
  have later := restMoves (agrees.within (Nat.le_refl (width + restWidth)))
  simp only [here, later, Bind.bind, Except.bind, Nat.add_assoc]

theorem Movable.repeat {read : List Byte → Reader Fault Value} (movable : Movable read)
    (count : Nat) : Movable fun code => repeatRead (read code) count := by
  induction count with
  | zero => exact movable_pure []
  | succ count ih =>
    exact movable.bind fun value => ih.bind fun values => movable_pure (value :: values)

end Midfall.ByteReader
