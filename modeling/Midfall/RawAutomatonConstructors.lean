import Midfall.RawAutomatonPowerset

/-!
# Basic automata

Sequences of byte ranges and the universal automaton. The first claims to be
deterministic whether or not a range repeats a letter; the second reads letters
without a marker and has no marker in its set.
-/

namespace Midfall.RawAutomata.RawAutomaton

open AutomatonLanguages List
open ScannerAutomaton (alphabetMaxSize)

variable {word : List (List Letter)} {alphabetSize : Nat} {automaton : RawAutomaton}

theorem outgoing_epsilon (state : Nat) : epsilon.outgoing state = [] := outgoing_empty state

theorem epsilon_in_range : InRange epsilon := by
  constructor
  · exact Nat.zero_lt_one
  · intro state mem
    rw [Finset.mem_singleton.mp mem]
    exact Nat.zero_lt_one
  · intro state entry mem
    rw [outgoing_epsilon] at mem
    exact absurd mem not_mem_nil

theorem epsilon_language : epsilon.language = 1 := by
  apply Language.ext
  intro word
  rw [language_eq, Language.mem_one]
  constructor
  · intro accepted
    cases word with
    | nil => rfl
    | cons letter word =>
      rcases cons_at.mp accepted with ⟨target, step, -⟩
      rw [outgoing_epsilon] at step
      exact absurd step not_mem_nil
  · rintro rfl
    exact nil_at.mpr (Finset.mem_singleton_self _)

def rangeOf (alphabetSize : Nat) (byteRange : List Letter) : List Letter :=
  byteRange.filter fun byte => decide (byte.char.toNat < alphabetSize)

theorem byte_concat_states : (byteConcat word alphabetSize).nbStates = word.length + 1 := by
  unfold nbStates byteConcat
  simp only [length_append, length_map, length_zipIdx, length_singleton]

theorem byte_concat_outgoing (state : Nat) : (byteConcat word alphabetSize).outgoing state =
    ((word[state]?).map fun byteRange =>
      (rangeOf alphabetSize byteRange).map fun byte => (byte, state + 1)).getD [] := by
  unfold outgoing byteConcat
  simp only
  rcases Nat.lt_or_ge state word.length with below | above
  · rw [getElem?_append_left (by simpa using below), getElem?_map, getElem?_zipIdx,
      getElem?_map]
    simp only [Option.map_map, Nat.zero_add]
    rfl
  · rw [getElem?_eq_none above, Option.map_none, Option.getD_none,
      getElem?_append_right (by simpa using above)]
    simp only [length_map, length_zipIdx]
    cases state - word.length with
    | zero => rfl
    | succ state => rfl

theorem byte_concat_step {state target : Nat} {letter : Letter} :
    (letter, target) ∈ (byteConcat word alphabetSize).outgoing state ↔
      ∃ byteRange, word[state]? = some byteRange ∧ letter ∈ byteRange ∧
        letter.char.toNat < alphabetSize ∧ target = state + 1 := by
  rw [byte_concat_outgoing]
  cases found : word[state]? with
  | none =>
    apply iff_of_false not_mem_nil
    rintro ⟨byteRange, impossible, -⟩
    cases impossible
  | some byteRange =>
    rw [Option.map_some, Option.getD_some, mem_map]
    unfold rangeOf
    constructor
    · rintro ⟨byte, mem, same⟩
      cases same
      rw [mem_filter, decide_eq_true_iff] at mem
      exact ⟨byteRange, rfl, mem.1, mem.2, rfl⟩
    · rintro ⟨other, same, mem, small, rfl⟩
      cases same
      exact ⟨letter, mem_filter.mpr ⟨mem, decide_eq_true small⟩, rfl⟩

theorem byte_concat_in_range : InRange (byteConcat word alphabetSize) := by
  constructor
  · rw [byte_concat_states]
    exact Nat.succ_pos _
  · intro state mem
    rw [byte_concat_states, Finset.mem_singleton.mp mem]
    exact Nat.lt_succ_self _
  · rintro state ⟨letter, target⟩ step
    rcases byte_concat_step.mp step with ⟨byteRange, found, -, -, rfl⟩
    rw [byte_concat_states]
    exact Nat.succ_lt_succ (List.getElem?_eq_some_iff.mp found).1

theorem byte_concat_language : ∀ letters : List Letter,
    letters ∈ (byteConcat word alphabetSize).language ↔
      Forall₂ (fun letter byteRange => letter ∈ byteRange ∧ letter.char.toNat < alphabetSize)
        letters word := by
  have suffixes : ∀ (letters : List Letter) (state : Nat), state ≤ word.length →
      (letters ∈ acceptsAt (byteConcat word alphabetSize).nfa state ↔
        Forall₂ (fun letter byteRange => letter ∈ byteRange ∧ letter.char.toNat < alphabetSize)
          letters (word.drop state)) := by
    intro letters
    induction letters with
    | nil =>
      intro state inside
      rw [nil_at, forall₂_nil_left_iff, drop_eq_nil_iff]
      constructor
      · exact fun final => (Finset.mem_singleton.mp final).ge
      · exact fun above => Finset.mem_singleton.mpr (le_antisymm inside above)
    | cons letter letters ih =>
      intro state inside
      rw [cons_at]
      rcases Nat.lt_or_ge state word.length with below | above
      · rw [drop_eq_getElem_cons below, forall₂_cons, ← ih (state + 1) below]
        constructor
        · rintro ⟨target, step, rest⟩
          rcases byte_concat_step.mp step with ⟨byteRange, found, mem, small, rfl⟩
          rw [getElem?_eq_getElem below, Option.some.injEq] at found
          rw [found]
          exact ⟨⟨mem, small⟩, rest⟩
        · rintro ⟨⟨mem, small⟩, rest⟩
          exact ⟨state + 1, byte_concat_step.mpr
            ⟨_, getElem?_eq_getElem below, mem, small, rfl⟩, rest⟩
      · rw [drop_eq_nil_of_le above]
        apply iff_of_false
        · rintro ⟨target, step, -⟩
          rcases byte_concat_step.mp step with ⟨byteRange, found, -⟩
          rw [getElem?_eq_none above] at found
          cases found
        · exact nofun
  intro letters
  exact suffixes letters 0 (Nat.zero_le _)

theorem byte_concat_deterministic : IsDeterministic (byteConcat word alphabetSize) ↔
    ∀ byteRange ∈ word, (rangeOf alphabetSize byteRange).Nodup := by
  have letters : ∀ state : Nat, ((byteConcat word alphabetSize).outgoing state).map Prod.fst =
      ((word[state]?).map (rangeOf alphabetSize)).getD [] := by
    intro state
    rw [byte_concat_outgoing]
    cases word[state]? with
    | none => rfl
    | some byteRange =>
      simp only [Option.map_some, Option.getD_some, map_map]
      exact map_id' _
  constructor
  · intro deterministic byteRange mem
    rcases mem_iff_getElem?.mp mem with ⟨state, found⟩
    have distinct := deterministic state
    rw [letters, found] at distinct
    exact distinct
  · intro distinct state
    rw [letters]
    cases found : word[state]? with
    | none => exact nodup_nil
    | some byteRange => exact distinct byteRange (mem_of_getElem? found)

theorem byte_concat_sound :
    Sound alphabetSize (byteConcat word alphabetSize) ↔
      ∀ byteRange ∈ word, (rangeOf alphabetSize byteRange).Nodup := by
  rw [← byte_concat_deterministic]
  constructor
  · exact fun sound => sound.deterministic rfl
  · intro deterministic
    refine ⟨byte_concat_in_range, ?_, fun _ => deterministic, nofun⟩
    rintro state ⟨letter, target⟩ step
    rcases byte_concat_step.mp step with ⟨-, -, -, small, -⟩
    exact small

theorem byte_concat_marked : Marked (byteConcat word alphabetSize) := by
  rintro marker ⟨state, ⟨letter, target⟩, step, same⟩
  rcases byte_concat_step.mp step with ⟨byteRange, found, mem, small, -⟩
  unfold byteConcat
  simp only [mem_toFinset]
  apply mem_map.mpr
  refine ⟨letter, mem_flatten.mpr ⟨_, mem_map_of_mem (mem_of_getElem? found), ?_⟩, same⟩
  exact mem_filter.mpr ⟨mem, decide_eq_true small⟩

theorem universal_some : universal alphabetSize = some automaton ↔ alphabetSize ≤ alphabetMaxSize ∧
    automaton = {
      deterministic := true
      complete := true
      initialState := 0
      finalStates := {0}
      transitions := [(List.range alphabetSize).map fun b => (Letter.ofByte (UInt8.ofNat b), 0)]
      markers := ∅ } := by
  unfold universal
  split_ifs with small
  · rw [Option.some.injEq, eq_comm]
    exact ⟨fun same => ⟨small, same⟩, fun both => both.2⟩
  · exact iff_of_false nofun fun both => small both.1

theorem byte_of_small {value : Nat} (small : alphabetSize ≤ alphabetMaxSize) (below : value < alphabetSize) :
    (UInt8.ofNat value).toNat = value := by
  rw [UInt8.toNat_ofNat']
  apply Nat.mod_eq_of_lt
  have bound : alphabetMaxSize = 2 ^ 8 := rfl
  omega

section Universal

variable (found : universal alphabetSize = some automaton)

include found

theorem universal_step {state target : Nat} {letter : Letter} :
    (letter, target) ∈ automaton.outgoing state ↔
      state = 0 ∧ target = 0 ∧ letter.marker = 0 ∧ letter.char.toNat < alphabetSize := by
  rcases universal_some.mp found with ⟨small, rfl⟩
  cases state with
  | succ state =>
    apply iff_of_false
    · exact not_mem_nil
    · rintro ⟨impossible, -⟩
      cases impossible
  | zero =>
    have row : ((letter, target) ∈ (List.range alphabetSize).map fun b =>
        (Letter.ofByte (UInt8.ofNat b), 0)) ↔
          0 = 0 ∧ target = 0 ∧ letter.marker = 0 ∧ letter.char.toNat < alphabetSize := by
      rw [mem_map]
      constructor
      · rintro ⟨value, inside, same⟩
        cases same
        rw [mem_range] at inside
        refine ⟨rfl, rfl, rfl, ?_⟩
        unfold Letter.ofByte
        rw [byte_of_small small inside]
        exact inside
      · rintro ⟨-, rfl, unmarked, below⟩
        refine ⟨letter.char.toNat, mem_range.mpr below, ?_⟩
        unfold Letter.ofByte
        rw [UInt8.ofNat_toNat]
        cases letter
        simp only at unmarked
        rw [unmarked]
    exact row

theorem universal_sound : Sound alphabetSize automaton := by
  have step := @universal_step alphabetSize automaton found
  rcases universal_some.mp found with ⟨small, shape⟩
  have count : automaton.nbStates = 1 := by
    rw [shape]
    rfl
  refine ⟨⟨?_, ?_, ?_⟩, ?_, fun _ => ?_, fun _ => ?_⟩
  · rw [count, shape]
    exact Nat.zero_lt_one
  · intro state final
    rw [shape] at final
    rw [count, Finset.mem_singleton.mp final]
    exact Nat.zero_lt_one
  · rintro state ⟨letter, target⟩ taken
    rw [count, (step.mp taken).2.1]
    exact Nat.zero_lt_one
  · rintro state ⟨letter, target⟩ taken
    exact (step.mp taken).2.2.2
  · intro state
    rw [shape]
    cases state with
    | succ state => exact nodup_nil
    | zero =>
      have letters : ((List.range alphabetSize).map fun b =>
          (Letter.ofByte (UInt8.ofNat b), 0)).map Prod.fst =
            (List.range alphabetSize).map fun b => Letter.ofByte (UInt8.ofNat b) := by
        rw [map_map]
        rfl
      have distinct : ((List.range alphabetSize).map fun b =>
          Letter.ofByte (UInt8.ofNat b)).Nodup := by
        apply nodup_range.map_on
        intro first firstIn second secondIn same
        have chars := congrArg (fun letter => letter.char.toNat) same
        unfold Letter.ofByte at chars
        simp only [byte_of_small small (mem_range.mp firstIn),
          byte_of_small small (mem_range.mp secondIn)] at chars
        exact chars
      rw [← letters] at distinct
      exact distinct
  · rintro state below letter ⟨byte, other, ⟨label, target⟩, taken, same⟩
    rw [count] at below
    have unmarked := (step.mp taken).2.2.1
    refine ⟨0, step.mpr ⟨by omega, rfl, ?_, byte⟩⟩
    rw [← same]
    exact unmarked

theorem universal_markers : automaton.markers = ∅ := by
  rcases universal_some.mp found with ⟨-, shape⟩
  rw [shape]

end Universal

end Midfall.RawAutomata.RawAutomaton
