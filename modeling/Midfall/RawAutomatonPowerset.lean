import Midfall.RawAutomatonGraphs

/-!
# The powerset construction

A power state accepts what its states accept. The successors of a power state
are tabulated by letter encodings, which are one to one on the letters in use.
-/

namespace Midfall.RawAutomata

open AutomatonLanguages Worklists ListLoops List
open Option (getD_some map_eq_some_iff map_some)
open ScannerAutomaton (alphabetMaxSize)

/-! ### Letter encodings -/

namespace Letter

variable {alphabetSize : Nat} {markers : List Nat}

def Fits (letter : Letter) (alphabetSize : Nat) (markers : List Nat) : Prop :=
  letter.char.toNat < alphabetSize ∧ letter.marker ∈ markers

theorem encode_eq_some {letter : Letter} {code : Nat} :
    letter.encode alphabetSize markers = some code ↔
      letter.marker ∈ markers ∧ markers.idxOf letter.marker * alphabetSize + letter.char.toNat = code := by
  unfold encode
  split_ifs with mem
  · rw [Option.some.injEq]
    exact ⟨fun same => ⟨mem, same⟩, fun both => both.2⟩
  · exact iff_of_false (by simp) fun both => mem both.1

theorem encode_fits {letter : Letter} (fits : letter.Fits alphabetSize markers) :
    ∃ code, letter.encode alphabetSize markers = some code ∧
      code < encodingBound alphabetSize markers ∧
        decode code alphabetSize markers = some letter := by
  have position := idxOf_lt_length_of_mem fits.2
  have small := fits.1
  have pos : 0 < alphabetSize := by omega
  refine ⟨_, encode_eq_some.mpr ⟨fits.2, rfl⟩, ?_, ?_⟩
  · unfold encodingBound
    calc markers.idxOf letter.marker * alphabetSize + letter.char.toNat
        < markers.idxOf letter.marker * alphabetSize + alphabetSize := Nat.add_lt_add_left small _
      _ = alphabetSize * (markers.idxOf letter.marker + 1) := by ring
      _ ≤ alphabetSize * markers.length := Nat.mul_le_mul_left _ position
  · unfold decode
    have quotient : (markers.idxOf letter.marker * alphabetSize + letter.char.toNat) / alphabetSize =
        markers.idxOf letter.marker := by
      rw [Nat.add_comm, Nat.add_mul_div_right _ _ pos, Nat.div_eq_of_lt small, Nat.zero_add]
    have rest : (markers.idxOf letter.marker * alphabetSize + letter.char.toNat) % alphabetSize =
        letter.char.toNat := by
      rw [Nat.add_comm, Nat.add_mul_mod_self_right, Nat.mod_eq_of_lt small]
    rw [if_neg pos.ne', quotient, rest, getElem?_eq_getElem position, map_some,
      getElem_idxOf position, UInt8.ofNat_toNat]

theorem decode_bound (small : alphabetSize ≤ alphabetMaxSize) (distinct : markers.Nodup) {code : Nat}
    (below : code < encodingBound alphabetSize markers) :
    ∃ letter, decode code alphabetSize markers = some letter ∧ letter.Fits alphabetSize markers ∧
      letter.encode alphabetSize markers = some code := by
  unfold encodingBound at below
  have pos : 0 < alphabetSize := Nat.pos_of_mul_pos_right (by omega : 0 < alphabetSize * markers.length)
  have position : code / alphabetSize < markers.length := Nat.div_lt_of_lt_mul below
  have remainder : code % alphabetSize < alphabetSize := Nat.mod_lt _ pos
  have byte : (UInt8.ofNat (code % alphabetSize)).toNat = code % alphabetSize := by
    rw [UInt8.toNat_ofNat']
    apply Nat.mod_eq_of_lt
    have bound : alphabetMaxSize = 2 ^ 8 := rfl
    omega
  refine ⟨{ char := UInt8.ofNat (code % alphabetSize), marker := markers[code / alphabetSize] },
    ?_, ⟨?_, getElem_mem position⟩, encode_eq_some.mpr ⟨getElem_mem position, ?_⟩⟩
  · unfold decode
    rw [if_neg pos.ne', getElem?_eq_getElem position, map_some]
  · dsimp only
    rw [byte]
    exact remainder
  · dsimp only
    rw [byte, distinct.idxOf_getElem _ position]
    exact Nat.div_add_mod' code alphabetSize

theorem encode_inj {first second : Letter} (firstFits : first.Fits alphabetSize markers)
    (secondFits : second.Fits alphabetSize markers)
    (same : first.encode alphabetSize markers = second.encode alphabetSize markers) :
    first = second := by
  rcases encode_fits firstFits with ⟨code, found, -, back⟩
  rcases encode_fits secondFits with ⟨other, otherFound, -, otherBack⟩
  rw [found, otherFound, Option.some.injEq] at same
  rw [same, otherBack, Option.some.injEq] at back
  exact back.symm

end Letter

namespace RawAutomaton

variable {order : HashOrder} {automaton : RawAutomaton}

/-! ### Successors of a power state -/

/-- Targets are tabulated by code, beside the codes that were there at first. -/
structure Tabulates (initial : List Nat) (marked : List (Nat × Nat)) (successors : Successors) :
    Prop where
  distinct : (successors.map Prod.fst).Nodup
  codes : ∀ code, code ∈ successors.map Prod.fst ↔ code ∈ initial ∨ ∃ target, (code, target) ∈ marked
  targets : ∀ entry ∈ successors, ∀ target, target ∈ entry.2 ↔ (entry.1, target) ∈ marked

variable {initial : List Nat}

theorem tabulates_initial (distinct : initial.Nodup) :
    Tabulates initial [] (initial.map fun i => (i, ∅)) := by
  have codes : (initial.map fun i => ((i, ∅) : Nat × Finset Nat)).map Prod.fst = initial := by
    rw [map_map]
    exact map_id' initial
  refine ⟨by rw [codes]; exact distinct, fun code => ?_, fun entry mem target => ?_⟩
  · rw [codes]
    exact ⟨Or.inl, fun either => either.elim id fun marked => absurd marked.choose_spec not_mem_nil⟩
  · rcases mem_map.mp mem with ⟨i, -, rfl⟩
    exact iff_of_false (Finset.notMem_empty target) not_mem_nil

variable {marked : List (Nat × Nat)} {successors : Successors}

theorem Tabulates.mark (tabulates : Tabulates initial marked successors) {nbStates target : Nat}
    (below : target < nbStates) (code : Nat) :
    ∃ result, markTarget nbStates code target successors = some result ∧
      Tabulates initial (marked ++ [(code, target)]) result := by
  have marks : ∀ other t, (other, t) ∈ marked ++ [(code, target)] ↔
      (other, t) ∈ marked ∨ other = code ∧ t = target := by
    intro other t
    rw [mem_append, mem_singleton, Prod.mk.injEq]
  unfold markTarget
  rw [if_pos below]
  by_cases there : code ∈ successors.map Prod.fst
  · rw [if_pos there]
    refine ⟨_, rfl, ?_⟩
    have codes : (successors.map fun entry =>
        if entry.1 = code then (entry.1, insert target entry.2) else entry).map Prod.fst =
          successors.map Prod.fst := by
      rw [map_map]
      apply map_congr_left
      intro entry _
      rw [Function.comp_apply]
      split_ifs <;> rfl
    refine ⟨by rw [codes]; exact tabulates.distinct, fun other => ?_, fun entry mem t => ?_⟩
    · rw [codes, tabulates.codes]
      constructor
      · exact fun either => either.imp id fun old =>
          ⟨old.choose, (marks _ _).mpr (Or.inl old.choose_spec)⟩
      · rintro (first | ⟨t, old⟩)
        · exact Or.inl first
        · rcases (marks other t).mp old with before | ⟨rfl, -⟩
          · exact Or.inr ⟨t, before⟩
          · exact (tabulates.codes other).mp there
    · rcases mem_map.mp mem with ⟨old, inside, rfl⟩
      have before := tabulates.targets old inside
      rw [marks]
      split_ifs with here
      · rw [Finset.mem_insert, before]
        constructor
        · rintro (rfl | already)
          · exact Or.inr ⟨here, rfl⟩
          · exact Or.inl already
        · rintro (already | ⟨-, rfl⟩)
          · exact Or.inr already
          · exact Or.inl rfl
      · rw [before]
        exact ⟨Or.inl, fun either => either.elim id fun same => absurd same.1 here⟩
  · rw [if_neg there]
    refine ⟨_, rfl, ?_⟩
    have absent : ∀ t, (code, t) ∉ marked := fun t mem =>
      there ((tabulates.codes code).mpr (Or.inr ⟨t, mem⟩))
    refine ⟨?_, fun other => ?_, fun entry mem t => ?_⟩
    · rw [map_append, map_singleton, nodup_append]
      refine ⟨tabulates.distinct, nodup_singleton _, ?_⟩
      rintro other inside _ single rfl
      rw [mem_singleton.mp single] at inside
      exact there inside
    · rw [map_append, map_singleton, mem_append, mem_singleton, tabulates.codes]
      constructor
      · rintro ((first | ⟨t, old⟩) | rfl)
        · exact Or.inl first
        · exact Or.inr ⟨t, (marks _ _).mpr (Or.inl old)⟩
        · exact Or.inr ⟨target, (marks _ _).mpr (Or.inr ⟨rfl, rfl⟩)⟩
      · rintro (first | ⟨t, old⟩)
        · exact Or.inl (Or.inl first)
        · rcases (marks other t).mp old with before | ⟨rfl, -⟩
          · exact Or.inl (Or.inr ⟨t, before⟩)
          · exact Or.inr rfl
    · rw [marks]
      rcases mem_append.mp mem with old | single
      · rw [tabulates.targets entry old]
        refine ⟨Or.inl, fun either => either.elim id fun same => ?_⟩
        have present : entry.1 ∈ successors.map Prod.fst := mem_map_of_mem old
        rw [same.1] at present
        exact absurd present there
      · rw [mem_singleton.mp single, Finset.mem_singleton]
        exact ⟨fun same => Or.inr ⟨rfl, same⟩,
          fun either => either.elim (fun old => absurd old (absent t)) fun same => same.2⟩

theorem tabulates_fold {alphabetSize nbStates : Nat} {markers : List Nat}
    (entries : List (Letter × Nat)) (tabulates : Tabulates initial marked successors)
    (fits : ∀ entry ∈ entries, entry.1.Fits alphabetSize markers ∧ entry.2 < nbStates) :
    ∃ result, entries.foldlM (fun successors transition => do
        let letterEncoding ← transition.1.encode alphabetSize markers
        markTarget nbStates letterEncoding transition.2 successors) successors = some result ∧
      Tabulates initial (marked ++ entries.filterMap fun entry =>
        (entry.1.encode alphabetSize markers).map fun code => (code, entry.2)) result := by
  induction entries generalizing marked successors with
  | nil =>
    rw [filterMap_nil, append_nil]
    exact ⟨successors, rfl, tabulates⟩
  | cons entry entries ih =>
    have here := fits entry mem_cons_self
    rcases Letter.encode_fits here.1 with ⟨code, encoded, -, -⟩
    rcases tabulates.mark here.2 code with ⟨next, marks, tabulatesNext⟩
    rcases ih tabulatesNext (forall_mem_cons.mp fits).2 with
      ⟨result, run, holds⟩
    refine ⟨result, ?_, ?_⟩
    · rw [foldlM_cons]
      simp only [encoded, some_bind, marks]
      exact run
    · rw [filterMap_cons, encoded, map_some]
      rw [append_assoc, singleton_append] at holds
      exact holds

structure PowerSteps (automaton : RawAutomaton) (completion : Bool) (alphabetSize : Nat)
    (markers : List Nat) (powerState : Finset Nat) (steps : List (Letter × Finset Nat)) : Prop where
  distinct : (steps.map Prod.fst).Nodup
  short : steps.length ≤ Letter.encodingBound alphabetSize markers
  letters : ∀ letter, letter ∈ steps.map Prod.fst ↔
    (completion = true ∧ letter.Fits alphabetSize markers) ∨
      ∃ source ∈ powerState, ∃ target, (letter, target) ∈ automaton.outgoing source
  targets : ∀ entry ∈ steps, ∀ target, target ∈ entry.2 ↔
    ∃ source ∈ powerState, (entry.1, target) ∈ automaton.outgoing source

variable {alphabetSize : Nat} {markers : List Nat}

def powerRows (automaton : RawAutomaton) (powerState : Finset Nat) : List (Letter × Nat) :=
  ((List.range automaton.nbStates).filter fun state => state ∈ powerState).flatMap
    fun source => (automaton.transitions[source]?).getD []

variable {powerState : Finset Nat} {completion : Bool}

theorem mem_power_rows {entry : Letter × Nat} :
    entry ∈ automaton.powerRows powerState ↔ ∃ source ∈ powerState, entry ∈ automaton.outgoing source := by
  unfold powerRows
  rw [mem_flatMap]
  constructor
  · rintro ⟨source, inside, step⟩
    rw [mem_filter, decide_eq_true_iff] at inside
    exact ⟨source, inside.2, step⟩
  · rintro ⟨source, inside, step⟩
    refine ⟨source, ?_, step⟩
    rw [mem_filter, decide_eq_true_iff, mem_range]
    exact ⟨lt_of_outgoing step, inside⟩

variable {steps : List (Letter × Finset Nat)}

theorem power_successors_rows
    (found : automaton.powerSuccessors order completion alphabetSize markers powerState = some steps)
    {source : Nat} (inside : source ∈ powerState) {entry : Letter × Nat}
    (step : entry ∈ automaton.outgoing source) :
    entry.1.marker ∈ markers ∧ entry.2 < automaton.nbStates := by
  have mem := mem_power_rows.mpr ⟨source, inside, step⟩
  unfold powerRows at mem
  unfold powerSuccessors at found
  rcases bind_some_iff.mp found with ⟨table, run, -⟩
  clear found
  generalize ((List.range automaton.nbStates).filter fun state => state ∈ powerState).flatMap
    (fun source => (automaton.transitions[source]?).getD []) = entries at mem run
  revert run
  generalize (if completion = true then _ else _ : Successors) = successors
  induction entries generalizing successors with
  | nil => exact absurd mem not_mem_nil
  | cons first entries ih =>
    intro run
    rw [foldlM_cons] at run
    rcases bind_some_iff.mp run with ⟨next, nextIs, rest⟩
    rcases mem_cons.mp mem with rfl | later
    · rcases bind_some_iff.mp nextIs with ⟨code, encoded, marks⟩
      unfold markTarget at marks
      split_ifs at marks with below
      · exact ⟨(Letter.encode_eq_some.mp encoded).1, below⟩
      · exact ⟨(Letter.encode_eq_some.mp encoded).1, below⟩
    · exact ih later next rest

theorem power_successors_steps {powerState : Finset Nat}
    (fits : ∀ source ∈ powerState, ∀ entry ∈ automaton.outgoing source,
      entry.1.Fits alphabetSize markers ∧ entry.2 < automaton.nbStates)
    (small : alphabetSize ≤ alphabetMaxSize) (distinct : markers.Nodup) (completion : Bool) :
    ∃ steps, automaton.powerSuccessors order completion alphabetSize markers powerState = some steps ∧
      PowerSteps automaton completion alphabetSize markers powerState steps := by
  generalize initialIs : (if completion then List.range (Letter.encodingBound alphabetSize markers)
    else []) = initial
  have initialTable : (if completion then (List.range (Letter.encodingBound alphabetSize markers)).map
      fun i => ((i, ∅) : Nat × Finset Nat) else []) = initial.map fun i => (i, ∅) := by
    rw [← initialIs]
    split_ifs
    · rfl
    · rfl
  have initialMem : ∀ code, code ∈ initial ↔
      completion = true ∧ code < Letter.encodingBound alphabetSize markers := by
    intro code
    rw [← initialIs]
    split_ifs with completes
    · rw [mem_range]
      exact ⟨fun below => ⟨completes, below⟩, fun both => both.2⟩
    · exact iff_of_false not_mem_nil fun both => completes both.1
  have initialDistinct : initial.Nodup := by
    rw [← initialIs]
    split_ifs
    · exact nodup_range
    · exact nodup_nil
  generalize entriesAre : ((List.range automaton.nbStates).filter fun state => state ∈ powerState).flatMap
    (fun source => (automaton.transitions[source]?).getD []) = entries
  have entriesMem : ∀ entry, entry ∈ entries ↔ ∃ source ∈ powerState, entry ∈ automaton.outgoing source := by
    intro entry
    rw [← entriesAre]
    exact mem_power_rows
  rcases tabulates_fold entries (tabulates_initial initialDistinct) (fun entry member => by
      rcases (entriesMem entry).mp member with ⟨source, inside, step⟩
      exact fits source inside entry step) with ⟨table, run, tabulates⟩
  rw [nil_append] at tabulates
  have marked : ∀ letter : Letter, letter.Fits alphabetSize markers → ∀ code target,
      letter.encode alphabetSize markers = some code →
        ((code, target) ∈ entries.filterMap (fun entry =>
          (entry.1.encode alphabetSize markers).map fun code => (code, entry.2)) ↔
            ∃ source ∈ powerState, (letter, target) ∈ automaton.outgoing source) := by
    intro letter letterFits code target encoded
    rw [mem_filterMap]
    constructor
    · rintro ⟨entry, member, same⟩
      rcases map_eq_some_iff.mp same with ⟨other, otherEncoded, pair⟩
      cases pair
      rcases (entriesMem entry).mp member with ⟨source, inside, step⟩
      have letterIs := Letter.encode_inj letterFits (fits source inside entry step).1
        (encoded.trans otherEncoded.symm)
      rw [letterIs]
      exact ⟨source, inside, step⟩
    · rintro ⟨source, inside, step⟩
      refine ⟨(letter, target), (entriesMem _).mpr ⟨source, inside, step⟩, ?_⟩
      dsimp only
      rw [encoded, map_some]
  have codesBelow : ∀ code ∈ table.map Prod.fst, code < Letter.encodingBound alphabetSize markers := by
    intro code member
    rcases (tabulates.codes code).mp member with first | ⟨target, step⟩
    · exact ((initialMem code).mp first).2
    · rcases mem_filterMap.mp step with ⟨entry, inside, same⟩
      rcases map_eq_some_iff.mp same with ⟨other, encoded, pair⟩
      cases pair
      rcases (entriesMem entry).mp inside with ⟨source, sourceIn, taken⟩
      rcases Letter.encode_fits (fits source sourceIn entry taken).1 with ⟨found, foundIs, below, -⟩
      rw [encoded] at foundIs
      cases foundIs
      exact below
  have decodes : ∀ entry ∈ order.arrange table, ∃ letter : Letter,
      Letter.decode entry.1 alphabetSize markers = some letter ∧
        letter.Fits alphabetSize markers ∧ letter.encode alphabetSize markers = some entry.1 := by
    intro entry member
    exact Letter.decode_bound small distinct
      (codesBelow entry.1 (mem_map_of_mem (order.mem_arrange.mp member)))
  generalize letterIs : (fun code =>
    (Letter.decode code alphabetSize markers).getD (Letter.ofByte 0)) = letterOf
  have letterAt : ∀ code, letterOf code =
      (Letter.decode code alphabetSize markers).getD (Letter.ofByte 0) := fun code => by rw [← letterIs]
  have each : ∀ entry ∈ order.arrange table, ((Letter.decode entry.1 alphabetSize markers).map
      fun letter => (letter, entry.2)) = some (letterOf entry.1, entry.2) := by
    intro entry member
    rcases decodes entry member with ⟨letter, decoded, -, -⟩
    rw [letterAt, decoded, map_some, getD_some]
  have stepsAre := map_m_of_forall _ each
  generalize stepsIs : (order.arrange table).map
    (fun entry : Nat × Finset Nat => (letterOf entry.1, entry.2)) = steps at stepsAre
  have mem : ∀ letter targets, (letter, targets) ∈ steps ↔ ∃ code, (code, targets) ∈ table ∧
      letter.Fits alphabetSize markers ∧ letter.encode alphabetSize markers = some code := by
    intro letter targets
    rw [mem_map_m stepsAre]
    constructor
    · rintro ⟨entry, member, same⟩
      rcases decodes entry member with ⟨found, decoded, foundFits, encoded⟩
      rw [decoded, map_some, Option.some.injEq, Prod.mk.injEq] at same
      rcases same with ⟨rfl, rfl⟩
      exact ⟨entry.1, order.mem_arrange.mp member, foundFits, encoded⟩
    · rintro ⟨code, member, letterFits, encoded⟩
      refine ⟨(code, targets), order.mem_arrange.mpr member, ?_⟩
      rcases Letter.encode_fits letterFits with ⟨other, otherIs, -, back⟩
      rw [encoded, Option.some.injEq] at otherIs
      dsimp only
      rw [otherIs, back, map_some]
  refine ⟨steps, ?_, ?_, ?_, fun letter => ?_, ?_⟩
  · unfold powerSuccessors
    dsimp only
    rw [initialTable, entriesAre, run]
    exact stepsAre
  · have codesDistinct : ((order.arrange table).map Prod.fst).Nodup := by
      rw [((order.perm table).map Prod.fst).nodup_iff]
      exact tabulates.distinct
    have letters : steps.map Prod.fst = ((order.arrange table).map Prod.fst).map letterOf := by
      rw [← stepsIs, map_map, map_map]
      rfl
    rw [letters]
    refine List.Nodup.map_on ?_ codesDistinct
    intro first firstIn second secondIn same
    rcases mem_map.mp firstIn with ⟨firstEntry, firstMember, rfl⟩
    rcases mem_map.mp secondIn with ⟨secondEntry, secondMember, rfl⟩
    rcases decodes firstEntry firstMember with ⟨firstLetter, firstDecoded, -, firstEncoded⟩
    rcases decodes secondEntry secondMember with ⟨secondLetter, secondDecoded, -, secondEncoded⟩
    rw [letterAt, letterAt, firstDecoded, secondDecoded, getD_some, getD_some] at same
    rw [same, secondEncoded, Option.some.injEq] at firstEncoded
    exact firstEncoded.symm
  · have count : steps.length = (table.map Prod.fst).toFinset.card := by
      rw [toFinset_card_of_nodup tabulates.distinct, ← stepsIs, length_map, length_map,
        order.length_arrange]
    rw [count, ← Finset.card_range (Letter.encodingBound alphabetSize markers)]
    exact Finset.card_le_card fun code member =>
      Finset.mem_range.mpr (codesBelow code (mem_toFinset.mp member))
  · rw [mem_map]
    constructor
    · rintro ⟨⟨found, targets⟩, member, rfl⟩
      rcases (mem found targets).mp member with ⟨code, inTable, foundFits, encoded⟩
      rcases (tabulates.codes code).mp (mem_map_of_mem inTable) with first | ⟨target, step⟩
      · exact Or.inl ⟨((initialMem code).mp first).1, foundFits⟩
      · rcases (marked found foundFits code target encoded).mp step with ⟨source, inside, taken⟩
        exact Or.inr ⟨source, inside, target, taken⟩
    · intro either
      have letterFits : letter.Fits alphabetSize markers := by
        rcases either with ⟨-, there⟩ | ⟨source, sourceIn, target, step⟩
        · exact there
        · exact (fits source sourceIn _ step).1
      rcases Letter.encode_fits letterFits with ⟨code, encoded, below, -⟩
      have inTable : code ∈ table.map Prod.fst := by
        rw [tabulates.codes]
        rcases either with ⟨completes, -⟩ | ⟨source, inside, target, step⟩
        · exact Or.inl ((initialMem code).mpr ⟨completes, below⟩)
        · exact Or.inr ⟨target, (marked letter letterFits code target encoded).mpr
            ⟨source, inside, step⟩⟩
      rcases mem_map.mp inTable with ⟨entry, member, rfl⟩
      exact ⟨(letter, entry.2), (mem letter entry.2).mpr ⟨entry.1, member, letterFits, encoded⟩, rfl⟩
  · rintro ⟨letter, targets⟩ member target
    rcases (mem letter targets).mp member with ⟨code, inTable, letterFits, encoded⟩
    rw [← marked letter letterFits code target encoded]
    exact tabulates.targets (code, targets) inTable target

theorem power_steps_of_some
    (bytes : ∀ state, ∀ entry ∈ automaton.outgoing state, entry.1.char.toNat < alphabetSize)
    (small : alphabetSize ≤ alphabetMaxSize) (distinct : markers.Nodup)
   
    (found : automaton.powerSuccessors order completion alphabetSize markers powerState = some steps) :
    PowerSteps automaton completion alphabetSize markers powerState steps := by
  have fits : ∀ source ∈ powerState, ∀ entry ∈ automaton.outgoing source,
      entry.1.Fits alphabetSize markers ∧ entry.2 < automaton.nbStates := by
    intro source inside entry step
    have rows := power_successors_rows found inside step
    exact ⟨⟨bytes source entry step, rows.1⟩, rows.2⟩
  rcases @power_successors_steps order automaton alphabetSize markers powerState fits small distinct
    completion with ⟨others, othersAre, holds⟩
  rw [found, Option.some.injEq] at othersAre
  rw [othersAre]
  exact holds

/-! ### The construction -/

def IsDeterministic (automaton : RawAutomaton) : Prop :=
  ∀ state, ((automaton.outgoing state).map Prod.fst).Nodup

def ReadsAll (automaton : RawAutomaton) (letters : Letter → Prop) : Prop :=
  ∀ state < automaton.nbStates, ∀ letter, letters letter →
    ∃ target, (letter, target) ∈ automaton.outgoing state

structure Powered (automaton : RawAutomaton) (initials : List Nat) (completion : Bool)
    (alphabetSize : Nat) (result : RawAutomaton) : Prop where
  range : InRange result
  language : ∀ word, word ∈ result.language ↔ ∃ state ∈ initials, word ∈ acceptsAt automaton.nfa state
  distinct : IsDeterministic result
  letters : ∀ state, ∀ entry ∈ result.outgoing state,
    entry.1.char.toNat < alphabetSize ∧ entry.1.marker ∈ automaton.markers ∧
      (completion = true ∨ ∃ source target, (entry.1, target) ∈ automaton.outgoing source)
  completes : completion = true → result.ReadsAll fun letter =>
    letter.char.toNat < alphabetSize ∧ letter.marker ∈ automaton.markers
  inherits : completion = false → initials ≠ [] → ∀ letters : Letter → Prop,
    automaton.ReadsAll letters → result.ReadsAll letters
  deterministic : result.deterministic = true
  complete : result.complete = (automaton.complete || completion)
  markers : result.markers = automaton.markers

theorem powered_of_explored {initials : List Nat}
    (initialsIn : ∀ state ∈ initials, state < automaton.nbStates)
    (bytes : ∀ state, ∀ entry ∈ automaton.outgoing state, entry.1.char.toNat < alphabetSize)
    (small : alphabetSize ≤ alphabetMaxSize) {visited : List (Finset Nat)}
    (visitedIs : explore (fun powerState => (automaton.powerSuccessors order completion alphabetSize
        (order.elements automaton.markers) powerState).map (·.map Prod.snd))
      (1 + 2 ^ automaton.nbStates * (Letter.encodingBound alphabetSize (order.elements automaton.markers) +
        automaton.nbTransitions)) [initials.toFinset] [] = some visited) :
    ∃ result, automaton.powersetConstruction order initials completion alphabetSize = some result ∧
      Powered automaton initials completion alphabetSize result := by
  generalize markersAre : order.elements automaton.markers = markers at visitedIs
  have markersMem : ∀ marker, marker ∈ markers ↔ marker ∈ automaton.markers := by
    intro marker
    rw [← markersAre, order.mem_elements]
  have markersDistinct : markers.Nodup := by
    rw [← markersAre]
    exact order.nodup_elements _
  have explored := explored_of_run visitedIs
  have visitedDistinct := explored.distinct nodup_nil
  generalize stepsAre : (fun powerState => (automaton.powerSuccessors order completion alphabetSize markers
    powerState).getD []) = steps
  have stepsAt : ∀ powerState ∈ visited, automaton.powerSuccessors order completion alphabetSize markers
      powerState = some (steps powerState) ∧ ∀ entry ∈ steps powerState, entry.2 ∈ visited := by
    intro powerState mem
    rcases explored.expanded powerState mem not_mem_nil with ⟨targets, found, targetsVisited⟩
    rcases map_eq_some_iff.mp found with ⟨successors, successorsIs, rfl⟩
    have stepsIs : steps powerState = successors := by
      rw [← stepsAre]
      dsimp only
      rw [successorsIs, getD_some]
    rw [successorsIs, stepsIs]
    exact ⟨rfl, fun entry inside => targetsVisited entry.2 (mem_map_of_mem inside)⟩
  have fits : ∀ powerState ∈ visited, ∀ source ∈ powerState, ∀ entry ∈ automaton.outgoing source,
      entry.1.Fits alphabetSize markers ∧ entry.2 < automaton.nbStates := by
    intro powerState mem source inside entry step
    have rows := power_successors_rows (stepsAt powerState mem).1 inside step
    exact ⟨⟨bytes source entry step, rows.1⟩, rows.2⟩
  have power : ∀ powerState ∈ visited, PowerSteps automaton completion alphabetSize markers powerState
      (steps powerState) := by
    intro powerState mem
    exact power_steps_of_some bytes small markersDistinct (stepsAt powerState mem).1
  have closed : ∀ powerState ∈ visited, ∀ entry ∈ steps powerState, entry.2 ∈ visited :=
    fun powerState mem => (stepsAt powerState mem).2
  have transitionsAre : visited.mapM (fun powerState => (automaton.powerSuccessors order completion
      alphabetSize markers powerState).map (·.map fun entry => (entry.1, visited.idxOf entry.2))) =
        some (visited.map fun powerState =>
          (steps powerState).map fun entry => (entry.1, visited.idxOf entry.2)) := by
    apply map_m_of_forall
    intro powerState mem
    rw [(stepsAt powerState mem).1, map_some]
    rfl
  unfold powersetConstruction
  rw [if_pos initialsIn]
  simp only [markersAre]
  rw [visitedIs]
  simp only [some_bind, transitionsAre, Option.pure_def]
  refine ⟨_, rfl, ?_⟩
  generalize resultIs : RawAutomaton.mk true (automaton.complete || completion) 0 _ _ automaton.markers =
    result
  have count : result.nbStates = visited.length := by
    rw [← resultIs]
    exact length_map _
  have outgoingAt : ∀ index powerState, visited[index]? = some powerState →
      result.outgoing index = (steps powerState).map fun entry => (entry.1, visited.idxOf entry.2) := by
    intro index powerState found
    apply outgoing_of_lookup
    rw [← resultIs, getElem?_map, found, map_some]
  have finalAt : ∀ index powerState, visited[index]? = some powerState →
      (index ∈ result.finalStates ↔ ∃ state ∈ powerState, state ∈ automaton.finalStates) := by
    intro index powerState found
    rw [← resultIs, Finset.mem_filter, Finset.mem_range, getD_eq_getElem?_getD, found, getD_some]
    have inside := (List.getElem?_eq_some_iff.mp found).1
    constructor
    · rintro ⟨-, state, final, mem⟩
      exact ⟨state, mem, final⟩
    · rintro ⟨state, mem, final⟩
      exact ⟨inside, state, final, mem⟩
  have lookup : ∀ index < result.nbStates, ∃ powerState ∈ visited, visited[index]? = some powerState := by
    intro index below
    rw [count] at below
    exact ⟨visited[index], getElem_mem below, getElem?_eq_getElem below⟩
  have stepsOf : ∀ state, ∀ entry ∈ result.outgoing state, ∃ powerState ∈ visited,
      visited[state]? = some powerState ∧ ∃ target, (entry.1, target) ∈ steps powerState ∧
        entry.2 = visited.idxOf target := by
    intro state entry step
    rcases lookup state (lt_of_outgoing step) with ⟨powerState, mem, found⟩
    rw [outgoingAt state powerState found] at step
    rcases mem_map.mp step with ⟨old, inside, rfl⟩
    exact ⟨powerState, mem, found, old.2, inside, rfl⟩
  have initialFound := first_visited visitedIs
  have initialIs : result.initialState = 0 := by rw [← resultIs]
  have accepts : ∀ word index powerState, visited[index]? = some powerState →
      (word ∈ acceptsAt result.nfa index ↔
        ∃ state ∈ powerState, word ∈ acceptsAt automaton.nfa state) := by
    intro word
    induction word with
    | nil =>
      intro index powerState found
      rw [nil_at, finalAt index powerState found]
      simp only [nil_at]
    | cons letter word ih =>
      intro index powerState found
      have mem := mem_of_getElem? found
      rw [cons_at, outgoingAt index powerState found]
      constructor
      · rintro ⟨target, step, rest⟩
        rcases mem_map.mp step with ⟨entry, inside, same⟩
        cases same
        have next := closed powerState mem entry inside
        rcases (ih _ entry.2 (getElem?_idxOf next)).mp rest with
          ⟨oldTarget, oldIn, accepted⟩
        rcases ((power powerState mem).targets entry inside oldTarget).mp oldIn with
          ⟨source, sourceIn, oldStep⟩
        exact ⟨source, sourceIn, cons_at.mpr ⟨oldTarget, oldStep, accepted⟩⟩
      · rintro ⟨source, sourceIn, accepted⟩
        rcases cons_at.mp accepted with ⟨oldTarget, oldStep, rest⟩
        have present := ((power powerState mem).letters letter).mpr
          (Or.inr ⟨source, sourceIn, oldTarget, oldStep⟩)
        rcases mem_map.mp present with ⟨entry, inside, rfl⟩
        have next := closed powerState mem entry inside
        refine ⟨visited.idxOf entry.2, mem_map.mpr ⟨entry, inside, rfl⟩, ?_⟩
        exact (ih _ entry.2 (getElem?_idxOf next)).mpr
          ⟨oldTarget, ((power powerState mem).targets entry inside oldTarget).mpr
            ⟨source, sourceIn, oldStep⟩, rest⟩
  refine ⟨⟨?_, ?_, ?_⟩, fun word => ?_, fun state => ?_, ?_, ?_, ?_, by rw [← resultIs],
    by rw [← resultIs], by rw [← resultIs]⟩
  · rw [initialIs, count]
    exact (List.getElem?_eq_some_iff.mp initialFound).1
  · intro state final
    rw [← resultIs, Finset.mem_filter, Finset.mem_range] at final
    rw [count]
    exact final.1
  · intro state entry step
    rcases stepsOf state entry step with ⟨powerState, mem, -, target, inside, same⟩
    rw [same, count]
    exact idxOf_lt_length_of_mem (closed powerState mem _ inside)
  · rw [language_eq, initialIs, accepts word 0 _ initialFound]
    simp only [mem_toFinset]
  · by_cases below : state < result.nbStates
    · rcases lookup state below with ⟨powerState, mem, found⟩
      rw [outgoingAt state powerState found, map_map]
      exact (power powerState mem).distinct
    · rw [outgoing_out_of_range (not_lt.mp below)]
      exact nodup_nil
  · intro state entry step
    rcases stepsOf state entry step with ⟨powerState, mem, -, target, inside, -⟩
    rcases ((power powerState mem).letters entry.1).mp (mem_map_of_mem inside) with
      ⟨completes, fit⟩ | ⟨source, sourceIn, oldTarget, taken⟩
    · exact ⟨fit.1, (markersMem _).mp fit.2, Or.inl completes⟩
    · have fit := (fits powerState mem source sourceIn _ taken).1
      exact ⟨fit.1, (markersMem _).mp fit.2, Or.inr ⟨source, oldTarget, taken⟩⟩
  · intro completes state below letter fit
    rcases lookup state below with ⟨powerState, mem, found⟩
    have present := ((power powerState mem).letters letter).mpr
      (Or.inl ⟨completes, fit.1, (markersMem _).mpr fit.2⟩)
    rcases mem_map.mp present with ⟨entry, inside, rfl⟩
    refine ⟨visited.idxOf entry.2, ?_⟩
    rw [outgoingAt state powerState found]
    exact mem_map.mpr ⟨entry, inside, rfl⟩
  · intro stays someInitial letters readsAll state below letter holds
    rcases lookup state below with ⟨powerState, mem, found⟩
    have nonempty : ∃ source ∈ powerState, source < automaton.nbStates := by
      have reaches := (mem_explore visitedIs).mp mem
      clear found below mem
      induction reaches with
      | refl =>
        rcases exists_mem_of_ne_nil initials someInitial with ⟨first, firstIn⟩
        exact ⟨first, mem_toFinset.mpr firstIn, initialsIn first firstIn⟩
      | @tail before after reached leads _ =>
        have beforeIn := (mem_explore visitedIs).mpr reached
        rcases leads with ⟨targets, found, inside⟩
        dsimp only at found
        rw [(stepsAt before beforeIn).1, map_some] at found
        cases found
        rcases mem_map.mp inside with ⟨entry, entryIn, rfl⟩
        rcases ((power before beforeIn).letters entry.1).mp (mem_map_of_mem entryIn) with
          ⟨completes, -⟩ | ⟨source, sourceIn, target, step⟩
        · rw [stays] at completes
          cases completes
        · exact ⟨target, ((power before beforeIn).targets entry entryIn target).mpr ⟨source, sourceIn, step⟩,
            (fits before beforeIn source sourceIn _ step).2⟩
    rcases nonempty with ⟨source, sourceIn, inside⟩
    rcases readsAll source inside letter holds with ⟨target, step⟩
    have present := ((power powerState mem).letters letter).mpr (Or.inr ⟨source, sourceIn, target, step⟩)
    rcases mem_map.mp present with ⟨entry, inside, rfl⟩
    refine ⟨visited.idxOf entry.2, ?_⟩
    rw [outgoingAt state powerState found]
    exact mem_map.mpr ⟨entry, inside, rfl⟩

/-- The states that the initial ones lead to are in range, and their markers are in the set. -/
theorem powerset_powers_within (states : Finset Nat) (below : ∀ state ∈ states, state < automaton.nbStates)
    (closed : ∀ state ∈ states, ∀ entry ∈ automaton.outgoing state, entry.2 ∈ states)
    {initials : List Nat} (initialsIn : ∀ state ∈ initials, state ∈ states)
    (bytes : ∀ state, ∀ entry ∈ automaton.outgoing state, entry.1.char.toNat < alphabetSize)
    (marked : ∀ state ∈ states, ∀ entry ∈ automaton.outgoing state, entry.1.marker ∈ automaton.markers)
    (small : alphabetSize ≤ alphabetMaxSize) (completion : Bool) :
    ∃ result, automaton.powersetConstruction order initials completion alphabetSize = some result ∧
      Powered automaton initials completion alphabetSize result := by
  have fits : ∀ powerState ∈ states.powerset, ∀ source ∈ powerState, ∀ entry ∈ automaton.outgoing source,
      entry.1.Fits alphabetSize (order.elements automaton.markers) ∧ entry.2 < automaton.nbStates := by
    intro powerState mem source inside entry step
    have sourceIn := Finset.mem_powerset.mp mem inside
    exact ⟨⟨bytes source entry step, order.mem_elements.mpr (marked source sourceIn entry step)⟩,
      below _ (closed source sourceIn entry step)⟩
  have count : 2 ^ states.card ≤ 2 ^ automaton.nbStates := by
    apply Nat.pow_le_pow_right Nat.two_pos
    rw [← Finset.card_range automaton.nbStates]
    exact Finset.card_le_card fun state inside => Finset.mem_range.mpr (below state inside)
  have run := @explore_some _ _ (fun powerState => (automaton.powerSuccessors order completion
      alphabetSize (order.elements automaton.markers) powerState).map (·.map Prod.snd)) states.powerset
    (Letter.encodingBound alphabetSize (order.elements automaton.markers) + automaton.nbTransitions)
    (fun powerState mem => by
      rcases @power_successors_steps order automaton alphabetSize _ powerState (fits powerState mem) small
        (order.nodup_elements _) completion with ⟨steps, stepsAre, power⟩
      refine ⟨steps.map Prod.snd, by rw [stepsAre, map_some], ?_, fun target inside => ?_⟩
      · rw [length_map]
        exact le_trans power.short (Nat.le_add_right _ _)
      · rcases mem_map.mp inside with ⟨entry, entryIn, rfl⟩
        rw [Finset.mem_powerset]
        intro state stateIn
        rcases (power.targets entry entryIn state).mp stateIn with ⟨source, sourceIn, step⟩
        exact closed source (Finset.mem_powerset.mp mem sourceIn) _ step)
    (1 + 2 ^ automaton.nbStates * (Letter.encodingBound alphabetSize (order.elements automaton.markers) +
      automaton.nbTransitions))
    [initials.toFinset] [] (fun powerState mem => by
      rw [mem_singleton.mp mem, Finset.mem_powerset]
      exact fun state inside => initialsIn state (mem_toFinset.mp inside))
    (fun powerState mem => absurd mem not_mem_nil) nodup_nil
    (by
      rw [length_singleton, length_nil, Finset.card_powerset, Nat.sub_zero]
      exact Nat.add_le_add_left (Nat.mul_le_mul_right _ count) 1)
  rcases run with ⟨visited, visitedIs⟩
  exact powered_of_explored (fun state inside => below state (initialsIn state inside)) bytes small visitedIs

theorem powerset_powers (inRange : InRange automaton) {initials : List Nat}
    (initialsIn : ∀ state ∈ initials, state < automaton.nbStates)
    (fits : ∀ state, ∀ entry ∈ automaton.outgoing state,
      entry.1.char.toNat < alphabetSize ∧ entry.1.marker ∈ automaton.markers)
    (small : alphabetSize ≤ alphabetMaxSize) (completion : Bool) :
    ∃ result, automaton.powersetConstruction order initials completion alphabetSize = some result ∧
      Powered automaton initials completion alphabetSize result := by
  apply powerset_powers_within (Finset.range automaton.nbStates) (fun state inside => Finset.mem_range.mp inside)
    _ (fun state inside => Finset.mem_range.mpr (initialsIn state inside))
    (fun state entry step => (fits state entry step).1) _ small completion
  · exact fun state _ entry step => Finset.mem_range.mpr (inRange.targets state entry step)
  · exact fun state _ entry step => (fits state entry step).2

/-! ### What the construction visits -/

/-- The initial state and the targets that it leads to are in range. -/
structure Traversable (automaton : RawAutomaton) : Prop where
  initial : automaton.initialState < automaton.nbStates
  targets : ∀ state, automaton.Reachable state → ∀ entry ∈ automaton.outgoing state,
    entry.2 < automaton.nbStates

theorem InRange.traversable (inRange : InRange automaton) : Traversable automaton where
  initial := inRange.initial
  targets := fun state _ => inRange.targets state

theorem traversable_of_powerset {result : RawAutomaton}
    (bytes : ∀ state, ∀ entry ∈ automaton.outgoing state, entry.1.char.toNat < alphabetSize)
    (small : alphabetSize ≤ alphabetMaxSize)
    (found : automaton.powersetConstruction order [automaton.initialState] completion alphabetSize =
      some result) : Traversable automaton := by
  unfold powersetConstruction at found
  split_ifs at found with initialIn
  have initial := initialIn automaton.initialState (mem_singleton_self _)
  dsimp only at found
  rcases bind_some_iff.mp found with ⟨visited, visitedIs, rest⟩
  clear found
  rcases bind_some_iff.mp rest with ⟨transitions, transitionsIs, -⟩
  have explored := explored_of_run visitedIs
  have expanded : ∀ powerState ∈ visited, ∃ steps, automaton.powerSuccessors order completion alphabetSize
      (order.elements automaton.markers) powerState = some steps ∧
        ∀ entry ∈ steps, entry.2 ∈ visited := by
    intro powerState mem
    rcases explored.expanded powerState mem not_mem_nil with ⟨targets, next, targetsVisited⟩
    rcases map_eq_some_iff.mp next with ⟨steps, stepsIs, rfl⟩
    exact ⟨steps, stepsIs, fun entry inside => targetsVisited entry.2 (mem_map_of_mem inside)⟩
  have covered : ∀ state, automaton.Reachable state → ∃ powerState ∈ visited, state ∈ powerState := by
    intro state reachable
    induction reachable with
    | refl =>
      refine ⟨_, explored.served _ (mem_singleton_self _), ?_⟩
      exact mem_toFinset.mpr (mem_singleton_self _)
    | @tail before after _ edge ih =>
      rcases ih with ⟨powerState, mem, inside⟩
      rcases edge with ⟨letter, step⟩
      rcases expanded powerState mem with ⟨steps, stepsIs, targetsIn⟩
      have power := power_steps_of_some bytes small (order.nodup_elements _) stepsIs
      have read := (power.letters letter).mpr (Or.inr ⟨before, inside, after, step⟩)
      rcases mem_map.mp read with ⟨entry, entryIn, rfl⟩
      exact ⟨entry.2, targetsIn entry entryIn,
        (power.targets entry entryIn after).mpr ⟨before, inside, step⟩⟩
  refine ⟨initial, fun state reachable entry step => ?_⟩
  rcases covered state reachable with ⟨powerState, mem, inside⟩
  rcases expanded powerState mem with ⟨steps, stepsIs, -⟩
  exact (power_successors_rows stepsIs inside step).2

theorem Traversable.powered (traversable : Traversable automaton)
    (bytes : ∀ state, ∀ entry ∈ automaton.outgoing state, entry.1.char.toNat < alphabetSize)
    (marked : ∀ state, ∀ entry ∈ automaton.outgoing state, entry.1.marker ∈ automaton.markers)
    (small : alphabetSize ≤ alphabetMaxSize) (completion : Bool) :
    ∃ result, automaton.powersetConstruction order [automaton.initialState] completion alphabetSize =
      some result ∧ Powered automaton [automaton.initialState] completion alphabetSize result := by
  classical
  have reached : ∀ state, automaton.Reachable state → state < automaton.nbStates := by
    intro state reachable
    cases reachable with
    | refl => exact traversable.initial
    | @tail before _ reachable edge =>
      rcases edge with ⟨letter, step⟩
      exact traversable.targets before reachable _ step
  have mem : ∀ state, state ∈ (Finset.range automaton.nbStates).filter (fun state =>
      automaton.Reachable state) ↔ automaton.Reachable state := by
    intro state
    rw [Finset.mem_filter, Finset.mem_range]
    exact ⟨fun both => both.2, fun reachable => ⟨reached state reachable, reachable⟩⟩
  apply powerset_powers_within ((Finset.range automaton.nbStates).filter fun state =>
    automaton.Reachable state) _ _ _ bytes _ small completion
  · exact fun state inside => reached state ((mem state).mp inside)
  · intro state inside entry step
    rw [mem] at inside ⊢
    exact Relation.ReflTransGen.tail inside ⟨entry.1, step⟩
  · intro state inside
    rw [mem, mem_singleton.mp inside]
    exact Relation.ReflTransGen.refl
  · exact fun state _ => marked state

/-! ### The documented invariant -/

def Uses (automaton : RawAutomaton) (marker : Nat) : Prop :=
  ∃ state, ∃ entry ∈ automaton.outgoing state, entry.1.marker = marker

/-- Every state reads every byte of the alphabet with every marker in use. -/
def IsComplete (alphabetSize : Nat) (automaton : RawAutomaton) : Prop :=
  automaton.ReadsAll fun letter => letter.char.toNat < alphabetSize ∧ automaton.Uses letter.marker

/-- States in range, bytes of the alphabet, and flags that are true. -/
structure Sound (alphabetSize : Nat) (automaton : RawAutomaton) : Prop extends InRange automaton where
  bytes : ∀ state, ∀ entry ∈ automaton.outgoing state, entry.1.char.toNat < alphabetSize
  deterministic : automaton.deterministic = true → IsDeterministic automaton
  complete : automaton.complete = true → IsComplete alphabetSize automaton

/-- The markers of all transitions are in the set. -/
def Marked (automaton : RawAutomaton) : Prop := ∀ marker, automaton.Uses marker → marker ∈ automaton.markers

/-- The invariant that the fields of a raw automaton are documented with. -/
structure WellFormed (alphabetSize : Nat) (automaton : RawAutomaton) : Prop extends
    Sound alphabetSize automaton where
  marked : Marked automaton

theorem Sound.fits (sound : Sound alphabetSize automaton) (marked : Marked automaton) :
    ∀ state, ∀ entry ∈ automaton.outgoing state,
      entry.1.char.toNat < alphabetSize ∧ entry.1.marker ∈ automaton.markers :=
  fun state entry step => ⟨sound.bytes state entry step, marked _ ⟨state, entry, step, rfl⟩⟩

end RawAutomaton

end Midfall.RawAutomata
