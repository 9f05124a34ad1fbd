import Mathlib

/-!
# Selection of native gate callbacks

The knapsack that picks native gate callbacks by gas saved. Sizes and the budget
are rounded up to words; the table holds the best state for each count and each
number of words, and is updated in place. Savings and sizes are machine words: a
build without overflow checks wraps their sums.
-/

namespace Midfall.QuotientNativeGates

open List

structure NativeGateCandidate where
  gateIdx : Nat
  nativeBytes : Nat
  gasSaved : Nat
  deriving DecidableEq, Repr

structure NativeGateSelectionState where
  gasSaved : Nat
  nativeBytes : Nat
  gateIndices : List Nat
  deriving DecidableEq, Repr

def NativeGateSelectionState.default : NativeGateSelectionState := ⟨0, 0, []⟩

/-- More gas, then fewer bytes, then fewer gates, then smaller indices. -/
def nativeGateSelectionBetter (candidate : NativeGateSelectionState)
    (incumbent : Option NativeGateSelectionState) : Bool :=
  match incumbent with
  | none => true
  | some incumbent =>
    ((compare candidate.gasSaved incumbent.gasSaved).then
      ((compare incumbent.nativeBytes candidate.nativeBytes).then
        ((compare incumbent.gateIndices.length candidate.gateIndices.length).then
          (compare incumbent.gateIndices candidate.gateIndices)))) == .gt

def byteUnit : Nat := 32

/-- `div_ceil` by the word size. -/
def units (bytes : Nat) : Nat := (bytes + (byteUnit - 1)) / byteUnit

def costUnits (candidate : NativeGateCandidate) : Nat := max (units candidate.nativeBytes) 1

def extended (state : NativeGateSelectionState) (candidate : NativeGateCandidate) :
    NativeGateSelectionState where
  gasSaved := (state.gasSaved + candidate.gasSaved) % 2 ^ 64
  nativeBytes := (state.nativeBytes + candidate.nativeBytes) % 2 ^ 64
  gateIndices := state.gateIndices ++ [candidate.gateIdx]

/-- `dp[count][used]`. -/
abbrev SelectionTable := Nat × Nat → Option NativeGateSelectionState

def offered (candidate : NativeGateCandidate) (position : Nat × Nat) : Nat × Nat :=
  (position.1 + 1, position.2 + costUnits candidate)

def offer (candidate : NativeGateCandidate) (dp : SelectionTable) (position : Nat × Nat) :
    SelectionTable :=
  match dp position with
  | none => dp
  | some state =>
    let next := extended state candidate
    let target := offered candidate position
    if nativeGateSelectionBetter next (dp target) then Function.update dp target (some next)
    else dp

def considerCandidate (maxCount budgetUnits : Nat) (dp : SelectionTable)
    (candidate : NativeGateCandidate) : SelectionTable :=
  if costUnits candidate > budgetUnits then dp
  else
    (List.range maxCount).reverse.foldl (fun dp count =>
      (List.range (budgetUnits - costUnits candidate + 1)).reverse.foldl
        (fun dp used => offer candidate dp (count, used)) dp) dp

def eligible (candidates : List NativeGateCandidate) : List NativeGateCandidate :=
  candidates.filter fun candidate => decide (candidate.gasSaved > 0 ∧ candidate.nativeBytes > 0)

def startTable : SelectionTable := fun position =>
  if position = (0, 0) then some .default else none

def selectionTable (candidates : List NativeGateCandidate) (maxCount budgetUnits : Nat) :
    SelectionTable :=
  (eligible candidates).foldl (considerCandidate maxCount budgetUnits) startTable

def keepBetter (best state : NativeGateSelectionState) : NativeGateSelectionState :=
  if nativeGateSelectionBetter state (some best) then state else best

/-- Cells of the table in order. -/
def cells (maxCount budgetUnits : Nat) : List (Nat × Nat) :=
  (List.range (maxCount + 1)).flatMap fun count =>
    (List.range (budgetUnits + 1)).map (count, ·)

def selectNativeGateCandidates (candidates : List NativeGateCandidate)
    (maxCount byteBudget : Nat) : NativeGateSelectionState :=
  if maxCount = 0 ∨ byteBudget = 0 then .default
  else
    let dp := selectionTable candidates maxCount (units byteBudget)
    ((cells maxCount (units byteBudget)).filterMap dp).foldl keepBetter .default

theorem better_gas {candidate incumbent : NativeGateSelectionState}
    (better : nativeGateSelectionBetter candidate (some incumbent) = true) :
    incumbent.gasSaved ≤ candidate.gasSaved := by
  unfold nativeGateSelectionBetter at better
  rw [beq_iff_eq, Ordering.then_eq_gt] at better
  rcases better with more | tied
  · exact (Nat.compare_eq_gt.mp more).le
  · exact (Nat.compare_eq_eq.mp tied.1).ge

theorem not_better_gas {candidate incumbent : NativeGateSelectionState}
    (worse : nativeGateSelectionBetter candidate (some incumbent) = false) :
    candidate.gasSaved ≤ incumbent.gasSaved := by
  by_contra more
  have greater := Nat.compare_eq_gt.mpr (Nat.lt_of_not_le more)
  have better : nativeGateSelectionBetter candidate (some incumbent) = true := by
    simp only [nativeGateSelectionBetter, greater, Ordering.gt_then, beq_self_eq_true]
  rw [better] at worse
  cases worse

def relaxed (old : Option NativeGateSelectionState) (next : NativeGateSelectionState) :
    Option NativeGateSelectionState :=
  if nativeGateSelectionBetter next old then some next else old

theorem relaxed_some (old : Option NativeGateSelectionState) (next : NativeGateSelectionState) :
    ∃ state, relaxed old next = some state ∧ next.gasSaved ≤ state.gasSaved ∧
      (∀ previous, old = some previous → previous.gasSaved ≤ state.gasSaved) ∧
      (state = next ∨ old = some state) := by
  unfold relaxed
  cases better : nativeGateSelectionBetter next old with
  | true =>
    refine ⟨next, rfl, Nat.le_refl _, ?_, Or.inl rfl⟩
    intro previous same
    rw [same] at better
    exact better_gas better
  | false =>
    cases old with
    | none => cases better
    | some previous =>
      refine ⟨previous, rfl, not_better_gas better, ?_, Or.inr rfl⟩
      intro other same
      rw [Option.some.inj same]

section Pass

variable {candidate : NativeGateCandidate}

theorem offered_injective {left right : Nat × Nat}
    (same : offered candidate left = offered candidate right) : left = right := by
  have count := congrArg Prod.fst same
  have used := congrArg Prod.snd same
  simp only [offered] at count used
  apply Prod.ext <;> omega

theorem offer_elsewhere (dp : SelectionTable) {position target : Nat × Nat}
    (apart : offered candidate position ≠ target) : offer candidate dp position target = dp target := by
  unfold offer
  cases dp position with
  | none => rfl
  | some state =>
    dsimp only
    split_ifs
    · exact Function.update_of_ne apart.symm _ _
    · rfl

theorem offer_here {dp : SelectionTable} {position : Nat × Nat} {state : NativeGateSelectionState}
    (found : dp position = some state) :
    offer candidate dp position (offered candidate position) =
      relaxed (dp (offered candidate position)) (extended state candidate) := by
  unfold offer relaxed
  rw [found]
  dsimp only
  by_cases better : nativeGateSelectionBetter (extended state candidate)
      (dp (offered candidate position)) = true
  · rw [if_pos better, if_pos better]
    exact Function.update_self _ _ _
  · rw [if_neg better, if_neg better]

theorem offers_elsewhere (dp : SelectionTable) {positions : List (Nat × Nat)}
    {target : Nat × Nat} (apart : ∀ position ∈ positions, offered candidate position ≠ target) :
    positions.foldl (offer candidate) dp target = dp target := by
  induction positions generalizing dp with
  | nil => rfl
  | cons position positions ih =>
    rw [foldl_cons, ih _ (forall_mem_cons.mp apart).2]
    exact offer_elsewhere dp (apart position mem_cons_self)

/-- No cell is read after something was offered to it, or read twice. -/
def ReadsFirst (candidate : NativeGateCandidate) (positions : List (Nat × Nat)) : Prop :=
  positions.Pairwise fun earlier later => offered candidate earlier ≠ later ∧ earlier ≠ later

/-- The pass improves a cell from the old state of the cell that offers to it. -/
theorem offers_here {dp : SelectionTable} {positions : List (Nat × Nat)}
    (ordered : ReadsFirst candidate positions) {position : Nat × Nat}
    (mem : position ∈ positions) :
    positions.foldl (offer candidate) dp (offered candidate position) =
      match dp position with
      | none => dp (offered candidate position)
      | some state => relaxed (dp (offered candidate position)) (extended state candidate) := by
  induction positions generalizing dp with
  | nil => cases mem
  | cons first positions ih =>
    obtain ⟨before, later⟩ := pairwise_cons.mp ordered
    rw [foldl_cons]
    rcases mem_cons.mp mem with rfl | mem
    · rw [offers_elsewhere]
      · cases found : dp position with
        | none => simp only [offer, found]
        | some state => exact offer_here found
      · intro other inLater same
        exact (before other inLater).2 (offered_injective same).symm
    · obtain ⟨unread, apart⟩ := before position mem
      rw [ih later mem, offer_elsewhere dp unread,
        offer_elsewhere dp fun same => apart (offered_injective same)]

def loopPositions (maxCount usedBound : Nat) : List (Nat × Nat) :=
  (List.range maxCount).reverse.flatMap fun count =>
    (List.range usedBound).reverse.map (count, ·)

theorem mem_loop_positions {maxCount usedBound count used : Nat} :
    (count, used) ∈ loopPositions maxCount usedBound ↔ count < maxCount ∧ used < usedBound := by
  simp [loopPositions]

theorem loop_positions_read_first (maxCount usedBound : Nat) :
    ReadsFirst candidate (loopPositions maxCount usedBound) := by
  unfold ReadsFirst loopPositions
  rw [pairwise_flatMap]
  constructor
  · intro count mem
    rw [pairwise_map]
    apply (pairwise_reverse.mpr pairwise_lt_range).imp
    intro earlier later below
    constructor
    · intro same
      have counts := congrArg Prod.fst same
      simp [offered] at counts
    · intro same
      have used := congrArg Prod.snd same
      simp only at used
      omega
  · apply (pairwise_reverse.mpr pairwise_lt_range).imp
    intro earlier later below position inEarlier other inLater
    rcases mem_map.mp inEarlier with ⟨used, -, rfl⟩
    rcases mem_map.mp inLater with ⟨otherUsed, -, rfl⟩
    constructor
    · intro same
      have counts := congrArg Prod.fst same
      simp only [offered] at counts
      omega
    · intro same
      have counts := congrArg Prod.fst same
      simp only at counts
      omega

theorem consider_candidate_pass {maxCount budgetUnits : Nat} (dp : SelectionTable)
    (fits : costUnits candidate ≤ budgetUnits) :
    considerCandidate maxCount budgetUnits dp candidate =
      (loopPositions maxCount (budgetUnits - costUnits candidate + 1)).foldl (offer candidate)
        dp := by
  unfold considerCandidate loopPositions
  rw [if_neg (Nat.not_lt.mpr fits), foldl_flatMap]
  simp only [foldl_map]

end Pass

variable (chosen : List NativeGateCandidate)

def gasOf : Nat := (chosen.map (·.gasSaved)).sum

def bytesOf : Nat := (chosen.map (·.nativeBytes)).sum

def unitsOf : Nat := (chosen.map costUnits).sum

def stateOf : NativeGateSelectionState :=
  ⟨gasOf chosen, bytesOf chosen, chosen.map (·.gateIdx)⟩

/-- All savings and all sizes together are machine words. -/
structure Fits (candidates : List NativeGateCandidate) : Prop where
  gas : gasOf candidates < 2 ^ 64
  bytes : bytesOf candidates < 2 ^ 64

variable {chosen} {candidates : List NativeGateCandidate}

theorem gas_of_sublist (sublist : chosen.Sublist candidates) : gasOf chosen ≤ gasOf candidates := by
  apply (sublist.map _).sum_le_sum
  intro gas mem
  exact Nat.zero_le gas

theorem bytes_of_sublist (sublist : chosen.Sublist candidates) :
    bytesOf chosen ≤ bytesOf candidates := by
  apply (sublist.map _).sum_le_sum
  intro bytes mem
  exact Nat.zero_le bytes

theorem Fits.sublist (fits : Fits candidates) (sublist : chosen.Sublist candidates) :
    Fits chosen where
  gas := (gas_of_sublist sublist).trans_lt fits.gas
  bytes := (bytes_of_sublist sublist).trans_lt fits.bytes

theorem gas_of_snoc (chosen : List NativeGateCandidate) (next : NativeGateCandidate) :
    gasOf (chosen ++ [next]) = gasOf chosen + next.gasSaved := by
  simp [gasOf]

theorem units_of_snoc (chosen : List NativeGateCandidate) (next : NativeGateCandidate) :
    unitsOf (chosen ++ [next]) = unitsOf chosen + costUnits next := by
  simp [unitsOf]

theorem extended_state_of {next : NativeGateCandidate} (fits : Fits (chosen ++ [next])) :
    extended (stateOf chosen) next = stateOf (chosen ++ [next]) := by
  have gas := fits.gas
  have bytes := fits.bytes
  simp only [gasOf, bytesOf, map_append, map_cons, map_nil, sum_append,
    sum_cons, sum_nil, Nat.add_zero] at gas bytes
  simp only [extended, stateOf, gasOf, bytesOf, map_append, map_cons, map_nil, sum_append, sum_cons,
    sum_nil, Nat.add_zero, Nat.mod_eq_of_lt gas, Nat.mod_eq_of_lt bytes]

theorem sublist_snoc {first : List NativeGateCandidate} {next : NativeGateCandidate}
    (sublist : chosen.Sublist (first ++ [next])) :
    chosen.Sublist first ∨ ∃ earlier, earlier.Sublist first ∧ chosen = earlier ++ [next] := by
  obtain ⟨earlier, last, rfl, inFirst, inLast⟩ := sublist_append_iff.mp sublist
  rcases sublist_singleton.mp inLast with rfl | rfl
  · left
    rwa [append_nil]
  · exact Or.inr ⟨earlier, inFirst, rfl⟩

/-- Every state stands for a choice of its count and words, and no choice within
the bounds saves more than its cell. -/
structure HoldsBest (candidates : List NativeGateCandidate) (maxCount budgetUnits : Nat)
    (dp : SelectionTable) : Prop where
  sound : ∀ position state, dp position = some state → ∃ chosen, chosen.Sublist candidates ∧
    position = (chosen.length, unitsOf chosen) ∧ state = stateOf chosen
  best : ∀ chosen : List NativeGateCandidate, chosen.Sublist candidates →
    chosen.length ≤ maxCount → unitsOf chosen ≤ budgetUnits →
    ∃ state, dp (chosen.length, unitsOf chosen) = some state ∧ gasOf chosen ≤ state.gasSaved

theorem start_table_holds_best (maxCount budgetUnits : Nat) :
    HoldsBest [] maxCount budgetUnits startTable := by
  constructor
  · intro position state found
    unfold startTable at found
    split_ifs at found with origin
    exact ⟨[], List.Sublist.refl _, origin, (Option.some.inj found).symm⟩
  · intro chosen sublist _ _
    rw [sublist_nil.mp sublist]
    exact ⟨.default, rfl, Nat.le_refl 0⟩

section Step

variable {first : List NativeGateCandidate} {next : NativeGateCandidate}
  {maxCount budgetUnits : Nat} {dp : SelectionTable}

theorem considered_cell (target : Nat × Nat) :
    considerCandidate maxCount budgetUnits dp next target = dp target ∨
    ∃ position state, offered next position = target ∧ dp position = some state ∧
      considerCandidate maxCount budgetUnits dp next target =
        relaxed (dp target) (extended state next) := by
  by_cases fits : costUnits next ≤ budgetUnits
  · rw [consider_candidate_pass dp fits]
    by_cases offering : ∃ position ∈ loopPositions maxCount (budgetUnits - costUnits next + 1),
        offered next position = target
    · obtain ⟨position, mem, rfl⟩ := offering
      rw [offers_here (loop_positions_read_first _ _) mem]
      cases found : dp position with
      | none => exact Or.inl rfl
      | some state => exact Or.inr ⟨position, state, rfl, found, rfl⟩
    · left
      apply offers_elsewhere
      intro position mem same
      exact offering ⟨position, mem, same⟩
  · left
    unfold considerCandidate
    rw [if_pos (Nat.lt_of_not_le fits)]

theorem considered_grows {target : Nat × Nat} {state : NativeGateSelectionState}
    (found : dp target = some state) :
    ∃ later, considerCandidate maxCount budgetUnits dp next target = some later ∧
      state.gasSaved ≤ later.gasSaved := by
  rcases @considered_cell next maxCount budgetUnits dp target with same | ⟨position, source, -, -, improved⟩
  · exact ⟨state, same.trans found, Nat.le_refl _⟩
  · obtain ⟨later, kept, -, above, -⟩ := relaxed_some (dp target) (extended source next)
    exact ⟨later, improved.trans kept, above state found⟩

theorem consider_candidate_holds_best (fits : Fits (first ++ [next]))
    (holds : HoldsBest first maxCount budgetUnits dp) :
    HoldsBest (first ++ [next]) maxCount budgetUnits
      (considerCandidate maxCount budgetUnits dp next) := by
  constructor
  · intro target state found
    have earlier : ∀ {state}, dp target = some state → ∃ chosen : List NativeGateCandidate,
        chosen.Sublist (first ++ [next]) ∧ target = (chosen.length, unitsOf chosen) ∧
          state = stateOf chosen := by
      intro state old
      obtain ⟨chosen, sublist, place, same⟩ := holds.sound _ _ old
      exact ⟨chosen, sublist.trans (sublist_append_left _ _), place, same⟩
    rcases @considered_cell next maxCount budgetUnits dp target with same | ⟨position, source, place, offering, improved⟩
    · exact earlier (same.symm.trans found)
    · obtain ⟨later, kept, -, -, origin⟩ := relaxed_some (dp target) (extended source next)
      rw [improved, kept, Option.some.injEq] at found
      rw [← found]
      rcases origin with extension | old
      · obtain ⟨chosen, sublist, rfl, rfl⟩ := holds.sound _ _ offering
        have larger : (chosen ++ [next]).Sublist (first ++ [next]) :=
          sublist.append (List.Sublist.refl _)
        refine ⟨chosen ++ [next], larger, ?_, ?_⟩
        · rw [← place, units_of_snoc, length_append]
          rfl
        · rw [extension, extended_state_of (fits.sublist larger)]
      · exact earlier old
  · intro chosen sublist counted bounded
    rcases sublist_snoc sublist with inFirst | ⟨earlier, inFirst, rfl⟩
    · obtain ⟨state, found, saved⟩ := holds.best chosen inFirst counted bounded
      obtain ⟨later, kept, above⟩ := considered_grows found
      exact ⟨later, kept, saved.trans above⟩
    · rw [length_append, length_singleton] at counted
      rw [units_of_snoc] at bounded
      have affordable : costUnits next ≤ budgetUnits := by omega
      obtain ⟨state, found, saved⟩ := holds.best earlier inFirst (by omega) (by omega)
      obtain ⟨source, inSource, -, rfl⟩ := holds.sound _ _ found
      have mem : (earlier.length, unitsOf earlier) ∈
          loopPositions maxCount (budgetUnits - costUnits next + 1) := by
        apply mem_loop_positions.mpr
        omega
      have extension := extended_state_of
        (fits.sublist (inSource.append (List.Sublist.refl [next])))
      obtain ⟨later, kept, above, -, -⟩ := relaxed_some
        (dp (offered next (earlier.length, unitsOf earlier))) (extended (stateOf source) next)
      use later
      constructor
      · have place : ((earlier ++ [next]).length, unitsOf (earlier ++ [next])) =
            offered next (earlier.length, unitsOf earlier) := by
          rw [units_of_snoc, length_append]
          rfl
        rw [place, consider_candidate_pass dp affordable,
          offers_here (loop_positions_read_first _ _) mem, found]
        exact kept
      · rw [extension] at above
        have total : gasOf (source ++ [next]) ≤ later.gasSaved := above
        have saving : gasOf earlier ≤ gasOf source := saved
        rw [gas_of_snoc] at total ⊢
        omega

end Step

theorem selection_table_holds_best (fits : Fits candidates) (maxCount budgetUnits : Nat) :
    HoldsBest candidates maxCount budgetUnits
      (candidates.foldl (considerCandidate maxCount budgetUnits) startTable) := by
  induction candidates using List.reverseRecOn with
  | nil => exact start_table_holds_best maxCount budgetUnits
  | append_singleton first next ih =>
    rw [foldl_append, foldl_cons, foldl_nil]
    apply consider_candidate_holds_best fits
    exact ih (fits.sublist (sublist_append_left _ _))

theorem keep_better_run (states : List NativeGateSelectionState)
    (best : NativeGateSelectionState) :
    (states.foldl keepBetter best = best ∨ states.foldl keepBetter best ∈ states) ∧
      best.gasSaved ≤ (states.foldl keepBetter best).gasSaved ∧
      ∀ state ∈ states, state.gasSaved ≤ (states.foldl keepBetter best).gasSaved := by
  induction states generalizing best with
  | nil => exact ⟨Or.inl rfl, Nat.le_refl _, fun state absent => absurd absent not_mem_nil⟩
  | cons state states ih =>
    obtain ⟨origin, above, all⟩ := ih (keepBetter best state)
    have step : (keepBetter best state = best ∨ keepBetter best state = state) ∧
        best.gasSaved ≤ (keepBetter best state).gasSaved ∧
        state.gasSaved ≤ (keepBetter best state).gasSaved := by
      unfold keepBetter
      cases better : nativeGateSelectionBetter state (some best) with
      | true => exact ⟨Or.inr rfl, better_gas better, Nat.le_refl _⟩
      | false => exact ⟨Or.inl rfl, Nat.le_refl _, not_better_gas better⟩
    rw [foldl_cons]
    refine ⟨?_, step.2.1.trans above, ?_⟩
    · rcases origin with kept | later
      · rw [kept]
        rcases step.1 with same | same
        · exact Or.inl same
        · rw [same]
          exact Or.inr mem_cons_self
      · exact Or.inr (mem_cons_of_mem state later)
    · intro other mem
      rcases mem_cons.mp mem with rfl | later
      · exact step.2.2.trans above
      · exact all other later

/-- The selection stands for a choice within the bounds, and none saves more. -/
theorem selected_choice (fits : Fits candidates) {maxCount byteBudget : Nat}
    (pos : ¬ (maxCount = 0 ∨ byteBudget = 0)) :
    ∃ chosen : List NativeGateCandidate, chosen.Sublist (eligible candidates) ∧
      chosen.length ≤ maxCount ∧ unitsOf chosen ≤ units byteBudget ∧
      selectNativeGateCandidates candidates maxCount byteBudget = stateOf chosen ∧
      ∀ other : List NativeGateCandidate, other.Sublist (eligible candidates) →
        other.length ≤ maxCount → unitsOf other ≤ units byteBudget →
        gasOf other ≤ gasOf chosen := by
  have eligibleFits : Fits (eligible candidates) := fits.sublist filter_sublist
  have holds := selection_table_holds_best eligibleFits maxCount (units byteBudget)
  obtain ⟨origin, -, all⟩ := keep_better_run ((cells maxCount (units byteBudget)).filterMap
    (selectionTable candidates maxCount (units byteBudget))) .default
  have selected : selectNativeGateCandidates candidates maxCount byteBudget =
      ((cells maxCount (units byteBudget)).filterMap
        (selectionTable candidates maxCount (units byteBudget))).foldl keepBetter .default := by
    unfold selectNativeGateCandidates
    rw [if_neg pos]
  rw [← selected] at origin all
  have choice : ∃ chosen : List NativeGateCandidate, chosen.Sublist (eligible candidates) ∧
      chosen.length ≤ maxCount ∧ unitsOf chosen ≤ units byteBudget ∧
      selectNativeGateCandidates candidates maxCount byteBudget = stateOf chosen := by
    rcases origin with start | mem
    · exact ⟨[], nil_sublist _, Nat.zero_le _, Nat.zero_le _, start⟩
    · obtain ⟨position, inCells, found⟩ := mem_filterMap.mp mem
      obtain ⟨chosen, sublist, rfl, same⟩ := holds.sound _ _ found
      simp only [cells, mem_flatMap, mem_map, mem_range, Prod.mk.injEq] at inCells
      obtain ⟨count, counted, used, bounded, rfl, rfl⟩ := inCells
      exact ⟨chosen, sublist, by omega, by omega, same⟩
  obtain ⟨chosen, sublist, counted, bounded, same⟩ := choice
  refine ⟨chosen, sublist, counted, bounded, same, ?_⟩
  intro other inOther otherCounted otherBounded
  obtain ⟨state, found, saved⟩ := holds.best other inOther otherCounted otherBounded
  have scanned : state ∈ (cells maxCount (units byteBudget)).filterMap
      (selectionTable candidates maxCount (units byteBudget)) := by
    apply mem_filterMap.mpr
    refine ⟨_, ?_, found⟩
    simp only [cells, mem_flatMap, mem_map, mem_range, Prod.mk.injEq]
    exact ⟨other.length, by omega, unitsOf other, by omega, rfl, rfl⟩
  have above := all state scanned
  rw [same] at above
  exact saved.trans above

theorem eligible_gas {other : List NativeGateCandidate}
    (sized : ∀ candidate ∈ other, 0 < candidate.nativeBytes) :
    gasOf (eligible other) = gasOf other := by
  induction other with
  | nil => rfl
  | cons candidate other ih =>
    have later := ih (forall_mem_cons.mp sized).2
    have size := sized candidate mem_cons_self
    by_cases saves : candidate.gasSaved > 0
    · have kept : eligible (candidate :: other) = candidate :: eligible other :=
        filter_cons_of_pos (decide_eq_true ⟨saves, size⟩)
      rw [kept]
      exact congrArg (candidate.gasSaved + ·) later
    · have dropped : eligible (candidate :: other) = eligible other :=
        filter_cons_of_neg fun kept => saves (of_decide_eq_true kept).1
      have none : candidate.gasSaved = 0 := by omega
      rw [dropped, later]
      simp [gasOf, none]

theorem units_of_sublist {chosen : List NativeGateCandidate} (sublist : chosen.Sublist candidates) :
    unitsOf chosen ≤ unitsOf candidates := by
  apply (sublist.map _).sum_le_sum
  intro units mem
  exact Nat.zero_le units

theorem bytes_le_units (chosen : List NativeGateCandidate) :
    bytesOf chosen ≤ byteUnit * unitsOf chosen := by
  induction chosen with
  | nil => exact Nat.zero_le _
  | cons candidate chosen ih =>
    have one : candidate.nativeBytes ≤ byteUnit * costUnits candidate := by
      unfold costUnits units byteUnit
      omega
    simp only [bytesOf, unitsOf, map_cons, sum_cons] at ih ⊢
    rw [Nat.mul_add]
    omega

/-- The selection is the best choice when sizes and budget count in words. -/
theorem native_gate_selection {candidates : List NativeGateCandidate} (fits : Fits candidates)
    (maxCount byteBudget : Nat) :
    ∃ chosen : List NativeGateCandidate, chosen.Sublist candidates ∧
      selectNativeGateCandidates candidates maxCount byteBudget = stateOf chosen ∧
      (∀ candidate ∈ chosen, 0 < candidate.gasSaved ∧ 0 < candidate.nativeBytes) ∧
      chosen.length ≤ maxCount ∧ unitsOf chosen ≤ units byteBudget ∧
      bytesOf chosen < byteBudget + byteUnit ∧
      ∀ other : List NativeGateCandidate, other.Sublist candidates →
        (∀ candidate ∈ other, 0 < candidate.nativeBytes) → other.length ≤ maxCount →
        unitsOf other ≤ units byteBudget → gasOf other ≤ gasOf chosen := by
  by_cases trivial : maxCount = 0 ∨ byteBudget = 0
  · have empty : ∀ other : List NativeGateCandidate, other.length ≤ maxCount →
        unitsOf other ≤ units byteBudget → other = [] := by
      intro other counted bounded
      rcases trivial with none | none
      · rw [none] at counted
        exact length_eq_zero_iff.mp (Nat.le_zero.mp counted)
      · rw [none] at bounded
        cases other with
        | nil => rfl
        | cons candidate other =>
          have one : 1 ≤ costUnits candidate := Nat.le_max_right _ 1
          simp only [unitsOf, map_cons, sum_cons, units, byteUnit] at bounded
          omega
    refine ⟨[], nil_sublist _, if_pos trivial, ?_, Nat.zero_le _, Nat.zero_le _, ?_, ?_⟩
    · intro candidate absent
      cases absent
    · exact Nat.add_pos_right byteBudget (by decide)
    · intro other _ _ counted bounded
      rw [empty other counted bounded]
  · obtain ⟨chosen, sublist, counted, bounded, selected, best⟩ := selected_choice fits trivial
    refine ⟨chosen, sublist.trans filter_sublist, selected, ?_, counted, bounded, ?_, ?_⟩
    · intro candidate mem
      exact of_decide_eq_true (mem_filter.mp (sublist.subset mem)).2
    · have total := bytes_le_units chosen
      unfold units byteUnit at bounded
      unfold byteUnit at total ⊢
      omega
    · intro other inCandidates sized otherCounted otherBounded
      have kept : (eligible other).Sublist other := filter_sublist
      rw [← eligible_gas sized]
      apply best
      · exact inCandidates.filter _
      · exact kept.length_le.trans otherCounted
      · exact (units_of_sublist kept).trans otherBounded

theorem native_gate_selection_three :
    ∃ chosen : List NativeGateCandidate,
      chosen.Sublist [⟨0, 320, 100⟩, ⟨1, 160, 60⟩, ⟨2, 160, 55⟩] ∧
      selectNativeGateCandidates [⟨0, 320, 100⟩, ⟨1, 160, 60⟩, ⟨2, 160, 55⟩] 2 320 =
        stateOf chosen ∧
      (∀ candidate ∈ chosen, 0 < candidate.gasSaved ∧ 0 < candidate.nativeBytes) ∧
      chosen.length ≤ 2 ∧ unitsOf chosen ≤ units 320 ∧ bytesOf chosen < 320 + byteUnit ∧
      ∀ other : List NativeGateCandidate,
        other.Sublist [⟨0, 320, 100⟩, ⟨1, 160, 60⟩, ⟨2, 160, 55⟩] →
        (∀ candidate ∈ other, 0 < candidate.nativeBytes) → other.length ≤ 2 →
        unitsOf other ≤ units 320 → gasOf other ≤ gasOf chosen :=
  native_gate_selection ⟨by decide, by decide⟩ 2 320

/-- A budget of 33 bytes buys 64, and two gates of 16 bytes do not share a word
of 32. -/
theorem rounding_breaks_the_budget :
    (selectNativeGateCandidates [⟨0, 64, 1⟩] 1 33).nativeBytes = 64 ∧
    (selectNativeGateCandidates [⟨0, 16, 5⟩, ⟨1, 16, 5⟩] 2 32).gasSaved = 5 ∧
    bytesOf [⟨0, 16, 5⟩, ⟨1, 16, 5⟩] = 32 ∧ gasOf [⟨0, 16, 5⟩, ⟨1, 16, 5⟩] = 10 := by
  decide

end Midfall.QuotientNativeGates
