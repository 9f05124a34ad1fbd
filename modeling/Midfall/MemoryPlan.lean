import Mathlib

/-!
# Memory maps of the generated verifier

The generator places every region of verifier memory at a fixed address and
records the phase in which it is live. `MemoryMap::validate` rejects a map when
two regions that can be live together share a byte, when a region is not made
of whole words, or when it touches the memory that Solidity reserves. The
scratch allocator lets phases reuse the same bytes.
-/

namespace Midfall.MemoryPlan

open List hiding Disjoint

def wordBytes : Nat := 0x20
def solidityScratchSpaceBytes : Nat := 0x40
def solidityZeroSlot : Nat := 0x60
def solidityReservedMemoryBytes : Nat := 0x80

def nextMultipleOf (value unit : Nat) : Nat := (value + (unit - 1)) / unit * unit

inductive MemoryPhase where
  | vkConstructorPayload
  | constructorSmoke
  | transcript
  | scalarInv
  | lagrangeBatchInvert
  | quotientVm
  | pcsFixed
  | pcsQEvalSourceTable
  | pcsQComTrace
  | pcsFinalMsm
  | pcsPairing
  | accumulatorMsm
  | accumulatorPairingBatch
  | finalPairing
  | verifierReturn
  | quotientReturn
  deriving DecidableEq, Repr

inductive MemoryLifetime where
  | permanent
  | phase (phase : MemoryPhase)
  deriving DecidableEq, Repr

/-- Return whether two lifetimes can be live at the same time. -/
def MemoryLifetime.intersects : MemoryLifetime → MemoryLifetime → Bool
  | .permanent, _ | _, .permanent => true
  | .phase lhs, .phase rhs => lhs == rhs

structure MemoryRegion where
  name : String
  start : Nat
  len : Nat
  lifetime : MemoryLifetime
  deriving DecidableEq, Repr

namespace MemoryRegion

def endOffset (region : MemoryRegion) : Nat := region.start + region.len

def overlaps (lhs rhs : MemoryRegion) : Bool :=
  lhs.len != 0 && rhs.len != 0 && decide (lhs.start < rhs.endOffset) &&
    decide (rhs.start < lhs.endOffset)

end MemoryRegion

def hex (value : Nat) : String := "0x" ++ String.ofList (Nat.toDigits 16 value)

/-- The part of reserved memory that an address falls in. -/
def reservedName (start : Nat) : String :=
  if start < solidityScratchSpaceBytes then "scratch space"
  else if start < solidityZeroSlot then "free-memory pointer"
  else "zero slot"

def MemoryRegion.check (region : MemoryRegion) : Except String Unit :=
  if region.len ≠ 0 ∧ region.start < solidityReservedMemoryBytes then
    .error s!"memory region {region.name} starts at {hex region.start}, inside Solidity-reserved {reservedName region.start} memory [0x00..{hex solidityReservedMemoryBytes})"
  else if region.start % wordBytes ≠ 0 then
    .error s!"memory region {region.name} starts at unaligned byte offset {hex region.start}"
  else if region.len % wordBytes ≠ 0 then
    .error s!"memory region {region.name} has unaligned length {hex region.len}"
  else .ok ()

def MemoryRegion.checkPair (lhs rhs : MemoryRegion) : Except String Unit :=
  if lhs.overlaps rhs && lhs.lifetime.intersects rhs.lifetime then
    .error s!"memory region {lhs.name} [{hex lhs.start}..{hex lhs.endOffset}) overlaps {rhs.name} [{hex rhs.start}..{hex rhs.endOffset})"
  else .ok ()

structure MemoryMap where
  regions : List MemoryRegion := []
  deriving DecidableEq, Repr

def checkPairs : List MemoryRegion → Except String Unit
  | [] => .ok ()
  | lhs :: rest => do
    rest.forM lhs.checkPair
    checkPairs rest

/-- Validate alignment, Solidity reserved-memory rules, and live overlap. -/
def MemoryMap.validate (map : MemoryMap) : Except String Unit := do
  map.regions.forM MemoryRegion.check
  checkPairs map.regions

def MemoryRegion.bytes (region : MemoryRegion) : Set Nat := Set.Ico region.start region.endOffset

def MemoryLifetime.LiveIn (lifetime : MemoryLifetime) (phase : MemoryPhase) : Prop :=
  lifetime = .permanent ∨ lifetime = .phase phase

/-- Whole words, outside reserved memory, and apart from every other region that
is live in the same phase. -/
structure MemoryMap.Safe (map : MemoryMap) : Prop where
  aligned : ∀ region ∈ map.regions, wordBytes ∣ region.start ∧ wordBytes ∣ region.len
  unreserved : ∀ region ∈ map.regions, ∀ byte ∈ region.bytes, solidityReservedMemoryBytes ≤ byte
  disjoint : ∀ phase, map.regions.Pairwise fun lhs rhs =>
    lhs.lifetime.LiveIn phase → rhs.lifetime.LiveIn phase → Disjoint lhs.bytes rhs.bytes

theorem intersects_iff_live_together (lhs rhs : MemoryLifetime) :
    lhs.intersects rhs = true ↔ ∃ phase, lhs.LiveIn phase ∧ rhs.LiveIn phase := by
  cases lhs with
  | permanent =>
    cases rhs with
    | permanent =>
      simp only [MemoryLifetime.intersects, MemoryLifetime.LiveIn, true_iff]
      exact ⟨.transcript, .inl trivial, .inl trivial⟩
    | phase right => simp [MemoryLifetime.intersects, MemoryLifetime.LiveIn]
  | phase left =>
    cases rhs with
    | permanent => simp [MemoryLifetime.intersects, MemoryLifetime.LiveIn]
    | phase right =>
      simp only [MemoryLifetime.intersects, MemoryLifetime.LiveIn, beq_iff_eq, reduceCtorEq,
        false_or, MemoryLifetime.phase.injEq]
      constructor
      · intro same
        exact ⟨left, rfl, same.symm⟩
      · rintro ⟨phase, rfl, same⟩
        exact same.symm

theorem overlaps_iff_share_bytes (lhs rhs : MemoryRegion) :
    lhs.overlaps rhs = true ↔ ¬ Disjoint lhs.bytes rhs.bytes := by
  unfold MemoryRegion.bytes MemoryRegion.overlaps
  rw [Set.Ico_disjoint_Ico]
  simp only [Bool.and_eq_true, bne_iff_ne, decide_eq_true_eq]
  unfold MemoryRegion.endOffset
  omega

theorem for_each_ok_iff {Entry : Type} (entries : List Entry)
    (check : Entry → Except String Unit) :
    entries.forM check = .ok () ↔ ∀ entry ∈ entries, check entry = .ok () := by
  induction entries with
  | nil => simp [pure, Except.pure]
  | cons entry entries ih =>
    rw [forall_mem_cons, ← ih]
    change (check entry >>= fun _ => entries.forM check) = .ok () ↔ _
    cases outcome : check entry with
    | error message => simp [bind, Except.bind]
    | ok value => simp [bind, Except.bind]

theorem seq_ok_iff (first next : Except String Unit) :
    (first >>= fun _ => next) = .ok () ↔ first = .ok () ∧ next = .ok () := by
  cases first with
  | error message => simp [bind, Except.bind]
  | ok value => simp [bind, Except.bind]

theorem check_ok_iff (region : MemoryRegion) :
    region.check = .ok () ↔
      (wordBytes ∣ region.start ∧ wordBytes ∣ region.len) ∧
        ∀ byte ∈ region.bytes, solidityReservedMemoryBytes ≤ byte := by
  have bytesAbove : (∀ byte ∈ region.bytes, solidityReservedMemoryBytes ≤ byte) ↔
      ¬ (region.len ≠ 0 ∧ region.start < solidityReservedMemoryBytes) := by
    simp only [MemoryRegion.bytes, MemoryRegion.endOffset, Set.mem_Ico]
    constructor
    · rintro above ⟨nonempty, below⟩
      exact absurd (above region.start ⟨le_refl _, by omega⟩) (by omega)
    · rintro outside byte ⟨lower, upper⟩
      omega
  rw [bytesAbove, Nat.dvd_iff_mod_eq_zero, Nat.dvd_iff_mod_eq_zero]
  unfold MemoryRegion.check
  split_ifs with reserved start len
  · simp [reserved]
  · simp [start]
  · simp [len]
  · simp only [true_iff]
    exact ⟨⟨not_not.mp start, not_not.mp len⟩, reserved⟩

theorem check_pair_ok_iff (lhs rhs : MemoryRegion) :
    lhs.checkPair rhs = .ok () ↔
      ∀ phase, lhs.lifetime.LiveIn phase → rhs.lifetime.LiveIn phase →
        Disjoint lhs.bytes rhs.bytes := by
  have rejected : (lhs.overlaps rhs && lhs.lifetime.intersects rhs.lifetime) = true ↔
      ∃ phase, (lhs.lifetime.LiveIn phase ∧ rhs.lifetime.LiveIn phase) ∧
        ¬ Disjoint lhs.bytes rhs.bytes := by
    rw [Bool.and_eq_true, overlaps_iff_share_bytes, intersects_iff_live_together,
      exists_and_right, and_comm]
  unfold MemoryRegion.checkPair
  split_ifs with clash
  · obtain ⟨phase, ⟨left, right⟩, shared⟩ := rejected.mp clash
    simp only [false_iff]
    intro apart
    exact shared (apart phase left right)
  · simp only [true_iff]
    intro phase left right
    by_contra shared
    exact clash (rejected.mpr ⟨phase, ⟨left, right⟩, shared⟩)

theorem check_pairs_ok_iff (regions : List MemoryRegion) :
    checkPairs regions = .ok () ↔
      ∀ phase, regions.Pairwise fun lhs rhs =>
        lhs.lifetime.LiveIn phase → rhs.lifetime.LiveIn phase →
          Disjoint lhs.bytes rhs.bytes := by
  induction regions with
  | nil => simp [checkPairs]
  | cons lhs rest ih =>
    simp only [checkPairs, seq_ok_iff, for_each_ok_iff, check_pair_ok_iff, ih, pairwise_cons]
    constructor
    · rintro ⟨first, others⟩ phase
      exact ⟨fun rhs mem => first rhs mem phase, others phase⟩
    · intro apart
      exact ⟨fun rhs mem phase => (apart phase).1 rhs mem, fun phase => (apart phase).2⟩

theorem validate_ok_iff_safe (map : MemoryMap) : map.validate = .ok () ↔ map.Safe := by
  unfold MemoryMap.validate
  rw [seq_ok_iff, for_each_ok_iff, check_pairs_ok_iff]
  simp only [check_ok_iff]
  constructor
  · rintro ⟨checks, apart⟩
    exact ⟨fun region mem => (checks region mem).1,
      fun region mem => (checks region mem).2, apart⟩
  · rintro ⟨aligned, unreserved, apart⟩
    exact ⟨fun region mem => ⟨aligned region mem, unreserved region mem⟩, apart⟩

theorem validate_rejects_unsafe (map : MemoryMap) (violated : ¬ map.Safe) :
    ∃ message, map.validate = .error message := by
  cases outcome : map.validate with
  | error message => exact ⟨message, rfl⟩
  | ok value => exact absurd ((validate_ok_iff_safe map).mp outcome) violated

structure MemoryArena where
  map : MemoryMap := {}
  deriving DecidableEq, Repr

abbrev Planner := StateM MemoryArena

/-- Register a region at an explicit byte address. -/
def allocFixed (name : String) (start len : Nat) (lifetime : MemoryLifetime) : Planner Nat := do
  modify fun arena => { map := { regions := arena.map.regions ++ [{ name, start, len, lifetime }] } }
  return start

/-- Register a region after an anchor range, rounded up to the next word. -/
def allocAfter (name : String) (anchorStart anchorLen len : Nat) (lifetime : MemoryLifetime) :
    Planner Nat :=
  allocFixed name (nextMultipleOf (anchorStart + anchorLen) wordBytes) len lifetime

def allocPhaseScratch (name : String) (start len : Nat) (phase : MemoryPhase) : Planner Nat :=
  allocFixed name start len (.phase phase)

/-- Phase-aware scratch allocator: each phase has its own cursor from `base`. -/
structure ScratchAllocator where
  base : Nat
  cursors : List (MemoryPhase × Nat) := []
  deriving DecidableEq, Repr

namespace ScratchAllocator

def cursor (scratch : ScratchAllocator) (phase : MemoryPhase) : Nat :=
  (scratch.cursors.lookup phase).getD scratch.base

/-- Allocate phase-scoped scratch from this allocator's base. -/
def allocPhaseScratch (name : String) (len : Nat) (phase : MemoryPhase) :
    StateT ScratchAllocator Planner Nat := do
  let scratch ← get
  let start := scratch.cursor phase
  let advanced := (phase, nextMultipleOf (start + len) wordBytes)
  set { scratch with cursors := advanced :: scratch.cursors }
  MemoryPlan.allocPhaseScratch name start len phase

end ScratchAllocator

def withScratch {Result : Type} (base : Nat)
    (allocate : StateT ScratchAllocator Planner Result) : Planner Result :=
  allocate.run' { base }

theorem le_next_multiple_of (value : Nat) : value ≤ nextMultipleOf value wordBytes := by
  unfold nextMultipleOf wordBytes
  omega

theorem dvd_next_multiple_of (value : Nat) : wordBytes ∣ nextMultipleOf value wordBytes := by
  exact Nat.dvd_mul_left _ _

namespace ScratchAllocator

/-- What an allocator leaves in an arena: a safe map, and every phase's cursor in whole words past
the regions that live in it. -/
structure Covers (scratch : ScratchAllocator) (regions : List MemoryRegion) : Prop where
  safe : MemoryMap.Safe { regions }
  above : solidityReservedMemoryBytes ≤ scratch.base
  cursor_aligned : ∀ phase, wordBytes ∣ scratch.cursor phase
  base_le_cursor : ∀ phase, scratch.base ≤ scratch.cursor phase
  ended : ∀ region ∈ regions, ∀ phase, region.lifetime.LiveIn phase →
    region.endOffset ≤ scratch.cursor phase

def nextRegion (scratch : ScratchAllocator) (name : String) (len : Nat) (phase : MemoryPhase) :
    MemoryRegion :=
  { name, start := scratch.cursor phase, len, lifetime := .phase phase }

def advance (scratch : ScratchAllocator) (len : Nat) (phase : MemoryPhase) : ScratchAllocator :=
  { scratch with
    cursors := (phase, nextMultipleOf (scratch.cursor phase + len) wordBytes) :: scratch.cursors }

theorem advance_cursor (scratch : ScratchAllocator) (len : Nat) (phase other : MemoryPhase) :
    (scratch.advance len phase).cursor other =
      if other = phase then nextMultipleOf (scratch.cursor phase + len) wordBytes
      else scratch.cursor other := by
  unfold cursor advance
  by_cases same : other = phase
  · rw [if_pos same, same, lookup_cons_self]
    rfl
  · rw [if_neg same, lookup_cons]
    simp [beq_false_of_ne same]

theorem cursor_le_advance (scratch : ScratchAllocator) (len : Nat) (phase other : MemoryPhase) :
    scratch.cursor other ≤ (scratch.advance len phase).cursor other := by
  rw [advance_cursor]
  split_ifs with same
  · rw [same]
    exact le_trans (Nat.le_add_right _ _) (le_next_multiple_of _)
  · exact le_refl _

theorem covers_next {scratch : ScratchAllocator} {regions : List MemoryRegion}
    (covers : scratch.Covers regions) (name : String) {len : Nat} (phase : MemoryPhase)
    (whole : wordBytes ∣ len) :
    (scratch.advance len phase).Covers (regions ++ [scratch.nextRegion name len phase]) where
  safe := by
    refine ⟨?_, ?_, ?_⟩
    · rw [forall_mem_append, forall_mem_singleton]
      exact ⟨covers.safe.aligned, covers.cursor_aligned phase, whole⟩
    · rw [forall_mem_append, forall_mem_singleton]
      exact ⟨covers.safe.unreserved, fun byte inside =>
        covers.above.trans ((covers.base_le_cursor phase).trans inside.1)⟩
    · intro live
      refine pairwise_append.mpr ⟨covers.safe.disjoint live, pairwise_singleton _ _, ?_⟩
      intro earlier mem new isNew liveEarlier liveNew
      rw [mem_singleton.mp isNew] at liveNew ⊢
      have samePhase : phase = live := by
        simpa [MemoryLifetime.LiveIn, nextRegion] using liveNew
      have past := covers.ended earlier mem live liveEarlier
      rw [← samePhase] at past
      exact Set.disjoint_left.mpr fun byte before after =>
        absurd (before.2.trans_le past) (not_lt.mpr after.1)
  above := covers.above
  cursor_aligned := by
    intro other
    rw [advance_cursor]
    split_ifs with same
    · exact dvd_next_multiple_of _
    · exact covers.cursor_aligned other
  base_le_cursor := fun other =>
    (covers.base_le_cursor other).trans (cursor_le_advance scratch len phase other)
  ended := by
    rw [forall_mem_append, forall_mem_singleton]
    constructor
    · exact fun region mem live lives =>
        (covers.ended region mem live lives).trans (cursor_le_advance scratch len phase live)
    · intro live lives
      have samePhase : phase = live := by
        simpa [MemoryLifetime.LiveIn, nextRegion] using lives
      rw [advance_cursor, if_pos samePhase.symm]
      exact le_next_multiple_of _

abbrev Request := String × Nat × MemoryPhase

def allocateAll (requests : List Request) : StateT ScratchAllocator Planner Unit :=
  requests.forM fun request => do
    let _ ← allocPhaseScratch request.1 request.2.1 request.2.2

theorem allocate_all_cons (request : Request) (requests : List Request) (scratch : ScratchAllocator)
    (arena : MemoryArena) :
    ((allocateAll (request :: requests)).run scratch).run arena =
      ((allocateAll requests).run (scratch.advance request.2.1 request.2.2)).run
        { map := { regions := arena.map.regions ++
          [scratch.nextRegion request.1 request.2.1 request.2.2] } } := rfl

theorem allocate_all_registered (requests : List Request) (scratch : ScratchAllocator) (arena : MemoryArena) :
    ∃ added, (((allocateAll requests).run scratch).run arena).2.map.regions = arena.map.regions ++ added ∧
      added.map (·.len) = requests.map (·.2.1) := by
  induction requests generalizing scratch arena with
  | nil => exact ⟨[], (append_nil _).symm, rfl⟩
  | cons request requests ih =>
    rw [allocate_all_cons]
    rcases ih _ _ with ⟨added, registered, lens⟩
    refine ⟨scratch.nextRegion request.1 request.2.1 request.2.2 :: added, ?_, ?_⟩
    · rw [registered, append_assoc, singleton_append]
    · rw [map_cons, map_cons, lens, nextRegion]

theorem allocate_all_safe {requests : List Request} {scratch : ScratchAllocator} {arena : MemoryArena}
    (covers : scratch.Covers arena.map.regions) (whole : ∀ request ∈ requests, wordBytes ∣ request.2.1) :
    (((allocateAll requests).run scratch).run arena).2.map.Safe := by
  induction requests generalizing scratch arena with
  | nil => exact covers.safe
  | cons request requests ih =>
    rw [forall_mem_cons] at whole
    rw [allocate_all_cons]
    exact ih (covers_next covers request.1 request.2.2 whole.1) whole.2

/-- Above everything planned so far an allocator keeps the map valid, whatever phases its requests
mix, exactly when they are in whole words. -/
theorem with_scratch_validates_iff {arena : MemoryArena} {base : Nat} (valid : arena.map.validate = .ok ())
    (ended : ∀ region ∈ arena.map.regions, region.endOffset ≤ base) (aligned : wordBytes ∣ base)
    (above : solidityReservedMemoryBytes ≤ base) (requests : List Request) :
    ((withScratch base (allocateAll requests)).run arena).2.map.validate = .ok () ↔
      ∀ request ∈ requests, wordBytes ∣ request.2.1 := by
  rw [validate_ok_iff_safe] at valid ⊢
  constructor
  · intro safe
    rcases allocate_all_registered requests { base } arena with ⟨added, registered, lens⟩
    rw [← forall_mem_map, ← lens, forall_mem_map]
    intro region mem
    exact (safe.aligned region (registered ▸ mem_append_right _ mem)).2
  · exact allocate_all_safe ⟨valid, above, fun _ => aligned, fun _ => le_rfl,
      fun region mem _ _ => ended region mem⟩

theorem scratch_phases_validate : ((withScratch 160 (allocateAll
    [("inputs", 64, .transcript), ("pairs", 32, .transcript), ("terms", 96, .pcsPairing)])).run
      { map := { regions := [⟨"slot", 128, 32, .permanent⟩] } }).2.map.validate = .ok () :=
  (with_scratch_validates_iff rfl (by decide) (by decide) (by decide) _).mpr (by decide)

end ScratchAllocator

end Midfall.MemoryPlan
