import Midfall.ProtocolConsistency
import Midfall.VerifierMemory

/-!
# Handles of proof data in verifier memory

`Data::new` binds the protocol plan to memory: each commitment to the pointer of
its padded point and each proof evaluation to the pointer of its decoded word.
`queries` resolves the planned openings to such handles. Two commitments are the
same to the generator when their pointers are. The tables that `Data` keeps for
each family of evaluations are one table keyed by the planned read, and a panic
on a missing entry is `none`.
-/

namespace Midfall.VerifierData

open PlonkConstraintSystem ProtocolLowering MemoryPlan
open List hiding set
open VerifierMemory

inductive Location where
  | calldata
  | memory
  deriving DecidableEq, Repr

/-- A byte offset, or a Yul identifier with a byte offset. -/
inductive Value where
  | integer (offset : Int)
  | identifier (name : String) (offset : Int)
  deriving DecidableEq, Repr

def Value.addWords : Value → Nat → Value
  | .integer offset, words => .integer (offset + words * wordBytes)
  | .identifier name offset, words => .identifier name (offset + words * wordBytes)

structure Ptr where
  loc : Location
  value : Value
  deriving DecidableEq, Repr

namespace Ptr

def memory (value : Value) : Ptr := { loc := .memory, value }

def at_ (address : Nat) : Ptr := memory (.integer address)

def addWords (ptr : Ptr) (words : Nat) : Ptr := { ptr with value := ptr.value.addWords words }

end Ptr

structure Word where
  ptr : Ptr
  deriving DecidableEq, Repr

/-- Padded point handle, named by its first word. -/
structure EcPoint where
  base : Ptr
  deriving DecidableEq, Repr

/-- The first words of `Word::range`. -/
def Word.range (start : Ptr) (count : Nat) : List Word :=
  (List.range count).map fun index => { ptr := start.addWords index }

/-- The first points of `EcPoint::range`. -/
def EcPoint.range (start : Ptr) (count : Nat) : List EcPoint :=
  (List.range count).map fun index => { base := start.addWords (g1Words * index) }

structure Data where
  fixedComms : List EcPoint
  permutationComms : List (AnyColumn × EcPoint)
  adviceComms : List EcPoint
  committedInstanceComms : List EcPoint
  permutationZComms : List EcPoint
  lookupMComms : List EcPoint
  lookupHelperComms : List (List EcPoint)
  lookupZComms : List EcPoint
  trashcanComms : List EcPoint
  mainEvals : List (EvalRead × Word)
  computedQuotientComm : EcPoint
  computedQuotientEval : Word
  reversedEvalsMptr : Ptr
  dummyEvalWords : List Word
  deriving DecidableEq, Repr

def lookupHelperRows (cursor : Ptr) : List Nat → List (List EcPoint)
  | [] => []
  | chunks :: rest =>
    EcPoint.range cursor chunks :: lookupHelperRows (cursor.addWords (g1Words * chunks)) rest

/-- The identity point that every committed-instance column shares. -/
def g1IdentityPoint : EcPoint := { base := .memory (.identifier "G1_IDENTITY_MPTR" 0) }

namespace Data

/-- Bind the plan to verifier memory. -/
def new (system : ConstraintSystemMeta) (vk : Halo2VerifyingKey)
    (memory : VerifierMemoryLayout) : Data :=
  let protocol := system.protocol
  let fixedCommMptr := (Ptr.at_ memory.vkMptr).addWords vk.constants
  let permutationCommMptr := fixedCommMptr.addWords (g1Words * vk.fixedComms)
  let reversedEvalsMptr := Ptr.at_ memory.reversedEvalsMptr
  { fixedComms := EcPoint.range fixedCommMptr protocol.numFixeds
    permutationComms := protocol.permutationColumns.zip
      (EcPoint.range permutationCommMptr protocol.permutationColumns.length)
    adviceComms := protocol.adviceIndices.map fun index =>
      { base := (Ptr.at_ memory.commsMptrBase).addWords (g1Words * index) }
    committedInstanceComms := replicate protocol.numCommittedInstances g1IdentityPoint
    permutationZComms :=
      EcPoint.range (Ptr.at_ memory.permZCommsMptrBase) protocol.numPermutationZs
    lookupMComms := EcPoint.range (Ptr.at_ memory.lookupMCommsMptrBase) protocol.numLookups
    lookupHelperComms :=
      lookupHelperRows (Ptr.at_ memory.lookupHelperCommsMptrBase) protocol.lookupChunks
    lookupZComms := EcPoint.range (Ptr.at_ memory.lookupZCommsMptrBase) protocol.numLookups
    trashcanComms := EcPoint.range (Ptr.at_ memory.trashcanCommsMptrBase) protocol.numTrashcans
    mainEvals := protocol.evals.zip (Word.range reversedEvalsMptr protocol.evals.length)
    computedQuotientComm := { base := .memory (.identifier "QUOTIENT_MPTR" 0) }
    computedQuotientEval := { ptr := .memory (.identifier "QUOTIENT_EVAL_MPTR" 0) }
    reversedEvalsMptr
    dummyEvalWords := [] }

def setDummyEvalWords (data : Data) (numMainEvals count : Nat) : Data :=
  { data with dummyEvalWords := Word.range (data.reversedEvalsMptr.addWords numMainEvals) count }

def commitment (data : Data) : CommitmentSlot → Option EcPoint
  | .advice column => data.adviceComms[column]?
  | .committedInstance column => data.committedInstanceComms[column]?
  | .permutationZ set => data.permutationZComms[set]?
  | .lookupMultiplicity lookup => data.lookupMComms[lookup]?
  | .lookupHelper lookup chunk => data.lookupHelperComms[lookup]?.bind (·[chunk]?)
  | .lookupAccumulator lookup => data.lookupZComms[lookup]?
  | .trash index => data.trashcanComms[index]?
  | .fixed column => data.fixedComms[column]?
  | .permutationCommon column => data.permutationComms.lookup column
  | .linearization => some data.computedQuotientComm

def evaluation (data : Data) : Option EvalRead → Option Word
  | some read => data.mainEvals.reverse.lookup read
  | none => some data.computedQuotientEval

end Data

/-- A commitment opened at `omega^rotation * x` to claim `eval`. -/
structure Query where
  rotation : Int
  comm : EcPoint
  eval : Word
  deriving DecidableEq, Repr

/-- Resolve a planned query source to concrete handles. -/
def queryFromPlan (system : ConstraintSystemMeta) (data : Data) (source : PcsQuerySource) :
    Option Query := do
  let comm ← data.commitment source.commitment
  let eval ← data.evaluation source.eval
  return { rotation := source.rotation system.protocol.rotationLast, comm, eval }

def queries (system : ConstraintSystemMeta) (data : Data) : Option (List Query) :=
  system.protocol.pcsQueries.mapM (queryFromPlan system data)

/-- Where a commitment is stored: an index among the points of the verifying
key, an index in a category of proof commitments, or a slot of its own. -/
inductive Place where
  | verifyingKey (index : Nat)
  | proof (category : VerifierMemoryLayout.CommitmentCategory) (index : Nat)
  | identity
  | quotient
  deriving DecidableEq, Repr

def Planned (protocol : ProtocolPlan) : CommitmentSlot → Prop
  | .advice column => column < protocol.adviceIndices.length
  | .committedInstance column => column < protocol.numCommittedInstances
  | .permutationZ set => set < protocol.numPermutationZs
  | .lookupMultiplicity lookup | .lookupAccumulator lookup => lookup < protocol.numLookups
  | .lookupHelper lookup chunk => ∃ chunks, protocol.lookupChunks[lookup]? = some chunks ∧ chunk < chunks
  | .trash index => index < protocol.numTrashcans
  | .fixed column => column < protocol.numFixeds
  | .permutationCommon column => column ∈ protocol.permutationColumns
  | .linearization => True

def place (protocol : ProtocolPlan) (vk : Halo2VerifyingKey) : CommitmentSlot → Place
  | .advice column => .proof .advice (protocol.adviceIndices.getD column 0)
  | .committedInstance _ => .identity
  | .permutationZ set => .proof .permZ set
  | .lookupMultiplicity lookup => .proof .lookupM lookup
  | .lookupHelper lookup chunk => .proof .lookupHelper ((protocol.lookupChunks.take lookup).sum + chunk)
  | .lookupAccumulator lookup => .proof .lookupZ lookup
  | .trash index => .proof .trashcan index
  | .fixed column => .verifyingKey column
  | .permutationCommon column =>
    .verifyingKey (vk.fixedComms + protocol.permutationColumns.idxOf column)
  | .linearization => .quotient

def placePoint (vk : Halo2VerifyingKey) (memory : VerifierMemoryLayout) : Place → EcPoint
  | .verifyingKey index => { base := .at_ (memory.vkMptr + vk.constants * wordBytes + index * g1Bytes) }
  | .proof category index => { base := .at_ (memory.commitmentMptr category index) }
  | .identity => g1IdentityPoint
  | .quotient => { base := .memory (.identifier "QUOTIENT_MPTR" 0) }

/-- Shape facts of a plan and its verifying key. -/
structure WellShaped (protocol : ProtocolPlan) (vk : Halo2VerifyingKey) : Prop where
  adviceIndices : protocol.adviceIndices.Nodup
  adviceStored : ∀ index ∈ protocol.adviceIndices, index < protocol.numUserAdvices.sum
  lookups : protocol.lookupChunks.length = protocol.numLookups
  fixedComms : vk.fixedComms = protocol.numFixeds
  permutationComms : vk.permutationComms = protocol.permutationColumns.length

theorem at_add_words (address words : Nat) :
    (Ptr.at_ address).addWords words = Ptr.at_ (address + words * wordBytes) := by
  simp [Ptr.at_, Ptr.memory, Ptr.addWords, Value.addWords]

theorem ec_point_range_get (address count : Nat) {index : Nat} (inside : index < count) :
    (EcPoint.range (Ptr.at_ address) count)[index]? =
      some { base := Ptr.at_ (address + g1Words * index * wordBytes) } := by
  unfold EcPoint.range
  rw [getElem?_map, getElem?_range inside, Option.map_some, at_add_words]

theorem lookup_helper_rows_get (address lookup : Nat) (lookupChunks : List Nat) :
    (lookupHelperRows (Ptr.at_ address) lookupChunks)[lookup]? =
      lookupChunks[lookup]?.map fun chunks => EcPoint.range
        (Ptr.at_ (address + g1Words * (lookupChunks.take lookup).sum * wordBytes)) chunks := by
  induction lookupChunks generalizing address lookup with
  | nil => rfl
  | cons chunks rest ih =>
    cases lookup with
    | zero => simp [lookupHelperRows]
    | succ lookup =>
      rw [lookupHelperRows, at_add_words, getElem?_cons_succ, ih,
        getElem?_cons_succ, take_succ_cons, sum_cons]
      have position : address + g1Words * chunks * wordBytes +
          g1Words * (rest.take lookup).sum * wordBytes =
            address + g1Words * (chunks + (rest.take lookup).sum) * wordBytes := by
        ring
      rw [position]

theorem lookup_zip_range {Key Entry : Type} [DecidableEq Key] (keys : List Key)
    (entries : List Entry) {key : Key} (mem : key ∈ keys) (covers : keys.length = entries.length) :
    (keys.zip entries).lookup key = entries[keys.idxOf key]? := by
  induction keys generalizing entries with
  | nil => simp at mem
  | cons first keys ih =>
    cases entries with
    | nil => simp at covers
    | cons entry entries =>
      rw [zip_cons_cons, lookup_cons, idxOf_cons]
      by_cases found : key = first
      · simp [found]
      · have apart : first ≠ key := fun same => found same.symm
        rw [beq_false_of_ne found, beq_false_of_ne apart]
        simpa using ih entries ((mem_cons.mp mem).resolve_left found) (by simpa using covers)

def Stored (system : ConstraintSystemMeta) (vk : Halo2VerifyingKey) : Place → Prop
  | .verifyingKey index => index < vk.fixedComms + vk.permutationComms
  | .proof category index => index < VerifierMemoryLayout.categoryCount system category
  | .identity | .quotient => True

theorem helper_position_injective {lookupChunks : List Nat} {first second left right : Nat}
    (leftInside : ∃ chunks, lookupChunks[first]? = some chunks ∧ left < chunks)
    (rightInside : ∃ chunks, lookupChunks[second]? = some chunks ∧ right < chunks)
    (same : (lookupChunks.take first).sum + left = (lookupChunks.take second).sum + right) :
    first = second ∧ left = right := by
  have ends : ∀ {earlier later position : Nat}, earlier < later →
      (∃ chunks, lookupChunks[earlier]? = some chunks ∧ position < chunks) →
        (lookupChunks.take earlier).sum + position < (lookupChunks.take later).sum := by
    intro earlier later position before inside
    obtain ⟨chunks, found, below⟩ := inside
    have next : (lookupChunks.take (earlier + 1)).sum =
        (lookupChunks.take earlier).sum + chunks := by
      rw [take_add_one, found, Option.toList_some, sum_append, sum_singleton]
    have grows : (lookupChunks.take (earlier + 1)).sum ≤ (lookupChunks.take later).sum := by
      exact monotone_sum_take lookupChunks before
    omega
  rcases Nat.lt_trichotomy first second with before | here | after
  · have := ends before leftInside
    omega
  · subst here
    exact ⟨rfl, by omega⟩
  · have := ends after rightInside
    omega

section Layout

variable (system : ConstraintSystemMeta) (vk : Halo2VerifyingKey) (vkMptr : Nat)
  (config : VerifierMemoryLayoutConfig)

theorem vk_before_commitments :
    vkMptr + vk.len ≤ (VerifierMemoryLayout.new system vk vkMptr config).commsMptrBase := by
  have challenge : (VerifierMemoryLayout.new system vk vkMptr config).challengeMptr =
      nextMultipleOf (vkMptr + vk.len) wordBytes := rfl
  have theta : (VerifierMemoryLayout.new system vk vkMptr config).thetaMptr =
      nextMultipleOf ((VerifierMemoryLayout.new system vk vkMptr config).challengeMptr +
        system.protocol.challengeIndices.length * wordBytes) wordBytes := rfl
  have evals : (VerifierMemoryLayout.new system vk vkMptr config).reversedEvalsMptr =
      (VerifierMemoryLayout.new system vk vkMptr config).thetaMptr +
        ThetaWindowLayout.compatibility.reversedEvalsWord * wordBytes := rfl
  have comms : (VerifierMemoryLayout.new system vk vkMptr config).commsMptrBase =
      nextMultipleOf ((VerifierMemoryLayout.new system vk vkMptr config).reversedEvalsMptr +
        system.numEvals * wordBytes) wordBytes := rfl
  have afterVk := le_next_multiple_of (vkMptr + vk.len)
  have afterChallenge := le_next_multiple_of
    ((VerifierMemoryLayout.new system vk vkMptr config).challengeMptr +
      system.protocol.challengeIndices.length * wordBytes)
  have afterEvals := le_next_multiple_of
    ((VerifierMemoryLayout.new system vk vkMptr config).reversedEvalsMptr +
      system.numEvals * wordBytes)
  rw [← challenge] at afterVk
  rw [← theta] at afterChallenge
  rw [← comms] at afterEvals
  omega

theorem commitment_at_place {slot : CommitmentSlot} (planned : Planned system.protocol slot) :
    (Data.new system vk (VerifierMemoryLayout.new system vk vkMptr config)).commitment slot =
      some (placePoint vk (VerifierMemoryLayout.new system vk vkMptr config)
        (place system.protocol vk slot)) := by
  cases slot with
  | advice column =>
    have inside : column < system.protocol.adviceIndices.length := planned
    simp only [Data.commitment, Data.new, placePoint, place, getElem?_map,
      getElem?_eq_getElem inside, Option.map_some, at_add_words,
      getD_eq_getElem?_getD, Option.getD_some]
    rfl
  | committedInstance column =>
    simp only [Data.commitment, Data.new, placePoint, place]
    exact getElem?_replicate_of_lt planned
  | permutationZ set => exact ec_point_range_get _ _ planned
  | lookupMultiplicity lookup => exact ec_point_range_get _ _ planned
  | lookupHelper lookup chunk =>
    obtain ⟨chunks, found, inside⟩ := planned
    simp only [Data.commitment, Data.new, lookup_helper_rows_get, found, Option.map_some,
      Option.bind_some, ec_point_range_get _ _ inside, placePoint, place,
      VerifierMemoryLayout.commitmentMptr, VerifierMemoryLayout.categoryBase]
    congr 3
    ring
  | lookupAccumulator lookup => exact ec_point_range_get _ _ planned
  | trash index => exact ec_point_range_get _ _ planned
  | fixed column =>
    simp only [Data.commitment, Data.new, at_add_words, ec_point_range_get _ _ planned,
      placePoint, place, g1Bytes]
    congr 3
    have base : (VerifierMemoryLayout.new system vk vkMptr config).vkMptr = vkMptr := rfl
    rw [base]
    ring
  | permutationCommon column =>
    have mem : column ∈ system.protocol.permutationColumns := planned
    simp only [Data.commitment, Data.new, at_add_words]
    rw [lookup_zip_range _ _ mem (by simp [EcPoint.range]),
      ec_point_range_get _ _ (idxOf_lt_length_of_mem mem)]
    simp only [placePoint, place, g1Bytes]
    congr 3
    ring
  | linearization => rfl

variable {system vk}

theorem place_stored {slot : CommitmentSlot} (shaped : WellShaped system.protocol vk)
    (planned : Planned system.protocol slot) : Stored system vk (place system.protocol vk slot) := by
  cases slot with
  | advice column =>
    have inside : column < system.protocol.adviceIndices.length := planned
    have listed : system.protocol.adviceIndices.getD column 0 ∈ system.protocol.adviceIndices := by
      rw [getD_eq_getElem?_getD, getElem?_eq_getElem inside]
      exact getElem_mem inside
    exact shaped.adviceStored _ listed
  | committedInstance column => trivial
  | permutationZ set => exact planned
  | lookupMultiplicity lookup => exact planned
  | lookupHelper lookup chunk =>
    obtain ⟨chunks, found, inside⟩ := planned
    have next : (system.protocol.lookupChunks.take (lookup + 1)).sum =
        (system.protocol.lookupChunks.take lookup).sum + chunks := by
      rw [take_add_one, found, Option.toList_some, sum_append, sum_singleton]
    have total : (system.protocol.lookupChunks.take (lookup + 1)).sum ≤
        system.protocol.lookupChunks.sum := by
      have whole := monotone_sum_take system.protocol.lookupChunks
        (List.getElem?_eq_some_iff.mp found).1
      simpa using whole
    show (system.protocol.lookupChunks.take lookup).sum + chunk < system.protocol.lookupChunks.sum
    omega
  | lookupAccumulator lookup => exact planned
  | trash index => exact planned
  | fixed column =>
    have inside : column < system.protocol.numFixeds := planned
    have counted := shaped.fixedComms
    show column < vk.fixedComms + vk.permutationComms
    omega
  | permutationCommon column =>
    have mem : column ∈ system.protocol.permutationColumns := planned
    have position := idxOf_lt_length_of_mem mem
    have counted := shaped.permutationComms
    show vk.fixedComms + system.protocol.permutationColumns.idxOf column <
      vk.fixedComms + vk.permutationComms
    omega
  | linearization => trivial

theorem at_injective {left right : Nat}
    (same : ({ base := Ptr.at_ left } : EcPoint) = { base := Ptr.at_ right }) : left = right := by
  simpa [Ptr.at_, Ptr.memory] using same

theorem place_point_injective {left right : Place} (leftStored : Stored system vk left)
    (rightStored : Stored system vk right)
    (same : placePoint vk (VerifierMemoryLayout.new system vk vkMptr config) left =
      placePoint vk (VerifierMemoryLayout.new system vk vkMptr config) right) :
    left = right := by
  have apart := vk_before_commitments system vk vkMptr config
  have vkEnds : ∀ {index : Nat}, Stored system vk (.verifyingKey index) →
      vkMptr + vk.constants * wordBytes + index * g1Bytes + g1Bytes ≤ vkMptr + vk.len := by
    intro index inside
    have bytes : (index + 1) * g1Bytes ≤ (vk.fixedComms + vk.permutationComms) * g1Bytes :=
      Nat.mul_le_mul_right _ inside
    unfold Halo2VerifyingKey.len
    rw [Nat.add_mul, Nat.one_mul] at bytes
    omega
  have pos : 0 < g1Bytes := by decide
  have base : (VerifierMemoryLayout.new system vk vkMptr config).vkMptr = vkMptr := rfl
  have starts : ∀ category index,
      (VerifierMemoryLayout.new system vk vkMptr config).commsMptrBase ≤
        (VerifierMemoryLayout.new system vk vkMptr config).commitmentMptr category index := by
    intro category index
    rw [VerifierMemoryLayout.commitmentMptr, VerifierMemoryLayout.new_category_base]
    omega
  cases left with
  | verifyingKey first =>
    cases right with
    | verifyingKey second =>
      have address := at_injective same
      have counts : first * g1Bytes = second * g1Bytes := by omega
      rw [Nat.eq_of_mul_eq_mul_right pos counts]
    | proof category second =>
      have address := at_injective same
      have ended := vkEnds leftStored
      have started := starts category second
      omega
    | identity => simp [placePoint, g1IdentityPoint, Ptr.at_, Ptr.memory] at same
    | quotient => simp [placePoint, Ptr.at_, Ptr.memory] at same
  | proof category first =>
    cases right with
    | verifyingKey second =>
      have address := at_injective same
      have ended := vkEnds rightStored
      have started := starts category first
      omega
    | proof other second =>
      by_contra distinct
      have positions := VerifierMemoryLayout.preceding_count_injective system leftStored
        rightStored (fun pair => distinct (by cases pair; rfl))
      have address := at_injective same
      simp only [VerifierMemoryLayout.commitmentMptr,
        VerifierMemoryLayout.new_category_base, g1Bytes] at address
      apply positions
      apply Nat.eq_of_mul_eq_mul_right pos
      simp only [g1Bytes, g1Words, wordBytes] at address ⊢
      omega
    | identity => simp [placePoint, g1IdentityPoint, Ptr.at_, Ptr.memory] at same
    | quotient => simp [placePoint, Ptr.at_, Ptr.memory] at same
  | identity =>
    cases right with
    | verifyingKey second => simp [placePoint, g1IdentityPoint, Ptr.at_, Ptr.memory] at same
    | proof other second => simp [placePoint, g1IdentityPoint, Ptr.at_, Ptr.memory] at same
    | identity => rfl
    | quotient => simp [placePoint, g1IdentityPoint, Ptr.memory] at same
  | quotient =>
    cases right with
    | verifyingKey second => simp [placePoint, Ptr.at_, Ptr.memory] at same
    | proof other second => simp [placePoint, Ptr.at_, Ptr.memory] at same
    | identity => simp [placePoint, g1IdentityPoint, Ptr.memory] at same
    | quotient => rfl

/-- Committed-instance columns share one place; every other slot has its own. -/
def SharesIdentity : CommitmentSlot → Prop
  | .committedInstance _ => True
  | _ => False

instance : DecidablePred SharesIdentity
  | .committedInstance _ => .isTrue trivial
  | .advice _ | .permutationZ _ | .lookupMultiplicity _ | .lookupHelper _ _ | .lookupAccumulator _
  | .trash _ | .fixed _ | .permutationCommon _ | .linearization => .isFalse id

theorem place_injective {left right : CommitmentSlot} (shaped : WellShaped system.protocol vk)
    (leftPlanned : Planned system.protocol left) (rightPlanned : Planned system.protocol right)
    (same : place system.protocol vk left = place system.protocol vk right) :
    left = right ∨ (SharesIdentity left ∧ SharesIdentity right) := by
  have fixedBefore : ∀ {column : Nat} {other : AnyColumn}, column < system.protocol.numFixeds →
      column ≠ vk.fixedComms + system.protocol.permutationColumns.idxOf other := by
    intro column other inside
    have counted := shaped.fixedComms
    omega
  cases left with
  | advice column =>
    cases right with
    | advice other =>
      have first : column < system.protocol.adviceIndices.length := leftPlanned
      have second : other < system.protocol.adviceIndices.length := rightPlanned
      simp only [place, getD_eq_getElem?_getD, getElem?_eq_getElem first,
        getElem?_eq_getElem second, Option.getD_some, Place.proof.injEq, true_and] at same
      rw [(List.Nodup.getElem_inj_iff shaped.adviceIndices).mp same]
      exact .inl rfl
    | _ => simp [place] at same
  | committedInstance column =>
    cases right with
    | committedInstance other => exact .inr ⟨trivial, trivial⟩
    | _ => simp [place] at same
  | permutationZ set =>
    cases right with
    | permutationZ other => exact .inl (by simpa [place] using same)
    | _ => simp [place] at same
  | lookupMultiplicity lookup =>
    cases right with
    | lookupMultiplicity other => exact .inl (by simpa [place] using same)
    | _ => simp [place] at same
  | lookupHelper lookup chunk =>
    cases right with
    | lookupHelper other index =>
      simp only [place, Place.proof.injEq, true_and] at same
      obtain ⟨sameLookup, sameChunk⟩ :=
        helper_position_injective leftPlanned rightPlanned same
      rw [sameLookup, sameChunk]
      exact .inl rfl
    | _ => simp [place] at same
  | lookupAccumulator lookup =>
    cases right with
    | lookupAccumulator other => exact .inl (by simpa [place] using same)
    | _ => simp [place] at same
  | trash index =>
    cases right with
    | trash other => exact .inl (by simpa [place] using same)
    | _ => simp [place] at same
  | fixed column =>
    cases right with
    | fixed other => exact .inl (by simpa [place] using same)
    | permutationCommon other =>
      simp only [place, Place.verifyingKey.injEq] at same
      exact absurd same (fixedBefore leftPlanned)
    | _ => simp [place] at same
  | permutationCommon column =>
    cases right with
    | fixed other =>
      simp only [place, Place.verifyingKey.injEq] at same
      exact absurd same.symm (fixedBefore rightPlanned)
    | permutationCommon other =>
      simp only [place, Place.verifyingKey.injEq, Nat.add_left_cancel_iff] at same
      rw [(idxOf_inj leftPlanned).mp same]
      exact .inl rfl
    | _ => simp [place] at same
  | linearization =>
    cases right with
    | linearization => exact .inl rfl
    | _ => simp [place] at same

end Layout

end Midfall.VerifierData
