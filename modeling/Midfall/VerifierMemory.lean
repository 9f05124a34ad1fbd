import Midfall.MemoryPlan
import Midfall.ProtocolLowering

/-!
# Memory layout of the generated verifier

`VerifierMemoryLayout::new` places the verifying key, the challenge and
theta-rooted slots, the decoded evaluations, the proof commitments by category,
and the scratch of every phase; `validate` checks fixed pointers, window
capacities and the registered regions. Pointers are byte offsets in memory.
-/

namespace Midfall.VerifierMemory

open PlonkConstraintSystem ProtocolLowering MemoryPlan List

def g1Words : Nat := 4
def g1Bytes : Nat := g1Words * wordBytes
def g2Bytes : Nat := 8 * wordBytes
def g1MsmPairBytes : Nat := g1Bytes + wordBytes
def g1AddInputBytes : Nat := 2 * g1Bytes
def modexpFrameBytes : Nat := 6 * wordBytes
def modexpScratchBytes : Nat := 8 * wordBytes
def pairingTwoPairBytes : Nat := 2 * (g1Bytes + g2Bytes)
def accMsmMinScratchBytes : Nat := 0x7000
def pcsStaticWorkingWords : Nat := 32
def pairingStaticWorkingWords : Nat := pairingTwoPairBytes / wordBytes + 1
def lowMemoryScratchStart : Nat := solidityReservedMemoryBytes
def transcriptBufferStart : Nat := lowMemoryScratchStart
def pcsPairingScratchStart : Nat := lowMemoryScratchStart
def verifierReturnBufferStart : Nat := lowMemoryScratchStart
def quotientReturnBufferStart : Nat := lowMemoryScratchStart
def finalPairingScratchStart : Nat := pairingTwoPairBytes
def pairingBatchPtr : Nat := 0x100
def accumulatorPairingBatchBytes : Nat := pairingTwoPairBytes - g1AddInputBytes + wordBytes

/-- Historical word slots rooted at `THETA_MPTR`. -/
inductive ThetaSlot where
  | theta | beta | gamma | trashChallenge | y | x | x1 | x2 | x3 | x4
  | fCom | pi | accLhs | accRhs
  | xN | xNMinus1Inv | lLast | lBlind | l0 | instanceEval | quotientEval | quotient
  | fEval | v | finalCom | pairingLhs | pairingRhs
  deriving DecidableEq, Repr

def ThetaSlot.word : ThetaSlot → Nat
  | .theta => 0
  | .beta => 1
  | .gamma => 2
  | .trashChallenge => 3
  | .y => 4
  | .x => 5
  | .x1 => 6
  | .x2 => 7
  | .x3 => 8
  | .x4 => 9
  | .fCom => 10
  | .pi => 14
  | .accLhs => 18
  | .accRhs => 22
  | .xN => 26
  | .xNMinus1Inv => 27
  | .lLast => 28
  | .lBlind => 29
  | .l0 => 30
  | .instanceEval => 31
  | .quotientEval => 32
  | .quotient => 33
  | .fEval => 38
  | .v => 39
  | .finalCom => 40
  | .pairingLhs => 44
  | .pairingRhs => 48

def ThetaSlot.words : ThetaSlot → Nat
  | .fCom | .pi | .accLhs | .accRhs | .quotient | .finalCom | .pairingLhs | .pairingRhs => g1Words
  | _ => 1

structure ThetaWindowLayout where
  rotPointsWord : Nat
  x1PowersWord : Nat
  qComWord : Nat
  qEvalSetWord : Nat
  qEvalCptrWord : Nat
  g1IdentityWord : Nat
  reversedEvalsWord : Nat
  rotPointsCapWords : Nat
  x1PowersCapWords : Nat
  qComCapWords : Nat
  qEvalSetCapWords : Nat
  deriving DecidableEq, Repr

def ThetaWindowLayout.compatibility : ThetaWindowLayout :=
  let rotPointsCapWords := 28
  let x1PowersCapWords := 65
  let qEvalSetCapWords := 56
  let qEvalCptrPaddingWords := 7
  let g1IdentityPaddingWords := 7
  let rotPointsWord := ThetaSlot.pairingRhs.word + g1Words
  let x1PowersWord := rotPointsWord + rotPointsCapWords
  let qComWord := x1PowersWord + x1PowersCapWords
  let qEvalSetWord := qComWord
  let qEvalCptrWord := qEvalSetWord + qEvalSetCapWords
  let g1IdentityWord := qEvalCptrWord + 1 + qEvalCptrPaddingWords
  let reversedEvalsWord := g1IdentityWord + g1Words + g1IdentityPaddingWords
  { rotPointsWord, x1PowersWord, qComWord, qEvalSetWord, qEvalCptrWord, g1IdentityWord
    reversedEvalsWord, rotPointsCapWords, x1PowersCapWords
    qComCapWords := qEvalSetWord - qComWord
    qEvalSetCapWords }

/-- The protocol plan with the evaluation count that dummy queries extend. -/
structure ConstraintSystemMeta where
  protocol : ProtocolPlan
  numEvals : Nat
  numDummyEvals : Nat
  deriving DecidableEq, Repr

namespace ConstraintSystemMeta

/-- `ConstraintSystemMeta::new` on a constructed plan. -/
def new (protocol : ProtocolPlan) : ConstraintSystemMeta :=
  { protocol, numEvals := protocol.numMainEvals, numDummyEvals := 0 }

def setNumDummyEvals (system : ConstraintSystemMeta) (count : Nat) : ConstraintSystemMeta :=
  { system with numDummyEvals := count, numEvals := system.numEvals + count }

/-- Number of advice commitments over all phases. -/
def totalAdvices (system : ConstraintSystemMeta) : Nat := system.protocol.numUserAdvices.sum

def lookupHelperChunksTotal (system : ConstraintSystemMeta) : Nat := system.protocol.lookupChunks.sum

/-- Number of proof commitment points materialized in verifier memory. -/
def commitmentG1Count (system : ConstraintSystemMeta) : Nat :=
  system.totalAdvices + system.protocol.numLookups + system.protocol.numPermutationZs +
    system.lookupHelperChunksTotal + system.protocol.numLookups + system.protocol.numTrashcans +
    system.protocol.numQuotients

/-- Scratch size required by the batched scalar-inversion helper. -/
def batchInvertScratchBytes (system : ConstraintSystemMeta) (numInstances : Nat) : Nat :=
  let inputWords :=
    if numInstances = 0 then system.protocol.rotationLast.natAbs + 2
    else numInstances + system.protocol.rotationLast.natAbs + 1
  modexpFrameBytes + (inputWords - 2) * wordBytes

end ConstraintSystemMeta

structure Halo2VerifyingKey where
  constants : Nat
  fixedComms : Nat
  permutationComms : Nat
  deriving DecidableEq, Repr

def Halo2VerifyingKey.len (vk : Halo2VerifyingKey) : Nat :=
  vk.constants * wordBytes + (vk.fixedComms + vk.permutationComms) * g1Bytes

structure FinalMsmShape where
  terms : Nat
  inputBytes : Nat
  deriving DecidableEq, Repr

def FinalMsmShape.fromTerms (terms : Nat) : FinalMsmShape :=
  { terms, inputBytes := terms * g1MsmPairBytes }

structure PcsMemoryRequirements where
  rotPointsWords : Nat
  x1PowersWords : Nat
  qComWords : Nat
  qEvalSetWords : Nat
  qEvalSourceTableWords : Nat
  qComTraceMsm : FinalMsmShape
  finalMsm : FinalMsmShape
  deriving DecidableEq, Repr

structure VerifierMemoryLayoutConfig where
  transcriptWords : Nat
  numInstances : Nat
  quotientStateWords : Nat
  quotientStackWords : Nat
  accMsmTerms : Nat
  pcs : PcsMemoryRequirements
  deriving DecidableEq, Repr

structure VerifierMemoryLayout where
  map : MemoryMap
  thetaWindows : ThetaWindowLayout
  constructorSmokeScratchMptr : Nat
  constructorG1MsmSmokeScratchMptr : Nat
  constructorG1MsmSmokeInputBytes : Nat
  transcriptMptr : Nat
  pcsPairingScratchMptr : Nat
  verifierReturnMptr : Nat
  quotientReturnMptr : Nat
  vkMptr : Nat
  scalarInvScratchMptr : Nat
  challengeMptr : Nat
  thetaMptr : Nat
  rotPointsMptr : Nat
  x1PowersMptr : Nat
  qComMptr : Nat
  qEvalSetMptr : Nat
  qEvalCptrMptr : Nat
  g1IdentityMptr : Nat
  reversedEvalsMptr : Nat
  commsMptrBase : Nat
  adviceCommsMptrBase : Nat
  lookupMCommsMptrBase : Nat
  permZCommsMptrBase : Nat
  lookupHelperCommsMptrBase : Nat
  lookupZCommsMptrBase : Nat
  trashcanCommsMptrBase : Nat
  quotientLimbCommsMptrBase : Nat
  selectorAccMptr : Nat
  batchInvertScratchMptr : Nat
  quotientTmpMptr : Nat
  quotientStackMptr : Nat
  pcsQEvalSourceTableMptr : Nat
  pcsQComTraceScratchMptr : Nat
  pcsFinalMsmScratchMptr : Nat
  accMsmScratch : Nat
  accumulatorPairingBatchMptr : Nat
  finalPairingScratchMptr : Nat
  traceU256Mptr : Nat
  pcs : PcsMemoryRequirements
  deriving DecidableEq, Repr

namespace VerifierMemoryLayout

/-- The pointers `theta_mptr` to `pairing_rhs_mptr`, one for each slot. -/
def slotMptr (layout : VerifierMemoryLayout) (slot : ThetaSlot) : Nat :=
  layout.thetaMptr + slot.word * wordBytes

/-- Plan the generated verifier's complete memory map. -/
def plan (system : ConstraintSystemMeta) (vk : Halo2VerifyingKey) (vkMptr : Nat)
    (config : VerifierMemoryLayoutConfig) : Planner (MemoryMap → VerifierMemoryLayout) := do
  let protocol := system.protocol
  let commitmentsLen := system.commitmentG1Count * g1Bytes
  let selectorLen := protocol.numSimpleSelectors * wordBytes
  let quotientStateLen := config.quotientStateWords * wordBytes
  let quotientStackLen := config.quotientStackWords * wordBytes
  let qEvalSourceLen := config.pcs.qEvalSourceTableWords * wordBytes
  let qComTraceLen := config.pcs.qComTraceMsm.inputBytes
  let finalMsmLen := config.pcs.finalMsm.inputBytes
  let accMsmLen := config.accMsmTerms * g1MsmPairBytes
  let linTraceLen := (protocol.numQuotients + protocol.numSimpleSelectors) * g1MsmPairBytes
  let constructorG1MsmSmokeLen :=
    maxOr 0 [g1MsmPairBytes, qComTraceLen, finalMsmLen, accMsmLen, linTraceLen]
  let batchInvertLen := system.batchInvertScratchBytes config.numInstances
  let quotientReturnLen := (2 + protocol.numSimpleSelectors) * wordBytes
  let challengeLen := protocol.challengeIndices.length * wordBytes
  let thetaWindows := ThetaWindowLayout.compatibility
  -- Low memory is scoped by phase: the transcript is dead once algebra begins.
  let constructorSmokeScratchMptr ← allocPhaseScratch "constructor_smoke_scratch"
    lowMemoryScratchStart pairingTwoPairBytes .constructorSmoke
  let transcriptMptr ← allocPhaseScratch "transcript_buffer"
    transcriptBufferStart (config.transcriptWords * wordBytes) .transcript
  let pcsPairingScratchMptr ← allocPhaseScratch "pcs_pairing_static_working"
    pcsPairingScratchStart (pcsStaticWorkingWords * wordBytes) .pcsPairing
  let verifierReturnMptr ← allocPhaseScratch "verifier_return"
    verifierReturnBufferStart wordBytes .verifierReturn
  let quotientReturnMptr ← allocPhaseScratch "quotient_return"
    quotientReturnBufferStart quotientReturnLen .quotientReturn
  let finalPairingScratchMptr ← allocPhaseScratch "final_pairing_scratch"
    finalPairingScratchStart (pairingStaticWorkingWords * wordBytes) .finalPairing
  let vkStart ← allocFixed "vk_payload" vkMptr vk.len .permanent
  let scalarInvScratchMptr ← allocPhaseScratch "scalar_inv_scratch"
    (vkStart - modexpScratchBytes) modexpFrameBytes .scalarInv
  let challengeStart ← allocAfter "challenge_slots" vkStart vk.len challengeLen .permanent
  let thetaStart ← allocAfter "theta_scalar_and_g1_slots" challengeStart challengeLen
    (thetaWindows.rotPointsWord * wordBytes) .permanent
  let atTheta := fun words => thetaStart + words * wordBytes
  let totalAdvices := system.totalAdvices
  let lookupHelperChunksTotal := system.lookupHelperChunksTotal
  let nonQuotientG1s := totalAdvices + protocol.numLookups + protocol.numPermutationZs +
    lookupHelperChunksTotal + protocol.numLookups + protocol.numTrashcans
  let committedG1s := nonQuotientG1s + protocol.numQuotients
  let rotPointsMptr ← allocFixed "rot_points" (atTheta thetaWindows.rotPointsWord)
    (config.pcs.rotPointsWords * wordBytes) (.phase .pcsFixed)
  let x1PowersMptr ← allocFixed "x1_powers" (atTheta thetaWindows.x1PowersWord)
    (config.pcs.x1PowersWords * wordBytes) (.phase .pcsFixed)
  let qComMptr ← allocFixed "q_com_fixed_window" (atTheta thetaWindows.qComWord)
    (config.pcs.qComWords * wordBytes) (.phase .pcsFixed)
  let qEvalSetMptr ← allocFixed "q_eval_set" (atTheta thetaWindows.qEvalSetWord)
    (config.pcs.qEvalSetWords * wordBytes) (.phase .pcsFixed)
  let qEvalCptrMptr ← allocFixed "q_eval_cptr_slot" (atTheta thetaWindows.qEvalCptrWord)
    wordBytes .permanent
  let g1IdentityMptr ← allocFixed "g1_identity" (atTheta thetaWindows.g1IdentityWord)
    g1Bytes .permanent
  let reversedEvalsMptr ← allocFixed "decoded_evals" (atTheta thetaWindows.reversedEvalsWord)
    (system.numEvals * wordBytes) .permanent
  let commsMptrBase ← allocAfter "decompressed_commitments" reversedEvalsMptr
    (system.numEvals * wordBytes) commitmentsLen .permanent
  let adviceCommsMptrBase := commsMptrBase
  let lookupMCommsMptrBase := adviceCommsMptrBase + g1Words * totalAdvices * wordBytes
  let permZCommsMptrBase := lookupMCommsMptrBase + g1Words * protocol.numLookups * wordBytes
  let lookupHelperCommsMptrBase :=
    permZCommsMptrBase + g1Words * protocol.numPermutationZs * wordBytes
  let lookupZCommsMptrBase :=
    lookupHelperCommsMptrBase + g1Words * lookupHelperChunksTotal * wordBytes
  let trashcanCommsMptrBase := lookupZCommsMptrBase + g1Words * protocol.numLookups * wordBytes
  let quotientLimbCommsMptrBase :=
    trashcanCommsMptrBase + g1Words * protocol.numTrashcans * wordBytes
  let afterComms := commsMptrBase + committedG1s * g1Bytes
  let constructorG1MsmSmokeScratchMptr ← allocPhaseScratch "constructor_g1msm_smoke_scratch"
    (nextMultipleOf afterComms wordBytes) constructorG1MsmSmokeLen .constructorSmoke
  let selectorAccMptr ← allocAfter "selector_accumulators" commsMptrBase commitmentsLen
    selectorLen (.phase .pcsFinalMsm)
  -- The selector bytes are reused before the accumulators are live.
  let batchInvertScratchMptr ← withScratch selectorAccMptr
    (ScratchAllocator.allocPhaseScratch "batch_invert_scratch" batchInvertLen .lagrangeBatchInvert)
  let quotientTmpBase := nextMultipleOf (selectorAccMptr + selectorLen) wordBytes
  let (quotientTmpMptr, quotientStackMptr) ← withScratch quotientTmpBase do
    let quotientTmpMptr ← ScratchAllocator.allocPhaseScratch "quotient_state"
      quotientStateLen .quotientVm
    let quotientStackMptr ← ScratchAllocator.allocPhaseScratch "quotient_stack"
      (max quotientStackLen modexpFrameBytes) .quotientVm
    return (quotientTmpMptr, quotientStackMptr)
  let pcsScratchMptr := quotientTmpMptr
  let (pcsQEvalSourceTableMptr, pcsQComTraceScratchMptr, pcsFinalMsmScratchMptr) ←
    withScratch pcsScratchMptr do
      let qEval ← ScratchAllocator.allocPhaseScratch "pcs_q_eval_source_table"
        qEvalSourceLen .pcsQEvalSourceTable
      let qCom ← ScratchAllocator.allocPhaseScratch "pcs_q_com_trace_msm"
        qComTraceLen .pcsQComTrace
      let finalMsm ← ScratchAllocator.allocPhaseScratch "pcs_final_msm" finalMsmLen .pcsFinalMsm
      return (qEval, qCom, finalMsm)
  let accMsmScratchBase := nextMultipleOf (max afterComms accMsmMinScratchBytes) wordBytes
  let accMsmScratch ← withScratch accMsmScratchBase
    (ScratchAllocator.allocPhaseScratch "accumulator_msm" accMsmLen .accumulatorMsm)
  let accumulatorPairingBatchMptr ← allocPhaseScratch "accumulator_pairing_batch"
    pairingBatchPtr accumulatorPairingBatchBytes .accumulatorPairingBatch
  -- Trace logging runs between long-lived reads, so its word borrows no phase's scratch.
  let traceU256Mptr := nextMultipleOf (maxOr 0
    [constructorSmokeScratchMptr + pairingTwoPairBytes,
      transcriptMptr + config.transcriptWords * wordBytes,
      pcsPairingScratchMptr + pcsStaticWorkingWords * wordBytes,
      verifierReturnMptr + wordBytes,
      quotientReturnMptr + quotientReturnLen,
      finalPairingScratchMptr + pairingStaticWorkingWords * wordBytes,
      scalarInvScratchMptr + modexpFrameBytes,
      vkStart + vk.len,
      challengeStart + challengeLen,
      thetaStart + thetaWindows.rotPointsWord * wordBytes,
      g1IdentityMptr + g1Bytes,
      reversedEvalsMptr + system.numEvals * wordBytes,
      commsMptrBase + commitmentsLen,
      selectorAccMptr + selectorLen,
      batchInvertScratchMptr + batchInvertLen,
      quotientStackMptr + max quotientStackLen modexpFrameBytes,
      pcsQEvalSourceTableMptr + qEvalSourceLen,
      pcsQComTraceScratchMptr + qComTraceLen,
      pcsFinalMsmScratchMptr + finalMsmLen,
      constructorG1MsmSmokeScratchMptr + constructorG1MsmSmokeLen,
      accMsmScratch + accMsmLen,
      accumulatorPairingBatchMptr + accumulatorPairingBatchBytes]) wordBytes
  let _ ← allocFixed "trace_u256_log_word" traceU256Mptr wordBytes .permanent
  return fun map =>
    { map, thetaWindows, constructorSmokeScratchMptr, constructorG1MsmSmokeScratchMptr
      constructorG1MsmSmokeInputBytes := constructorG1MsmSmokeLen
      transcriptMptr, pcsPairingScratchMptr, verifierReturnMptr, quotientReturnMptr, vkMptr
      scalarInvScratchMptr
      challengeMptr := challengeStart
      thetaMptr := thetaStart
      rotPointsMptr, x1PowersMptr, qComMptr, qEvalSetMptr, qEvalCptrMptr, g1IdentityMptr
      reversedEvalsMptr, commsMptrBase, adviceCommsMptrBase, lookupMCommsMptrBase
      permZCommsMptrBase, lookupHelperCommsMptrBase, lookupZCommsMptrBase, trashcanCommsMptrBase
      quotientLimbCommsMptrBase, selectorAccMptr, batchInvertScratchMptr, quotientTmpMptr
      quotientStackMptr, pcsQEvalSourceTableMptr, pcsQComTraceScratchMptr, pcsFinalMsmScratchMptr
      accMsmScratch, accumulatorPairingBatchMptr, finalPairingScratchMptr, traceU256Mptr
      pcs := config.pcs }

def new (system : ConstraintSystemMeta) (vk : Halo2VerifyingKey) (vkMptr : Nat)
    (config : VerifierMemoryLayoutConfig) : VerifierMemoryLayout :=
  let planned := (plan system vk vkMptr config).run {}
  planned.1 planned.2.map

section

variable (layout : VerifierMemoryLayout)

/-- The low-memory pointers and the addresses they must keep. -/
def fixedLowMemory : List (String × Nat × Nat) :=
  [("constructor_smoke_scratch_mptr", layout.constructorSmokeScratchMptr, lowMemoryScratchStart),
    ("transcript_mptr", layout.transcriptMptr, transcriptBufferStart),
    ("pcs_pairing_scratch_mptr", layout.pcsPairingScratchMptr, pcsPairingScratchStart),
    ("verifier_return_mptr", layout.verifierReturnMptr, verifierReturnBufferStart),
    ("quotient_return_mptr", layout.quotientReturnMptr, quotientReturnBufferStart),
    ("accumulator_pairing_batch_mptr", layout.accumulatorPairingBatchMptr, pairingBatchPtr),
    ("final_pairing_scratch_mptr", layout.finalPairingScratchMptr, finalPairingScratchStart)]

/-- A window of the fixed PCS area against its capacity. -/
def checkWindow (name : String) (needed capacity : Nat) : Except String Unit :=
  if needed > capacity then
    .error s!"PCS scratch layout mismatch: {name} needs {needed} word(s), capacity is {capacity}"
  else .ok ()

def checkFixed (pointer : String × Nat × Nat) : Except String Unit :=
  let (name, actual, expected) := pointer
  if actual ≠ expected then
    .error s!"fixed memory pointer {name} drifted: got {hex actual}, expected {hex expected}"
  else .ok ()

def checkScalarInv : Except String Unit :=
  let expectedScalarInv := layout.vkMptr - modexpScratchBytes
  if layout.scalarInvScratchMptr ≠ expectedScalarInv then
    .error s!"scalar inversion scratch drifted: got {hex layout.scalarInvScratchMptr}, expected {hex expectedScalarInv}"
  else .ok ()

/-- Validate fixed-window capacities and registered memory lifetimes. -/
def validate : Except String Unit := do
  layout.fixedLowMemory.forM checkFixed
  layout.checkScalarInv
  let windows := layout.thetaWindows
  checkWindow "ROT_POINTS_MPTR" layout.pcs.rotPointsWords windows.rotPointsCapWords
  checkWindow "X1_POWERS_MPTR" layout.pcs.x1PowersWords windows.x1PowersCapWords
  checkWindow "Q_COM_MPTR" layout.pcs.qComWords windows.qComCapWords
  checkWindow "Q_EVAL_SET_MPTR" layout.pcs.qEvalSetWords windows.qEvalSetCapWords
  layout.map.validate

/-- The registered regions, each at the pointer that the emitters use. -/
def regionTable (system : ConstraintSystemMeta)
    (vk : Halo2VerifyingKey) (config : VerifierMemoryLayoutConfig) : List MemoryRegion :=
  [⟨"constructor_smoke_scratch", layout.constructorSmokeScratchMptr, pairingTwoPairBytes,
      .phase .constructorSmoke⟩,
    ⟨"transcript_buffer", layout.transcriptMptr, config.transcriptWords * wordBytes,
      .phase .transcript⟩,
    ⟨"pcs_pairing_static_working", layout.pcsPairingScratchMptr,
      pcsStaticWorkingWords * wordBytes, .phase .pcsPairing⟩,
    ⟨"verifier_return", layout.verifierReturnMptr, wordBytes, .phase .verifierReturn⟩,
    ⟨"quotient_return", layout.quotientReturnMptr,
      (2 + system.protocol.numSimpleSelectors) * wordBytes, .phase .quotientReturn⟩,
    ⟨"final_pairing_scratch", layout.finalPairingScratchMptr,
      pairingStaticWorkingWords * wordBytes, .phase .finalPairing⟩,
    ⟨"vk_payload", layout.vkMptr, vk.len, .permanent⟩,
    ⟨"scalar_inv_scratch", layout.scalarInvScratchMptr, modexpFrameBytes, .phase .scalarInv⟩,
    ⟨"challenge_slots", layout.challengeMptr,
      system.protocol.challengeIndices.length * wordBytes, .permanent⟩,
    ⟨"theta_scalar_and_g1_slots", layout.thetaMptr,
      layout.thetaWindows.rotPointsWord * wordBytes, .permanent⟩,
    ⟨"rot_points", layout.rotPointsMptr, config.pcs.rotPointsWords * wordBytes,
      .phase .pcsFixed⟩,
    ⟨"x1_powers", layout.x1PowersMptr, config.pcs.x1PowersWords * wordBytes, .phase .pcsFixed⟩,
    ⟨"q_com_fixed_window", layout.qComMptr, config.pcs.qComWords * wordBytes, .phase .pcsFixed⟩,
    ⟨"q_eval_set", layout.qEvalSetMptr, config.pcs.qEvalSetWords * wordBytes,
      .phase .pcsFixed⟩,
    ⟨"q_eval_cptr_slot", layout.qEvalCptrMptr, wordBytes, .permanent⟩,
    ⟨"g1_identity", layout.g1IdentityMptr, g1Bytes, .permanent⟩,
    ⟨"decoded_evals", layout.reversedEvalsMptr, system.numEvals * wordBytes, .permanent⟩,
    ⟨"decompressed_commitments", layout.commsMptrBase, system.commitmentG1Count * g1Bytes,
      .permanent⟩,
    ⟨"constructor_g1msm_smoke_scratch", layout.constructorG1MsmSmokeScratchMptr,
      layout.constructorG1MsmSmokeInputBytes, .phase .constructorSmoke⟩,
    ⟨"selector_accumulators", layout.selectorAccMptr,
      system.protocol.numSimpleSelectors * wordBytes, .phase .pcsFinalMsm⟩,
    ⟨"batch_invert_scratch", layout.batchInvertScratchMptr,
      system.batchInvertScratchBytes config.numInstances, .phase .lagrangeBatchInvert⟩,
    ⟨"quotient_state", layout.quotientTmpMptr, config.quotientStateWords * wordBytes,
      .phase .quotientVm⟩,
    ⟨"quotient_stack", layout.quotientStackMptr,
      max (config.quotientStackWords * wordBytes) modexpFrameBytes, .phase .quotientVm⟩,
    ⟨"pcs_q_eval_source_table", layout.pcsQEvalSourceTableMptr,
      config.pcs.qEvalSourceTableWords * wordBytes, .phase .pcsQEvalSourceTable⟩,
    ⟨"pcs_q_com_trace_msm", layout.pcsQComTraceScratchMptr, config.pcs.qComTraceMsm.inputBytes,
      .phase .pcsQComTrace⟩,
    ⟨"pcs_final_msm", layout.pcsFinalMsmScratchMptr, config.pcs.finalMsm.inputBytes,
      .phase .pcsFinalMsm⟩,
    ⟨"accumulator_msm", layout.accMsmScratch, config.accMsmTerms * g1MsmPairBytes,
      .phase .accumulatorMsm⟩,
    ⟨"accumulator_pairing_batch", layout.accumulatorPairingBatchMptr,
      accumulatorPairingBatchBytes, .phase .accumulatorPairingBatch⟩,
    ⟨"trace_u256_log_word", layout.traceU256Mptr, wordBytes, .permanent⟩]

/-- Commitments by the category that anchors their windows. -/
inductive CommitmentCategory where
  | advice
  | lookupM
  | permZ
  | lookupHelper
  | lookupZ
  | trashcan
  | quotientLimb
  deriving DecidableEq, Repr

def categoryBase : CommitmentCategory → Nat
  | .advice => layout.adviceCommsMptrBase
  | .lookupM => layout.lookupMCommsMptrBase
  | .permZ => layout.permZCommsMptrBase
  | .lookupHelper => layout.lookupHelperCommsMptrBase
  | .lookupZ => layout.lookupZCommsMptrBase
  | .trashcan => layout.trashcanCommsMptrBase
  | .quotientLimb => layout.quotientLimbCommsMptrBase

end

def categoryCount (system : ConstraintSystemMeta) : CommitmentCategory → Nat
  | .advice => system.totalAdvices
  | .lookupM => system.protocol.numLookups
  | .permZ => system.protocol.numPermutationZs
  | .lookupHelper => system.lookupHelperChunksTotal
  | .lookupZ => system.protocol.numLookups
  | .trashcan => system.protocol.numTrashcans
  | .quotientLimb => system.protocol.numQuotients

def precedingCount (system : ConstraintSystemMeta) : CommitmentCategory → Nat
  | .advice => 0
  | .lookupM => system.totalAdvices
  | .permZ => system.totalAdvices + system.protocol.numLookups
  | .lookupHelper =>
    system.totalAdvices + system.protocol.numLookups + system.protocol.numPermutationZs
  | .lookupZ =>
    system.totalAdvices + system.protocol.numLookups + system.protocol.numPermutationZs +
      system.lookupHelperChunksTotal
  | .trashcan =>
    system.totalAdvices + system.protocol.numLookups + system.protocol.numPermutationZs +
      system.lookupHelperChunksTotal + system.protocol.numLookups
  | .quotientLimb =>
    system.totalAdvices + system.protocol.numLookups + system.protocol.numPermutationZs +
      system.lookupHelperChunksTotal + system.protocol.numLookups + system.protocol.numTrashcans

/-- Address of a category's commitment, as `EcPoint::range` computes it. -/
def commitmentMptr (layout : VerifierMemoryLayout) (category : CommitmentCategory)
    (index : Nat) : Nat :=
  layout.categoryBase category + g1Words * index * wordBytes

def commitmentWindow (layout : VerifierMemoryLayout) (category : CommitmentCategory)
    (index : Nat) : Set Nat :=
  Set.Ico (layout.commitmentMptr category index) (layout.commitmentMptr category index + g1Bytes)

def slotWindow (layout : VerifierMemoryLayout) (slot : ThetaSlot) : Set Nat :=
  Set.Ico (layout.slotMptr slot) (layout.slotMptr slot + slot.words * wordBytes)

theorem preceding_count_add (system : ConstraintSystemMeta) (category : CommitmentCategory)
    {index : Nat} (inside : index < categoryCount system category) :
    precedingCount system category + index < system.commitmentG1Count := by
  unfold ConstraintSystemMeta.commitmentG1Count
  cases category <;> simp only [precedingCount, categoryCount] at inside ⊢ <;> omega

theorem preceding_count_injective (system : ConstraintSystemMeta)
    {left right : CommitmentCategory} {first second : Nat}
    (firstInside : first < categoryCount system left)
    (secondInside : second < categoryCount system right)
    (distinct : (left, first) ≠ (right, second)) :
    precedingCount system left + first ≠ precedingCount system right + second := by
  intro same
  cases left <;> cases right <;>
    simp only [precedingCount, categoryCount, ne_eq, Prod.mk.injEq, true_and, reduceCtorEq,
      false_and, not_false_eq_true] at * <;> omega

theorem id_bind {First Result : Type} (first : Id First) (next : First → Id Result) :
    (first >>= next) = next first := by
  rfl

theorem id_pure {Result : Type} (result : Result) : (pure result : Id Result) = result := by
  rfl

theorem alloc_fixed_run (name : String) (start len : Nat) (lifetime : MemoryLifetime)
    (arena : MemoryArena) :
    StateT.run (m := Id) (allocFixed name start len lifetime) arena =
      (start, { map := { regions := arena.map.regions ++ [{ name, start, len, lifetime }] } }) := by
  rfl

theorem scratch_alloc_run (name : String) (len : Nat) (phase : MemoryPhase)
    (scratch : ScratchAllocator) (arena : MemoryArena) :
    StateT.run (m := Id) ((ScratchAllocator.allocPhaseScratch name len phase).run scratch) arena =
      ((scratch.cursor phase, scratch.advance len phase),
        { map := { regions := arena.map.regions ++ [scratch.nextRegion name len phase] } }) := by
  rfl

theorem with_scratch_run {Result : Type} (base : Nat)
    (allocate : StateT ScratchAllocator Planner Result) (arena : MemoryArena) :
    StateT.run (m := Id) (withScratch base allocate) arena =
      ((StateT.run (m := Id) (allocate.run { base }) arena).1.1,
        (StateT.run (m := Id) (allocate.run { base }) arena).2) := by
  rfl

section NewLayout

variable (system : ConstraintSystemMeta) (vk : Halo2VerifyingKey) (vkMptr : Nat)
  (config : VerifierMemoryLayoutConfig)

/-- `new` registers every region at the pointer that it hands to the emitters. -/
theorem new_regions :
    (new system vk vkMptr config).map.regions =
      (new system vk vkMptr config).regionTable system vk config := by
  simp only [new, plan, MemoryPlan.allocPhaseScratch, allocAfter, StateT.run_bind, StateT.run_pure,
    id_bind, id_pure, alloc_fixed_run, with_scratch_run, scratch_alloc_run,
    ScratchAllocator.nextRegion, regionTable, append_assoc, nil_append, cons_append]

theorem new_commitment_bases :
    let layout := new system vk vkMptr config
    layout.adviceCommsMptrBase = layout.commsMptrBase ∧
      layout.lookupMCommsMptrBase =
        layout.adviceCommsMptrBase + g1Words * system.totalAdvices * wordBytes ∧
      layout.permZCommsMptrBase =
        layout.lookupMCommsMptrBase + g1Words * system.protocol.numLookups * wordBytes ∧
      layout.lookupHelperCommsMptrBase =
        layout.permZCommsMptrBase + g1Words * system.protocol.numPermutationZs * wordBytes ∧
      layout.lookupZCommsMptrBase =
        layout.lookupHelperCommsMptrBase + g1Words * system.lookupHelperChunksTotal * wordBytes ∧
      layout.trashcanCommsMptrBase =
        layout.lookupZCommsMptrBase + g1Words * system.protocol.numLookups * wordBytes ∧
      layout.quotientLimbCommsMptrBase =
        layout.trashcanCommsMptrBase + g1Words * system.protocol.numTrashcans * wordBytes := by
  exact ⟨rfl, rfl, rfl, rfl, rfl, rfl, rfl⟩

theorem new_category_base (category : CommitmentCategory) :
    (new system vk vkMptr config).categoryBase category =
      (new system vk vkMptr config).commsMptrBase + precedingCount system category * g1Bytes := by
  obtain ⟨advice, lookupM, permZ, lookupHelper, lookupZ, trashcan, quotientLimb⟩ :=
    new_commitment_bases system vk vkMptr config
  simp only [g1Bytes, g1Words, wordBytes] at *
  cases category <;> simp only [categoryBase, precedingCount] <;> omega

theorem new_slot_mptr (slot : ThetaSlot) :
    (new system vk vkMptr config).slotMptr slot =
      (new system vk vkMptr config).thetaMptr + slot.word * wordBytes := by
  rfl

theorem new_theta_windows :
    (new system vk vkMptr config).thetaWindows = ThetaWindowLayout.compatibility := by
  rfl

end NewLayout

end VerifierMemoryLayout

end Midfall.VerifierMemory
