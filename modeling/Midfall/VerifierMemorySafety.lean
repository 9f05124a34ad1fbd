import Midfall.ProtocolConsistency
import Midfall.VerifierMemory

/-!
# Safety of the verifier memory layout

A layout that passes `validate` keeps apart all regions that are live together.
Commitment windows, theta-rooted slots and the trace word lie inside the region
that registers them, so the guarantee reaches every address the emitters use.
-/

namespace Midfall.VerifierMemorySafety

open PlonkConstraintSystem ProtocolLowering ProtocolConsistency
open MemoryPlan
open VerifierMemory VerifierMemory.VerifierMemoryLayout

def InsideRegion (map : MemoryMap) (name : String) (lifetime : MemoryLifetime)
    (window : Set Nat) : Prop :=
  ∃ region ∈ map.regions, region.name = name ∧ region.lifetime = lifetime ∧
    window ⊆ region.bytes

theorem validate_checks_map {layout : VerifierMemoryLayout} (validated : layout.validate = .ok ()) :
    layout.map.validate = .ok () := by
  unfold VerifierMemoryLayout.validate at validated
  simp only [seq_ok_iff] at validated
  exact validated.2.2.2.2.2.2

section Windows

variable (system : ConstraintSystemMeta) (vk : Halo2VerifyingKey) (vkMptr : Nat)
  (config : VerifierMemoryLayoutConfig)

theorem commitment_mptr_eq (category : CommitmentCategory) (index : Nat) :
    (new system vk vkMptr config).commitmentMptr category index =
      (new system vk vkMptr config).commsMptrBase +
        (precedingCount system category + index) * g1Bytes := by
  unfold commitmentMptr
  rw [new_category_base]
  unfold g1Bytes
  ring

theorem commitment_window_inside (category : CommitmentCategory) {index : Nat}
    (inside : index < categoryCount system category) :
    InsideRegion (new system vk vkMptr config).map "decompressed_commitments" .permanent
      ((new system vk vkMptr config).commitmentWindow category index) := by
  refine ⟨⟨"decompressed_commitments", (new system vk vkMptr config).commsMptrBase,
    system.commitmentG1Count * g1Bytes, .permanent⟩, ?_, rfl, rfl, ?_⟩
  · rw [new_regions]
    simp [regionTable]
  · have position := preceding_count_add system category inside
    unfold commitmentWindow MemoryRegion.bytes MemoryRegion.endOffset
    rw [commitment_mptr_eq]
    apply Set.Ico_subset_Ico
    · exact Nat.le_add_right _ _
    · have last : (precedingCount system category + index + 1) * g1Bytes ≤
          system.commitmentG1Count * g1Bytes := Nat.mul_le_mul_right _ position
      rw [Nat.add_mul, Nat.one_mul] at last
      dsimp only
      omega

theorem commitment_windows_disjoint {left right : CommitmentCategory} {first second : Nat}
    (firstInside : first < categoryCount system left)
    (secondInside : second < categoryCount system right)
    (distinct : (left, first) ≠ (right, second)) :
    Disjoint ((new system vk vkMptr config).commitmentWindow left first)
      ((new system vk vkMptr config).commitmentWindow right second) := by
  have apart := preceding_count_injective system firstInside secondInside distinct
  unfold commitmentWindow
  rw [commitment_mptr_eq, commitment_mptr_eq, Set.Ico_disjoint_Ico]
  unfold g1Bytes g1Words wordBytes
  omega

theorem slot_window_inside (slot : ThetaSlot) :
    InsideRegion (new system vk vkMptr config).map "theta_scalar_and_g1_slots" .permanent
      ((new system vk vkMptr config).slotWindow slot) := by
  refine ⟨⟨"theta_scalar_and_g1_slots", (new system vk vkMptr config).thetaMptr,
    ThetaWindowLayout.compatibility.rotPointsWord * wordBytes, .permanent⟩, ?_, rfl, rfl, ?_⟩
  · rw [new_regions]
    simp [regionTable, new_theta_windows]
  · have last : slot.word + slot.words ≤ ThetaWindowLayout.compatibility.rotPointsWord := by
      cases slot <;> decide
    unfold slotWindow MemoryRegion.bytes MemoryRegion.endOffset
    rw [new_slot_mptr]
    apply Set.Ico_subset_Ico
    · exact Nat.le_add_right _ _
    · have bytes := Nat.mul_le_mul_right wordBytes last
      rw [Nat.add_mul] at bytes
      dsimp only
      omega

theorem trace_word_inside :
    InsideRegion (new system vk vkMptr config).map "trace_u256_log_word" .permanent
      (Set.Ico (new system vk vkMptr config).traceU256Mptr
        ((new system vk vkMptr config).traceU256Mptr + wordBytes)) := by
  refine ⟨⟨"trace_u256_log_word", (new system vk vkMptr config).traceU256Mptr, wordBytes,
    .permanent⟩, ?_, rfl, rfl, subset_rfl⟩
  rw [new_regions]
  simp [regionTable]

end Windows

/-- For any counts of columns, lookups, evaluations and scratch words: a validated
layout has only safe regions, every commitment window and theta slot and the
trace word lie in their own permanent regions, commitment windows do not meet,
and `MemoryMap::validate` rejects every map that is not safe. -/
theorem validated_layout_safe (system : ConstraintSystemMeta) (vk : Halo2VerifyingKey)
    (vkMptr : Nat) (config : VerifierMemoryLayoutConfig)
    (validated : (new system vk vkMptr config).validate = .ok ()) :
    let layout := new system vk vkMptr config
    layout.map.Safe ∧
      (∀ category index, index < categoryCount system category →
        InsideRegion layout.map "decompressed_commitments" .permanent
          (layout.commitmentWindow category index)) ∧
      (∀ left first right second, first < categoryCount system left →
        second < categoryCount system right → (left, first) ≠ (right, second) →
          Disjoint (layout.commitmentWindow left first) (layout.commitmentWindow right second)) ∧
      (∀ slot, InsideRegion layout.map "theta_scalar_and_g1_slots" .permanent
        (layout.slotWindow slot)) ∧
      InsideRegion layout.map "trace_u256_log_word" .permanent
        (Set.Ico layout.traceU256Mptr (layout.traceU256Mptr + wordBytes)) ∧
      ∀ map : MemoryMap, ¬ map.Safe → ∃ message, map.validate = .error message := by
  intro layout
  refine ⟨(validate_ok_iff_safe layout.map).mp (validate_checks_map validated), ?_, ?_, ?_, ?_, ?_⟩
  · intro category index inside
    exact commitment_window_inside system vk vkMptr config category inside
  · intro left first right second firstInside secondInside distinct
    exact commitment_windows_disjoint system vk vkMptr config firstInside secondInside distinct
  · exact slot_window_inside system vk vkMptr config
  · exact trace_word_inside system vk vkMptr config
  · exact validate_rejects_unsafe

def smallConfig : VerifierMemoryLayoutConfig where
  transcriptWords := 40
  numInstances := 2
  quotientStateWords := 6
  quotientStackWords := 9
  accMsmTerms := 0
  pcs :=
    { rotPointsWords := 3
      x1PowersWords := 5
      qComWords := 0
      qEvalSetWords := 3
      qEvalSourceTableWords := 8
      qComTraceMsm := .fromTerms 0
      finalMsm := .fromTerms 12 }

/-- A layout for the mixed system is validated, so its trace word meets no other
permanent region. -/
theorem mixed_system_layout_safe :
    let layout := new (.new (assemblePlan mixedSystem 1 false 5 [1])) ⟨60, 2, 4⟩ 0x800 smallConfig
    layout.validate = .ok () ∧ layout.map.Safe := by
  have validated : (new (.new (assemblePlan mixedSystem 1 false 5 [1])) ⟨60, 2, 4⟩ 0x800
      smallConfig).validate = .ok () := by decide +kernel
  exact ⟨validated, (validated_layout_safe _ _ _ _ validated).1⟩

end Midfall.VerifierMemorySafety
