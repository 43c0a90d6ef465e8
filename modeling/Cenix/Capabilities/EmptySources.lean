import Cenix.Capabilities.ResourceRuns

namespace Cenix

open LinkedLists

/-! Copies and moves from slots that hold no capability. -/

namespace Kernel

variable {fuel : Nat} {k k₁ : Kernel} {sourceAddress sourceDepth : Nat} {result : LookUpResult}

/-- No field of a live capability and no header of a heap block has changed. -/
structure KeepsLive (k k' : Kernel) : Prop where
  slots : ∀ p, k.space.Live p → k'.space.slots p = k.space.slots p
  objects : k'.space.objects = k.space.objects
  updateRefs : k'.space.updateRefs = k.space.updateRefs
  kinds : k'.kinds = k.kinds

theorem KeepsLive.refl (k : Kernel) : k.KeepsLive k :=
  ⟨fun _ _ => rfl, rfl, rfl, rfl⟩

/-- An invocation that returns an error and has changed neither. -/
def Refuses (k : Kernel) (outcome : Option (Nat × Kernel)) : Prop :=
  ∃ e k', outcome = some (e, k') ∧ e ≠ 0 ∧ k.KeepsLive k'

theorem Refuses.error {e : Nat} (he : e ≠ 0) : k.Refuses (some (e, k)) :=
  ⟨e, k, rfl, he, .refl k⟩

theorem Refuses.not_done {outcome : Option Space} (after : Space → Kernel) :
    ¬k.Refuses (outcome.map fun s => (0, after s)) := by
  rintro ⟨e, k', hdone, he, -⟩
  simp only [Option.map_eq_some_iff, Prod.mk.injEq] at hdone
  obtain ⟨_, _, rfl, _⟩ := hdone
  exact he rfl

/-- The node has a slot with this index, and the slot is empty. -/
def HasRoom (k : Kernel) (slot : SlotPtr) (index : Nat) : Prop :=
  ∃ dest, k.nodeSlot slot index = some dest ∧ (k.space.slots dest).handlers = none

theorem noRoom_cases {slot : SlotPtr} {index : Nat} (h : ¬k.HasRoom slot index) :
    k.nodeSlot slot index = none ∨
      ∃ dest, k.nodeSlot slot index = some dest ∧ (k.space.slots dest).handlers ≠ none := by
  cases hdest : k.nodeSlot slot index with
  | none => exact .inl rfl
  | some dest => exact .inr ⟨dest, rfl, fun hempty => h ⟨dest, hdest, hempty⟩⟩

/-! Both handlers look at the slot to fill before they look the source up. -/

theorem nodeCopy_noRoom (address depth : Nat) (slot : SlotPtr) (args : NodeCopyArgs)
    (h : ¬k.HasRoom slot args.destSlot) :
    k.Refuses (k.nodeCopy fuel address depth slot args) := by
  cases noRoom_cases h with
  | inl hnone =>
      simp only [nodeCopy, hnone]
      exact .error (by decide)
  | inr hfull =>
      obtain ⟨dest, hdest, hfull⟩ := hfull
      simp only [nodeCopy, hdest, if_pos hfull]
      exact .error (by decide)

theorem nodeMove_noRoom (address depth : Nat) (slot : SlotPtr) (args : NodeMoveArgs)
    (h : ¬k.HasRoom slot args.destSlot) :
    k.Refuses (k.nodeMove fuel address depth slot args) := by
  cases noRoom_cases h with
  | inl hnone =>
      simp only [nodeMove, hnone]
      exact .error (by decide)
  | inr hfull =>
      obtain ⟨dest, hdest, hfull⟩ := hfull
      simp only [nodeMove, hdest, if_pos hfull]
      exact .error (by decide)

/-- An empty source only fails the test for a badge, on the flags that were left in it. -/
theorem nodeCopy_empty (address depth : Nat) (slot : SlotPtr) (args : NodeCopyArgs)
    (hlookUp : k.lookUpCapabilityRelative fuel args.sourceAddress args.sourceDepth =
      some (some result, k₁))
    (hempty : (k.space.slots result.slot).handlers = none)
    (hroom : k.HasRoom slot args.destSlot) :
    k.Refuses (k.nodeCopy fuel address depth slot args) ↔
      (args.shouldSetBadge && !(k.space.slots result.slot).flags.original) = true := by
  obtain ⟨kinds, rfl, hlocked⟩ := lookUpCapabilityRelative_locked hlookUp
  obtain ⟨dest, hdest, hnone⟩ := hroom
  have hnode : (k.space.slots result.slot).handlers ≠ some .node := by simp [hempty]
  simp only [nodeCopy, hdest, hnone, ne_eq, not_true_eq_false, if_false, hlookUp,
    Option.bind_some, if_neg hnode]
  cases hbadge : args.shouldSetBadge && !(k.space.slots result.slot).flags.original with
  | true =>
      simp only [if_true, iff_true]
      rw [unlockLookedUpCapability_locked hlocked]
      exact .error (by decide)
  | false =>
      simp only [Bool.false_eq_true, if_false, iff_false]
      exact Refuses.not_done _

theorem nodeMove_empty (address depth : Nat) (slot : SlotPtr) (args : NodeMoveArgs)
    (hlookUp : k.lookUpCapabilityRelative fuel args.sourceAddress args.sourceDepth =
      some (some result, k₁))
    (hroom : k.HasRoom slot args.destSlot) :
    ¬k.Refuses (k.nodeMove fuel address depth slot args) := by
  obtain ⟨dest, hdest, hnone⟩ := hroom
  simp only [nodeMove, hdest, hnone, ne_eq, not_true_eq_false, if_false, hlookUp,
    Option.bind_some]
  exact Refuses.not_done _

/-- A source address that leads to an empty slot is only refused for other reasons. -/
theorem emptySource_refuses_iff
    (hlookUp : k.lookUpCapabilityRelative fuel sourceAddress sourceDepth =
      some (some result, k₁))
    (hempty : (k.space.slots result.slot).handlers = none) (address depth : Nat)
    (slot : SlotPtr) (destSlot : Nat) (accessRights : BitVec 8) (badge : Nat)
    (shouldSetBadge : Bool) :
    (k.Refuses (k.nodeCopy fuel address depth slot
        ⟨sourceAddress, sourceDepth, destSlot, accessRights, badge, shouldSetBadge⟩) ↔
      ¬k.HasRoom slot destSlot ∨
        (shouldSetBadge && !(k.space.slots result.slot).flags.original) = true) ∧
    (k.Refuses (k.nodeMove fuel address depth slot ⟨sourceAddress, sourceDepth, destSlot⟩) ↔
      ¬k.HasRoom slot destSlot) := by
  cases Classical.em (k.HasRoom slot destSlot) with
  | inl hroom =>
      have hcopy := nodeCopy_empty address depth slot ⟨sourceAddress, sourceDepth, destSlot,
        accessRights, badge, shouldSetBadge⟩ hlookUp hempty hroom
      have hmove := nodeMove_empty address depth slot ⟨sourceAddress, sourceDepth, destSlot⟩ hlookUp
        hroom
      simp only [hroom, not_true_eq_false, false_or]
      exact ⟨hcopy, iff_of_false hmove id⟩
  | inr hroom =>
      refine ⟨iff_of_true ?_ (.inl hroom), iff_of_true ?_ hroom⟩
      · exact nodeCopy_noRoom address depth slot _ hroom
      · exact nodeMove_noRoom address depth slot _ hroom

/-- A copy of a capability to an endpoint is deleted, and its empty slot is moved. -/
def copyDeleted : Option Kernel :=
  booted.bind fun k => runWhile capabilityStep (fun _ _ => True) k
    (endpointAndCopy ++ [.invoke 8 2 4 (.nodeDelete 0)])

theorem copyDeleted_reaches (h : copyDeleted = some k) :
    Reaches capabilityStep (fun _ _ => True) Boots k := by
  simp only [copyDeleted, Option.bind_eq_some_iff] at h
  obtain ⟨k₀, hbooted, hrun⟩ := h
  have hreach : Reaches capabilityStep (fun _ _ => True) Boots k₀ :=
    booted_reaches (fun _ _ => trivial) hbooted
  exact hreach.runWhile hrun

/-- Where the emptied slot is, and what is left in it. -/
theorem copyDeleted_source : ∃ (k k₁ : Kernel) (result : LookUpResult),
    copyDeleted = some k ∧
    k.lookUpCapabilityRelative 8 2 6 = some (some result, k₁) ∧
    (k.space.slots result.slot).handlers = none ∧
    (k.space.slots result.slot).flags.original = false ∧
    (k.space.slots result.slot).resourceList.prev = some (.node 3 3) ∧
    k.space.Live (.node 3 3) ∧ (k.space.slots (.node 3 3)).resourceList.next = none := by
  have hrun : (copyDeleted.bind fun k => (k.lookUpCapabilityRelative 8 2 6).map fun found =>
      decide (found.1.any fun result => decide (
        (k.space.slots result.slot).handlers = none ∧
        (k.space.slots result.slot).flags.original = false ∧
        (k.space.slots result.slot).resourceList.prev = some (.node 3 3) ∧
        k.space.Live (.node 3 3) ∧ (k.space.slots (.node 3 3)).resourceList.next = none))) =
      some true := by decide +kernel
  simp only [Option.bind_eq_some_iff, Option.map_eq_some_iff, decide_eq_true_eq,
    Option.any_eq_true] at hrun
  obtain ⟨k, hk, ⟨found, k₁⟩, hlookUp, result, hresult, hempty⟩ := hrun
  simp only at hresult
  subst hresult
  exact ⟨k, k₁, result, hk, hlookUp, hempty⟩

/-- The flags left in it are those of a copy, so a badged copy of it is refused. -/
theorem emptySource_refuses_iff_badged : ∃ (k k₁ : Kernel) (result : LookUpResult),
    k.lookUpCapabilityRelative 8 2 6 = some (some result, k₁) ∧
    (k.space.slots result.slot).handlers = none ∧
    k.Refuses (k.nodeCopy 8 2 4 (.node 3 2) ⟨2, 6, 1, 0xff, 1, true⟩) := by
  obtain ⟨k, k₁, result, -, hlookUp, hempty, horiginal, -⟩ := copyDeleted_source
  refine ⟨k, k₁, result, hlookUp, hempty, ?_⟩
  refine ((emptySource_refuses_iff hlookUp hempty 2 4 (.node 3 2) 1 0xff 1 true).1).mpr
    (.inr ?_)
  rw [horiginal]
  rfl

/-- A move of it succeeds, and makes the live capability to the endpoint point at an empty
slot. -/
theorem emptySource_moved : ∃ (k k₁ : Kernel) (result : LookUpResult) (k' : Kernel),
    Reaches capabilityStep (fun _ _ => True) Boots k ∧
    k.lookUpCapabilityRelative 8 2 6 = some (some result, k₁) ∧
    (k.space.slots result.slot).handlers = none ∧
    k.nodeMove 8 2 4 (.node 3 2) ⟨2, 6, 1⟩ = some (0, k') ∧
    k.space.Live (.node 3 3) ∧ (k.space.slots (.node 3 3)).resourceList.next = none ∧
    (k'.space.slots (.node 3 3)).resourceList.next = some (.node 5 1) ∧
    ¬k.Refuses (k.nodeMove 8 2 4 (.node 3 2) ⟨2, 6, 1⟩) := by
  obtain ⟨k, k₁, result, hk, hlookUp, hempty, -, -, hlive, hlast⟩ := copyDeleted_source
  have hmoved : (copyDeleted.bind fun k => (k.nodeMove 8 2 4 (.node 3 2) ⟨2, 6, 1⟩).map
      fun done => decide (done.1 = 0 ∧
        (done.2.space.slots (.node 3 3)).resourceList.next = some (.node 5 1))) =
      some true := by decide +kernel
  simp only [hk, Option.bind_some, Option.map_eq_some_iff, decide_eq_true_eq] at hmoved
  obtain ⟨⟨e, k'⟩, hmove, rfl, hnext⟩ := hmoved
  refine ⟨k, k₁, result, k', copyDeleted_reaches hk, hlookUp, hempty, hmove, hlive, hlast,
    hnext, ?_⟩
  rintro ⟨e, k₂, hdone, he, -⟩
  rw [hmove] at hdone
  cases hdone
  exact he rfl

end Kernel

end Cenix
