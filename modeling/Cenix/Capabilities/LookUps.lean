import Cenix.Capabilities.Resources
import Cenix.Kernel.Ipc

namespace Cenix

open LinkedLists

/-! A lookup ends at a slot of an allocated node. -/

theorem maskAddress_lt (address depth : Nat) : maskAddress address depth < 2 ^ depth := by
  unfold maskAddress
  split
  · exact Nat.mod_lt _ (Nat.two_pow_pos depth)
  · rename_i hdepth
    have hwide : 2 ^ ptrBits ≤ 2 ^ depth := Nat.pow_le_pow_right (by decide) (by omega)
    exact Nat.lt_of_lt_of_le (Nat.mod_lt _ (Nat.two_pow_pos ptrBits)) hwide

namespace Space

variable {s : Space} {fuel : Nat} {p root : SlotPtr} {address depth d : Nat}

/-- What the node capabilities refer to. -/
def NodesAllocated (s : Space) : Prop :=
  ∀ p, s.Live p → (s.slots p).handlers = some .node → s.objects (s.resource p) = some .node

theorem ResourceLists.nodesAllocated (h : s.ResourceLists) : s.NodesAllocated :=
  fun p hp hnode => (h.refers p .node hp hnode).2

theorem resolveFrom_slot (h : s.NodesAllocated) {useFirstNonNode : Bool} {node : Addr}
    {actualDepth : Nat} (hnode : s.objects node = some .node)
    (hresolve : s.resolveFrom useFirstNonNode fuel node address depth actualDepth =
      some (some (p, d))) : ∃ block i, p = .node block i ∧ s.Slot p := by
  induction fuel generalizing node address depth actualDepth with
  | zero => cases hresolve
  | succ fuel ih =>
      have hslot : s.Slot (.node node (maskAddress address (s.nodes node).slotBits)) :=
        ⟨hnode, maskAddress_lt ..⟩
      simp only [resolveFrom] at hresolve
      split at hresolve
      · cases hresolve
        exact ⟨_, _, rfl, hslot⟩
      · split at hresolve
        · cases hresolve
        · rename_i hstop
          simp only [Bool.or_eq_true, decide_eq_true_eq, Bool.not_eq_true', not_or,
            Bool.not_eq_false, beq_iff_eq] at hstop
          refine ih (h _ ⟨hslot, ?_⟩ hstop.2) hresolve
          rw [hstop.2]
          simp

theorem resolve_slot (h : s.NodesAllocated) (hroot : s.Slot root)
    (hresolve : s.resolve fuel root address depth = some (some (p, d))) :
    ∃ block i, p = .node block i ∧ s.Slot p := by
  unfold resolve at hresolve
  split at hresolve
  · rename_i hnode
    refine resolveFrom_slot h (h root ⟨hroot, ?_⟩ hnode) hresolve
    rw [hnode]
    simp
  · cases hresolve

end Space

namespace Kernel

variable {k k' : Kernel} {fuel address depth : Nat} {result : LookUpResult} {t : Addr}

/-- The thread that the kernel runs is allocated. -/
def CurrentAllocated (k : Kernel) : Prop :=
  ∀ t, k.scheduler.currentThread = some t → k.space.objects t = some .thread

/-- A lookup by thread id finds allocated threads only. -/
def FindsAllocated (k : Kernel) (fuel : Nat) (t : Addr) : Prop :=
  ∀ found, k.findThread (k.threads t).threadId fuel
    (k.threadHashTable (k.threads t).bucketNumber).start = some (some found) →
      k.space.objects found = some .thread

theorem lookUpIn_resolve {shouldUnlock : Bool} {result : Option LookUpResult}
    (h : lookUpIn fuel k t shouldUnlock address depth = some (result, k')) :
    k.space.resolve fuel (.root t) address depth =
      some (result.map fun r => (r.slot, r.depth)) := by
  simp only [lookUpIn, Option.map_eq_some_iff, Prod.mk.injEq] at h
  obtain ⟨⟨found, kinds⟩, hfound, rfl, rfl⟩ := h
  rw [← Space.lookUpCapability_resolve fuel k.space k.kinds, hfound]
  rfl

theorem lookUpCapabilityRelative_resolve
    (h : k.lookUpCapabilityRelative fuel address depth = some (some result, k')) :
    ∃ t, k.scheduler.currentThread = some t ∧
      k.space.resolve fuel (.root t) address depth = some (some (result.slot, result.depth)) := by
  unfold lookUpCapabilityRelative at h
  cases hcurrent : k.scheduler.currentThread with
  | none =>
      rw [hcurrent] at h
      cases h
  | some t =>
      rw [hcurrent] at h
      exact ⟨t, rfl, lookUpIn_resolve h⟩

theorem lookUpCapabilityRelative_slot (h : k.space.NodesAllocated) (hcurrent : k.CurrentAllocated)
    (hlookUp : k.lookUpCapabilityRelative fuel address depth = some (some result, k')) :
    ∃ block i, result.slot = .node block i ∧ k.space.Slot result.slot := by
  obtain ⟨t, ht, hresolve⟩ := lookUpCapabilityRelative_resolve hlookUp
  have hroot : k.space.Slot (.root t) := hcurrent t ht
  exact Space.resolve_slot h hroot hresolve

theorem lookUpCapabilityAbsolute_resolve {address : AbsoluteCapabilityAddress}
    (h : k.lookUpCapabilityAbsolute fuel address = some (some result, k')) :
    ∃ t, k.findThread address.threadId fuel
        (k.threadHashTable address.bucketNumber).start = some (some t) ∧
      k.space.resolve fuel (.root t) address.address address.depth =
        some (some (result.slot, result.depth)) := by
  simp only [lookUpCapabilityAbsolute, Option.bind_eq_some_iff, lookUpThreadById,
    Option.map_eq_some_iff] at h
  obtain ⟨_, ⟨found, hfound, rfl⟩, h⟩ := h
  cases found with
  | none => cases h
  | some t => exact ⟨t, hfound, lookUpIn_resolve h⟩

theorem lookUpCapabilityAbsolute_slot (h : k.space.NodesAllocated)
    (hfinds : k.FindsAllocated fuel t) {capability : IpcCapability}
    (hlookUp : k.lookUpCapabilityAbsolute fuel (k.threadAddress t capability) =
      some (some result, k')) :
    ∃ block i, result.slot = .node block i ∧ k.space.Slot result.slot := by
  obtain ⟨found, hfound, hresolve⟩ := lookUpCapabilityAbsolute_resolve hlookUp
  have hroot : k.space.Slot (.root found) := hfinds found hfound
  exact Space.resolve_slot h hroot hresolve

end Kernel

end Cenix
