import Cenix.Capabilities.LookUps
import Cenix.Kernel.Heap
import Cenix.Kernel.Ipc
import Cenix.Runs

namespace Cenix

open LinkedLists

/-! Everything that changes the capability space. -/

/-- The invocations that do, with their arguments. -/
inductive Invocation where
  | alloc (placement : Placement) (args : Kernel.AllocArgs)
  | nodeCopy (args : NodeCopyArgs)
  | nodeMove (args : NodeMoveArgs)
  | nodeDelete (argument : Nat)
  | nodeRevoke (argument : Nat)
  | setRootNode (args : IpcCapability)

/-- The table of handlers that the invocation is in. -/
def Invocation.handlers : Invocation → Handlers
  | .alloc _ _ => .addressSpace
  | .nodeCopy _ | .nodeMove _ | .nodeDelete _ | .nodeRevoke _ => .node
  | .setRootNode _ => .thread

/-- `other` is whatever happens to the rest of the kernel. -/
inductive CapabilityOp where
  | invoke (fuel address depth : Nat) (invocation : Invocation)
  | populate (fuel address depth : Nat) (resource : Addr) (handlers : Handlers)
      (flags : CapFlags)
  | transfer (fuel : Nat) (sending receiving sentMessage recvBuffer : Addr)
      (i : Fin ipcCapabilitySlots)
  | other (k : Kernel)

namespace Kernel

def handle (fuel : Nat) (k : Kernel) (address depth : Nat) (slot : SlotPtr) :
    Invocation → Option (Nat × Kernel)
  | .alloc placement args => k.addressSpaceAlloc fuel slot placement args
  | .nodeCopy args => k.nodeCopy fuel address depth slot args
  | .nodeMove args => k.nodeMove fuel address depth slot args
  | .nodeDelete argument => k.nodeDelete fuel slot argument
  | .nodeRevoke argument => k.nodeRevoke fuel slot argument
  | .setRootNode args => k.setRootNode fuel slot args

/-- `none` also where the capability has handlers that this is no invocation of. -/
def invokeCapability (fuel : Nat) (k : Kernel) (address depth : Nat)
    (invocation : Invocation) : Option (Nat × Kernel) :=
  (k.lookUpCapabilityRelative fuel address depth).bind fun
    | (none, k) => some (eNoCapability, k)
    | (some result, k) =>
        match (k.space.slots result.slot).handlers with
        | none => some (eCapInval, k.unlockLookedUpCapability result)
        | some handlers =>
            if handlers = invocation.handlers then
              (k.handle fuel address depth result.slot invocation).map fun (e, k) =>
                (e, k.unlockLookedUpCapability result)
            else
              none

def capabilityStep (k : Kernel) : CapabilityOp → Option Kernel
  | .invoke fuel address depth invocation =>
      (k.invokeCapability fuel address depth invocation).map (·.2)
  | .populate fuel address depth resource handlers flags =>
      (k.populateCapabilitySlot fuel address depth resource handlers flags).map (·.2)
  | .transfer fuel sending receiving sentMessage recvBuffer i =>
      k.transferCapability fuel sending receiving sentMessage recvBuffer i
  | .other k' => some { k' with space := k.space }

/-- The slot at an address of the current thread. -/
def slotAt (fuel : Nat) (k : Kernel) (address depth : Nat) : Option SlotPtr :=
  k.scheduler.currentThread.bind fun t =>
    (k.space.resolve fuel (.root t) address depth).join.map Prod.fst

/-- The slot at an address of `thread`, which is looked up by its id. -/
def slotOf (fuel : Nat) (k : Kernel) (thread : Addr) (capability : IpcCapability) :
    Option SlotPtr :=
  (k.findThread (k.threads thread).threadId fuel
    (k.threadHashTable (k.threads thread).bucketNumber).start).join.bind fun t =>
      (k.space.resolve fuel (.root t) capability.address capability.depth).join.map Prod.fst

variable {fuel : Nat} {k k' : Kernel} {address depth : Nat} {result : LookUpResult} {t : Addr}

theorem lookUpCapabilityRelative_slotAt
    (h : k.lookUpCapabilityRelative fuel address depth = some (some result, k')) :
    k.slotAt fuel address depth = some result.slot := by
  obtain ⟨t, ht, hresolve⟩ := lookUpCapabilityRelative_resolve h
  simp [slotAt, ht, hresolve]

theorem lookUpCapabilityAbsolute_slotOf {capability : IpcCapability}
    (h : k.lookUpCapabilityAbsolute fuel (k.threadAddress t capability) =
      some (some result, k')) : k.slotOf fuel t capability = some result.slot := by
  obtain ⟨found, hfound, hresolve⟩ := lookUpCapabilityAbsolute_resolve h
  simp only [threadAddress] at hfound hresolve
  simp [slotOf, hfound, hresolve]

theorem findThread_kinds (fuel : Nat) (k : Kernel) (kinds : Addr → Kind) (threadId : Nat)
    (t : Option Addr) :
    { k with kinds := kinds }.findThread threadId fuel t = k.findThread threadId fuel t := by
  induction fuel generalizing t with
  | zero => cases t <;> rfl
  | succ fuel ih =>
      cases t with
      | none => rfl
      | some t => simp only [findThread, ih]

/-- Locks do not change where an address leads. -/
theorem slotOf_kinds (fuel : Nat) (k : Kernel) (kinds : Addr → Kind) (t : Addr)
    (capability : IpcCapability) :
    { k with kinds := kinds }.slotOf fuel t capability = k.slotOf fuel t capability := by
  simp only [slotOf, findThread_kinds]

theorem slotAt_slot (h : k.space.NodesAllocated) (hcurrent : k.CurrentAllocated) {p : SlotPtr}
    (hp : k.slotAt fuel address depth = some p) : ∃ b i, p = .node b i ∧ k.space.Slot p := by
  simp only [slotAt, Option.bind_eq_some_iff, Option.map_eq_some_iff, Option.join_eq_some_iff]
    at hp
  obtain ⟨t, ht, ⟨q, d⟩, hresolve, rfl⟩ := hp
  have hroot : k.space.Slot (.root t) := hcurrent t ht
  exact Space.resolve_slot h hroot hresolve

theorem slotOf_slot (h : k.space.NodesAllocated) (hfinds : k.FindsAllocated fuel t)
    {capability : IpcCapability} {p : SlotPtr} (hp : k.slotOf fuel t capability = some p) :
    ∃ b i, p = .node b i ∧ k.space.Slot p := by
  simp only [slotOf, Option.bind_eq_some_iff, Option.map_eq_some_iff, Option.join_eq_some_iff]
    at hp
  obtain ⟨found, hfound, ⟨q, d⟩, hresolve, rfl⟩ := hp
  have hroot : k.space.Slot (.root found) := hfinds found hfound
  exact Space.resolve_slot h hroot hresolve

/-! What each operation can do. -/

/-- What runs is the handler of a capability that has been looked up. -/
theorem invokeCapability_cases {invocation : Invocation} {e : Nat}
    (h : k.invokeCapability fuel address depth invocation = some (e, k')) :
    (e ≠ 0 ∧ ∃ kinds, k' = { k with kinds := kinds }) ∨
      ∃ slot kinds kinds' k₁, k.slotAt fuel address depth = some slot ∧
        (k.space.slots slot).handlers = some invocation.handlers ∧
        { k with kinds := kinds }.handle fuel address depth slot invocation = some (e, k₁) ∧
        k' = { k₁ with kinds := kinds' } := by
  simp only [invokeCapability, Option.bind_eq_some_iff] at h
  obtain ⟨⟨found, k₁⟩, hfound, h⟩ := h
  obtain ⟨kinds, rfl⟩ := lookUpCapabilityRelative_kinds hfound
  cases found with
  | none =>
      cases h
      exact .inl ⟨by decide, kinds, rfl⟩
  | some result =>
      simp only at h
      split at h
      · cases h
        exact .inl ⟨by decide, _, rfl⟩
      · rename_i handlers hhandlers
        split at h
        · rename_i heq
          simp only [Option.map_eq_some_iff, Prod.mk.injEq] at h
          obtain ⟨⟨e', k₂⟩, hhandle, rfl, rfl⟩ := h
          exact .inr ⟨result.slot, kinds, _, k₂, lookUpCapabilityRelative_slotAt hfound,
            heq ▸ hhandlers, hhandle, rfl⟩
        · cases h

theorem nodeCopy_cases {slot : SlotPtr} {args : NodeCopyArgs} {e : Nat}
    (h : k.nodeCopy fuel address depth slot args = some (e, k')) :
    (e ≠ 0 ∧ ∃ kinds, k' = { k with kinds := kinds }) ∨
      (e = 0 ∧ ∃ source dest s kinds, k.nodeSlot slot args.destSlot = some dest ∧
        (k.space.slots dest).handlers = none ∧
        k.slotAt fuel args.sourceAddress args.sourceDepth = some source ∧
        (k.space.slots source).handlers ≠ some .node ∧
        (args.shouldSetBadge = true → (k.space.slots source).flags.original = true) ∧
        k.space.copyCapability source dest (address ||| shiftLeft args.destSlot depth)
          (k.nodeSlotDepth slot depth) = some s ∧
        k' = { k with space := setBadge s dest args, kinds := kinds }) := by
  unfold nodeCopy at h
  split at h
  · cases h
    exact .inl ⟨by decide, k.kinds, rfl⟩
  · rename_i dest hdest
    split at h
    · cases h
      exact .inl ⟨by decide, k.kinds, rfl⟩
    · rename_i hempty
      simp only [Option.bind_eq_some_iff] at h
      obtain ⟨⟨found, k₁⟩, hfound, h⟩ := h
      obtain ⟨kinds, rfl⟩ := lookUpCapabilityRelative_kinds hfound
      cases found with
      | none =>
          cases h
          exact .inl ⟨by decide, kinds, rfl⟩
      | some result =>
          simp only at h
          split at h
          · cases h
            exact .inl ⟨by decide, _, rfl⟩
          · rename_i hnode
            split at h
            · cases h
              exact .inl ⟨by decide, _, rfl⟩
            · rename_i hbadge
              simp only [Option.map_eq_some_iff, Prod.mk.injEq] at h
              obtain ⟨s, hs, rfl, rfl⟩ := h
              refine .inr ⟨rfl, result.slot, dest, s, _, hdest, by simpa using hempty,
                lookUpCapabilityRelative_slotAt hfound, hnode, ?_, hs, rfl⟩
              simpa using hbadge

theorem nodeMove_cases {slot : SlotPtr} {args : NodeMoveArgs} {e : Nat}
    (h : k.nodeMove fuel address depth slot args = some (e, k')) :
    (e ≠ 0 ∧ ∃ kinds, k' = { k with kinds := kinds }) ∨
      (e = 0 ∧ ∃ source dest s kinds, k.nodeSlot slot args.destSlot = some dest ∧
        (k.space.slots dest).handlers = none ∧
        k.slotAt fuel args.sourceAddress args.sourceDepth = some source ∧
        k.space.moveCapability fuel source dest = some s ∧
        k' = { k with
          space := setMovedAddress s dest (address ||| shiftLeft args.destSlot depth)
            (k.nodeSlotDepth slot depth)
          kinds := kinds }) := by
  unfold nodeMove at h
  split at h
  · cases h
    exact .inl ⟨by decide, k.kinds, rfl⟩
  · rename_i dest hdest
    split at h
    · cases h
      exact .inl ⟨by decide, k.kinds, rfl⟩
    · rename_i hempty
      simp only [Option.bind_eq_some_iff] at h
      obtain ⟨⟨found, k₁⟩, hfound, h⟩ := h
      obtain ⟨kinds, rfl⟩ := lookUpCapabilityRelative_kinds hfound
      cases found with
      | none =>
          cases h
          exact .inl ⟨by decide, kinds, rfl⟩
      | some result =>
          simp only [Option.map_eq_some_iff, Prod.mk.injEq] at h
          obtain ⟨s, hs, rfl, rfl⟩ := h
          exact .inr ⟨rfl, result.slot, dest, s, _, hdest, by simpa using hempty,
            lookUpCapabilityRelative_slotAt hfound, hs, rfl⟩

theorem transferCapability_cases {sending receiving sentMessage recvBuffer : Addr}
    {i : Fin ipcCapabilitySlots}
    (h : k.transferCapability fuel sending receiving sentMessage recvBuffer i = some k') :
    (∃ kinds, k' = { k with kinds := kinds }) ∨
      ∃ source dest s kinds bits,
        k.slotOf fuel sending ((k.messages sentMessage).capabilities.get i) = some source ∧
        k.slotOf fuel receiving ((k.messages recvBuffer).capabilities.get i) = some dest ∧
        (k.space.slots source).handlers ≠ none ∧
        ((k.messages sentMessage).toCopy.getLsbD i = true →
          (k.space.slots source).handlers ≠ some .node) ∧
        (k.space.slots dest).handlers = none ∧
        transferSlot fuel k.space ((k.messages sentMessage).toCopy.getLsbD i) source dest
          (k.threadAddress receiving ((k.messages recvBuffer).capabilities.get i)) = some s ∧
        k' = { k with
          space := s
          kinds := kinds
          messages := setTransferred k.messages recvBuffer bits } := by
  unfold transferCapability at h
  simp only at h
  split at h
  · cases h
    exact .inl ⟨k.kinds, rfl⟩
  · simp only [Option.bind_eq_some_iff] at h
    obtain ⟨⟨source, k₁⟩, hsource, h⟩ := h
    obtain ⟨kinds₁, rfl⟩ := lookUpCapabilityAbsolute_kinds hsource
    cases source with
    | none =>
        cases h
        exact .inl ⟨kinds₁, rfl⟩
    | some source =>
        simp only at h
        split at h
        · cases h
          exact .inl ⟨_, rfl⟩
        · rename_i hvalid
          simp only [Option.bind_eq_some_iff] at h
          obtain ⟨⟨dest, k₂⟩, hdest, h⟩ := h
          obtain ⟨kinds₂, rfl⟩ := lookUpCapabilityAbsolute_kinds hdest
          cases dest with
          | none =>
              cases h
              exact .inl ⟨_, rfl⟩
          | some dest =>
              simp only at h
              split at h
              · simp only [Option.some.injEq] at h
                exact .inl ⟨_, h.symm⟩
              · rename_i hempty
                simp only [Option.map_eq_some_iff] at h
                obtain ⟨s, hs, rfl⟩ := h
                have hdestAt : k.slotOf fuel receiving ((k.messages recvBuffer).capabilities.get i) =
                    some dest.slot := by
                  rw [← slotOf_kinds fuel k kinds₁]
                  exact lookUpCapabilityAbsolute_slotOf hdest
                have hempty' : (k.space.slots dest.slot).handlers = none := by
                  simpa using hempty
                refine .inr ⟨source.slot, dest.slot, s, _, _,
                  lookUpCapabilityAbsolute_slotOf hsource, hdestAt,
                  fun hnone => hvalid (.inl hnone), fun hcopy hnode => hvalid (.inr ⟨hcopy, hnode⟩),
                  hempty', hs, rfl⟩

/-- The slot behind the index of a node capability. -/
theorem nodeSlot_slot (h : k.space.NodesAllocated) {slot p : SlotPtr} {index : Nat}
    (hlive : k.space.Live slot) (hnode : (k.space.slots slot).handlers = some .node)
    (hp : k.nodeSlot slot index = some p) : ∃ b, p = .node b index ∧ k.space.Slot p := by
  unfold nodeSlot at hp
  simp only at hp
  split at hp
  · rename_i hindex
    cases hp
    exact ⟨_, rfl, h slot hlive hnode, hindex⟩
  · cases hp

end Kernel

end Cenix
