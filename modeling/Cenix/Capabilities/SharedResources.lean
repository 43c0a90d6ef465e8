import Cenix.Capabilities.NewObjects
import Cenix.Capabilities.Operations
import Cenix.Capabilities.Revocation

namespace Cenix

open LinkedLists

/-! A resource goes with the last capability to it, in every run. -/

namespace Space

variable {s s' : Space} {fuel : Nat}

theorem updateCapabilityAddresses_same {slot : SlotPtr}
    {address : AbsoluteCapabilityAddress} {nesting : Nat}
    (h : s.updateCapabilityAddresses fuel slot address nesting = some s') :
    s.SameResources s' := by
  induction fuel generalizing s slot address nesting s' with
  | zero => cases h
  | succ fuel ih =>
      unfold updateCapabilityAddresses at h
      simp only at h
      generalize hs₁ : (if (s.slots slot).resourceList.prev = none then
        s.heapSetUpdateCapability (s.slots slot).resource address else s) = s₁ at h
      have hsame : s.SameResources s₁ := by
        rw [← hs₁]
        split
        · exact .heapSetUpdateCapability ..
        · exact .refl s
      have hmodified : s₁.SameResources (s₁.modifySlot slot fun c => { c with address := address }) :=
        .modifySlot s₁ slot rfl rfl rfl
      have hbegin := hsame.trans hmodified
      split at h
      · refine foldlM_induct (motive := fun s' => s.SameResources s') ?_ h (hbegin.trans ?_)
        · intro s₂ i s₃ hs₂ hstep
          split at hstep
          · cases hstep
            exact hs₂
          · exact hs₂.trans (ih hstep)
        · refine ⟨fun b => ?_, rfl, fun _ => rfl, fun _ => rfl, rfl⟩
          simp only [Function.update_apply]
          split
          · rename_i hb
            rw [hb]
          · rfl
      · cases h
        exact hbegin

theorem setBadge_same (s : Space) (dest : SlotPtr) (args : NodeCopyArgs) :
    s.SameResources (Kernel.setBadge s dest args) := by
  unfold Kernel.setBadge
  split
  · exact .modifySlot s dest rfl rfl rfl
  · exact .refl s

theorem setMovedAddress_same (s : Space) (dest : SlotPtr) (address depth : Nat) :
    s.SameResources (Kernel.setMovedAddress s dest address depth) := by
  have hmodified : s.SameResources (s.modifySlot dest fun d =>
      { d with address := { d.address with address := address, depth := depth } }) :=
    .modifySlot s dest rfl rfl rfl
  unfold Kernel.setMovedAddress
  simp only
  split
  · exact hmodified.trans (.heapSetUpdateCapability ..)
  · exact hmodified

/-- The test with which `LIST_INSERT_NO_CONTAINER` finds that there is one item. -/
def SingleResource (s : Space) (p : SlotPtr) : Prop :=
  (s.slots p).resourceList.start = (s.slots p).resourceList.last

instance (s : Space) (p : SlotPtr) : Decidable (s.SingleResource p) :=
  inferInstanceAs (Decidable (_ = _))

theorem ResourceLists.single_iff (h : s.ResourceLists) {p : SlotPtr} (hp : s.Live p) :
    s.SingleResource p ↔ s.Alone p :=
  h.lists.start_eq_last_iff hp

end Space

namespace Kernel

variable {fuel : Nat} {k k' : Kernel} {address depth e : Nat} {slot : SlotPtr}

/-- What the steps rely on: copies are made of capabilities that no other one shares
the resource with, and revocations find the capabilities derived from theirs. -/
def KeepsResourceLists (k : Kernel) : CapabilityOp → Prop
  | .invoke fuel address depth invocation =>
      k.CurrentAllocated ∧ match invocation with
      | .alloc placement _ => placement.moves = []
      | .nodeCopy args => ∀ source,
          k.slotAt fuel args.sourceAddress args.sourceDepth = some source →
            (k.space.slots source).handlers ≠ none ∧ k.space.SingleResource source
      | .nodeMove args => ∀ source,
          k.slotAt fuel args.sourceAddress args.sourceDepth = some source →
            (k.space.slots source).handlers ≠ none
      | .nodeDelete _ => True
      | .nodeRevoke argument => ∀ slot, k.slotAt fuel address depth = some slot →
          ∀ p, k.nodeSlot slot argument = some p → (k.space.slots p).handlers ≠ none →
            ∃ xs children, k.space.DerivesOwn p xs children
      | .setRootNode _ => False
  | .populate _ _ _ resource handlers _ =>
      k.CurrentAllocated ∧ k.space.Fresh handlers resource
  | .transfer fuel sending receiving sentMessage _ i =>
      k.FindsAllocated fuel sending ∧ k.FindsAllocated fuel receiving ∧
        ((k.messages sentMessage).toCopy.getLsbD i → ∀ source,
          k.slotOf fuel sending ((k.messages sentMessage).capabilities.get i) = some source →
            k.space.SingleResource source)
  | .other _ => True

theorem resourceLists_alloc {block : Option Addr} {args : AllocArgs}
    (h : k.space.ResourceLists) (hcurrent : k.CurrentAllocated)
    (halloc : k.addressSpaceAlloc fuel slot ⟨[], block⟩ args = some (e, k')) :
    k'.space.ResourceLists := by
  unfold addressSpaceAlloc at halloc
  split at halloc
  · cases halloc
    exact h
  · split at halloc
    · simp only [Option.bind_eq_some_iff] at halloc
      obtain ⟨⟨handlers, resource, k₁⟩, hobject, halloc⟩ := halloc
      cases resource with
      | none =>
          cases halloc
          rw [(allocObject_still hobject).2 rfl]
          exact h
      | some resource =>
          obtain ⟨kind, hkind, hnew⟩ := allocObject_newObject hobject
          have hcurrent' : k₁.CurrentAllocated := by
            intro t ht
            rw [(allocObject_still hobject).1] at ht
            have hthread := hcurrent t ht
            rw [hnew.objects, Function.update_of_ne, hthread]
            intro heq
            rw [heq, hnew.free] at hthread
            cases hthread
          exact resourceLists_populate (h.newObject hnew) hcurrent' (hnew.fresh hkind h) halloc
    · cases halloc
      exact h

theorem resourceLists_nodeCopy (h : k.space.ResourceLists) (hcurrent : k.CurrentAllocated)
    (hlive : k.space.Live slot) (hnode : (k.space.slots slot).handlers = some .node)
    {args : NodeCopyArgs} (hsource : ∀ source,
      k.slotAt fuel args.sourceAddress args.sourceDepth = some source →
        (k.space.slots source).handlers ≠ none ∧ k.space.SingleResource source)
    (hcopy : k.nodeCopy fuel address depth slot args = some (e, k')) :
    k'.space.ResourceLists := by
  cases nodeCopy_cases hcopy with
  | inl hfailed =>
      obtain ⟨-, kinds, rfl⟩ := hfailed
      exact h
  | inr hdone =>
      obtain ⟨-, source, dest, s, kinds, hdest, hempty, hat, -, -, hs, rfl⟩ := hdone
      obtain ⟨b, rfl, hdestSlot⟩ := nodeSlot_slot h.nodesAllocated hlive hnode hdest
      obtain ⟨b', i, rfl, hslot⟩ := slotAt_slot h.nodesAllocated hcurrent hat
      obtain ⟨hfull, hsingle⟩ := hsource _ hat
      have hsourceLive : k.space.Live (.node b' i) := ⟨hslot, hfull⟩
      have hcopied := h.copy hsourceLive ((h.single_iff hsourceLive).mp hsingle) (by simp)
        hdestSlot hempty (by simp) hs
      exact hcopied.congr (Space.setBadge_same s _ args)

theorem resourceLists_nodeMove (h : k.space.ResourceLists) (hcurrent : k.CurrentAllocated)
    (hlive : k.space.Live slot) (hnode : (k.space.slots slot).handlers = some .node)
    {args : NodeMoveArgs} (hsource : ∀ source,
      k.slotAt fuel args.sourceAddress args.sourceDepth = some source →
        (k.space.slots source).handlers ≠ none)
    (hmove : k.nodeMove fuel address depth slot args = some (e, k')) :
    k'.space.ResourceLists := by
  cases nodeMove_cases hmove with
  | inl hfailed =>
      obtain ⟨-, kinds, rfl⟩ := hfailed
      exact h
  | inr hdone =>
      obtain ⟨-, source, dest, s, kinds, hdest, hempty, hat, hs, rfl⟩ := hdone
      obtain ⟨b, rfl, hdestSlot⟩ := nodeSlot_slot h.nodesAllocated hlive hnode hdest
      obtain ⟨b', i, rfl, hslot⟩ := slotAt_slot h.nodesAllocated hcurrent hat
      have hmoved := h.move ⟨hslot, hsource _ hat⟩ hdestSlot hempty (by simp) hs
      exact hmoved.congr (Space.setMovedAddress_same s _ _ _)

theorem resourceLists_nodeDelete (h : k.space.ResourceLists) (hlive : k.space.Live slot)
    (hnode : (k.space.slots slot).handlers = some .node) {argument : Nat}
    (hdelete : k.nodeDelete fuel slot argument = some (e, k')) : k'.space.ResourceLists := by
  unfold nodeDelete at hdelete
  split at hdelete
  · cases hdelete
    exact h
  · rename_i p hp
    obtain ⟨b, rfl, hslot⟩ := nodeSlot_slot h.nodesAllocated hlive hnode hp
    split at hdelete
    · cases hdelete
      exact h
    · rename_i hfull
      simp only [Option.bind_eq_some_iff, Option.map_eq_some_iff, Prod.mk.injEq] at hdelete
      obtain ⟨s, hmerge, k₁, hdelete, -, rfl⟩ := hdelete
      have hsame := Space.SameResources.of_rederived
        (Space.mergeDerivationLists_rederived hmerge)
      exact ((deleteCapability_sound fuel).sound (h.congr hsame)
        ((hsame.live_iff _).mpr ⟨hslot, hfull⟩) hdelete).1

theorem resourceLists_transfer (h : k.space.ResourceLists)
    {sending receiving sentMessage recvBuffer : Addr} {i : Fin ipcCapabilitySlots}
    (hsending : k.FindsAllocated fuel sending) (hreceiving : k.FindsAllocated fuel receiving)
    (hsource : (k.messages sentMessage).toCopy.getLsbD i → ∀ source,
      k.slotOf fuel sending ((k.messages sentMessage).capabilities.get i) = some source →
        k.space.SingleResource source)
    (htransfer : k.transferCapability fuel sending receiving sentMessage recvBuffer i =
      some k') : k'.space.ResourceLists := by
  cases transferCapability_cases htransfer with
  | inl hnothing =>
      obtain ⟨kinds, rfl⟩ := hnothing
      exact h
  | inr hdone =>
      obtain ⟨source, dest, s, kinds, bits, hat, hdest, hfull, -, hempty, hs, rfl⟩ := hdone
      obtain ⟨b, j, rfl, hsourceSlot⟩ := slotOf_slot h.nodesAllocated hsending hat
      obtain ⟨b', j', rfl, hdestSlot⟩ := slotOf_slot h.nodesAllocated hreceiving hdest
      simp only [transferSlot, Option.bind_eq_some_iff] at hs
      obtain ⟨s₁, hs₁, hs⟩ := hs
      have hlive : k.space.Live (.node b j) := ⟨hsourceSlot, hfull⟩
      have hplaced : s₁.ResourceLists := by
        split at hs₁
        · rename_i hcopy
          exact h.copy hlive ((h.single_iff hlive).mp (hsource hcopy _ hat)) (by simp)
            hdestSlot hempty (by simp) hs₁
        · exact h.move hlive hdestSlot hempty (by simp) hs₁
      exact hplaced.congr (Space.updateCapabilityAddresses_same hs)

theorem resourceLists_handle {invocation : Invocation} (h : k.space.ResourceLists)
    (hat : k.slotAt fuel address depth = some slot)
    (hhandlers : (k.space.slots slot).handlers = some invocation.handlers)
    (hkeeps : k.KeepsResourceLists (.invoke fuel address depth invocation))
    (hhandle : k.handle fuel address depth slot invocation = some (e, k')) :
    k'.space.ResourceLists := by
  obtain ⟨hcurrent, hkeeps⟩ := hkeeps
  obtain ⟨-, -, -, hslot⟩ := slotAt_slot h.nodesAllocated hcurrent hat
  have hlive : k.space.Live slot := ⟨hslot, by simp [hhandlers]⟩
  cases invocation with
  | alloc placement args =>
      obtain ⟨moves, block⟩ := placement
      have hmoves : moves = [] := hkeeps
      subst hmoves
      exact resourceLists_alloc h hcurrent hhandle
  | nodeCopy args => exact resourceLists_nodeCopy h hcurrent hlive hhandlers hkeeps hhandle
  | nodeMove args => exact resourceLists_nodeMove h hcurrent hlive hhandlers hkeeps hhandle
  | nodeDelete argument => exact resourceLists_nodeDelete h hlive hhandlers hhandle
  | nodeRevoke argument =>
      refine (resourceLists_revoke h ?_ hhandle).1
      intro p hp hfull
      obtain ⟨b, rfl, hslot⟩ := nodeSlot_slot h.nodesAllocated hlive hhandlers hp
      exact ⟨⟨hslot, hfull⟩, hkeeps _ hat _ hp hfull⟩
  | setRootNode args => exact hkeeps.elim

theorem resourceLists_step {op : CapabilityOp} (h : k.space.ResourceLists)
    (hkeeps : k.KeepsResourceLists op) (hstep : k.capabilityStep op = some k') :
    k'.space.ResourceLists := by
  cases op with
  | invoke fuel address depth invocation =>
      simp only [capabilityStep, Option.map_eq_some_iff] at hstep
      obtain ⟨⟨e, k₁⟩, hinvoke, rfl⟩ := hstep
      cases invokeCapability_cases hinvoke with
      | inl hfailed =>
          obtain ⟨-, kinds, rfl⟩ := hfailed
          exact h
      | inr hhandled =>
          obtain ⟨slot, kinds, kinds', k₂, hat, hhandlers, hhandle, rfl⟩ := hhandled
          have hk₂ : k₂.space.ResourceLists :=
            resourceLists_handle (k := { k with kinds := kinds }) h hat hhandlers hkeeps hhandle
          exact hk₂
  | populate fuel address depth resource handlers flags =>
      simp only [capabilityStep, Option.map_eq_some_iff] at hstep
      obtain ⟨⟨e, k₁⟩, hpopulate, rfl⟩ := hstep
      exact resourceLists_populate h hkeeps.1 hkeeps.2 hpopulate
  | transfer fuel sending receiving sentMessage recvBuffer i =>
      exact resourceLists_transfer h hkeeps.1 hkeeps.2.1 hkeeps.2.2 hstep
  | other k₁ =>
      cases hstep
      exact h

theorem allocated_of_live {p : SlotPtr} (h : k.space.ResourceLists) (hp : k.space.Live p)
    (hne : k.space.resource p ≠ 0) : k.space.objects (k.space.resource p) ≠ none := by
  obtain ⟨handlers, hhandlers⟩ := Option.ne_none_iff_exists'.mp hp.2
  have hrefers := h.refers p handlers hp hhandlers
  unfold Space.RefersTo at hrefers
  split at hrefers
  · exact absurd hrefers hne
  · simp [hrefers.2]

/-- What the deletion of `p` has to do with its resource and with all others: nothing
while the resource is shared; with the last capability it is destroyed, is still
allocated then, and is freed. -/
structure DeletesResource (fuel : Nat) (k : Kernel) (p : SlotPtr) (k' : Kernel) : Prop where
  shared : ¬k.space.Alone p → k'.space.objects = k.space.objects
  last : k.space.Alone p → k.space.resource p ≠ 0 →
    ∃ k₁, k.destructor (deleteCapability fuel) fuel p = some k₁ ∧
      k₁.space.objects (k.space.resource p) ≠ none ∧
      k' = (k₁.heapFree (k.space.resource p)).emptySlot p
  freed_iff : ∀ b, b ≠ 0 → k.Referenced b →
    (k'.space.objects b = none ↔ ¬k'.Referenced b)

theorem freed_iff {p : SlotPtr} (h : k.space.ResourceLists) (hp : k.space.Live p)
    (hdelete : deleteCapability fuel k p = some k') {b : Addr} (hb : b ≠ 0)
    (hreferenced : k.Referenced b) : k'.space.objects b = none ↔ ¬k'.Referenced b := by
  obtain ⟨hlists, -⟩ := (deleteCapability_sound fuel).sound h hp hdelete
  constructor
  · intro hnone hstill
    obtain ⟨q, hq, rfl⟩ := hstill
    exact allocated_of_live hlists hq hb hnone
  · intro hgone
    cases hobject : k'.space.objects b with
    | none => rfl
    | some kind =>
        have hkept := (deleteCapability_sound fuel).frees h hp hdelete b hb hreferenced
        exact absurd (hkept (by simp [hobject])) hgone

theorem deletesResource {p : SlotPtr} (h : k.space.ResourceLists) (hp : k.space.Live p)
    (hdelete : deleteCapability (fuel + 1) k p = some k') : k.DeletesResource fuel p k' where
  shared hshared := (deleteCapability_shared h hp hshared hdelete).objects
  freed_iff _ hb hreferenced := freed_iff h hp hdelete hb hreferenced
  last halone hne := by
    have hlast := (h.isLast_iff hp).mpr halone
    obtain ⟨s, hleave, hcases⟩ := deleteCapability_cases hdelete
    cases hcases with
    | inl hshared => exact absurd hlast hshared.1
    | inr hcases =>
        obtain ⟨-, k₁, hdestroy, rfl⟩ := hcases
        have hsame := Space.leaveResourceList_last hlast hleave
        subst hsame
        have hnothing : k.Pending (fun _ => False) p := fun _ hc => hc.elim
        have hdestroyed :=
          destructor_destroyed (deleteCapability_sound fuel) h hp halone hnothing hdestroy
        have hresource : k₁.space.resource p = k.space.resource p :=
          hdestroyed.shrunk.resource p
        have hallocated := allocated_of_live hdestroyed.lists hdestroyed.self (hresource ▸ hne)
        rw [hresource] at hallocated
        refine ⟨k₁, hdestroy, hallocated, ?_⟩
        have hfree : k₁.freeResource (k₁.space.slots p).resource =
            k₁.heapFree (k.space.resource p) := by
          have hslot : (k₁.space.slots p).resource = k.space.resource p := hresource
          rw [hslot, freeResource, if_neg hne]
        rw [hfree]

end Kernel

end Cenix
