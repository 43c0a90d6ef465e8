import Cenix.Kernel.Frames
import Cenix.Kernel.Node
import Cenix.Scheduler.Runqueues

namespace Cenix

open LinkedLists

/-! What the deletion of a capability can change. -/

namespace Kernel

/-- Capabilities and objects may be gone, and the rest of them is as it was. -/
structure Shrunk (k k' : Kernel) : Prop where
  nodes : k'.space.nodes = k.space.nodes
  resource : ∀ p, (k'.space.slots p).resource = (k.space.slots p).resource
  flags : ∀ p, (k'.space.slots p).flags = (k.space.slots p).flags
  address : ∀ p, (k'.space.slots p).address = (k.space.slots p).address
  handlers : ∀ p, (k'.space.slots p).handlers = (k.space.slots p).handlers ∨
    (k'.space.slots p).handlers = none
  objects : ∀ b, k'.space.objects b = k.space.objects b ∨ k'.space.objects b = none

namespace Shrunk

variable {k k' : Kernel}

theorem refl (k : Kernel) : k.Shrunk k :=
  ⟨rfl, fun _ => rfl, fun _ => rfl, fun _ => rfl, fun _ => .inl rfl, fun _ => .inl rfl⟩

theorem trans {k₁ k₂ k₃ : Kernel} (h : k₁.Shrunk k₂) (h' : k₂.Shrunk k₃) :
    k₁.Shrunk k₃ where
  nodes := h'.nodes.trans h.nodes
  resource p := (h'.resource p).trans (h.resource p)
  flags p := (h'.flags p).trans (h.flags p)
  address p := (h'.address p).trans (h.address p)
  handlers p := by
    cases h'.handlers p with
    | inl hsame =>
        rw [hsame]
        exact h.handlers p
    | inr hnone => exact .inr hnone
  objects b := by
    cases h'.objects b with
    | inl hsame =>
        rw [hsame]
        exact h.objects b
    | inr hnone => exact .inr hnone

theorem of_rederived {s : Space} (h : Space.Rederived k.space s) :
    k.Shrunk { k with space := s } where
  nodes := h.nodes
  resource p := (h.slots p).resource
  flags p := (h.slots p).flags
  address p := (h.slots p).address
  handlers p := .inl (h.slots p).handlers
  objects b := .inl (congrFun h.objects b)

theorem of_space (h : k'.space = k.space) : k.Shrunk k' := by
  constructor <;> simp [h]

theorem slot_of (h : k.Shrunk k') {p : SlotPtr} (hp : k'.space.Slot p) : k.space.Slot p := by
  cases p with
  | node block i =>
      obtain ⟨hblock, hi⟩ := hp
      rw [h.nodes] at hi
      cases h.objects block with
      | inl hsame => exact ⟨hsame ▸ hblock, hi⟩
      | inr hnone =>
          rw [hnone] at hblock
          cases hblock
  | root thread =>
      have hthread : k'.space.objects thread = some .thread := hp
      cases h.objects thread with
      | inl hsame => exact hsame.symm.trans hthread
      | inr hnone =>
          rw [hnone] at hthread
          cases hthread

theorem live_of (h : k.Shrunk k') {p : SlotPtr} (hp : k'.space.Live p) : k.space.Live p := by
  refine ⟨h.slot_of hp.1, ?_⟩
  cases h.handlers p with
  | inl hsame => exact hsame ▸ hp.2
  | inr hnone => exact absurd hnone hp.2

end Shrunk

variable {fuel : Nat} {k k' : Kernel} {slot : SlotPtr}

theorem heapFree_shrunk (k : Kernel) (b : Addr) : k.Shrunk (k.heapFree b) where
  nodes := rfl
  resource _ := rfl
  flags _ := rfl
  address _ := rfl
  handlers _ := .inl rfl
  objects b' := by
    cases decEq b' b with
    | isTrue hb => simp [heapFree, hb]
    | isFalse hb => simp [heapFree, hb]

theorem freeResource_shrunk (k : Kernel) (b : Addr) : k.Shrunk (k.freeResource b) := by
  unfold freeResource
  split
  · exact .refl k
  · exact heapFree_shrunk k b

/-- The last step of a deletion. -/
def emptySlot (k : Kernel) (p : SlotPtr) : Kernel :=
  k.modifySlot p fun c => { c with handlers := none }

theorem emptySlot_slots (k : Kernel) (p q : SlotPtr) :
    (k.emptySlot p).space.slots q =
      if q = p then { k.space.slots q with handlers := none } else k.space.slots q := by
  cases decEq q p with
  | isTrue hqp => simp [emptySlot, modifySlot, Space.modifySlot, hqp]
  | isFalse hqp => simp [emptySlot, modifySlot, Space.modifySlot, hqp]

theorem emptySlot_shrunk (k : Kernel) (p : SlotPtr) : k.Shrunk (k.emptySlot p) where
  nodes := rfl
  resource q := by
    rw [emptySlot_slots]
    split <;> rfl
  flags q := by
    rw [emptySlot_slots]
    split <;> rfl
  address q := by
    rw [emptySlot_slots]
    split <;> rfl
  handlers q := by
    rw [emptySlot_slots]
    split
    · exact .inr rfl
    · exact .inl rfl
  objects _ := .inl rfl

theorem handOver_shrunk (k : Kernel) (p : SlotPtr) :
    k.Shrunk { k with space := handOver k.space p } := by
  unfold handOver
  simp only
  split
  · exact ⟨rfl, fun _ => rfl, fun _ => rfl, fun _ => rfl, fun _ => .inl rfl, fun _ => .inl rfl⟩
  · exact .refl k

theorem leaveResourceList_shrunk {s : Space} (h : leaveResourceList fuel k.space slot = some s) :
    k.Shrunk { k with space := s } := by
  simp only [leaveResourceList, Option.map_eq_some_iff] at h
  obtain ⟨links, _, rfl⟩ := h
  have hover := handOver_shrunk k slot
  exact ⟨hover.nodes, hover.resource, hover.flags, hover.address, hover.handlers, hover.objects⟩

theorem releaseBlocked_space (k : Kernel) (t : Addr) : (k.releaseBlocked t).space = k.space := by
  unfold releaseBlocked
  obtain ⟨threads, scheduler, hsuspend⟩ := k.suspendThread_frame t execModeSuspended
  obtain ⟨threads', scheduler', hresume⟩ :=
    (k.suspendThread t execModeSuspended).resumeThread_frame t execModeBlocked
  rw [hresume, hsuspend]
  rfl

theorem endpointDestructor_space (h : k.endpointDestructor fuel slot = some k') :
    k'.space = k.space := by
  have hround : ∀ (k₁ : Kernel) t k₂, k₁.space = k.space →
      some (k₁.releaseBlocked t) = some k₂ → k₂.space = k.space := by
    intro k₁ t k₂ hk₁ hrelease
    cases hrelease
    rw [releaseBlocked_space, hk₁]
  simp only [endpointDestructor, Option.bind_eq_bind, Option.bind_eq_some_iff] at h
  obtain ⟨k₁, hsending, hreceiving⟩ := h
  exact listIter_induct hround hreceiving (listIter_induct hround hsending rfl)

theorem leaveBlocked_space (k : Kernel) (t : Addr) : (k.leaveBlocked t).space = k.space := by
  unfold leaveBlocked
  split
  · rfl
  · split <;> rfl

theorem unlinkThread_space (k : Kernel) (t : Addr) : (k.unlinkThread t).space = k.space := by
  have hbucket : ∀ k : Kernel, (k.leaveThreadBucket t).space = k.space := fun _ => rfl
  have hcpu : ∀ k : Kernel, (k.leaveCpuUpdate t).space = k.space := fun _ => rfl
  unfold unlinkThread
  simp only [leaveBlocked_space, hbucket, apply_ite space, hcpu, ite_self]
  split <;> rfl

/-- A deletion takes the capability off its resource list, destroys the resource if
that was the last one, and empties the slot. -/
theorem deleteCapability_cases (h : deleteCapability (fuel + 1) k slot = some k') :
    ∃ s, leaveResourceList fuel k.space slot = some s ∧
      ((¬isLast k.space slot ∧ k' = { k with space := s }.emptySlot slot) ∨
        (isLast k.space slot ∧ ∃ k₁,
          { k with space := s }.destructor (deleteCapability fuel) fuel slot = some k₁ ∧
          k' = (k₁.freeResource (k₁.space.slots slot).resource).emptySlot slot)) := by
  simp only [deleteCapability, Option.bind_eq_some_iff, Option.map_eq_some_iff] at h
  obtain ⟨s, hleave, k₂, hdestroy, rfl⟩ := h
  refine ⟨s, hleave, ?_⟩
  split at hdestroy
  · rename_i hlast
    simp only [destroyResource, Option.map_eq_some_iff] at hdestroy
    obtain ⟨k₁, hdestroy, rfl⟩ := hdestroy
    exact .inr ⟨hlast, k₁, hdestroy, rfl⟩
  · rename_i hlast
    cases hdestroy
    exact .inl ⟨hlast, rfl⟩

/-- One round of the loop over the slots of a node. -/
theorem destroySlot_cases {delete : Kernel → SlotPtr → Option Kernel}
    (h : k.destroySlot delete fuel slot = some k') :
    ((k.space.slots slot).handlers = none ∧ k' = k) ∨
      ((k.space.slots slot).handlers ≠ none ∧ ∃ s,
        k.space.mergeDerivationLists fuel slot = some s ∧
        delete { k with space := s } slot = some k') := by
  unfold destroySlot at h
  split at h
  · rename_i hempty
    cases h
    exact .inl ⟨hempty, rfl⟩
  · rename_i hlive
    rw [Option.bind_eq_some_iff] at h
    exact .inr ⟨hlive, h⟩

/-- A relation that holds of everything that a deletion does, one step at a time. -/
structure DeletionSteps (R : Kernel → Kernel → Prop) : Prop where
  trans : ∀ k₁ k₂ k₃, R k₁ k₂ → R k₂ k₃ → R k₁ k₃
  space : ∀ k k', k'.space = k.space → R k k'
  rederived : ∀ k s, Space.Rederived k.space s → R k { k with space := s }
  leave : ∀ fuel k slot s, leaveResourceList fuel k.space slot = some s →
    R k { k with space := s }
  free : ∀ k b, R k (k.freeResource b)
  empty : ∀ k p, R k (k.emptySlot p)

namespace DeletionSteps

variable {R : Kernel → Kernel → Prop} {delete : Kernel → SlotPtr → Option Kernel}

theorem nodeDestructor (hR : DeletionSteps R)
    (hdelete : ∀ k p k', delete k p = some k' → R k k')
    (h : k.nodeDestructor delete fuel slot = some k') : R k k' := by
  refine foldlM_induct (motive := R k) ?_ h (hR.space k k rfl)
  intro k₁ i k₂ hk₁ hround
  apply hR.trans _ _ _ hk₁
  cases destroySlot_cases hround with
  | inl hempty => exact hR.space k₁ k₂ (by rw [hempty.2])
  | inr hlive =>
      obtain ⟨-, s, hmerge, hdelete'⟩ := hlive
      exact hR.trans _ _ _ (hR.rederived k₁ s (Space.mergeDerivationLists_rederived hmerge))
        (hdelete _ _ _ hdelete')

theorem destructor (hR : DeletionSteps R)
    (hdelete : ∀ k p k', delete k p = some k' → R k k')
    (h : k.destructor delete fuel slot = some k') : R k k' := by
  unfold Kernel.destructor at h
  split at h
  · exact hR.space k k' (endpointDestructor_space h)
  · simp only [threadDestructor, Option.map_eq_some_iff] at h
    obtain ⟨k₁, hroot, rfl⟩ := h
    exact hR.trans _ _ _ (hdelete _ _ _ hroot) (hR.space _ _ (unlinkThread_space ..))
  · exact hR.nodeDestructor hdelete h
  · cases h
    exact hR.space k k rfl
  · cases h
    exact hR.space k k rfl
  · cases h
    exact hR.space k k rfl
  · cases h

theorem deleteCapability (hR : DeletionSteps R)
    (h : deleteCapability fuel k slot = some k') : R k k' := by
  induction fuel generalizing k slot k' with
  | zero => cases h
  | succ fuel ih =>
      obtain ⟨s, hleave, hcases⟩ := deleteCapability_cases h
      apply hR.trans _ _ _ (hR.leave fuel k slot s hleave)
      cases hcases with
      | inl hshared =>
          rw [hshared.2]
          exact hR.empty _ slot
      | inr hlast =>
          obtain ⟨-, k₁, hdestroy, rfl⟩ := hlast
          have hdestroyed := hR.destructor (fun _ _ _ => ih) hdestroy
          exact hR.trans _ _ _ (hR.trans _ _ _ hdestroyed (hR.free k₁ _)) (hR.empty _ slot)

theorem nodeDelete (hR : DeletionSteps R) {argument e : Nat}
    (h : k.nodeDelete fuel slot argument = some (e, k')) : R k k' := by
  unfold Kernel.nodeDelete at h
  split at h
  · cases h
    exact hR.space k k rfl
  · split at h
    · cases h
      exact hR.space k k rfl
    · simp only [Option.bind_eq_some_iff, Option.map_eq_some_iff, Prod.mk.injEq] at h
      obtain ⟨s, hmerge, k₁, hdelete, -, rfl⟩ := h
      exact hR.trans _ _ _ (hR.rederived k s (Space.mergeDerivationLists_rederived hmerge))
        (hR.deleteCapability hdelete)

theorem iterDerivationList (hR : DeletionSteps R) {body : Kernel → SlotPtr → Option Kernel}
    (hbody : ∀ k p k', body k p = some k' → R k k')
    (h : k.iterDerivationList fuel slot body = some k') : R k k' :=
  listIter_induct (fun _ p _ h₁ h₂ => hR.trans _ _ _ h₁ (hbody _ p _ h₂)) h (hR.space k k rfl)

theorem revokeDerived (hR : DeletionSteps R) (h : k.revokeDerived fuel slot = some k') :
    R k k' := by
  unfold Kernel.revokeDerived at h
  simp only at h
  split at h
  · split at h
    · exact hR.iterDerivationList (fun _ _ _ => hR.deleteCapability) h
    · cases h
      exact hR.space k k rfl
  · cases h
    exact hR.space k k rfl

theorem nodeRevoke (hR : DeletionSteps R) {argument e : Nat}
    (h : k.nodeRevoke fuel slot argument = some (e, k')) : R k k' := by
  unfold Kernel.nodeRevoke at h
  split at h
  · cases h
    exact hR.space k k rfl
  · rename_i toRevoke _
    simp only at h
    split at h
    · cases h
      exact hR.space k k rfl
    · split at h
      · cases h
        exact hR.space k k rfl
      · split at h
        · cases h
          exact hR.space k k rfl
        · simp only [Option.map_eq_some_iff, Prod.mk.injEq] at h
          obtain ⟨k₁, hiter, -, rfl⟩ := h
          have hrevoked := hR.iterDerivationList ?_ hiter
          · have hforgets : Space.Rederived k₁.space
                (k₁.space.modifySlot toRevoke fun c => { c with derivation := none }) :=
              Space.rederived_modifySlot k₁.space toRevoke ⟨rfl, rfl, rfl, rfl, rfl, rfl, rfl⟩
            exact hR.trans _ _ _ hrevoked (hR.rederived k₁ _ hforgets)
          · intro k p k' hround
            simp only [Option.bind_eq_some_iff] at hround
            obtain ⟨k₂, hderived, hround⟩ := hround
            exact hR.trans _ _ _ (hR.revokeDerived hderived) (hR.deleteCapability hround)

end DeletionSteps

theorem shrunk_steps : DeletionSteps Shrunk where
  trans _ _ _ := Shrunk.trans
  space _ _ := Shrunk.of_space
  rederived _ _ := Shrunk.of_rederived
  leave _ _ _ _ := leaveResourceList_shrunk
  free := freeResource_shrunk
  empty := emptySlot_shrunk

theorem deleteCapability_shrunk (h : deleteCapability fuel k slot = some k') : k.Shrunk k' :=
  shrunk_steps.deleteCapability h

end Kernel

end Cenix
