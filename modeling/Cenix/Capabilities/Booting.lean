import Cenix.Capabilities.SharedResources

namespace Cenix

open LinkedLists

/-! The capabilities that the kernel starts with. -/

namespace Space

theorem zero_live (p : SlotPtr) : ¬Space.zero.Live p := by
  intro hlive
  exact hlive.2 rfl

theorem zero_resourceLists : Space.zero.ResourceLists where
  lists p hp := absurd hp (zero_live p)
  refers p _ hp _ := absurd hp (zero_live p)
  roots _ _ := ⟨rfl, rfl⟩

/-- Nothing lies at the null pointer, and no capability refers to it. -/
structure NotNull (s : Space) : Prop where
  objects : s.objects 0 = none
  resource : ∀ p, s.Live p → s.resource p ≠ 0

variable {s s' : Space} {block : Addr} {kind : ObjectKind}

theorem NotNull.newObject (h : s.NotNull) (hnew : s.NewObject block kind s') : s'.NotNull where
  objects := by
    rw [hnew.objects, Function.update_of_ne hnew.notNull.symm]
    exact h.objects
  resource p hp := by
    have hold := (hnew.live_iff p).mp hp
    have hsame : s'.resource p = s.resource p :=
      congrArg Capability.resource (hnew.slots_of_live hold)
    rw [hsame]
    exact h.resource p hold

theorem NotNull.congr (h : s.NotNull) (hsame : s.SameResources s') : s'.NotNull where
  objects := hsame.objects ▸ h.objects
  resource p hp := by
    rw [hsame.resource]
    exact h.resource p ((hsame.live_iff p).mp hp)

theorem NotNull.fill (h : s.NotNull) (p : SlotPtr) {c : Capability} (hc : c.resource ≠ 0) :
    (s.modifySlot p fun _ => c).NotNull where
  objects := h.objects
  resource q hq := by
    have hslots : (s.modifySlot p fun _ => c).Slot q ↔ s.Slot q := slot_congr rfl rfl q
    have hslot := hslots.mp hq.1
    unfold Space.resource
    cases decEq q p with
    | isTrue heq => simpa [modifySlot, heq] using hc
    | isFalse hne =>
        have hsame : (s.modifySlot p fun _ => c).slots q = s.slots q := by
          simp [modifySlot, hne]
        rw [hsame]
        exact h.resource q ⟨hslot, hsame ▸ hq.2⟩

theorem NotNull.free (h : s.NotNull) (hslots : s'.slots = s.slots) (hnodes : s'.nodes = s.nodes)
    (hobjects : s'.objects = Function.update s.objects block none) : s'.NotNull where
  objects := by
    rw [hobjects]
    cases decEq 0 block with
    | isTrue hzero => simp [hzero]
    | isFalse hzero =>
        rw [Function.update_of_ne hzero]
        exact h.objects
  resource p hp := by
    have hkept : ∀ b kind, s'.objects b = some kind → s.objects b = some kind := by
      intro b kind hb
      rw [hobjects] at hb
      cases decEq b block with
      | isTrue heq => simp [heq] at hb
      | isFalse hne => rwa [Function.update_of_ne hne] at hb
    have hslot : s.Slot p := by
      cases p with
      | node b i => exact ⟨hkept b _ hp.1.1, hnodes ▸ hp.1.2⟩
      | root t => exact hkept t _ hp.1
    unfold Space.resource
    rw [hslots]
    exact h.resource p ⟨hslot, hslots ▸ hp.2⟩

/-- The debug capability is the only one without a resource. -/
theorem NotNull.freshDebug (h : s.NotNull) : s.Fresh .debug 0 where
  refers := rfl
  unused := h.resource
  empty q hq := by
    intro hzero
    have hkind : s.objects q.block ≠ none := by
      cases q with
      | node b i =>
          have hnode := hq.1.1
          simp [SlotPtr.block, hnode]
      | root t =>
          have hthread : s.objects t = some .thread := hq.1
          simp [SlotPtr.block, hthread]
    rw [hzero] at hkind
    exact hkind h.objects

end Space

namespace Kernel

/-- The kernel once `main_init` is done; the arguments are where the heap puts things. -/
def Boots (k : Kernel) : Prop :=
  ∃ fuel registers program thread root addressSpace,
    zero.mainInit fuel registers ⟨[], program⟩ ⟨[], thread⟩ ⟨[], root⟩ ⟨[], addressSpace⟩ =
      some k

variable {fuel : Nat} {k k' : Kernel} {block : Option Addr} {b : Addr} {kind : ObjectKind}

theorem resumeThread_space (k : Kernel) (t : Addr) (reason : BitVec 8) :
    (k.resumeThread t reason).space = k.space := by
  obtain ⟨threads, scheduler, hresume⟩ := k.resumeThread_frame t reason
  rw [hresume]

theorem heapAlloc_plain (hnode : kind ≠ .node) (hthread : kind ≠ .thread)
    (h : k.heapAlloc fuel ⟨[], block⟩ kind = some (some b, k')) :
    k.space.NewObject b kind k'.space := by
  obtain ⟨hresult, hblock⟩ := heapAlloc_still h
  obtain ⟨hfree, hne, rfl⟩ := hblock b hresult.symm
  exact allocateBlock_plain hfree hne hnode hthread rfl

/-- What `populate_capability_slot` keeps while the kernel boots. -/
theorem populate_boot {address depth e : Nat} {resource : Addr} {handlers : Handlers}
    {flags : CapFlags} (hnotNull : k.space.NotNull) (hresource : resource ≠ 0)
    (hcurrent : k.CurrentAllocated)
    (hunused : ∀ t, k.scheduler.currentThread = some t → t ≠ resource)
    (h : k.populateCapabilitySlot fuel address depth resource handlers flags = some (e, k')) :
    k'.space.NotNull ∧ k'.CurrentAllocated := by
  cases populateCapabilitySlot_cases h with
  | inl hfailed =>
      obtain ⟨-, kinds, rfl⟩ := hfailed
      unfold freeIfHeapManaged
      split
      · refine ⟨hnotNull.free rfl rfl rfl, ?_⟩
        intro t ht
        have hkept := hcurrent t ht
        simpa [heapFree, hunused t ht] using hkept
      · exact ⟨hnotNull, hcurrent⟩
  | inr hdone =>
      obtain ⟨-, result, k₁, kinds, -, -, -, rfl⟩ := hdone
      have hsame := Space.SameResources.nestNode k.space handlers result.container resource
      have hfilled := (hnotNull.congr hsame).fill result.slot
        (c := newCapability result.slot resource handlers flags
          (k.slotAddress address result.depth)) hresource
      unfold fillSlot
      simp only
      split
      · refine ⟨hfilled.congr (.heapSetUpdateCapability ..), fun t ht => ?_⟩
        exact (congrFun hsame.objects t).trans (hcurrent t ht)
      · refine ⟨hfilled, fun t ht => ?_⟩
        exact (congrFun hsame.objects t).trans (hcurrent t ht)

/-- The process server's thread and its root node. -/
theorem initProcessServer_resourceLists {registers : ThreadRegisters}
    {program thread root : Option Addr} {t : Addr}
    (h : zero.initProcessServer fuel registers ⟨[], program⟩ ⟨[], thread⟩ ⟨[], root⟩ =
      some (t, k)) :
    k.space.ResourceLists ∧ k.space.NotNull ∧ k.CurrentAllocated := by
  simp only [initProcessServer, Option.bind_eq_bind, Option.bind_eq_some_iff] at h
  obtain ⟨⟨_, k₁⟩, hprogram, p, rfl, ⟨_, k₂⟩, hthread, t', rfl, ⟨_, k₃⟩, hroot, r, rfl, h⟩ := h
  simp only [Option.some.injEq, Prod.mk.injEq] at h
  obtain ⟨rfl, rfl⟩ := h
  have hzero : zero.initThreads.initScheduler.space.ResourceLists := Space.zero_resourceLists
  have hnull : zero.initThreads.initScheduler.space.NotNull :=
    ⟨rfl, fun p hp => absurd hp (Space.zero_live p)⟩
  have hnewProgram := heapAlloc_plain (by simp) (by simp) hprogram
  have hk₁ := hzero.newObject hnewProgram
  have hnewThread := allocThread_newObject hthread
  have hk₂ := hk₁.newObject hnewThread
  generalize hrefs : ({ k₂.modifyThread t' (fun t => { t with registers := registers })
    |>.resumeThread t' execModeSuspended with space := _ } : Kernel) = k₂' at hroot
  have hsame : k₂.space.SameResources k₂'.space := by
    rw [← hrefs]
    simp only [resumeThread_space]
    exact ⟨fun _ => rfl, rfl, fun _ => rfl, fun _ => rfl, rfl⟩
  have hnewRoot := allocNode_newObject hroot
  have hk₂' := hk₂.congr hsame
  have hk₃ := hk₂'.newObject hnewRoot
  have hthread₂ : k₂'.space.objects t' = some .thread := by
    rw [hsame.objects, hnewThread.objects, Function.update_self]
  have hne : t' ≠ r := by
    intro heq
    rw [heq, hnewRoot.free] at hthread₂
    cases hthread₂
  have hthread₃ : k₃.space.objects t' = some .thread := by
    rw [hnewRoot.objects, Function.update_of_ne hne]
    exact hthread₂
  have hempty : (k₃.space.slots (.root t')).handlers = none := by
    rw [hnewRoot.slots (.root t') hne, hsame.handlers, hnewThread.root rfl]
    rfl
  have hfilled := hk₃.fill (hnewRoot.fresh rfl hk₂') (p := .root t') hthread₃ hempty
    (c := k₃.rootCapability t' r) rfl rfl rfl
  have hnull₃ := (((hnull.newObject hnewProgram).newObject hnewThread).congr hsame).newObject
    hnewRoot
  have hnullFilled := hnull₃.fill (.root t') (c := k₃.rootCapability t' r) hnewRoot.notNull
  refine ⟨hfilled.congr (.heapSetUpdateCapability ..),
    hnullFilled.congr (.heapSetUpdateCapability ..), ?_⟩
  intro current hcurrent
  cases hcurrent
  exact hthread₃

/-- The address space and the debug capability. -/
theorem initRootNode_resourceLists {block : Option Addr} (h : k.space.ResourceLists)
    (hnull : k.space.NotNull) (hcurrent : k.CurrentAllocated)
    (hinit : k.initRootNode fuel ⟨[], block⟩ = some k') : k'.space.ResourceLists := by
  simp only [initRootNode, Option.bind_eq_bind, Option.bind_eq_some_iff] at hinit
  obtain ⟨⟨_, k₁⟩, halloc, r, rfl, ⟨e₂, k₂⟩, hspace, ⟨e₃, k₃⟩, hdebug, t, -, hk'⟩ := hinit
  cases hk'
  have hnew := heapAlloc_plain (by simp) (by simp) halloc
  obtain ⟨hresult, hblock⟩ := heapAlloc_still halloc
  obtain ⟨-, -, rfl⟩ := hblock r hresult.symm
  have hother : ∀ t, k.scheduler.currentThread = some t → t ≠ r := by
    intro t ht heq
    have hthread := hcurrent t ht
    rw [heq, hnew.free] at hthread
    cases hthread
  have hcurrent₁ : (k.allocateBlock r .addressSpace).CurrentAllocated := by
    intro t ht
    rw [hnew.objects, Function.update_of_ne (hother t ht)]
    exact hcurrent t ht
  have hk₂ := resourceLists_populate (h.newObject hnew) hcurrent₁ (hnew.fresh rfl h) hspace
  obtain ⟨hnull₂, hcurrent₂⟩ :=
    populate_boot (hnull.newObject hnew) hnew.notNull hcurrent₁ hother hspace
  have hk₃ : k₃.space.ResourceLists :=
    resourceLists_populate hk₂ hcurrent₂ hnull₂.freshDebug hdebug
  exact hk₃

theorem resourceLists_boots (h : Boots k) : k.space.ResourceLists := by
  obtain ⟨fuel, registers, program, thread, root, addressSpace, hinit⟩ := h
  simp only [mainInit, Option.bind_eq_some_iff] at hinit
  obtain ⟨⟨t, k₁⟩, hserver, hinit⟩ := hinit
  obtain ⟨hlists, hnull, hcurrent⟩ := initProcessServer_resourceLists hserver
  exact initRootNode_resourceLists hlists hnull hcurrent hinit

end Kernel

end Cenix
