import Cenix.AddressSpace.Atomicity
import Cenix.Capabilities.CopyMove
import Cenix.Capabilities.LookUps

namespace Cenix

open LinkedLists

/-! New objects and the first capabilities to them. -/

/-- What the allocation of an object does to the capability space. -/
structure Space.NewObject (s : Space) (block : Addr) (kind : ObjectKind) (s' : Space) : Prop where
  free : s.objects block = none
  notNull : block ≠ 0
  objects : s'.objects = Function.update s.objects block (some kind)
  nodes : ∀ b, b ≠ block → s'.nodes b = s.nodes b
  slots : ∀ p, p.block ≠ block → s'.slots p = s.slots p
  empty : ∀ p, p.block = block → s'.Slot p → (s'.slots p).handlers = none
  root : kind = .thread → s'.slots (.root block) = Capability.zero
  node : kind = .node → (s'.nodes block).nestedNodes = 1
  updateRefs : ∀ b, b ≠ block → s'.updateRefs b = s.updateRefs b

namespace Space.NewObject

variable {s s' : Space} {block : Addr} {kind : ObjectKind} {p : SlotPtr}

theorem slot_iff (h : s.NewObject block kind s') (hp : p.block ≠ block) :
    s'.Slot p ↔ s.Slot p := by
  cases p with
  | node b i =>
      have hb : b ≠ block := hp
      simp [Slot, h.objects, h.nodes b hb, hb]
  | root t =>
      have ht : t ≠ block := hp
      simp [Slot, h.objects, ht]

theorem block_ne_of_slot (h : s.NewObject block kind s') (hp : s.Slot p) : p.block ≠ block := by
  intro hin
  cases p with
  | node b i =>
      have hb : b = block := hin
      have hnode := hp.1
      rw [hb, h.free] at hnode
      cases hnode
  | root t =>
      have ht : t = block := hin
      have hthread : s.objects t = some .thread := hp
      rw [ht, h.free] at hthread
      cases hthread

theorem live_iff (h : s.NewObject block kind s') (p : SlotPtr) : s'.Live p ↔ s.Live p := by
  cases decEq p.block block with
  | isTrue hp =>
      refine iff_of_false (fun hlive => hlive.2 (h.empty p hp hlive.1)) (fun hlive => ?_)
      exact h.block_ne_of_slot hlive.1 hp
  | isFalse hp =>
      unfold Live
      rw [h.slot_iff hp, h.slots p hp]

theorem slots_of_live (h : s.NewObject block kind s') (hp : s.Live p) : s'.slots p = s.slots p :=
  h.slots p (h.block_ne_of_slot hp.1)

theorem refersTo (h : s.NewObject block kind s') {handlers : Handlers} {resource : Addr}
    (hrefers : s.RefersTo handlers resource) :
    s'.RefersTo handlers resource ∧ resource ≠ block := by
  unfold RefersTo at hrefers ⊢
  split at hrefers
  · exact ⟨hrefers, fun heq => h.notNull (heq.symm.trans hrefers)⟩
  · have hne : resource ≠ block := by
      intro heq
      rw [heq, h.free] at hrefers
      cases hrefers.2
    refine ⟨⟨hrefers.1, ?_⟩, hne⟩
    rw [h.objects, Function.update_of_ne hne]
    exact hrefers.2

end Space.NewObject

theorem Space.ResourceLists.newObject {s s' : Space} {block : Addr} {kind : ObjectKind}
    (h : s.ResourceLists) (hnew : s.NewObject block kind s') : s'.ResourceLists where
  lists := h.lists.congr
    (fun p hp => congrArg Capability.resourceList (hnew.slots_of_live hp)) hnew.live_iff
    (fun p hp => congrArg Capability.resource (hnew.slots_of_live hp))
  refers p handlers hp hhandlers := by
    have hold := (hnew.live_iff p).mp hp
    have hsame := hnew.slots_of_live hold
    rw [hsame] at hhandlers
    have hresource : s'.resource p = s.resource p := congrArg Capability.resource hsame
    rw [hresource]
    exact (hnew.refersTo (h.refers p handlers hold hhandlers)).1
  roots t ht := by
    cases decEq t block with
    | isTrue hblock =>
        subst hblock
        rw [hnew.objects, Function.update_self, Option.some.injEq] at ht
        have hzero : s'.resourceLinks (.root t) = Capability.zero.resourceList :=
          congrArg Capability.resourceList (hnew.root ht)
        rw [hzero]
        exact ⟨rfl, rfl⟩
    | isFalse hblock =>
        rw [hnew.objects, Function.update_of_ne hblock] at ht
        have hsame : s'.resourceLinks (.root t) = s.resourceLinks (.root t) :=
          congrArg Capability.resourceList (hnew.slots (.root t) hblock)
        rw [hsame]
        exact h.roots t ht

namespace Kernel

variable {fuel : Nat} {k k' : Kernel} {block : Option Addr} {args : AllocArgs}
  {handlers : Handlers} {resource : Addr}

theorem allocateBlock_newObject {b : Addr} {kind : ObjectKind}
    (hfree : k.space.objects b = none) (hb : b ≠ 0) {k' : Kernel}
    (hobjects : k'.space.objects = (k.allocateBlock b kind).space.objects)
    (hnodes : ∀ b', b' ≠ b → k'.space.nodes b' = k.space.nodes b')
    (hslots : ∀ p, p.block ≠ b → k'.space.slots p = k.space.slots p)
    (hempty : ∀ p, p.block = b → k'.space.Slot p → (k'.space.slots p).handlers = none)
    (hroot : kind = .thread → k'.space.slots (.root b) = Capability.zero)
    (hnode : kind = .node → (k'.space.nodes b).nestedNodes = 1)
    (hrefs : k'.space.updateRefs = (k.allocateBlock b kind).space.updateRefs) :
    k.space.NewObject b kind k'.space := by
  refine ⟨hfree, hb, hobjects, hnodes, hslots, hempty, hroot, hnode, ?_⟩
  intro b' hb'
  rw [hrefs]
  simp [allocateBlock, hb']

/-- Without relocation, the heap hands out the block it has chosen. -/
theorem heapAlloc_still {kind : ObjectKind} {result : Option Addr}
    (h : k.heapAlloc fuel ⟨[], block⟩ kind = some (result, k')) :
    result = block ∧ ∀ b, block = some b → k.space.objects b = none ∧ b ≠ 0 ∧
      k' = k.allocateBlock b kind := by
  simp only [heapAlloc, relocateAll, List.foldlM_nil, Option.pure_def, Option.bind_some] at h
  cases block with
  | none =>
      cases h
      exact ⟨rfl, by simp⟩
  | some b =>
      simp only at h
      split at h
      · rename_i hfree
        cases h
        refine ⟨rfl, fun b' hb' => ?_⟩
        cases hb'
        exact ⟨hfree.1, hfree.2, rfl⟩
      · cases h

theorem not_slot_of_kind {b : Addr} {kind : ObjectKind} {s : Space} {p : SlotPtr}
    (hkind : s.objects b = some kind) (hnode : kind ≠ .node) (hthread : kind ≠ .thread)
    (hp : p.block = b) : ¬s.Slot p := by
  intro hslot
  cases p with
  | node b' i =>
      have hb : b' = b := hp
      have hobject := hslot.1
      rw [hb, hkind, Option.some.injEq] at hobject
      exact hnode hobject
  | root t =>
      have ht : t = b := hp
      have hobject : s.objects t = some .thread := hslot
      rw [ht, hkind, Option.some.injEq] at hobject
      exact hthread hobject

theorem allocateBlock_objects (k : Kernel) (b : Addr) (kind : ObjectKind) :
    (k.allocateBlock b kind).space.objects b = some kind := by
  simp [allocateBlock]

/-- A block for an object without slots. -/
theorem allocateBlock_plain {b : Addr} {kind : ObjectKind} (hfree : k.space.objects b = none)
    (hb : b ≠ 0) (hnode : kind ≠ .node) (hthread : kind ≠ .thread)
    (hspace : k'.space = (k.allocateBlock b kind).space) : k.space.NewObject b kind k'.space := by
  rw [hspace]
  refine allocateBlock_newObject hfree hb rfl (fun _ _ => rfl) (fun _ _ => rfl) ?_
    (fun heq => absurd heq hthread) (fun heq => absurd heq hnode) rfl
  intro p hp hslot
  have hkind := k.allocateBlock_objects b kind
  exact absurd hslot (not_slot_of_kind hkind hnode hthread hp)

theorem allocNode_newObject {slotBits : Nat}
    (h : k.allocNode fuel ⟨[], block⟩ slotBits = some (some resource, k')) :
    k.space.NewObject resource .node k'.space := by
  simp only [allocNode, Option.map_eq_some_iff] at h
  obtain ⟨⟨result, k₁⟩, halloc, hinit⟩ := h
  obtain ⟨hresult, hblock⟩ := heapAlloc_still halloc
  cases result with
  | none => cases hinit
  | some _ =>
      cases hinit
      obtain ⟨hfree, hne, rfl⟩ := hblock resource hresult.symm
      refine allocateBlock_newObject hfree hne rfl ?_ ?_ ?_ (by simp) (by simp [initNode]) rfl
      · intro b' hb'
        simp [initNode, allocateBlock, hb']
      · intro p hp
        cases p with
        | node b' i =>
            have hb' : b' ≠ resource := hp
            simp [initNode, allocateBlock, hb']
        | root t => rfl
      · intro p hp hslot
        cases p with
        | node b' i =>
            have hb' : b' = resource := hp
            subst hb'
            have hi := hslot.2
            simp only [initNode, Function.update_self] at hi
            simp [initNode, hi]
        | root t =>
            have ht : t = resource := hp
            have hobject : (k.allocateBlock resource .node).space.objects t = some .thread := hslot
            rw [ht, allocateBlock_objects] at hobject
            cases hobject

theorem initThread_space (k : Kernel) (t : Addr) (threadId : Nat) :
    (k.initThread t threadId).space = k.space.modifySlot (.root t) fun _ => Capability.zero :=
  rfl

theorem allocThread_newObject (h : k.allocThread fuel ⟨[], block⟩ = some (some resource, k')) :
    k.space.NewObject resource .thread k'.space := by
  unfold allocThread at h
  cases hid : k.findThreadId 0 maxThreads with
  | none =>
      rw [hid] at h
      cases h
  | some threadId =>
      simp only [hid, Option.map_eq_some_iff] at h
      obtain ⟨⟨result, k₁⟩, halloc, hinit⟩ := h
      obtain ⟨hresult, hblock⟩ := heapAlloc_still halloc
      cases result with
      | none => cases hinit
      | some _ =>
          cases hinit
          obtain ⟨hfree, hne, rfl⟩ := hblock resource hresult.symm
          rw [initThread_space]
          refine ⟨hfree, hne, rfl, fun _ _ => rfl, ?_, ?_, ?_, by simp, ?_⟩
          · intro p hp
            have hroot : p ≠ .root resource := fun heq => hp (heq ▸ rfl)
            simp [Space.modifySlot, hroot, allocateBlock, setThreadId]
          · intro p hp hslot
            cases p with
            | node b' i =>
                have hb' : b' = resource := hp
                have hobject : (k.allocateBlock resource .thread).space.objects b' = some .node := hslot.1
                rw [hb', allocateBlock_objects] at hobject
                cases hobject
            | root t =>
                have ht : t = resource := hp
                simp [Space.modifySlot, ht, Capability.zero]
          · intro _
            simp [Space.modifySlot]
          · intro b' hb'
            simp [Space.modifySlot, allocateBlock, setThreadId, hb']

theorem allocEndpoint_newObject
    (h : k.allocEndpoint fuel ⟨[], block⟩ = some (some resource, k')) :
    k.space.NewObject resource .endpoint k'.space := by
  simp only [allocEndpoint, Option.map_eq_some_iff] at h
  obtain ⟨⟨result, k₁⟩, halloc, hinit⟩ := h
  obtain ⟨hresult, hblock⟩ := heapAlloc_still halloc
  cases result with
  | none => cases hinit
  | some _ =>
      cases hinit
      obtain ⟨hfree, hne, rfl⟩ := hblock resource hresult.symm
      exact allocateBlock_plain hfree hne (by simp) (by simp) rfl

theorem allocObject_newObject
    (h : k.allocObject fuel ⟨[], block⟩ args = some (handlers, some resource, k')) :
    ∃ kind, handlers.objectKind = some kind ∧ k.space.NewObject resource kind k'.space := by
  unfold allocObject at h
  split at h
  · simp only [Option.map_eq_some_iff, Prod.mk.injEq] at h
    obtain ⟨⟨result, k₁⟩, halloc, rfl, rfl, rfl⟩ := h
    obtain ⟨hresult, hblock⟩ := heapAlloc_still halloc
    obtain ⟨hfree, hne, rfl⟩ := hblock resource hresult.symm
    exact ⟨.untyped, rfl, allocateBlock_plain hfree hne (by simp) (by simp) rfl⟩
  · split at h
    · simp only [Option.map_eq_some_iff, Prod.mk.injEq] at h
      obtain ⟨⟨result, k₁⟩, halloc, rfl, rfl, rfl⟩ := h
      exact ⟨.node, rfl, allocNode_newObject halloc⟩
    · split at h
      · simp only [Option.map_eq_some_iff, Prod.mk.injEq] at h
        obtain ⟨⟨result, k₁⟩, halloc, rfl, rfl, rfl⟩ := h
        exact ⟨.thread, rfl, allocThread_newObject halloc⟩
      · simp only [Option.map_eq_some_iff, Prod.mk.injEq] at h
        obtain ⟨⟨result, k₁⟩, halloc, rfl, rfl, rfl⟩ := h
        exact ⟨.endpoint, rfl, allocEndpoint_newObject halloc⟩

/-- Without relocation, nothing else happens to the capability space. -/
theorem allocObject_still {result : Option Addr}
    (h : k.allocObject fuel ⟨[], block⟩ args = some (handlers, result, k')) :
    k'.scheduler = k.scheduler ∧ (result = none → k'.space = k.space) := by
  have hstill : ∀ {kind : ObjectKind} {k k' : Kernel} {result : Option Addr},
      k.heapAlloc fuel ⟨[], block⟩ kind = some (result, k') →
      k'.scheduler = k.scheduler ∧ (result = none → k'.space = k.space) := by
    intro kind k k' result halloc
    simp only [heapAlloc, relocateAll, List.foldlM_nil, Option.pure_def, Option.bind_some]
      at halloc
    cases block with
    | none =>
        cases halloc
        exact ⟨rfl, fun _ => rfl⟩
    | some b =>
        simp only at halloc
        split at halloc
        · cases halloc
          exact ⟨rfl, by simp⟩
        · cases halloc
  unfold allocObject at h
  split at h
  · simp only [Option.map_eq_some_iff, Prod.mk.injEq] at h
    obtain ⟨⟨result, k₁⟩, halloc, -, rfl, rfl⟩ := h
    exact hstill halloc
  · split at h
    · simp only [Option.map_eq_some_iff, Prod.mk.injEq, allocNode] at h
      obtain ⟨_, ⟨⟨result, k₁⟩, halloc, hinit⟩, -, rfl, rfl⟩ := h
      have hk := hstill halloc
      cases result with
      | none =>
          cases hinit
          exact hk
      | some b =>
          cases hinit
          exact ⟨hk.1, by simp⟩
    · split at h
      · simp only [Option.map_eq_some_iff, Prod.mk.injEq] at h
        obtain ⟨⟨result, k₁⟩, halloc, -, rfl, rfl⟩ := h
        unfold allocThread at halloc
        cases hid : k.findThreadId 0 maxThreads with
        | none =>
            rw [hid] at halloc
            cases halloc
            exact ⟨rfl, fun _ => rfl⟩
        | some threadId =>
            simp only [hid, Option.map_eq_some_iff] at halloc
            obtain ⟨⟨result, k₂⟩, halloc, hinit⟩ := halloc
            have hk := hstill halloc
            cases result with
            | none =>
                cases hinit
                exact hk
            | some b =>
                cases hinit
                exact ⟨hk.1, by simp⟩
      · simp only [Option.map_eq_some_iff, Prod.mk.injEq, allocEndpoint] at h
        obtain ⟨_, ⟨⟨result, k₁⟩, halloc, hinit⟩, -, rfl, rfl⟩ := h
        have hk := hstill halloc
        cases result with
        | none =>
            cases hinit
            exact hk
        | some b =>
            cases hinit
            exact ⟨hk.1, by simp⟩

/-! The first capability. -/

variable {address depth e : Nat} {flags : CapFlags}

/-- A new object either gets a slot or is freed again. -/
theorem populateCapabilitySlot_cases
    (h : k.populateCapabilitySlot fuel address depth resource handlers flags = some (e, k')) :
    (e ≠ 0 ∧ ∃ kinds, k' = { k.freeIfHeapManaged flags resource with kinds := kinds }) ∨
      (e = 0 ∧ ∃ result k₁ kinds,
        k.lookUpCapabilityRelative fuel address depth = some (some result, k₁) ∧
        (k.space.slots result.slot).handlers = none ∧
        ¬k.TooMuchNesting handlers result.container ∧
        k' = { k.fillSlot result address resource handlers flags with kinds := kinds }) := by
  have hfree : ∀ kinds, ∃ kinds', { k with kinds := kinds }.freeIfHeapManaged flags resource =
      { k.freeIfHeapManaged flags resource with kinds := kinds' } := by
    intro kinds
    unfold freeIfHeapManaged
    split <;> exact ⟨_, rfl⟩
  have hfill : ∀ kinds result, ∃ kinds',
      { k with kinds := kinds }.fillSlot result address resource handlers flags =
        { k.fillSlot result address resource handlers flags with kinds := kinds' } := by
    intro kinds result
    unfold fillSlot
    simp only
    split <;> exact ⟨_, rfl⟩
  simp only [populateCapabilitySlot, Option.map_eq_some_iff] at h
  obtain ⟨⟨found, k₁⟩, hfound, h⟩ := h
  obtain ⟨kinds, rfl⟩ := lookUpCapabilityRelative_kinds hfound
  obtain ⟨kinds₁, hfreed⟩ := hfree kinds
  cases found with
  | none =>
      cases h
      exact .inl ⟨by decide, kinds₁, hfreed⟩
  | some result =>
      simp only [hfreed] at h
      split at h
      · cases h
        exact .inl ⟨by decide, _, rfl⟩
      · rename_i hempty
        split at h
        · cases h
          exact .inl ⟨by decide, _, rfl⟩
        · rename_i hnesting
          obtain ⟨kinds₂, hfilled⟩ := hfill kinds result
          rw [hfilled] at h
          cases h
          refine .inr ⟨rfl, result, _, _, hfound, ?_, hnesting, rfl⟩
          simpa using hempty

end Kernel

namespace Space

variable {s s' : Space} {p q : SlotPtr} {handlers : Handlers} {resource : Addr}

/-- An object without a capability to it and without one in it. -/
structure Fresh (s : Space) (handlers : Handlers) (resource : Addr) : Prop where
  refers : s.RefersTo handlers resource
  unused : ∀ q, s.Live q → s.resource q ≠ resource
  empty : ∀ q, s.Live q → q.block ≠ resource

theorem NewObject.fresh {kind : ObjectKind} (h : s.NewObject resource kind s')
    (hhandlers : handlers.objectKind = some kind) (hlists : s.ResourceLists) :
    s'.Fresh handlers resource where
  refers := by
    unfold RefersTo
    rw [hhandlers, h.objects, Function.update_self]
    exact ⟨h.notNull, rfl⟩
  unused q hq := by
    have hold := (h.live_iff q).mp hq
    have hsome := Option.ne_none_iff_exists'.mp hold.2
    obtain ⟨handlers', hhandlers'⟩ := hsome
    have hne := (h.refersTo (hlists.refers q handlers' hold hhandlers')).2
    have hsame : s'.resource q = s.resource q :=
      congrArg Capability.resource (h.slots_of_live hold)
    rw [hsame]
    exact hne
  empty q hq := h.block_ne_of_slot ((h.live_iff q).mp hq).1

/-- Only the object that is freed is gone. -/
theorem live_of_freed (hslots : s'.slots = s.slots) (hnodes : s'.nodes = s.nodes)
    (hobjects : s'.objects = Function.update s.objects resource none)
    (hempty : ∀ q, s.Live q → q.block ≠ resource) (q : SlotPtr) : s'.Live q ↔ s.Live q := by
  unfold Live at hempty ⊢
  rw [hslots]
  have hother : q.block ≠ resource → (s'.Slot q ↔ s.Slot q) := by
    intro hne
    cases q with
    | node b i =>
        have hb : b ≠ resource := hne
        simp [Slot, hobjects, hnodes, hb]
    | root t =>
        have ht : t ≠ resource := hne
        simp [Slot, hobjects, ht]
  constructor
  · intro hlive
    refine ⟨?_, hlive.2⟩
    apply (hother ?_).mp hlive.1
    intro hin
    cases q with
    | node b i =>
        have hb : b = resource := hin
        have hnode := hlive.1.1
        simp [hobjects, hb] at hnode
    | root t =>
        have ht : t = resource := hin
        have hthread : s'.objects t = some .thread := hlive.1
        simp [hobjects, ht] at hthread
  · exact fun hlive => ⟨(hother (hempty q hlive)).mpr hlive.1, hlive.2⟩

theorem ResourceLists.freeFresh (h : s.ResourceLists) (hfresh : s.Fresh handlers resource)
    (hslots : s'.slots = s.slots) (hnodes : s'.nodes = s.nodes)
    (hobjects : s'.objects = Function.update s.objects resource none) : s'.ResourceLists := by
  have hlive := live_of_freed hslots hnodes hobjects hfresh.empty
  have hlinks : s'.resourceLinks = s.resourceLinks := by
    unfold resourceLinks
    rw [hslots]
  have hresource : s'.resource = s.resource := by
    unfold Space.resource
    rw [hslots]
  constructor
  · rw [hlinks, hresource]
    exact h.lists.congr (fun _ _ => rfl) hlive (fun _ _ => rfl)
  · intro q handlers' hq hhandlers
    have hold := (hlive q).mp hq
    rw [hslots] at hhandlers
    have hrefers := h.refers q handlers' hold hhandlers
    have hne := hfresh.unused q hold
    unfold RefersTo at hrefers ⊢
    rw [hresource, hobjects, Function.update_of_ne hne]
    exact hrefers
  · intro t ht
    rw [hobjects] at ht
    rw [hlinks]
    cases decEq t resource with
    | isTrue heq => simp [heq] at ht
    | isFalse hne =>
        rw [Function.update_of_ne hne] at ht
        exact h.roots t ht

/-- A capability to a fresh resource in an empty slot. -/
theorem ResourceLists.fill (h : s.ResourceLists) (hfresh : s.Fresh handlers resource)
    (hp : s.Slot p) (hempty : (s.slots p).handlers = none) {c : Capability} (hhandlers : c.handlers = some handlers)
    (hresource : c.resource = resource) (hlinks : c.resourceList = ⟨some p, some p, none, none⟩) :
    (s.modifySlot p fun _ => c).ResourceLists := by
  have hitem : ¬s.Live p := fun hlive => hlive.2 hempty
  have hself : (s.modifySlot p fun _ => c).slots p = c := by simp [modifySlot]
  have hother : ∀ q, q ≠ p → (s.modifySlot p fun _ => c).slots q = s.slots q := by
    intro q hq
    simp [modifySlot, hq]
  have hslot : ∀ q, (s.modifySlot p fun _ => c).Slot q ↔ s.Slot q := slot_congr rfl rfl
  have hlive : ∀ q, (s.modifySlot p fun _ => c).Live q ↔ s.Live q ∨ q = p := by
    intro q
    unfold Live
    rw [hslot]
    cases decEq q p with
    | isTrue hq => simp [hq, hself, hhandlers, hp]
    | isFalse hq => simp [hq, hother]
  have hne : ∀ q, s.Live q → q ≠ p := fun q hq heq => hitem (heq ▸ hq)
  have hkey : ∀ q, s.Live q → (s.modifySlot p fun _ => c).resource q = s.resource q :=
    fun q hq => congrArg Capability.resource (hother q (hne q hq))
  have hkeySelf : (s.modifySlot p fun _ => c).resource p = resource :=
    (congrArg Capability.resource hself).trans hresource
  constructor
  · refine h.lists.init hitem ?_ ?_ ?_ hlive hkey
    · exact (congrArg Capability.resourceList hself).trans hlinks
    · exact fun q hq => congrArg Capability.resourceList (hother q (hne q hq))
    · intro q hq
      rw [hkey q hq, hkeySelf]
      exact hfresh.unused q hq
  · intro q handlers' hq hhandlers'
    cases (hlive q).mp hq with
    | inl hold =>
        rw [hother q (hne q hold)] at hhandlers'
        rw [hkey q hold]
        exact h.refers q handlers' hold hhandlers'
    | inr heq =>
        subst heq
        rw [hself, hhandlers, Option.some.injEq] at hhandlers'
        rw [hkeySelf, ← hhandlers']
        exact hfresh.refers
  · intro t ht
    cases decEq (.root t) p with
    | isTrue heq =>
        have hself' : (s.modifySlot p fun _ => c).resourceLinks (.root t) =
            ⟨some p, some p, none, none⟩ := by
          rw [heq]
          exact (congrArg Capability.resourceList hself).trans hlinks
        rw [hself']
        exact ⟨rfl, rfl⟩
    | isFalse hne =>
        have hsame : (s.modifySlot p fun _ => c).resourceLinks (.root t) =
            s.resourceLinks (.root t) :=
          congrArg Capability.resourceList (hother _ hne)
        rw [hsame]
        exact h.roots t ht

theorem SameResources.nestNode (s : Space) (handlers : Handlers) (container resource : Addr) :
    s.SameResources (Kernel.nestNode s handlers container resource) := by
  unfold Kernel.nestNode
  split
  · refine ⟨fun b => ?_, rfl, fun _ => rfl, fun _ => rfl, rfl⟩
    cases decEq b resource with
    | isTrue hb => simp [hb]
    | isFalse hb => simp [hb]
  · exact .refl s

theorem Fresh.congr (h : s.Fresh handlers resource) (hsame : s.SameResources s') :
    s'.Fresh handlers resource where
  refers := by
    have hrefers := h.refers
    unfold RefersTo at hrefers ⊢
    rw [hsame.objects]
    exact hrefers
  unused q hq := by
    rw [hsame.resource]
    exact h.unused q ((hsame.live_iff q).mp hq)
  empty q hq := h.empty q ((hsame.live_iff q).mp hq)

end Space

namespace Kernel

variable {fuel : Nat} {k k' : Kernel} {handlers : Handlers} {resource : Addr}
  {address depth e : Nat} {flags : CapFlags}

theorem resourceLists_populate (h : k.space.ResourceLists) (hcurrent : k.CurrentAllocated)
    (hfresh : k.space.Fresh handlers resource)
    (hpopulate : k.populateCapabilitySlot fuel address depth resource handlers flags =
      some (e, k')) : k'.space.ResourceLists := by
  cases populateCapabilitySlot_cases hpopulate with
  | inl hfailed =>
      obtain ⟨-, kinds, rfl⟩ := hfailed
      unfold freeIfHeapManaged
      split
      · exact h.freeFresh hfresh rfl rfl rfl
      · exact h
  | inr hdone =>
      obtain ⟨-, result, k₁, kinds, hlookUp, hempty, -, rfl⟩ := hdone
      obtain ⟨-, -, -, hslot⟩ :=
        lookUpCapabilityRelative_slot h.nodesAllocated hcurrent hlookUp
      have hsame := Space.SameResources.nestNode k.space handlers result.container resource
      have hempty' := (hsame.handlers result.slot).trans hempty
      have hfilled := (h.congr hsame).fill (hfresh.congr hsame) ((hsame.slot_iff _).mpr hslot) hempty'
        (c := newCapability result.slot resource handlers flags
          (k.slotAddress address result.depth)) rfl rfl rfl
      unfold fillSlot
      simp only
      split
      · exact hfilled.congr (.heapSetUpdateCapability ..)
      · exact hfilled

end Kernel

end Cenix
