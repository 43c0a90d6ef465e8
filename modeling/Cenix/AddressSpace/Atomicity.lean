import Cenix.AddressSpace.ThreadIds
import Cenix.Kernel.Boot

namespace Cenix

open LinkedLists

/-! A failed allocation in an address space. -/

namespace Kernel

/-- `k'` has the same allocated blocks as `k`, with the same contents, headers
and capabilities, and the same thread ids, hash buckets and queues. -/
structure Unchanged (k k' : Kernel) : Prop where
  objects : k'.space.objects = k.space.objects
  slots : ∀ p, k.space.Slot p → k'.space.slots p = k.space.slots p
  nodes : ∀ b, k.space.objects b ≠ none → k'.space.nodes b = k.space.nodes b
  updateRefs : ∀ b, k.space.objects b ≠ none → k'.space.updateRefs b = k.space.updateRefs b
  kinds : ∀ b, k.space.objects b ≠ none → k'.kinds b = k.kinds b
  contents : ∀ b, k.space.objects b ≠ none → k'.contents b = k.contents b
  threads : ∀ b, k.space.objects b ≠ none → k'.threads b = k.threads b
  endpoints : ∀ b, k.space.objects b ≠ none → k'.endpoints b = k.endpoints b
  messages : k'.messages = k.messages
  scheduler : k'.scheduler = k.scheduler
  threadHashTable : k'.threadHashTable = k.threadHashTable
  usedThreadIds : k'.usedThreadIds = k.usedThreadIds

theorem Unchanged.refl (k : Kernel) : k.Unchanged k := by
  constructor <;> intros <;> rfl

/-- `k'` is `k` up to the movable blocks that were relocated. -/
def UnchangedUpToRelocation (fuel : Nat) (k k' : Kernel) : Prop :=
  ∃ moves moved, k.relocateAll fuel moves = some moved ∧ moved.Unchanged k'

/-- A thread that address_space_alloc has permission for, for which there is an
id and for which the heap has a place. -/
def AllocatesThread (k : Kernel) (slot : SlotPtr) (placement : Placement)
    (args : AllocArgs) : Prop :=
  args.type = typeThread ∧ (k.space.slots slot).accessRights.getLsbD args.type = true ∧
    k.findThreadId 0 maxThreads ≠ none ∧ placement.block ≠ none

instance (k : Kernel) (slot : SlotPtr) (placement : Placement) (args : AllocArgs) :
    Decidable (k.AllocatesThread slot placement args) :=
  inferInstanceAs (Decidable (_ ∧ _))

/-! Objects that fill a new block and touch nothing outside of it. -/

def InBlock (block : Addr) : SlotPtr → Prop
  | .node b _ => b = block
  | .root t => t = block

structure OnlyBlock (block : Addr) (k k' : Kernel) : Prop where
  objects : ∀ b, b ≠ block → k'.space.objects b = k.space.objects b
  slots : ∀ p, ¬InBlock block p → k'.space.slots p = k.space.slots p
  nodes : ∀ b, b ≠ block → k'.space.nodes b = k.space.nodes b
  updateRefs : ∀ b, b ≠ block → k'.space.updateRefs b = k.space.updateRefs b
  kinds : ∀ b, b ≠ block → k'.kinds b = k.kinds b
  contents : ∀ b, b ≠ block → k'.contents b = k.contents b
  threads : ∀ b, b ≠ block → k'.threads b = k.threads b
  endpoints : ∀ b, b ≠ block → k'.endpoints b = k.endpoints b
  messages : k'.messages = k.messages
  scheduler : k'.scheduler = k.scheduler
  threadHashTable : k'.threadHashTable = k.threadHashTable
  usedThreadIds : k'.usedThreadIds = k.usedThreadIds

variable {fuel : Nat} {k k' k₁ : Kernel} {block : Addr}

theorem slot_not_inBlock (hfree : k.space.objects block = none) {p : SlotPtr}
    (hp : k.space.Slot p) : ¬InBlock block p := by
  intro hin
  cases p with
  | node b i =>
      have hb : b = block := hin
      have hnode := hp.1
      rw [hb, hfree] at hnode
      cases hnode
  | root t =>
      have ht : t = block := hin
      have hthread : k.space.objects t = some .thread := hp
      rw [ht, hfree] at hthread
      cases hthread

/-- Freeing the block takes everything back. -/
theorem OnlyBlock.heapFree (h : OnlyBlock block k k') (hfree : k.space.objects block = none) :
    k.Unchanged (k'.heapFree block) := by
  have hne : ∀ b, k.space.objects b ≠ none → b ≠ block := by
    intro b hb heq
    exact hb (heq ▸ hfree)
  have hobjects : (k'.heapFree block).space.objects = k.space.objects := by
    funext b
    cases decEq b block with
    | isTrue hb => simp [Kernel.heapFree, hb, hfree]
    | isFalse hb => simp [Kernel.heapFree, hb, h.objects b hb]
  have hrefs : ∀ b, b ≠ block →
      (k'.heapFree block).space.updateRefs b = k.space.updateRefs b := by
    intro b hb
    simp [Kernel.heapFree, hb, h.updateRefs b hb]
  have hkinds : ∀ b, b ≠ block → (k'.heapFree block).kinds b = k.kinds b := by
    intro b hb
    simp [Kernel.heapFree, hb, h.kinds b hb]
  exact {
    objects := hobjects
    slots := fun p hp => h.slots p (slot_not_inBlock hfree hp)
    nodes := fun b hb => h.nodes b (hne b hb)
    updateRefs := fun b hb => hrefs b (hne b hb)
    kinds := fun b hb => hkinds b (hne b hb)
    contents := fun b hb => h.contents b (hne b hb)
    threads := fun b hb => h.threads b (hne b hb)
    endpoints := fun b hb => h.endpoints b (hne b hb)
    messages := h.messages
    scheduler := h.scheduler
    threadHashTable := h.threadHashTable
    usedThreadIds := h.usedThreadIds }

theorem allocateBlock_onlyBlock (k : Kernel) (block : Addr) (kind : ObjectKind) :
    OnlyBlock block k (k.allocateBlock block kind) := by
  constructor <;> intros <;> simp_all [allocateBlock]

theorem initNode_onlyBlock (h : OnlyBlock block k k') (slotBits : Nat) :
    OnlyBlock block k (k'.initNode block slotBits) := by
  refine { h with slots := ?_, nodes := ?_ }
  · intro p hp
    cases p with
    | node b i =>
        have hb : b ≠ block := hp
        simp [initNode, hb, h.slots _ hp]
    | root t => exact h.slots _ hp
  · intro b hb
    simp [initNode, hb, h.nodes b hb]

theorem initEndpoint_onlyBlock (h : OnlyBlock block k k') (endpoint : EndpointCapability) :
    OnlyBlock block k
      { k' with endpoints := Function.update k'.endpoints block endpoint } := by
  refine { h with endpoints := ?_ }
  intro b hb
  simp [hb, h.endpoints b hb]

/-! The allocations. -/

/-- What an allocation returns: nothing, or a new block that is still locked. -/
inductive Allocated (moved : Kernel) : Option Addr → Kernel → Prop where
  | failed : Allocated moved none moved
  | block {block : Addr} {k : Kernel} (hfree : moved.space.objects block = none)
      (hkind : k.kinds block = .immovable) (honly : OnlyBlock block moved k) :
      Allocated moved (some block) k

variable {placement : Placement} {result : Option Addr}

theorem heapAlloc_allocated {kind : ObjectKind}
    (h : k.heapAlloc fuel placement kind = some (result, k')) :
    result = placement.block ∧ ∃ moved, k.relocateAll fuel placement.moves = some moved ∧
      Allocated moved result k' := by
  simp only [heapAlloc, Option.bind_eq_some_iff] at h
  obtain ⟨moved, hmoved, h⟩ := h
  cases hblock : placement.block with
  | none =>
      simp only [hblock, Option.some.injEq, Prod.mk.injEq] at h
      obtain ⟨rfl, rfl⟩ := h
      exact ⟨rfl, moved, hmoved, .failed⟩
  | some block =>
      simp only [hblock] at h
      split at h
      · rename_i hfree
        simp only [Option.some.injEq, Prod.mk.injEq] at h
        obtain ⟨rfl, rfl⟩ := h
        have honly := allocateBlock_onlyBlock moved block kind
        exact ⟨rfl, moved, hmoved, .block hfree.1 (by simp [allocateBlock]) honly⟩
      · cases h

theorem allocNode_allocated {slotBits : Nat}
    (h : k.allocNode fuel placement slotBits = some (result, k')) :
    ∃ moved, k.relocateAll fuel placement.moves = some moved ∧ Allocated moved result k' := by
  simp only [allocNode, Option.map_eq_some_iff] at h
  obtain ⟨⟨block, k₁⟩, halloc, h⟩ := h
  obtain ⟨-, moved, hmoved, hallocated⟩ := heapAlloc_allocated halloc
  refine ⟨moved, hmoved, ?_⟩
  cases hallocated with
  | failed =>
      cases h
      exact .failed
  | block hfree hkind honly =>
      cases h
      exact .block hfree hkind (initNode_onlyBlock honly _)

theorem allocEndpoint_allocated
    (h : k.allocEndpoint fuel placement = some (result, k')) :
    ∃ moved, k.relocateAll fuel placement.moves = some moved ∧ Allocated moved result k' := by
  simp only [allocEndpoint, Option.map_eq_some_iff] at h
  obtain ⟨⟨block, k₁⟩, halloc, h⟩ := h
  obtain ⟨-, moved, hmoved, hallocated⟩ := heapAlloc_allocated halloc
  refine ⟨moved, hmoved, ?_⟩
  cases hallocated with
  | failed =>
      cases h
      exact .failed
  | block hfree hkind honly =>
      cases h
      exact .block hfree hkind (initEndpoint_onlyBlock honly _)

theorem findThreadId_unused {i left threadId : Nat}
    (h : k.findThreadId i left = some threadId) : k.usedThreadIds threadId = false := by
  induction left generalizing i with
  | zero => cases h
  | succ left ih =>
      unfold findThreadId at h
      split at h
      · exact ih h
      · rename_i hunused
        cases h
        simpa using hunused

/-- A thread that could not be allocated gives its id back. -/
theorem allocThread_failed (h : k.allocThread fuel placement = some (none, k')) :
    UnchangedUpToRelocation fuel k k' := by
  unfold allocThread at h
  cases hid : k.findThreadId 0 maxThreads with
  | none =>
      simp only [hid, Option.some.injEq, Prod.mk.injEq, true_and] at h
      subst h
      exact ⟨[], k, rfl, Unchanged.refl k⟩
  | some threadId =>
      simp only [hid, Option.map_eq_some_iff] at h
      obtain ⟨⟨block, k₁⟩, halloc, h⟩ := h
      obtain ⟨-, moved, hmoved, hallocated⟩ := heapAlloc_allocated halloc
      cases hallocated with
      | block => cases h
      | failed =>
          simp only [Prod.mk.injEq, true_and] at h
          subst h
          have hids : (k.setThreadId threadId true) =
              k.withThreadIds (Function.update k.usedThreadIds threadId true) := rfl
          rw [hids, relocateAll_threadIds, Option.map_eq_some_iff] at hmoved
          obtain ⟨moved, hmoved, rfl⟩ := hmoved
          have hback : (moved.withThreadIds
              (Function.update k.usedThreadIds threadId true)).setThreadId threadId false =
              moved := by
            unfold setThreadId withThreadIds
            have hunused := findThreadId_unused hid
            rw [Function.update_idem, ← hunused, Function.update_eq_self,
              ← relocateAll_usedThreadIds hmoved]
          rw [hback]
          exact ⟨placement.moves, moved, hmoved, Unchanged.refl moved⟩

/-- One that could has its id marked as used, in a block that is still locked. -/
theorem allocThread_some {thread : Addr}
    (h : k.allocThread fuel placement = some (some thread, k')) :
    placement.block ≠ none ∧ k'.kinds thread = .immovable ∧
      ∃ threadId, k.findThreadId 0 maxThreads = some threadId ∧
        k'.usedThreadIds threadId = true := by
  unfold allocThread at h
  cases hid : k.findThreadId 0 maxThreads with
  | none => simp [hid] at h
  | some threadId =>
      simp only [hid, Option.map_eq_some_iff] at h
      obtain ⟨⟨block, k₁⟩, halloc, h⟩ := h
      obtain ⟨hblock, moved, hmoved, hallocated⟩ := heapAlloc_allocated halloc
      cases hallocated with
      | failed => cases h
      | block hfree hkind honly =>
          cases h
          refine ⟨?_, hkind, threadId, rfl, ?_⟩
          · rw [← hblock]
            exact Option.some_ne_none thread
          · have hids : k₁.usedThreadIds threadId = true := by
              rw [honly.usedThreadIds, relocateAll_usedThreadIds hmoved]
              simp [setThreadId]
            exact hids

/-- The lock of a slot's node does not interfere with a block that is freed. -/
theorem unlock_heapFree {old kinds : Addr → Kind} {container resource : Addr}
    {shouldUnlock : Bool} (h : Locked old container shouldUnlock kinds)
    (hkind : old resource = .immovable) :
    unlockIf shouldUnlock (Function.update kinds resource .available) container =
      Function.update old resource .available := by
  cases h with
  | already => rfl
  | now hmovable =>
      have hne : resource ≠ container := by
        intro heq
        rw [heq, hmovable] at hkind
        cases hkind
      simp only [unlockIf, heapUnlock, if_true]
      rw [Function.update_comm hne, Function.update_idem, ← hmovable, Function.update_eq_self]

/-- A new object that does not get a slot is freed, and that is all. -/
theorem populateCapabilitySlot_failed {address depth : Nat} {resource : Addr}
    {handlers : Handlers} {e : Nat} (hkind : k.kinds resource = .immovable)
    (h : k.populateCapabilitySlot fuel address depth resource handlers ⟨true, false, false⟩ =
      some (e, k')) (he : e ≠ 0) : k' = k.heapFree resource := by
  simp only [populateCapabilitySlot, Option.map_eq_some_iff] at h
  obtain ⟨⟨found, k₁⟩, hfound, h⟩ := h
  obtain ⟨kinds, rfl, hlocked⟩ := lookUpCapabilityRelative_locked hfound
  cases found with
  | none =>
      have hsame : kinds = k.kinds := hlocked
      subst hsame
      simp only [Prod.mk.injEq] at h
      rw [← h.2]
      rfl
  | some result =>
      have hunlock : ({ k with kinds := kinds }.heapFree resource).unlockLookedUpCapability
          result = k.heapFree resource := by
        unfold Kernel.heapFree unlockLookedUpCapability
        simp only [unlock_heapFree hlocked hkind]
      simp only at h
      split at h
      · simp only [Prod.mk.injEq] at h
        exact h.2.symm.trans hunlock
      · split at h
        · simp only [Prod.mk.injEq] at h
          exact h.2.symm.trans hunlock
        · simp only [Prod.mk.injEq] at h
          exact absurd h.1.symm he

theorem UnchangedUpToRelocation.usedThreadIds (h : UnchangedUpToRelocation fuel k k') :
    k'.usedThreadIds = k.usedThreadIds := by
  obtain ⟨moves, moved, hmoved, hsame⟩ := h
  rw [hsame.usedThreadIds, relocateAll_usedThreadIds hmoved]

/-- An object that is freed because it does not get a slot. -/
theorem Allocated.populate_failed {moved : Kernel} {address depth e : Nat}
    {resource : Addr} {handlers : Handlers} {moves : List (Addr × Addr)}
    (hmoved : k.relocateAll fuel moves = some moved)
    (hallocated : Allocated moved (some resource) k₁)
    (h : k₁.populateCapabilitySlot fuel address depth resource handlers ⟨true, false, false⟩ =
      some (e, k')) (he : e ≠ 0) : UnchangedUpToRelocation fuel k k' := by
  cases hallocated with
  | block hfree hkind honly =>
      rw [populateCapabilitySlot_failed hkind h he]
      exact ⟨moves, moved, hmoved, honly.heapFree hfree⟩

/-- A thread that does not get a slot keeps its id. -/
theorem allocThread_populate_failed {thread : Addr} {address depth e : Nat}
    (halloc : k.allocThread fuel placement = some (some thread, k₁))
    (h : k₁.populateCapabilitySlot fuel address depth thread .thread ⟨true, false, false⟩ =
      some (e, k')) (he : e ≠ 0) : ¬UnchangedUpToRelocation fuel k k' := by
  obtain ⟨-, hkind, threadId, hid, hused⟩ := allocThread_some halloc
  intro hsame
  have hunused := findThreadId_unused hid
  rw [← hsame.usedThreadIds, populateCapabilitySlot_failed hkind h he] at hunused
  have hused' : (k₁.heapFree thread).usedThreadIds threadId = true := hused
  rw [hused'] at hunused
  cases hunused

variable {slot : SlotPtr} {args : AllocArgs} {e : Nat}

theorem allocObject_allocated {handlers : Handlers} (htype : args.type ≠ typeThread)
    (halloc : k.allocObject fuel placement args = some (handlers, result, k₁)) :
    ∃ moved, k.relocateAll fuel placement.moves = some moved ∧
      Allocated moved result k₁ := by
  unfold allocObject at halloc
  split at halloc
  · simp only [Option.map_eq_some_iff, Prod.mk.injEq] at halloc
    obtain ⟨⟨block, k₂⟩, halloc, -, rfl, rfl⟩ := halloc
    exact (heapAlloc_allocated halloc).2
  · split at halloc
    · simp only [Option.map_eq_some_iff, Prod.mk.injEq] at halloc
      obtain ⟨⟨block, k₂⟩, halloc, -, rfl, rfl⟩ := halloc
      exact allocNode_allocated halloc
    · simp only [Option.map_eq_some_iff, Prod.mk.injEq] at halloc
      obtain ⟨⟨block, k₂⟩, halloc, -, rfl, rfl⟩ := halloc
      exact allocEndpoint_allocated halloc

theorem allocObject_thread {handlers : Handlers} (htype : args.type = typeThread)
    (halloc : k.allocObject fuel placement args = some (handlers, result, k₁)) :
    handlers = .thread ∧ k.allocThread fuel placement = some (result, k₁) := by
  unfold allocObject at halloc
  rw [htype, if_neg (by decide), if_neg (by decide), if_pos rfl] at halloc
  simp only [Option.map_eq_some_iff, Prod.mk.injEq] at halloc
  obtain ⟨⟨block, k₂⟩, halloc, hhandlers, rfl, rfl⟩ := halloc
  exact ⟨hhandlers.symm, halloc⟩

theorem allocThread_none (h : k.allocThread fuel placement = some (none, k')) :
    k.findThreadId 0 maxThreads = none ∨ placement.block = none := by
  unfold allocThread at h
  cases hid : k.findThreadId 0 maxThreads with
  | none => exact Or.inl rfl
  | some threadId =>
      simp only [hid, Option.map_eq_some_iff] at h
      obtain ⟨⟨block, k₁⟩, halloc, h⟩ := h
      obtain ⟨hblock, moved, hmoved, hallocated⟩ := heapAlloc_allocated halloc
      cases hallocated with
      | block => cases h
      | failed => exact Or.inr hblock.symm

end Kernel

end Cenix
