import Cenix.Endpoint.Relocation

namespace Cenix

open LinkedLists

/-! Lookups and relocations leave locked blocks locked and where they are. -/

namespace Kernel

variable {fuel : Nat} {k k' k₁ : Kernel} {result : Option LookUpResult} {src dest : Addr}

/-- An allocated block that the heap must not move. -/
def Pinned (k : Kernel) (b : Addr) : Prop :=
  k.kinds b = .immovable ∧ k.space.objects b ≠ none

theorem lookUpThreadById_locked {threadId bucketNumber : Nat} {thread : Option Addr}
    {shouldUnlock : Bool}
    (h : lookUpThreadById fuel k threadId bucketNumber = some (thread, shouldUnlock, k')) :
    ∃ kinds, k' = { k with kinds := kinds } ∧ match thread with
      | none => kinds = k.kinds
      | some t => Locked k.kinds t shouldUnlock kinds := by
  simp only [lookUpThreadById, Option.map_eq_some_iff] at h
  obtain ⟨found, -, h⟩ := h
  cases found with
  | none =>
      cases h
      exact ⟨k.kinds, rfl, rfl⟩
  | some t =>
      cases h
      exact ⟨_, rfl, heapLock_locked k.kinds t⟩

theorem lookUpCapabilityAbsolute_locked {address : AbsoluteCapabilityAddress}
    (h : k.lookUpCapabilityAbsolute fuel address = some (result, k')) :
    ∃ kinds, k' = { k with kinds := kinds } ∧ LeavesLocked k.kinds result kinds := by
  simp only [lookUpCapabilityAbsolute, Option.bind_eq_some_iff] at h
  obtain ⟨⟨thread, shouldUnlock, k₁⟩, hthread, h⟩ := h
  obtain ⟨kinds₁, rfl, hlocked⟩ := lookUpThreadById_locked hthread
  cases thread with
  | none =>
      cases h
      exact ⟨kinds₁, rfl, hlocked⟩
  | some t =>
      obtain ⟨kinds, rfl, hafter⟩ := lookUpIn_locked (k := { k with kinds := kinds₁ }) hlocked h
      exact ⟨kinds, rfl, hafter⟩

theorem lookUpOwner_locked {address : AbsoluteCapabilityAddress}
    (h : k.lookUpOwner fuel address = some (result, k')) :
    ∃ kinds, k' = { k with kinds := kinds } ∧ LeavesLocked k.kinds result kinds := by
  unfold lookUpOwner at h
  split at h
  · simp only [Option.map_eq_some_iff] at h
    obtain ⟨⟨thread, shouldUnlock, k₁⟩, hthread, h⟩ := h
    obtain ⟨kinds, rfl, hlocked⟩ := lookUpThreadById_locked hthread
    cases thread with
    | none =>
        cases h
        exact ⟨kinds, rfl, hlocked⟩
    | some t =>
        cases h
        exact ⟨kinds, rfl, hlocked⟩
  · exact lookUpCapabilityAbsolute_locked h

/-! What the `on_moved` handlers leave alone. -/

/-- The locks and the allocated blocks are the same. -/
structure SameBlocks (k k' : Kernel) : Prop where
  kinds : k'.kinds = k.kinds
  objects : k'.space.objects = k.space.objects

theorem SameBlocks.refl (k : Kernel) : k.SameBlocks k :=
  ⟨rfl, rfl⟩

theorem SameBlocks.trans (h : k.SameBlocks k₁) (h' : k₁.SameBlocks k') : k.SameBlocks k' :=
  ⟨h'.kinds.trans h.kinds, h'.objects.trans h.objects⟩

theorem onNodeMoved_objects {s s' : Space} {block : Addr}
    (h : onNodeMoved fuel s block = some s') : s'.objects = s.objects := by
  refine foldlM_induct (motive := fun s₁ => s₁.objects = s.objects) ?_ h rfl
  intro s₁ i s₂ hs₁ hround
  split at hround
  · cases hround
    exact hs₁
  · obtain ⟨links, -, hderived⟩ := Space.updateCapabilityReferences_cases hround
    exact hderived.objects.trans hs₁

theorem onThreadMoved_sameBlocks {t : Addr} (h : k.onThreadMoved fuel t = some k') :
    k.SameBlocks k' := by
  have hrunqueue : ∀ k : Kernel, k.SameBlocks (k.updateRunqueue t) := by
    intro k
    unfold updateRunqueue
    split <;> exact ⟨rfl, rfl⟩
  have hblocked : ∀ k : Kernel, k.SameBlocks (k.updateBlockedQueue t) := by
    intro k
    unfold updateBlockedQueue
    simp only
    split
    · exact .refl k
    · split
      · exact ⟨rfl, rfl⟩
      · split <;> exact ⟨rfl, rfl⟩
  have hbucket : ∀ k : Kernel, k.SameBlocks (k.updateThreadBucket t) := fun _ => ⟨rfl, rfl⟩
  have hcpu : ∀ k : Kernel, k.SameBlocks (k.updateCpuUpdate t) := by
    intro k
    unfold updateCpuUpdate
    split <;> exact ⟨rfl, rfl⟩
  have hcurrent : ∀ k : Kernel, k.SameBlocks (k.updateCurrentThread t) := by
    intro k
    unfold updateCurrentThread
    split <;> exact ⟨rfl, rfl⟩
  have hqueues := ((((hrunqueue k).trans (hblocked _)).trans (hbucket _)).trans
    (hcpu _)).trans (hcurrent _)
  simp only [onThreadMoved] at h
  split at h
  · cases h
    exact hqueues
  · simp only [Option.map_eq_some_iff] at h
    obtain ⟨s, hs, rfl⟩ := h
    obtain ⟨links, -, hderived⟩ := Space.updateCapabilityReferences_cases hs
    exact hqueues.trans ⟨rfl, hderived.objects⟩

theorem onEndpointMoved_sameBlocks {e : Addr} (h : k.onEndpointMoved fuel e = some k') :
    k.SameBlocks k' := by
  have hround : ∀ (k₁ : Kernel) t k₂, k.SameBlocks k₁ →
      some (k₁.modifyThread t fun t => { t with blockedOn := some e }) = some k₂ →
      k.SameBlocks k₂ := by
    intro k₁ t k₂ hk₁ hset
    cases hset
    exact hk₁.trans ⟨rfl, rfl⟩
  simp only [onEndpointMoved, Option.bind_eq_bind, Option.bind_eq_some_iff] at h
  obtain ⟨k₁, hsending, hreceiving⟩ := h
  exact listIter_induct hround hreceiving (listIter_induct hround hsending (.refl k))

theorem onMoved_sameBlocks {handlers : Handlers} {resource : Addr}
    (h : k.onMoved fuel handlers resource = some k') : k.SameBlocks k' := by
  unfold onMoved at h
  cases handlers with
  | node =>
      simp only [Option.map_eq_some_iff] at h
      obtain ⟨s, hs, rfl⟩ := h
      exact ⟨rfl, onNodeMoved_objects hs⟩
  | thread => exact onThreadMoved_sameBlocks h
  | endpoint => exact onEndpointMoved_sameBlocks h
  | debug | untyped | addressSpace =>
      cases h
      exact .refl k

/-- The owner is looked up and unlocked again. -/
theorem updateCapabilityResource_sameBlocks {address : AbsoluteCapabilityAddress}
    {resource : Addr} (h : k.updateCapabilityResource fuel address resource = some k') :
    k.SameBlocks k' := by
  simp only [updateCapabilityResource, Option.bind_eq_some_iff] at h
  obtain ⟨⟨found, k₁⟩, hfound, h⟩ := h
  obtain ⟨kinds, rfl, hlocked⟩ := lookUpOwner_locked hfound
  cases found with
  | none =>
      cases h
      exact ⟨hlocked, rfl⟩
  | some result =>
      have hunlock : unlockIf result.shouldUnlock kinds result.container = k.kinds :=
        Locked.unlock hlocked
      simp only at h
      split at h
      · cases h
        exact ⟨hunlock, rfl⟩
      · simp only [Option.bind_eq_bind, Option.bind_eq_some_iff, Option.some.injEq] at h
        obtain ⟨s, hs, k₂, hmoved, rfl⟩ := h
        have hsame := onMoved_sameBlocks hmoved
        refine ⟨?_, hsame.objects.trans (setResources_objects hs)⟩
        unfold unlockLookedUpCapability
        simp only
        rw [hsame.kinds]
        exact hunlock

theorem updateReferences_sameBlocks (h : k.updateReferences fuel src dest = some k') :
    k.SameBlocks k' := by
  unfold updateReferences at h
  split at h
  · simp only [Option.map_eq_some_iff] at h
    obtain ⟨k₁, hupdate, rfl⟩ := h
    exact (updateCapabilityResource_sameBlocks hupdate).trans ⟨rfl, rfl⟩
  · simp only [Option.map_eq_some_iff] at h
    obtain ⟨k₁, hmoved, rfl⟩ := h
    exact (onThreadMoved_sameBlocks hmoved).trans ⟨rfl, rfl⟩
  · cases h
    exact .refl k

theorem Pinned.relocate {b : Addr} (h : k.Pinned b) (hsrc : b ≠ src) (hdest : b ≠ dest)
    (hrelocate : k.relocate fuel src dest = some k') : k'.Pinned b := by
  simp only [Kernel.relocate, Option.map_eq_some_iff] at hrelocate
  obtain ⟨k₁, hupdate, rfl⟩ := hrelocate
  have hsame := updateReferences_sameBlocks hupdate
  constructor
  · simp [heapUnlock, hsame.kinds, beginMove, copyBlock, hsrc, hdest, h.1]
  · have hobjects := h.2
    simp only [hsame.objects]
    simpa [beginMove, copyBlock, hsrc, hdest] using hobjects

/-- `heap_alloc` neither moves a locked block nor unlocks it. -/
theorem Pinned.relocateAll {b : Addr} {moves : List (Addr × Addr)} (h : k.Pinned b)
    (hmoves : k.relocateAll fuel moves = some k') :
    k'.Pinned b ∧ ∀ move ∈ moves, move.1 ≠ b := by
  let motive := fun (done : List (Addr × Addr)) (k₁ : Kernel) =>
    k₁.Pinned b ∧ ∀ move ∈ done, move.1 ≠ b
  refine foldlM_induct_done (motive := motive) ?_ hmoves ⟨h, by simp⟩
  intro done move k₁ k₂ _ hk₁ hround
  obtain ⟨hpinned, hdone⟩ := hk₁
  split at hround
  · rename_i hcan
    obtain ⟨hsrc, hmovable, hfree, -⟩ := hcan
    have hne : move.1 ≠ b := by
      intro heq
      rw [heq, hpinned.1] at hmovable
      cases hmovable
    have hdest : b ≠ move.2 := by
      intro heq
      exact hpinned.2 (heq ▸ hfree)
    refine ⟨hpinned.relocate (Ne.symm hne) hdest hround, fun m hm => ?_⟩
    cases List.mem_append.mp hm with
    | inl hold => exact hdone m hold
    | inr hnew => exact List.mem_singleton.mp hnew ▸ hne
  · cases hround

theorem Pinned.heapAlloc {b : Addr} {placement : Placement} {kind : ObjectKind}
    {allocated : Option Addr} (h : k.Pinned b)
    (halloc : k.heapAlloc fuel placement kind = some (allocated, k')) :
    k'.Pinned b ∧ ∀ move ∈ placement.moves, move.1 ≠ b := by
  simp only [Kernel.heapAlloc, Option.bind_eq_some_iff] at halloc
  obtain ⟨k₁, hmoves, halloc⟩ := halloc
  obtain ⟨hpinned, hstay⟩ := h.relocateAll hmoves
  split at halloc
  · cases halloc
    exact ⟨hpinned, hstay⟩
  · rename_i block _
    split at halloc
    · rename_i hfree
      cases halloc
      have hne : b ≠ block := by
        intro heq
        exact hpinned.2 (heq ▸ hfree.1)
      refine ⟨⟨?_, ?_⟩, hstay⟩
      · simpa [allocateBlock, hne] using hpinned.1
      · simpa [allocateBlock, hne] using hpinned.2
    · cases halloc

end Kernel

end Cenix
