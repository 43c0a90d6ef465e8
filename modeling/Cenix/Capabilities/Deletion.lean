import Cenix.Capabilities.Resources

namespace Cenix

open LinkedLists

/-! A deletion keeps the lists of all resources. -/

/-- The derivation tree and what the capabilities in it are for. -/
structure SameDerivation (c c' : Capability) : Prop where
  resource : c'.resource = c.resource
  flags : c'.flags = c.flags
  derivationList : c'.derivationList = c.derivationList
  derivedFrom : c'.derivedFrom = c.derivedFrom
  derivation : c'.derivation = c.derivation

theorem SameDerivation.refl (c : Capability) : SameDerivation c c :=
  ⟨rfl, rfl, rfl, rfl, rfl⟩

theorem SameDerivation.trans {c₁ c₂ c₃ : Capability} (h : SameDerivation c₁ c₂)
    (h' : SameDerivation c₂ c₃) : SameDerivation c₁ c₃ :=
  ⟨h'.resource.trans h.resource, h'.flags.trans h.flags,
    h'.derivationList.trans h.derivationList, h'.derivedFrom.trans h.derivedFrom,
    h'.derivation.trans h.derivation⟩

namespace Space

variable {s s' : Space} {p q : SlotPtr} {fuel : Nat}

theorem ResourceLists.root_alone (h : s.ResourceLists) {t : Addr}
    (ht : s.objects t = some .thread) (hroot : s.Live (.root t)) : s.Alone (.root t) :=
  (h.lists.alone_iff hroot).mp (h.roots t ht)

theorem leaveResourceList_last (hlast : Kernel.isLast s p)
    (h : Kernel.leaveResourceList fuel s p = some s') : s' = s := by
  have hover : Kernel.handOver s p = s := by
    unfold Kernel.handOver
    simp only [hlast.1, hlast.2]
  have hsame : listDeleteNoContainer fuel s.resourceLinks p = some s.resourceLinks := by
    unfold listDeleteNoContainer
    simp only [resourceLinks, hlast.1, hlast.2]
  simp only [Kernel.leaveResourceList, hover, hsame, Option.map_some, Option.some.injEq] at h
  rw [← h]
  rfl

end Space

namespace Kernel

variable {k k' k₁ : Kernel} {p q : SlotPtr} {fuel : Nat}

theorem emptySlot_slot_iff (k : Kernel) (p q : SlotPtr) :
    (k.emptySlot p).space.Slot q ↔ k.space.Slot q := by
  cases q <;> rfl

theorem emptySlot_live_iff (k : Kernel) (p q : SlotPtr) :
    (k.emptySlot p).space.Live q ↔ k.space.Live q ∧ q ≠ p := by
  unfold Space.Live
  rw [emptySlot_slot_iff, emptySlot_slots]
  cases decEq q p with
  | isTrue hqp => simp [hqp]
  | isFalse hqp => simp [hqp]

theorem emptySlot_resource (k : Kernel) (p : SlotPtr) :
    (k.emptySlot p).space.resource = k.space.resource := by
  funext q
  exact (emptySlot_shrunk k p).resource q

theorem emptySlot_links (k : Kernel) (p : SlotPtr) :
    (k.emptySlot p).space.resourceLinks = k.space.resourceLinks := by
  funext q
  unfold Space.resourceLinks
  rw [emptySlot_slots]
  split <;> rfl

theorem Shrunk.alone_of (h : k.Shrunk k') (hp : k.space.Alone p) : k'.space.Alone p := by
  intro q hq hresource
  apply hp q (h.live_of hq)
  have hresources : ∀ q, k'.space.resource q = k.space.resource q := h.resource
  rwa [hresources, hresources] at hresource

/-- A capability that is not the last one of its resource. -/
theorem resourceLists_unlink (h : k.space.ResourceLists) (hp : k.space.Live p)
    (hshared : ¬isLast k.space p) {s : Space}
    (hleave : leaveResourceList fuel k.space p = some s) :
    ({ k with space := s }.emptySlot p).space.ResourceLists := by
  have hshrunk := leaveResourceList_shrunk hleave
  simp only [leaveResourceList, Option.map_eq_some_iff] at hleave
  obtain ⟨links, hlinks, rfl⟩ := hleave
  have hover : k.space.SameResources (handOver k.space p) := by
    unfold handOver
    simp only
    split
    · exact .heapSetUpdateCapability ..
    · exact .refl _
  have hlists := (h.congr hover).lists
  have hp' := (hover.live_iff p).mpr hp
  have hslots : ∀ q, ({ k with space := (handOver k.space p).setResourceLinks links }).space.Live q ↔
      k.space.Live q := hover.live_iff
  have hlive : ∀ q, ({ k with
      space := (handOver k.space p).setResourceLinks links }.emptySlot p).space.Live q ↔
      (handOver k.space p).Live q ∧ q ≠ p := by
    intro q
    rw [emptySlot_live_iff, hslots, hover.live_iff]
  constructor
  · rw [emptySlot_links, emptySlot_resource]
    exact hlists.delete hp' hlinks hlive (fun _ _ => rfl)
  · intro q handlers hq hhandlers
    obtain ⟨hq, hqp⟩ := (hlive q).mp hq
    rw [emptySlot_slots, if_neg hqp] at hhandlers
    rw [emptySlot_resource]
    exact (h.congr hover).refers q handlers hq hhandlers
  · intro t ht
    have hroots := (h.congr hover).roots t ht
    rw [emptySlot_links]
    have hother : links (.root t) = (handOver k.space p).resourceLinks (.root t) := by
      apply hlists.delete_other hp' hlinks
      intro hroot hresource
      have halone := (h.congr hover).root_alone ht hroot
      exact (halone p hp' hresource.symm).symm
    have hset : ((handOver k.space p).setResourceLinks links).resourceLinks (.root t) =
        links (.root t) := rfl
    rw [hset, hother]
    exact hroots

theorem handOver_slots (s : Space) (p : SlotPtr) : (handOver s p).slots = s.slots := by
  unfold handOver
  simp only
  split <;> rfl

theorem handOver_objects (s : Space) (p : SlotPtr) : (handOver s p).objects = s.objects := by
  unfold handOver
  simp only
  split <;> rfl

/-- The deletion of a capability that is not the last one of its resource. -/
structure DeletedShared (k : Kernel) (p : SlotPtr) (k' : Kernel) : Prop where
  lists : k'.space.ResourceLists
  objects : k'.space.objects = k.space.objects
  live : ∀ q, k'.space.Live q ↔ k.space.Live q ∧ q ≠ p
  derivation : ∀ q, SameDerivation (k.space.slots q) (k'.space.slots q)

theorem deletedShared (h : k.space.ResourceLists) (hp : k.space.Live p)
    (hshared : ¬isLast k.space p) {s : Space}
    (hleave : leaveResourceList fuel k.space p = some s) :
    k.DeletedShared p ({ k with space := s }.emptySlot p) := by
  have hlists := resourceLists_unlink h hp hshared hleave
  simp only [leaveResourceList, Option.map_eq_some_iff] at hleave
  obtain ⟨links, -, rfl⟩ := hleave
  refine ⟨hlists, handOver_objects k.space p, fun q => ?_, fun q => ?_⟩
  · rw [emptySlot_live_iff]
    have hsame : ((handOver k.space p).setResourceLinks links).Live q ↔ k.space.Live q := by
      unfold handOver
      simp only
      split <;> rfl
    exact and_congr_left fun _ => hsame
  · rw [emptySlot_slots]
    have hslot : SameDerivation (k.space.slots q)
        (((handOver k.space p).setResourceLinks links).slots q) := by
      simp only [Space.setResourceLinks, handOver_slots]
      exact ⟨rfl, rfl, rfl, rfl, rfl⟩
    split
    · exact hslot.trans ⟨rfl, rfl, rfl, rfl, rfl⟩
    · exact hslot

/-- The resource of the last capability is freed after everything in it is gone. -/
theorem resourceLists_free (h : k.space.ResourceLists) (halone : k.space.Alone p)
    (hempty : k.space.resource p ≠ 0 → ∀ q, k.space.Slot q →
      q.block = k.space.resource p → (k.space.slots q).handlers = none) :
    ((k.freeResource (k.space.resource p)).emptySlot p).space.ResourceLists ∧
      ∀ q, ((k.freeResource (k.space.resource p)).emptySlot p).space.Live q ↔
        k.space.Live q ∧ q ≠ p := by
  have hslots : (k.freeResource (k.space.resource p)).space.slots = k.space.slots := by
    unfold freeResource
    split <;> rfl
  have hobjects : ∀ b, (k.freeResource (k.space.resource p)).space.objects b =
      if k.space.resource p ≠ 0 ∧ b = k.space.resource p then none else k.space.objects b := by
    intro b
    unfold freeResource
    split
    · rename_i hzero
      simp [hzero]
    · rename_i hzero
      simp [heapFree, hzero, Function.update_apply]
  have hnodes : (k.freeResource (k.space.resource p)).space.nodes = k.space.nodes :=
    (freeResource_shrunk ..).nodes
  have hfreed : ∀ q, (k.freeResource (k.space.resource p)).space.Live q ↔ k.space.Live q := by
    intro q
    constructor
    · exact (freeResource_shrunk k _).live_of
    · intro hq
      refine ⟨?_, hslots ▸ hq.2⟩
      have houtside : ¬(k.space.resource p ≠ 0 ∧ q.block = k.space.resource p) :=
        fun hin => hq.2 (hempty hin.1 q hq.1 hin.2)
      cases q with
      | node block i =>
          have hb : ¬(k.space.resource p ≠ 0 ∧ block = k.space.resource p) := houtside
          refine ⟨?_, hnodes ▸ hq.1.2⟩
          rw [hobjects, if_neg hb]
          exact hq.1.1
      | root t =>
          have ht : ¬(k.space.resource p ≠ 0 ∧ t = k.space.resource p) := houtside
          exact (hobjects t).trans ((if_neg ht).trans hq.1)
  have hlive : ∀ q, ((k.freeResource (k.space.resource p)).emptySlot p).space.Live q ↔
      k.space.Live q ∧ q ≠ p := by
    intro q
    rw [emptySlot_live_iff, hfreed]
  have hlinks : ((k.freeResource (k.space.resource p)).emptySlot p).space.resourceLinks =
      k.space.resourceLinks := by
    rw [emptySlot_links]
    unfold Space.resourceLinks
    rw [hslots]
  have hresource : ((k.freeResource (k.space.resource p)).emptySlot p).space.resource =
      k.space.resource := by
    rw [emptySlot_resource]
    funext q
    exact (freeResource_shrunk k _).resource q
  refine ⟨⟨?_, ?_, ?_⟩, hlive⟩
  · rw [hlinks, hresource]
    exact h.lists.drop_alone halone hlive
  · intro q handlers hq hhandlers
    obtain ⟨hq, hqp⟩ := (hlive q).mp hq
    rw [emptySlot_slots, if_neg hqp, hslots] at hhandlers
    have hrefers := h.refers q handlers hq hhandlers
    have hne : k.space.resource q ≠ k.space.resource p := fun heq => hqp (halone q hq heq)
    have hobject : ((k.freeResource (k.space.resource p)).emptySlot p).space.objects
        (k.space.resource q) = k.space.objects (k.space.resource q) := by
      have hkeep := hobjects (k.space.resource q)
      rw [if_neg (fun hin => hne hin.2)] at hkeep
      exact hkeep
    unfold Space.RefersTo at hrefers ⊢
    rw [hresource, hobject]
    exact hrefers
  · intro t ht
    rw [hlinks]
    apply h.roots
    have ht' : (k.freeResource (k.space.resource p)).space.objects t = some .thread := ht
    rw [hobjects] at ht'
    split at ht'
    · cases ht'
    · exact ht'

/-- The capabilities in `above` are being deleted, and so is what their resources
contain: one of them or `p`. -/
def Pending (k : Kernel) (above : SlotPtr → Prop) (p : SlotPtr) : Prop :=
  ∀ c, above c → k.space.Live c ∧ k.space.Alone c ∧ k.space.resource c ≠ 0 ∧
    ∃ d, (above d ∨ d = p) ∧ d.block = k.space.resource c

/-- Some capability refers to the object. -/
def Referenced (k : Kernel) (b : Addr) : Prop :=
  ∃ q, k.space.Live q ∧ k.space.resource q = b

/-- An object that loses its last capability is freed. -/
def FreesUnreferenced (k k' : Kernel) : Prop :=
  ∀ b, b ≠ 0 → k.Referenced b → k'.space.objects b ≠ none → k'.Referenced b

theorem FreesUnreferenced.trans {k₂ : Kernel} (h : k.FreesUnreferenced k₁)
    (h' : k₁.FreesUnreferenced k₂) (hshrunk : k₁.Shrunk k₂) : k.FreesUnreferenced k₂ := by
  intro b hb hreferenced hallocated
  refine h' b hb (h b hb hreferenced fun hnone => hallocated ?_) hallocated
  cases hshrunk.objects b with
  | inl hsame => exact hsame.trans hnone
  | inr hfreed => exact hfreed

/-- There is another capability to the same object. -/
theorem DeletedShared.frees (h : k.DeletedShared p k') (hlists : k.space.ResourceLists)
    (hp : k.space.Live p) (hshared : ¬isLast k.space p) : k.FreesUnreferenced k' := by
  intro b _ hreferenced _
  obtain ⟨q, hq, hqb⟩ := hreferenced
  have hsame : ∀ q, k'.space.resource q = k.space.resource q :=
    fun q => (h.derivation q).resource
  cases decEq q p with
  | isFalse hne => exact ⟨q, (h.live q).mpr ⟨hq, hne⟩, (hsame q).trans hqb⟩
  | isTrue heq =>
      subst heq
      have hother : ¬k.space.Alone q := fun halone => hshared ((hlists.isLast_iff hp).mpr halone)
      unfold Space.Alone at hother
      simp only [not_forall] at hother
      obtain ⟨r, hr, hresource, hne⟩ := hother
      exact ⟨r, (h.live r).mpr ⟨hr, hne⟩, (hsame r).trans (hresource.trans hqb)⟩

theorem FreesUnreferenced.of_sameResources (h : k.space.SameResources k'.space) :
    k.FreesUnreferenced k' := by
  intro b _ hreferenced _
  obtain ⟨q, hq, hresource⟩ := hreferenced
  exact ⟨q, (h.live_iff q).mpr hq, (h.resource q).trans hresource⟩

/-- What the destructors rely on when they delete what an object contains. -/
structure DeletesSoundly (delete : Kernel → SlotPtr → Option Kernel) : Prop where
  shrunk : ∀ {k p k'}, delete k p = some k' → k.Shrunk k'
  sound : ∀ {k p k'}, k.space.ResourceLists → k.space.Live p → delete k p = some k' →
    k'.space.ResourceLists ∧ (k'.space.slots p).handlers = none
  frees : ∀ {k p k'}, k.space.ResourceLists → k.space.Live p → delete k p = some k' →
    k.FreesUnreferenced k'
  above : ∀ {k p k'} {above : SlotPtr → Prop}, k.space.ResourceLists → k.space.Live p →
    k.Pending above p → delete k p = some k' → ∀ c, above c → k'.space.Live c
  emptyRoot : ∀ {k t}, k.space.ResourceLists → k.space.objects t = some .thread →
    (k.space.slots (.root t)).handlers = none → delete k (.root t) = none

/-- What the destructor of the last capability leaves behind. -/
structure Destroyed (k : Kernel) (above : SlotPtr → Prop) (p : SlotPtr) (k' : Kernel) :
    Prop where
  shrunk : k.Shrunk k'
  lists : k'.space.ResourceLists
  self : k'.space.Live p
  above : ∀ c, above c → k'.space.Live c
  frees : k.FreesUnreferenced k'
  empty : k.space.resource p ≠ 0 → ∀ q, k'.space.Slot q →
    q.block = k.space.resource p → (k'.space.slots q).handlers = none

/-- What `p` contains is deleted next. -/
theorem Pending.nest {above : SlotPtr → Prop} (h : k.Pending above p) (halone : k.space.Alone p)
    (hresource : k.space.resource p ≠ 0) (hq : q.block = k.space.resource p)
    (hshrunk : k.Shrunk k₁) (hlive : ∀ c, above c ∨ c = p → k₁.space.Live c) :
    k₁.Pending (fun c => above c ∨ c = p) q := by
  intro c hc
  have hsame : k₁.space.resource c = k.space.resource c := hshrunk.resource c
  rw [hsame]
  cases hc with
  | inl hc =>
      obtain ⟨-, hcalone, hne, d, hd, hblock⟩ := h c hc
      exact ⟨hlive c (.inl hc), hshrunk.alone_of hcalone, hne, d, .inl hd, hblock⟩
  | inr hc =>
      subst hc
      exact ⟨hlive c (.inr rfl), hshrunk.alone_of halone, hresource, q, .inr rfl, hq⟩

theorem Pending.live {above : SlotPtr → Prop} (h : k.Pending above p) (hp : k.space.Live p) :
    ∀ c, above c ∨ c = p → k.space.Live c := by
  intro c hc
  cases hc with
  | inl hc => exact (h c hc).1
  | inr hc => exact hc ▸ hp

theorem slot_kind (hq : k.space.Slot q) :
    k.space.objects q.block = some .node ∨ k.space.objects q.block = some .thread := by
  cases q with
  | node block i => exact .inl hq.1
  | root t => exact .inr hq

/-- An object without capabilities in it. -/
theorem destroyed_of_space {above : SlotPtr → Prop} {handlers : Handlers}
    (h : k.space.ResourceLists) (hp : k.space.Live p) (hpending : k.Pending above p)
    (hhandlers : (k.space.slots p).handlers = some handlers)
    (hkind : handlers.objectKind ≠ some .node ∧ handlers.objectKind ≠ some .thread)
    (hspace : k'.space = k.space) : k.Destroyed above p k' where
  shrunk := .of_space hspace
  lists := by
    rw [hspace]
    exact h
  self := by
    rw [hspace]
    exact hp
  above c hc := by
    rw [hspace]
    exact (hpending c hc).1
  frees := .of_sameResources (by rw [hspace]; exact .refl _)
  empty hne q hq hblock := by
    rw [hspace] at hq
    have hrefers := h.refers p handlers hp hhandlers
    unfold Space.RefersTo at hrefers
    have hslot := slot_kind hq
    rw [hblock] at hslot
    split at hrefers
    · exact absurd hrefers hne
    · rename_i kind hsome
      rw [hrefers.2, ← hsome] at hslot
      cases hslot with
      | inl hnode => exact absurd hnode hkind.1
      | inr hthread => exact absurd hthread hkind.2

theorem threadDestructor_destroyed {delete : Kernel → SlotPtr → Option Kernel}
    {above : SlotPtr → Prop} (hdelete : DeletesSoundly delete) (h : k.space.ResourceLists)
    (hp : k.space.Live p) (halone : k.space.Alone p) (hpending : k.Pending above p)
    (hhandlers : (k.space.slots p).handlers = some .thread)
    (hdestroy : k.threadDestructor delete p = some k') : k.Destroyed above p k' := by
  obtain ⟨hne, hthread⟩ : k.space.resource p ≠ 0 ∧
      k.space.objects (k.space.resource p) = some .thread := h.refers p .thread hp hhandlers
  simp only [threadDestructor, Option.map_eq_some_iff] at hdestroy
  obtain ⟨k₁, hroot, rfl⟩ := hdestroy
  have hlive : k.space.Live (.root (k.space.resource p)) := by
    refine ⟨hthread, ?_⟩
    intro hempty
    have hnone := hdelete.emptyRoot h hthread hempty
    unfold Space.resource at hnone
    rw [hnone] at hroot
    cases hroot
  have hnested : k.Pending _ (.root (k.space.resource p)) :=
    hpending.nest halone hne rfl (.refl k) (hpending.live hp)
  have habove := hdelete.above h hlive hnested hroot
  obtain ⟨hlists, hgone⟩ := hdelete.sound h hlive hroot
  have hshrunk := hdelete.shrunk hroot
  have hself := habove p (.inr rfl)
  have hspace := unlinkThread_space k₁ (k.space.resource p)
  unfold Space.resource at hspace
  constructor
  · exact hshrunk.trans (.of_space hspace)
  · rw [hspace]
    exact hlists
  · rw [hspace]
    exact hself
  · intro c hc
    rw [hspace]
    exact habove c (.inl hc)
  · refine (hdelete.frees h hlive hroot).trans (.of_sameResources ?_) (.of_space hspace)
    rw [hspace]
    exact .refl _
  · intro _ q hq hblock
    rw [hspace] at hq ⊢
    cases q with
    | root t =>
        have ht : t = k.space.resource p := hblock
        rw [ht]
        exact hgone
    | node block i =>
        have hb : block = k.space.resource p := hblock
        have hkept : (k₁.space.slots p).handlers = some .thread :=
          ((hshrunk.handlers p).resolve_right hself.2).trans hhandlers
        have hobject := (hlists.refers p .thread hself hkept).2
        have hnode := hq.1
        have hresource : k₁.space.resource p = k.space.resource p := hshrunk.resource p
        rw [hb, ← hresource, hobject] at hnode
        cases hnode

theorem nodeDestructor_destroyed {delete : Kernel → SlotPtr → Option Kernel}
    {above : SlotPtr → Prop} (hdelete : DeletesSoundly delete) (h : k.space.ResourceLists)
    (hp : k.space.Live p) (halone : k.space.Alone p) (hpending : k.Pending above p)
    (hhandlers : (k.space.slots p).handlers = some .node)
    (hdestroy : k.nodeDestructor delete fuel p = some k') : k.Destroyed above p k' := by
  obtain ⟨hne, hnode⟩ : k.space.resource p ≠ 0 ∧
      k.space.objects (k.space.resource p) = some .node := h.refers p .node hp hhandlers
  -- after some rounds, the slots they were about are empty
  let motive := fun (done : List Nat) (k₁ : Kernel) =>
    k.Shrunk k₁ ∧ k₁.space.ResourceLists ∧ k.FreesUnreferenced k₁ ∧
      (∀ c, above c ∨ c = p → k₁.space.Live c) ∧
      ∀ i ∈ done, (k₁.space.slots (.node (k.space.resource p) i)).handlers = none
  have hloop : motive (List.range (2 ^ (k.space.nodes (k.space.resource p)).slotBits)) k' := by
    refine foldlM_induct_done (motive := motive) ?_ hdestroy
      ⟨.refl k, h, .of_sameResources (.refl _), hpending.live hp, by simp⟩
    intro done i k₁ k₂ hi hk₁ hround
    obtain ⟨hshrunk, hlists, hfrees, hlive, hdone⟩ := hk₁
    cases destroySlot_cases hround with
    | inl hempty =>
        obtain ⟨hempty, rfl⟩ := hempty
        refine ⟨hshrunk, hlists, hfrees, hlive, fun j hj => ?_⟩
        cases List.mem_append.mp hj with
        | inl hj => exact hdone j hj
        | inr hj => exact List.mem_singleton.mp hj ▸ hempty
    | inr hround =>
        obtain ⟨hfull, s, hmerge, hround⟩ := hround
        have hmerged := Space.mergeDerivationLists_rederived hmerge
        have hsame := Space.SameResources.of_rederived hmerged
        have hshrunk' := hshrunk.trans (.of_rederived hmerged)
        have hlive' : ∀ c, above c ∨ c = p → s.Live c :=
          fun c hc => (hsame.live_iff c).mpr (hlive c hc)
        have hself := hlive p (.inr rfl)
        have hslot : k₁.space.Live (.node (k.space.resource p) i) := by
          have hkept : (k₁.space.slots p).handlers = some .node :=
            ((hshrunk.handlers p).resolve_right hself.2).trans hhandlers
          have hobject := (hlists.refers p .node hself hkept).2
          have hresource : k₁.space.resource p = k.space.resource p := hshrunk.resource p
          rw [hresource] at hobject
          refine ⟨⟨hobject, ?_⟩, hfull⟩
          rw [hshrunk.nodes]
          exact List.mem_range.mp hi
        have hslot' := (hsame.live_iff _).mpr hslot
        have hlists' := hlists.congr hsame
        have hnested : { k₁ with space := s }.Pending _ (.node (k.space.resource p) i) :=
          hpending.nest halone hne rfl hshrunk' hlive'
        obtain ⟨hlists₂, hgone⟩ := hdelete.sound hlists' hslot' hround
        have hshrunk₂ := hdelete.shrunk hround
        have hfrees₂ := (hfrees.trans (.of_sameResources hsame) (.of_rederived hmerged)).trans
          (hdelete.frees hlists' hslot' hround) hshrunk₂
        refine ⟨hshrunk'.trans hshrunk₂, hlists₂, hfrees₂,
          hdelete.above hlists' hslot' hnested hround, fun j hj => ?_⟩
        cases List.mem_append.mp hj with
        | inl hj =>
            have hkept := (hsame.handlers _).trans (hdone j hj)
            cases hshrunk₂.handlers (.node (k.space.resource p) j) with
            | inl hsame₂ => exact hsame₂.trans hkept
            | inr hnone => exact hnone
        | inr hj => exact List.mem_singleton.mp hj ▸ hgone
  obtain ⟨hshrunk, hlists, hfrees, hlive, hempty⟩ := hloop
  refine ⟨hshrunk, hlists, hlive p (.inr rfl), fun c hc => hlive c (.inl hc), hfrees, ?_⟩
  intro _ q hq hblock
  cases q with
  | node block i =>
      have hb : block = k.space.resource p := hblock
      have hi := hq.2
      rw [hshrunk.nodes, hb] at hi
      rw [hb]
      exact hempty i (List.mem_range.mpr hi)
  | root t =>
      have ht : t = k.space.resource p := hblock
      have hself := hlive p (.inr rfl)
      have hkept : (k'.space.slots p).handlers = some .node :=
        ((hshrunk.handlers p).resolve_right hself.2).trans hhandlers
      have hobject := (hlists.refers p .node hself hkept).2
      have hthread : k'.space.objects t = some .thread := hq
      have hresource : k'.space.resource p = k.space.resource p := hshrunk.resource p
      rw [ht, ← hresource, hobject] at hthread
      cases hthread

theorem destructor_destroyed {delete : Kernel → SlotPtr → Option Kernel}
    {above : SlotPtr → Prop} (hdelete : DeletesSoundly delete) (h : k.space.ResourceLists)
    (hp : k.space.Live p) (halone : k.space.Alone p) (hpending : k.Pending above p)
    (hdestroy : k.destructor delete fuel p = some k') : k.Destroyed above p k' := by
  unfold destructor at hdestroy
  split at hdestroy
  · rename_i hhandlers
    exact destroyed_of_space h hp hpending hhandlers (by decide)
      (endpointDestructor_space hdestroy)
  · rename_i hhandlers
    exact threadDestructor_destroyed hdelete h hp halone hpending hhandlers hdestroy
  · rename_i hhandlers
    exact nodeDestructor_destroyed hdelete h hp halone hpending hhandlers hdestroy
  · rename_i hhandlers
    cases hdestroy
    exact destroyed_of_space h hp hpending hhandlers (by decide) rfl
  · rename_i hhandlers
    cases hdestroy
    exact destroyed_of_space h hp hpending hhandlers (by decide) rfl
  · rename_i hhandlers
    cases hdestroy
    exact destroyed_of_space h hp hpending hhandlers (by decide) rfl
  · cases hdestroy

/-- After the destructor the resource is freed and the slot emptied. -/
theorem Destroyed.finish {above : SlotPtr → Prop} (h : k.Destroyed above p k₁)
    (halone : k.space.Alone p) (hpending : k.Pending above p) :
    ((k₁.freeResource (k₁.space.resource p)).emptySlot p).space.ResourceLists ∧
      k.FreesUnreferenced ((k₁.freeResource (k₁.space.resource p)).emptySlot p) ∧
      ∀ c, above c → ((k₁.freeResource (k₁.space.resource p)).emptySlot p).space.Live c := by
  have hresource : k₁.space.resource p = k.space.resource p := h.shrunk.resource p
  obtain ⟨hlists, hlive⟩ := resourceLists_free h.lists (h.shrunk.alone_of halone)
    (by rw [hresource]; exact h.empty)
  have hshrunk : k₁.Shrunk ((k₁.freeResource (k₁.space.resource p)).emptySlot p) :=
    (freeResource_shrunk ..).trans (emptySlot_shrunk ..)
  refine ⟨hlists, h.frees.trans ?_ hshrunk, fun c hc => (hlive c).mpr ⟨h.above c hc, ?_⟩⟩
  · intro b hb hreferenced hallocated
    obtain ⟨q, hq, hqb⟩ := hreferenced
    refine ⟨q, (hlive q).mpr ⟨hq, fun hqp => hallocated ?_⟩, (hshrunk.resource q).trans hqb⟩
    subst hqp
    have hne : k₁.space.resource q ≠ 0 := fun hzero => hb (hqb.symm.trans hzero)
    rw [← hqb]
    have hkept : ((k₁.freeResource (k₁.space.resource q)).emptySlot q).space.objects =
        (k₁.freeResource (k₁.space.resource q)).space.objects := rfl
    rw [hkept, freeResource, if_neg hne]
    simp [heapFree]
  -- something that is live lies in the resource of everything above
  intro hcp
  obtain ⟨-, -, hne, d, hd, hblock⟩ := hpending c hc
  rw [hcp] at hne hblock
  have hlive : k₁.space.Live d := by
    cases hd with
    | inl hd => exact h.above d hd
    | inr hd => exact hd ▸ h.self
  exact hlive.2 (h.empty hne d hlive.1 hblock)

theorem emptySlot_handlers (k : Kernel) (p : SlotPtr) :
    ((k.emptySlot p).space.slots p).handlers = none := by
  rw [emptySlot_slots, if_pos rfl]

theorem deleteCapability_sound (fuel : Nat) : DeletesSoundly (deleteCapability fuel) := by
  induction fuel with
  | zero => constructor <;> simp [deleteCapability]
  | succ fuel ih =>
      -- the two outcomes for the capabilities above
      have hmain : ∀ {k p k'} {above : SlotPtr → Prop}, k.space.ResourceLists →
          k.space.Live p → k.Pending above p → deleteCapability (fuel + 1) k p = some k' →
          (k'.space.ResourceLists ∧ (k'.space.slots p).handlers = none) ∧
            k.FreesUnreferenced k' ∧ ∀ c, above c → k'.space.Live c := by
        intro k p k' above h hp hpending hdelete
        obtain ⟨s, hleave, hcases⟩ := deleteCapability_cases hdelete
        cases hcases with
        | inl hshared =>
            obtain ⟨hshared, rfl⟩ := hshared
            have hdeleted := deletedShared h hp hshared hleave
            refine ⟨⟨hdeleted.lists, emptySlot_handlers _ _⟩, hdeleted.frees h hp hshared, ?_⟩
            intro c hc
            obtain ⟨hlive, halone, -⟩ := hpending c hc
            refine (hdeleted.live c).mpr ⟨hlive, fun hcp => ?_⟩
            exact hshared ((h.isLast_iff hp).mpr (hcp ▸ halone))
        | inr hlast =>
            obtain ⟨hlast, k₁, hdestroy, rfl⟩ := hlast
            have hsame := Space.leaveResourceList_last hlast hleave
            subst hsame
            have halone := (h.isLast_iff hp).mp hlast
            have hdestroyed := destructor_destroyed ih h hp halone hpending hdestroy
            obtain ⟨hlists, hfrees, habove⟩ := hdestroyed.finish halone hpending
            exact ⟨⟨hlists, emptySlot_handlers _ _⟩, hfrees, habove⟩
      constructor
      · exact deleteCapability_shrunk
      · intro k p k' h hp hdelete
        have hnothing : k.Pending (fun _ => False) p := fun _ hc => hc.elim
        exact (hmain h hp hnothing hdelete).1
      · intro k p k' h hp hdelete
        have hnothing : k.Pending (fun _ => False) p := fun _ hc => hc.elim
        exact (hmain h hp hnothing hdelete).2.1
      · intro k p k' above h hp hpending hdelete
        exact (hmain h hp hpending hdelete).2.2
      · intro k t h ht hempty
        have hlast : isLast k.space (.root t) := h.roots t ht
        cases hdelete : deleteCapability (fuel + 1) k (.root t) with
        | none => rfl
        | some k' =>
            obtain ⟨s, hleave, hcases⟩ := deleteCapability_cases hdelete
            have hsame := Space.leaveResourceList_last hlast hleave
            subst hsame
            cases hcases with
            | inl hshared => exact absurd hlast hshared.1
            | inr hcases =>
                obtain ⟨-, k₁, hdestroy, -⟩ := hcases
                unfold destructor at hdestroy
                rw [hempty] at hdestroy
                cases hdestroy

end Kernel

end Cenix
