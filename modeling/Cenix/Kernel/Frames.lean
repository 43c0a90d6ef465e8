import Cenix.Kernel.Capabilities

namespace Cenix

open LinkedLists

/-! The derivation tree changes without a change of what the capabilities are. -/

structure SameCapability (c c' : Capability) : Prop where
  handlers : c'.handlers = c.handlers
  resource : c'.resource = c.resource
  flags : c'.flags = c.flags
  badge : c'.badge = c.badge
  accessRights : c'.accessRights = c.accessRights
  address : c'.address = c.address
  resourceList : c'.resourceList = c.resourceList

theorem SameCapability.refl (c : Capability) : SameCapability c c :=
  ⟨rfl, rfl, rfl, rfl, rfl, rfl, rfl⟩

theorem SameCapability.trans {c₁ c₂ c₃ : Capability} (h : SameCapability c₁ c₂)
    (h' : SameCapability c₂ c₃) : SameCapability c₁ c₃ :=
  ⟨h'.handlers.trans h.handlers, h'.resource.trans h.resource, h'.flags.trans h.flags,
    h'.badge.trans h.badge, h'.accessRights.trans h.accessRights,
    h'.address.trans h.address, h'.resourceList.trans h.resourceList⟩

namespace Space

structure Rederived (s s' : Space) : Prop where
  slots : ∀ p, SameCapability (s.slots p) (s'.slots p)
  nodes : s'.nodes = s.nodes
  updateRefs : s'.updateRefs = s.updateRefs
  objects : s'.objects = s.objects

variable {s s' : Space}

namespace Rederived

theorem refl (s : Space) : Rederived s s :=
  ⟨fun _ => .refl _, rfl, rfl, rfl⟩

theorem trans {s₁ s₂ s₃ : Space} (h : Rederived s₁ s₂) (h' : Rederived s₂ s₃) :
    Rederived s₁ s₃ :=
  ⟨fun p => (h.slots p).trans (h'.slots p), h'.nodes.trans h.nodes,
    h'.updateRefs.trans h.updateRefs, h'.objects.trans h.objects⟩

theorem slot_iff (h : Rederived s s') (p : SlotPtr) : s'.Slot p ↔ s.Slot p := by
  cases p with
  | node block i => simp only [Slot, h.objects, h.nodes]
  | root thread => simp only [Slot, h.objects]

theorem live_iff (h : Rederived s s') (p : SlotPtr) : s'.Live p ↔ s.Live p := by
  unfold Live
  rw [h.slot_iff, (h.slots p).handlers]

end Rederived

theorem rederived_setDerivationLinks (s : Space) (links : SlotPtr → Links SlotPtr) :
    Rederived s (s.setDerivationLinks links) :=
  ⟨fun _ => ⟨rfl, rfl, rfl, rfl, rfl, rfl, rfl⟩, rfl, rfl, rfl⟩

theorem rederived_modifySlot (s : Space) (p : SlotPtr) {change : Capability → Capability}
    (hchange : SameCapability (s.slots p) (change (s.slots p))) :
    Rederived s (s.modifySlot p change) := by
  refine ⟨?_, rfl, rfl, rfl⟩
  intro q
  cases decEq q p with
  | isTrue hqp =>
      subst hqp
      simpa [modifySlot] using hchange
  | isFalse hqp =>
      have hslot : (s.modifySlot p change).slots q = s.slots q := by
        simp [modifySlot, hqp]
      rw [hslot]
      exact .refl _

theorem rederived_iterDerivationList {fuel : Nat} {link : SlotPtr}
    {body : Space → SlotPtr → Option Space}
    (hbody : ∀ s p s', body s p = some s' → Rederived s s')
    (h : s.iterDerivationList fuel link body = some s') : Rederived s s' :=
  listIter_induct (fun s₁ p s₂ h₁ h₂ => h₁.trans (hbody s₁ p s₂ h₂)) h (Rederived.refl s)

theorem updateDerived_rederived {fuel : Nat} {capability : SlotPtr}
    (h : s.updateDerived fuel capability = some s') : Rederived s s' := by
  unfold updateDerived at h
  simp only at h
  split at h
  · split at h
    · refine rederived_iterDerivationList ?_ h
      intro s p s' hbody
      cases hbody
      exact rederived_modifySlot s p ⟨rfl, rfl, rfl, rfl, rfl, rfl, rfl⟩
    · cases h
      exact .refl s
  · cases h
    exact .refl s

theorem updateParent_rederived (s : Space) (capability : SlotPtr) :
    Rederived s (s.updateParent capability) := by
  unfold updateParent
  simp only
  split
  · exact rederived_modifySlot s _ ⟨rfl, rfl, rfl, rfl, rfl, rfl, rfl⟩
  · exact .refl s

/-- The capability takes its place in its resource list; the rest is about the
derivation tree. -/
theorem updateCapabilityReferences_cases {fuel : Nat} {capability : SlotPtr}
    (h : s.updateCapabilityReferences fuel capability = some s') :
    ∃ links, listUpdateAddressNoContainer fuel s.resourceLinks capability = some links ∧
      Rederived (s.setResourceLinks links) s' := by
  simp only [updateCapabilityReferences, Option.bind_eq_bind, Option.bind_eq_some_iff,
    Option.some.injEq] at h
  obtain ⟨links, hlinks, derivationLinks, _, s₁, hderived, rfl⟩ := h
  refine ⟨links, hlinks, ?_⟩
  exact ((rederived_setDerivationLinks _ derivationLinks).trans
    (updateDerived_rederived hderived)).trans (updateParent_rederived s₁ _)

theorem spliceDerivationList_rederived {fuel : Nat} {toMerge derivation : SlotPtr}
    (h : s.spliceDerivationList fuel toMerge derivation = some s') : Rederived s s' := by
  simp only [spliceDerivationList, Option.bind_eq_bind, Option.bind_eq_some_iff] at h
  obtain ⟨last, _, prev, _, start, _, last', _, derivationLast, _, derivationLast', _, h⟩ := h
  have hlinks : ∀ (s : Space) p (links : Links SlotPtr → Links SlotPtr), Rederived s
      (s.modifySlot p fun c => { c with derivationList := links c.derivationList }) :=
    fun s p links => rederived_modifySlot s p ⟨rfl, rfl, rfl, rfl, rfl, rfl, rfl⟩
  refine Rederived.trans ?_ (rederived_iterDerivationList ?_ h)
  · exact (((hlinks s prev fun l => { l with next := some start }).trans
      (hlinks _ start fun l => { l with prev := some prev })).trans
      (hlinks _ last' fun l => { l with prev := some derivationLast })).trans
      (hlinks _ derivationLast' fun l => { l with next := some derivationLast' })
  · intro s p s' hbody
    cases hbody
    exact rederived_modifySlot s p ⟨rfl, rfl, rfl, rfl, rfl, rfl, rfl⟩

theorem mergeChildren_rederived {fuel : Nat} {toMerge : SlotPtr}
    (h : s.mergeChildren fuel toMerge = some s') : Rederived s s' := by
  unfold mergeChildren at h
  simp only at h
  split at h
  · split at h
    · simp only [mergeBadged, Option.bind_eq_bind, Option.bind_eq_some_iff] at h
      obtain ⟨s₁, hiter, h⟩ := h
      have h₁ : Rederived s s₁ := by
        refine rederived_iterDerivationList ?_ hiter
        intro s p s' hbody
        cases hbody
        exact rederived_modifySlot s p ⟨rfl, rfl, rfl, rfl, rfl, rfl, rfl⟩
      split at h
      · cases h
        exact h₁.trans (rederived_modifySlot s₁ _ ⟨rfl, rfl, rfl, rfl, rfl, rfl, rfl⟩)
      · exact h₁.trans (spliceDerivationList_rederived h)
    · cases h
      exact .refl s
  · cases h
    exact .refl s

theorem unlinkFromParent_rederived (s : Space) (toMerge : SlotPtr) :
    Rederived s (s.unlinkFromParent toMerge) := by
  unfold unlinkFromParent
  simp only
  split
  · exact rederived_modifySlot s _ ⟨rfl, rfl, rfl, rfl, rfl, rfl, rfl⟩
  · exact .refl s

theorem mergeDerivationLists_rederived {fuel : Nat} {toMerge : SlotPtr}
    (h : s.mergeDerivationLists fuel toMerge = some s') : Rederived s s' := by
  simp only [mergeDerivationLists, Option.bind_eq_bind, Option.bind_eq_some_iff,
    Option.some.injEq] at h
  obtain ⟨s₁, hmerge, links, _, rfl⟩ := h
  exact ((mergeChildren_rederived hmerge).trans (unlinkFromParent_rederived s₁ toMerge)).trans
    (rederived_setDerivationLinks _ links)

theorem deriveCapability_rederived {source dest : SlotPtr}
    (h : s.deriveCapability source dest = some s') : Rederived s s' := by
  unfold deriveCapability at h
  simp only at h
  split at h
  · have hderived : Rederived s
        (s.modifySlot dest fun d => { d with derivedFrom := some source }) :=
      rederived_modifySlot s dest ⟨rfl, rfl, rfl, rfl, rfl, rfl, rfl⟩
    split at h
    · cases h
      refine hderived.trans (Rederived.trans ?_ (rederived_setDerivationLinks _ _))
      exact rederived_modifySlot _ source ⟨rfl, rfl, rfl, rfl, rfl, rfl, rfl⟩
    · simp only [Option.map_eq_some_iff] at h
      obtain ⟨links, _, rfl⟩ := h
      exact hderived.trans (rederived_setDerivationLinks _ links)
  · simp only [Option.map_eq_some_iff] at h
    obtain ⟨links, _, rfl⟩ := h
    exact rederived_setDerivationLinks s links

/-! Copies and moves write to the slot they fill. -/

variable {fuel : Nat} {source dest : SlotPtr}

theorem copyCapability_cases {address depth : Nat}
    (h : s.copyCapability source dest address depth = some s') :
    ∃ links, listInsertNoContainer (s.modifySlot dest fun _ => { s.slots source with
          flags := { (s.slots source).flags with original := false, badged := false }
          address := { (s.slots source).address with
            address := address, depth := depth } }).resourceLinks source dest = some links ∧
      Rederived ((s.modifySlot dest fun _ => { s.slots source with
          flags := { (s.slots source).flags with original := false, badged := false }
          address := { (s.slots source).address with
            address := address, depth := depth } }).setResourceLinks links) s' := by
  simp only [copyCapability, Option.bind_eq_bind, Option.bind_eq_some_iff,
    Option.some.injEq] at h
  obtain ⟨links, hlinks, s₁, hderive, rfl⟩ := h
  exact ⟨links, hlinks, (deriveCapability_rederived hderive).trans
    (rederived_modifySlot s₁ dest ⟨rfl, rfl, rfl, rfl, rfl, rfl, rfl⟩)⟩

theorem copyCapability_objects {address depth : Nat}
    (h : s.copyCapability source dest address depth = some s') :
    s'.objects = s.objects ∧ s'.nodes = s.nodes ∧ s'.updateRefs = s.updateRefs := by
  obtain ⟨links, _, hderived⟩ := copyCapability_cases h
  exact ⟨hderived.objects, hderived.nodes, hderived.updateRefs⟩

theorem moveCapability_cases (h : s.moveCapability fuel source dest = some s') :
    ∃ links s₁, listUpdateAddressNoContainer fuel
        (s.modifySlot dest fun _ => s.slots source).resourceLinks dest = some links ∧
      Rederived ((s.modifySlot dest fun _ => s.slots source).setResourceLinks links) s₁ ∧
      s' = s₁.modifySlot source fun c => { c with handlers := none } := by
  simp only [moveCapability, Option.bind_eq_bind, Option.bind_eq_some_iff,
    Option.some.injEq] at h
  obtain ⟨s₁, hreferences, rfl⟩ := h
  obtain ⟨links, hlinks, hderived⟩ := updateCapabilityReferences_cases hreferences
  exact ⟨links, s₁, hlinks, hderived, rfl⟩

theorem moveCapability_objects (h : s.moveCapability fuel source dest = some s') :
    s'.objects = s.objects ∧ s'.nodes = s.nodes ∧ s'.updateRefs = s.updateRefs := by
  obtain ⟨links, s₁, _, hderived, rfl⟩ := moveCapability_cases h
  exact ⟨hderived.objects, hderived.nodes, hderived.updateRefs⟩

theorem updateCapabilityAddresses_objects {slot : SlotPtr}
    {address : AbsoluteCapabilityAddress} {nesting : Nat}
    (h : s.updateCapabilityAddresses fuel slot address nesting = some s') :
    s'.objects = s.objects := by
  induction fuel generalizing s slot address nesting s' with
  | zero => cases h
  | succ fuel ih =>
      unfold updateCapabilityAddresses at h
      simp only at h
      generalize hs₁ : (if (s.slots slot).resourceList.prev = none then
        s.heapSetUpdateCapability (s.slots slot).resource address else s) = s₁ at h
      have hobjects : s₁.objects = s.objects := by
        rw [← hs₁]
        split <;> rfl
      split at h
      · have hround := foldlM_induct (motive := fun s => s.objects = s₁.objects) ?_ h rfl
        · exact hround.trans hobjects
        · intro s₂ i s₃ hs₂ hstep
          split at hstep
          · cases hstep
            exact hs₂
          · exact (ih hstep).trans hs₂
      · cases h
        exact hobjects

end Space

end Cenix
