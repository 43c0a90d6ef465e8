import Cenix.Capabilities.Authority
import Cenix.Capabilities.StaleLists

namespace Cenix

open LinkedLists

/-! New addresses for a capability and for what lies in its node. -/

namespace Space

variable {s s' s₁ s₂ : Space} {p q slot old skipped : SlotPtr} {known : SlotPtr → Prop}
  {fuel nesting : Nat} {address : AbsoluteCapabilityAddress}

/-- The capabilities have other addresses at most. -/
structure Readdressed (s s' : Space) : Prop where
  slots : ∀ q, ∃ a, s'.slots q = { s.slots q with address := a }
  slotBits : ∀ b, (s'.nodes b).slotBits = (s.nodes b).slotBits
  objects : s'.objects = s.objects

namespace Readdressed

theorem refl (s : Space) : Readdressed s s :=
  ⟨fun _ => ⟨_, rfl⟩, fun _ => rfl, rfl⟩

theorem trans (h : Readdressed s s₁) (h' : Readdressed s₁ s₂) : Readdressed s s₂ := by
  refine ⟨fun q => ?_, fun b => (h'.slotBits b).trans (h.slotBits b),
    h'.objects.trans h.objects⟩
  obtain ⟨a, ha⟩ := h.slots q
  obtain ⟨b, hb⟩ := h'.slots q
  exact ⟨b, by rw [hb, ha]⟩

theorem field {α : Type} (h : Readdressed s s') (field : Capability → α)
    (hfield : ∀ c a, field { c with address := a } = field c) (q : SlotPtr) :
    field (s'.slots q) = field (s.slots q) := by
  obtain ⟨a, ha⟩ := h.slots q
  rw [ha, hfield]

theorem handlers (h : Readdressed s s') (q : SlotPtr) :
    (s'.slots q).handlers = (s.slots q).handlers :=
  h.field (·.handlers) (fun _ _ => rfl) q

theorem authority (h : Readdressed s s') (q : SlotPtr) : s'.authority q = s.authority q :=
  h.field (fun c => c.contents.authority) (fun _ _ => rfl) q

theorem resource (h : Readdressed s s') : s'.resource = s.resource :=
  funext (h.field (·.resource) fun _ _ => rfl)

theorem resourceLinks (h : Readdressed s s') : s'.resourceLinks = s.resourceLinks :=
  funext (h.field (·.resourceList) fun _ _ => rfl)

theorem derivationLinks (h : Readdressed s s') : s'.derivationLinks = s.derivationLinks :=
  funext (h.field (·.derivationList) fun _ _ => rfl)

theorem derivation (h : Readdressed s s') (q : SlotPtr) :
    (s'.slots q).derivation = (s.slots q).derivation :=
  h.field (·.derivation) (fun _ _ => rfl) q

theorem derivedFrom (h : Readdressed s s') (q : SlotPtr) :
    (s'.slots q).derivedFrom = (s.slots q).derivedFrom :=
  h.field (·.derivedFrom) (fun _ _ => rfl) q

theorem live (h : Readdressed s s') : s'.Live = s.Live := by
  funext q
  unfold Live
  rw [h.handlers q]
  cases q with
  | node block i => simp only [Slot, h.objects, h.slotBits]
  | root t => simp only [Slot, h.objects]

theorem derivable (h : Readdressed s s') (q : SlotPtr) : s'.Derivable q ↔ s.Derivable q := by
  unfold Derivable
  rw [h.field (·.flags) (fun _ _ => rfl) q]

theorem childOf (h : Readdressed s s') : s'.ChildOf q p ↔ s.ChildOf q p := by
  unfold ChildOf
  rw [h.live, h.derivedFrom]

theorem wellLinked (h : Readdressed s s') (hlinked : s.WellLinked) : s'.WellLinked := by
  constructor
  · rw [h.resourceLinks, h.live, h.resource]
    exact hlinked.resources
  · intro q hq
    rw [h.live] at hq
    rw [h.derivationLinks, h.live]
    simp only [h.derivedFrom]
    exact hlinked.siblings q hq
  · intro p q hq hderived
    rw [h.live] at hq ⊢
    rw [h.derivedFrom] at hderived
    rw [h.derivable]
    exact hlinked.parents p q hq hderived
  · intro p hp hderivable
    rw [h.live] at hp
    rw [h.derivable] at hderivable
    rw [h.derivationLinks, h.derivation]
    simp only [h.childOf]
    exact hlinked.children p hp hderivable
  · intro p hp hderivable
    rw [h.live] at hp
    rw [h.derivable] at hderivable
    rw [h.derivation]
    exact hlinked.childless p hp hderivable

theorem orderedLists (h : Readdressed s s') (hordered : OrderedLists s known) :
    OrderedLists s' known := by
  obtain ⟨hresources, hderivations, hchildren⟩ := hordered
  refine ⟨?_, ?_, fun p d hp hd => ?_⟩
  · rwa [h.resourceLinks]
  · rwa [h.derivationLinks]
  · rw [h.derivation] at hd
    rw [h.derivationLinks]
    exact hchildren p d hp hd

theorem oneCopy (h : Readdressed s s') (hcopy : OneCopy s known skipped) :
    OneCopy s' known skipped := by
  obtain ⟨hordered, hresources, hderivations, hapart⟩ := hcopy
  refine ⟨h.orderedLists hordered, ?_, ?_, fun p d hp hd => ?_⟩
  · rwa [h.resourceLinks]
  · rwa [h.derivationLinks]
  · rw [h.derivation] at hd
    rw [h.derivationLinks]
    exact hapart p d hp hd

theorem staleLists (h : Readdressed s s') (hstale : StaleLists s known old skipped) :
    StaleLists s' known old skipped := by
  obtain ⟨hordered, hresources, hderivations, hapart⟩ := hstale
  refine ⟨h.orderedLists hordered, ?_, ?_, fun p hp hd => ?_⟩
  · rwa [h.resourceLinks]
  · rwa [h.derivationLinks]
  · rw [h.derivation] at hd
    rw [h.derivationLinks]
    exact hapart p hp hd

end Readdressed

/-- The capability's own address, and that of its resource if it is the owner. -/
theorem readdressed_slot (s : Space) (slot : SlotPtr) (address : AbsoluteCapabilityAddress) :
    Readdressed s ((if (s.slots slot).resourceList.prev = none then
        s.heapSetUpdateCapability (s.slots slot).resource address else s).modifySlot slot
      fun c => { c with address := address }) := by
  have hslots : (if (s.slots slot).resourceList.prev = none then
      s.heapSetUpdateCapability (s.slots slot).resource address else s).slots = s.slots := by
    split <;> rfl
  refine ⟨fun q => ?_, fun b => ?_, ?_⟩
  · simp only [modifySlot, hslots]
    by_cases hq : q = slot
    · subst hq
      exact ⟨address, by simp⟩
    · exact ⟨(s.slots q).address, by simp [hq]⟩
  · simp only [modifySlot]
    split <;> rfl
  · simp only [modifySlot]
    split <;> rfl

theorem updateCapabilityAddresses_readdressed
    (h : s.updateCapabilityAddresses fuel slot address nesting = some s') :
    Readdressed s s' := by
  induction fuel generalizing s slot address nesting s' with
  | zero => cases h
  | succ fuel ih =>
      unfold updateCapabilityAddresses at h
      simp only at h
      have hbegin := readdressed_slot s slot address
      generalize hs₁ : ((if (s.slots slot).resourceList.prev = none then
        s.heapSetUpdateCapability (s.slots slot).resource address else s).modifySlot slot
          fun c => { c with address := address }) = s₁ at h hbegin
      split at h
      · refine foldlM_induct (motive := fun s' => Readdressed s s') ?_ h
          (hbegin.trans ⟨fun _ => ⟨_, rfl⟩, fun b => ?_, rfl⟩)
        · intro s₂ i s₃ hs₂ hstep
          split at hstep
          · cases hstep
            exact hs₂
          · exact hs₂.trans (ih hstep)
        · simp only [Function.update_apply]
          split
          · rename_i hb
            rw [hb]
          · rfl
      · cases h
        exact hbegin

end Space

end Cenix
