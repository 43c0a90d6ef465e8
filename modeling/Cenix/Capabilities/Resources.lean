import Cenix.Kernel.Deletion
import Cenix.LinkedLists.Families

namespace Cenix

open LinkedLists

/-! The capabilities of every resource form one list. -/

/-- What a capability with these handlers refers to; a debug capability has no
resource. -/
def Handlers.objectKind : Handlers → Option ObjectKind
  | .debug => none
  | .endpoint => some .endpoint
  | .thread => some .thread
  | .node => some .node
  | .untyped => some .untyped
  | .addressSpace => some .addressSpace

/-- The block that a slot lies in. -/
def SlotPtr.block : SlotPtr → Addr
  | .node block _ => block
  | .root thread => thread

namespace Space

variable (s : Space)

def resource (p : SlotPtr) : Addr :=
  (s.slots p).resource

def RefersTo (handlers : Handlers) (resource : Addr) : Prop :=
  match handlers.objectKind with
  | none => resource = 0
  | some kind => resource ≠ 0 ∧ s.objects resource = some kind

/-- No other capability has the same resource. -/
def Alone (p : SlotPtr) : Prop :=
  ∀ q, s.Live q → s.resource q = s.resource p → q = p

/-- The list of every resource holds its capabilities, they all refer to an object
of their kind, and the root capability of a thread is never shared. -/
structure ResourceLists : Prop where
  lists : Families s.resourceLinks s.Live s.resource
  refers : ∀ p handlers, s.Live p → (s.slots p).handlers = some handlers →
    s.RefersTo handlers (s.resource p)
  roots : ∀ t, s.objects t = some .thread →
    (s.resourceLinks (.root t)).prev = none ∧ (s.resourceLinks (.root t)).next = none

/-- `s'` has the capabilities of `s`, up to what the lists do not depend on. -/
structure SameResources (s' : Space) : Prop where
  slotBits : ∀ b, (s'.nodes b).slotBits = (s.nodes b).slotBits
  objects : s'.objects = s.objects
  handlers : ∀ p, (s'.slots p).handlers = (s.slots p).handlers
  resource : ∀ p, s'.resource p = s.resource p
  links : s'.resourceLinks = s.resourceLinks

variable {s} {s' s₁ : Space} {p q : SlotPtr}

namespace SameResources

theorem refl (s : Space) : s.SameResources s :=
  ⟨fun _ => rfl, rfl, fun _ => rfl, fun _ => rfl, rfl⟩

theorem trans (h : s.SameResources s₁) (h' : s₁.SameResources s') : s.SameResources s' :=
  ⟨fun b => (h'.slotBits b).trans (h.slotBits b), h'.objects.trans h.objects,
    fun p => (h'.handlers p).trans (h.handlers p),
    fun p => (h'.resource p).trans (h.resource p), h'.links.trans h.links⟩

theorem slot_iff (h : s.SameResources s') (p : SlotPtr) : s'.Slot p ↔ s.Slot p := by
  cases p with
  | node block i => simp only [Slot, h.objects, h.slotBits]
  | root thread => simp only [Slot, h.objects]

theorem live_iff (h : s.SameResources s') (p : SlotPtr) : s'.Live p ↔ s.Live p := by
  unfold Live
  rw [h.slot_iff, h.handlers]

theorem alone_iff (h : s.SameResources s') (p : SlotPtr) : s'.Alone p ↔ s.Alone p := by
  unfold Alone
  simp only [h.live_iff, h.resource]

theorem of_rederived (h : Rederived s s') : s.SameResources s' where
  slotBits b := by rw [h.nodes]
  objects := h.objects
  handlers p := (h.slots p).handlers
  resource p := (h.slots p).resource
  links := funext fun p => (h.slots p).resourceList

/-- A change of one slot that the lists do not depend on. -/
theorem modifySlot (s : Space) (p : SlotPtr) {change : Capability → Capability}
    (hhandlers : (change (s.slots p)).handlers = (s.slots p).handlers)
    (hresource : (change (s.slots p)).resource = (s.slots p).resource)
    (hlist : (change (s.slots p)).resourceList = (s.slots p).resourceList) :
    s.SameResources (s.modifySlot p change) := by
  have hfield : ∀ {α : Type} (field : Capability → α),
      field (change (s.slots p)) = field (s.slots p) →
      ∀ q, field ((s.modifySlot p change).slots q) = field (s.slots q) := by
    intro α field hfield q
    cases decEq q p with
    | isTrue hqp => simp [Space.modifySlot, hqp, hfield]
    | isFalse hqp => simp [Space.modifySlot, hqp]
  exact ⟨fun _ => rfl, rfl, hfield (·.handlers) hhandlers, hfield (·.resource) hresource,
    funext (hfield (·.resourceList) hlist)⟩

theorem heapSetUpdateCapability (s : Space) (ptr : Addr) (address : AbsoluteCapabilityAddress) :
    s.SameResources (s.heapSetUpdateCapability ptr address) :=
  ⟨fun _ => rfl, rfl, fun _ => rfl, fun _ => rfl, rfl⟩

end SameResources

namespace ResourceLists

theorem congr (h : s.ResourceLists) (hsame : s.SameResources s') : s'.ResourceLists where
  lists := h.lists.congr (fun _ _ => by rw [hsame.links]) hsame.live_iff
    (fun p _ => hsame.resource p)
  refers p handlers hp hhandlers := by
    have hrefers := h.refers p handlers ((hsame.live_iff p).mp hp)
      ((hsame.handlers p).symm.trans hhandlers)
    unfold RefersTo at hrefers ⊢
    rw [hsame.resource, hsame.objects]
    exact hrefers
  roots t ht := by
    rw [hsame.links]
    exact h.roots t (hsame.objects ▸ ht)

/-- `isLast` is what it is meant to be. -/
theorem isLast_iff (h : s.ResourceLists) (hp : s.Live p) : Kernel.isLast s p ↔ s.Alone p :=
  h.lists.alone_iff hp

end ResourceLists

end Space

end Cenix
