import Cenix.Capabilities.Deletion

namespace Cenix

open LinkedLists

/-! Copies, moves and new capabilities keep the lists of all resources. -/

/-- A capability without its links. -/
structure CapabilityContents where
  handlers : Option Handlers
  resource : Addr
  flags : CapFlags
  badge : Nat
  accessRights : BitVec 8
  address : AbsoluteCapabilityAddress

def Capability.contents (c : Capability) : CapabilityContents :=
  ⟨c.handlers, c.resource, c.flags, c.badge, c.accessRights, c.address⟩

theorem SameCapability.contents {c c' : Capability} (h : SameCapability c c') :
    c'.contents = c.contents := by
  unfold Capability.contents
  rw [h.handlers, h.resource, h.flags, h.badge, h.accessRights, h.address]

namespace Space

variable {s s' : Space} {source dest p q : SlotPtr} {fuel address depth : Nat}

def contents (s : Space) (p : SlotPtr) : CapabilityContents :=
  (s.slots p).contents

theorem slot_congr (hobjects : s'.objects = s.objects) (hnodes : s'.nodes = s.nodes)
    (p : SlotPtr) : s'.Slot p ↔ s.Slot p := by
  cases p with
  | node block i => simp only [Slot, hobjects, hnodes]
  | root t => simp only [Slot, hobjects]

/-! Moves. -/

theorem moveCapability_contents (hne : source ≠ dest)
    (h : s.moveCapability fuel source dest = some s') (q : SlotPtr) :
    s'.contents q =
      if q = source then { s.contents q with handlers := none }
      else if q = dest then s.contents source
      else s.contents q := by
  obtain ⟨links, s₁, -, hderived, rfl⟩ := moveCapability_cases h
  have hcopied : s₁.contents q =
      ((s.modifySlot dest fun _ => s.slots source).slots q).contents :=
    (hderived.slots q).contents
  cases decEq q source with
  | isTrue hq =>
      subst hq
      have hsame : s₁.contents q = s.contents q := by
        rw [hcopied]
        simp [modifySlot, hne, contents]
      rw [if_pos rfl, ← hsame]
      simp [modifySlot, contents, Capability.contents]
  | isFalse hq =>
      have hkept : (s₁.modifySlot source fun c => { c with handlers := none }).contents q =
          s₁.contents q := by
        simp [modifySlot, hq, contents]
      rw [if_neg hq, hkept, hcopied]
      cases decEq q dest with
      | isTrue hqd => simp [modifySlot, hqd, contents]
      | isFalse hqd => simp [modifySlot, hqd, contents]

theorem moveCapability_live (hne : source ≠ dest) (hsource : s.Live source)
    (hdest : s.Slot dest) (h : s.moveCapability fuel source dest = some s') (q : SlotPtr) :
    s'.Live q ↔ (s.Live q ∧ q ≠ source) ∨ q = dest := by
  obtain ⟨hobjects, hnodes, -⟩ := moveCapability_objects h
  have hcontents := congrArg CapabilityContents.handlers (moveCapability_contents hne h q)
  unfold Live
  rw [slot_congr hobjects hnodes]
  have hhandlers : (s'.slots q).handlers = if q = source then none
      else if q = dest then (s.slots source).handlers else (s.slots q).handlers := by
    refine hcontents.trans ?_
    split
    · rfl
    · split <;> rfl
  rw [hhandlers]
  cases decEq q source with
  | isTrue hq => simp [hq, hne]
  | isFalse hq =>
      cases decEq q dest with
      | isTrue hqd => simp [hqd, hne.symm, hdest, hsource.2]
      | isFalse hqd => simp [hq, hqd]

theorem ResourceLists.move (h : s.ResourceLists) (hsource : s.Live source)
    (hdest : s.Slot dest) (hempty : (s.slots dest).handlers = none)
    (hroot : ∀ t, dest ≠ .root t) (hmove : s.moveCapability fuel source dest = some s') :
    s'.ResourceLists := by
  have hitem : ¬s.Live dest := fun hlive => hlive.2 hempty
  have hne : source ≠ dest := fun heq => hitem (heq ▸ hsource)
  have hcontents := moveCapability_contents hne hmove
  have hlive := moveCapability_live hne hsource hdest hmove
  obtain ⟨hobjects, hnodes, -⟩ := moveCapability_objects hmove
  obtain ⟨links, s₁, hupdate, hderived, rfl⟩ := moveCapability_cases hmove
  have hself : (s.modifySlot dest fun _ => s.slots source).resourceLinks dest =
      s.resourceLinks source := by
    simp [resourceLinks, modifySlot]
  have hother : ∀ q, q ≠ dest → (s.modifySlot dest fun _ => s.slots source).resourceLinks q =
      s.resourceLinks q := by
    intro q hq
    simp [resourceLinks, modifySlot, hq]
  have hlinks : (s₁.modifySlot source fun c => { c with handlers := none }).resourceLinks =
      links := by
    have hkept := SameResources.of_rederived hderived
    funext q
    have hq : s₁.resourceLinks q = links q := congrFun hkept.links q
    rw [← hq]
    unfold resourceLinks
    cases decEq q source with
    | isTrue hqs => simp [modifySlot, hqs]
    | isFalse hqs => simp [modifySlot, hqs]
  have hresource : ∀ q, (s₁.modifySlot source fun c => { c with handlers := none }).resource q =
      if q = dest then s.resource source else s.resource q := by
    intro q
    refine (congrArg CapabilityContents.resource (hcontents q)).trans ?_
    cases decEq q source with
    | isTrue hqs => simp [hqs, hne, contents, Capability.contents, resource]
    | isFalse hqs =>
        cases decEq q dest with
        | isTrue hqd => simp [hqd, hne.symm, contents, Capability.contents, resource]
        | isFalse hqd => simp [hqs, hqd, contents, Capability.contents, resource]
  constructor
  · rw [hlinks]
    refine h.lists.move hsource hitem hself hother hupdate hlive ?_ ?_
    · rw [hresource, if_pos rfl]
    · intro q hq _
      have hqd : q ≠ dest := fun heq => hitem (heq ▸ hq)
      rw [hresource, if_neg hqd]
  · intro q handlers hq hhandlers
    have hq' := (hlive q).mp hq
    have hold := (congrArg CapabilityContents.handlers (hcontents q)).symm.trans hhandlers
    have hrefers : ∀ r, RefersTo (s₁.modifySlot source fun c => { c with handlers := none })
        handlers r ↔ s.RefersTo handlers r := by
      intro r
      unfold RefersTo
      rw [hobjects]
    rw [hrefers, hresource]
    cases hq' with
    | inl hkept =>
        have hqd : q ≠ dest := fun heq => hitem (heq ▸ hkept.1)
        rw [if_neg hkept.2, if_neg hqd] at hold
        rw [if_neg hqd]
        exact h.refers q handlers hkept.1 hold
    | inr hmoved =>
        subst hmoved
        rw [if_neg hne.symm, if_pos rfl] at hold
        rw [if_pos rfl]
        exact h.refers source handlers hsource hold
  · intro t ht
    rw [hobjects] at ht
    rw [hlinks, h.lists.move_other hsource hitem hself hother hupdate ?_ (hroot t).symm]
    · exact h.roots t ht
    · intro hlive hresource
      exact (h.root_alone ht hlive source hsource hresource.symm).symm

/-! Copies. -/

/-- The contents of a copy. -/
def CapabilityContents.copied (c : CapabilityContents) (address depth : Nat) :
    CapabilityContents :=
  { c with
    flags := { c.flags with original := false, badged := false }
    address := { c.address with address := address, depth := depth } }

theorem copyCapability_contents
    (h : s.copyCapability source dest address depth = some s') (q : SlotPtr) :
    s'.contents q =
      if q = dest then CapabilityContents.copied (s.contents source) address depth
      else s.contents q := by
  obtain ⟨links, -, hderived⟩ := copyCapability_cases h
  refine (hderived.slots q).contents.trans ?_
  cases decEq q dest with
  | isTrue hq =>
      simp [setResourceLinks, modifySlot, hq, contents, Capability.contents,
        CapabilityContents.copied]
  | isFalse hq => simp [setResourceLinks, modifySlot, hq, contents, Capability.contents]

theorem copyCapability_live (hsource : s.Live source) (hdest : s.Slot dest)
    (h : s.copyCapability source dest address depth = some s') (q : SlotPtr) :
    s'.Live q ↔ s.Live q ∨ q = dest := by
  obtain ⟨hobjects, hnodes, -⟩ := copyCapability_objects h
  have hcontents := congrArg CapabilityContents.handlers (copyCapability_contents h q)
  unfold Live
  rw [slot_congr hobjects hnodes]
  have hhandlers : (s'.slots q).handlers =
      if q = dest then (s.slots source).handlers else (s.slots q).handlers := by
    refine hcontents.trans ?_
    split <;> rfl
  rw [hhandlers]
  cases decEq q dest with
  | isTrue hq => simp [hq, hdest, hsource.2]
  | isFalse hq => simp [hq]

/-- A copy of a capability that is alone. -/
theorem ResourceLists.copy (h : s.ResourceLists) (hsource : s.Live source)
    (halone : s.Alone source) (hsourceRoot : ∀ t, source ≠ .root t) (hdest : s.Slot dest)
    (hempty : (s.slots dest).handlers = none) (hroot : ∀ t, dest ≠ .root t)
    (hcopy : s.copyCapability source dest address depth = some s') : s'.ResourceLists := by
  have hitem : ¬s.Live dest := fun hlive => hlive.2 hempty
  have hne : dest ≠ source := fun heq => hitem (heq ▸ hsource)
  have hcontents := copyCapability_contents hcopy
  have hlive := copyCapability_live hsource hdest hcopy
  obtain ⟨hobjects, -, -⟩ := copyCapability_objects hcopy
  obtain ⟨links, hinsert, hderived⟩ := copyCapability_cases hcopy
  have hlinks : s'.resourceLinks = links := (SameResources.of_rederived hderived).links
  have hother : ∀ q, q ≠ dest → (s.modifySlot dest fun _ => { s.slots source with
      flags := { (s.slots source).flags with original := false, badged := false }
      address := { (s.slots source).address with
        address := address, depth := depth } }).resourceLinks q = s.resourceLinks q := by
    intro q hq
    simp [resourceLinks, modifySlot, hq]
  have hresource : ∀ q, s'.resource q =
      if q = dest then s.resource source else s.resource q := by
    intro q
    refine (congrArg CapabilityContents.resource (hcontents q)).trans ?_
    cases decEq q dest with
    | isTrue hq =>
        simp [hq, contents, Capability.contents, resource, CapabilityContents.copied]
    | isFalse hq => simp [hq, contents, Capability.contents, resource]
  constructor
  · rw [hlinks]
    refine h.lists.insert_single hsource hitem halone hother hinsert hlive ?_ ?_
    · rw [hresource, if_pos rfl]
    · intro q hq
      have hqd : q ≠ dest := fun heq => hitem (heq ▸ hq)
      rw [hresource, if_neg hqd]
  · intro q handlers hq hhandlers
    have hold := (congrArg CapabilityContents.handlers (hcontents q)).symm.trans hhandlers
    have hrefers : ∀ r, s'.RefersTo handlers r ↔ s.RefersTo handlers r := by
      intro r
      unfold RefersTo
      rw [hobjects]
    rw [hrefers, hresource]
    cases (hlive q).mp hq with
    | inl hkept =>
        have hqd : q ≠ dest := fun heq => hitem (heq ▸ hkept)
        rw [if_neg hqd] at hold ⊢
        exact h.refers q handlers hkept hold
    | inr hcopied =>
        subst hcopied
        rw [if_pos rfl] at hold ⊢
        exact h.refers source handlers hsource hold
  · intro t ht
    rw [hobjects] at ht
    have hsingle := dlist_singleton.mp (h.lists.dlist_of_alone hsource halone)
    have hroots := h.roots t ht
    rw [hlinks, listInsertNoContainer_single ((hother source hne.symm).trans hsingle) hne hinsert,
      if_neg (hsourceRoot t).symm, if_neg (hroot t).symm, hother _ (hroot t).symm]
    exact hroots

end Space

end Cenix
