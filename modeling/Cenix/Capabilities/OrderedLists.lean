import Cenix.Capabilities.Moves
import Cenix.LinkedLists.ListedOrder

namespace Cenix

open LinkedLists

/-! Moves and copies of capabilities whose lists need not be well linked. -/

namespace Space

variable {s s' : Space} {source dest p q : SlotPtr} {known : SlotPtr → Prop}

/-- The links and the pointer to the derived capabilities, of every slot. -/
structure SamePointers (s s' : Space) : Prop where
  resourceLinks : s'.resourceLinks = s.resourceLinks
  derivationLinks : s'.derivationLinks = s.derivationLinks
  derivation : ∀ q, (s'.slots q).derivation = (s.slots q).derivation

theorem SamePointers.refl (s : Space) : SamePointers s s :=
  ⟨rfl, rfl, fun _ => rfl⟩

theorem SamePointers.trans {s₁ s₂ s₃ : Space} (h : SamePointers s₁ s₂)
    (h' : SamePointers s₂ s₃) : SamePointers s₁ s₃ :=
  ⟨h'.resourceLinks.trans h.resourceLinks, h'.derivationLinks.trans h.derivationLinks,
    fun q => (h'.derivation q).trans (h.derivation q)⟩

theorem samePointers_modifySlot (s : Space) (p : SlotPtr) (change : Capability → Capability)
    (hresource : (change (s.slots p)).resourceList = (s.slots p).resourceList)
    (hderivationList : (change (s.slots p)).derivationList = (s.slots p).derivationList)
    (hderivation : (change (s.slots p)).derivation = (s.slots p).derivation) :
    SamePointers s (s.modifySlot p change) := by
  refine ⟨?_, ?_, fun q => ?_⟩
  · funext q
    by_cases hq : q = p
    · simp [resourceLinks, modifySlot, hq, hresource]
    · simp [resourceLinks, modifySlot, hq]
  · funext q
    by_cases hq : q = p
    · simp [derivationLinks, modifySlot, hq, hderivationList]
    · simp [derivationLinks, modifySlot, hq]
  · by_cases hq : q = p
    · simp [modifySlot, hq, hderivation]
    · simp [modifySlot, hq]

/-- The derived capabilities learn of the move if the walk through them ends. -/
theorem updateDerived_ends {capability : SlotPtr}
    (hends : ∀ d a, (s.slots capability).derivation = some d →
      (s.derivationLinks d).start = some a → Ends (fun q => (s.derivationLinks q).next) a) :
    ∃ n s', (∀ fuel ≥ n, s.updateDerived fuel capability = some s') ∧ SamePointers s s' := by
  have hnothing : (∀ fuel, s.updateDerived fuel capability = some s) →
      ∃ n s', (∀ fuel ≥ n, s.updateDerived fuel capability = some s') ∧ SamePointers s s' :=
    fun hs => ⟨0, s, fun fuel _ => hs fuel, .refl s⟩
  cases hderivation : (s.slots capability).derivation with
  | none =>
      refine hnothing fun fuel => ?_
      unfold updateDerived
      simp only [hderivation]
  | some d =>
      by_cases hflags : (s.slots capability).flags.original || (s.slots capability).flags.badged
      · cases hstart : (s.derivationLinks d).start with
        | none =>
            have hstart : (s.slots d).derivationList.start = none := hstart
            refine hnothing fun fuel => ?_
            unfold updateDerived iterDerivationList
            simp only [hderivation, hflags, if_true, hstart]
            cases fuel <;> rfl
        | some a =>
            have hbody : ∀ s₁ p, SamePointers s s₁ → ∃ s₂, some (s₁.modifySlot p fun l =>
                { l with derivedFrom := some capability }) = some s₂ ∧ SamePointers s s₂ ∧
                  (fun q => (s₂.slots q).derivationList.next) =
                    fun q => (s₁.slots q).derivationList.next := by
              intro s₁ p hs₁
              have hstep := samePointers_modifySlot s₁ p
                (fun l => { l with derivedFrom := some capability }) rfl rfl rfl
              exact ⟨_, rfl, hs₁.trans hstep,
                funext fun q => congrArg Links.next (congrFun hstep.derivationLinks q)⟩
            obtain ⟨n, hn⟩ := listIter_ends
              (fun (s : Space) p => (s.slots p).derivationList.next) hbody
              (hends d a hderivation hstart)
            obtain ⟨s', hs', hsame⟩ := hn s (.refl s) rfl
            have hstart : (s.slots d).derivationList.start = some a := hstart
            refine ⟨n, s', fun fuel hfuel => ?_, hsame⟩
            unfold updateDerived iterDerivationList
            simp only [hderivation, hflags, if_true, hstart]
            exact hs' fuel hfuel
      · refine hnothing fun fuel => ?_
        unfold updateDerived
        simp only [hderivation]
        rw [if_neg hflags]

theorem updateParent_pointers (s : Space) (p : SlotPtr) :
    (s.updateParent p).resourceLinks = s.resourceLinks ∧
      (s.updateParent p).derivationLinks = s.derivationLinks ∧
      ∀ q, ((s.updateParent p).slots q).derivation = (s.slots q).derivation ∨
        ((s.updateParent p).slots q).derivation = some p ∧ (s.derivationLinks p).prev = none := by
  rw [updateParent_eq]
  refine ⟨?_, ?_, fun q => ?_⟩
  · funext q
    unfold resourceLinks
    simp only
    split <;> rfl
  · funext q
    unfold derivationLinks
    simp only
    split <;> rfl
  · simp only
    split
    · rename_i hparent
      exact .inr ⟨rfl, hparent.1⟩
    · exact .inl rfl

/-- A move returns if the updates of both lists do and the walk through the derived
capabilities ends. -/
theorem moveCapability_ends {resources derivations : SlotPtr → Links SlotPtr}
    (hresources : ∃ n, ∀ fuel ≥ n, listUpdateAddressNoContainer fuel
      (s.modifySlot dest fun _ => s.slots source).resourceLinks dest = some resources)
    (hderivations : ∃ n, ∀ fuel ≥ n, listUpdateAddressNoContainer fuel
      (s.modifySlot dest fun _ => s.slots source).derivationLinks dest = some derivations)
    (hends : ∀ d a, (s.slots source).derivation = some d →
      (derivations d).start = some a → Ends (fun q => (derivations q).next) a) :
    ∃ n s', (∀ fuel ≥ n, s.moveCapability fuel source dest = some s') ∧
      s'.resourceLinks = resources ∧ s'.derivationLinks = derivations ∧
      ∀ q, (s'.slots q).derivation =
          ((s.modifySlot dest fun _ => s.slots source).slots q).derivation ∨
        (s'.slots q).derivation = some dest ∧ (derivations dest).prev = none := by
  obtain ⟨n₁, hn₁⟩ := hresources
  obtain ⟨n₂, hn₂⟩ := hderivations
  let copied := s.modifySlot dest fun _ => s.slots source
  let linked := (copied.setResourceLinks resources).setDerivationLinks derivations
  have hat : (copied.slots dest).derivation = (s.slots source).derivation := by
    simp [copied, modifySlot]
  have hwalk : ∀ d a, (linked.slots dest).derivation = some d →
      (linked.derivationLinks d).start = some a →
      Ends (fun q => (linked.derivationLinks q).next) a :=
    fun d a hd ha => hends d a (hat.symm.trans hd) ha
  obtain ⟨n₃, s₁, hn₃, hsame⟩ := updateDerived_ends hwalk
  obtain ⟨hresource, hderivationList, hderivation⟩ := updateParent_pointers s₁ dest
  let emptied := (s₁.updateParent dest).modifySlot source fun c => { c with handlers := none }
  have hlast : SamePointers (s₁.updateParent dest) emptied :=
    samePointers_modifySlot _ source _ rfl rfl rfl
  refine ⟨n₁ + n₂ + n₃, emptied, fun fuel hfuel => ?_, ?_, ?_, fun q => ?_⟩
  · have hreferences : copied.updateCapabilityReferences fuel dest =
        some (s₁.updateParent dest) := by
      rw [updateCapabilityReferences, hn₁ fuel (by omega), Option.bind_eq_bind, Option.bind_some]
      have hsecond : (copied.setResourceLinks resources).derivationLinks =
          copied.derivationLinks := rfl
      simp only [hsecond]
      rw [hn₂ fuel (by omega), Option.bind_eq_bind, Option.bind_some,
        hn₃ fuel (by omega), Option.bind_some]
    rw [moveCapability, hreferences, Option.bind_eq_bind, Option.bind_some]
  · rw [hlast.resourceLinks, hresource, hsame.resourceLinks]
    rfl
  · rw [hlast.derivationLinks, hderivationList, hsame.derivationLinks]
    rfl
  · have hs₁ : (s₁.slots q).derivation = (copied.slots q).derivation := hsame.derivation q
    have hprev : (s₁.derivationLinks dest).prev = (derivations dest).prev := by
      rw [hsame.derivationLinks]
      rfl
    rw [hlast.derivation, ← hs₁, ← hprev]
    exact hderivation q

/-- The pointers between the known capabilities keep an order, and a capability's first
derived one heads its list. -/
structure OrderedLists (s : Space) (known : SlotPtr → Prop) : Prop where
  resources : ∃ ahead behind, Ordered s.resourceLinks known ahead behind
  derivations : ∃ ahead behind, Ordered s.derivationLinks known ahead behind
  children : ∀ p d, known p → (s.slots p).derivation = some d →
    known d ∧ (s.derivationLinks d).prev = none

/-- What a move to a slot that nothing points to has done to the pointers. -/
structure MovedPointers (s : Space) (source dest : SlotPtr) (s' : Space) : Prop where
  resources : Relinked (s.modifySlot dest fun _ => s.slots source).resourceLinks dest
    s'.resourceLinks
  derivations : Relinked (s.modifySlot dest fun _ => s.slots source).derivationLinks dest
    s'.derivationLinks
  derivation : ∀ q, (s'.slots q).derivation =
      ((s.modifySlot dest fun _ => s.slots source).slots q).derivation ∨
    (s'.slots q).derivation = some dest ∧ (s'.derivationLinks dest).prev = none

/-! The links of a slot that was filled with a copy of another one. -/

theorem copied_resourceLinks (s : Space) (source dest : SlotPtr) :
    (s.modifySlot dest fun _ => s.slots source).resourceLinks dest = s.resourceLinks source ∧
      ∀ q, q ≠ dest → (s.modifySlot dest fun _ => s.slots source).resourceLinks q =
        s.resourceLinks q := by
  refine ⟨by simp [resourceLinks, modifySlot], fun q hq => ?_⟩
  simp [resourceLinks, modifySlot, hq]

theorem copied_derivationLinks (s : Space) (source dest : SlotPtr) :
    (s.modifySlot dest fun _ => s.slots source).derivationLinks dest =
        s.derivationLinks source ∧
      ∀ q, q ≠ dest → (s.modifySlot dest fun _ => s.slots source).derivationLinks q =
        s.derivationLinks q := by
  refine ⟨by simp [derivationLinks, modifySlot], fun q hq => ?_⟩
  simp [derivationLinks, modifySlot, hq]

theorem copied_derivation (s : Space) (source dest : SlotPtr) :
    ((s.modifySlot dest fun _ => s.slots source).slots dest).derivation =
        (s.slots source).derivation ∧
      ∀ q, q ≠ dest → ((s.modifySlot dest fun _ => s.slots source).slots q).derivation =
        (s.slots q).derivation := by
  refine ⟨by simp [modifySlot], fun q hq => ?_⟩
  simp [modifySlot, hq]

namespace OrderedLists

theorem move (h : OrderedLists s known) (hsource : known source) (hdest : ¬known dest) :
    ∃ n s', (∀ fuel ≥ n, s.moveCapability fuel source dest = some s') ∧
      MovedPointers s source dest s' ∧ OrderedLists s' fun q => known q ∨ q = dest := by
  obtain ⟨ahead₁, behind₁, hresources⟩ := h.resources
  obtain ⟨ahead₂, behind₂, hderivations⟩ := h.derivations
  obtain ⟨hself₁, hother₁⟩ := copied_resourceLinks s source dest
  obtain ⟨hself₂, hother₂⟩ := copied_derivationLinks s source dest
  obtain ⟨hself₃, hother₃⟩ := copied_derivation s source dest
  obtain ⟨n₁, resources, hn₁, hrelinked₁⟩ :=
    hresources.updateAddress_ends hsource hdest hself₁ hother₁
  obtain ⟨n₂, derivations, hn₂, hrelinked₂⟩ :=
    hderivations.updateAddress_ends hsource hdest hself₂ hother₂
  have horder₁ := hresources.relinked hsource hdest hself₁ hother₁ hrelinked₁
  have horder₂ := hderivations.relinked hsource hdest hself₂ hother₂ hrelinked₂
  obtain ⟨n, s', hn, hresource, hderivationList, hderivation⟩ :=
    moveCapability_ends ⟨n₁, hn₁⟩ ⟨n₂, hn₂⟩ fun d a hd ha =>
      horder₂.next_ends (horder₂.start d a (.inl (h.children source d hsource hd).1) ha).1
  subst hresource hderivationList
  refine ⟨n, s', hn, ⟨hrelinked₁, hrelinked₂, hderivation⟩,
    ⟨_, _, horder₁⟩, ⟨_, _, horder₂⟩, ?_⟩
  intro p d hp hd
  rcases hderivation p with hsame | ⟨hnew, hprev⟩
  · rw [hsame] at hd
    have hchild : known d ∧ (s.derivationLinks d).prev = none := by
      rcases hp with hp | rfl
      · rw [hother₃ p fun heq => hdest (heq ▸ hp)] at hd
        exact h.children p d hp hd
      · rw [hself₃] at hd
        exact h.children source d hsource hd
    have hdd : d ≠ dest := fun heq => hdest (heq ▸ hchild.1)
    refine ⟨.inl hchild.1, ?_⟩
    rw [hrelinked₂.prev, if_neg, hother₂ d hdd]
    · exact hchild.2
    · rw [hself₂]
      exact fun heq => (hderivations.next source d hsource heq).2.2.2 hchild.2
  · rw [hnew] at hd
    obtain rfl := Option.some.inj hd
    exact ⟨.inr rfl, hprev⟩

end OrderedLists

/-! Copies. -/

/-- The slot is filled before it takes its place in the lists. -/
def duplicate (s : Space) (source dest : SlotPtr) (address depth : Nat) : Space :=
  s.modifySlot dest fun _ => { s.slots source with
    flags := { (s.slots source).flags with original := false, badged := false }
    address := { (s.slots source).address with address := address, depth := depth } }

variable {address depth : Nat}

theorem duplicate_resourceLinks (s : Space) (source dest : SlotPtr) (address depth : Nat) :
    (s.duplicate source dest address depth).resourceLinks dest = s.resourceLinks source ∧
      ∀ q, q ≠ dest → (s.duplicate source dest address depth).resourceLinks q =
        s.resourceLinks q := by
  refine ⟨by simp [resourceLinks, duplicate, modifySlot], fun q hq => ?_⟩
  simp [resourceLinks, duplicate, modifySlot, hq]

theorem duplicate_derivationLinks (s : Space) (source dest : SlotPtr) (address depth : Nat) :
    (s.duplicate source dest address depth).derivationLinks dest = s.derivationLinks source ∧
      ∀ q, q ≠ dest → (s.duplicate source dest address depth).derivationLinks q =
        s.derivationLinks q := by
  refine ⟨by simp [derivationLinks, duplicate, modifySlot], fun q hq => ?_⟩
  simp [derivationLinks, duplicate, modifySlot, hq]

/-- Where a copy goes in the derivation lists. -/
inductive DerivedLinks (s : Space) (source dest : SlotPtr) (links : SlotPtr → Links SlotPtr)
    (derivations : SlotPtr → Links SlotPtr) : Prop where
  | first (hderivable : s.Derivable source) (hnone : (s.slots source).derivation = none)
      (h : derivations = listInitNoContainer links dest)
  | sibling (d : SlotPtr) (hderivable : s.Derivable source)
      (hd : (s.slots source).derivation = some d)
      (h : listInsertNoContainer links d dest = some derivations)
  | beside (hnot : ¬s.Derivable source)
      (h : listInsertNoContainer links source dest = some derivations)

/-- What a copy has done to the pointers, `links` being the derivation links before. -/
structure CopiedPointers (s : Space) (source dest : SlotPtr)
    (links resources derivations : SlotPtr → Links SlotPtr) (s' : Space) : Prop where
  resourceLinks : s'.resourceLinks = resources
  derivationLinks : s'.derivationLinks = derivations
  underived : (s'.slots dest).derivation = none
  derivation : ∀ q, q ≠ dest → (s'.slots q).derivation = (s.slots q).derivation ∨
    q = source ∧ (s'.slots q).derivation = some dest ∧
      derivations = listInitNoContainer links dest

theorem copyCapability_eq {links : SlotPtr → Links SlotPtr}
    (hresources : listInsertNoContainer
      (s.duplicate source dest address depth).resourceLinks source dest = some links) :
    s.copyCapability source dest address depth =
      (((s.duplicate source dest address depth).setResourceLinks links).deriveCapability
        source dest).map fun s => s.modifySlot dest fun d => { d with derivation := none } := by
  rw [duplicate] at hresources ⊢
  rw [copyCapability]
  simp only
  rw [hresources, Option.bind_eq_bind, Option.bind_some, Option.map_eq_bind]
  rfl

/-- The pointers are the copy's own and those of the capability it is derived from. -/
theorem derivationLinks_derived (s : Space) (source dest : SlotPtr) :
    (s.modifySlot dest fun d => { d with derivedFrom := some source }).derivationLinks =
        s.derivationLinks ∧
      ((s.modifySlot dest fun d => { d with derivedFrom := some source }).modifySlot source
        fun c => { c with derivation := some dest }).derivationLinks = s.derivationLinks := by
  have hderived : (s.modifySlot dest fun d =>
      { d with derivedFrom := some source }).derivationLinks = s.derivationLinks := by
    funext q
    by_cases hq : q = dest
    · simp [derivationLinks, modifySlot, hq]
    · simp [derivationLinks, modifySlot, hq]
  refine ⟨hderived, ?_⟩
  refine Eq.trans ?_ hderived
  funext q
  by_cases hq : q = source
  · simp [derivationLinks, modifySlot, hq]
  · simp [derivationLinks, modifySlot, hq]

theorem deriveCapability_returns {derivations : SlotPtr → Links SlotPtr} (hne : source ≠ dest)
    (hderivations : DerivedLinks s source dest s.derivationLinks derivations) :
    ∃ s', s.deriveCapability source dest = some s' ∧ s'.resourceLinks = s.resourceLinks ∧
      s'.derivationLinks = derivations ∧
      ∀ q, q ≠ dest → (s'.slots q).derivation = (s.slots q).derivation ∨
        q = source ∧ (s'.slots q).derivation = some dest ∧
          derivations = listInitNoContainer s.derivationLinks dest := by
  obtain ⟨hderived, hheaded⟩ := derivationLinks_derived s source dest
  have hsource : (s.modifySlot dest fun d =>
      { d with derivedFrom := some source }).slots source = s.slots source := by
    simp [modifySlot, hne]
  unfold deriveCapability
  cases hderivations with
  | first hderivable hnone h =>
      have hflags : ((s.slots source).flags.original || (s.slots source).flags.badged) = true := by
        simpa [Derivable] using hderivable
      simp only [hflags, if_true, hsource, hnone]
      refine ⟨_, rfl, ?_, ?_, fun q hq => ?_⟩
      · funext q
        by_cases hqs : q = source
        · simp [resourceLinks, setDerivationLinks, modifySlot, hqs, hne]
        · by_cases hqd : q = dest
          · simp [resourceLinks, setDerivationLinks, modifySlot, hqd, hne.symm]
          · simp [resourceLinks, setDerivationLinks, modifySlot, hqs, hqd]
      · rw [hheaded, h]
        rfl
      · by_cases hqs : q = source
        · refine .inr ⟨hqs, ?_, h⟩
          simp [setDerivationLinks, modifySlot, hqs]
        · refine .inl ?_
          simp [setDerivationLinks, modifySlot, hqs, hq]
  | sibling d hderivable hd h =>
      have hflags : ((s.slots source).flags.original || (s.slots source).flags.badged) = true := by
        simpa [Derivable] using hderivable
      simp only [hflags, if_true, hsource, hd, hderived, h]
      refine ⟨_, rfl, ?_, rfl, fun q hq => .inl ?_⟩
      · funext q
        by_cases hqd : q = dest
        · simp [resourceLinks, setDerivationLinks, modifySlot, hqd]
        · simp [resourceLinks, setDerivationLinks, modifySlot, hqd]
      · simp [setDerivationLinks, modifySlot, hq]
  | beside hnot h =>
      have hflags : ¬((s.slots source).flags.original || (s.slots source).flags.badged) = true := by
        simpa [Derivable] using hnot
      rw [if_neg hflags, h]
      exact ⟨_, rfl, rfl, rfl, fun q _ => .inl rfl⟩

theorem copyCapability_returns {resources derivations : SlotPtr → Links SlotPtr}
    (hne : source ≠ dest)
    (hresources : listInsertNoContainer (s.duplicate source dest address depth).resourceLinks
      source dest = some resources)
    (hderivations : DerivedLinks s source dest
      (s.duplicate source dest address depth).derivationLinks derivations) :
    ∃ s', s.copyCapability source dest address depth = some s' ∧
      CopiedPointers s source dest (s.duplicate source dest address depth).derivationLinks
        resources derivations s' := by
  have hslot : ∀ q, q ≠ dest → ((s.duplicate source dest address depth).setResourceLinks
      resources).slots q = { s.slots q with resourceList := resources q } := by
    intro q hq
    simp [setResourceLinks, duplicate, modifySlot, hq]
  have hplace : DerivedLinks ((s.duplicate source dest address depth).setResourceLinks resources)
      source dest (s.duplicate source dest address depth).derivationLinks derivations := by
    have hderivable : ((s.duplicate source dest address depth).setResourceLinks
        resources).Derivable source ↔ s.Derivable source := by
      unfold Derivable
      rw [hslot source hne]
    cases hderivations with
    | first h hnone hlinks =>
        exact .first (hderivable.mpr h) (by rw [hslot source hne]; exact hnone) hlinks
    | sibling d h hd hlinks =>
        exact .sibling d (hderivable.mpr h) (by rw [hslot source hne]; exact hd) hlinks
    | beside h hlinks => exact .beside (fun hnot => h (hderivable.mp hnot)) hlinks
  obtain ⟨s₁, hs₁, hresource, hderivation, hpointers⟩ := deriveCapability_returns hne hplace
  rw [copyCapability_eq hresources, hs₁]
  refine ⟨_, rfl, ?_, ?_, ?_, fun q hq => ?_⟩
  · refine Eq.trans ?_ hresource
    funext q
    by_cases hq : q = dest
    · simp [resourceLinks, modifySlot, hq]
    · simp [resourceLinks, modifySlot, hq]
  · refine Eq.trans ?_ hderivation
    funext q
    by_cases hq : q = dest
    · simp [derivationLinks, modifySlot, hq]
    · simp [derivationLinks, modifySlot, hq]
  · simp [modifySlot]
  · have hq' : _ ∨ q = source ∧ _ ∧ derivations = listInitNoContainer
        (s.duplicate source dest address depth).derivationLinks dest := hpointers q hq
    rw [hslot q hq] at hq'
    simpa [modifySlot, hq] using hq'

/-- What the two insertions of a copy have written. -/
structure CopiedLists (s : Space) (known : SlotPtr → Prop) (source dest : SlotPtr)
    (s' : Space) : Prop where
  resources : Inserted s.resourceLinks known source dest s'.resourceLinks
  derivations : (∃ c, known c ∧
      Inserted s.derivationLinks known c dest s'.derivationLinks) ∨
    ∃ links, (∀ q, q ≠ dest → links q = s.derivationLinks q) ∧
      s'.derivationLinks = listInitNoContainer links dest
  underived : (s'.slots dest).derivation = none
  derivation : ∀ q, q ≠ dest → (s'.slots q).derivation = (s.slots q).derivation ∨
    (s'.slots q).derivation = some dest ∧ (s'.derivationLinks dest).prev = none

namespace OrderedLists

theorem copy (h : OrderedLists s known) (hsource : known source) (hdest : ¬known dest)
    (address depth : Nat) :
    ∃ s', s.copyCapability source dest address depth = some s' ∧
      CopiedLists s known source dest s' ∧ OrderedLists s' fun q => known q ∨ q = dest := by
  obtain ⟨ahead₁, behind₁, hresources⟩ := h.resources
  obtain ⟨ahead₂, behind₂, hderivations⟩ := h.derivations
  obtain ⟨-, hother₁⟩ := duplicate_resourceLinks s source dest address depth
  obtain ⟨-, hother₂⟩ := duplicate_derivationLinks s source dest address depth
  have hne : source ≠ dest := fun heq => hdest (heq ▸ hsource)
  obtain ⟨resources, hinsert₁, hinserted₁⟩ := hresources.insert hsource hdest hother₁
  have hplace : ∃ derivations, DerivedLinks s source dest
      (s.duplicate source dest address depth).derivationLinks derivations ∧
      ((∃ c, known c ∧ Inserted s.derivationLinks known c dest derivations) ∨
        derivations = listInitNoContainer
          (s.duplicate source dest address depth).derivationLinks dest) := by
    by_cases hderivable : s.Derivable source
    · cases hderivation : (s.slots source).derivation with
      | none => exact ⟨_, .first hderivable hderivation rfl, .inr rfl⟩
      | some d =>
          have hd := (h.children source d hsource hderivation).1
          obtain ⟨derivations, hinsert₂, hinserted₂⟩ := hderivations.insert hd hdest hother₂
          exact ⟨derivations, .sibling d hderivable hderivation hinsert₂,
            .inl ⟨d, hd, hinserted₂⟩⟩
    · obtain ⟨derivations, hinsert₂, hinserted₂⟩ := hderivations.insert hsource hdest hother₂
      exact ⟨derivations, .beside hderivable hinsert₂, .inl ⟨source, hsource, hinserted₂⟩⟩
  obtain ⟨derivations, hderived, hlists⟩ := hplace
  obtain ⟨s', hs', hpointers⟩ := copyCapability_returns hne hinsert₁ hderived
  have hkept : ∀ q, q ≠ dest → (s'.slots q).derivation = (s.slots q).derivation ∨
      (s'.slots q).derivation = some dest ∧ (s'.derivationLinks dest).prev = none := by
    intro q hq
    refine (hpointers.derivation q hq).imp_right fun ⟨_, hnew, hinit⟩ => ⟨hnew, ?_⟩
    rw [hpointers.derivationLinks, hinit, listInitNoContainer, modify_self]
  have hcopied : CopiedLists s known source dest s' := by
    refine ⟨hpointers.resourceLinks ▸ hinserted₁, ?_, hpointers.underived, hkept⟩
    rw [hpointers.derivationLinks]
    exact hlists.imp_right fun hinit => ⟨_, hother₂, hinit⟩
  refine ⟨s', hs', hcopied, ?_, ?_, ?_⟩
  · exact hresources.inserted hsource hdest hcopied.resources
  · rcases hcopied.derivations with ⟨c, hc, hinserted⟩ | ⟨links, hlinks, hinit⟩
    · exact hderivations.inserted hc hdest hinserted
    · rw [hinit]
      exact ⟨_, _, hderivations.init hdest hlinks⟩
  · have hprev : ∀ q, q ≠ dest → (s'.derivationLinks q).prev = (s.derivationLinks q).prev := by
      intro q hq
      rcases hcopied.derivations with ⟨c, hc, hinserted⟩ | ⟨links, hlinks, hinit⟩
      · exact hinserted.prev_eq hq
      · rw [hinit, listInitNoContainer, modify_of_ne _ _ hq, hlinks q hq]
    intro p d hp hd
    have hpd : p ≠ dest := by
      rintro rfl
      rw [hcopied.underived] at hd
      cases hd
    rcases hcopied.derivation p hpd with hsame | ⟨hnew, hfirst⟩
    · rw [hsame] at hd
      obtain ⟨hdKnown, hdFirst⟩ := h.children p d (hp.resolve_right hpd) hd
      exact ⟨.inl hdKnown, (hprev d fun heq => hdest (heq ▸ hdKnown)).trans hdFirst⟩
    · rw [hnew] at hd
      obtain rfl := Option.some.inj hd
      exact ⟨.inr rfl, hfirst⟩

end OrderedLists

end Space

end Cenix
