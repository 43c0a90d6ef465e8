import Cenix.Capabilities.CopyMove
import Cenix.Capabilities.RevokedTrees
import Cenix.LinkedLists.Renaming

namespace Cenix

open LinkedLists

/-! A move gives a capability's slot another name. -/

/-- A capability's pointers to other capabilities get new names. -/
def Capability.rename (ρ : SlotPtr → SlotPtr) (c : Capability) : Capability :=
  { c with
    resourceList := c.resourceList.map ρ
    derivationList := c.derivationList.map ρ
    derivedFrom := c.derivedFrom.map ρ
    derivation := c.derivation.map ρ }

namespace Space

variable {s : Space} {source dest p q : SlotPtr}

/-- The lists of a space as far as the links between live capabilities go: every
resource has its list, every derivable capability has the list of what was derived
from it, and a capability in no derivation list was derived from nothing. -/
structure WellLinked (s : Space) : Prop where
  resources : Families s.resourceLinks s.Live s.resource
  siblings : ∀ q, s.Live q → s.derivationLinks q = .empty ∨
    ∃ xs, DList s.derivationLinks xs ∧ q ∈ xs ∧
      ∀ r ∈ xs, s.Live r ∧ (s.slots r).derivedFrom = (s.slots q).derivedFrom
  parents : ∀ p q, s.Live q → (s.slots q).derivedFrom = some p →
    s.Live p ∧ s.Derivable p ∧ q ≠ p
  children : ∀ p, s.Live p → s.Derivable p → ∃ xs, DList s.derivationLinks xs ∧
    (s.slots p).derivation = xs.head? ∧ ∀ q, q ∈ xs ↔ s.ChildOf q p
  childless : ∀ p, s.Live p → ¬s.Derivable p → (s.slots p).derivation = none

/-- What a move leaves in its destination: the source's capability under the new names.
If it was in no derivation list, it is the list of itself. -/
def arrived (s : Space) (source dest : SlotPtr) : Capability :=
  { (s.slots source).rename (rename source dest) with
    derivationList := movedLinks s.derivationLinks source dest }

/-- The space in which `source` is called `dest`. -/
def moved (s : Space) (source dest : SlotPtr) : Space :=
  { s with slots := fun q =>
      if q = dest then s.arrived source dest
      else if q = source then { s.slots source with handlers := none }
      else if s.Live q then (s.slots q).rename (rename source dest)
      else s.slots q }

/-! What the moved space has in its slots. -/

theorem moved_dest : (s.moved source dest).slots dest = s.arrived source dest :=
  if_pos rfl

theorem moved_source (h : source ≠ dest) :
    (s.moved source dest).slots source = { s.slots source with handlers := none } := by
  simp [moved, h]

theorem moved_live (hq : s.Live q) (hsource : q ≠ source) (hdest : q ≠ dest) :
    (s.moved source dest).slots q = (s.slots q).rename (rename source dest) := by
  simp [moved, hq, hsource, hdest]

theorem moved_dead (hq : ¬s.Live q) (hsource : q ≠ source) (hdest : q ≠ dest) :
    (s.moved source dest).slots q = s.slots q := by
  simp [moved, hq, hsource, hdest]

/-! The loops of a move on well-formed lists. -/

/-- `derivedFrom` of a whole list. -/
def adopt (s : Space) (parent : SlotPtr) (xs : List SlotPtr) : Space :=
  { s with slots := fun q =>
      if q ∈ xs then { s.slots q with derivedFrom := some parent } else s.slots q }

theorem foldlM_adopt (xs : List SlotPtr) (s : Space) (parent : SlotPtr) :
    xs.foldlM (fun s link =>
      some (s.modifySlot link fun l => { l with derivedFrom := some parent })) s =
      some (s.adopt parent xs) := by
  induction xs generalizing s with
  | nil => simp [adopt]
  | cons x xs ih =>
      rw [List.foldlM_cons, Option.bind_eq_bind, Option.bind_some, ih]
      refine congrArg some ?_
      unfold adopt modifySlot
      congr 1
      funext q
      by_cases hqx : q = x
      · subst hqx
        simp
      · simp [hqx]

theorem iterDerivationList_adopt {fuel : Nat} {link parent : SlotPtr} {xs : List SlotPtr}
    (hstart : (s.slots link).derivationList.start = xs.head?)
    (hseg : Seg (fun q => (s.slots q).derivationList.next) xs none)
    (hfuel : xs.length ≤ fuel) :
    s.iterDerivationList fuel link (fun s link =>
      some (s.modifySlot link fun l => { l with derivedFrom := some parent })) =
      some (s.adopt parent xs) := by
  rw [iterDerivationList, hstart, listIter_eq_foldlM _ hseg hfuel, foldlM_adopt]
  intro s p s' hs'
  cases hs'
  funext q
  by_cases hqp : q = p
  · subst hqp
    simp [modifySlot]
  · simp [modifySlot, hqp]

/-! A move on well-formed lists. -/

namespace WellLinked

theorem listed_resource (h : s.WellLinked) (hq : s.Live q) :
    Listed s.resourceLinks s.Live q := by
  obtain ⟨xs, hxs, hmem⟩ := h.resources q hq
  exact .inr ⟨xs, hxs, (hmem q).mpr ⟨hq, rfl⟩, fun r hr => ((hmem r).mp hr).1⟩

theorem listed_derivation (h : s.WellLinked) (hq : s.Live q) :
    Listed s.derivationLinks s.Live q := by
  cases h.siblings q hq with
  | inl hempty => exact .inl hempty
  | inr hlist =>
      obtain ⟨xs, hxs, hmem, hlive⟩ := hlist
      exact .inr ⟨xs, hxs, hmem, fun r hr => (hlive r hr).1⟩

/-- The first capability of a list is the one its parent points to. -/
theorem derivation_eq_iff (h : s.WellLinked) (hp : s.Live p) (hq : s.Live q) :
    (s.slots p).derivation = some q ↔
      (s.slots q).derivedFrom = some p ∧ (s.derivationLinks q).prev = none := by
  constructor
  · intro hderivation
    have hderivable : s.Derivable p := by
      by_contra hnot
      rw [h.childless p hp hnot] at hderivation
      cases hderivation
    obtain ⟨xs, hxs, hhead, hmem⟩ := h.children p hp hderivable
    rw [hhead] at hderivation
    refine ⟨((hmem q).mp (List.mem_of_head? hderivation)).2.2, ?_⟩
    obtain ⟨rest, rfl⟩ := List.head?_eq_some_iff.mp hderivation
    exact DList.prev_eq (show DList s.derivationLinks ([] ++ q :: rest) from hxs)
  · rintro ⟨hderived, hprev⟩
    obtain ⟨hp, hderivable, -⟩ := h.parents p q hq hderived
    obtain ⟨xs, hxs, hhead, hmem⟩ := h.children p hp hderivable
    obtain ⟨front, back, rfl⟩ := List.append_of_mem ((hmem q).mpr ⟨hq, hp, hderived⟩)
    rw [hxs.prev_eq, List.getLast?_eq_none_iff] at hprev
    rw [hhead, hprev]
    rfl

end WellLinked

/-- The links of the moved space, as its slots have them. -/
theorem moved_links (field : Capability → Links SlotPtr) {links : SlotPtr → Links SlotPtr}
    (hne : source ≠ dest)
    (harrived : links dest = field (s.arrived source dest))
    (hlive : ∀ q, s.Live q → q ≠ source →
      links q = field ((s.slots q).rename (rename source dest)))
    (hdead : ∀ q, ¬s.Live q ∨ q = source → q ≠ dest → links q = field (s.slots q))
    (hhandlers : ∀ c : Capability, field { c with handlers := none } = field c) (q : SlotPtr) :
    links q = field ((s.moved source dest).slots q) := by
  by_cases hqd : q = dest
  · subst hqd
    rw [moved_dest, harrived]
  · by_cases hqs : q = source
    · subst hqs
      rw [moved_source hne, hdead q (.inr rfl) hqd, hhandlers]
    · by_cases hq : s.Live q
      · rw [moved_live hq hqs hqd, hlive q hq hqs]
      · rw [moved_dead hq hqs hqd, hdead q (.inl hq) hqd]

namespace WellLinked

theorem updateResources (h : s.WellLinked) (hsource : s.Live source) (hdest : ¬s.Live dest) :
    ∃ n, ∀ fuel ≥ n, listUpdateAddressNoContainer fuel
      (s.modifySlot dest fun _ => s.slots source).resourceLinks dest =
        some (s.moved source dest).resourceLinks := by
  have hne : source ≠ dest := fun heq => hdest (heq ▸ hsource)
  obtain ⟨n, hn⟩ := listUpdateAddressNoContainer_listed
    (m := (s.modifySlot dest fun _ => s.slots source).resourceLinks)
    (fun p hp => h.listed_resource hp) hsource hdest
    (by simp [resourceLinks, modifySlot]) fun q hq => by simp [resourceLinks, modifySlot, hq]
  refine ⟨n, fun fuel hfuel => ?_⟩
  obtain ⟨links, hlinks, hat, hlive, hdead⟩ := hn fuel hfuel
  have hnonempty : s.resourceLinks source ≠ .empty := by
    obtain ⟨xs, hxs, hmem⟩ := h.resources source hsource
    exact hxs.links_ne_empty ((hmem source).mpr ⟨hsource, rfl⟩)
  rw [movedLinks, if_neg hnonempty] at hat
  rw [hlinks]
  exact congrArg some (funext (moved_links (·.resourceList) hne hat hlive hdead
    fun _ => rfl))

theorem updateDerivations (h : s.WellLinked) (hsource : s.Live source) (hdest : ¬s.Live dest) :
    ∃ n, ∀ fuel ≥ n, listUpdateAddressNoContainer fuel
      (s.modifySlot dest fun _ => s.slots source).derivationLinks dest =
        some (s.moved source dest).derivationLinks := by
  have hne : source ≠ dest := fun heq => hdest (heq ▸ hsource)
  obtain ⟨n, hn⟩ := listUpdateAddressNoContainer_listed
    (m := (s.modifySlot dest fun _ => s.slots source).derivationLinks)
    (fun p hp => h.listed_derivation hp) hsource hdest
    (by simp [derivationLinks, modifySlot]) fun q hq => by simp [derivationLinks, modifySlot, hq]
  refine ⟨n, fun fuel hfuel => ?_⟩
  obtain ⟨links, hlinks, hat, hlive, hdead⟩ := hn fuel hfuel
  rw [hlinks]
  exact congrArg some (funext (moved_links (·.derivationList) hne hat hlive hdead
    fun _ => rfl))

end WellLinked

/-- The space after both lists have been relinked: every slot has its links, and the
derivation pointers are as they were. -/
def relinked (s : Space) (source dest : SlotPtr) : Space :=
  ((s.modifySlot dest fun _ => s.slots source).setResourceLinks
    (s.moved source dest).resourceLinks).setDerivationLinks (s.moved source dest).derivationLinks

theorem relinked_dest : (s.relinked source dest).slots dest =
    { s.slots source with
      resourceList := (s.arrived source dest).resourceList
      derivationList := (s.arrived source dest).derivationList } := by
  simp [relinked, setDerivationLinks, setResourceLinks, modifySlot, resourceLinks,
    derivationLinks, moved_dest]

theorem relinked_of_ne (hq : q ≠ dest) : (s.relinked source dest).slots q =
    { s.slots q with
      resourceList := ((s.moved source dest).slots q).resourceList
      derivationList := ((s.moved source dest).slots q).derivationList } := by
  simp [relinked, setDerivationLinks, setResourceLinks, modifySlot, resourceLinks,
    derivationLinks, hq]

theorem updateParent_eq (s : Space) (p : SlotPtr) : s.updateParent p =
    { s with slots := fun q =>
        if (s.slots p).derivationList.prev = none ∧ (s.slots p).derivedFrom = some q then
          { s.slots q with derivation := some p }
        else
          s.slots q } := by
  unfold updateParent
  cases hprev : (s.slots p).derivationList.prev with
  | some prev => simp [hprev]
  | none =>
      cases hparent : (s.slots p).derivedFrom with
      | none => simp [hprev, hparent]
      | some parent =>
          simp only [hprev, hparent, modifySlot, true_and, Option.some.injEq]
          congr 1
          funext q
          by_cases hq : q = parent
          · subst hq
            simp
          · simp [hq, Ne.symm hq]

namespace WellLinked

theorem childOf (h : s.WellLinked) (hq : s.Live q)
    (hderived : (s.slots q).derivedFrom = some p) : s.ChildOf q p :=
  ⟨hq, (h.parents p q hq hderived).1, hderived⟩

/-- The list of what was derived from `p`, which is empty for most capabilities. -/
theorem childList (h : s.WellLinked) (hp : s.Live p) : ∃ xs, DList s.derivationLinks xs ∧
    (s.slots p).derivation = xs.head? ∧ ∀ q, q ∈ xs ↔ s.ChildOf q p := by
  by_cases hderivable : s.Derivable p
  · exact h.children p hp hderivable
  · refine ⟨[], ⟨.nil, trivial, trivial, by simp, by simp⟩, h.childless p hp hderivable, ?_⟩
    intro q
    rw [List.mem_nil_iff, false_iff]
    rintro ⟨hq, -, hderived⟩
    exact hderivable (h.parents p q hq hderived).2.1

theorem updateDerived_relinked {xs : List SlotPtr} {fuel : Nat} (h : s.WellLinked)
    (hsource : s.Live source) (hdest : ¬s.Live dest) (hxs : DList s.derivationLinks xs)
    (hhead : (s.slots source).derivation = xs.head?) (hmem : ∀ q, q ∈ xs ↔ s.ChildOf q source)
    (hfuel : xs.length ≤ fuel) : (s.relinked source dest).updateDerived fuel dest =
      some ((s.relinked source dest).adopt dest xs) := by
  have hsourceNot : source ∉ xs := by
    intro hin
    have hchild := (hmem source).mp hin
    exact (h.parents source source hsource hchild.2.2).2.2 rfl
  have hlinks : ∀ x ∈ xs, ((s.relinked source dest).slots x).derivationList =
      s.derivationLinks x := by
    intro x hx
    have hlive := ((hmem x).mp hx).1
    have hxd : x ≠ dest := fun heq => hdest (heq ▸ hlive)
    have hxs' : x ≠ source := fun heq => hsourceNot (heq ▸ hx)
    rw [relinked_of_ne hxd, moved_live hlive hxs' hxd]
    exact hxs.map_links hx hsourceNot
  unfold updateDerived
  simp only [relinked_dest, hhead]
  cases xs with
  | nil => simp [adopt]
  | cons x xs =>
      have hderivable : s.Derivable source :=
        (h.parents source x ((hmem x).mp List.mem_cons_self).1
          ((hmem x).mp List.mem_cons_self).2.2).2.1
      have hflags : ((s.slots source).flags.original || (s.slots source).flags.badged) = true := by
        simpa [Derivable] using hderivable
      rw [List.head?_cons]
      simp only
      rw [if_pos hflags]
      refine iterDerivationList_adopt ?_ ?_ hfuel
      · rw [hlinks x List.mem_cons_self]
        exact hxs.start_eq x List.mem_cons_self
      · exact hxs.forward.congr fun y hy => by rw [hlinks y hy]

end WellLinked

/-- The space after every pointer is up to date. -/
def reparented (s : Space) (source dest : SlotPtr) (xs : List SlotPtr) : Space :=
  ((s.relinked source dest).adopt dest xs).updateParent dest

namespace WellLinked

variable {xs : List SlotPtr}

/-- Which slot the last write goes to. -/
theorem reparented_slots (hdest : ¬s.Live dest) (hmem : ∀ q, q ∈ xs ↔ s.ChildOf q source)
    (q : SlotPtr) : (s.reparented source dest xs).slots q =
      if (s.derivationLinks source).prev = none ∧ (s.slots source).derivedFrom = some q then
        { ((s.relinked source dest).adopt dest xs).slots q with derivation := some dest }
      else
        ((s.relinked source dest).adopt dest xs).slots q := by
  have hdestNot : dest ∉ xs := fun hin => hdest ((hmem dest).mp hin).1
  have hat : ((s.relinked source dest).adopt dest xs).slots dest =
      { s.slots source with
        resourceList := (s.arrived source dest).resourceList
        derivationList := (s.arrived source dest).derivationList } := by
    simp only [adopt, if_neg hdestNot, relinked_dest]
  have hprev : (s.arrived source dest).derivationList.prev = none ↔
      (s.derivationLinks source).prev = none := by
    rw [arrived, movedLinks_prev, Option.map_eq_none_iff]
  rw [reparented, updateParent_eq]
  simp only [hat, hprev]

theorem reparented_eq (h : s.WellLinked) (hsource : s.Live source) (hdest : ¬s.Live dest)
    (hmem : ∀ q, q ∈ xs ↔ s.ChildOf q source) (q : SlotPtr) :
    (s.reparented source dest xs).slots q =
      if q = source then s.slots source else (s.moved source dest).slots q := by
  have hne : source ≠ dest := fun heq => hdest (heq ▸ hsource)
  have hsourceFrom : (s.slots source).derivedFrom ≠ some source :=
    fun heq => (h.parents source source hsource heq).2.2 rfl
  have hsourceNot : source ∉ xs := fun hin => hsourceFrom ((hmem source).mp hin).2.2
  have hdestNot : dest ∉ xs := fun hin => hdest ((hmem dest).mp hin).1
  have hparentLive : ∀ p, (s.slots source).derivedFrom = some p → s.Live p :=
    fun p hp => (h.parents p source hsource hp).1
  rw [reparented_slots hdest hmem]
  by_cases hqs : q = source
  · subst hqs
    rw [if_neg fun hp => hsourceFrom hp.2, if_pos rfl, adopt]
    simp only [if_neg hsourceNot]
    rw [relinked_of_ne hne, moved_source hne]
  rw [if_neg hqs]
  by_cases hqd : q = dest
  · subst hqd
    have hnotParent : ¬((s.derivationLinks source).prev = none ∧
        (s.slots source).derivedFrom = some q) := fun hp => hdest (hparentLive q hp.2)
    have hderivation : (s.slots source).derivation ≠ some source :=
      fun heq => hsourceFrom ((h.derivation_eq_iff hsource hsource).mp heq).1
    rw [if_neg hnotParent, moved_dest]
    simp only [adopt, if_neg hdestNot, relinked_dest, arrived, Capability.rename,
      map_rename_of_ne hsourceFrom, map_rename_of_ne hderivation]
  by_cases hlive : s.Live q
  · have hlists : (s.relinked source dest).slots q = { s.slots q with
        resourceList := (s.slots q).resourceList.map (rename source dest)
        derivationList := (s.slots q).derivationList.map (rename source dest) } := by
      rw [relinked_of_ne hqd, moved_live hlive hqs hqd]
      rfl
    have hderived : (if q ∈ xs then some dest else (s.slots q).derivedFrom) =
        (s.slots q).derivedFrom.map (rename source dest) := by
      split
      · rename_i hq
        rw [((hmem q).mp hq).2.2, Option.map_some, rename_self]
      · rename_i hq
        rw [map_rename_of_ne fun heq => hq ((hmem q).mpr (h.childOf hlive heq))]
    have hadopted : ((s.relinked source dest).adopt dest xs).slots q =
        { (s.slots q).rename (rename source dest) with
          derivation := (s.slots q).derivation } := by
      rw [Capability.rename, ← hderived, adopt]
      simp only [hlists]
      split <;> rfl
    rw [moved_live hlive hqs hqd, hadopted]
    split
    · rename_i hparent
      have hderivation := (h.derivation_eq_iff hlive hsource).mpr hparent.symm
      simp only [Capability.rename, hderivation, Option.map_some, rename_self]
    · rename_i hparent
      have hderivation : (s.slots q).derivation ≠ some source :=
        fun heq => hparent ((h.derivation_eq_iff hlive hsource).mp heq).symm
      simp only [Capability.rename, map_rename_of_ne hderivation]
  · have hnotParent : ¬((s.derivationLinks source).prev = none ∧
        (s.slots source).derivedFrom = some q) := fun hp => hlive (hparentLive q hp.2)
    have hnotIn : q ∉ xs := fun hin => hlive ((hmem q).mp hin).1
    rw [if_neg hnotParent, moved_dead hlive hqs hqd, adopt]
    simp only [if_neg hnotIn]
    rw [relinked_of_ne hqd, moved_dead hlive hqs hqd]

/-- A move of well-formed lists is the renaming. -/
theorem moveCapability_returns (h : s.WellLinked) (hsource : s.Live source)
    (hdest : ¬s.Live dest) :
    ∃ n, ∀ fuel ≥ n, s.moveCapability fuel source dest = some (s.moved source dest) := by
  obtain ⟨n₁, hresources⟩ := h.updateResources hsource hdest
  obtain ⟨n₂, hderivations⟩ := h.updateDerivations hsource hdest
  obtain ⟨xs, hxs, hhead, hmem⟩ := h.childList hsource
  refine ⟨n₁ + n₂ + xs.length, fun fuel hfuel => ?_⟩
  have hne : source ≠ dest := fun heq => hdest (heq ▸ hsource)
  have hreferences : (s.modifySlot dest fun _ => s.slots source).updateCapabilityReferences
      fuel dest = some (s.reparented source dest xs) := by
    rw [updateCapabilityReferences, hresources fuel (by omega), Option.bind_eq_bind,
      Option.bind_some]
    have hsecond : ((s.modifySlot dest fun _ => s.slots source).setResourceLinks
        (s.moved source dest).resourceLinks).derivationLinks =
        (s.modifySlot dest fun _ => s.slots source).derivationLinks := rfl
    simp only [hsecond, hderivations fuel (show fuel ≥ n₂ by omega), Option.bind_eq_bind,
      Option.bind_some]
    have hderived := h.updateDerived_relinked hsource hdest hxs hhead hmem
      (show xs.length ≤ fuel by omega)
    rw [relinked] at hderived
    rw [hderived]
    rfl
  rw [moveCapability, Option.bind_eq_bind, hreferences, Option.bind_some]
  have hslots : (s.reparented source dest xs).slots =
      fun q => if q = source then s.slots source else (s.moved source dest).slots q :=
    funext (h.reparented_eq hsource hdest hmem)
  refine congrArg some ?_
  rw [modifySlot, hslots, reparented, updateParent_eq]
  simp only [if_pos]
  unfold moved
  congr 1
  funext q
  by_cases hqs : q = source
  · subst hqs
    simp [hne]
  · simp [hqs]

end WellLinked

/-! The moved space is well formed. -/

theorem moved_rename (hp : s.Live p) (hdest : ¬s.Live dest) :
    (s.moved source dest).slots (rename source dest p) =
      if p = source then s.arrived source dest
      else (s.slots p).rename (rename source dest) := by
  split
  · rename_i hps
    rw [hps, rename_self, moved_dest]
  · rename_i hps
    have hpd : p ≠ dest := fun heq => hdest (heq ▸ hp)
    rw [rename_of_ne hps, moved_live hp hps hpd]

/-- Beyond its place in a derivation list, a capability is only renamed. -/
theorem moved_field {α : Type} (field : Capability → α) (hp : s.Live p) (hdest : ¬s.Live dest)
    (hfield : ∀ (c : Capability) links, field { c with derivationList := links } = field c) :
    field ((s.moved source dest).slots (rename source dest p)) =
      field ((s.slots p).rename (rename source dest)) := by
  rw [moved_rename hp hdest]
  split
  · rename_i hps
    rw [hps, arrived, hfield]
  · rfl

theorem moved_live_iff (hsource : s.Live source) (hslot : s.Slot dest)
    (hdest : ¬s.Live dest) (q : SlotPtr) :
    (s.moved source dest).Live q ↔ ∃ p, s.Live p ∧ rename source dest p = q := by
  have hne : source ≠ dest := fun heq => hdest (heq ▸ hsource)
  have hslots : (s.moved source dest).Slot q ↔ s.Slot q := slot_congr rfl rfl q
  unfold Live
  rw [hslots]
  constructor
  · rintro ⟨hq, hfull⟩
    by_cases hqd : q = dest
    · exact ⟨source, hsource, by rw [rename_self, hqd]⟩
    · by_cases hqs : q = source
      · rw [hqs, moved_source hne] at hfull
        exact absurd rfl hfull
      · refine ⟨q, ?_, rename_of_ne hqs⟩
        by_contra hdead
        rw [moved_dead hdead hqs hqd] at hfull
        exact hdead ⟨hq, hfull⟩
  · rintro ⟨p, hp, rfl⟩
    rw [moved_field (·.handlers) hp hdest fun _ _ => rfl]
    refine ⟨?_, hp.2⟩
    by_cases hps : p = source
    · rwa [hps, rename_self]
    · rw [rename_of_ne hps]
      exact hp.1

theorem moved_derivationLinks (hp : s.Live p) (hdest : ¬s.Live dest)
    (hlisted : s.derivationLinks p ≠ .empty) :
    (s.moved source dest).derivationLinks (rename source dest p) =
      (s.derivationLinks p).map (rename source dest) := by
  unfold derivationLinks at hlisted ⊢
  rw [moved_rename hp hdest]
  split
  · rename_i hps
    rw [hps] at hlisted ⊢
    exact if_neg hlisted
  · rfl

theorem rename_live_injective (hdest : ¬s.Live dest) (hp : s.Live p) (hq : s.Live q)
    (h : rename source dest p = rename source dest q) : p = q := by
  refine rename_injective ?_ ?_ h
  · rintro rfl
    exact hdest hp
  · rintro rfl
    exact hdest hq

namespace WellLinked

theorem moved_childOf_iff (h : s.WellLinked) (hsource : s.Live source) (hslot : s.Slot dest)
    (hdest : ¬s.Live dest) (hp : s.Live p) (hq : s.Live q) :
    (s.moved source dest).ChildOf (rename source dest q) (rename source dest p) ↔
      s.ChildOf q p := by
  unfold ChildOf
  rw [moved_field (·.derivedFrom) hq hdest fun _ _ => rfl, moved_live_iff hsource hslot hdest,
    moved_live_iff hsource hslot hdest, Capability.rename]
  constructor
  · rintro ⟨-, -, hderived⟩
    obtain ⟨r, hr, hrename⟩ := Option.map_eq_some_iff.mp hderived
    have hlive := (h.parents r q hq hr).1
    exact ⟨hq, hp, hr.trans (congrArg some (rename_live_injective hdest hlive hp hrename))⟩
  · rintro ⟨-, -, hderived⟩
    exact ⟨⟨q, hq, rfl⟩, ⟨p, hp, rfl⟩, by rw [hderived, Option.map_some]⟩

/-- A list of live capabilities under the new names. -/
theorem moved_list {xs : List SlotPtr} (hdest : ¬s.Live dest)
    (hxs : DList s.derivationLinks xs) (hlive : ∀ x ∈ xs, s.Live x) :
    DList (s.moved source dest).derivationLinks (xs.map (rename source dest)) :=
  hxs.map (fun x hx y hy => rename_live_injective hdest (hlive x hx) (hlive y hy))
    fun x hx => moved_derivationLinks (hlive x hx) hdest (hxs.links_ne_empty hx)

theorem moved_siblings (h : s.WellLinked) (hsource : s.Live source) (hslot : s.Slot dest)
    (hdest : ¬s.Live dest) (hp : s.Live p) :
    (s.moved source dest).derivationLinks (rename source dest p) = .empty ∨
      ∃ xs, DList (s.moved source dest).derivationLinks xs ∧ rename source dest p ∈ xs ∧
        ∀ r ∈ xs, (s.moved source dest).Live r ∧ ((s.moved source dest).slots r).derivedFrom =
          ((s.moved source dest).slots (rename source dest p)).derivedFrom := by
  have hliveIff := moved_live_iff hsource hslot hdest
  by_cases hempty : s.derivationLinks p = .empty
  · by_cases hps : p = source
    · subst hps
      have hsingle : (s.moved p dest).derivationLinks dest = ⟨some dest, some dest, none, none⟩ := by
        rw [derivationLinks, moved_dest]
        exact if_pos hempty
      rw [rename_self]
      refine .inr ⟨[dest], dlist_singleton.mpr hsingle, List.mem_singleton_self dest, ?_⟩
      intro r hr
      rw [List.mem_singleton.mp hr]
      exact ⟨(hliveIff dest).mpr ⟨p, hp, rename_self p dest⟩, rfl⟩
    · refine .inl ?_
      rw [derivationLinks, moved_rename hp hdest, if_neg hps]
      exact congrArg (Links.map (rename source dest)) hempty
  · obtain ⟨xs, hxs, hmem, hlist⟩ := (h.siblings p hp).resolve_left hempty
    refine .inr ⟨xs.map (rename source dest), moved_list hdest hxs fun x hx => (hlist x hx).1,
      List.mem_map_of_mem hmem, fun r hr => ?_⟩
    obtain ⟨x, hx, rfl⟩ := List.mem_map.mp hr
    refine ⟨(hliveIff _).mpr ⟨x, (hlist x hx).1, rfl⟩, ?_⟩
    rw [moved_field (·.derivedFrom) (hlist x hx).1 hdest fun _ _ => rfl,
      moved_field (·.derivedFrom) hp hdest fun _ _ => rfl]
    exact congrArg (Option.map (rename source dest)) (hlist x hx).2

theorem moved_derivable (hp : s.Live p) (hdest : ¬s.Live dest) :
    (s.moved source dest).Derivable (rename source dest p) ↔ s.Derivable p := by
  unfold Derivable
  rw [moved_field (·.flags) hp hdest fun _ _ => rfl]
  rfl

theorem moved (h : s.WellLinked) (hsource : s.Live source) (hslot : s.Slot dest)
    (hdest : ¬s.Live dest) : (s.moved source dest).WellLinked := by
  have hliveIff := moved_live_iff hsource hslot hdest
  constructor
  · refine h.resources.map (fun p q hp hq => rename_live_injective hdest hp hq) ?_ hliveIff ?_
    · exact fun p hp => moved_field (·.resourceList) hp hdest fun _ _ => rfl
    · exact fun p hp => moved_field (·.resource) hp hdest fun _ _ => rfl
  · intro q hq
    obtain ⟨p, hp, rfl⟩ := (hliveIff q).mp hq
    exact h.moved_siblings hsource hslot hdest hp
  · intro p q hq hderived
    obtain ⟨x, hx, rfl⟩ := (hliveIff q).mp hq
    rw [moved_field (·.derivedFrom) hx hdest fun _ _ => rfl] at hderived
    obtain ⟨y, hy, rfl⟩ := Option.map_eq_some_iff.mp hderived
    obtain ⟨hlive, hderivable, hne⟩ := h.parents y x hx hy
    exact ⟨(hliveIff _).mpr ⟨y, hlive, rfl⟩, (moved_derivable hlive hdest).mpr hderivable,
      fun heq => hne (rename_live_injective hdest hx hlive heq)⟩
  · intro p hp hderivable
    obtain ⟨x, hx, rfl⟩ := (hliveIff p).mp hp
    obtain ⟨xs, hxs, hhead, hmem⟩ := h.children x hx ((moved_derivable hx hdest).mp hderivable)
    have hlive : ∀ y ∈ xs, s.Live y := fun y hy => ((hmem y).mp hy).1
    refine ⟨xs.map (rename source dest), moved_list hdest hxs hlive, ?_, fun q => ?_⟩
    · rw [moved_field (·.derivation) hx hdest fun _ _ => rfl, List.head?_map, ← hhead]
      rfl
    · rw [List.mem_map]
      constructor
      · rintro ⟨y, hy, rfl⟩
        exact (h.moved_childOf_iff hsource hslot hdest hx (hlive y hy)).mpr ((hmem y).mp hy)
      · intro hchild
        obtain ⟨y, hy, rfl⟩ := (hliveIff q).mp hchild.1
        exact ⟨y, (hmem y).mpr ((h.moved_childOf_iff hsource hslot hdest hx hy).mp hchild), rfl⟩
  · intro p hp hderivable
    obtain ⟨x, hx, rfl⟩ := (hliveIff p).mp hp
    have hnone := h.childless x hx fun hd => hderivable ((moved_derivable hx hdest).mpr hd)
    rw [moved_field (·.derivation) hx hdest fun _ _ => rfl]
    exact congrArg (Option.map (rename source dest)) hnone

end WellLinked

theorem moveCapability_exact (h : s.WellLinked) (hsource : s.Live source)
    (hslot : s.Slot dest) (hempty : (s.slots dest).handlers = none) :
    (∃ n, ∀ fuel ≥ n, s.moveCapability fuel source dest = some (s.moved source dest)) ∧
      (s.moved source dest).WellLinked ∧ ¬(s.moved source dest).Live source := by
  have hdest : ¬s.Live dest := fun hlive => hlive.2 hempty
  have hne : source ≠ dest := fun heq => hdest (heq ▸ hsource)
  refine ⟨h.moveCapability_returns hsource hdest, h.moved hsource hslot hdest, ?_⟩
  intro hlive
  apply hlive.2
  rw [moved_source hne]

end Space

namespace Kernel

theorem badgedTree_wellLinked : badgedTree.space.WellLinked := by
  constructor
  · exact badgedTree_resourceLists.lists
  · intro q hq
    have hq := (badgedTree_live q).mp hq
    simp only [List.mem_cons, List.not_mem_nil, or_false] at hq
    rcases hq with rfl | rfl | rfl | rfl
    · exact .inl rfl
    · exact .inl rfl
    · refine .inr ⟨[.node 16 1], dlist_singleton.mpr rfl, by simp, fun r hr => ?_⟩
      rw [List.mem_singleton.mp hr]
      exact ⟨by decide, rfl⟩
    · refine .inr ⟨[.node 16 2], dlist_singleton.mpr rfl, by simp, fun r hr => ?_⟩
      rw [List.mem_singleton.mp hr]
      exact ⟨by decide, rfl⟩
  · intro p q hq hderived
    have hchild : badgedTree.space.Live p → badgedTree.space.ChildOf q p :=
      fun hp => ⟨hq, hp, hderived⟩
    have hp : badgedTree.space.Live p := by
      have hq := (badgedTree_live q).mp hq
      simp only [List.mem_cons, List.not_mem_nil, or_false] at hq
      rcases hq with rfl | rfl | rfl | rfl <;> cases hderived <;> decide
    refine ⟨hp, badgedTree_derivationLists.derivable (hchild hp), ?_⟩
    rintro rfl
    exact badgedTree_derivationLists.irrefl (hchild hp)
  · exact badgedTree_derivationLists.lists
  · intro p hp hderivable
    have hp := (badgedTree_live p).mp hp
    simp only [List.mem_cons, List.not_mem_nil, or_false] at hp
    rcases hp with rfl | rfl | rfl | rfl
    · rfl
    · exact absurd (.inl rfl) hderivable
    · exact absurd (.inr rfl) hderivable
    · rfl

theorem moveCapability_exact_badgedTree :
    (∃ n, ∀ fuel ≥ n, badgedTree.space.moveCapability fuel (.node 16 1) (.node 16 3) =
      some (badgedTree.space.moved (.node 16 1) (.node 16 3))) ∧
      (badgedTree.space.moved (.node 16 1) (.node 16 3)).WellLinked ∧
      ¬(badgedTree.space.moved (.node 16 1) (.node 16 3)).Live (.node 16 1) :=
  Space.moveCapability_exact badgedTree_wellLinked (by decide) (by decide) rfl

/-- An original that was derived from nothing gets a derivation list of its own. -/
theorem moveCapability_enters : badgedTree.space.WellLinked ∧
    badgedTree.space.Live (.node 16 0) ∧ badgedTree.space.Slot (.node 16 3) ∧
    (badgedTree.space.slots (.node 16 3)).handlers = none ∧
    (badgedTree.space.slots (.node 16 0)).derivationList = ⟨none, none, none, none⟩ ∧
    (badgedTree.space.moveCapability 4 (.node 16 0) (.node 16 3)).map
      (fun s => (s.slots (.node 16 3)).derivationList) =
        some ⟨some (.node 16 3), some (.node 16 3), none, none⟩ :=
  ⟨badgedTree_wellLinked, by decide, by decide, rfl, rfl, by decide +kernel⟩

end Kernel

end Cenix
