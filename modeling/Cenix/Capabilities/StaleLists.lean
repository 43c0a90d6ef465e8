import Cenix.Capabilities.OrderedLists

namespace Cenix

open LinkedLists

/-! A slot from which a capability has moved away, after one copy in well-linked lists. -/

namespace Space

variable {s s' : Space} {source dest old skipped p q : SlotPtr} {known : SlotPtr → Prop}

/-- Well-linked lists to which one copy has been added. -/
structure OneCopy (s : Space) (known : SlotPtr → Prop) (skipped : SlotPtr) : Prop where
  ordered : OrderedLists s known
  resources : Skips s.resourceLinks known skipped
  derivations : Skips s.derivationLinks known skipped
  apart : ∀ p d, known p → (s.slots p).derivation = some d → (s.derivationLinks p).prev ≠ some d

/-- Nothing that still points to `old` is in the way of a move. -/
structure StaleLists (s : Space) (known : SlotPtr → Prop) (old skipped : SlotPtr) : Prop where
  ordered : OrderedLists s known
  resources : Stale s.resourceLinks known old skipped
  derivations : Stale s.derivationLinks known old skipped
  apart : ∀ p, known p → (s.slots p).derivation = some old →
    (s.derivationLinks p).prev ≠ some old

namespace WellLinked

theorem orderedLists (h : s.WellLinked) : OrderedLists s s.Live where
  resources := Listed.ordered fun _ hp => h.listed_resource hp
  derivations := Listed.ordered fun _ hp => h.listed_derivation hp
  children p d hp hd := by
    have hderivable : s.Derivable p := by
      by_contra hnot
      rw [h.childless p hp hnot] at hd
      cases hd
    obtain ⟨xs, hxs, hhead, hmem⟩ := h.children p hp hderivable
    rw [hhead] at hd
    have hlive := ((hmem d).mp (List.mem_of_head? hd)).1
    refine ⟨hlive, ?_⟩
    obtain ⟨rest, rfl⟩ := List.head?_eq_some_iff.mp hd
    exact DList.prev_eq (show DList s.derivationLinks ([] ++ d :: rest) from hxs)

/-- A capability comes after none of those derived from it. -/
theorem apart (h : s.WellLinked) (hp : s.Live p)
    (hd : (s.slots p).derivation = some q) : (s.derivationLinks p).prev ≠ some q := by
  intro hprev
  have hq := (h.orderedLists.children p q hp hd).1
  have hderived := ((h.derivation_eq_iff hp hq).mp hd).1
  rcases h.siblings p hp with hempty | ⟨xs, hxs, hmem, hsame⟩
  · rw [hempty] at hprev
    cases hprev
  · have hqMem := (hxs.next_of_prev hmem hprev).1
    have hself := (hsame q hqMem).2
    rw [hderived] at hself
    exact (h.parents p p hp hself.symm).2.2 rfl

theorem oneCopy (h : s.WellLinked) (hsource : s.Live source) (hdest : ¬s.Live dest)
    (hcopied : CopiedLists s s.Live source dest s')
    (hordered : OrderedLists s' fun q => s.Live q ∨ q = dest) :
    OneCopy s' (fun q => s.Live q ∨ q = dest) dest := by
  obtain ⟨ahead₁, behind₁, horder₁⟩ := h.orderedLists.resources
  obtain ⟨ahead₂, behind₂, horder₂⟩ := h.orderedLists.derivations
  have hmutual₁ := Listed.mutual fun p (hp : s.Live p) => h.listed_resource hp
  have hmutual₂ := Listed.mutual fun p (hp : s.Live p) => h.listed_derivation hp
  refine ⟨hordered, hcopied.resources.skips hmutual₁ horder₁ hsource hdest, ?_, ?_⟩
  · rcases hcopied.derivations with ⟨c, hc, hinserted⟩ | ⟨links, hlinks, hinit⟩
    · exact hinserted.skips hmutual₂ horder₂ hc hdest
    · rw [hinit]
      exact hmutual₂.init_skips horder₂ hdest hlinks dest
  · intro p d hp hd
    have hpd : p ≠ dest := by
      rintro rfl
      rw [hcopied.underived] at hd
      cases hd
    have hpLive := hp.resolve_right hpd
    have hprev : (s'.derivationLinks p).prev = (s.derivationLinks p).prev := by
      rcases hcopied.derivations with ⟨c, hc, hinserted⟩ | ⟨links, hlinks, hinit⟩
      · exact hinserted.prev_eq hpd
      · rw [hinit, listInitNoContainer, modify_of_ne _ _ hpd, hlinks p hpd]
    rw [hprev]
    rcases hcopied.derivation p hpd with hsame | ⟨hnew, -⟩
    · rw [hsame] at hd
      exact h.apart hpLive hd
    · rw [hnew] at hd
      obtain rfl := Option.some.inj hd
      exact fun heq => hdest (horder₂.prev p dest hpLive heq).1

end WellLinked

/-- Where a move has not changed the pointer to a derived capability, nor `prev`. -/
theorem MovedPointers.apart (h : MovedPointers s source dest s') (hsource : known source)
    (hold : known old) (hdest : ¬known dest)
    (hapart : ∀ p, known p → (s.slots p).derivation = some old →
      (s.derivationLinks p).prev ≠ some old) (p : SlotPtr) (hp : known p ∨ p = dest)
    (hd : (s'.slots p).derivation = some old) : (s'.derivationLinks p).prev ≠ some old := by
  obtain ⟨hself, hother⟩ := copied_derivationLinks s source dest
  obtain ⟨hselfPointer, hotherPointer⟩ := copied_derivation s source dest
  have hne : old ≠ dest := fun heq => hdest (heq ▸ hold)
  intro hprev
  rw [h.derivations.prev] at hprev
  split at hprev
  · exact hne (Option.some.inj hprev).symm
  · rcases h.derivation p with hsame | ⟨hnew, -⟩
    · rw [hsame] at hd
      rcases hp with hp | rfl
      · have hpd : p ≠ dest := fun heq => hdest (heq ▸ hp)
        rw [hotherPointer p hpd] at hd
        rw [hother p hpd] at hprev
        exact hapart p hp hd hprev
      · rw [hselfPointer] at hd
        rw [hself] at hprev
        exact hapart source hsource hd hprev
    · rw [hnew] at hd
      exact hne (Option.some.inj hd).symm

/-- The first move after a copy leaves a slot that stale links may point to. -/
theorem OneCopy.move (h : OneCopy s known skipped) (hsource : known source)
    (hdest : ¬known dest) (hmoved : MovedPointers s source dest s')
    (hordered : OrderedLists s' fun q => known q ∨ q = dest) :
    StaleLists s' (fun q => known q ∨ q = dest) source skipped := by
  obtain ⟨ahead₁, behind₁, horder₁⟩ := h.ordered.resources
  obtain ⟨ahead₂, behind₂, horder₂⟩ := h.ordered.derivations
  obtain ⟨hself₁, hother₁⟩ := copied_resourceLinks s source dest
  obtain ⟨hself₂, hother₂⟩ := copied_derivationLinks s source dest
  exact ⟨hordered,
    h.resources.relinked horder₁ hsource hdest hself₁ hother₁ hmoved.resources,
    h.derivations.relinked horder₂ hsource hdest hself₂ hother₂ hmoved.derivations,
    hmoved.apart hsource hsource hdest fun p hp hd => h.apart p source hp hd⟩

theorem StaleLists.move (h : StaleLists s known old skipped) (hold : known old)
    (hsource : known source) (hne : source ≠ old) (hskipped : source ≠ skipped)
    (hdest : ¬known dest) (hmoved : MovedPointers s source dest s')
    (hordered : OrderedLists s' fun q => known q ∨ q = dest) :
    StaleLists s' (fun q => known q ∨ q = dest) old skipped := by
  obtain ⟨ahead₁, behind₁, horder₁⟩ := h.ordered.resources
  obtain ⟨ahead₂, behind₂, horder₂⟩ := h.ordered.derivations
  obtain ⟨hself₁, hother₁⟩ := copied_resourceLinks s source dest
  obtain ⟨hself₂, hother₂⟩ := copied_derivationLinks s source dest
  exact ⟨hordered,
    h.resources.relinked horder₁ hold hsource hne hskipped hdest hself₁ hother₁
      hmoved.resources,
    h.derivations.relinked horder₂ hold hsource hne hskipped hdest hself₂ hother₂
      hmoved.derivations,
    hmoved.apart hsource hold hdest h.apart⟩

/-! The slot is filled again. -/

namespace StaleLists

theorem moveCapability_returns (h : StaleLists s known old skipped) (hsource : known source)
    (hne : source ≠ old) (hskipped : source ≠ skipped) :
    ∃ n s', ∀ fuel ≥ n, s.moveCapability fuel source old = some s' := by
  obtain ⟨ahead₁, behind₁, horder₁⟩ := h.ordered.resources
  obtain ⟨ahead₂, behind₂, horder₂⟩ := h.ordered.derivations
  obtain ⟨hself₁, hother₁⟩ := copied_resourceLinks s source old
  obtain ⟨hself₂, hother₂⟩ := copied_derivationLinks s source old
  obtain ⟨n₁, resources, hn₁, -⟩ :=
    h.resources.updateAddress horder₁ hsource hne hskipped hself₁ hother₁
  obtain ⟨n₂, derivations, hn₂, hends⟩ :=
    h.derivations.updateAddress horder₂ hsource hne hskipped hself₂ hother₂
  have hwalk : ∀ d a, (s.slots source).derivation = some d → (derivations d).start = some a →
      Ends (fun q => (derivations q).next) a := by
    intro d a hd ha
    obtain ⟨hdKnown, hdFirst⟩ := h.ordered.children source d hsource hd
    refine hends d a hdKnown hdFirst (fun hloop => ?_) ha
    rintro rfl
    exact h.apart source hsource hd hloop
  obtain ⟨n, s', hn, -⟩ := moveCapability_ends ⟨n₁, hn₁⟩ ⟨n₂, hn₂⟩ hwalk
  exact ⟨n, s', hn⟩

theorem copyCapability_returns (h : StaleLists s known old skipped) (hsource : known source)
    (hne : source ≠ old) (address depth : Nat) :
    ∃ s', s.copyCapability source old address depth = some s' := by
  obtain ⟨ahead₁, behind₁, horder₁⟩ := h.ordered.resources
  obtain ⟨ahead₂, behind₂, horder₂⟩ := h.ordered.derivations
  obtain ⟨hself₁, hother₁⟩ := duplicate_resourceLinks s source old address depth
  obtain ⟨hself₂, hother₂⟩ := duplicate_derivationLinks s source old address depth
  obtain ⟨resources, hresources⟩ := h.resources.insert_total horder₁ hsource hne hself₁ hother₁
    hsource (.inl rfl) (hother₁ source hne) hne
  have hbeside := h.derivations.insert_total horder₂ hsource hne hself₂ hother₂ hsource (.inl rfl)
    (hother₂ source hne) hne
  have hplace : ∃ derivations, DerivedLinks s source old
      (s.duplicate source old address depth).derivationLinks derivations := by
    by_cases hderivable : s.Derivable source
    · cases hderivation : (s.slots source).derivation with
      | none => exact ⟨_, .first hderivable hderivation rfl⟩
      | some d =>
          obtain ⟨hdKnown, hdFirst⟩ := h.ordered.children source d hsource hderivation
          by_cases hdo : d = old
          · -- the copy takes the source's place as the head of its own list
            have hlinks : (s.duplicate source old address depth).derivationLinks d =
                s.derivationLinks source := by rw [hdo, hself₂]
            obtain ⟨derivations, hinsert⟩ := h.derivations.insert_total horder₂ hsource hne
              hself₂ hother₂ hsource (.inl rfl) hlinks hne
            exact ⟨derivations, .sibling d hderivable hderivation hinsert⟩
          · obtain ⟨derivations, hinsert⟩ := h.derivations.insert_total horder₂ hsource hne
              hself₂ hother₂ hdKnown (.inr hdFirst) (hother₂ d hdo) hdo
            exact ⟨derivations, .sibling d hderivable hderivation hinsert⟩
    · obtain ⟨derivations, hinsert⟩ := hbeside
      exact ⟨derivations, .beside hderivable hinsert⟩
  obtain ⟨derivations, hderived⟩ := hplace
  obtain ⟨s', hs', -⟩ := Space.copyCapability_returns hne hresources hderived
  exact ⟨s', hs'⟩

end StaleLists

end Space

end Cenix
