import Cenix.Capabilities.Revocation
import Mathlib.Logic.Relation

namespace Cenix

open LinkedLists

/-! The capabilities that are derived from one another form trees of two levels. -/

namespace Space

variable {s s' : Space} {p q r c : SlotPtr}

/-- Other capabilities can be derived from this one. -/
def Derivable (s : Space) (p : SlotPtr) : Prop :=
  (s.slots p).flags.original = true ∨ (s.slots p).flags.badged = true

def ChildOf (s : Space) (q p : SlotPtr) : Prop :=
  s.Live q ∧ s.Live p ∧ (s.slots q).derivedFrom = some p

/-- Copies, badged copies, and the copies of badged copies. -/
def DerivedFrom (s : Space) : SlotPtr → SlotPtr → Prop :=
  Relation.TransGen s.ChildOf

/-- `derivation` heads the list of what was derived from a capability, all of it for
the same resource; only an original has badged capabilities derived from it. -/
structure DerivationLists (s : Space) : Prop where
  lists : ∀ p, s.Live p → s.Derivable p → ∃ xs, DList s.derivationLinks xs ∧
    (s.slots p).derivation = xs.head? ∧ ∀ q, q ∈ xs ↔ s.ChildOf q p
  resource : ∀ p q, s.ChildOf q p → s.resource q = s.resource p
  notOriginal : ∀ p q, s.ChildOf q p → (s.slots q).flags.original = false
  levels : ∀ p q, s.ChildOf q p → (s.slots p).flags.original = true ∨
    (s.slots p).flags.badged = true ∧ (s.slots q).flags.badged = false

/-- The capabilities derived from `p` directly, as the code finds them. -/
structure Children (s : Space) (p : SlotPtr) (xs : List SlotPtr) : Prop where
  list : DList s.derivationLinks xs
  head : s.Derivable p → (s.slots p).derivation = xs.head?
  mem : ∀ q, q ∈ xs ↔ s.ChildOf q p

namespace DerivationLists

theorem derivable (h : s.DerivationLists) (hq : s.ChildOf q p) : s.Derivable p := by
  cases h.levels p q hq with
  | inl horiginal => exact .inl horiginal
  | inr hbadged => exact .inr hbadged.1

theorem irrefl (h : s.DerivationLists) : ¬s.ChildOf p p := by
  intro hp
  cases h.levels p p hp with
  | inl horiginal => exact absurd horiginal (by simp [h.notOriginal p p hp])
  | inr hbadged => exact absurd hbadged.1 (by simp [hbadged.2])

/-- What was derived from a derived capability has nothing derived from it. -/
theorem third (h : s.DerivationLists) (hq : s.ChildOf q p) (hr : s.ChildOf r q) :
    ¬s.ChildOf c r := by
  intro hc
  have hbadged : (s.slots r).flags.badged = false := by
    cases h.levels q r hr with
    | inl horiginal => exact absurd horiginal (by simp [h.notOriginal p q hq])
    | inr hbadged => exact hbadged.2
  cases h.derivable hc with
  | inl horiginal => exact absurd horiginal (by simp [h.notOriginal q r hr])
  | inr hbadged' => exact absurd hbadged' (by simp [hbadged])

theorem children (h : s.DerivationLists) (hp : s.Live p) : ∃ xs, s.Children p xs := by
  by_cases hderivable : s.Derivable p
  · obtain ⟨xs, hxs, hhead, hmem⟩ := h.lists p hp hderivable
    exact ⟨xs, hxs, fun _ => hhead, hmem⟩
  · refine ⟨[], ⟨.nil, trivial, trivial, by simp, by simp⟩, fun hd => absurd hd hderivable,
      fun q => ?_⟩
    simp only [List.not_mem_nil, false_iff]
    exact fun hq => hderivable (h.derivable hq)

/-- Two levels are all there are. -/
theorem derivedFrom_iff (h : s.DerivationLists) :
    s.DerivedFrom q p ↔ s.ChildOf q p ∨ ∃ r, s.ChildOf q r ∧ s.ChildOf r p := by
  constructor
  · intro hq
    induction hq with
    | single hq => exact .inl hq
    | tail _ hp ih =>
        cases ih with
        | inl hq => exact .inr ⟨_, hq, hp⟩
        | inr hq =>
            obtain ⟨r, hq, hr⟩ := hq
            exact absurd hq (h.third hp hr)
  · intro hq
    cases hq with
    | inl hq => exact .single hq
    | inr hq =>
        obtain ⟨r, hq, hr⟩ := hq
        exact .tail (.single hq) hr

end DerivationLists

theorem Children.derivationList {xs : List SlotPtr} (hxs : s.Children p xs)
    (hderivable : s.Derivable p) : s.DerivationList p xs := by
  unfold DerivationList
  rw [hxs.head hderivable]
  cases xs with
  | nil => rfl
  | cons x xs => exact ⟨hxs.list.start_eq x (by simp), hxs.list.forward⟩

theorem Children.childList {xs : List SlotPtr} (h : s.DerivationLists)
    (hxs : s.Children p xs) : s.ChildList p xs := by
  unfold ChildList
  split
  · rename_i hflags
    exact hxs.derivationList (by simpa [Derivable] using hflags)
  · rename_i hflags
    apply List.eq_nil_iff_forall_not_mem.mpr
    intro q hq
    apply hflags
    simpa [Derivable] using h.derivable ((hxs.mem q).mp hq)

theorem DerivedFrom.live (h : s.DerivedFrom q p) : s.Live q := by
  induction h with
  | single hq => exact hq.1
  | tail _ _ ih => exact ih

theorem ChildOf.parent_eq (hp : s.ChildOf q p) (hr : s.ChildOf q r) : p = r :=
  Option.some.inj (hp.2.2.symm.trans hr.2.2)

namespace Children

variable {xs : List SlotPtr} {children : SlotPtr → List SlotPtr}

theorem mem_revoked (h : s.DerivationLists) (hxs : s.Children p xs)
    (hchildren : ∀ c ∈ xs, s.Children c (children c)) :
    q ∈ revoked xs children ↔ s.DerivedFrom q p := by
  rw [h.derivedFrom_iff]
  unfold revoked
  rw [List.mem_flatMap]
  constructor
  · intro hq
    obtain ⟨c, hc, hq⟩ := hq
    cases List.mem_append.mp hq with
    | inl hq => exact .inr ⟨c, ((hchildren c hc).mem q).mp hq, (hxs.mem c).mp hc⟩
    | inr hq => exact .inl ((hxs.mem q).mp (List.mem_singleton.mp hq ▸ hc))
  · intro hq
    cases hq with
    | inl hq => exact ⟨q, (hxs.mem q).mpr hq, by simp⟩
    | inr hq =>
        obtain ⟨c, hq, hc⟩ := hq
        have hc := (hxs.mem c).mpr hc
        exact ⟨c, hc, List.mem_append_left _ (((hchildren c hc).mem q).mpr hq)⟩

/-- A capability knows what it was derived from, so it is in one list only. -/
theorem nodup_revoked (h : s.DerivationLists) (hxs : s.Children p xs)
    (hchildren : ∀ c ∈ xs, s.Children c (children c)) : (revoked xs children).Nodup := by
  have hother : ∀ c ∈ xs, ∀ d ∈ xs, ¬s.ChildOf c d := by
    intro c hc d hd hchild
    have hp := hchild.parent_eq ((hxs.mem c).mp hc)
    exact h.irrefl (hp ▸ (hxs.mem d).mp hd)
  have hcases : ∀ c ∈ xs, ∀ q, q ∈ children c ++ [c] → s.ChildOf q c ∨ q = c := by
    intro c hc q hq
    cases List.mem_append.mp hq with
    | inl hq => exact .inl (((hchildren c hc).mem q).mp hq)
    | inr hq => exact .inr (List.mem_singleton.mp hq)
  unfold revoked
  rw [List.nodup_flatMap]
  constructor
  · intro c hc
    rw [List.nodup_append]
    refine ⟨(hchildren c hc).list.nodup, by simp, fun q hq r hr heq => ?_⟩
    rw [heq, List.mem_singleton.mp hr] at hq
    exact h.irrefl (((hchildren c hc).mem c).mp hq)
  · refine hxs.list.nodup.imp_of_mem fun {c d} hc hd hne => ?_
    intro q hqc hqd
    cases hcases c hc q hqc with
    | inl hqc =>
        cases hcases d hd q hqd with
        | inl hqd => exact hne (hqc.parent_eq hqd)
        | inr hqd => exact hother d hd c hc (hqd ▸ hqc)
    | inr hqc =>
        cases hcases d hd q hqd with
        | inl hqd => exact hother c hc d hd (hqc ▸ hqd)
        | inr hqd => exact hne (hqc.symm.trans hqd)

end Children

/-- What is derived from `p` is another capability for the same resource. -/
theorem DerivationLists.own (h : s.DerivationLists) (hq : s.DerivedFrom q p) :
    s.Live q ∧ s.resource q = s.resource p ∧ q ≠ p := by
  cases h.derivedFrom_iff.mp hq with
  | inl hq => exact ⟨hq.1, h.resource p q hq, fun heq => h.irrefl (heq ▸ hq)⟩
  | inr hq =>
      obtain ⟨r, hq, hr⟩ := hq
      refine ⟨hq.1, (h.resource r q hq).trans (h.resource p r hr), ?_⟩
      intro heq
      exact h.third hr hq (heq ▸ hr)

/-- The order of a revocation has everything that is derived from `p` in it, once. -/
theorem DerivationLists.derivesOwn (h : s.DerivationLists) (hp : s.Live p)
    (hderivable : s.Derivable p) : ∃ xs children, s.DerivesOwn p xs children ∧
      ∀ q, q ∈ revoked xs children ↔ s.DerivedFrom q p := by
  obtain ⟨xs, hxs⟩ := h.children hp
  have hchildren : ∀ c, ∃ ys, c ∈ xs → s.Children c ys := by
    intro c
    by_cases hc : c ∈ xs
    · obtain ⟨ys, hys⟩ := h.children ((hxs.mem c).mp hc).1
      exact ⟨ys, fun _ => hys⟩
    · exact ⟨[], fun hmem => absurd hmem hc⟩
  choose children hchildren using hchildren
  refine ⟨xs, children, ⟨hxs.derivationList hderivable, fun c hc =>
    (hchildren c hc).childList h, hxs.nodup_revoked h hchildren, fun q hq =>
    h.own ((hxs.mem_revoked h hchildren).mp hq)⟩, fun q => hxs.mem_revoked h hchildren⟩

end Space

end Cenix
