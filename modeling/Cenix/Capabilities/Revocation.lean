import Cenix.Capabilities.CopyMove
import Cenix.Kernel.Node

namespace Cenix

open LinkedLists

/-! A revocation deletes what has been derived from a capability. -/

namespace Space

variable {s s' : Space} {p q c : SlotPtr}

/-- The capabilities on the list that `derivation` of `p` is in. -/
def DerivationList (s : Space) (p : SlotPtr) (xs : List SlotPtr) : Prop :=
  match (s.slots p).derivation with
  | none => xs = []
  | some d => (s.slots d).derivationList.start = xs.head? ∧
      Seg (fun q => (s.slots q).derivationList.next) xs none

/-- Only originals and badged capabilities have others derived from them. -/
def ChildList (s : Space) (p : SlotPtr) (xs : List SlotPtr) : Prop :=
  if (s.slots p).flags.original || (s.slots p).flags.badged then s.DerivationList p xs
  else xs = []

/-- The order in which a revocation deletes two levels of the tree. -/
def revoked (xs : List SlotPtr) (children : SlotPtr → List SlotPtr) : List SlotPtr :=
  xs.flatMap fun c => children c ++ [c]

/-- The capabilities derived from `p`, on two levels, are distinct live capabilities of
its resource. -/
structure DerivesOwn (s : Space) (p : SlotPtr) (xs : List SlotPtr)
    (children : SlotPtr → List SlotPtr) : Prop where
  first : s.DerivationList p xs
  second : ∀ c ∈ xs, s.ChildList c (children c)
  nodup : (revoked xs children).Nodup
  own : ∀ c ∈ revoked xs children, s.Live c ∧ s.resource c = s.resource p ∧ c ≠ p

theorem DerivationList.congr {xs : List SlotPtr}
    (h : ∀ q, SameDerivation (s.slots q) (s'.slots q)) (hxs : s.DerivationList p xs) :
    s'.DerivationList p xs := by
  unfold DerivationList at hxs ⊢
  rw [(h p).derivation]
  cases hd : (s.slots p).derivation with
  | none =>
      rw [hd] at hxs
      exact hxs
  | some d =>
      rw [hd] at hxs
      simp only at hxs ⊢
      rw [(h d).derivationList]
      refine ⟨hxs.1, hxs.2.congr fun q _ => ?_⟩
      rw [(h q).derivationList]

theorem ChildList.congr {xs : List SlotPtr} (h : ∀ q, SameDerivation (s.slots q) (s'.slots q))
    (hxs : s.ChildList p xs) : s'.ChildList p xs := by
  unfold ChildList at hxs ⊢
  rw [(h p).flags]
  split
  · rename_i hflags
    rw [if_pos hflags] at hxs
    exact hxs.congr h
  · rename_i hflags
    rw [if_neg hflags] at hxs
    exact hxs

end Space

namespace Kernel

variable {fuel : Nat} {k k₀ k₁ k' : Kernel} {p c slot : SlotPtr} {todo : List SlotPtr}

theorem deleteCapability_shared (h : k.space.ResourceLists) (hp : k.space.Live p)
    (hshared : ¬k.space.Alone p) (hdelete : deleteCapability fuel k p = some k') :
    k.DeletedShared p k' := by
  cases fuel with
  | zero => cases hdelete
  | succ fuel =>
      have hnotLast : ¬isLast k.space p := fun hlast => hshared ((h.isLast_iff hp).mp hlast)
      obtain ⟨s, hleave, hcases⟩ := deleteCapability_cases hdelete
      cases hcases with
      | inr hlast => exact absurd hlast.1 hnotLast
      | inl hkept =>
          obtain ⟨-, rfl⟩ := hkept
          exact deletedShared h hp hnotLast hleave

/-- The state of a revocation of `p` that began in `k₀`, with `todo` left to delete. -/
structure Revoking (k₀ : Kernel) (p : SlotPtr) (todo : List SlotPtr) (k : Kernel) : Prop where
  lists : k.space.ResourceLists
  objects : k.space.objects = k₀.space.objects
  derivation : ∀ q, SameDerivation (k₀.space.slots q) (k.space.slots q)
  nodup : todo.Nodup
  own : ∀ c ∈ todo, k.space.Live c ∧ k.space.resource c = k.space.resource p ∧ c ≠ p
  self : k.space.Live p

/-- `p` itself keeps its resource alive. -/
theorem Revoking.delete (h : Revoking k₀ p (c :: todo) k)
    (hdelete : deleteCapability fuel k c = some k') : Revoking k₀ p todo k' := by
  obtain ⟨hc, hresource, hne⟩ := h.own c (by simp)
  have hshared : ¬k.space.Alone c := fun halone => hne (halone p h.self hresource.symm).symm
  have hdeleted := deleteCapability_shared h.lists hc hshared hdelete
  have hsame : ∀ q, k'.space.resource q = k.space.resource q :=
    fun q => (hdeleted.derivation q).resource
  refine ⟨hdeleted.lists, hdeleted.objects.trans h.objects,
    fun q => (h.derivation q).trans (hdeleted.derivation q), (List.nodup_cons.mp h.nodup).2,
    fun d hd => ?_, (hdeleted.live p).mpr ⟨h.self, hne.symm⟩⟩
  obtain ⟨hlive, hown, hdp⟩ := h.own d (List.mem_cons_of_mem c hd)
  refine ⟨(hdeleted.live d).mpr ⟨hlive, fun heq => ?_⟩, ?_, hdp⟩
  · exact (List.nodup_cons.mp h.nodup).1 (heq ▸ hd)
  · rw [hsame, hsame]
    exact hown

/-- A loop over a derivation list that deletes, and possibly more. -/
theorem Revoking.iterDerivationList {body : Kernel → SlotPtr → Option Kernel}
    (children : SlotPtr → List SlotPtr) {xs rest : List SlotPtr} {d : SlotPtr}
    (hbody : ∀ c todo k k', c ∈ xs → Revoking k₀ p (children c ++ c :: todo) k →
      body k c = some k' → Revoking k₀ p todo k')
    (hstart : (k₀.space.slots d).derivationList.start = xs.head?)
    (hseg : Seg (fun q => (k₀.space.slots q).derivationList.next) xs none)
    (h : Revoking k₀ p (Space.revoked xs children ++ rest) k)
    (hiter : k.iterDerivationList fuel d body = some k') : Revoking k₀ p rest k' := by
  unfold Kernel.iterDerivationList at hiter
  rw [(h.derivation d).derivationList, hstart] at hiter
  let motive := fun (left : List SlotPtr) (k : Kernel) =>
    Seg (fun q => (k₀.space.slots q).derivationList.next) left none ∧
      (∀ c ∈ left, c ∈ xs) ∧ Revoking k₀ p (Space.revoked left children ++ rest) k
  have hend : motive [] k' := by
    refine listIter_along (motive := motive) ?_ hiter ⟨hseg, fun _ hc => hc, h⟩
    intro c left k k' hk hround
    obtain ⟨hseg, hmem, hk⟩ := hk
    have hsplit : Space.revoked (c :: left) children ++ rest =
        children c ++ c :: (Space.revoked left children ++ rest) := by
      simp [Space.revoked]
    rw [hsplit] at hk
    have hnext := hbody c _ k k' (hmem c (by simp)) hk hround
    refine ⟨⟨hseg.2, fun q hq => hmem q (List.mem_cons_of_mem c hq), hnext⟩, ?_⟩
    simp only [(hnext.derivation c).derivationList]
    simpa using hseg.1
  exact hend.2.2

theorem Revoking.revokeDerived {children : List SlotPtr}
    (hchildren : k₀.space.ChildList c children)
    (h : Revoking k₀ p (children ++ c :: todo) k) (hrevoke : k.revokeDerived fuel c = some k') :
    Revoking k₀ p (c :: todo) k' := by
  unfold Kernel.revokeDerived at hrevoke
  simp only [(h.derivation c).flags, (h.derivation c).derivation] at hrevoke
  unfold Space.ChildList Space.DerivationList at hchildren
  cases hd : (k₀.space.slots c).derivation with
  | none =>
      simp only [hd, ite_self] at hchildren hrevoke
      subst hchildren
      cases hrevoke
      exact h
  | some d =>
      simp only [hd] at hchildren hrevoke
      split at hchildren
      · rename_i hflags
        rw [if_pos hflags] at hrevoke
        have hflat : Space.revoked children (fun _ => []) = children := by
          simp [Space.revoked]
        rw [← hflat] at h
        exact Revoking.iterDerivationList (fun _ => [])
          (fun _ _ _ _ _ hk hround => hk.delete hround) hchildren.1 hchildren.2 h hrevoke
      · rename_i hflags
        rw [if_neg hflags] at hrevoke
        subst hchildren
        cases hrevoke
        exact h

/-- A revocation frees nothing and keeps the lists of all resources. -/
theorem resourceLists_revoke (h : k.space.ResourceLists) {argument e : Nat}
    (hlive : ∀ p, k.nodeSlot slot argument = some p → (k.space.slots p).handlers ≠ none →
      k.space.Live p ∧ ∃ xs children, k.space.DerivesOwn p xs children)
    (hrevoke : k.nodeRevoke fuel slot argument = some (e, k')) :
    k'.space.ResourceLists ∧ k'.space.objects = k.space.objects := by
  unfold nodeRevoke at hrevoke
  split at hrevoke
  · cases hrevoke
    exact ⟨h, rfl⟩
  · rename_i toRevoke hslot
    simp only at hrevoke
    split at hrevoke
    · cases hrevoke
      exact ⟨h, rfl⟩
    · rename_i hoccupied
      split at hrevoke
      · cases hrevoke
        exact ⟨h, rfl⟩
      · obtain ⟨hself, xs, children, hderives⟩ := hlive toRevoke hslot hoccupied
        have hfirst := hderives.first
        unfold Space.DerivationList at hfirst
        split at hrevoke
        · cases hrevoke
          exact ⟨h, rfl⟩
        · rename_i d hd
          simp only [hd] at hfirst
          simp only [Option.map_eq_some_iff, Prod.mk.injEq] at hrevoke
          obtain ⟨k₁, hiter, -, rfl⟩ := hrevoke
          have hbegin : Revoking k toRevoke (Space.revoked xs children ++ []) k := by
            rw [List.append_nil]
            exact ⟨h, rfl, fun _ => .refl _, hderives.nodup, hderives.own, hself⟩
          have hdone := hbegin.iterDerivationList children ?_ hfirst.1 hfirst.2 hiter
          · have hsame : k₁.space.SameResources (k₁.space.modifySlot toRevoke fun c =>
                { c with derivation := none }) :=
              .modifySlot k₁.space toRevoke rfl rfl rfl
            exact ⟨hdone.lists.congr hsame, hdone.objects⟩
          · intro c todo k₁ k₂ hc hk₁ hround
            simp only [Option.bind_eq_some_iff] at hround
            obtain ⟨k₃, hchildren, hround⟩ := hround
            exact (hk₁.revokeDerived (hderives.second c hc) hchildren).delete hround

end Kernel

end Cenix
