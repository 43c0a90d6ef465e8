import Cenix.Capabilities.Derivations
import Cenix.Kernel.Boot

namespace Cenix

open LinkedLists

/-! A revocation deletes what is derived from a capability and nothing else. -/

namespace Space

variable {s : Space} {p q : SlotPtr}

/-- The heap updates the first capability of the resource of `p` when the resource
moves. -/
def OwnedByFirst (s : Space) (p : SlotPtr) : Prop :=
  ∃ first, (s.slots p).resourceList.start = some first ∧ s.Live first ∧
    s.updateRefs (s.resource p) = .capability (s.slots first).address

/-- The capabilities for the resource of `p` are no more than `n`. -/
def ResourceCount (s : Space) (p : SlotPtr) (n : Nat) : Prop :=
  ∀ xs : List SlotPtr, xs.Nodup → (∀ q ∈ xs, s.Live q ∧ s.resource q = s.resource p) →
    xs.length ≤ n

theorem length_le_revoked (xs : List SlotPtr) (children : SlotPtr → List SlotPtr) :
    xs.length ≤ (revoked xs children).length := by
  induction xs with
  | nil => simp
  | cons x xs ih =>
      unfold revoked at ih ⊢
      simp only [List.flatMap_cons, List.length_append, List.length_cons, List.length_nil]
      omega

theorem ResourceLists.count (h : s.ResourceLists) (hp : s.Live p) :
    ∃ n, s.ResourceCount p n := by
  obtain ⟨xs, hxs, hmem⟩ := h.lists p hp
  exact ⟨xs.length, fun ys hys hown =>
    hys.length_le_of_subset fun q hq => (hmem q).mpr (hown q hq)⟩

end Space

namespace Kernel

variable {fuel n : Nat} {k k₀ k₁ k' : Kernel} {p q c slot : SlotPtr} {todo : List SlotPtr}

theorem handOver_first (hprev : (k.space.slots c).resourceList.prev ≠ none) :
    handOver k.space c = k.space := by
  unfold handOver
  simp only
  split
  · rename_i hnone _
    exact absurd hnone hprev
  · rfl

theorem handOver_next {next : SlotPtr} (hprev : (k.space.slots c).resourceList.prev = none)
    (hnext : (k.space.slots c).resourceList.next = some next) :
    handOver k.space c = k.space.heapSetUpdateCapability (k.space.resource c)
      (k.space.slots next).address := by
  unfold handOver
  simp only [hprev, hnext]
  rfl

/-- `k` is `k₀` after a revocation of `p` has deleted what is in `all` except for `todo`. -/
structure Revoked (k₀ : Kernel) (p : SlotPtr) (all todo : List SlotPtr) (k : Kernel) : Prop
    extends Revoking k₀ p todo k where
  outside : k = { k₀ with space := k.space }
  nodes : k.space.nodes = k₀.space.nodes
  listed : ∀ q ∈ todo, q ∈ all
  slots : ∀ q, k.space.slots q = { k₀.space.slots q with
    resourceList := (k.space.slots q).resourceList
    handlers := if q ∈ all ∧ q ∉ todo then none else (k₀.space.slots q).handlers }
  others : ∀ b, b ≠ k₀.space.resource p → k.space.updateRefs b = k₀.space.updateRefs b
  first : k₀.space.OwnedByFirst p → k.space.OwnedByFirst p

/-- What the deletion of a shared capability does to the state. -/
structure DeletedOne (k : Kernel) (c : SlotPtr) (k' : Kernel) : Prop where
  shared : k.DeletedShared c k'
  outside : k' = { k with space := k'.space }
  nodes : k'.space.nodes = k.space.nodes
  slots : ∀ q, k'.space.slots q = { k.space.slots q with
    resourceList := (k'.space.slots q).resourceList
    handlers := if q = c then none else (k.space.slots q).handlers }
  others : ∀ b, b ≠ k.space.resource c → k'.space.updateRefs b = k.space.updateRefs b
  first : ∀ p, k.space.Live p → k.space.resource p = k.space.resource c → p ≠ c →
    k.space.OwnedByFirst p → k'.space.OwnedByFirst p

/-- Leaving the list hands the resource over when the first capability goes. -/
theorem handOver_ownedByFirst {front back : List SlotPtr} {links : SlotPtr → Links SlotPtr}
    (h : DList k.space.resourceLinks (front ++ c :: back))
    (hlive : ∀ q ∈ front ++ c :: back, k.space.Live q)
    (hdelete : listDeleteNoContainer fuel k.space.resourceLinks c = some links)
    (hresource : k.space.resource p = k.space.resource c) (hp : p ∈ front ++ back)
    (hfirst : k.space.OwnedByFirst p) :
    ∃ first, (links p).start = some first ∧ first ∈ front ++ back ∧ k.space.Live first ∧
      (handOver k.space c).updateRefs (k.space.resource p) =
        .capability (k.space.slots first).address := by
  have hprev : (k.space.slots c).resourceList.prev = front.getLast? := h.prev_eq
  have hnext : (k.space.slots c).resourceList.next = back.head? := h.next_eq
  rw [listDeleteNoContainer_some h hdelete p]
  cases front with
  | nil =>
      have hpback : p ∈ back := by simpa using hp
      cases back with
      | nil => simp at hpback
      | cons n back =>
          refine ⟨n, by simp [hpback], by simp, hlive n (by simp), ?_⟩
          rw [handOver_next hprev hnext, hresource]
          simp [Space.heapSetUpdateCapability]
  | cons f front =>
      obtain ⟨first, hstart, hfirst, hupdate⟩ := hfirst
      have hpmem : p ∈ f :: front ++ c :: back := by
        rw [List.mem_append] at hp ⊢
        exact hp.imp_right (List.mem_cons_of_mem c)
      have hhead : (k.space.slots p).resourceList.start = some f := h.start_eq p hpmem
      rw [handOver_first (by rw [hprev]; simp)]
      refine ⟨first, ?_, ?_, hfirst, hupdate⟩
      · rw [if_neg (by simp)]
        exact hstart
      · rw [hhead] at hstart
        cases hstart
        simp

theorem leaveResourceList_eq {links : SlotPtr → Links SlotPtr}
    (hdelete : listDeleteNoContainer fuel k.space.resourceLinks c = some links) :
    leaveResourceList fuel k.space c = some ((handOver k.space c).setResourceLinks links) := by
  have hlinks : (handOver k.space c).resourceLinks = k.space.resourceLinks := by
    unfold Space.resourceLinks
    rw [handOver_slots]
  unfold leaveResourceList
  simp only [hlinks, hdelete, Option.map_some]

theorem deletedOne {links : SlotPtr → Links SlotPtr} (h : k.space.ResourceLists)
    (hc : k.space.Live c) (hshared : ¬isLast k.space c)
    (hdelete : listDeleteNoContainer fuel k.space.resourceLinks c = some links) :
    k.DeletedOne c ({ k with
      space := (handOver k.space c).setResourceLinks links }.emptySlot c) := by
  have hdeleted := deletedShared h hc hshared (leaveResourceList_eq hdelete)
  have hslots : ∀ q, ({ k with space := (handOver k.space c).setResourceLinks links }.emptySlot
      c).space.slots q = { k.space.slots q with
        resourceList := links q
        handlers := if q = c then none else (k.space.slots q).handlers } := by
    intro q
    rw [emptySlot_slots]
    simp only [Space.setResourceLinks, handOver_slots]
    split <;> rfl
  constructor
  · exact hdeleted
  · rfl
  · exact (handOver_shrunk k c).nodes
  · intro q
    rw [hslots q]
  · intro b hb
    change (handOver k.space c).updateRefs b = k.space.updateRefs b
    unfold handOver
    simp only
    split
    · exact Function.update_of_ne hb ..
    · rfl
  · intro p hp hresource hne hfirst
    obtain ⟨xs, hxs, hmem⟩ := h.lists c hc
    obtain ⟨front, back, rfl⟩ := List.append_of_mem ((hmem c).mpr ⟨hc, rfl⟩)
    have hpmem : p ∈ front ++ back := by
      have hpmem := (hmem p).mpr ⟨hp, hresource⟩
      simp only [List.mem_append, List.mem_cons] at hpmem ⊢
      tauto
    obtain ⟨first, hstart, hfirstMem, hfirstLive, hupdate⟩ := handOver_ownedByFirst hxs
      (fun q hq => ((hmem q).mp hq).1) hdelete hresource hpmem hfirst
    have hfirstNe : first ≠ c := by
      intro heq
      have hnodup := List.nodup_middle.mp hxs.nodup
      exact (List.nodup_cons.mp hnodup).1 (heq ▸ hfirstMem)
    refine ⟨first, ?_, (hdeleted.live first).mpr ⟨hfirstLive, hfirstNe⟩, ?_⟩
    · rw [hslots p]
      exact hstart
    · rw [hslots first]
      unfold Space.resource
      rw [hslots p]
      exact hupdate

/-- There is another capability for the resource, so it is not destroyed. -/
theorem deleteCapability_one (h : k.space.ResourceLists) (hc : k.space.Live c)
    (hshared : ¬isLast k.space c) (hcount : k.space.ResourceCount c n) (hfuel : n < fuel) :
    ∃ k', deleteCapability fuel k c = some k' ∧ k.DeletedOne c k' := by
  cases fuel with
  | zero => omega
  | succ fuel =>
      obtain ⟨xs, hxs, hmem⟩ := h.lists c hc
      have hlength := hcount xs hxs.nodup fun q hq => (hmem q).mp hq
      obtain ⟨front, back, rfl⟩ := List.append_of_mem ((hmem c).mpr ⟨hc, rfl⟩)
      have hroom : front.length + back.length ≤ fuel := by
        simp only [List.length_append, List.length_cons] at hlength
        omega
      obtain ⟨links, hdelete⟩ := listDeleteNoContainer_returns hxs hroom
      refine ⟨_, ?_, deletedOne h hc hshared hdelete⟩
      unfold deleteCapability
      rw [leaveResourceList_eq hdelete]
      simp only [Option.bind_some, if_neg hshared, Option.map_some]
      rfl

namespace Revoked

variable {all : List SlotPtr}

theorem handlers (h : Revoked k₀ p all todo k) (q : SlotPtr) :
    (k.space.slots q).handlers =
      if q ∈ all ∧ q ∉ todo then none else (k₀.space.slots q).handlers :=
  congrArg Capability.handlers (h.slots q)

theorem slot_iff (h : Revoked k₀ p all todo k) (q : SlotPtr) :
    k.space.Slot q ↔ k₀.space.Slot q := by
  cases q with
  | node block i => simp only [Space.Slot, h.objects, h.nodes]
  | root t => simp only [Space.Slot, h.objects]

theorem live_iff (h : Revoked k₀ p all todo k) (q : SlotPtr) :
    k.space.Live q ↔ k₀.space.Live q ∧ ¬(q ∈ all ∧ q ∉ todo) := by
  unfold Space.Live
  rw [h.slot_iff, h.handlers]
  split
  · rename_i hgone
    simp [hgone]
  · rename_i hkept
    simp [hkept]

theorem resource_eq (h : Revoked k₀ p all todo k) (q : SlotPtr) :
    k.space.resource q = k₀.space.resource q :=
  (h.derivation q).resource

theorem refl (h : k.space.ResourceLists) (hp : k.space.Live p) (hnodup : all.Nodup)
    (hown : ∀ c ∈ all, k.space.Live c ∧ k.space.resource c = k.space.resource p ∧ c ≠ p) :
    Revoked k p all all k where
  lists := h
  objects := rfl
  derivation _ := .refl _
  nodup := hnodup
  own := hown
  self := hp
  outside := rfl
  nodes := rfl
  listed _ hq := hq
  slots q := by simp
  others _ _ := rfl
  first := id

/-- One deletion. -/
theorem delete_returns (h : Revoked k₀ p all (c :: todo) k)
    (hcount : k₀.space.ResourceCount p n) (hfuel : n < fuel) :
    ∃ k', deleteCapability fuel k c = some k' ∧ Revoked k₀ p all todo k' := by
  obtain ⟨hc, hresource, hne⟩ := h.own c (by simp)
  have hshared : ¬isLast k.space c := fun hlast =>
    hne ((h.lists.isLast_iff hc).mp hlast p h.self hresource.symm).symm
  have hcount' : k.space.ResourceCount c n := by
    intro xs hnodup hxs
    apply hcount xs hnodup
    intro q hq
    obtain ⟨hlive, hown⟩ := hxs q hq
    have hown := hown.trans hresource
    rw [h.resource_eq, h.resource_eq] at hown
    exact ⟨((h.live_iff q).mp hlive).1, hown⟩
  obtain ⟨k', hdelete, hone⟩ := deleteCapability_one h.lists hc hshared hcount' hfuel
  refine ⟨k', hdelete, h.toRevoking.delete hdelete, ?_, hone.nodes.trans h.nodes,
    fun q hq => h.listed q (List.mem_cons_of_mem c hq), fun q => ?_, fun b hb => ?_,
    fun hfirst => hone.first p h.self hresource.symm hne.symm (h.first hfirst)⟩
  · rw [hone.outside, h.outside]
  · have hcAll := h.listed c (by simp)
    have hcTodo := (List.nodup_cons.mp h.nodup).1
    rw [hone.slots q, h.slots q]
    cases decEq q c with
    | isTrue hqc => simp [hqc, hcAll, hcTodo]
    | isFalse hqc => simp [hqc]
  · rw [← h.resource_eq, ← hresource] at hb
    rw [hone.others b hb]
    apply h.others
    rw [← h.resource_eq, ← hresource]
    exact hb

/-- A loop over a derivation list that deletes, and possibly more. -/
theorem iterDerivationList_returns {body : Kernel → SlotPtr → Option Kernel}
    (children : SlotPtr → List SlotPtr) {xs rest : List SlotPtr} {d : SlotPtr}
    (hbody : ∀ c todo k, c ∈ xs → Revoked k₀ p all (children c ++ c :: todo) k →
      ∃ k', body k c = some k' ∧ Revoked k₀ p all todo k')
    (hstart : (k₀.space.slots d).derivationList.start = xs.head?)
    (hseg : Seg (fun q => (k₀.space.slots q).derivationList.next) xs none)
    (hfuel : xs.length ≤ fuel)
    (h : Revoked k₀ p all (Space.revoked xs children ++ rest) k) :
    ∃ k', k.iterDerivationList fuel d body = some k' ∧ Revoked k₀ p all rest k' := by
  unfold Kernel.iterDerivationList
  rw [(h.derivation d).derivationList, hstart]
  let motive := fun (left : List SlotPtr) (k : Kernel) =>
    Seg (fun q => (k₀.space.slots q).derivationList.next) left none ∧
      (∀ c ∈ left, c ∈ xs) ∧ Revoked k₀ p all (Space.revoked left children ++ rest) k
  have hround : ∀ c left k, motive (c :: left) k → ∃ k', body k c = some k' ∧ motive left k' ∧
      (k'.space.slots c).derivationList.next = left.head? := by
    intro c left k hk
    obtain ⟨hseg, hmem, hk⟩ := hk
    have hsplit : Space.revoked (c :: left) children ++ rest =
        children c ++ c :: (Space.revoked left children ++ rest) := by
      simp [Space.revoked]
    rw [hsplit] at hk
    obtain ⟨k', hround, hnext⟩ := hbody c _ k (hmem c (by simp)) hk
    refine ⟨k', hround, ⟨hseg.2, fun q hq => hmem q (List.mem_cons_of_mem c hq), hnext⟩, ?_⟩
    rw [(hnext.derivation c).derivationList]
    simpa using hseg.1
  obtain ⟨k', hiter, hend⟩ := listIter_returns hround hfuel ⟨hseg, fun _ hc => hc, h⟩
  exact ⟨k', hiter, hend.2.2⟩

theorem length_le (h : Revoked k₀ p all todo k) (hcount : k₀.space.ResourceCount p n) :
    todo.length ≤ n := by
  apply hcount todo h.nodup
  intro q hq
  obtain ⟨hlive, hown, -⟩ := h.own q hq
  rw [h.resource_eq, h.resource_eq] at hown
  exact ⟨((h.live_iff q).mp hlive).1, hown⟩

theorem revokeDerived_returns {children : List SlotPtr}
    (hchildren : k₀.space.ChildList c children) (hcount : k₀.space.ResourceCount p n)
    (hfuel : n < fuel) (h : Revoked k₀ p all (children ++ c :: todo) k) :
    ∃ k', k.revokeDerived fuel c = some k' ∧ Revoked k₀ p all (c :: todo) k' := by
  have hlength := h.length_le hcount
  rw [List.length_append] at hlength
  unfold Kernel.revokeDerived
  simp only [(h.derivation c).flags, (h.derivation c).derivation]
  unfold Space.ChildList Space.DerivationList at hchildren
  cases hd : (k₀.space.slots c).derivation with
  | none =>
      simp only [hd, ite_self] at hchildren
      subst hchildren
      exact ⟨k, rfl, h⟩
  | some d =>
      simp only [hd] at hchildren
      split at hchildren
      · rename_i hflags
        simp only [if_pos hflags]
        have hflat : Space.revoked children (fun _ => []) = children := by
          simp [Space.revoked]
        rw [← hflat] at h
        exact h.iterDerivationList_returns (fun _ => [])
          (fun _ _ _ _ hk => hk.delete_returns hcount hfuel) hchildren.1 hchildren.2
          (by omega)
      · rename_i hflags
        simp only [if_neg hflags]
        subst hchildren
        exact ⟨k, rfl, h⟩

end Revoked

/-- The capability in a slot can be revoked. -/
structure Revocable (k : Kernel) (slot : SlotPtr) (argument : Nat) (c : SlotPtr) : Prop where
  slot : k.nodeSlot slot argument = some c
  live : k.space.Live c
  notNode : (k.space.slots c).handlers ≠ some .node
  derivable : k.space.Derivable c
  heapManaged : (k.space.slots c).flags.isHeapManaged = true

/-- What a revocation of `c` does. -/
structure RevokesFrom (k : Kernel) (c : SlotPtr) (k' : Kernel) : Prop where
  outside : k' = { k with space := k'.space }
  objects : k'.space.objects = k.space.objects
  nodes : k'.space.nodes = k.space.nodes
  live : ∀ q, k'.space.Live q ↔ k.space.Live q ∧ ¬k.space.DerivedFrom q c
  emptied : ∀ q, k.space.DerivedFrom q c → (k'.space.slots q).handlers = none
  kept : ∀ q, ¬k.space.DerivedFrom q c → k'.space.slots q = { k.space.slots q with
    resourceList := (k'.space.slots q).resourceList
    derivation := (k'.space.slots q).derivation }
  resourceLists : k'.space.ResourceLists
  derivationLists : k'.space.DerivationLists
  others : ∀ b, b ≠ k.space.resource c → k'.space.updateRefs b = k.space.updateRefs b
  first : k.space.OwnedByFirst c → k'.space.OwnedByFirst c

/-- `derivation` of the revoked capability is set to null. -/
def forgetDerivation (k : Kernel) (c : SlotPtr) : Kernel :=
  k.modifySlot c fun c => { c with derivation := none }

theorem forgetDerivation_slots (k : Kernel) (c q : SlotPtr) :
    (k.forgetDerivation c).space.slots q =
      if q = c then { k.space.slots q with derivation := none } else k.space.slots q := by
  cases decEq q c with
  | isTrue hqc => simp [forgetDerivation, modifySlot, Space.modifySlot, hqc]
  | isFalse hqc => simp [forgetDerivation, modifySlot, Space.modifySlot, hqc]

theorem forgetDerivation_of_none (h : (k.space.slots c).derivation = none) :
    k.forgetDerivation c = k := by
  have hslots : (k.forgetDerivation c).space.slots = k.space.slots := by
    funext q
    rw [forgetDerivation_slots]
    split
    · rename_i hqc
      rw [hqc, ← h]
    · rfl
  have hspace : (k.forgetDerivation c).space =
      { k.space with slots := (k.forgetDerivation c).space.slots } := rfl
  have hrest : k.forgetDerivation c = { k with space := (k.forgetDerivation c).space } := rfl
  rw [hrest, hspace, hslots]

theorem forgetDerivation_same (k : Kernel) (c : SlotPtr) :
    k.space.SameResources (k.forgetDerivation c).space := by
  change k.space.SameResources (k.space.modifySlot c fun c => { c with derivation := none })
  exact .modifySlot k.space c rfl rfl rfl

theorem forgetDerivation_derives (k : Kernel) (c q : SlotPtr) :
    ((k.forgetDerivation c).space.slots q).flags = (k.space.slots q).flags ∧
      ((k.forgetDerivation c).space.slots q).derivedFrom = (k.space.slots q).derivedFrom ∧
      ((k.forgetDerivation c).space.slots q).derivationList =
        (k.space.slots q).derivationList := by
  rw [forgetDerivation_slots]
  split <;> exact ⟨rfl, rfl, rfl⟩

/-- The lists that do not hang below `p` are as they were. -/
theorem derivationLists_of_pruned {s s' : Space} (h : s.DerivationLists) (hp : s.Live p)
    (hlive : ∀ q, s'.Live q ↔ s.Live q ∧ ¬s.DerivedFrom q p)
    (hresource : ∀ q, s'.resource q = s.resource q)
    (hflags : ∀ q, (s'.slots q).flags = (s.slots q).flags)
    (hfrom : ∀ q, (s'.slots q).derivedFrom = (s.slots q).derivedFrom)
    (hlinks : ∀ q, (s'.slots q).derivationList = (s.slots q).derivationList)
    (hother : ∀ q, q ≠ p → (s'.slots q).derivation = (s.slots q).derivation)
    (hself : (s'.slots p).derivation = none) : s'.DerivationLists := by
  have hchild : ∀ q r, s'.ChildOf q r → s.ChildOf q r := by
    intro q r hq
    obtain ⟨hq, hr, hparent⟩ := hq
    exact ⟨((hlive q).mp hq).1, ((hlive r).mp hr).1, (hfrom q).symm.trans hparent⟩
  constructor
  · intro r hr hderivable
    obtain ⟨hr, hkept⟩ := (hlive r).mp hr
    cases decEq r p with
    | isTrue hrp =>
        subst hrp
        refine ⟨[], ⟨.nil, trivial, trivial, by simp, by simp⟩, hself, fun q => ?_⟩
        simp only [List.not_mem_nil, false_iff]
        intro hq
        exact ((hlive q).mp hq.1).2 (.single (hchild q r hq))
    | isFalse hrp =>
        have hderivable : s.Derivable r := by
          unfold Space.Derivable at hderivable ⊢
          rw [← hflags r]
          exact hderivable
        obtain ⟨xs, hxs, hhead, hmem⟩ := h.lists r hr hderivable
        refine ⟨xs, hxs.congr fun q _ => hlinks q, (hother r hrp).trans hhead, fun q => ?_⟩
        rw [hmem]
        refine ⟨fun hq => ?_, hchild q r⟩
        have hkeptChild : ¬s.DerivedFrom q p := by
          intro hderived
          cases h.derivedFrom_iff.mp hderived with
          | inl hqp => exact hrp (hq.parent_eq hqp)
          | inr hqm =>
              obtain ⟨m, hqm, hmp⟩ := hqm
              exact hkept (hq.parent_eq hqm ▸ .single hmp)
        exact ⟨(hlive q).mpr ⟨hq.1, hkeptChild⟩, (hlive r).mpr ⟨hr, hkept⟩,
          (hfrom q).trans hq.2.2⟩
  · intro r q hq
    rw [hresource, hresource]
    exact h.resource r q (hchild q r hq)
  · intro r q hq
    rw [hflags]
    exact h.notOriginal r q (hchild q r hq)
  · intro r q hq
    rw [hflags, hflags]
    exact h.levels r q (hchild q r hq)

/-- Everything derived from `p` is deleted. -/
theorem Revoked.revokesFrom {all : List SlotPtr} (h : Revoked k₀ p all [] k)
    (hd : k₀.space.DerivationLists) (hp : k₀.space.Live p)
    (hmem : ∀ q, q ∈ all ↔ k₀.space.DerivedFrom q p) :
    k₀.RevokesFrom p (k.forgetDerivation p) := by
  have hsame := forgetDerivation_same k p
  have hderives := forgetDerivation_derives k p
  have hlive : ∀ q, (k.forgetDerivation p).space.Live q ↔
      k₀.space.Live q ∧ ¬k₀.space.DerivedFrom q p := by
    intro q
    rw [hsame.live_iff, h.live_iff, hmem]
    simp
  constructor
  · unfold forgetDerivation modifySlot
    rw [h.outside]
  · exact h.objects
  · exact h.nodes
  · exact hlive
  · intro q hq
    rw [hsame.handlers, h.handlers]
    simp [(hmem q).mpr hq]
  · intro q hq
    have hkept : q ∉ all := fun hin => hq ((hmem q).mp hin)
    rw [forgetDerivation_slots, h.slots q]
    split <;> simp [hkept]
  · exact h.lists.congr hsame
  · apply derivationLists_of_pruned hd hp hlive
    · exact fun q => (hsame.resource q).trans (h.resource_eq q)
    · exact fun q => (hderives q).1.trans (h.derivation q).flags
    · exact fun q => (hderives q).2.1.trans (h.derivation q).derivedFrom
    · exact fun q => (hderives q).2.2.trans (h.derivation q).derivationList
    · intro q hq
      rw [forgetDerivation_slots, if_neg hq]
      exact (h.derivation q).derivation
    · rw [forgetDerivation_slots, if_pos rfl]
  · exact h.others
  · intro hfirst
    obtain ⟨first, hstart, hlive, hupdate⟩ := h.first hfirst
    refine ⟨first, ?_, (hsame.live_iff first).mpr hlive, ?_⟩
    · rw [forgetDerivation_slots, if_pos rfl]
      exact hstart
    · rw [hsame.resource]
      refine hupdate.trans (congrArg UpdateRef.capability ?_)
      rw [forgetDerivation_slots]
      split <;> rfl

/-- A revocation ends, and it deletes what is derived from the capability and nothing
else. -/
theorem nodeRevoke_revokesFrom {argument : Nat} (h : k.space.ResourceLists)
    (hd : k.space.DerivationLists) (hc : k.Revocable slot argument c) :
    ∃ bound, ∀ fuel, bound ≤ fuel → ∃ k',
      k.nodeRevoke fuel slot argument = some (0, k') ∧ k.RevokesFrom c k' := by
  obtain ⟨xs, children, hderives, hmem⟩ := hd.derivesOwn hc.live hc.derivable
  obtain ⟨n, hcount⟩ := h.count hc.live
  refine ⟨n + 1, fun fuel hfuel => ?_⟩
  have hbegin : Revoked k c (Space.revoked xs children) (Space.revoked xs children ++ []) k := by
    rw [List.append_nil]
    exact .refl h hc.live hderives.nodup hderives.own
  have hflags : ((k.space.slots c).flags.badged || (k.space.slots c).flags.original) = true := by
    have hderivable := hc.derivable
    unfold Space.Derivable at hderivable
    simp only [Bool.or_eq_true]
    exact hderivable.symm
  have hfirst := hderives.first
  unfold Space.DerivationList at hfirst
  unfold nodeRevoke
  simp only [hc.slot, if_neg hc.live.2, hc.notNode, hflags, Bool.not_true, Bool.false_eq_true,
    or_self, if_false]
  cases hhead : (k.space.slots c).derivation with
  | none =>
      simp only [hhead] at hfirst
      subst hfirst
      have hnothing := hbegin.revokesFrom hd hc.live hmem
      rw [forgetDerivation_of_none hhead] at hnothing
      exact ⟨k, rfl, hnothing⟩
  | some d =>
      simp only [hhead] at hfirst
      have hround : ∀ q todo k₁, q ∈ xs →
          Revoked k c (Space.revoked xs children) (children q ++ q :: todo) k₁ →
          ∃ k₂, ((k₁.revokeDerived fuel q).bind fun k => deleteCapability fuel k q) = some k₂ ∧
            Revoked k c (Space.revoked xs children) todo k₂ := by
        intro q todo k₁ hq hk₁
        obtain ⟨k₂, hchildren, hk₂⟩ :=
          hk₁.revokeDerived_returns (hderives.second q hq) hcount hfuel
        obtain ⟨k₃, hdelete, hk₃⟩ := hk₂.delete_returns hcount hfuel
        exact ⟨k₃, by simp only [hchildren, Option.bind_some, hdelete], hk₃⟩
      have hlength := hbegin.length_le hcount
      have hshort := Space.length_le_revoked xs children
      rw [List.append_nil] at hlength
      have hloop : xs.length ≤ fuel := by omega
      obtain ⟨k', hiter, hend⟩ := hbegin.iterDerivationList_returns children hround hfirst.1
        hfirst.2 hloop
      refine ⟨k'.forgetDerivation c, ?_, hend.revokesFrom hd hc.live hmem⟩
      rw [Option.map_eq_some_iff]
      exact ⟨k', hiter, rfl⟩

/-- Capabilities to an endpoint: an original, a badged copy of it, and a copy of that. -/
def badgedTree : Kernel :=
  { zero with space := {
      slots
        | .root 8 => { Capability.zero with
            handlers := some .node
            resource := 16
            flags := ⟨true, false, true⟩
            resourceList := ⟨some (.root 8), some (.root 8), none, none⟩ }
        | .node 16 0 => { Capability.zero with
            handlers := some .endpoint
            resource := 32
            flags := ⟨true, false, true⟩
            resourceList := ⟨some (.node 16 0), some (.node 16 2), none, some (.node 16 1)⟩
            derivation := some (.node 16 1) }
        | .node 16 1 => { Capability.zero with
            handlers := some .endpoint
            resource := 32
            flags := ⟨true, true, false⟩
            badge := 1
            resourceList :=
              ⟨some (.node 16 0), some (.node 16 2), some (.node 16 0), some (.node 16 2)⟩
            derivationList := ⟨some (.node 16 1), some (.node 16 1), none, none⟩
            derivedFrom := some (.node 16 0)
            derivation := some (.node 16 2) }
        | .node 16 2 => { Capability.zero with
            handlers := some .endpoint
            resource := 32
            flags := ⟨true, false, false⟩
            badge := 1
            resourceList := ⟨some (.node 16 0), some (.node 16 2), some (.node 16 1), none⟩
            derivationList := ⟨some (.node 16 2), some (.node 16 2), none, none⟩
            derivedFrom := some (.node 16 1) }
        | _ => Capability.zero
      nodes := fun _ => ⟨2, 1⟩
      updateRefs := fun _ => .capability .zero
      objects := fun b =>
        if b = 8 then some .thread
        else if b = 16 then some .node
        else if b = 32 then some .endpoint
        else none } }

theorem badgedTree_live (p : SlotPtr) : badgedTree.space.Live p ↔
    p ∈ [SlotPtr.root 8, .node 16 0, .node 16 1, .node 16 2] := by
  constructor
  · intro hp
    have hfull := hp.2
    revert hfull
    simp only [badgedTree]
    split <;> simp [Capability.zero]
  · intro hp
    revert p
    decide

theorem badgedTree_resourceLists : badgedTree.space.ResourceLists := by
  have hroot : DList badgedTree.space.resourceLinks [SlotPtr.root 8] := by
    constructor <;> simp [badgedTree, Space.resourceLinks]
  have hendpoint : DList badgedTree.space.resourceLinks
      [SlotPtr.node 16 0, .node 16 1, .node 16 2] := by
    constructor <;> simp [badgedTree, Space.resourceLinks]
  have hmem : ∀ q, (q ∈ [SlotPtr.root 8] ↔
      badgedTree.space.Live q ∧ badgedTree.space.resource q = 16) ∧
      (q ∈ [SlotPtr.node 16 0, .node 16 1, .node 16 2] ↔
        badgedTree.space.Live q ∧ badgedTree.space.resource q = 32) := by
    intro q
    rw [badgedTree_live]
    simp only [List.mem_cons, List.not_mem_nil, or_false]
    constructor
    · constructor
      · rintro rfl
        exact ⟨.inl rfl, rfl⟩
      · rintro ⟨rfl | rfl | rfl | rfl, hresource⟩ <;> first | rfl | cases hresource
    · constructor
      · rintro (rfl | rfl | rfl) <;> exact ⟨by simp, rfl⟩
      · rintro ⟨rfl | rfl | rfl | rfl, hresource⟩ <;> first | cases hresource; done | simp
  constructor
  · intro p hp
    have hp := (badgedTree_live p).mp hp
    simp only [List.mem_cons, List.not_mem_nil, or_false] at hp
    cases hp with
    | inl hp =>
        subst hp
        exact ⟨_, hroot, fun q => (hmem q).1⟩
    | inr hp =>
        have hresource : badgedTree.space.resource p = 32 := by
          rcases hp with rfl | rfl | rfl <;> rfl
        exact ⟨_, hendpoint, fun q => hresource ▸ (hmem q).2⟩
  · intro p handlers hp hhandlers
    have hp := (badgedTree_live p).mp hp
    simp only [List.mem_cons, List.not_mem_nil, or_false] at hp
    rcases hp with rfl | rfl | rfl | rfl <;> cases hhandlers <;> exact ⟨by decide, rfl⟩
  · intro t ht
    simp only [badgedTree] at ht
    split at ht
    · rename_i h8
      subst h8
      exact ⟨rfl, rfl⟩
    · split at ht
      · cases ht
      · split at ht <;> cases ht

theorem badgedTree_childOf (p q : SlotPtr) : badgedTree.space.ChildOf q p ↔
    (q = .node 16 1 ∧ p = .node 16 0) ∨ (q = .node 16 2 ∧ p = .node 16 1) := by
  unfold Space.ChildOf
  rw [badgedTree_live, badgedTree_live]
  simp only [List.mem_cons, List.not_mem_nil, or_false]
  constructor
  · rintro ⟨rfl | rfl | rfl | rfl, -, hparent⟩ <;> cases hparent <;> simp
  · rintro (⟨rfl, rfl⟩ | ⟨rfl, rfl⟩) <;> exact ⟨by simp, by simp, rfl⟩

theorem badgedTree_derivationLists : badgedTree.space.DerivationLists := by
  constructor
  · intro p hp hderivable
    have hp := (badgedTree_live p).mp hp
    simp only [List.mem_cons, List.not_mem_nil, or_false] at hp
    rcases hp with rfl | rfl | rfl | rfl
    · exact ⟨[], ⟨.nil, trivial, trivial, by simp, by simp⟩, rfl, by simp [badgedTree_childOf]⟩
    · exact ⟨[.node 16 1], dlist_singleton.mpr rfl, rfl, by simp [badgedTree_childOf]⟩
    · exact ⟨[.node 16 2], dlist_singleton.mpr rfl, rfl, by simp [badgedTree_childOf]⟩
    · cases hderivable <;> contradiction
  · intro p q hq
    rcases (badgedTree_childOf p q).mp hq with ⟨rfl, rfl⟩ | ⟨rfl, rfl⟩ <;> rfl
  · intro p q hq
    rcases (badgedTree_childOf p q).mp hq with ⟨rfl, rfl⟩ | ⟨rfl, rfl⟩ <;> rfl
  · intro p q hq
    rcases (badgedTree_childOf p q).mp hq with ⟨rfl, rfl⟩ | ⟨rfl, rfl⟩
    · exact .inl rfl
    · exact .inr ⟨rfl, rfl⟩

theorem badgedTree_revokesFrom : ∃ bound, ∀ fuel, bound ≤ fuel → ∃ k',
    badgedTree.nodeRevoke fuel (.root 8) 0 = some (0, k') ∧
      badgedTree.RevokesFrom (.node 16 0) k' := by
  apply nodeRevoke_revokesFrom badgedTree_resourceLists badgedTree_derivationLists
  exact ⟨rfl, (badgedTree_live _).mpr (by simp), by decide, .inl rfl, rfl⟩

end Kernel

end Cenix
