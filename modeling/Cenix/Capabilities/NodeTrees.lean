import Cenix.Capabilities.Confinement
import Cenix.Capabilities.Readdressing
import Cenix.Capabilities.Walks
import Cenix.Grafting

namespace Cenix

open LinkedLists Grafting

/-! The slots that can be reached from the root capability of a thread. -/

namespace Space

variable {s s' : Space} {root p q slot source dest : SlotPtr} {fuel nesting : Nat}
  {address : AbsoluteCapabilityAddress}

/-- `q` is a slot of the node that `p` refers to. -/
def HasSlot (s : Space) (p q : SlotPtr) : Prop :=
  (s.slots p).handlers = some .node ∧
    ∃ i < 2 ^ (s.nodes (s.resource p)).slotBits, q = .node (s.resource p) i

/-- A slot is reached from one node to the next. -/
theorem holds_iff_below : s.Holds root q ↔ Below s.HasSlot root q := by
  constructor
  · intro h
    induction h with
    | root => exact .refl
    | slot _ hnode hi ih => exact ih.tail ⟨hnode, _, hi, rfl⟩
  · intro h
    induction h with
    | refl => exact .root
    | tail _ hstep ih =>
        obtain ⟨hnode, i, hi, rfl⟩ := hstep
        exact ih.slot hnode hi

theorem holds_eq_below : s.Holds = Below s.HasSlot :=
  funext fun _ => funext fun _ => propext holds_iff_below

theorem holds_of_hasSlot (h : s'.HasSlot = s.HasSlot) : s'.Holds = s.Holds := by
  rw [holds_eq_below, holds_eq_below, h]

/-- A capability space, in which every node is in one slot and none is in itself. -/
structure SlotTree (s : Space) (root : SlotPtr) : Prop where
  slots : ∀ q, s.Holds root q → s.Slot q
  tree : IsTree s.HasSlot root

@[elab_as_elim]
theorem SlotTree.induct (h : s.SlotTree root) {motive : SlotPtr → Prop}
    (hstep : ∀ p, s.Holds root p → (∀ q, s.HasSlot p q → motive q) → motive p)
    (hp : s.Holds root p) : motive p :=
  h.tree.induct (fun p hp ih => hstep p (holds_iff_below.mpr hp) ih) (holds_iff_below.mp hp)

/-! Lookups. -/

theorem SlotTree.nodeTree (h : s.SlotTree root) (hp : s.Holds root p)
    (hnode : (s.slots p).handlers = some .node) : s.NodeTree (s.resource p) := by
  revert hnode
  refine h.induct (fun p _ ih => ?_) hp
  exact fun hnode => .node fun i hi hslot => ih _ ⟨hnode, i, hi, rfl⟩ hslot

theorem lookUpCapability_settles (h : s.SlotTree root) (kinds : Addr → Kind)
    (address depth : Nat) :
    ∃ outcome, Settles (fun fuel => s.lookUpCapability fuel kinds root address depth) outcome ∧
      ∀ result, outcome.1 = some result → s.Holds root result.slot := by
  have hsettles : ∃ outcome,
      Settles (fun fuel => s.lookUpCapability fuel kinds root address depth) outcome := by
    by_cases hnode : (s.slots root).handlers = some .node
    · obtain ⟨enough, outcome, hreturns⟩ := (h.nodeTree .root hnode).lookUpFrom_returns
        (depth == sizeMax)
        (if (depth == sizeMax) = true then address else maskAddress address depth)
        depth 0 (heapLock kinds (s.resource root)).2 (heapLock kinds (s.resource root)).1
      refine ⟨outcome, enough, fun fuel hfuel => ?_⟩
      obtain ⟨more, rfl⟩ := Nat.exists_eq_add_of_le hfuel
      simp only [lookUpCapability, if_pos hnode]
      exact hreturns more
    · simp only [lookUpCapability, if_neg hnode]
      exact ⟨_, .of_eq fun _ => rfl⟩
  obtain ⟨outcome, hsettles⟩ := hsettles
  refine ⟨outcome, hsettles, fun result hresult => ?_⟩
  obtain ⟨fuel, hreturns⟩ := hsettles.returns
  have hfound := lookUpCapability_resolve fuel s kinds root address depth
  rw [hreturns, Option.map_some, hresult] at hfound
  exact resolve_holds hfound.symm

/-! New addresses. -/

namespace Readdressed

theorem resource_eq (h : Readdressed s s') (q : SlotPtr) : s'.resource q = s.resource q :=
  congrFun h.resource q

theorem hasSlot (h : Readdressed s s') : s'.HasSlot = s.HasSlot := by
  funext p q
  unfold HasSlot
  rw [h.handlers, h.resource_eq, h.slotBits]

theorem holds (h : Readdressed s s') : s'.Holds = s.Holds :=
  holds_of_hasSlot h.hasSlot

end Readdressed

theorem updateCapabilityAddresses_settles (h : s.SlotTree root) (hp : s.Holds root p) :
    ∀ s', Readdressed s s' → ∀ address nesting, ∃ s₁,
      Settles (fun fuel => s'.updateCapabilityAddresses fuel p address nesting) s₁ := by
  refine h.induct (fun p hp ih => ?_) hp
  intro s' hs address nesting
  have hbegin := hs.trans (readdressed_slot s' p address)
  generalize hs₁ : ((if (s'.slots p).resourceList.prev = none then
    s'.heapSetUpdateCapability (s'.slots p).resource address else s').modifySlot p
      fun c => { c with address := address }) = s₁ at hbegin
  by_cases hnode : (s.slots p).handlers = some .node
  · let block := s.resource p
    let node := s₁.nodes block
    let s₂ := { s₁ with
      nodes := Function.update s₁.nodes block { node with nestedNodes := nesting } }
    have hs₂ : Readdressed s s₂ := by
      refine hbegin.trans ⟨fun _ => ⟨_, rfl⟩, fun b => ?_, rfl⟩
      simp only [s₂, Function.update_apply]
      split
      · rename_i hb
        rw [hb]
      · rfl
    let step := fun fuel (s : Space) i =>
      if (s.slots (.node block i)).handlers = none then some s
      else s.updateCapabilityAddresses fuel (.node block i)
        { address with
          address := shiftLeft i address.depth ||| address.address
          depth := (address.depth + node.slotBits) % 2 ^ ptrBits }
        ((nesting + 1) % 256)
    have hstep : ∀ s₃, ∀ i ∈ List.range (2 ^ node.slotBits), Readdressed s s₃ →
        ∃ s₄, Settles (fun fuel => step fuel s₃ i) s₄ ∧ Readdressed s s₄ := by
      intro s₃ i hi hs₃
      by_cases hempty : (s₃.slots (.node block i)).handlers = none
      · refine ⟨s₃, .of_eq fun fuel => ?_, hs₃⟩
        simp only [step, if_pos hempty]
      · have hholds : s.HasSlot p (.node block i) := by
          refine ⟨hnode, i, ?_, rfl⟩
          rw [← hbegin.slotBits]
          exact List.mem_range.mp hi
        obtain ⟨s₄, hs₄⟩ := ih _ hholds s₃ hs₃ _ _
        simp only [step, if_neg hempty]
        refine ⟨s₄, hs₄, ?_⟩
        obtain ⟨fuel, hreturns⟩ := hs₄.returns
        exact hs₃.trans (updateCapabilityAddresses_readdressed hreturns)
    obtain ⟨s₄, hsettles, -⟩ := foldlM_settles hstep hs₂
    refine ⟨s₄, .of_succ (fun fuel => ?_) hsettles⟩
    have hhandlers : (s₁.slots p).handlers = some .node := (hbegin.handlers p).trans hnode
    have hblock : (s₁.slots p).resource = block := hbegin.resource_eq p
    rw [updateCapabilityAddresses]
    simp only [hs₁, hhandlers, if_true]
    rw [hblock]
  · refine ⟨s₁, .of_succ (g := fun _ => some s₁) (fun fuel => ?_) (.of_eq fun _ => rfl)⟩
    have hhandlers : (s₁.slots p).handlers ≠ some .node := by
      rw [hbegin.handlers]
      exact hnode
    unfold updateCapabilityAddresses
    simp only [hs₁, if_neg hhandlers]

/-! A capability is copied or moved from one tree to another. -/

/-- What is in `source` is in `dest` too, or instead, and nothing else has changed. -/
structure HandedOver (s : Space) (copied : Bool) (source dest : SlotPtr) (s' : Space) : Prop where
  filled : s'.authority dest =
    if copied then (s.authority source).copied else s.authority source
  left : s'.authority source =
    if copied then s.authority source else (s.authority source).emptied
  other : ∀ q, q ≠ source → q ≠ dest → s'.authority q = s.authority q
  slotBits : ∀ b, (s'.nodes b).slotBits = (s.nodes b).slotBits
  objects : s'.objects = s.objects

theorem copyCapability_handedOver {address depth : Nat} (hne : source ≠ dest)
    (h : s.copyCapability source dest address depth = some s') :
    HandedOver s true source dest s' := by
  obtain ⟨hobjects, hnodes, -⟩ := copyCapability_objects h
  have hpassed := copyCapability_passed h
  have hother : ∀ q, q ≠ dest → s'.authority q = s.authority q := fun q hq => by
    unfold authority
    rw [copyCapability_contents h, if_neg hq]
  exact ⟨hpassed.filled, hother source hne, fun q _ hq => hother q hq, hpassed.slotBits, hobjects⟩

theorem moveCapability_handedOver (hne : source ≠ dest)
    (h : s.moveCapability fuel source dest = some s') : HandedOver s false source dest s' := by
  obtain ⟨hobjects, hnodes, -⟩ := moveCapability_objects h
  have hcontents := moveCapability_contents hne h
  refine ⟨?_, ?_, fun q hsource hdest => ?_, fun b => by rw [hnodes], hobjects⟩
  · unfold authority
    rw [hcontents, if_neg hne.symm, if_pos rfl]
    rfl
  · unfold authority
    rw [hcontents, if_pos rfl]
    rfl
  · unfold authority
    rw [hcontents, if_neg hsource, if_neg hdest]

theorem slot_congr_bits (hobjects : s'.objects = s.objects)
    (hbits : ∀ b, (s'.nodes b).slotBits = (s.nodes b).slotBits) (q : SlotPtr) :
    s'.Slot q ↔ s.Slot q := by
  cases q with
  | node block i => simp only [Slot, hobjects, hbits]
  | root t => simp only [Slot, hobjects]

theorem hasSlot_congr (hbits : ∀ b, (s'.nodes b).slotBits = (s.nodes b).slotBits)
    (h : s'.authority p = s.authority q) (r : SlotPtr) : s'.HasSlot p r ↔ s.HasSlot q r := by
  have hhandlers : (s'.slots p).handlers = (s.slots q).handlers := congrArg Authority.handlers h
  have hresource : s'.resource p = s.resource q := congrArg Authority.resource h
  unfold HasSlot
  rw [hhandlers, hresource, hbits]

namespace HandedOver

variable {s₁ : Space} {copied : Bool}

theorem readdress (h : HandedOver s copied source dest s₁) (hs : Readdressed s₁ s') :
    HandedOver s copied source dest s' where
  filled := (hs.authority dest).trans h.filled
  left := (hs.authority source).trans h.left
  other q hsource hdest := (hs.authority q).trans (h.other q hsource hdest)
  slotBits b := (hs.slotBits b).trans (h.slotBits b)
  objects := hs.objects.trans h.objects

theorem slot_iff (h : HandedOver s copied source dest s') (q : SlotPtr) :
    s'.Slot q ↔ s.Slot q :=
  slot_congr_bits h.objects h.slotBits q

theorem live_iff (h : HandedOver s copied source dest s') (hsource : s.Live source)
    (hdest : s.Slot dest) (hne : source ≠ dest) (q : SlotPtr) :
    s'.Live q ↔ (s.Live q ∧ (q = source → copied = true)) ∨ q = dest := by
  unfold Live
  rw [h.slot_iff]
  by_cases hqs : q = source
  · subst hqs
    have hhandlers := congrArg Authority.handlers h.left
    change (s'.slots q).handlers = _ at hhandlers
    rw [hhandlers]
    cases copied with
    | true => simp [hne, authority, CapabilityContents.authority, contents, Capability.contents]
    | false => simp [hne, Authority.emptied]
  · by_cases hqd : q = dest
    · subst hqd
      have hhandlers := congrArg Authority.handlers h.filled
      change (s'.slots q).handlers = _ at hhandlers
      have hfull : (s'.slots q).handlers = (s.slots source).handlers := by
        rw [hhandlers]
        cases copied <;> rfl
      rw [hfull]
      simp [hdest, hsource.2]
    · have hhandlers : (s'.slots q).handlers = (s.slots q).handlers :=
        congrArg Authority.handlers (h.other q hqs hqd)
      rw [hhandlers]
      simp [hqs, hqd]

/-- Nodes are not copied. -/
theorem hasSlot_copied (h : HandedOver s true source dest s')
    (hsource : (s.slots source).handlers ≠ some .node)
    (hempty : (s.slots dest).handlers = none) : s'.HasSlot = s.HasSlot := by
  funext p q
  apply propext
  by_cases hpd : p = dest
  · subst hpd
    have hhandlers : (s'.slots p).handlers = (s.slots source).handlers :=
      congrArg Authority.handlers h.filled
    refine iff_of_false (fun hholds => hsource ?_) fun hholds => ?_
    · rw [← hhandlers]
      exact hholds.1
    · cases hempty.symm.trans hholds.1
  · by_cases hps : p = source
    · subst hps
      exact hasSlot_congr h.slotBits h.left q
    · exact hasSlot_congr h.slotBits (h.other p hps hpd) q

theorem holds_copied (h : HandedOver s true source dest s')
    (hsource : (s.slots source).handlers ≠ some .node)
    (hempty : (s.slots dest).handlers = none) : s'.Holds = s.Holds :=
  holds_of_hasSlot (h.hasSlot_copied hsource hempty)

theorem grafts (h : HandedOver s false source dest s') (hne : source ≠ dest)
    (hempty : (s.slots dest).handlers = none) : Grafts s.HasSlot s'.HasSlot source dest := by
  have hleaf : ∀ q, ¬s.HasSlot dest q := fun q hholds => by cases hempty.symm.trans hholds.1
  refine ⟨hleaf, fun p q => ?_⟩
  by_cases hpd : p = dest
  · subst hpd
    rw [hasSlot_congr h.slotBits h.filled]
    simp [hleaf]
  · by_cases hps : p = source
    · subst hps
      have hhandlers : (s'.slots p).handlers = none := congrArg Authority.handlers h.left
      refine iff_of_false (fun hholds => ?_) ?_
      · cases hhandlers.symm.trans hholds.1
      · rintro (⟨heq, -⟩ | ⟨hself, -⟩)
        · exact hpd heq
        · exact hself rfl
    · rw [hasSlot_congr h.slotBits (h.other p hps hpd)]
      simp [hpd, hps]

end HandedOver

/-- Two capability spaces without a common slot. -/
structure NodesApart (s : Space) (first second : SlotPtr) : Prop where
  firstTree : s.SlotTree first
  secondTree : s.SlotTree second
  disjoint : ∀ q, s.Holds first q → ¬s.Holds second q

namespace NodesApart

variable {first second : SlotPtr}

theorem apart (h : s.NodesApart first second) : Apart s.HasSlot first second :=
  ⟨h.firstTree.tree, h.secondTree.tree, holds_eq_below ▸ h.disjoint⟩

theorem ne (h : s.NodesApart first second) (hsource : s.Holds first source)
    (hdest : s.Holds second dest) : source ≠ dest :=
  fun heq => h.disjoint dest (heq ▸ hsource) hdest

theorem of_hasSlot (h : s.NodesApart first second) (hholds : s'.HasSlot = s.HasSlot)
    (hslot : ∀ q, s'.Slot q ↔ s.Slot q) : s'.NodesApart first second := by
  have heq := holds_of_hasSlot hholds
  have htree : ∀ root, s.SlotTree root → s'.SlotTree root := fun root htree =>
    ⟨fun q hq => (hslot q).mpr (htree.slots q (heq ▸ hq)), hholds ▸ htree.tree⟩
  exact ⟨htree first h.firstTree, htree second h.secondTree, heq ▸ h.disjoint⟩

theorem readdressed (h : s.NodesApart first second) (hs : Readdressed s s') :
    s'.NodesApart first second :=
  h.of_hasSlot hs.hasSlot (slot_congr_bits hs.objects hs.slotBits)

theorem copied (h : s.NodesApart first second) (hover : HandedOver s true source dest s')
    (hsource : (s.slots source).handlers ≠ some .node)
    (hempty : (s.slots dest).handlers = none) : s'.NodesApart first second :=
  h.of_hasSlot (hover.hasSlot_copied hsource hempty) hover.slot_iff

/-- The slot that a capability has moved from stays in its space. -/
theorem moved (h : s.NodesApart first second) (hover : HandedOver s false source dest s')
    (hsource : s.Holds first source) (hdest : s.Holds second dest)
    (hempty : (s.slots dest).handlers = none) :
    s'.NodesApart first second ∧ ¬s'.Holds second source ∧
      (∀ q, s'.Holds first q → s.Holds first q) ∧
      ∀ q, s.Holds second q → s'.Holds second q := by
  have hgrafts := hover.grafts (h.ne hsource hdest) hempty
  rw [holds_iff_below] at hsource hdest
  obtain ⟨hapart, hstays⟩ := hgrafts.apart h.apart hsource hdest
  have hfirst : ∀ q, s'.Holds first q → s.Holds first q := by
    intro q hq
    rw [holds_iff_below] at hq ⊢
    exact (hgrafts.below_first h.firstTree.tree hsource
      (fun hq => h.apart.disjoint dest hq hdest) hq).1
  have hsecond : ∀ q, s'.Holds second q → s.Holds second q ∨ s.Holds first q := by
    intro q hq
    rw [holds_iff_below] at hq
    rw [holds_iff_below, holds_iff_below]
    exact (hgrafts.below_second hq).imp_right fun hmoved =>
      hsource.trans hmoved.to_reflTransGen
  have hkept : ∀ q, s.Holds second q → s'.Holds second q := by
    intro q hq
    rw [holds_iff_below] at hq ⊢
    exact hgrafts.below_kept (h.apart.disjoint source hsource) hq
  refine ⟨⟨⟨fun q hq => ?_, hapart.firstTree⟩, ⟨fun q hq => ?_, hapart.secondTree⟩,
    holds_eq_below ▸ hapart.disjoint⟩, fun hq => hstays (holds_iff_below.mp hq), hfirst, hkept⟩
  · exact (hover.slot_iff q).mpr (h.firstTree.slots q (hfirst q hq))
  · exact (hover.slot_iff q).mpr ((hsecond q hq).elim (h.secondTree.slots q) (h.firstTree.slots q))

end NodesApart

end Space

end Cenix
