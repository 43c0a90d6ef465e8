import Cenix.Capabilities.SharedResources

namespace Cenix

open LinkedLists

/-! What a capability allows, and how it gets from one slot to another. -/

/-- A capability without its place and its relatives. -/
structure Authority where
  handlers : Option Handlers
  resource : Addr
  flags : CapFlags
  badge : Nat
  accessRights : BitVec 8

namespace Authority

/-- What is left of it in a slot that has been emptied. -/
def emptied (a : Authority) : Authority :=
  { a with handlers := none }

/-- What `copy_capability` makes of it. -/
def copied (a : Authority) : Authority :=
  { a with flags := { a.flags with original := false, badged := false } }

/-- What `node_copy` makes of it then. -/
def badged (a : Authority) (args : NodeCopyArgs) : Authority :=
  if args.shouldSetBadge then
    { a with badge := args.badge, flags := { a.flags with badged := true } }
  else
    a

@[simp] theorem badged_handlers (a : Authority) (args : NodeCopyArgs) :
    (a.badged args).handlers = a.handlers := by
  unfold badged
  split <;> rfl

@[simp] theorem badged_resource (a : Authority) (args : NodeCopyArgs) :
    (a.badged args).resource = a.resource := by
  unfold badged
  split <;> rfl

@[simp] theorem badged_accessRights (a : Authority) (args : NodeCopyArgs) :
    (a.badged args).accessRights = a.accessRights := by
  unfold badged
  split <;> rfl

@[simp] theorem badged_original (a : Authority) (args : NodeCopyArgs) :
    (a.badged args).flags.original = a.flags.original := by
  unfold badged
  split <;> rfl

end Authority

def CapabilityContents.authority (c : CapabilityContents) : Authority :=
  ⟨c.handlers, c.resource, c.flags, c.badge, c.accessRights⟩

namespace Space

def authority (s : Space) (p : SlotPtr) : Authority :=
  (s.contents p).authority

variable {s s' s₁ : Space} {source dest : SlotPtr} {fuel address depth : Nat} {a : Authority}

/-- Some capabilities may be gone, and the others are what they were. -/
structure Emptied (s s' : Space) : Prop where
  slotBits : ∀ b, (s'.nodes b).slotBits = (s.nodes b).slotBits
  authority : ∀ q, s'.authority q = s.authority q ∨ s'.authority q = (s.authority q).emptied

/-- What was in `source` is now in `dest`, as `a`; whether or not it still is in
`source`, nothing else is new. -/
structure Passed (s : Space) (dest : SlotPtr) (a : Authority) (s' : Space) : Prop where
  slotBits : ∀ b, (s'.nodes b).slotBits = (s.nodes b).slotBits
  filled : s'.authority dest = a
  other : ∀ q, q ≠ dest →
    s'.authority q = s.authority q ∨ s'.authority q = (s.authority q).emptied

theorem Emptied.refl (s : Space) : s.Emptied s :=
  ⟨fun _ => rfl, fun _ => .inl rfl⟩

theorem Emptied.trans (h : s.Emptied s₁) (h' : s₁.Emptied s') : s.Emptied s' where
  slotBits b := (h'.slotBits b).trans (h.slotBits b)
  authority q := by
    cases h'.authority q with
    | inl hsame =>
        rw [hsame]
        exact h.authority q
    | inr hempty =>
        rw [hempty]
        cases h.authority q with
        | inl hsame => exact .inr (by rw [hsame])
        | inr hempty' => exact .inr (by rw [hempty']; rfl)

/-- A change of the links of capabilities. -/
theorem emptied_of_slots (hnodes : s'.nodes = s.nodes)
    (hslots : ∀ q, (s'.slots q).contents = (s.slots q).contents) : s.Emptied s' :=
  ⟨fun b => by rw [hnodes], fun q => .inl (congrArg CapabilityContents.authority (hslots q))⟩

theorem emptied_steps : Kernel.DeletionSteps fun k k' => k.space.Emptied k'.space where
  trans _ _ _ := Emptied.trans
  space k k' h := h ▸ Emptied.refl k.space
  rederived k s h := emptied_of_slots h.nodes fun q => (h.slots q).contents
  leave fuel k p s h := by
    simp only [Kernel.leaveResourceList, Option.map_eq_some_iff] at h
    obtain ⟨links, -, rfl⟩ := h
    refine emptied_of_slots ?_ fun q => ?_
    · unfold Kernel.handOver
      simp only
      split <;> rfl
    · simp [setResourceLinks, Capability.contents, Kernel.handOver_slots]
  free k b := by
    unfold Kernel.freeResource
    split
    · exact .refl k.space
    · exact emptied_of_slots rfl fun _ => rfl
  empty k p := by
    refine ⟨fun _ => rfl, fun q => ?_⟩
    unfold authority contents
    rw [Kernel.emptySlot_slots]
    split
    · exact .inr rfl
    · exact .inl rfl

theorem updateCapabilityAddresses_authority {slot : SlotPtr}
    {address : AbsoluteCapabilityAddress} {nesting : Nat}
    (h : s.updateCapabilityAddresses fuel slot address nesting = some s') (q : SlotPtr) :
    s'.authority q = s.authority q := by
  induction fuel generalizing s slot address nesting s' with
  | zero => cases h
  | succ fuel ih =>
      unfold updateCapabilityAddresses at h
      simp only at h
      generalize hs₁ : (if (s.slots slot).resourceList.prev = none then
        s.heapSetUpdateCapability (s.slots slot).resource address else s) = s₁ at h
      have howner : s₁.slots = s.slots := by
        rw [← hs₁]
        split <;> rfl
      have hmoved : (s₁.modifySlot slot fun c => { c with address := address }).authority q =
          s.authority q := by
        unfold authority contents
        rw [← howner]
        cases decEq q slot with
        | isTrue hq =>
            simp [modifySlot, hq, Capability.contents, CapabilityContents.authority]
        | isFalse hq => simp [modifySlot, hq]
      split at h
      · refine foldlM_induct (motive := fun s' => s'.authority q = s.authority q) ?_ h hmoved
        intro s₂ i s₃ hs₂ hstep
        split at hstep
        · cases hstep
          exact hs₂
        · exact (ih hstep).trans hs₂
      · cases h
        exact hmoved

theorem Passed.readdress {slot : SlotPtr} {address : AbsoluteCapabilityAddress} {nesting : Nat}
    (h : s.Passed dest a s₁)
    (hupdate : s₁.updateCapabilityAddresses fuel slot address nesting = some s') :
    s.Passed dest a s' where
  slotBits b := ((updateCapabilityAddresses_same hupdate).slotBits b).trans (h.slotBits b)
  filled := (updateCapabilityAddresses_authority hupdate dest).trans h.filled
  other q hq := by
    rw [updateCapabilityAddresses_authority hupdate q]
    exact h.other q hq

theorem copyCapability_passed (h : s.copyCapability source dest address depth = some s') :
    s.Passed dest (s.authority source).copied s' := by
  have hcontents := copyCapability_contents h
  refine ⟨fun b => ?_, ?_, fun q hq => .inl ?_⟩
  · rw [(copyCapability_objects h).2.1]
  · unfold authority
    rw [hcontents, if_pos rfl]
    rfl
  · unfold authority
    rw [hcontents, if_neg hq]

/-- A move to the slot itself empties it. -/
theorem moveCapability_passed (hempty : (s.slots dest).handlers = none)
    (h : s.moveCapability fuel source dest = some s') :
    s.Passed dest (s.authority source) s' := by
  have hnodes := (moveCapability_objects h).2.1
  cases decEq source dest with
  | isFalse hne =>
      have hcontents := moveCapability_contents hne h
      refine ⟨fun b => by rw [hnodes], ?_, fun q hq => ?_⟩
      · have hne' : dest ≠ source := fun heq => hne heq.symm
        unfold authority
        rw [hcontents, if_neg hne', if_pos rfl]
      · unfold authority
        rw [hcontents, if_neg hq]
        split
        · exact .inr rfl
        · exact .inl rfl
  | isTrue heq =>
      subst heq
      obtain ⟨links, s₁, -, hderived, rfl⟩ := moveCapability_cases h
      have hsame : ∀ q, (s₁.modifySlot source fun c => { c with handlers := none }).authority q =
          s.authority q := by
        intro q
        have hcontents := (hderived.slots q).contents
        unfold authority contents
        cases decEq q source with
        | isFalse hq =>
            have hkept : (s₁.slots q).contents = (s.slots q).contents := by
              simpa [setResourceLinks, modifySlot, hq, Capability.contents] using hcontents
            simp [modifySlot, hq, hkept]
        | isTrue hq =>
            subst hq
            have hkept : (s₁.slots q).contents = (s.slots q).contents := by
              simpa [setResourceLinks, modifySlot, Capability.contents] using hcontents
            have hnone : (s.slots q).contents.handlers = none := hempty
            simp only [modifySlot, Function.update_self]
            simp only [Capability.contents, CapabilityContents.mk.injEq] at hkept
            simp [Capability.contents, CapabilityContents.authority, hkept, hempty]
      exact ⟨fun b => by rw [hnodes], hsame source, fun q _ => .inl (hsame q)⟩

end Space

/-- The invocations of nodes, the transfers, and what leaves the capabilities alone. -/
def CapabilityOp.OnNodes : CapabilityOp → Prop
  | .invoke _ _ _ (.nodeCopy _) | .invoke _ _ _ (.nodeMove _) | .invoke _ _ _ (.nodeDelete _)
  | .invoke _ _ _ (.nodeRevoke _) | .transfer .. | .other _ => True
  | _ => False

instance : (op : CapabilityOp) → Decidable op.OnNodes
  | .invoke _ _ _ (.nodeCopy _) | .invoke _ _ _ (.nodeMove _) | .invoke _ _ _ (.nodeDelete _)
  | .invoke _ _ _ (.nodeRevoke _) | .transfer .. | .other _ => isTrue trivial
  | .invoke _ _ _ (.alloc _ _) | .invoke _ _ _ (.setRootNode _) | .populate .. => isFalse id

namespace Kernel

/-- Where an operation takes a capability from and where it puts it. -/
def passes (k : Kernel) : CapabilityOp → Option (SlotPtr × SlotPtr)
  | .invoke fuel address depth (.nodeCopy args) => do
      let slot ← k.slotAt fuel address depth
      let dest ← k.nodeSlot slot args.destSlot
      let source ← k.slotAt fuel args.sourceAddress args.sourceDepth
      some (source, dest)
  | .invoke fuel address depth (.nodeMove args) => do
      let slot ← k.slotAt fuel address depth
      let dest ← k.nodeSlot slot args.destSlot
      let source ← k.slotAt fuel args.sourceAddress args.sourceDepth
      some (source, dest)
  | .transfer fuel sending receiving sentMessage recvBuffer i => do
      let source ← k.slotOf fuel sending ((k.messages sentMessage).capabilities.get i)
      let dest ← k.slotOf fuel receiving ((k.messages recvBuffer).capabilities.get i)
      some (source, dest)
  | _ => none

/-- What arrives there. -/
def passed (k : Kernel) (op : CapabilityOp) (a : Authority) : Authority :=
  match op with
  | .invoke _ _ _ (.nodeCopy args) => a.copied.badged args
  | .transfer _ _ _ sentMessage _ i =>
      if (k.messages sentMessage).toCopy.getLsbD i then a.copied else a
  | _ => a

@[simp] theorem passed_handlers (k : Kernel) (op : CapabilityOp) (a : Authority) :
    (k.passed op a).handlers = a.handlers := by
  unfold passed
  split
  · simp [Authority.copied]
  · split <;> rfl
  · rfl

@[simp] theorem passed_resource (k : Kernel) (op : CapabilityOp) (a : Authority) :
    (k.passed op a).resource = a.resource := by
  unfold passed
  split
  · simp [Authority.copied]
  · split <;> rfl
  · rfl

@[simp] theorem passed_accessRights (k : Kernel) (op : CapabilityOp) (a : Authority) :
    (k.passed op a).accessRights = a.accessRights := by
  unfold passed
  split
  · simp [Authority.copied]
  · split <;> rfl
  · rfl

/-- Nodes are not copied, and badges are only set on copies of original capabilities. -/
def MayPass (k : Kernel) (source : SlotPtr) : CapabilityOp → Prop
  | .invoke _ _ _ (.nodeCopy args) => (k.space.slots source).handlers ≠ some .node ∧
      (args.shouldSetBadge = true → (k.space.slots source).flags.original = true)
  | _ => True

/-- What an operation puts where. -/
structure PassesOn (k : Kernel) (op : CapabilityOp) (k' : Kernel) (source dest : SlotPtr) :
    Prop where
  passes : k.passes op = some (source, dest)
  empty : (k.space.slots dest).handlers = none
  may : k.MayPass source op
  passed : k.space.Passed dest (k.passed op (k.space.authority source)) k'.space

variable {fuel : Nat} {k k' : Kernel} {address depth e : Nat} {slot source dest : SlotPtr}

theorem setBadge_passed {s s' : Space} {args : NodeCopyArgs} {a : Authority}
    (h : s.Passed dest a s') : s.Passed dest (a.badged args) (setBadge s' dest args) := by
  unfold setBadge Authority.badged
  split
  · refine ⟨h.slotBits, ?_, fun q hq => ?_⟩
    · have hfilled := h.filled
      unfold Space.authority Space.contents at hfilled ⊢
      rw [← hfilled]
      simp [Space.modifySlot, Capability.contents, CapabilityContents.authority]
    · have hother := h.other q hq
      unfold Space.authority Space.contents at hother ⊢
      simpa [Space.modifySlot, hq] using hother
  · exact h

theorem setMovedAddress_passed {s s' : Space} {address depth : Nat} {a : Authority}
    (h : s.Passed dest a s') : s.Passed dest a (setMovedAddress s' dest address depth) := by
  have hsame : ∀ q, (setMovedAddress s' dest address depth).authority q = s'.authority q := by
    intro q
    have hslots : (setMovedAddress s' dest address depth).slots = (s'.modifySlot dest fun d =>
        { d with address := { d.address with address := address, depth := depth } }).slots := by
      unfold setMovedAddress
      simp only
      split <;> rfl
    unfold Space.authority Space.contents
    rw [hslots]
    cases decEq q dest with
    | isTrue hq => simp [Space.modifySlot, hq, Capability.contents, CapabilityContents.authority]
    | isFalse hq => simp [Space.modifySlot, hq]
  refine ⟨fun b => ?_, (hsame dest).trans h.filled, fun q hq => ?_⟩
  · rw [(Space.setMovedAddress_same s' dest address depth).slotBits]
    exact h.slotBits b
  · rw [hsame]
    exact h.other q hq

theorem nodeCopy_passes {kinds : Addr → Kind} {args : NodeCopyArgs}
    (hat : k.slotAt fuel address depth = some slot)
    (h : { k with kinds := kinds }.nodeCopy fuel address depth slot args = some (e, k')) :
    k.space.Emptied k'.space ∨
      ∃ source dest, k.PassesOn (.invoke fuel address depth (.nodeCopy args)) k' source dest := by
  cases nodeCopy_cases h with
  | inl hfailed =>
      obtain ⟨-, kinds, rfl⟩ := hfailed
      exact .inl (.refl k.space)
  | inr hdone =>
      obtain ⟨-, source, dest, s, kinds, hdest, hempty, hsource, hnode, hbadge, hs, rfl⟩ := hdone
      refine .inr ⟨source, dest, ?_, hempty, ⟨hnode, hbadge⟩, ?_⟩
      · have hdest' : k.nodeSlot slot args.destSlot = some dest := hdest
        have hsource' : k.slotAt fuel args.sourceAddress args.sourceDepth = some source := hsource
        simp [passes, hat, hdest', hsource']
      · exact setBadge_passed (Space.copyCapability_passed hs)

theorem nodeMove_passes {kinds : Addr → Kind} {args : NodeMoveArgs}
    (hat : k.slotAt fuel address depth = some slot)
    (h : { k with kinds := kinds }.nodeMove fuel address depth slot args = some (e, k')) :
    k.space.Emptied k'.space ∨
      ∃ source dest, k.PassesOn (.invoke fuel address depth (.nodeMove args)) k' source dest := by
  cases nodeMove_cases h with
  | inl hfailed =>
      obtain ⟨-, kinds, rfl⟩ := hfailed
      exact .inl (.refl k.space)
  | inr hdone =>
      obtain ⟨-, source, dest, s, kinds, hdest, hempty, hsource, hs, rfl⟩ := hdone
      refine .inr ⟨source, dest, ?_, hempty, trivial, ?_⟩
      · have hdest' : k.nodeSlot slot args.destSlot = some dest := hdest
        have hsource' : k.slotAt fuel args.sourceAddress args.sourceDepth = some source := hsource
        simp [passes, hat, hdest', hsource']
      · exact setMovedAddress_passed (Space.moveCapability_passed hempty hs)

theorem transferCapability_passes {sending receiving sentMessage recvBuffer : Addr}
    {i : Fin ipcCapabilitySlots}
    (h : k.transferCapability fuel sending receiving sentMessage recvBuffer i = some k') :
    k.space.Emptied k'.space ∨ ∃ source dest,
      k.PassesOn (.transfer fuel sending receiving sentMessage recvBuffer i) k' source dest := by
  cases transferCapability_cases h with
  | inl hnothing =>
      obtain ⟨kinds, rfl⟩ := hnothing
      exact .inl (.refl k.space)
  | inr hdone =>
      obtain ⟨source, dest, s, kinds, bits, hsource, hdest, -, -, hempty, hs, rfl⟩ := hdone
      have hpasses : k.passes (.transfer fuel sending receiving sentMessage recvBuffer i) =
          some (source, dest) := by
        simp only [passes, hsource, hdest, Option.bind_eq_bind, Option.bind_some]
      refine .inr ⟨source, dest, hpasses, hempty, trivial, ?_⟩
      simp only [transferSlot, Option.bind_eq_some_iff] at hs
      obtain ⟨s₁, hplace, hupdate⟩ := hs
      apply Space.Passed.readdress ?_ hupdate
      unfold passed
      simp only
      split at hplace
      · rename_i hcopy
        rw [if_pos hcopy]
        exact Space.copyCapability_passed hplace
      · rename_i hmove
        rw [if_neg hmove]
        exact Space.moveCapability_passed hempty hplace

/-- Everything that happens on nodes passes one capability on or takes some away. -/
theorem capabilityStep_passes {op : CapabilityOp} (hop : op.OnNodes)
    (h : k.capabilityStep op = some k') :
    k.space.Emptied k'.space ∨ ∃ source dest, k.PassesOn op k' source dest := by
  cases op with
  | other k₁ =>
      cases h
      exact .inl (.refl k.space)
  | transfer fuel sending receiving sentMessage recvBuffer i =>
      exact transferCapability_passes h
  | populate => exact hop.elim
  | invoke fuel address depth invocation =>
      simp only [capabilityStep, Option.map_eq_some_iff] at h
      obtain ⟨⟨e, k₁⟩, hinvoke, rfl⟩ := h
      cases invokeCapability_cases hinvoke with
      | inl hfailed =>
          obtain ⟨-, kinds, rfl⟩ := hfailed
          exact .inl (.refl k.space)
      | inr hhandled =>
          obtain ⟨slot, kinds, kinds', k₂, hat, -, hhandle, rfl⟩ := hhandled
          cases invocation with
          | alloc => exact hop.elim
          | setRootNode => exact hop.elim
          | nodeDelete =>
              have hempty : k.space.Emptied k₂.space := Space.emptied_steps.nodeDelete
                (k := { k with kinds := kinds }) hhandle
              exact .inl hempty
          | nodeRevoke =>
              have hempty : k.space.Emptied k₂.space := Space.emptied_steps.nodeRevoke
                (k := { k with kinds := kinds }) hhandle
              exact .inl hempty
          | nodeCopy args =>
              cases nodeCopy_passes hat hhandle with
              | inl hempty => exact .inl hempty
              | inr hpass =>
                  obtain ⟨source, dest, hpass⟩ := hpass
                  exact .inr ⟨source, dest, hpass.passes, hpass.empty, hpass.may, hpass.passed⟩
          | nodeMove args =>
              cases nodeMove_passes hat hhandle with
              | inl hempty => exact .inl hempty
              | inr hpass =>
                  obtain ⟨source, dest, hpass⟩ := hpass
                  exact .inr ⟨source, dest, hpass.passes, hpass.empty, hpass.may, hpass.passed⟩

/-! Records about capabilities that go with them from slot to slot. -/

/-- The records after an operation; a capability that has been passed on takes its
record along, changed by `change`. -/
def passOn {G : Type} (k k' : Kernel) (op : CapabilityOp) (change : G → G)
    (records : SlotPtr → G) : SlotPtr → G :=
  match k.passes op with
  | some (source, dest) =>
      if (k.space.slots dest).handlers = none ∧ (k'.space.slots dest).handlers ≠ none then
        Function.update records dest (change (records source))
      else
        records
  | none => records

variable {op : CapabilityOp} {G : Type} {change : G → G} {records : SlotPtr → G} {q : SlotPtr}

theorem passOn_emptied (h : k.space.Emptied k'.space) :
    k.passOn k' op change records = records := by
  unfold passOn
  split
  · rename_i source dest _
    split
    · rename_i hfilled
      cases h.authority dest with
      | inl hsame =>
          have hhandlers : (k'.space.slots dest).handlers = (k.space.slots dest).handlers :=
            congrArg Authority.handlers hsame
          exact absurd (hhandlers.trans hfilled.1) hfilled.2
      | inr hempty =>
          have hhandlers : (k'.space.slots dest).handlers = none :=
            congrArg Authority.handlers hempty
          exact absurd hhandlers hfilled.2
    · rfl
  · rfl

theorem PassesOn.passOn_dest (h : k.PassesOn op k' source dest)
    (hdest : (k'.space.slots dest).handlers ≠ none) :
    k.passOn k' op change records dest = change (records source) := by
  unfold passOn
  simp [h.passes, h.empty, hdest]

theorem PassesOn.passOn_other (h : k.PassesOn op k' source dest) (hq : q ≠ dest) :
    k.passOn k' op change records q = records q := by
  unfold passOn
  simp only [h.passes]
  split
  · simp [hq]
  · rfl

theorem occupied_of_kept {s s' : Space}
    (h : s'.authority q = s.authority q ∨ s'.authority q = (s.authority q).emptied)
    (hq : (s'.slots q).handlers ≠ none) : s'.authority q = s.authority q := by
  cases h with
  | inl hsame => exact hsame
  | inr hempty =>
      have hhandlers : (s'.slots q).handlers = none := congrArg Authority.handlers hempty
      exact absurd hhandlers hq

/-- An invariant of every record and its capability holds of all capabilities that
there are, when it holds of those that are passed on. -/
theorem records_invariant {motive : Authority → G → Prop} (hop : op.OnNodes)
    (h : k.capabilityStep op = some k')
    (hrecords : ∀ q, (k.space.slots q).handlers ≠ none →
      motive (k.space.authority q) (records q))
    (hpassed : ∀ source dest, k.PassesOn op k' source dest →
      (k.space.slots source).handlers ≠ none →
      motive (k.passed op (k.space.authority source)) (change (records source)))
    (hq : (k'.space.slots q).handlers ≠ none) :
    motive (k'.space.authority q) (k.passOn k' op change records q) := by
  have hkept : ∀ q, (k'.space.slots q).handlers ≠ none →
      (k'.space.authority q = k.space.authority q ∨
        k'.space.authority q = (k.space.authority q).emptied) →
      motive (k'.space.authority q) (records q) := by
    intro q hq hother
    have hsame := occupied_of_kept hother hq
    have hhandlers : (k'.space.slots q).handlers = (k.space.slots q).handlers :=
      congrArg Authority.handlers hsame
    rw [hsame]
    exact hrecords q (hhandlers ▸ hq)
  cases capabilityStep_passes hop h with
  | inl hempty =>
      rw [passOn_emptied hempty]
      exact hkept q hq (hempty.authority q)
  | inr hpass =>
      obtain ⟨source, dest, hpass⟩ := hpass
      cases decEq q dest with
      | isFalse hne =>
          rw [hpass.passOn_other hne]
          exact hkept q hq (hpass.passed.other q hne)
      | isTrue heq =>
          subst heq
          rw [hpass.passOn_dest hq, hpass.passed.filled]
          apply hpassed source q hpass
          have hhandlers : (k'.space.slots q).handlers =
              (k.passed op (k.space.authority source)).handlers :=
            congrArg Authority.handlers hpass.passed.filled
          rw [hhandlers, passed_handlers] at hq
          exact hq

end Kernel

end Cenix
