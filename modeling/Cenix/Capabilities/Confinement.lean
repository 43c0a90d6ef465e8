import Cenix.Capabilities.Badges

namespace Cenix

open LinkedLists

/-! What a thread can reach on its own. -/

namespace Space

/-- The slots that are reached from `root`. -/
inductive Holds (s : Space) (root : SlotPtr) : SlotPtr → Prop
  | root : s.Holds root root
  | slot {p : SlotPtr} {i : Nat} (h : s.Holds root p) (hnode : (s.slots p).handlers = some .node)
      (hi : i < 2 ^ (s.nodes (s.slots p).resource).slotBits) :
      s.Holds root (.node (s.slots p).resource i)

variable {s s' : Space} {root p : SlotPtr}

theorem resolveFrom_holds {useFirstNonNode : Bool} {fuel : Nat} {node : Addr}
    {address depth actualDepth d : Nat}
    (hslots : ∀ i, i < 2 ^ (s.nodes node).slotBits → s.Holds root (.node node i))
    (h : s.resolveFrom useFirstNonNode fuel node address depth actualDepth = some (some (p, d))) :
    s.Holds root p := by
  induction fuel generalizing node address depth actualDepth with
  | zero => cases h
  | succ fuel ih =>
      have hslot := hslots _ (maskAddress_lt address (s.nodes node).slotBits)
      simp only [resolveFrom] at h
      split at h
      · cases h
        exact hslot
      · split at h
        · cases h
        · rename_i hnext
          have hnode : (s.slots (.node node (maskAddress address
              (s.nodes node).slotBits))).handlers = some .node := by
            by_contra hother
            exact hnext (by simp [hother])
          exact ih (fun i hi => hslot.slot hnode hi) h

/-- A lookup only finds what is reached from where it begins. -/
theorem resolve_holds {fuel address depth d : Nat}
    (h : s.resolve fuel root address depth = some (some (p, d))) : s.Holds root p := by
  unfold resolve at h
  split at h
  · rename_i hnode
    exact resolveFrom_holds (fun i hi => Holds.root.slot hnode hi) h
  · cases h

end Space

namespace Kernel

variable {k k₀ k' : Kernel} {fuel address depth : Nat} {t : Addr} {p : SlotPtr}

/-- The capability space of a thread. -/
def HeldBy (k : Kernel) (t : Addr) (p : SlotPtr) : Prop :=
  k.space.Holds (.root t) p

theorem slotAt_held (ht : k.scheduler.currentThread = some t)
    (h : k.slotAt fuel address depth = some p) : k.HeldBy t p := by
  simp only [slotAt, ht, Option.bind_some, Option.map_eq_some_iff, Option.join_eq_some_iff] at h
  obtain ⟨⟨q, d⟩, hresolve, rfl⟩ := h
  exact Space.resolve_holds hresolve

/-- The steps that `t` takes, and those that leave the capabilities alone. -/
def TakenBy (t : Addr) (k : Kernel) : CapabilityOp → Prop
  | .invoke _ _ _ (.nodeCopy _) | .invoke _ _ _ (.nodeMove _) | .invoke _ _ _ (.nodeDelete _)
  | .invoke _ _ _ (.nodeRevoke _) => k.scheduler.currentThread = some t
  | .other _ => True
  | _ => False

/-- The slot holds a capability for the endpoint. -/
def IsFor (k : Kernel) (endpoint : Addr) (p : SlotPtr) : Prop :=
  (k.space.slots p).handlers = some .endpoint ∧ (k.space.slots p).resource = endpoint

/-- `t` has a capability for the endpoint with this badge. -/
def HoldsBadge (k : Kernel) (t endpoint : Addr) (badge : Nat) : Prop :=
  ∃ p, k.HeldBy t p ∧ k.IsFor endpoint p ∧ (k.space.slots p).badge = badge

/-- All of its capabilities for the endpoint are copies. -/
def HoldsCopies (k : Kernel) (t endpoint : Addr) : Prop :=
  ∀ p, k.HeldBy t p → k.IsFor endpoint p → (k.space.slots p).flags.original = false

/-- Every capability for the endpoint is one that there was at the beginning, or a copy
with a badge that `t` held then; and `t` has not reached anything new. -/
structure Confined (k₀ : Kernel) (t endpoint : Addr) (k : Kernel) : Prop where
  held : ∀ p, k.HeldBy t p → k₀.HeldBy t p
  capabilities : ∀ p, k.IsFor endpoint p →
    k.space.authority p = k₀.space.authority p ∨
      ((k.space.slots p).flags.original = false ∧
        k₀.HoldsBadge t endpoint (k.space.slots p).badge)

theorem isFor_iff {k : Kernel} {endpoint : Addr} : k.IsFor endpoint p ↔
    (k.space.authority p).handlers = some .endpoint ∧
      (k.space.authority p).resource = endpoint :=
  Iff.rfl

theorem TakenBy.onNodes {op : CapabilityOp} (h : TakenBy t k op) : op.OnNodes := by
  cases op with
  | other => trivial
  | populate => exact h.elim
  | transfer => trivial
  | invoke fuel address depth invocation =>
      cases invocation with
      | alloc => exact h.elim
      | setRootNode => exact h.elim
      | nodeCopy | nodeMove | nodeDelete | nodeRevoke => trivial

/-- What `t` passes on is in its capability space. -/
theorem TakenBy.source_held {op : CapabilityOp} {source dest : SlotPtr} (h : TakenBy t k op)
    (hpasses : k.passes op = some (source, dest)) : k.HeldBy t source := by
  cases op with
  | other | populate => cases hpasses
  | transfer => exact h.elim
  | invoke fuel address depth invocation =>
      cases invocation with
      | alloc | setRootNode | nodeDelete | nodeRevoke => cases hpasses
      | nodeCopy args | nodeMove args =>
          simp only [passes, Option.bind_eq_bind, Option.bind_eq_some_iff, Option.some.injEq,
            Prod.mk.injEq] at hpasses
          obtain ⟨slot, -, dest', -, source', hsource, rfl, rfl⟩ := hpasses
          exact slotAt_held h hsource

/-- No badge is set on the copy of a copy. -/
theorem passed_copy {op : CapabilityOp} {source : SlotPtr} {a : Authority}
    (hmay : k.MayPass source op) (hcopy : (k.space.slots source).flags.original = false)
    (ha : a.flags.original = false) :
    (k.passed op a).flags.original = false ∧ (k.passed op a).badge = a.badge := by
  unfold passed
  split
  · rename_i args
    have hno : args.shouldSetBadge = false := by
      by_contra hset
      have horiginal := hmay.2 (by simpa using hset)
      rw [hcopy] at horiginal
      cases horiginal
    simp [Authority.badged, hno, Authority.copied]
  · split
    · exact ⟨rfl, rfl⟩
    · exact ⟨ha, rfl⟩
  · exact ⟨ha, rfl⟩

theorem confined_refl (k : Kernel) (t endpoint : Addr) : Confined k t endpoint k :=
  ⟨fun _ h => h, fun _ _ => .inl rfl⟩

/-- What `t` holds of the endpoint are copies with badges that it held at the beginning. -/
theorem Confined.copy {endpoint : Addr} (h : Confined k₀ t endpoint k)
    (hcopies : k₀.HoldsCopies t endpoint) (hheld : k.HeldBy t p) (hfor : k.IsFor endpoint p) :
    (k.space.slots p).flags.original = false ∧
      k₀.HoldsBadge t endpoint (k.space.slots p).badge := by
  cases h.capabilities p hfor with
  | inr hcopy => exact hcopy
  | inl hsame =>
      have hbefore := h.held p hheld
      have hflags : (k.space.slots p).flags = (k₀.space.slots p).flags :=
        congrArg Authority.flags hsame
      have hbadge : (k.space.slots p).badge = (k₀.space.slots p).badge :=
        congrArg Authority.badge hsame
      have hfor₀ : k₀.IsFor endpoint p := by
        rw [isFor_iff] at hfor ⊢
        rwa [hsame] at hfor
      exact ⟨hflags ▸ hcopies p hbefore hfor₀, p, hbefore, hfor₀, hbadge.symm⟩

/-- A step of `t` does not extend its capability space. -/
theorem held_of_step {op : CapabilityOp} (hop : TakenBy t k op)
    (h : k.capabilityStep op = some k') (hp : k'.HeldBy t p) : k.HeldBy t p := by
  -- along the path to `p` in the new space, which only runs through known capabilities
  induction hp with
  | root => exact .root
  | slot hq hnode hi ih =>
      rename_i q i
      have hoccupied : (k'.space.slots q).handlers ≠ none := by simp [hnode]
      have hsame : ∀ r, k.HeldBy t r → (k'.space.authority q).handlers =
          (k.space.authority r).handlers → (k'.space.authority q).resource =
          (k.space.authority r).resource →
          (∀ b, (k'.space.nodes b).slotBits = (k.space.nodes b).slotBits) →
          k.HeldBy t (.node (k'.space.slots q).resource i) := by
        intro r hr hhandlers hresource hbits
        have hresource' : (k'.space.slots q).resource = (k.space.slots r).resource := hresource
        rw [hresource', hbits] at hi
        rw [hresource']
        exact hr.slot (hhandlers.symm.trans hnode) hi
      cases capabilityStep_passes hop.onNodes h with
      | inl hempty =>
          have hkept := occupied_of_kept (hempty.authority q) hoccupied
          exact hsame q ih (by rw [hkept]) (by rw [hkept]) hempty.slotBits
      | inr hpass =>
          obtain ⟨source, dest, hpass⟩ := hpass
          cases decEq q dest with
          | isFalse hne =>
              have hkept := occupied_of_kept (hpass.passed.other q hne) hoccupied
              exact hsame q ih (by rw [hkept]) (by rw [hkept]) hpass.passed.slotBits
          | isTrue heq =>
              subst heq
              have hsource := hop.source_held hpass.passes
              refine hsame source hsource ?_ ?_ hpass.passed.slotBits
              · rw [hpass.passed.filled, passed_handlers]
              · rw [hpass.passed.filled, passed_resource]

theorem Confined.step {endpoint : Addr} {op : CapabilityOp} (h : Confined k₀ t endpoint k)
    (hcopies : k₀.HoldsCopies t endpoint) (hop : TakenBy t k op)
    (hstep : k.capabilityStep op = some k') : Confined k₀ t endpoint k' := by
  refine ⟨fun p hp => h.held p (held_of_step hop hstep hp), fun p hfor => ?_⟩
  have hoccupied : (k'.space.slots p).handlers ≠ none := by simp [hfor.1]
  have hkept : (k'.space.authority p = k.space.authority p ∨
      k'.space.authority p = (k.space.authority p).emptied) →
      k'.space.authority p = k₀.space.authority p ∨
        ((k'.space.slots p).flags.original = false ∧
          k₀.HoldsBadge t endpoint (k'.space.slots p).badge) := by
    intro hother
    have hsame := occupied_of_kept hother hoccupied
    have hflags : (k'.space.slots p).flags = (k.space.slots p).flags :=
      congrArg Authority.flags hsame
    have hbadge : (k'.space.slots p).badge = (k.space.slots p).badge :=
      congrArg Authority.badge hsame
    rw [hsame, hflags, hbadge]
    apply h.capabilities p
    rw [isFor_iff] at hfor ⊢
    rwa [hsame] at hfor
  cases capabilityStep_passes hop.onNodes hstep with
  | inl hempty => exact hkept (hempty.authority p)
  | inr hpass =>
      obtain ⟨source, dest, hpass⟩ := hpass
      cases decEq p dest with
      | isFalse hne => exact hkept (hpass.passed.other p hne)
      | isTrue heq =>
          subst heq
          have hsource := hop.source_held hpass.passes
          have hforSource : k.IsFor endpoint source := by
            rw [isFor_iff] at hfor ⊢
            rwa [hpass.passed.filled, passed_handlers, passed_resource] at hfor
          obtain ⟨hcopy, hbadge⟩ := h.copy hcopies hsource hforSource
          have hpassed := passed_copy (a := k.space.authority source) hpass.may hcopy hcopy
          have hflags : (k'.space.slots p).flags.original =
              (k.passed op (k.space.authority source)).flags.original :=
            congrArg (fun a => a.flags.original) hpass.passed.filled
          have hsameBadge : (k'.space.slots p).badge =
              (k.passed op (k.space.authority source)).badge :=
            congrArg Authority.badge hpass.passed.filled
          right
          rw [hflags, hsameBadge, hpassed.1, hpassed.2]
          exact ⟨rfl, hbadge⟩

/-! The badges of messages. -/

variable {e : Nat} {message : Addr} {slot : SlotPtr}

theorem deliver_badge (k : Kernel) (source dest : Addr) (badge : Nat) :
    ((k.deliver source dest badge).messages dest).badge = badge := by
  simp [deliver, modifyMessage]

theorem sendTo_badge {receiving : Addr} {badge : Nat}
    (h : k.sendTo fuel t receiving message badge = some k') :
    (k'.messages (k.threads receiving).messageBuffer).badge = badge := by
  simp only [sendTo, Option.map_eq_some_iff] at h
  obtain ⟨k₁, htransfer, rfl⟩ := h
  obtain ⟨s, kinds, bits, rfl⟩ := transferCapabilities_frame htransfer
  obtain ⟨threads, scheduler, hresume⟩ := resumeThread_frame _ receiving execModeBlocked
  rw [hresume]
  simp only [modifyThread, Function.update_self]
  rw [(setTransferred_buffer _ _ _ _).2]
  exact deliver_badge ..

theorem receiveFrom_badge {sending : Addr} (h : k.receiveFrom fuel t sending message = some k') :
    (k'.messages message).badge = (k.threads sending).sendingBadge := by
  simp only [receiveFrom, Option.map_eq_some_iff] at h
  obtain ⟨k₁, htransfer, rfl⟩ := h
  obtain ⟨s, kinds, bits, rfl⟩ := transferCapabilities_frame htransfer
  obtain ⟨threads, scheduler, hresume⟩ := resumeThread_frame _ sending execModeBlocked
  rw [hresume]
  simp only [modifyThread, Function.update_self]
  rw [(setTransferred_buffer _ _ _ _).2]
  exact deliver_badge ..

/-- The badge of the message that `t` has sent: of the delivered message, or of the one
that the next receiver gets from `t`. -/
def Sent (k k' : Kernel) (t endpoint : Addr) (badge : Nat) : Prop :=
  match (k.popReceiving endpoint).1 with
  | some receiving => (k'.messages (k.threads receiving).messageBuffer).badge = badge
  | none => (k'.threads t).sendingBadge = badge

theorem endpointSend_sent (ht : k.scheduler.currentThread = some t)
    (h : k.endpointSend fuel slot message = some (e, k')) :
    k.Sent k' t (k.space.slots slot).resource (k.space.slots slot).badge := by
  simp only [endpointSend, ht, Option.bind_some] at h
  unfold Sent
  generalize hpop : k.popReceiving (k.space.slots slot).resource = popped at h
  obtain ⟨receiving, k₁⟩ := popped
  cases receiving with
  | some receiving =>
      simp only [Option.map_eq_some_iff, Prod.mk.injEq] at h
      obtain ⟨k₂, hsend, -, rfl⟩ := h
      have hbuffer : (k₁.threads receiving).messageBuffer =
          (k.threads receiving).messageBuffer := by
        simp only [popReceiving, Prod.mk.injEq] at hpop
        rw [← hpop.2]
        rfl
      simp only [← hbuffer]
      exact sendTo_badge hsend
  | none =>
      cases h
      simp only [blockSending]
      have hkept : Unscheduled ThreadCapability.sendingBadge :=
        ⟨fun _ _ => rfl, fun _ _ => rfl, fun _ _ => rfl⟩
      rw [hkept.suspendThread]
      simp [setBlockedQueues, setBlockedSending, modifyThread]

end Kernel

/-- The badge of a copy is the one that its original had at the beginning, or a
`node_copy` of the original, which has the same resource, has set it. -/
structure BadgeRecord.Accounts (s : BadgeRecord) (p : SlotPtr) : Prop where
  resource : (s.kernel.space.slots p).resource = (s.begins (s.origins p)).resource
  badge : (s.kernel.space.slots p).flags.original = false →
    (s.kernel.space.slots p).badge = (s.begins (s.origins p)).badge ∨
      ∃ mint ∈ s.mints, mint.origin = s.origins p ∧
        mint.badge = (s.kernel.space.slots p).badge ∧ mint.source.flags.original = true ∧
        mint.source.resource = (s.kernel.space.slots p).resource

theorem BadgeRecord.Unforged.accounts {s : BadgeRecord} (h : s.Unforged) {p : SlotPtr}
    (hp : (s.kernel.space.slots p).handlers ≠ none) : s.Accounts p where
  resource := (h.stems p hp).resource
  badge hcopy := by
    cases (h.stems p hp).badge hcopy with
    | inl hsame => exact .inl hsame
    | inr hminted =>
        obtain ⟨mint, hmint, horigin, hbadge⟩ := hminted
        obtain ⟨hsource, horiginal⟩ := h.mints mint hmint
        refine .inr ⟨mint, hmint, horigin, hbadge, horiginal, ?_⟩
        rw [hsource, horigin]
        exact (h.stems p hp).resource.symm

namespace Kernel

theorem reaches_confined {endpoint : Addr} (hcopies : k₀.HoldsCopies t endpoint)
    (h : Reaches capabilityStep (TakenBy t) (· = k₀) k) : Confined k₀ t endpoint k := by
  induction h with
  | initial h =>
      subst h
      exact confined_refl _ t endpoint
  | step _ hop hstep ih => exact ih.step hcopies hop hstep

/-- Badges come from originals.  A thread that has only copies of the capabilities for
an endpoint gets no capability for it with another badge on its own, and its messages
carry the badges that it has. -/
theorem badges_unforgeable :
    (∀ slot resource handlers flags address,
      (newCapability slot resource handlers flags address).flags.original = true ∧
        (newCapability slot resource handlers flags address).badge = 0) ∧
    (∀ s, Reaches BadgeRecord.step (fun _ op => op.OnNodes) BadgeRecord.Begins s →
      ∀ p, (s.kernel.space.slots p).handlers ≠ none → s.Accounts p) ∧
    ∀ k₀ t endpoint, k₀.HoldsCopies t endpoint → ∀ k,
      Reaches capabilityStep (TakenBy t) (· = k₀) k →
        (∀ p, k.IsFor endpoint p → k.space.authority p = k₀.space.authority p ∨
          k₀.HoldsBadge t endpoint (k.space.slots p).badge) ∧
        (∀ p, k.HeldBy t p → k.IsFor endpoint p →
          (k.space.slots p).flags.original = false ∧
            k₀.HoldsBadge t endpoint (k.space.slots p).badge) ∧
        ∀ fuel address depth slot message e k', k.scheduler.currentThread = some t →
          k.slotAt fuel address depth = some slot → k.IsFor endpoint slot →
          k.endpointSend fuel slot message = some (e, k') →
            ∃ badge, k₀.HoldsBadge t endpoint badge ∧ k.Sent k' t endpoint badge ∧
              ∀ (k₁ k₂ : Kernel) receiver buffer, (k₁.threads t).sendingBadge = badge →
                k₁.receiveFrom fuel receiver t buffer = some k₂ →
                (k₂.messages buffer).badge = badge := by
  refine ⟨fun _ _ _ _ _ => ⟨rfl, rfl⟩, ?_, ?_⟩
  · exact fun s h p hp => (BadgeRecord.reaches_unforged h).accounts hp
  · intro k₀ t endpoint hcopies k hreach
    have hconfined := reaches_confined hcopies hreach
    refine ⟨fun p hfor => ?_, fun p hheld hfor => hconfined.copy hcopies hheld hfor, ?_⟩
    · exact (hconfined.capabilities p hfor).imp id fun hcopy => hcopy.2
    · intro fuel address depth slot message e k' ht hat hfor hsend
      obtain ⟨-, hbadge⟩ := hconfined.copy hcopies (slotAt_held ht hat) hfor
      refine ⟨_, hbadge, ?_, fun k₁ k₂ receiver buffer hstored hreceive => ?_⟩
      · have hsent := endpointSend_sent ht hsend
        rwa [hfor.2] at hsent
      · exact (receiveFrom_badge hreceive).trans hstored

/-- A thread with a node in a node, and a badged copy of a capability for the endpoint at
6. -/
def withCopy : Kernel :=
  let capability : SlotPtr → Handlers → Addr → Capability := fun p handlers resource =>
    newCapability p resource handlers .zero .zero
  let copy := { capability (.node 3 1) .endpoint 6 with
    flags := ⟨true, true, false⟩
    badge := 9 }
  { zero with
    scheduler := { zero.scheduler with currentThread := some 2 }
    space := { Space.zero with
      nodes := fun _ => ⟨1, 0⟩
      slots := fun p =>
        if p = .root 2 then capability (.root 2) .node 3
        else if p = .node 3 0 then capability (.node 3 0) .node 4
        else if p = .node 3 1 then copy
        else .zero } }

theorem withCopy_holdsCopies : withCopy.HoldsCopies 2 6 := by
  intro p _ hfor
  obtain ⟨hhandlers, -⟩ := hfor
  simp only [withCopy] at hhandlers ⊢
  split
  · rename_i hroot
    simp [hroot, newCapability] at hhandlers
  · split
    · rename_i hnode
      simp [hnode, newCapability] at hhandlers
    · split
      · rfl
      · rfl

/-- The copy that the thread makes has the badge of the one it had. -/
theorem badges_unforgeable_copy :
    ∃ k s, withCopy.capabilityStep (.invoke 8 0 1 (.nodeCopy ⟨1, 1, 0, 0xff, 7, false⟩)) =
        some k ∧ k.IsFor 6 (.node 4 0) ∧
      withCopy.HoldsBadge 2 6 (k.space.slots (.node 4 0)).badge ∧
      BadgeRecord.step ⟨withCopy, withCopy.space.authority, id, []⟩
        (.invoke 8 0 1 (.nodeCopy ⟨1, 1, 0, 0xff, 7, false⟩)) = some s ∧
      s.Accounts (.node 4 0) := by
  have hrun : (BadgeRecord.step ⟨withCopy, withCopy.space.authority, id, []⟩
      (.invoke 8 0 1 (.nodeCopy ⟨1, 1, 0, 0xff, 7, false⟩))).map (fun s =>
        decide ((s.kernel.space.slots (.node 4 0)).handlers = some .endpoint ∧
          (s.kernel.space.slots (.node 4 0)).resource = 6)) = some true := by decide +kernel
  simp only [Option.map_eq_some_iff, decide_eq_true_eq] at hrun
  obtain ⟨s, hs, hfor⟩ := hrun
  have hstep := hs
  simp only [BadgeRecord.step, Option.map_eq_some_iff] at hstep
  obtain ⟨k, hk, hkernel⟩ := hstep
  have hsame : s.kernel = k := by rw [← hkernel]
  rw [hsame] at hfor
  have htaken : TakenBy 2 withCopy (.invoke 8 0 1 (.nodeCopy ⟨1, 1, 0, 0xff, 7, false⟩)) := rfl
  have hreach : Reaches capabilityStep (TakenBy 2) (· = withCopy) k :=
    .step (.initial rfl) htaken hk
  have hbegins : BadgeRecord.Begins ⟨withCopy, withCopy.space.authority, id, []⟩ :=
    ⟨rfl, rfl, rfl⟩
  have hreaches : Reaches BadgeRecord.step (fun _ op => op.OnNodes) BadgeRecord.Begins s :=
    .step (.initial hbegins) htaken.onNodes hs
  have hheld := (badges_unforgeable.2.2 withCopy 2 6 withCopy_holdsCopies k hreach).1
    (.node 4 0) hfor
  have haccounts := badges_unforgeable.2.1 s hreaches (.node 4 0) (by simp [hsame, hfor.1])
  refine ⟨k, s, hk, hfor, ?_, hs, haccounts⟩
  cases hheld with
  | inr hbadge => exact hbadge
  | inl hbefore =>
      have hempty : (k.space.slots (.node 4 0)).handlers = none :=
        congrArg Authority.handlers hbefore
      rw [hfor.1] at hempty
      cases hempty

end Kernel

end Cenix
