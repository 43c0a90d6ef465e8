import Cenix.Capabilities.NewObjects
import Cenix.Capabilities.Operations
import Cenix.Interrupts.Registers
import Cenix.Kernel.Deletion
import Cenix.Kernel.Untyped
import Cenix.Scheduler.Continuity

namespace Cenix

open LinkedLists

/-! `invoke_capability` with every table of handlers. -/

/-- What a system call depends on besides the kernel's own state: the memory of the
program, what its argument points to, and the heap's decisions and sizes. -/
structure Surroundings where
  memory : WordMemory 32
  nodeCopyArgs : BitVec 32 → NodeCopyArgs
  nodeMoveArgs : BitVec 32 → NodeMoveArgs
  setRootNodeArgs : BitVec 32 → IpcCapability
  readWriteRegisterArgs : BitVec 32 → ReadWriteRegisterArgs
  allocArgs : BitVec 32 → Kernel.AllocArgs
  placement : Placement
  heapSizeof : Addr → Nat

/-- No bit is set that only the supervisor may set. -/
def ThreadRegisters.UserMode (r : ThreadRegisters) : Prop :=
  r.statusRegister &&& 0xff00 = 0

instance (r : ThreadRegisters) : Decidable r.UserMode :=
  inferInstanceAs (Decidable (_ = _))

theorem ThreadRegisters.userMode_sanitizeRegisters (r : ThreadRegisters) :
    (sanitizeRegisters r).UserMode := by
  unfold UserMode sanitizeRegisters
  rw [BitVec.and_assoc]
  exact BitVec.and_zero

namespace Kernel

/-- The handlers of one table, in its order. -/
def invocationHandlers (around : Surroundings) (fuel : Nat) (address depth argument : BitVec 32) :
    Handlers → List (Kernel → SlotPtr → Option (Nat × Kernel))
  | .node =>
      [fun k slot => k.nodeCopy fuel address.toNat depth.toNat slot (around.nodeCopyArgs argument),
        fun k slot => k.nodeMove fuel address.toNat depth.toNat slot (around.nodeMoveArgs argument),
        fun k slot => k.nodeDelete fuel slot argument.toNat,
        fun k slot => k.nodeRevoke fuel slot argument.toNat]
  | .thread =>
      [fun k slot =>
          let args := around.readWriteRegisterArgs argument
          some ((k.readRegisters around.memory slot args).1,
            (k.readRegisters around.memory slot args).2.2),
        fun k slot =>
          some (k.writeRegisters around.memory slot (around.readWriteRegisterArgs argument)),
        fun k slot => some (k.resume slot),
        fun k slot => some (k.suspend slot),
        fun k slot => k.setRootNode fuel slot (around.setRootNodeArgs argument)]
  | .endpoint =>
      [fun k slot => k.endpointSend fuel slot argument.toNat,
        fun k slot => k.endpointReceive fuel slot argument.toNat]
  | .untyped =>
      [fun k slot => some (k.untypedLock slot),
        fun k slot => some (k.untypedUnlock slot),
        fun k slot => some (k.untypedTryLock slot),
        fun k slot => some (around.heapSizeof (k.space.slots slot).resource, k)]
  | .addressSpace =>
      [fun k slot => k.addressSpaceAlloc fuel slot around.placement (around.allocArgs argument)]
  -- `debug_print`
  | .debug => [fun k _ => some (0, k)]

def invoke (around : Surroundings) (fuel : Nat) : InvokeCapability :=
  fun k address depth handlerNumber argument =>
    (k.lookUpCapabilityRelative fuel address.toNat depth.toNat).bind fun
      | (none, k) => some (BitVec.ofNat 32 eNoCapability, k)
      | (some result, k) =>
          match (k.space.slots result.slot).handlers.bind fun handlers =>
            (invocationHandlers around fuel address depth argument handlers)[handlerNumber.toNat]?
          with
          | none => some (BitVec.ofNat 32 eCapInval, k.unlockLookedUpCapability result)
          | some handler =>
              (handler k result.slot).map fun (value, k) =>
                (BitVec.ofNat 32 value, k.unlockLookedUpCapability result)

/-- What the argument of the invocation leads to. -/
def Means (around : Surroundings) (argument : BitVec 32) : Invocation → Prop
  | .alloc placement args => around.placement = placement ∧ around.allocArgs argument = args
  | .nodeCopy args => around.nodeCopyArgs argument = args
  | .nodeMove args => around.nodeMoveArgs argument = args
  | .nodeDelete index => argument.toNat = index
  | .nodeRevoke index => argument.toNat = index
  | .setRootNode args => around.setRootNodeArgs argument = args

/-- The index of the handler in its table. -/
def handlerNumber : Invocation → Nat
  | .alloc _ _ => 0
  | .nodeCopy _ => 0
  | .nodeMove _ => 1
  | .nodeDelete _ => 2
  | .nodeRevoke _ => 3
  | .setRootNode _ => 4

theorem invocationHandlers_handle {around : Surroundings} {fuel : Nat}
    {address depth argument : BitVec 32} {invocation : Invocation}
    (h : Means around argument invocation) :
    ∃ handler, (invocationHandlers around fuel address depth argument
      invocation.handlers)[handlerNumber invocation]? = some handler ∧ ∀ k slot,
        handler k slot = handle fuel k address.toNat depth.toNat slot invocation := by
  cases invocation with
  | alloc placement args =>
      obtain ⟨rfl, rfl⟩ := h
      exact ⟨_, rfl, fun _ _ => rfl⟩
  | nodeCopy args =>
      cases h
      exact ⟨_, rfl, fun _ _ => rfl⟩
  | nodeMove args =>
      cases h
      exact ⟨_, rfl, fun _ _ => rfl⟩
  | nodeDelete index =>
      cases h
      exact ⟨_, rfl, fun _ _ => rfl⟩
  | nodeRevoke index =>
      cases h
      exact ⟨_, rfl, fun _ _ => rfl⟩
  | setRootNode args =>
      cases h
      exact ⟨_, rfl, fun _ _ => rfl⟩

/-- The invocations that change the capability space are among these calls. -/
theorem invoke_invokeCapability {around : Surroundings} {fuel e : Nat} {k k' : Kernel}
    {address depth number argument : BitVec 32} {invocation : Invocation}
    (hmeans : Means around argument invocation) (hnumber : number.toNat = handlerNumber invocation)
    (h : k.invokeCapability fuel address.toNat depth.toNat invocation = some (e, k')) :
    k.invoke around fuel address depth number argument = some (BitVec.ofNat 32 e, k') := by
  simp only [invokeCapability, Option.bind_eq_some_iff] at h
  obtain ⟨⟨found, k₁⟩, hfound, h⟩ := h
  unfold invoke
  rw [hfound, Option.bind_some]
  cases found with
  | none =>
      cases h
      rfl
  | some result =>
      simp only at h ⊢
      split at h
      · rename_i hempty
        cases h
        simp only [hempty, Option.bind_none]
      · rename_i handlers hhandlers
        split at h
        · rename_i heq
          subst heq
          obtain ⟨handler, hhandler, hhandle⟩ := @invocationHandlers_handle around fuel address
            depth argument invocation hmeans
          simp only [Option.map_eq_some_iff, Prod.mk.injEq] at h
          obtain ⟨⟨value, k₂⟩, hcall, rfl, rfl⟩ := h
          simp only [hhandlers, Option.bind_some, hnumber, hhandler, hhandle, hcall, Option.map_some]
        · cases h

/-! What each call does to the registers of the threads. -/

/-- The registers of a thread, and whether it counts as running. -/
def markedFrame (k : Kernel) (t : Addr) : ThreadRegisters × Bool :=
  ((k.threads t).registers, (k.threads t).flags.currentlyRunning)

def SameFrames (k k' : Kernel) : Prop :=
  ∀ t, k'.markedFrame t = k.markedFrame t

namespace SameFrames

variable {fuel : Nat} {k k' k₁ : Kernel} {slot : SlotPtr} {e : Nat}

theorem refl (k : Kernel) : k.SameFrames k :=
  fun _ => rfl

theorem trans (h : k.SameFrames k₁) (h' : k₁.SameFrames k') : k.SameFrames k' :=
  fun t => (h' t).trans (h t)

theorem modifyThread (k : Kernel) (t : Addr) {change : ThreadCapability → ThreadCapability}
    (hregisters : (change (k.threads t)).registers = (k.threads t).registers)
    (hmark : (change (k.threads t)).flags.currentlyRunning =
      (k.threads t).flags.currentlyRunning) : k.SameFrames (k.modifyThread t change) :=
  fun u => modifyThread_field k t u (fun t => (t.registers, t.flags.currentlyRunning)) change
    (Prod.ext hregisters hmark)

theorem unscheduled :
    Unscheduled fun t : ThreadCapability => (t.registers, t.flags.currentlyRunning) :=
  ⟨fun _ _ => rfl, fun _ _ => rfl, fun _ _ => rfl⟩

theorem resumeThread (k : Kernel) (t : Addr) (reason : BitVec 8) :
    k.SameFrames (k.resumeThread t reason) :=
  fun u => unscheduled.resumeThread k t u reason

theorem suspendThread (k : Kernel) (t : Addr) (newExecMode : BitVec 8) :
    k.SameFrames (k.suspendThread t newExecMode) :=
  fun u => unscheduled.suspendThread k t u newExecMode

theorem resume (k : Kernel) (slot : SlotPtr) : k.SameFrames (k.resume slot).2 :=
  resumeThread { k with kinds := (heapLock k.kinds (k.space.slots slot).resource).2 }
    (k.space.slots slot).resource execModeSuspended

theorem suspend (k : Kernel) (slot : SlotPtr) : k.SameFrames (k.suspend slot).2 :=
  suspendThread { k with kinds := (heapLock k.kinds (k.space.slots slot).resource).2 }
    (k.space.slots slot).resource execModeSuspended

/-! Deletions. -/

theorem releaseBlocked (k : Kernel) (t : Addr) : k.SameFrames (k.releaseBlocked t) :=
  ((suspendThread k t execModeSuspended).trans (resumeThread _ t execModeBlocked)).trans
    (modifyThread _ t rfl rfl)

theorem endpointDestructor (h : k.endpointDestructor fuel slot = some k') : k.SameFrames k' := by
  have hround : ∀ (k₁ : Kernel) t k₂, k.SameFrames k₁ → some (k₁.releaseBlocked t) = some k₂ →
      k.SameFrames k₂ := by
    intro k₁ t k₂ hk₁ hrelease
    cases hrelease
    exact hk₁.trans (releaseBlocked k₁ t)
  simp only [Kernel.endpointDestructor, Option.bind_eq_bind, Option.bind_eq_some_iff] at h
  obtain ⟨k₁, hsending, hreceiving⟩ := h
  exact listIter_induct hround hreceiving (listIter_induct hround hsending (refl k))

theorem unlinkThread (k : Kernel) (t : Addr) : k.SameFrames (k.unlinkThread t) := by
  have hcpu : ∀ k : Kernel, k.SameFrames (k.leaveCpuUpdate t) := fun _ _ => rfl
  have hscheduler : ∀ k : Kernel, k.SameFrames (k.leaveScheduler t) := by
    intro k
    have hrunqueue : k.SameFrames ((k.threads t).runqueue.elim k (k.leaveRunqueue t)) := by
      cases (k.threads t).runqueue with
      | none => exact refl k
      | some i => exact fun _ => rfl
    unfold Kernel.leaveScheduler
    simp only
    split
    · exact hrunqueue.trans (hcpu _)
    · exact hrunqueue
  have hbucket : ∀ k : Kernel, k.SameFrames (k.leaveThreadBucket t) := fun _ _ => rfl
  have hblocked : ∀ k : Kernel, k.SameFrames (k.leaveBlocked t) := by
    intro k
    unfold Kernel.leaveBlocked
    split
    · exact refl k
    · split <;> exact fun _ => rfl
  rw [unlinkThread_eq]
  exact ((hscheduler k).trans (hbucket _)).trans (hblocked _)

theorem freeResource (k : Kernel) (b : Addr) : k.SameFrames (k.freeResource b) := by
  unfold Kernel.freeResource
  split <;> exact fun _ => rfl

theorem destructor {delete : Kernel → SlotPtr → Option Kernel}
    (hdelete : ∀ k p k', delete k p = some k' → k.SameFrames k')
    (h : k.destructor delete fuel slot = some k') : k.SameFrames k' := by
  unfold Kernel.destructor at h
  split at h
  · exact endpointDestructor h
  · simp only [threadDestructor, Option.map_eq_some_iff] at h
    obtain ⟨k₁, hroot, rfl⟩ := h
    exact (hdelete _ _ _ hroot).trans (unlinkThread k₁ _)
  · refine foldlM_induct (motive := k.SameFrames) ?_ h (refl k)
    intro k₁ i k₂ hk₁ hround
    apply hk₁.trans
    rcases destroySlot_cases hround with ⟨-, rfl⟩ | ⟨-, s, -, hround⟩
    · exact refl _
    · have hdeleted := hdelete _ _ _ hround
      exact hdeleted
  · cases h
    exact refl k
  · cases h
    exact refl k
  · cases h
    exact refl k
  · cases h

theorem deleteCapability (h : deleteCapability fuel k slot = some k') : k.SameFrames k' := by
  induction fuel generalizing k slot k' with
  | zero => cases h
  | succ fuel ih =>
      obtain ⟨s, -, hcases⟩ := deleteCapability_cases h
      rcases hcases with ⟨-, rfl⟩ | ⟨-, k₁, hdestroy, rfl⟩
      · exact fun _ => rfl
      · have hdestroyed := destructor (fun _ _ _ => ih) hdestroy
        exact hdestroyed.trans (freeResource k₁ _)

theorem nodeDelete {argument : Nat} (h : k.nodeDelete fuel slot argument = some (e, k')) :
    k.SameFrames k' := by
  unfold Kernel.nodeDelete at h
  split at h
  · cases h
    exact refl k
  · split at h
    · cases h
      exact refl k
    · simp only [Option.bind_eq_some_iff, Option.map_eq_some_iff, Prod.mk.injEq] at h
      obtain ⟨s, -, k₁, hdelete, -, rfl⟩ := h
      have hdeleted := deleteCapability hdelete
      exact hdeleted

theorem iterDerivationList {body : Kernel → SlotPtr → Option Kernel}
    (hbody : ∀ k p k', body k p = some k' → k.SameFrames k')
    (h : k.iterDerivationList fuel slot body = some k') : k.SameFrames k' :=
  listIter_induct (fun _ p _ h₁ h₂ => h₁.trans (hbody _ p _ h₂)) h (refl k)

theorem revokeDerived (h : k.revokeDerived fuel slot = some k') : k.SameFrames k' := by
  unfold Kernel.revokeDerived at h
  simp only at h
  split at h
  · split at h
    · exact iterDerivationList (fun _ _ _ => deleteCapability) h
    · cases h
      exact refl k
  · cases h
    exact refl k

theorem nodeRevoke {argument : Nat} (h : k.nodeRevoke fuel slot argument = some (e, k')) :
    k.SameFrames k' := by
  unfold Kernel.nodeRevoke at h
  split at h
  · cases h
    exact refl k
  · simp only at h
    split at h
    · cases h
      exact refl k
    · split at h
      · cases h
        exact refl k
      · split at h
        · cases h
          exact refl k
        · simp only [Option.map_eq_some_iff, Prod.mk.injEq] at h
          obtain ⟨k₁, hiter, -, rfl⟩ := h
          have hrevoked : k.SameFrames k₁ := by
            refine iterDerivationList ?_ hiter
            intro k p k' hround
            simp only [Option.bind_eq_some_iff] at hround
            obtain ⟨k₂, hderived, hround⟩ := hround
            exact (revokeDerived hderived).trans (deleteCapability hround)
          exact hrevoked

/-! Copies and moves, and messages. -/

theorem nodeCopy {address depth : Nat} {args : NodeCopyArgs}
    (h : k.nodeCopy fuel address depth slot args = some (e, k')) : k.SameFrames k' := by
  rcases nodeCopy_cases h with ⟨-, kinds, rfl⟩ | ⟨-, source, dest, s, kinds, -, -, -, -, -, -, rfl⟩
  · exact fun _ => rfl
  · exact fun _ => rfl

theorem nodeMove {address depth : Nat} {args : NodeMoveArgs}
    (h : k.nodeMove fuel address depth slot args = some (e, k')) : k.SameFrames k' := by
  rcases nodeMove_cases h with ⟨-, kinds, rfl⟩ | ⟨-, source, dest, s, kinds, -, -, -, -, rfl⟩
  · exact fun _ => rfl
  · exact fun _ => rfl

theorem setRootNode {args : IpcCapability} (h : k.setRootNode fuel slot args = some (e, k')) :
    k.SameFrames k' := by
  simp only [Kernel.setRootNode, Option.bind_eq_some_iff] at h
  obtain ⟨⟨found, k₁⟩, hfound, h⟩ := h
  obtain ⟨kinds, rfl⟩ := lookUpCapabilityRelative_kinds hfound
  cases found with
  | none =>
      cases h
      exact fun _ => rfl
  | some result =>
      simp only at h
      split at h
      · simp only [Option.bind_eq_some_iff] at h
        obtain ⟨nesting, -, h⟩ := h
        split at h
        · simp only [installRoot, Option.map_eq_some_iff, Option.bind_eq_some_iff] at h
          obtain ⟨k₂, ⟨s, -, s', -, rfl⟩, heq⟩ := h
          cases heq
          exact fun _ => rfl
        · cases h
          exact fun _ => rfl
      · cases h
        exact fun _ => rfl

theorem transferCapabilities {sending receiving sentMessage recvBuffer : Addr}
    (h : k.transferCapabilities fuel sending receiving sentMessage recvBuffer = some k') :
    k.SameFrames k' := by
  obtain ⟨s, kinds, bits, rfl⟩ := transferCapabilities_frame h
  exact fun _ => rfl

theorem endpointSend {message : Addr} (h : k.endpointSend fuel slot message = some (e, k')) :
    k.SameFrames k' := by
  simp only [Kernel.endpointSend, Option.bind_eq_some_iff] at h
  obtain ⟨thread, -, h⟩ := h
  split at h
  · rename_i receiving k₁ hpop
    have hk₁ : (k.popReceiving (k.space.slots slot).resource).2 = k₁ := congrArg Prod.snd hpop
    have hpopped : k.SameFrames k₁ := by
      rw [← hk₁]
      exact fun _ => rfl
    simp only [sendTo, Option.map_map, Option.map_eq_some_iff] at h
    obtain ⟨k₂, htransfer, heq⟩ := h
    cases heq
    have hwoken : k₁.SameFrames (k₁.modifyThread receiving fun t => { t with
        flags := { t.flags with blockedOnReceive := false }
        blockedOn := none }) := modifyThread k₁ receiving rfl rfl
    have htransferred := transferCapabilities htransfer
    have hdelivered : k₁.SameFrames k₂ := fun t => (htransferred t).trans (hwoken t)
    exact (hpopped.trans hdelivered).trans (resumeThread k₂ receiving execModeBlocked)
  · cases h
    have hblocked : k.SameFrames (k.modifyThread thread fun t => { t with
        messageBuffer := message
        sendingBadge := (k.space.slots slot).badge
        blockedOn := some (k.space.slots slot).resource
        flags := { t.flags with blockedOnSend := true } }) := modifyThread k thread rfl rfl
    unfold blockSending
    refine trans ?_ (suspendThread _ thread execModeBlocked)
    exact fun t => hblocked t

theorem endpointReceive {message : Addr}
    (h : k.endpointReceive fuel slot message = some (e, k')) : k.SameFrames k' := by
  simp only [Kernel.endpointReceive, Option.bind_eq_some_iff] at h
  obtain ⟨thread, -, h⟩ := h
  split at h
  · rename_i sending k₁ hpop
    have hk₁ : (k.popSending (k.space.slots slot).resource).2 = k₁ := congrArg Prod.snd hpop
    have hpopped : k.SameFrames k₁ := by
      rw [← hk₁]
      exact fun _ => rfl
    simp only [receiveFrom, Option.map_map, Option.map_eq_some_iff] at h
    obtain ⟨k₂, htransfer, heq⟩ := h
    cases heq
    have hwoken : k₁.SameFrames (k₁.modifyThread sending fun t => { t with
        flags := { t.flags with blockedOnSend := false }
        blockedOn := none }) := modifyThread k₁ sending rfl rfl
    have htransferred := transferCapabilities htransfer
    have hdelivered : k₁.SameFrames k₂ := fun t => (htransferred t).trans (hwoken t)
    exact (hpopped.trans hdelivered).trans (resumeThread k₂ sending execModeBlocked)
  · cases h
    have hblocked : k.SameFrames (k.modifyThread thread fun t => { t with
        messageBuffer := message
        sendingBadge := (k.space.slots slot).badge
        blockedOn := some (k.space.slots slot).resource
        flags := { t.flags with blockedOnReceive := true } }) := modifyThread k thread rfl rfl
    unfold blockReceiving
    refine trans ?_ (suspendThread _ thread execModeBlocked)
    exact fun t => hblocked t

theorem populateCapabilitySlot {address depth : Nat} {resource : Addr} {handlers : Handlers}
    {flags : CapFlags}
    (h : k.populateCapabilitySlot fuel address depth resource handlers flags = some (e, k')) :
    k.SameFrames k' := by
  rcases populateCapabilitySlot_cases h with ⟨-, kinds, rfl⟩ | ⟨-, result, k₁, kinds, -, -, -, rfl⟩
  · unfold freeIfHeapManaged
    split <;> exact fun _ => rfl
  · unfold fillSlot
    simp only
    split <;> exact fun _ => rfl

/-! Relocations, which update what refers to the block. -/

theorem onThreadMoved {t : Addr} (h : k.onThreadMoved fuel t = some k') : k.SameFrames k' := by
  have hrunqueue : ∀ k : Kernel, k.SameFrames (k.updateRunqueue t) := by
    intro k
    unfold updateRunqueue
    split <;> exact fun _ => rfl
  have hblocked : ∀ k : Kernel, k.SameFrames (k.updateBlockedQueue t) := by
    intro k
    unfold updateBlockedQueue
    simp only
    split
    · exact refl k
    · split
      · exact fun _ => rfl
      · split <;> exact fun _ => rfl
  have hbucket : ∀ k : Kernel, k.SameFrames (k.updateThreadBucket t) := fun _ _ => rfl
  have hcpu : ∀ k : Kernel, k.SameFrames (k.updateCpuUpdate t) := by
    intro k
    unfold updateCpuUpdate
    split <;> exact fun _ => rfl
  have hcurrent : ∀ k : Kernel, k.SameFrames (k.updateCurrentThread t) := by
    intro k
    unfold updateCurrentThread
    split <;> exact fun _ => rfl
  have hall := ((((hrunqueue k).trans (hblocked _)).trans (hbucket _)).trans (hcpu _)).trans
    (hcurrent _)
  unfold Kernel.onThreadMoved at h
  simp only at h
  split at h
  · cases h
    exact hall
  · simp only [Option.map_eq_some_iff] at h
    obtain ⟨s, -, rfl⟩ := h
    exact hall

theorem onMoved {handlers : Handlers} {resource : Addr}
    (h : k.onMoved fuel handlers resource = some k') : k.SameFrames k' := by
  unfold Kernel.onMoved at h
  split at h
  · simp only [Option.map_eq_some_iff] at h
    obtain ⟨s, -, rfl⟩ := h
    exact fun _ => rfl
  · exact onThreadMoved h
  · have hround : ∀ (k₁ : Kernel) t k₂, k.SameFrames k₁ →
        some (k₁.modifyThread t fun t => { t with blockedOn := some resource }) = some k₂ →
          k.SameFrames k₂ := by
      intro k₁ t k₂ hk₁ hset
      cases hset
      exact hk₁.trans (modifyThread k₁ t rfl rfl)
    simp only [onEndpointMoved, Option.bind_eq_bind, Option.bind_eq_some_iff] at h
    obtain ⟨k₁, hsending, hreceiving⟩ := h
    exact listIter_induct hround hreceiving (listIter_induct hround hsending (refl k))
  · cases h
    exact refl k
  · cases h
    exact refl k
  · cases h
    exact refl k

theorem lookUpOwner {address : AbsoluteCapabilityAddress} {found : Option LookUpResult}
    (h : k.lookUpOwner fuel address = some (found, k')) : k.SameFrames k' := by
  unfold Kernel.lookUpOwner at h
  split at h
  · simp only [Option.map_eq_some_iff] at h
    obtain ⟨⟨thread, shouldUnlock, k₁⟩, hthread, h⟩ := h
    obtain ⟨kinds, rfl⟩ := lookUpThreadById_kinds hthread
    cases thread with
    | none =>
        cases h
        exact fun _ => rfl
    | some t =>
        cases h
        exact fun _ => rfl
  · obtain ⟨kinds, rfl⟩ := lookUpCapabilityAbsolute_kinds h
    exact fun _ => rfl

theorem updateCapabilityResource {address : AbsoluteCapabilityAddress} {resource : Addr}
    (h : k.updateCapabilityResource fuel address resource = some k') : k.SameFrames k' := by
  simp only [Kernel.updateCapabilityResource, Option.bind_eq_some_iff] at h
  obtain ⟨⟨found, k₁⟩, hfound, h⟩ := h
  have howner := lookUpOwner hfound
  cases found with
  | none =>
      cases h
      exact howner
  | some result =>
      simp only at h
      split at h
      · cases h
        exact howner
      · simp only [Option.bind_eq_bind, Option.bind_eq_some_iff, Option.some.injEq] at h
        obtain ⟨s, -, k₂, hmoved, rfl⟩ := h
        have hmoved' := onMoved hmoved
        exact howner.trans hmoved'

theorem updateReferences {src dest : Addr}
    (h : k.updateReferences fuel src dest = some k') : k.SameFrames k' := by
  unfold Kernel.updateReferences at h
  split at h
  · simp only [Option.map_eq_some_iff] at h
    obtain ⟨k₁, hupdate, rfl⟩ := h
    have hupdated := updateCapabilityResource hupdate
    exact hupdated
  · simp only [Option.map_eq_some_iff] at h
    obtain ⟨k₁, hmoved, rfl⟩ := h
    have hmoved' := onThreadMoved hmoved
    exact hmoved'
  · cases h
    exact refl k

end SameFrames

/-- Frames have been copied, and the other ones are fit for user mode. -/
def FramesFrom (k k' : Kernel) : Prop :=
  ∀ t, (∃ u, k'.markedFrame t = k.markedFrame u) ∨ (k'.threads t).registers.UserMode

namespace FramesFrom

variable {fuel : Nat} {k k' k₁ : Kernel} {slot : SlotPtr} {e : Nat}

theorem of_same (h : k.SameFrames k') : k.FramesFrom k' :=
  fun t => .inl ⟨t, h t⟩

theorem refl (k : Kernel) : k.FramesFrom k :=
  of_same (.refl k)

theorem trans (h : k.FramesFrom k₁) (h' : k₁.FramesFrom k') : k.FramesFrom k' := by
  intro t
  rcases h' t with ⟨u, hu⟩ | huser
  · rcases h u with ⟨v, hv⟩ | huser
    · exact .inl ⟨v, hu.trans hv⟩
    · have hregisters : (k'.threads t).registers = (k₁.threads u).registers :=
        congrArg Prod.fst hu
      rw [hregisters]
      exact .inr huser
  · exact .inr huser

/-- A thread gets registers that are fit for user mode. -/
theorem modifyThread (k : Kernel) (t : Addr) {change : ThreadCapability → ThreadCapability}
    (h : (change (k.threads t)).registers.UserMode) : k.FramesFrom (k.modifyThread t change) := by
  intro u
  by_cases hut : u = t
  · subst hut
    rw [modifyThread_self]
    exact .inr h
  · refine .inl ⟨u, ?_⟩
    simp only [markedFrame, modifyThread_of_ne _ _ _ _ hut]

theorem writeRegisters (k : Kernel) (memory : WordMemory 32) (slot : SlotPtr)
    (args : ReadWriteRegisterArgs) : k.FramesFrom (k.writeRegisters memory slot args).2 := by
  rw [writeRegisters_eq]
  dsimp only
  apply modifyThread
  exact ThreadRegisters.userMode_sanitizeRegisters _

/-! New objects. -/

theorem relocate {src dest : Addr} (h : k.relocate fuel src dest = some k') :
    k.FramesFrom k' := by
  have hcopy : k.FramesFrom (k.beginMove src dest) := by
    intro t
    by_cases ht : t = dest
    · subst ht
      exact .inl ⟨src, by simp [markedFrame, beginMove, copyBlock]⟩
    · exact .inl ⟨t, by simp [markedFrame, beginMove, copyBlock, ht]⟩
  simp only [Kernel.relocate, Option.map_eq_some_iff] at h
  obtain ⟨k₁, hupdate, rfl⟩ := h
  have hupdated := hcopy.trans (of_same (SameFrames.updateReferences hupdate))
  exact hupdated

theorem heapAlloc {placement : Placement} {kind : ObjectKind} {block : Option Addr}
    (h : k.heapAlloc fuel placement kind = some (block, k')) : k.FramesFrom k' := by
  simp only [Kernel.heapAlloc, Option.bind_eq_some_iff] at h
  obtain ⟨k₁, hmoves, h⟩ := h
  have hmoved : k.FramesFrom k₁ := by
    refine foldlM_induct ?_ hmoves (refl k)
    intro k₂ move k₃ hk₂ hround
    split at hround
    · exact hk₂.trans (relocate hround)
    · cases hround
  split at h
  · cases h
    exact hmoved
  · split at h
    · cases h
      exact hmoved
    · cases h

theorem initThread (k : Kernel) (t : Addr) (threadId : Nat) :
    k.FramesFrom (k.initThread t threadId) := by
  have hzero : ThreadRegisters.zero.UserMode := by decide
  have hnew := @modifyThread k t (fun _ => { ThreadCapability.zero with
    execMode := execModeSuspended
    threadId := threadId
    bucketNumber := hash threadId % numBuckets }) hzero
  exact hnew

theorem allocThread {placement : Placement} {thread : Option Addr}
    (h : k.allocThread fuel placement = some (thread, k')) : k.FramesFrom k' := by
  unfold Kernel.allocThread at h
  split at h
  · cases h
    exact refl k
  · simp only [Option.map_eq_some_iff] at h
    obtain ⟨⟨block, k₁⟩, halloc, h⟩ := h
    have hallocated := heapAlloc halloc
    cases block with
    | none =>
        cases h
        exact hallocated
    | some t =>
        cases h
        exact hallocated.trans (initThread k₁ t _)

theorem allocObject {placement : Placement} {args : AllocArgs} {handlers : Handlers}
    {resource : Option Addr}
    (h : k.allocObject fuel placement args = some (handlers, resource, k')) :
    k.FramesFrom k' := by
  unfold Kernel.allocObject at h
  split at h
  · simp only [Option.map_eq_some_iff] at h
    obtain ⟨_, halloc, heq⟩ := h
    cases heq
    exact heapAlloc halloc
  · split at h
    · simp only [allocNode, Option.map_map, Option.map_eq_some_iff] at h
      obtain ⟨⟨block, k₁⟩, halloc, heq⟩ := h
      have hallocated := heapAlloc halloc
      cases block <;> cases heq <;> exact hallocated
    · split at h
      · simp only [Option.map_eq_some_iff] at h
        obtain ⟨_, halloc, heq⟩ := h
        cases heq
        exact allocThread halloc
      · simp only [allocEndpoint, Option.map_map, Option.map_eq_some_iff] at h
        obtain ⟨⟨block, k₁⟩, halloc, heq⟩ := h
        have hallocated := heapAlloc halloc
        cases block <;> cases heq <;> exact hallocated

theorem addressSpaceAlloc {placement : Placement} {args : AllocArgs}
    (h : k.addressSpaceAlloc fuel slot placement args = some (e, k')) : k.FramesFrom k' := by
  unfold Kernel.addressSpaceAlloc at h
  split at h
  · cases h
    exact refl k
  · split at h
    · simp only [Option.bind_eq_some_iff] at h
      obtain ⟨⟨handlers, resource, k₁⟩, halloc, h⟩ := h
      have hallocated := allocObject halloc
      cases resource with
      | none =>
          cases h
          exact hallocated
      | some resource =>
          exact hallocated.trans (of_same (SameFrames.populateCapabilitySlot h))
    · cases h
      exact refl k

/-- Whatever a program asks for. -/
theorem invocationHandlers {around : Surroundings} {address depth argument : BitVec 32}
    {handlers : Handlers} {handler : Kernel → SlotPtr → Option (Nat × Kernel)}
    (hhandler : handler ∈ invocationHandlers around fuel address depth argument handlers)
    (h : handler k slot = some (e, k')) : k.FramesFrom k' := by
  cases handlers with
  | node =>
      simp only [Kernel.invocationHandlers, List.mem_cons, List.not_mem_nil, or_false] at hhandler
      rcases hhandler with rfl | rfl | rfl | rfl
      · exact of_same (SameFrames.nodeCopy h)
      · exact of_same (SameFrames.nodeMove h)
      · exact of_same (SameFrames.nodeDelete h)
      · exact of_same (SameFrames.nodeRevoke h)
  | thread =>
      simp only [Kernel.invocationHandlers, List.mem_cons, List.not_mem_nil, or_false] at hhandler
      rcases hhandler with rfl | rfl | rfl | rfl | rfl
      · simp only [readRegisters_eq] at h
        cases h
        exact refl k
      · have hwrite := congrArg Prod.snd (Option.some.inj h)
        rw [← show _ = k' from hwrite]
        exact writeRegisters k _ slot _
      · have hresume := congrArg Prod.snd (Option.some.inj h)
        rw [← show _ = k' from hresume]
        exact of_same (SameFrames.resume k slot)
      · have hsuspend := congrArg Prod.snd (Option.some.inj h)
        rw [← show _ = k' from hsuspend]
        exact of_same (SameFrames.suspend k slot)
      · exact of_same (SameFrames.setRootNode h)
  | endpoint =>
      simp only [Kernel.invocationHandlers, List.mem_cons, List.not_mem_nil, or_false] at hhandler
      rcases hhandler with rfl | rfl
      · exact of_same (SameFrames.endpointSend h)
      · exact of_same (SameFrames.endpointReceive h)
  | untyped =>
      simp only [Kernel.invocationHandlers, List.mem_cons, List.not_mem_nil, or_false] at hhandler
      rcases hhandler with rfl | rfl | rfl | rfl
      · cases h
        exact of_same fun _ => rfl
      · cases h
        exact of_same fun _ => rfl
      · have htry := congrArg Prod.snd (Option.some.inj h)
        rw [← show _ = k' from htry]
        unfold untypedTryLock
        simp only
        split <;> exact of_same fun _ => rfl
      · cases h
        exact refl k
  | addressSpace =>
      simp only [Kernel.invocationHandlers, List.mem_singleton] at hhandler
      subst hhandler
      exact addressSpaceAlloc h
  | debug =>
      simp only [Kernel.invocationHandlers, List.mem_singleton] at hhandler
      subst hhandler
      cases h
      exact refl k

theorem invoke {around : Surroundings} {address depth handlerNumber argument result : BitVec 32}
    (h : k.invoke around fuel address depth handlerNumber argument = some (result, k')) :
    k.FramesFrom k' := by
  simp only [Kernel.invoke, Option.bind_eq_some_iff] at h
  obtain ⟨⟨found, k₁⟩, hfound, h⟩ := h
  obtain ⟨kinds, rfl⟩ := lookUpCapabilityRelative_kinds hfound
  cases found with
  | none =>
      cases h
      exact of_same fun _ => rfl
  | some found =>
      simp only at h
      split at h
      · cases h
        exact of_same fun _ => rfl
      · rename_i handler hhandler
        simp only [Option.bind_eq_some_iff] at hhandler
        obtain ⟨handlers, -, hhandler⟩ := hhandler
        simp only [Option.map_eq_some_iff, Prod.mk.injEq] at h
        obtain ⟨⟨value, k₂⟩, hcall, -, rfl⟩ := h
        have hcalled := invocationHandlers (List.mem_of_getElem? hhandler) hcall
        exact hcalled

end FramesFrom

end Kernel

end Cenix
