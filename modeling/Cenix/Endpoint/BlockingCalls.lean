import Cenix.Endpoint.Blocking
import Cenix.Kernel.Heap

namespace Cenix

open LinkedLists

/-! Threads block and are woken up. -/

namespace Kernel

variable {fuel : Nat} {k k' k₁ : Kernel} {t u : Addr} {q : Addr × Direction}

theorem resumeThread_blockedOn (k : Kernel) (t u : Addr) (reason : BitVec 8) :
    ((k.resumeThread t reason).threads u).blockedOn = (k.threads u).blockedOn :=
  Unscheduled.resumeThread ⟨fun _ _ => rfl, fun _ _ => rfl, fun _ _ => rfl⟩ k t u reason

theorem suspendThread_blockedOn (k : Kernel) (t u : Addr) (newExecMode : BitVec 8) :
    ((k.suspendThread t newExecMode).threads u).blockedOn = (k.threads u).blockedOn :=
  Unscheduled.suspendThread ⟨fun _ _ => rfl, fun _ _ => rfl, fun _ _ => rfl⟩ k t u newExecMode

theorem resumeThread_links (k : Kernel) (t : Addr) (reason : BitVec 8) :
    (k.resumeThread t reason).blockedQueues = k.blockedQueues :=
  funext fun u => Unscheduled.resumeThread
    ⟨fun _ _ => rfl, fun _ _ => rfl, fun _ _ => rfl⟩ k t u reason

theorem suspendThread_links (k : Kernel) (t : Addr) (newExecMode : BitVec 8) :
    (k.suspendThread t newExecMode).blockedQueues = k.blockedQueues :=
  funext fun u => Unscheduled.suspendThread
    ⟨fun _ _ => rfl, fun _ _ => rfl, fun _ _ => rfl⟩ k t u newExecMode

theorem resumeThread_blockedState (k : Kernel) (t u : Addr) (reason : BitVec 8) :
    ((k.resumeThread t reason).threads u).blockedState =
      { (k.threads u).blockedState with
        blocked := (k.threads u).blockedState.blocked &&
          !(decide (u = t) && getElem reason 0 blockedBit_lt) } := by
  have hmode : ((k.resumeThread t reason).threads u).execMode[0] =
      ((k.threads u).execMode[0] && !(decide (u = t) && reason[0])) := by
    rw [resumeThread_execMode]
    split
    · rename_i hut
      simp [hut]
    · rename_i hut
      simp [hut]
  simp only [ThreadCapability.blockedState, hmode, resumeThread_flags, resumeThread_blockedOn]

theorem suspendThread_blockedState (k : Kernel) (t u : Addr) (newExecMode : BitVec 8) :
    ((k.suspendThread t newExecMode).threads u).blockedState =
      { (k.threads u).blockedState with
        blocked := (k.threads u).blockedState.blocked ||
          (decide (u = t) && getElem newExecMode 0 blockedBit_lt) } := by
  have hmode : ((k.suspendThread t newExecMode).threads u).execMode[0] =
      ((k.threads u).execMode[0] || (decide (u = t) && newExecMode[0])) := by
    rw [suspendThread_execMode]
    split
    · rename_i hut
      simp [hut]
    · rename_i hut
      simp [hut]
  simp only [ThreadCapability.blockedState, hmode, suspendThread_flags,
    suspendThread_blockedOn]

theorem resumeThread_objects (k : Kernel) (t : Addr) (reason : BitVec 8) :
    (k.resumeThread t reason).space = k.space := by
  obtain ⟨threads, scheduler, heq⟩ := k.resumeThread_frame t reason
  rw [heq]

theorem suspendThread_objects (k : Kernel) (t : Addr) (newExecMode : BitVec 8) :
    (k.suspendThread t newExecMode).space = k.space := by
  obtain ⟨threads, scheduler, heq⟩ := k.suspendThread_frame t newExecMode
  rw [heq]

/-- `EXEC_MODE_SUSPENDED` comes and goes independently. -/
theorem resumeThread_sameBlocking (k : Kernel) (t : Addr) :
    k.SameBlocking (k.resumeThread t execModeSuspended) where
  objects := .of_eq (by rw [resumeThread_objects])
  queues q := by rw [endpointQueue_congr (resumeThread_endpoints ..)]
  links := resumeThread_links ..
  threads u := by
    rw [resumeThread_blockedState]
    simp [execModeSuspended, ThreadCapability.blockedState]

theorem suspendThread_sameBlocking (k : Kernel) (t : Addr) :
    k.SameBlocking (k.suspendThread t execModeSuspended) where
  objects := .of_eq (by rw [suspendThread_objects])
  queues q := by rw [endpointQueue_congr (suspendThread_endpoints ..)]
  links := suspendThread_links ..
  threads u := by
    rw [suspendThread_blockedState]
    simp [execModeSuspended, ThreadCapability.blockedState]

/-- The rest of the kernel may do what it likes. -/
theorem sameBlocking_of (hobjects : k.SameObjects k') (hendpoints : k'.endpoints = k.endpoints)
    (hthreads : k'.threads = k.threads) : k.SameBlocking k' where
  objects := hobjects
  queues q := by rw [endpointQueue_congr hendpoints]
  links := by
    unfold blockedQueues
    rw [hthreads]
  threads t := by rw [hthreads]

theorem resume_sameBlocking (k : Kernel) (slot : SlotPtr) :
    k.SameBlocking (k.resume slot).2 := by
  let locked := { k with kinds := (heapLock k.kinds (k.space.slots slot).resource).2 }
  have hlocked : k.SameBlocking locked := sameBlocking_of (.of_eq rfl) rfl rfl
  exact (hlocked.trans (locked.resumeThread_sameBlocking (k.space.slots slot).resource)).trans
    (sameBlocking_of (.of_eq rfl) rfl rfl)

theorem suspend_sameBlocking (k : Kernel) (slot : SlotPtr) :
    k.SameBlocking (k.suspend slot).2 := by
  let locked := { k with kinds := (heapLock k.kinds (k.space.slots slot).resource).2 }
  have hlocked : k.SameBlocking locked := sameBlocking_of (.of_eq rfl) rfl rfl
  exact (hlocked.trans (locked.suspendThread_sameBlocking (k.space.slots slot).resource)).trans
    (sameBlocking_of (.of_eq rfl) rfl rfl)

/-! Transfers allocate and free nothing. -/

theorem transferSlot_objects {s s' : Space} {shouldCopy : Bool} {source dest : SlotPtr}
    {address : AbsoluteCapabilityAddress}
    (h : transferSlot fuel s shouldCopy source dest address = some s') :
    s'.objects = s.objects := by
  simp only [transferSlot, Option.bind_eq_some_iff] at h
  obtain ⟨s₁, htransfer, h⟩ := h
  rw [Space.updateCapabilityAddresses_objects h]
  split at htransfer
  · exact (Space.copyCapability_objects htransfer).1
  · exact (Space.moveCapability_objects htransfer).1

theorem transferCapability_objects {sending receiving sentMessage recvBuffer : Addr}
    {i : Fin ipcCapabilitySlots}
    (h : k.transferCapability fuel sending receiving sentMessage recvBuffer i = some k') :
    k'.space.objects = k.space.objects := by
  unfold transferCapability at h
  simp only at h
  split at h
  · cases h
    rfl
  · simp only [Option.bind_eq_some_iff] at h
    obtain ⟨⟨source, k₁⟩, hsource, h⟩ := h
    obtain ⟨kinds₁, rfl⟩ := lookUpCapabilityAbsolute_kinds hsource
    cases source with
    | none =>
        cases h
        rfl
    | some source =>
        simp only at h
        split at h
        · cases h
          rfl
        · simp only [Option.bind_eq_some_iff] at h
          obtain ⟨⟨dest, k₂⟩, hdest, h⟩ := h
          obtain ⟨kinds₂, rfl⟩ := lookUpCapabilityAbsolute_kinds hdest
          cases dest with
          | none =>
              cases h
              rfl
          | some dest =>
              simp only at h
              split at h
              · cases h
                rfl
              · simp only [Option.map_eq_some_iff] at h
                obtain ⟨s, htransfer, rfl⟩ := h
                exact transferSlot_objects htransfer

theorem transferCapabilities_objects {sending receiving sentMessage recvBuffer : Addr}
    (h : k.transferCapabilities fuel sending receiving sentMessage recvBuffer = some k') :
    k'.space.objects = k.space.objects := by
  unfold transferCapabilities at h
  refine foldlM_induct (motive := fun k₁ => k₁.space.objects = k.space.objects) ?_ h rfl
  intro k₁ i k₂ hk₁ hstep
  exact (transferCapability_objects hstep).trans hk₁

theorem transferCapabilities_sameBlocking {sending receiving sentMessage recvBuffer : Addr}
    (h : k.transferCapabilities fuel sending receiving sentMessage recvBuffer = some k') :
    k.SameBlocking k' := by
  have hobjects := transferCapabilities_objects h
  obtain ⟨s, kinds, bits, rfl⟩ := transferCapabilities_frame h
  exact sameBlocking_of (.of_eq hobjects) rfl rfl

/-! Sends and receives. -/

/-- A thread that was taken off its queue is woken up after the transfer. -/
theorem Blocking.meet (h : k.Blocking) {c' : Container Addr} {links : Addr → Link Addr}
    {woken k₁ : Kernel} (he : k.IsEndpoint q.1)
    (hlast : (k.endpointQueue q).start = (k.endpointQueue q).last)
    (hpop : listPopFromStart (k.endpointQueue q) k.blockedQueues = (some t, c', links))
    (hspace : woken.space = k.space)
    (hqueue : ∀ q', woken.endpointQueue q' = if q' = q then c' else k.endpointQueue q')
    (hlinks : woken.blockedQueues = links)
    (hother : ∀ u, u ≠ t → (woken.threads u).blockedState = (k.threads u).blockedState)
    (ht : { (woken.threads t).blockedState with blocked := false }.Idle)
    (htransfer : woken.SameBlocking k₁) : (k₁.resumeThread t execModeBlocked).Blocking := by
  have hstate : ∀ u, ((k₁.resumeThread t execModeBlocked).threads u).blockedState =
      { (woken.threads u).blockedState with
        blocked := (woken.threads u).blockedState.blocked && !(decide (u = t)) } := by
    intro u
    rw [resumeThread_blockedState, htransfer.threads]
    simp [execModeBlocked]
  have hobjects : k.SameObjects (k₁.resumeThread t execModeBlocked) := by
    have hwoken : k.SameObjects woken := .of_eq (by rw [hspace])
    exact (hwoken.trans htransfer.objects).trans (.of_eq (by rw [resumeThread_objects]))
  apply h.wake he hlast hpop hobjects
  · intro q'
    rw [endpointQueue_congr (resumeThread_endpoints ..), htransfer.queues, hqueue]
  · rw [resumeThread_links, htransfer.links, hlinks]
  · intro u hu
    rw [hstate, hother u hu]
    simp [hu]
  · rw [hstate]
    simpa using ht

/-- A thread on a queue is blocked after it has been put there. -/
theorem Blocking.enqueue (h : k.Blocking) {c' : Container Addr} {links : Addr → Link Addr}
    {set : Kernel} (he : k.IsEndpoint q.1) (hthread : k.IsThread t)
    (hidle : (k.threads t).blockedState.Idle)
    (happend : listAppend (k.endpointQueue q) k.blockedQueues t = (c', links))
    (hspace : set.space = k.space)
    (hqueue : ∀ q', set.endpointQueue q' = if q' = q then c' else k.endpointQueue q')
    (hlinks : set.blockedQueues = links)
    (hother : ∀ u, u ≠ t → (set.threads u).blockedState = (k.threads u).blockedState)
    (ht : { (set.threads t).blockedState with blocked := true }.Waits q) :
    (set.suspendThread t execModeBlocked).Blocking := by
  have hstate : ∀ u, ((set.suspendThread t execModeBlocked).threads u).blockedState =
      { (set.threads u).blockedState with
        blocked := (set.threads u).blockedState.blocked || decide (u = t) } := by
    intro u
    rw [suspendThread_blockedState]
    simp [execModeBlocked, ThreadCapability.blockedState]
  have hobjects : k.SameObjects (set.suspendThread t execModeBlocked) :=
    .of_eq (by rw [suspendThread_objects, hspace])
  apply h.block he hthread hidle happend hobjects
  · intro q'
    rw [endpointQueue_congr (suspendThread_endpoints ..), hqueue]
  · rw [suspendThread_links, hlinks]
  · intro u hu
    rw [hstate, hother u hu]
    simp [hu]
  · rw [hstate]
    simpa using ht

variable {endpoint message : Addr} {badge : Nat}

theorem Blocking.blockSending (h : k.Blocking) (he : k.IsEndpoint endpoint)
    (hthread : k.IsThread t) (hidle : (k.threads t).blockedState.Idle) :
    (k.blockSending endpoint t message badge).Blocking := by
  let change := fun t : ThreadCapability => { t with
    messageBuffer := message
    sendingBadge := badge
    blockedOn := some endpoint
    flags := { t.flags with blockedOnSend := true } }
  have hlinks := k.blockedQueues_modifyThread t change rfl
  cases happend : listAppend (k.endpointQueue (endpoint, .sending)) k.blockedQueues t with
  | mk queue links =>
      have happend' : listAppend (k.endpoints endpoint).blockedSending k.blockedQueues t =
        (queue, links) := happend
      unfold Kernel.blockSending
      simp only [change] at hlinks
      simp only [modifyThread_endpoints, hlinks, happend']
      refine h.enqueue he hthread hidle happend ?_ ?_ ?_ ?_ ?_
      · rfl
      · exact k.endpointQueue_setBlockedSending endpoint queue
      · rfl
      · intro u hu
        have hsame := congrArg ThreadCapability.blockedState (k.modifyThread_of_ne t u change hu)
        exact hsame
      · have hset := congrArg ThreadCapability.blockedState (k.modifyThread_self t change)
        have hself : (change (k.threads t)).blockedState = ⟨some endpoint, true, false, false⟩ :=
          congrArg (fun b : BlockedState => { b with on := some endpoint, onSend := true }) hidle
        exact congrArg (fun b : BlockedState => { b with blocked := true }) (hset.trans hself)

theorem Blocking.blockReceiving (h : k.Blocking) (he : k.IsEndpoint endpoint)
    (hthread : k.IsThread t) (hidle : (k.threads t).blockedState.Idle) :
    (k.blockReceiving endpoint t message badge).Blocking := by
  let change := fun t : ThreadCapability => { t with
    messageBuffer := message
    sendingBadge := badge
    blockedOn := some endpoint
    flags := { t.flags with blockedOnReceive := true } }
  have hlinks := k.blockedQueues_modifyThread t change rfl
  cases happend : listAppend (k.endpointQueue (endpoint, .receiving)) k.blockedQueues t with
  | mk queue links =>
      have happend' : listAppend (k.endpoints endpoint).blockedReceiving k.blockedQueues t =
        (queue, links) := happend
      unfold Kernel.blockReceiving
      simp only [change] at hlinks
      simp only [modifyThread_endpoints, hlinks, happend']
      refine h.enqueue he hthread hidle happend ?_ ?_ ?_ ?_ ?_
      · rfl
      · exact k.endpointQueue_setBlockedReceiving endpoint queue
      · rfl
      · intro u hu
        have hsame := congrArg ThreadCapability.blockedState (k.modifyThread_of_ne t u change hu)
        exact hsame
      · have hset := congrArg ThreadCapability.blockedState (k.modifyThread_self t change)
        have hself : (change (k.threads t)).blockedState = ⟨some endpoint, false, true, false⟩ :=
          congrArg (fun b : BlockedState => { b with on := some endpoint, onReceive := true })
            hidle
        exact congrArg (fun b : BlockedState => { b with blocked := true }) (hset.trans hself)

theorem Blocking.sendTo (h : k.Blocking) {queue : Container Addr} {links : Addr → Link Addr}
    {caller : Addr} (he : k.IsEndpoint endpoint)
    (hlast : (k.endpoints endpoint).blockedReceiving.start =
      (k.endpoints endpoint).blockedReceiving.last)
    (hpop : listPopFromStart (k.endpoints endpoint).blockedReceiving k.blockedQueues =
      (some t, queue, links))
    (hsend : ((k.setBlockedReceiving endpoint queue).setBlockedQueues links).sendTo fuel
      caller t message badge = some k') : k'.Blocking := by
  let change := fun t : ThreadCapability => { t with
    flags := { t.flags with blockedOnReceive := false }
    blockedOn := none }
  let popped := (k.setBlockedReceiving endpoint queue).setBlockedQueues links
  let woken := (popped.modifyThread t change).deliver message
    ((popped.modifyThread t change).threads t).messageBuffer badge
  simp only [Kernel.sendTo, Option.map_eq_some_iff] at hsend
  obtain ⟨k₁, htransfer, rfl⟩ := hsend
  have hwaits : (k.threads t).blockedState.Waits (endpoint, .receiving) :=
    h.start_waits he (listPopFromStart_start hpop)
  have hpop' : listPopFromStart (k.endpointQueue (endpoint, .receiving)) k.blockedQueues =
    (some t, queue, links) := hpop
  have hlast' : (k.endpointQueue (endpoint, .receiving)).start =
    (k.endpointQueue (endpoint, .receiving)).last := hlast
  have htransferred : woken.SameBlocking k₁ := transferCapabilities_sameBlocking htransfer
  refine h.meet he hlast' hpop' ?_ ?_ ?_ ?_ ?_ htransferred
  · rfl
  · exact k.endpointQueue_setBlockedReceiving endpoint queue
  · have hlinks := popped.blockedQueues_modifyThread t change rfl
    exact hlinks
  · intro u hu
    have hsame := congrArg ThreadCapability.blockedState (popped.modifyThread_of_ne t u change hu)
    exact hsame
  · have hset := congrArg ThreadCapability.blockedState (popped.modifyThread_self t change)
    have hself : (change (popped.threads t)).blockedState = ⟨none, false, false, true⟩ :=
      congrArg (fun b : BlockedState => { b with on := none, onReceive := false }) hwaits
    exact congrArg (fun b : BlockedState => { b with blocked := false }) (hset.trans hself)

theorem Blocking.receiveFrom (h : k.Blocking) {queue : Container Addr}
    {links : Addr → Link Addr} {caller : Addr} (he : k.IsEndpoint endpoint)
    (hlast : (k.endpoints endpoint).blockedSending.start =
      (k.endpoints endpoint).blockedSending.last)
    (hpop : listPopFromStart (k.endpoints endpoint).blockedSending k.blockedQueues =
      (some t, queue, links))
    (hreceive : ((k.setBlockedSending endpoint queue).setBlockedQueues links).receiveFrom fuel
      caller t message = some k') : k'.Blocking := by
  let change := fun t : ThreadCapability => { t with
    flags := { t.flags with blockedOnSend := false }
    blockedOn := none }
  let popped := (k.setBlockedSending endpoint queue).setBlockedQueues links
  let woken := (popped.modifyThread t change).deliver
    ((popped.modifyThread t change).threads t).messageBuffer message
    ((popped.modifyThread t change).threads t).sendingBadge
  simp only [Kernel.receiveFrom, Option.map_eq_some_iff] at hreceive
  obtain ⟨k₁, htransfer, rfl⟩ := hreceive
  have hwaits : (k.threads t).blockedState.Waits (endpoint, .sending) :=
    h.start_waits he (listPopFromStart_start hpop)
  have hpop' : listPopFromStart (k.endpointQueue (endpoint, .sending)) k.blockedQueues =
    (some t, queue, links) := hpop
  have hlast' : (k.endpointQueue (endpoint, .sending)).start =
    (k.endpointQueue (endpoint, .sending)).last := hlast
  have htransferred : woken.SameBlocking k₁ := transferCapabilities_sameBlocking htransfer
  refine h.meet he hlast' hpop' ?_ ?_ ?_ ?_ ?_ htransferred
  · rfl
  · exact k.endpointQueue_setBlockedSending endpoint queue
  · have hlinks := popped.blockedQueues_modifyThread t change rfl
    exact hlinks
  · intro u hu
    have hsame := congrArg ThreadCapability.blockedState (popped.modifyThread_of_ne t u change hu)
    exact hsame
  · have hset := congrArg ThreadCapability.blockedState (popped.modifyThread_self t change)
    have hself : (change (popped.threads t)).blockedState = ⟨none, false, false, true⟩ :=
      congrArg (fun b : BlockedState => { b with on := none, onSend := false }) hwaits
    exact congrArg (fun b : BlockedState => { b with blocked := false }) (hset.trans hself)

/-- The call leaves at most one element on the queue that it pops from. -/
theorem Blocking.endpointSend (h : k.Blocking) {slot : SlotPtr} {result : Nat}
    (hcurrent : k.scheduler.currentThread = some t) (hthread : k.IsThread t)
    (hblocked : ¬k.IsBlocked t) (he : k.IsEndpoint (k.space.slots slot).resource)
    (hlast : (k.endpoints (k.space.slots slot).resource).blockedReceiving.start =
      (k.endpoints (k.space.slots slot).resource).blockedReceiving.last)
    (hsend : k.endpointSend fuel slot message = some (result, k')) : k'.Blocking := by
  simp only [Kernel.endpointSend, hcurrent, Option.bind_some, popReceiving] at hsend
  cases hpop : listPopFromStart (k.endpoints (k.space.slots slot).resource).blockedReceiving
      k.blockedQueues with
  | mk receiving popped =>
      obtain ⟨queue, links⟩ := popped
      rw [hpop] at hsend
      cases receiving with
      | none =>
          cases hsend
          exact h.blockSending he hthread (h.idle hthread hblocked)
      | some receiving =>
          simp only [Option.map_eq_some_iff, Prod.mk.injEq] at hsend
          obtain ⟨k₁, hsend, -, rfl⟩ := hsend
          exact h.sendTo he hlast hpop hsend

theorem Blocking.endpointReceive (h : k.Blocking) {slot : SlotPtr} {result : Nat}
    (hcurrent : k.scheduler.currentThread = some t) (hthread : k.IsThread t)
    (hblocked : ¬k.IsBlocked t) (he : k.IsEndpoint (k.space.slots slot).resource)
    (hlast : (k.endpoints (k.space.slots slot).resource).blockedSending.start =
      (k.endpoints (k.space.slots slot).resource).blockedSending.last)
    (hreceive : k.endpointReceive fuel slot message = some (result, k')) : k'.Blocking := by
  simp only [Kernel.endpointReceive, hcurrent, Option.bind_some, popSending] at hreceive
  cases hpop : listPopFromStart (k.endpoints (k.space.slots slot).resource).blockedSending
      k.blockedQueues with
  | mk sending popped =>
      obtain ⟨queue, links⟩ := popped
      rw [hpop] at hreceive
      cases sending with
      | none =>
          cases hreceive
          exact h.blockReceiving he hthread (h.idle hthread hblocked)
      | some sending =>
          simp only [Option.map_eq_some_iff, Prod.mk.injEq] at hreceive
          obtain ⟨k₁, hreceive, -, rfl⟩ := hreceive
          exact h.receiveFrom he hlast hpop hreceive

end Kernel

end Cenix
