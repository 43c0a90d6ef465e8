import Cenix.Endpoint.Queues
import Cenix.Kernel.Boot
import Cenix.LinkedLists.Fifo
import Cenix.Rendezvous
import Cenix.Runs

namespace Cenix

open LinkedLists

/-! Sends and receives on endpoints as rendezvous. -/

/-- A call of `endpoint_send` or `endpoint_receive`. -/
structure EndpointCall where
  thread : Addr
  message : Addr
  badge : Nat
  deriving DecidableEq, Repr

/-- The calls on every endpoint. -/
abbrev EndpointHistory := Addr → Rendezvous EndpointCall EndpointCall

def EndpointHistory.pending (history : EndpointHistory) : Addr × Direction → List EndpointCall
  | (endpoint, .sending) => (history endpoint).pendingSends
  | (endpoint, .receiving) => (history endpoint).pendingReceives

def EndpointHistory.waiting (history : EndpointHistory) (queue : Addr × Direction) :
    List Addr :=
  (history.pending queue).map (·.thread)

namespace EndpointHistory

variable (history : EndpointHistory) (endpoint : Addr) (call other : EndpointCall)

def recordSend : EndpointHistory :=
  Function.update history endpoint ((history endpoint).send call)

def recordReceive : EndpointHistory :=
  Function.update history endpoint ((history endpoint).receive call)

variable {history endpoint call other} {rest : List EndpointCall}

/-- A send that meets no receive is the last one to wait. -/
theorem recordSend_block (h : history.pending (endpoint, .receiving) = [])
    (queue : Addr × Direction) :
    (history.recordSend endpoint call).pending queue =
      if queue = (endpoint, .sending) then history.pending queue ++ [call]
      else history.pending queue := by
  obtain ⟨e, direction⟩ := queue
  simp only [pending] at h
  cases decEq e endpoint with
  | isTrue he =>
      subst he
      cases direction with
      | sending => simp [pending, recordSend, Rendezvous.send_pendingSends, h]
      | receiving => simp [pending, recordSend, h]
  | isFalse he => cases direction <;> simp [pending, recordSend, he]

/-- A send that meets a receive takes the first one that waits. -/
theorem recordSend_wake (h : history.pending (endpoint, .receiving) = other :: rest)
    (queue : Addr × Direction) :
    (history.recordSend endpoint call).pending queue =
      if queue = (endpoint, .receiving) then rest else history.pending queue := by
  obtain ⟨e, direction⟩ := queue
  simp only [pending] at h
  have hsends : (history endpoint).pendingSends = [] := by
    cases (history endpoint).pendingSends_eq_nil_or with
    | inl hnone => exact hnone
    | inr hnone => simp [hnone] at h
  cases decEq e endpoint with
  | isTrue he =>
      subst he
      cases direction with
      | sending => simp [pending, recordSend, Rendezvous.send_pendingSends, h, hsends]
      | receiving => simp [pending, recordSend, h]
  | isFalse he => cases direction <;> simp [pending, recordSend, he]

theorem recordReceive_block (h : history.pending (endpoint, .sending) = [])
    (queue : Addr × Direction) :
    (history.recordReceive endpoint call).pending queue =
      if queue = (endpoint, .receiving) then history.pending queue ++ [call]
      else history.pending queue := by
  obtain ⟨e, direction⟩ := queue
  simp only [pending] at h
  cases decEq e endpoint with
  | isTrue he =>
      subst he
      cases direction with
      | sending => simp [pending, recordReceive, h]
      | receiving => simp [pending, recordReceive, Rendezvous.receive_pendingReceives, h]
  | isFalse he => cases direction <;> simp [pending, recordReceive, he]

theorem recordReceive_wake (h : history.pending (endpoint, .sending) = other :: rest)
    (queue : Addr × Direction) :
    (history.recordReceive endpoint call).pending queue =
      if queue = (endpoint, .sending) then rest else history.pending queue := by
  obtain ⟨e, direction⟩ := queue
  simp only [pending] at h
  have hreceives : (history endpoint).pendingReceives = [] := by
    cases (history endpoint).pendingSends_eq_nil_or with
    | inl hnone => simp [hnone] at h
    | inr hnone => exact hnone
  cases decEq e endpoint with
  | isTrue he =>
      subst he
      cases direction with
      | sending => simp [pending, recordReceive, h]
      | receiving =>
          simp [pending, recordReceive, Rendezvous.receive_pendingReceives, h, hreceives]
  | isFalse he => cases direction <;> simp [pending, recordReceive, he]

end EndpointHistory

namespace Kernel

/-- The queues of blocked threads hold the calls that have not met another one
yet, with what those calls left in their threads. -/
structure Matches (k : Kernel) (history : EndpointHistory) : Prop where
  fifos : Fifos k.endpointQueue k.blockedQueues history.waiting
  stored : ∀ queue, ∀ call ∈ history.pending queue,
    (k.threads call.thread).messageBuffer = call.message ∧
      (k.threads call.thread).sendingBadge = call.badge
  blocked : ∀ t, k.IsBlocked t ↔ ∃ queue, t ∈ history.waiting queue

namespace Matches

variable {k k' : Kernel} {history history' : EndpointHistory} {t : Addr}

theorem congr (h : k.Matches history) (hendpoints : k'.endpoints = k.endpoints)
    (hlinks : ∀ t, (k'.threads t).blockedQueue = (k.threads t).blockedQueue)
    (hbuffer : ∀ t, (k'.threads t).messageBuffer = (k.threads t).messageBuffer)
    (hbadge : ∀ t, (k'.threads t).sendingBadge = (k.threads t).sendingBadge)
    (hblocked : ∀ t, k'.IsBlocked t ↔ k.IsBlocked t) : k'.Matches history where
  fifos := by
    rw [endpointQueue_congr hendpoints]
    exact h.fifos.congr (fun _ => rfl) hlinks
  stored queue call hcall := by
    rw [hbuffer, hbadge]
    exact h.stored queue call hcall
  blocked t := (hblocked t).trans (h.blocked t)

theorem resumeThread (h : k.Matches history) (t : Addr) (reason : BitVec 8)
    (hreason : getElem reason 0 blockedBit_lt = false) : (k.resumeThread t reason).Matches history := by
  apply h.congr (k.resumeThread_endpoints t reason)
  · exact fun u => Unscheduled.resumeThread
      ⟨fun _ _ => rfl, fun _ _ => rfl, fun _ _ => rfl⟩ k t u reason
  · exact fun u => Unscheduled.resumeThread
      ⟨fun _ _ => rfl, fun _ _ => rfl, fun _ _ => rfl⟩ k t u reason
  · exact fun u => Unscheduled.resumeThread
      ⟨fun _ _ => rfl, fun _ _ => rfl, fun _ _ => rfl⟩ k t u reason
  · intro u
    unfold IsBlocked
    rw [resumeThread_execMode]
    split
    · simp [hreason]
    · rfl

theorem suspendThread (h : k.Matches history) (t : Addr) (newExecMode : BitVec 8)
    (hmode : getElem newExecMode 0 blockedBit_lt = false) :
    (k.suspendThread t newExecMode).Matches history := by
  apply h.congr (k.suspendThread_endpoints t newExecMode)
  · exact fun u => Unscheduled.suspendThread
      ⟨fun _ _ => rfl, fun _ _ => rfl, fun _ _ => rfl⟩ k t u newExecMode
  · exact fun u => Unscheduled.suspendThread
      ⟨fun _ _ => rfl, fun _ _ => rfl, fun _ _ => rfl⟩ k t u newExecMode
  · exact fun u => Unscheduled.suspendThread
      ⟨fun _ _ => rfl, fun _ _ => rfl, fun _ _ => rfl⟩ k t u newExecMode
  · intro u
    unfold IsBlocked
    rw [suspendThread_execMode]
    split
    · simp [hmode]
    · rfl

/-- A call that has to wait. -/
theorem block (h : k.Matches history) {queue : Addr × Direction} {call : EndpointCall}
    {c' : Container Addr} (hcaller : ¬ k.IsBlocked call.thread)
    (happend : listAppend (k.endpointQueue queue) k.blockedQueues call.thread =
      (c', k'.blockedQueues))
    (hqueue : ∀ q, k'.endpointQueue q = if q = queue then c' else k.endpointQueue q)
    (hpending : ∀ q, history'.pending q =
      if q = queue then history.pending q ++ [call] else history.pending q)
    (hself : (k'.threads call.thread).messageBuffer = call.message ∧
      (k'.threads call.thread).sendingBadge = call.badge)
    (hother : ∀ u, u ≠ call.thread →
      (k'.threads u).messageBuffer = (k.threads u).messageBuffer ∧
        (k'.threads u).sendingBadge = (k.threads u).sendingBadge)
    (hblocked : ∀ u, k'.IsBlocked u ↔ u = call.thread ∨ k.IsBlocked u) :
    k'.Matches history' := by
  have hfree : ∀ q, call.thread ∉ history.waiting q :=
    fun q hq => hcaller ((h.blocked call.thread).mpr ⟨q, hq⟩)
  have hwaiting : ∀ q, history'.waiting q =
      if q = queue then history.waiting queue ++ [call.thread] else history.waiting q := by
    intro q
    rw [EndpointHistory.waiting, hpending]
    split
    · rename_i hq
      rw [hq, List.map_append]
      rfl
    · rfl
  constructor
  · exact h.fifos.append hfree happend hqueue hwaiting
  · intro q c hc
    have hcases : c = call ∨ c ∈ history.pending q := by
      rw [hpending] at hc
      split at hc
      · rw [List.mem_append, List.mem_singleton] at hc
        exact hc.symm
      · exact .inr hc
    cases hcases with
    | inl hcall =>
        subst hcall
        exact hself
    | inr hc =>
        have hne : c.thread ≠ call.thread := by
          intro heq
          exact hfree q (heq ▸ List.mem_map_of_mem hc)
        rw [(hother _ hne).1, (hother _ hne).2]
        exact h.stored q c hc
  · intro u
    rw [hblocked, h.blocked]
    constructor
    · intro hu
      cases hu with
      | inl hu => exact ⟨queue, by simp [hwaiting, hu]⟩
      | inr hu =>
          obtain ⟨q, hq⟩ := hu
          refine ⟨q, ?_⟩
          rw [hwaiting]
          split
          · rename_i heq
            rw [heq] at hq
            exact List.mem_append_left _ hq
          · exact hq
    · intro hu
      obtain ⟨q, hq⟩ := hu
      rw [hwaiting] at hq
      split at hq
      · rw [List.mem_append, List.mem_singleton] at hq
        cases hq with
        | inl hq => exact .inr ⟨queue, hq⟩
        | inr hq => exact .inl hq
      · exact .inr ⟨q, hq⟩

/-- The first waiting call is met by another one. -/
theorem wake (h : k.Matches history) {queue : Addr × Direction} {call : EndpointCall}
    {rest : List EndpointCall} (hfirst : history.pending queue = call :: rest)
    (hlinks : k'.blockedQueues = Function.update k.blockedQueues call.thread Link.empty)
    (hqueue : ∀ q, k'.endpointQueue q =
      if q = queue then
        ⟨(rest.map (·.thread)).head?, (rest.map (·.thread)).getLast?⟩
      else k.endpointQueue q)
    (hpending : ∀ q, history'.pending q = if q = queue then rest else history.pending q)
    (hother : ∀ u, u ≠ call.thread →
      (k'.threads u).messageBuffer = (k.threads u).messageBuffer ∧
        (k'.threads u).sendingBadge = (k.threads u).sendingBadge)
    (hblocked : ∀ u, k'.IsBlocked u ↔ u ≠ call.thread ∧ k.IsBlocked u) :
    k'.Matches history' := by
  have hhead : history.waiting queue = call.thread :: rest.map (·.thread) := by
    rw [EndpointHistory.waiting, hfirst]
    rfl
  have hwaiting : ∀ q, history'.waiting q =
      if q = queue then rest.map (·.thread) else history.waiting q := by
    intro q
    rw [EndpointHistory.waiting, hpending]
    split <;> rfl
  have hnodup : (call.thread :: rest.map (·.thread)).Nodup := hhead ▸ (h.fifos.fifo queue).nodup
  have hnot : ∀ q, call.thread ∉ history'.waiting q := by
    intro q hq
    rw [hwaiting] at hq
    split at hq
    · exact (List.nodup_cons.mp hnodup).1 hq
    · rename_i hne
      apply hne
      apply h.fifos.disjoint q queue call.thread hq
      rw [hhead]
      exact List.mem_cons_self
  have hold : ∀ q u, u ∈ history'.waiting q → u ∈ history.waiting q := by
    intro q u hu
    rw [hwaiting] at hu
    split at hu
    · rename_i heq
      rw [heq, hhead]
      exact List.mem_cons_of_mem _ hu
    · exact hu
  constructor
  · rw [hlinks]
    exact h.fifos.pop hhead hqueue hwaiting
  · intro q c hc
    have hne : c.thread ≠ call.thread := by
      intro heq
      exact hnot q (heq ▸ List.mem_map_of_mem hc)
    rw [(hother _ hne).1, (hother _ hne).2]
    apply h.stored q c
    rw [hpending] at hc
    split at hc
    · rename_i heq
      rw [heq, hfirst]
      exact List.mem_cons_of_mem _ hc
    · exact hc
  · intro u
    rw [hblocked, h.blocked]
    constructor
    · intro hu
      obtain ⟨hne, q, hq⟩ := hu
      refine ⟨q, ?_⟩
      rw [hwaiting]
      split
      · rename_i heq
        rw [heq, hhead] at hq
        exact (List.mem_cons.mp hq).resolve_left hne
      · exact hq
    · intro hu
      obtain ⟨q, hq⟩ := hu
      refine ⟨?_, q, hold q u hq⟩
      intro heq
      exact hnot q (heq ▸ hq)

end Matches

/-! Deliveries. -/

/-- What a step writes to the message of a receiving call. -/
structure Delivery where
  dest : Addr
  buffer : Vector (BitVec 8) ipcBufferSize
  badge : Nat

/-- The step from `k` to `k'` makes this delivery and writes to no other message;
without one it writes to none. -/
def Delivers (k k' : Kernel) : Option Delivery → Prop
  | none => k'.messages = k.messages
  | some delivery =>
      (k'.messages delivery.dest).buffer = delivery.buffer ∧
        (k'.messages delivery.dest).badge = delivery.badge ∧
        ∀ a, a ≠ delivery.dest → k'.messages a = k.messages a

variable {k k' : Kernel} {history : EndpointHistory} {fuel : Nat}

theorem deliver_delivers {source dest : Addr} {badge : Nat}
    (htransferred : Transferred dest (k.deliver source dest badge) k') :
    Delivers k k' (some ⟨dest, (k.messages source).buffer, badge⟩) := by
  obtain ⟨s, kinds, bits, rfl⟩ := htransferred
  refine ⟨?_, ?_, ?_⟩
  · rw [(setTransferred_buffer _ _ _ _).1]
    simp [deliver, modifyMessage]
  · rw [(setTransferred_buffer _ _ _ _).2]
    simp [deliver, modifyMessage]
  · intro a ha
    simp [setTransferred, deliver, modifyMessage, ha]

theorem Delivers.resumeThread {delivery : Option Delivery} (h : Delivers k k' delivery)
    (t : Addr) (reason : BitVec 8) : Delivers k (k'.resumeThread t reason) delivery := by
  cases delivery with
  | none => exact (resumeThread_messages k' t reason).trans h
  | some delivery =>
      unfold Delivers at h ⊢
      rw [resumeThread_messages]
      exact h

namespace Matches

variable {endpoint caller message : Addr} {badge : Nat}

/-- A thread is put on a queue with its call and blocked. -/
theorem enqueue (h : k.Matches history) {history' : EndpointHistory}
    {queue : Addr × Direction} {call : EndpointCall} {c' : Container Addr}
    {links : Addr → Link Addr} {set : Kernel}
    (change : ThreadCapability → ThreadCapability) (hcaller : ¬ k.IsBlocked call.thread)
    (happend : listAppend (k.endpointQueue queue) k.blockedQueues call.thread = (c', links))
    (hthreads : ∀ u, set.threads u =
      { (k.modifyThread call.thread change).threads u with blockedQueue := links u })
    (hqueue : ∀ q, set.endpointQueue q = if q = queue then c' else k.endpointQueue q)
    (hpending : ∀ q, history'.pending q =
      if q = queue then history.pending q ++ [call] else history.pending q)
    (hmessage : ∀ t, (change t).messageBuffer = call.message)
    (hbadge : ∀ t, (change t).sendingBadge = call.badge)
    (hmode : ∀ t, (change t).execMode = t.execMode) :
    (set.suspendThread call.thread execModeBlocked).Matches history' := by
  have hlink : Unscheduled fun t => t.blockedQueue :=
    ⟨fun _ _ => rfl, fun _ _ => rfl, fun _ _ => rfl⟩
  have hbuffer' : Unscheduled fun t => t.messageBuffer :=
    ⟨fun _ _ => rfl, fun _ _ => rfl, fun _ _ => rfl⟩
  have hbadge' : Unscheduled fun t => t.sendingBadge :=
    ⟨fun _ _ => rfl, fun _ _ => rfl, fun _ _ => rfl⟩
  have hlinks : (set.suspendThread call.thread execModeBlocked).blockedQueues = links := by
    funext u
    exact (hlink.suspendThread ..).trans (by rw [hthreads])
  rw [← hlinks] at happend
  apply h.block hcaller happend _ hpending
  · constructor
    · rw [hbuffer'.suspendThread, hthreads, modifyThread_self, hmessage]
    · rw [hbadge'.suspendThread, hthreads, modifyThread_self, hbadge]
  · intro u hu
    constructor
    · rw [hbuffer'.suspendThread, hthreads, modifyThread_of_ne _ _ _ _ hu]
    · rw [hbadge'.suspendThread, hthreads, modifyThread_of_ne _ _ _ _ hu]
  · intro u
    have hset : set.IsBlocked u ↔ k.IsBlocked u := by
      unfold IsBlocked
      rw [hthreads]
      exact iff_of_eq (congrArg (fun mode : BitVec 8 => mode[0] = true)
        (modifyThread_field k call.thread u (·.execMode) change (hmode _)))
    rw [suspended_blocked, hset]
  · intro q
    rw [endpointQueue_congr (suspendThread_endpoints ..), hqueue]

theorem blockSending (h : k.Matches history) (hcaller : ¬ k.IsBlocked caller)
    (hnone : history.pending (endpoint, .receiving) = []) :
    (k.blockSending endpoint caller message badge).Matches
      (history.recordSend endpoint ⟨caller, message, badge⟩) := by
  let change := fun t : ThreadCapability => { t with
    messageBuffer := message
    sendingBadge := badge
    blockedOn := some endpoint
    flags := { t.flags with blockedOnSend := true } }
  have hlinks := k.blockedQueues_modifyThread caller change rfl
  let call : EndpointCall := ⟨caller, message, badge⟩
  cases happend : listAppend (k.endpointQueue (endpoint, .sending)) k.blockedQueues
      call.thread with
  | mk queue links =>
      have happend' : listAppend (k.endpoints endpoint).blockedSending k.blockedQueues
          caller = (queue, links) := happend
      unfold Kernel.blockSending
      simp only [change] at hlinks
      simp only [modifyThread_endpoints, hlinks, happend']
      apply h.enqueue change hcaller happend
      · exact fun _ => rfl
      · exact k.endpointQueue_setBlockedSending endpoint queue
      · exact EndpointHistory.recordSend_block hnone
      · exact fun _ => rfl
      · exact fun _ => rfl
      · exact fun _ => rfl

theorem blockReceiving (h : k.Matches history) (hcaller : ¬ k.IsBlocked caller)
    (hnone : history.pending (endpoint, .sending) = []) :
    (k.blockReceiving endpoint caller message badge).Matches
      (history.recordReceive endpoint ⟨caller, message, badge⟩) := by
  let change := fun t : ThreadCapability => { t with
    messageBuffer := message
    sendingBadge := badge
    blockedOn := some endpoint
    flags := { t.flags with blockedOnReceive := true } }
  have hlinks := k.blockedQueues_modifyThread caller change rfl
  let call : EndpointCall := ⟨caller, message, badge⟩
  cases happend : listAppend (k.endpointQueue (endpoint, .receiving)) k.blockedQueues
      call.thread with
  | mk queue links =>
      have happend' : listAppend (k.endpoints endpoint).blockedReceiving k.blockedQueues
          caller = (queue, links) := happend
      unfold Kernel.blockReceiving
      simp only [change] at hlinks
      simp only [modifyThread_endpoints, hlinks, happend']
      apply h.enqueue change hcaller happend
      · exact fun _ => rfl
      · exact k.endpointQueue_setBlockedReceiving endpoint queue
      · exact EndpointHistory.recordReceive_block hnone
      · exact fun _ => rfl
      · exact fun _ => rfl
      · exact fun _ => rfl

/-- The thread of the first waiting call is taken off its queue and woken up. -/
theorem dequeue (h : k.Matches history) {history' : EndpointHistory} {woken : Kernel}
    {queue : Addr × Direction} {call : EndpointCall} {rest : List EndpointCall}
    (hfirst : history.pending queue = call :: rest)
    (hlinks : woken.blockedQueues = Function.update k.blockedQueues call.thread Link.empty)
    (hqueue : ∀ q, woken.endpointQueue q =
      if q = queue then
        ⟨(rest.map (·.thread)).head?, (rest.map (·.thread)).getLast?⟩
      else k.endpointQueue q)
    (hpending : ∀ q, history'.pending q = if q = queue then rest else history.pending q)
    (hbuffer : ∀ u, (woken.threads u).messageBuffer = (k.threads u).messageBuffer)
    (hbadge : ∀ u, (woken.threads u).sendingBadge = (k.threads u).sendingBadge)
    (hmode : ∀ u, (woken.threads u).execMode = (k.threads u).execMode) :
    (woken.resumeThread call.thread execModeBlocked).Matches history' := by
  have hlink : Unscheduled fun t => t.blockedQueue :=
    ⟨fun _ _ => rfl, fun _ _ => rfl, fun _ _ => rfl⟩
  have hbuffer' : Unscheduled fun t => t.messageBuffer :=
    ⟨fun _ _ => rfl, fun _ _ => rfl, fun _ _ => rfl⟩
  have hbadge' : Unscheduled fun t => t.sendingBadge :=
    ⟨fun _ _ => rfl, fun _ _ => rfl, fun _ _ => rfl⟩
  apply h.wake hfirst _ _ hpending
  · intro u _
    exact ⟨(hbuffer'.resumeThread ..).trans (hbuffer u),
      (hbadge'.resumeThread ..).trans (hbadge u)⟩
  · intro u
    have hwoken : woken.IsBlocked u ↔ k.IsBlocked u := by
      unfold IsBlocked
      rw [hmode]
    rw [resumed_blocked, hwoken]
  · rw [← hlinks]
    funext u
    exact hlink.resumeThread ..
  · intro q
    rw [endpointQueue_congr (resumeThread_endpoints ..), hqueue]

theorem popReceiving_eq (h : k.Matches history) {call : EndpointCall}
    {rest : List EndpointCall}
    (hfirst : history.pending (endpoint, .receiving) = call :: rest) :
    k.popReceiving endpoint = (some call.thread,
      (k.setBlockedReceiving endpoint ⟨(rest.map (·.thread)).head?,
        (rest.map (·.thread)).getLast?⟩).setBlockedQueues
          (Function.update k.blockedQueues call.thread Link.empty)) := by
  have hfifo := h.fifos.fifo (endpoint, .receiving)
  rw [EndpointHistory.waiting, hfirst] at hfifo
  have hpop : listPopFromStart (k.endpoints endpoint).blockedReceiving k.blockedQueues = _ :=
    hfifo.pop_eq
  unfold Kernel.popReceiving
  rw [hpop]

theorem popReceiving_none (h : k.Matches history)
    (hnone : history.pending (endpoint, .receiving) = []) :
    (k.popReceiving endpoint).1 = none := by
  have hfifo := h.fifos.fifo (endpoint, .receiving)
  rw [EndpointHistory.waiting, hnone] at hfifo
  have hstart : (k.endpoints endpoint).blockedReceiving.start = none := hfifo.start_eq
  unfold Kernel.popReceiving listPopFromStart
  rw [hstart]

theorem popSending_eq (h : k.Matches history) {call : EndpointCall}
    {rest : List EndpointCall}
    (hfirst : history.pending (endpoint, .sending) = call :: rest) :
    k.popSending endpoint = (some call.thread,
      (k.setBlockedSending endpoint ⟨(rest.map (·.thread)).head?,
        (rest.map (·.thread)).getLast?⟩).setBlockedQueues
          (Function.update k.blockedQueues call.thread Link.empty)) := by
  have hfifo := h.fifos.fifo (endpoint, .sending)
  rw [EndpointHistory.waiting, hfirst] at hfifo
  have hpop : listPopFromStart (k.endpoints endpoint).blockedSending k.blockedQueues = _ :=
    hfifo.pop_eq
  unfold Kernel.popSending
  rw [hpop]

theorem popSending_none (h : k.Matches history)
    (hnone : history.pending (endpoint, .sending) = []) :
    (k.popSending endpoint).1 = none := by
  have hfifo := h.fifos.fifo (endpoint, .sending)
  rw [EndpointHistory.waiting, hnone] at hfifo
  have hstart : (k.endpoints endpoint).blockedSending.start = none := hfifo.start_eq
  unfold Kernel.popSending listPopFromStart
  rw [hstart]

/-- The first waiting call is met: its thread is woken up after the message has
been handed over. -/
theorem meet (h : k.Matches history) {history' : EndpointHistory} {woken k₁ : Kernel}
    {queue : Addr × Direction} {call : EndpointCall} {rest : List EndpointCall}
    {source dest : Addr} (hfirst : history.pending queue = call :: rest)
    (hlinks : woken.blockedQueues = Function.update k.blockedQueues call.thread Link.empty)
    (hqueue : ∀ q, woken.endpointQueue q =
      if q = queue then
        ⟨(rest.map (·.thread)).head?, (rest.map (·.thread)).getLast?⟩
      else k.endpointQueue q)
    (hpending : ∀ q, history'.pending q = if q = queue then rest else history.pending q)
    (hbuffer : ∀ u, (woken.threads u).messageBuffer = (k.threads u).messageBuffer)
    (hbadge : ∀ u, (woken.threads u).sendingBadge = (k.threads u).sendingBadge)
    (hmode : ∀ u, (woken.threads u).execMode = (k.threads u).execMode)
    (hmessages : woken.messages = k.messages)
    (htransferred : Transferred dest (woken.deliver source dest badge) k₁) :
    (k₁.resumeThread call.thread execModeBlocked).Matches history' ∧
      Delivers k (k₁.resumeThread call.thread execModeBlocked)
        (some ⟨dest, (k.messages source).buffer, badge⟩) := by
  have hdelivers := deliver_delivers htransferred
  constructor
  · obtain ⟨s, kinds, bits, rfl⟩ := htransferred
    exact h.dequeue hfirst hlinks hqueue hpending hbuffer hbadge hmode
  · apply Delivers.resumeThread
    unfold Delivers at hdelivers ⊢
    rw [hmessages] at hdelivers
    exact hdelivers

theorem sendTo (h : k.Matches history) {call : EndpointCall} {rest : List EndpointCall}
    (hfirst : history.pending (endpoint, .receiving) = call :: rest)
    (hsend : (k.popReceiving endpoint).2.sendTo fuel caller call.thread message badge =
      some k') :
    k'.Matches (history.recordSend endpoint ⟨caller, message, badge⟩) ∧
      Delivers k k' (some ⟨call.message, (k.messages message).buffer, badge⟩) := by
  let change := fun t : ThreadCapability => { t with
    flags := { t.flags with blockedOnReceive := false }
    blockedOn := none }
  rw [h.popReceiving_eq hfirst] at hsend
  generalize hpopped : (k.setBlockedReceiving endpoint ⟨(rest.map (·.thread)).head?,
    (rest.map (·.thread)).getLast?⟩).setBlockedQueues
      (Function.update k.blockedQueues call.thread Link.empty) = popped at hsend
  have hbuffer : ∀ u, ((popped.modifyThread call.thread change).threads u).messageBuffer =
      (k.threads u).messageBuffer := by
    intro u
    rw [popped.modifyThread_field call.thread u (·.messageBuffer) change rfl, ← hpopped]
    rfl
  simp only [Kernel.sendTo, Option.map_eq_some_iff] at hsend
  obtain ⟨k₁, htransfer, rfl⟩ := hsend
  have htransferred := transferCapabilities_frame htransfer
  have hdest : ((popped.modifyThread call.thread change).threads
      call.thread).messageBuffer = call.message :=
    (hbuffer _).trans (h.stored (endpoint, .receiving) call (by simp [hfirst])).1
  rw [hdest] at htransferred
  apply h.meet hfirst _ _ (EndpointHistory.recordSend_wake hfirst) hbuffer _ _ _ htransferred
  · rw [popped.blockedQueues_modifyThread call.thread change rfl, ← hpopped]
    rfl
  · intro q
    rw [endpointQueue_congr (popped.modifyThread_endpoints call.thread change), ← hpopped]
    exact k.endpointQueue_setBlockedReceiving endpoint _ q
  · intro u
    rw [popped.modifyThread_field call.thread u (·.sendingBadge) change rfl, ← hpopped]
    rfl
  · intro u
    rw [popped.modifyThread_field call.thread u (·.execMode) change rfl, ← hpopped]
    rfl
  · rw [← hpopped]
    rfl

theorem receiveFrom (h : k.Matches history) {call : EndpointCall}
    {rest : List EndpointCall} (hfirst : history.pending (endpoint, .sending) = call :: rest)
    (hreceive : (k.popSending endpoint).2.receiveFrom fuel caller call.thread message =
      some k') :
    k'.Matches (history.recordReceive endpoint ⟨caller, message, badge⟩) ∧
      Delivers k k' (some ⟨message, (k.messages call.message).buffer, call.badge⟩) := by
  let change := fun t : ThreadCapability => { t with
    flags := { t.flags with blockedOnSend := false }
    blockedOn := none }
  have hstored := h.stored (endpoint, .sending) call (by simp [hfirst])
  rw [h.popSending_eq hfirst] at hreceive
  generalize hpopped : (k.setBlockedSending endpoint ⟨(rest.map (·.thread)).head?,
    (rest.map (·.thread)).getLast?⟩).setBlockedQueues
      (Function.update k.blockedQueues call.thread Link.empty) = popped at hreceive
  have hbuffer : ∀ u, ((popped.modifyThread call.thread change).threads u).messageBuffer =
      (k.threads u).messageBuffer := by
    intro u
    rw [popped.modifyThread_field call.thread u (·.messageBuffer) change rfl, ← hpopped]
    rfl
  have hbadge : ∀ u, ((popped.modifyThread call.thread change).threads u).sendingBadge =
      (k.threads u).sendingBadge := by
    intro u
    rw [popped.modifyThread_field call.thread u (·.sendingBadge) change rfl, ← hpopped]
    rfl
  simp only [Kernel.receiveFrom, Option.map_eq_some_iff] at hreceive
  obtain ⟨k₁, htransfer, rfl⟩ := hreceive
  have htransferred := transferCapabilities_frame htransfer
  have hsource : ((popped.modifyThread call.thread change).threads
      call.thread).messageBuffer = call.message := (hbuffer _).trans hstored.1
  have hsent : ((popped.modifyThread call.thread change).threads
      call.thread).sendingBadge = call.badge := (hbadge _).trans hstored.2
  rw [hsource, hsent] at htransferred
  apply h.meet hfirst _ _ (EndpointHistory.recordReceive_wake hfirst) hbuffer hbadge _ _
    htransferred
  · rw [popped.blockedQueues_modifyThread call.thread change rfl, ← hpopped]
    rfl
  · intro q
    rw [endpointQueue_congr (popped.modifyThread_endpoints call.thread change), ← hpopped]
    exact k.endpointQueue_setBlockedSending endpoint _ q
  · intro u
    rw [popped.modifyThread_field call.thread u (·.execMode) change rfl, ← hpopped]
    rfl
  · rw [← hpopped]
    rfl

end Matches

/-! Runs. -/

inductive EndpointOp where
  | endpointSend (fuel : Nat) (caller : Addr) (slot : SlotPtr) (message : Addr)
  | endpointReceive (fuel : Nat) (caller : Addr) (slot : SlotPtr) (message : Addr)
  | resume (slot : SlotPtr)
  | suspend (slot : SlotPtr)
  /-- A thread writes to its memory. -/
  | write (message : Addr) (contents : IpcMessage)

/-- What the call through `slot` puts on record. -/
def call (k : Kernel) (caller : Addr) (slot : SlotPtr) (message : Addr) : EndpointCall :=
  ⟨caller, message, (k.space.slots slot).badge⟩

/-- The state of the kernel with the calls that led to it.  A blocked thread makes
no call. -/
def endpointStep (s : Kernel × EndpointHistory) : EndpointOp → Option (Kernel × EndpointHistory)
  | .endpointSend fuel caller slot message =>
      if s.1.IsBlocked caller then
        none
      else
        ((s.1.switchTo caller).endpointSend fuel slot message).map fun (_, k) =>
          (k, s.2.recordSend (s.1.space.slots slot).resource (s.1.call caller slot message))
  | .endpointReceive fuel caller slot message =>
      if s.1.IsBlocked caller then
        none
      else
        ((s.1.switchTo caller).endpointReceive fuel slot message).map fun (_, k) =>
          (k, s.2.recordReceive (s.1.space.slots slot).resource (s.1.call caller slot message))
  | .resume slot => some ((s.1.resume slot).2, s.2)
  | .suspend slot => some ((s.1.suspend slot).2, s.2)
  | .write message contents => some (s.1.modifyMessage message fun _ => contents, s.2)

/-- The message that a call hands over: a send that is the n-th one on its endpoint
to the n-th receive, and a receive that is the n-th one from the n-th send, if that
one has been made. -/
def delivery (k : Kernel) (history : EndpointHistory) : EndpointOp → Option Delivery
  | .endpointSend _ _ slot message =>
      let calls := history (k.space.slots slot).resource
      (calls.receives[calls.sends.length]?).map fun receive =>
        ⟨receive.message, (k.messages message).buffer, (k.space.slots slot).badge⟩
  | .endpointReceive _ _ slot message =>
      let calls := history (k.space.slots slot).resource
      (calls.sends[calls.receives.length]?).map fun send =>
        ⟨message, (k.messages send.message).buffer, send.badge⟩
  | .resume _ | .suspend _ | .write _ _ => none

/-- What a step does to the messages in memory. -/
def HandsOver (s : Kernel × EndpointHistory) (op : EndpointOp) (k' : Kernel) : Prop :=
  match op with
  | .write message contents => k'.messages = Function.update s.1.messages message contents
  | op => Delivers s.1 k' (s.1.delivery s.2 op)

/-- No thread has called an endpoint yet. -/
structure Unblocked (s : Kernel × EndpointHistory) : Prop where
  queues : ∀ e, s.1.endpoints e = ⟨Container.empty, Container.empty⟩
  mode : ∀ t, ¬ s.1.IsBlocked t
  history : ∀ e, s.2 e = Rendezvous.empty

theorem Unblocked.matches {s : Kernel × EndpointHistory} (h : Unblocked s) :
    s.1.Matches s.2 := by
  have hpending : ∀ queue, s.2.pending queue = [] := by
    intro queue
    obtain ⟨endpoint, direction⟩ := queue
    cases direction <;> simp [EndpointHistory.pending, h.history]
  have hwaiting : ∀ queue, s.2.waiting queue = [] := by
    intro queue
    rw [EndpointHistory.waiting, hpending]
    rfl
  constructor
  · constructor
    · intro queue
      have hempty : s.1.endpointQueue queue = Container.empty := by
        obtain ⟨endpoint, direction⟩ := queue
        cases direction <;> simp [endpointQueue, h.queues]
      rw [hwaiting, hempty]
      exact IsFifo.empty
    · intro i j t ht
      rw [hwaiting] at ht
      cases ht
  · intro queue call hcall
    rw [hpending] at hcall
    cases hcall
  · intro t
    simp [h.mode t, hwaiting]

theorem Matches.endpointSend (h : k.Matches history) {caller message : Addr}
    {slot : SlotPtr} {result : Nat} (hcaller : ¬ k.IsBlocked caller)
    (hsend : (k.switchTo caller).endpointSend fuel slot message = some (result, k')) :
    k'.Matches (history.recordSend (k.space.slots slot).resource
        (k.call caller slot message)) ∧
      Delivers k k' (k.delivery history (.endpointSend fuel caller slot message)) := by
  have hswitched : (k.switchTo caller).Matches history :=
    h.congr rfl (fun _ => rfl) (fun _ => rfl) (fun _ => rfl) (fun _ => Iff.rfl)
  have hhead := (history (k.space.slots slot).resource).pendingReceives_head
  simp only [Kernel.endpointSend, switchTo, Option.bind_some] at hsend
  simp only [delivery, ← hhead]
  cases hpending : history.pending ((k.space.slots slot).resource, .receiving) with
  | nil =>
      have hpop := hswitched.popReceiving_none hpending
      have hnone : (history (k.space.slots slot).resource).pendingReceives = [] := hpending
      rw [hnone]
      split at hsend
      · rename_i hpop'
        have hmet := (congrArg Prod.fst hpop').symm.trans hpop
        cases hmet
      · cases hsend
        exact ⟨hswitched.blockSending hcaller hpending, suspendThread_messages ..⟩
  | cons call rest =>
      have hpop := hswitched.popReceiving_eq hpending
      have hsome : (history (k.space.slots slot).resource).pendingReceives = call :: rest :=
        hpending
      rw [hsome]
      split at hsend
      · rename_i thread popped hpop'
        have hthread := Option.some.inj (congrArg Prod.fst (hpop'.symm.trans hpop))
        have hpopped : ((k.switchTo caller).popReceiving (k.space.slots slot).resource).2 = popped :=
          congrArg Prod.snd hpop'
        simp only [Option.map_eq_some_iff, Prod.mk.injEq] at hsend
        obtain ⟨k₁, hsend, -, rfl⟩ := hsend
        rw [hthread, ← hpopped] at hsend
        exact hswitched.sendTo hpending hsend
      · rename_i hpop'
        have hwait := congrArg Prod.fst (hpop'.symm.trans hpop)
        cases hwait

theorem Matches.endpointReceive (h : k.Matches history) {caller message : Addr}
    {slot : SlotPtr} {result : Nat} (hcaller : ¬ k.IsBlocked caller)
    (hreceive : (k.switchTo caller).endpointReceive fuel slot message = some (result, k')) :
    k'.Matches (history.recordReceive (k.space.slots slot).resource
        (k.call caller slot message)) ∧
      Delivers k k' (k.delivery history (.endpointReceive fuel caller slot message)) := by
  have hswitched : (k.switchTo caller).Matches history :=
    h.congr rfl (fun _ => rfl) (fun _ => rfl) (fun _ => rfl) (fun _ => Iff.rfl)
  have hhead := (history (k.space.slots slot).resource).pendingSends_head
  simp only [Kernel.endpointReceive, switchTo, Option.bind_some] at hreceive
  simp only [delivery, ← hhead]
  cases hpending : history.pending ((k.space.slots slot).resource, .sending) with
  | nil =>
      have hpop := hswitched.popSending_none hpending
      have hnone : (history (k.space.slots slot).resource).pendingSends = [] := hpending
      rw [hnone]
      split at hreceive
      · rename_i hpop'
        have hmet := (congrArg Prod.fst hpop').symm.trans hpop
        cases hmet
      · cases hreceive
        exact ⟨hswitched.blockReceiving hcaller hpending, suspendThread_messages ..⟩
  | cons call rest =>
      have hpop := hswitched.popSending_eq hpending
      have hsome : (history (k.space.slots slot).resource).pendingSends = call :: rest :=
        hpending
      rw [hsome]
      split at hreceive
      · rename_i thread popped hpop'
        have hthread := Option.some.inj (congrArg Prod.fst (hpop'.symm.trans hpop))
        have hpopped : ((k.switchTo caller).popSending (k.space.slots slot).resource).2 = popped :=
          congrArg Prod.snd hpop'
        simp only [Option.map_eq_some_iff, Prod.mk.injEq] at hreceive
        obtain ⟨k₁, hreceive, -, rfl⟩ := hreceive
        rw [hthread, ← hpopped] at hreceive
        exact hswitched.receiveFrom hpending hreceive
      · rename_i hpop'
        have hwait := congrArg Prod.fst (hpop'.symm.trans hpop)
        cases hwait

theorem Matches.step {s s' : Kernel × EndpointHistory} (h : s.1.Matches s.2)
    {op : EndpointOp} (hstep : endpointStep s op = some s') :
    s'.1.Matches s'.2 ∧ HandsOver s op s'.1 := by
  cases op with
  | endpointSend fuel caller slot message =>
      simp only [endpointStep] at hstep
      split at hstep
      · cases hstep
      · rename_i hcaller
        simp only [Option.map_eq_some_iff] at hstep
        obtain ⟨⟨result, k⟩, hsend, rfl⟩ := hstep
        exact h.endpointSend hcaller hsend
  | endpointReceive fuel caller slot message =>
      simp only [endpointStep] at hstep
      split at hstep
      · cases hstep
      · rename_i hcaller
        simp only [Option.map_eq_some_iff] at hstep
        obtain ⟨⟨result, k⟩, hreceive, rfl⟩ := hstep
        exact h.endpointReceive hcaller hreceive
  | resume slot =>
      cases hstep
      let locked := { s.1 with kinds := (heapLock s.1.kinds (s.1.space.slots slot).resource).2 }
      have hlocked : locked.Matches s.2 :=
        h.congr rfl (fun _ => rfl) (fun _ => rfl) (fun _ => rfl) (fun _ => Iff.rfl)
      constructor
      · exact (hlocked.resumeThread _ execModeSuspended (by decide)).congr rfl (fun _ => rfl)
          (fun _ => rfl) (fun _ => rfl) (fun _ => Iff.rfl)
      · exact resumeThread_messages locked _ execModeSuspended
  | suspend slot =>
      cases hstep
      let locked := { s.1 with kinds := (heapLock s.1.kinds (s.1.space.slots slot).resource).2 }
      have hlocked : locked.Matches s.2 :=
        h.congr rfl (fun _ => rfl) (fun _ => rfl) (fun _ => rfl) (fun _ => Iff.rfl)
      constructor
      · exact (hlocked.suspendThread _ execModeSuspended (by decide)).congr rfl (fun _ => rfl)
          (fun _ => rfl) (fun _ => rfl) (fun _ => Iff.rfl)
      · exact suspendThread_messages locked _ execModeSuspended
  | write message contents =>
      cases hstep
      exact ⟨h.congr rfl (fun _ => rfl) (fun _ => rfl) (fun _ => rfl) (fun _ => Iff.rfl), rfl⟩

/-- The n-th message sent to an endpoint is handed over to its n-th receive, by the
later of the two calls, from the memory of the one to that of the other and with the
badge of the sender's capability; until then the earlier call waits in order, and
nothing else is ever written to a message. -/
theorem rendezvous {s : Kernel × EndpointHistory}
    (hreach : Reaches endpointStep (fun _ _ => True) Unblocked s) :
    s.1.Matches s.2 ∧
      (∀ e, (s.1.endpoints e).blockedSending.start = none ∨
        (s.1.endpoints e).blockedReceiving.start = none) ∧
      ∀ op s', endpointStep s op = some s' → HandsOver s op s'.1 := by
  have hmatches : s.1.Matches s.2 :=
    hreach.invariant (fun _ h => h.matches) (fun _ _ _ h _ hstep => (h.step hstep).1)
  refine ⟨hmatches, fun e => ?_, fun op s' hstep => (hmatches.step hstep).2⟩
  have hsending := (hmatches.fifos.fifo (e, .sending)).start_eq
  have hreceiving := (hmatches.fifos.fifo (e, .receiving)).start_eq
  cases (s.2 e).pendingSends_eq_nil_or with
  | inl hnone =>
      left
      rw [EndpointHistory.waiting, EndpointHistory.pending, hnone] at hsending
      exact hsending
  | inr hnone =>
      right
      rw [EndpointHistory.waiting, EndpointHistory.pending, hnone] at hreceiving
      exact hreceiving

/-- Every slot holds a capability to the endpoint at 7. -/
def oneEndpoint : Kernel :=
  { Kernel.zero with space := { Space.zero with slots := fun _ =>
      { Capability.zero with handlers := some .endpoint, resource := 7, badge := 5 } } }

theorem oneEndpoint_unblocked : Unblocked (oneEndpoint, fun _ => Rendezvous.empty) where
  queues _ := rfl
  mode _ := by simp [IsBlocked, oneEndpoint, Kernel.zero, ThreadCapability.zero]
  history _ := rfl

/-- Two threads wait to receive, and a third one sends to the first of them. -/
theorem rendezvous_two_receivers :
    ∃ s, runWhile endpointStep (fun _ _ => True) (oneEndpoint, fun _ => Rendezvous.empty)
        [.endpointReceive 1 1 (.node 9 0) 10, .suspend (.node 9 0),
          .endpointReceive 1 2 (.node 9 0) 20, .endpointSend 1 3 (.node 9 0) 30] = some s ∧
      s.1.Matches s.2 ∧
      (∀ e, (s.1.endpoints e).blockedSending.start = none ∨
        (s.1.endpoints e).blockedReceiving.start = none) ∧
      ∀ op s', endpointStep s op = some s' → HandsOver s op s'.1 := by
  obtain ⟨s, hs⟩ := Option.isSome_iff_exists.mp (by decide :
    (runWhile endpointStep (fun _ _ => True) (oneEndpoint, fun _ => Rendezvous.empty)
      [.endpointReceive 1 1 (.node 9 0) 10, .suspend (.node 9 0),
        .endpointReceive 1 2 (.node 9 0) 20, .endpointSend 1 3 (.node 9 0) 30]).isSome)
  exact ⟨s, hs, rendezvous (Reaches.runWhile (.initial oneEndpoint_unblocked) hs)⟩

end Kernel

end Cenix
