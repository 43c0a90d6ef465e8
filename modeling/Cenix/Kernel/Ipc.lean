import Cenix.Kernel.Node

namespace Cenix

open LinkedLists

/-! Endpoints. -/

namespace Kernel

/-- The address of a capability of `thread`. -/
def threadAddress (k : Kernel) (thread : Addr) (capability : IpcCapability) :
    AbsoluteCapabilityAddress where
  threadId := (k.threads thread).threadId
  bucketNumber := (k.threads thread).bucketNumber
  address := capability.address
  depth := capability.depth

/-- The copy or move of a capability between the slots that were looked up. -/
def transferSlot (fuel : Nat) (s : Space) (shouldCopy : Bool) (source dest : SlotPtr)
    (address : AbsoluteCapabilityAddress) : Option Space :=
  (if shouldCopy then s.copyCapability source dest address.address address.depth
    else s.moveCapability fuel source dest).bind fun s =>
      s.updateCapabilityAddresses fuel dest address 0

/-- One round of the loop of `transfer_capabilities`. -/
def transferCapability (fuel : Nat) (k : Kernel) (sending receiving : Addr)
    (sentMessage recvBuffer : Addr) (i : Fin ipcCapabilitySlots) : Option Kernel :=
  let sent := (k.messages sentMessage).capabilities.get i
  let recv := (k.messages recvBuffer).capabilities.get i
  if sent.depth = 0 ∨ recv.depth = 0 then
    some k
  else
    (k.lookUpCapabilityAbsolute fuel (k.threadAddress sending sent)).bind fun
      | (none, k) => some k
      | (some source, k) =>
          let shouldCopy := (k.messages sentMessage).toCopy.getLsbD i
          let handlers := (k.space.slots source.slot).handlers
          if handlers = none ∨ (shouldCopy ∧ handlers = some .node) then
            some (k.unlockLookedUpCapability source)
          else
            let address := k.threadAddress receiving recv
            (k.lookUpCapabilityAbsolute fuel address).bind fun
              | (none, k) => some (k.unlockLookedUpCapability source)
              | (some dest, k) =>
                  if (k.space.slots dest.slot).handlers ≠ none then
                    some ((k.unlockLookedUpCapability source).unlockLookedUpCapability dest)
                  else
                    (transferSlot fuel k.space shouldCopy source.slot dest.slot address).map
                      fun s =>
                        let k := { k with space := s }.modifyMessage recvBuffer fun m =>
                          { m with transferredCapabilities :=
                              m.transferredCapabilities ||| BitVec.twoPow 8 i }
                        (k.unlockLookedUpCapability source).unlockLookedUpCapability dest

def transferCapabilities (fuel : Nat) (k : Kernel) (sending receiving : Addr)
    (sentMessage recvBuffer : Addr) : Option Kernel :=
  let k := k.modifyMessage recvBuffer fun m => { m with transferredCapabilities := 0 }
  (List.finRange ipcCapabilitySlots).foldlM
    (fun k i => k.transferCapability fuel sending receiving sentMessage recvBuffer i) k

/-- Hands the message at `source` over to the buffer at `dest`. -/
def deliver (k : Kernel) (source dest : Addr) (badge : Nat) : Kernel :=
  let buffer := (k.messages source).buffer
  k.modifyMessage dest fun m => { m with buffer := buffer, badge := badge }

/-- `LIST_POP_FROM_START(endpoint->blocked_receiving, blocked_queue, receiving)` -/
def popReceiving (k : Kernel) (endpoint : Addr) : Option Addr × Kernel :=
  let (receiving, queue, links) :=
    listPopFromStart (k.endpoints endpoint).blockedReceiving k.blockedQueues
  (receiving, (k.setBlockedReceiving endpoint queue).setBlockedQueues links)

/-- `LIST_POP_FROM_START(endpoint->blocked_sending, blocked_queue, sending)` -/
def popSending (k : Kernel) (endpoint : Addr) : Option Addr × Kernel :=
  let (sending, queue, links) :=
    listPopFromStart (k.endpoints endpoint).blockedSending k.blockedQueues
  (sending, (k.setBlockedSending endpoint queue).setBlockedQueues links)

/-- The calling thread waits until a thread tries to receive its message. -/
def blockSending (k : Kernel) (endpoint thread message : Addr) (badge : Nat) : Kernel :=
  let k := k.modifyThread thread fun t => { t with
    messageBuffer := message
    sendingBadge := badge
    blockedOn := some endpoint
    flags := { t.flags with blockedOnSend := true } }
  let (queue, links) :=
    listAppend (k.endpoints endpoint).blockedSending k.blockedQueues thread
  ((k.setBlockedSending endpoint queue).setBlockedQueues links).suspendThread thread
    execModeBlocked

/-- The calling thread waits until a thread tries to send a message. -/
def blockReceiving (k : Kernel) (endpoint thread message : Addr) (badge : Nat) : Kernel :=
  let k := k.modifyThread thread fun t => { t with
    messageBuffer := message
    sendingBadge := badge
    blockedOn := some endpoint
    flags := { t.flags with blockedOnReceive := true } }
  let (queue, links) :=
    listAppend (k.endpoints endpoint).blockedReceiving k.blockedQueues thread
  ((k.setBlockedReceiving endpoint queue).setBlockedQueues links).suspendThread thread
    execModeBlocked

/-- A send to a thread that is waiting for it. -/
def sendTo (fuel : Nat) (k : Kernel) (thread receiving message : Addr) (badge : Nat) :
    Option Kernel :=
  let k := k.modifyThread receiving fun t => { t with
    flags := { t.flags with blockedOnReceive := false }
    blockedOn := none }
  let recvBuffer := (k.threads receiving).messageBuffer
  let k := k.deliver message recvBuffer badge
  (k.transferCapabilities fuel thread receiving message recvBuffer).map fun k =>
    k.resumeThread receiving execModeBlocked

/-- A receive from a thread that is waiting for it. -/
def receiveFrom (fuel : Nat) (k : Kernel) (thread sending message : Addr) :
    Option Kernel :=
  let k := k.modifyThread sending fun t => { t with
    flags := { t.flags with blockedOnSend := false }
    blockedOn := none }
  let sentMessage := (k.threads sending).messageBuffer
  let k := k.deliver sentMessage message (k.threads sending).sendingBadge
  (k.transferCapabilities fuel sending thread sentMessage message).map fun k =>
    k.resumeThread sending execModeBlocked

/-- `none` also when there is no current thread. -/
def endpointSend (fuel : Nat) (k : Kernel) (slot : SlotPtr) (message : Addr) :
    Option (Nat × Kernel) :=
  k.scheduler.currentThread.bind fun thread =>
    let endpoint := (k.space.slots slot).resource
    let badge := (k.space.slots slot).badge
    match k.popReceiving endpoint with
    | (some receiving, k) =>
        (k.sendTo fuel thread receiving message badge).map fun k => (0, k)
    | (none, _) => some (0, k.blockSending endpoint thread message badge)

/-- `none` also when there is no current thread. -/
def endpointReceive (fuel : Nat) (k : Kernel) (slot : SlotPtr) (message : Addr) :
    Option (Nat × Kernel) :=
  k.scheduler.currentThread.bind fun thread =>
    let endpoint := (k.space.slots slot).resource
    let badge := (k.space.slots slot).badge
    match k.popSending endpoint with
    | (some sending, k) =>
        (k.receiveFrom fuel thread sending message).map fun k => (0, k)
    | (none, _) => some (0, k.blockReceiving endpoint thread message badge)

/-! A transfer of capabilities touches no thread and no queue, and of the
messages only the flags of the receiving one. -/

def setTransferred (messages : Addr → IpcMessage) (recvBuffer : Addr) (bits : BitVec 8) :
    Addr → IpcMessage :=
  Function.update messages recvBuffer
    { messages recvBuffer with transferredCapabilities := bits }

@[simp] theorem setTransferred_setTransferred (messages : Addr → IpcMessage)
    (recvBuffer : Addr) (bits bits' : BitVec 8) :
    setTransferred (setTransferred messages recvBuffer bits) recvBuffer bits' =
      setTransferred messages recvBuffer bits' := by
  simp [setTransferred]

theorem setTransferred_self (messages : Addr → IpcMessage) (recvBuffer : Addr) :
    setTransferred messages recvBuffer (messages recvBuffer).transferredCapabilities =
      messages := by
  simp [setTransferred]

theorem setTransferred_buffer (messages : Addr → IpcMessage) (recvBuffer : Addr)
    (bits : BitVec 8) (a : Addr) :
    (setTransferred messages recvBuffer bits a).buffer = (messages a).buffer ∧
      (setTransferred messages recvBuffer bits a).badge = (messages a).badge := by
  cases decEq a recvBuffer with
  | isTrue h => simp [setTransferred, h]
  | isFalse h => simp [setTransferred, h]

/-- `k'` differs from `k` in the capability space, the locks and the flags of the
message at `recvBuffer` only. -/
def Transferred (recvBuffer : Addr) (k k' : Kernel) : Prop :=
  ∃ s kinds bits, k' = { k with
    space := s
    kinds := kinds
    messages := setTransferred k.messages recvBuffer bits }

theorem transferred_kinds (recvBuffer : Addr) (k : Kernel) (kinds : Addr → Kind) :
    Transferred recvBuffer k { k with kinds := kinds } := by
  refine ⟨k.space, kinds, (k.messages recvBuffer).transferredCapabilities, ?_⟩
  rw [setTransferred_self]

theorem transferCapability_frame {fuel : Nat} {k k' : Kernel}
    {sending receiving sentMessage recvBuffer : Addr} {i : Fin ipcCapabilitySlots}
    (h : k.transferCapability fuel sending receiving sentMessage recvBuffer i = some k') :
    Transferred recvBuffer k k' := by
  unfold transferCapability at h
  simp only at h
  split at h
  · cases h
    exact transferred_kinds recvBuffer k k.kinds
  · simp only [Option.bind_eq_some_iff] at h
    obtain ⟨⟨source, k₁⟩, hsource, h⟩ := h
    obtain ⟨kinds₁, rfl⟩ := lookUpCapabilityAbsolute_kinds hsource
    cases source with
    | none =>
        cases h
        exact transferred_kinds recvBuffer k kinds₁
    | some source =>
        simp only at h
        split at h
        · cases h
          exact transferred_kinds recvBuffer k _
        · simp only [Option.bind_eq_some_iff] at h
          obtain ⟨⟨dest, k₂⟩, hdest, h⟩ := h
          obtain ⟨kinds₂, rfl⟩ := lookUpCapabilityAbsolute_kinds hdest
          cases dest with
          | none =>
              cases h
              exact transferred_kinds recvBuffer k _
          | some dest =>
              simp only at h
              split at h
              · cases h
                exact transferred_kinds recvBuffer k _
              · simp only [Option.map_eq_some_iff] at h
                obtain ⟨s, _, rfl⟩ := h
                exact ⟨s, _, _, rfl⟩

theorem transferCapabilities_frame {fuel : Nat} {k k' : Kernel}
    {sending receiving sentMessage recvBuffer : Addr}
    (h : k.transferCapabilities fuel sending receiving sentMessage recvBuffer = some k') :
    Transferred recvBuffer k k' := by
  have hstart : Transferred recvBuffer k (k.modifyMessage recvBuffer fun m =>
      { m with transferredCapabilities := 0 }) := ⟨k.space, k.kinds, 0, rfl⟩
  unfold transferCapabilities at h
  refine foldlM_induct ?_ h hstart
  rintro _ i k₂ ⟨s₁, kinds₁, bits₁, rfl⟩ hstep
  obtain ⟨s, kinds, bits, rfl⟩ := transferCapability_frame hstep
  exact ⟨s, kinds, bits, by simp⟩

end Kernel

end Cenix
