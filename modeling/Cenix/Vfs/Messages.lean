import Cenix.Vfs.Structures

namespace Cenix.Vfs

/-! The messages of the VFS and the helpers that answer them. -/

/-- The worker thread that handles a message. -/
structure State where
  threadId : Nat
  tempSlot : Nat
  endpointAddress : Nat
  deriving DecidableEq, Repr

def fdRead : BitVec 8 := 0
def fdReadFast : BitVec 8 := 1
def fdWrite : BitVec 8 := 2
def fdWriteFast : BitVec 8 := 3
def fdStat : BitVec 8 := 4
def fdOpen : BitVec 8 := 5
def fdLink : BitVec 8 := 6
def fdUnlink : BitVec 8 := 7
def fdTruncate : BitVec 8 := 8
def fdMount : BitVec 8 := 9
def fdUnmount : BitVec 8 := 10
def vfsNewProcess : BitVec 8 := 255

def vfsShareNamespace : BitVec 8 := 1
def vfsReadOnlyNamespace : BitVec 8 := 2

def openCreate : BitVec 8 := 1
def openExclusive : BitVec 8 := 2

abbrev Buffer := Vector (BitVec 8) ipcBufferSize

/-- The `size_t` at an offset. -/
def setWord (buffer : Buffer) (offset value : Nat) : Buffer :=
  Vector.ofFn fun i =>
    if offset ≤ i ∧ i < offset + ptrBits / 8 then
      BitVec.ofNat 8 (value / 2 ^ (8 * (i - offset)))
    else
      buffer[i]

def noCapability : IpcCapability :=
  ⟨0, 0⟩

def emptyBuffer : Buffer :=
  Vector.replicate ipcBufferSize 0

/-- A message with the bytes at the start of its buffer and its capabilities. -/
def ipcMessage (bytes : List (BitVec 8)) (capabilities : List IpcCapability)
    (toCopy : BitVec 8) : IpcMessage where
  buffer := Vector.ofFn fun i => bytes.getD i 0
  capabilities := Vector.ofFn fun i => capabilities.getD i noCapability
  toCopy := toCopy
  transferredCapabilities := 0
  badge := 0

def capabilityOf (message : IpcMessage) (i : Nat) : IpcCapability :=
  message.capabilities.toList.getD i noCapability

def byteOf (buffer : Buffer) (i : Nat) : BitVec 8 :=
  buffer.toList.getD i 0

/-- `FD_RETURN_VALUE` of a reply. -/
def returning (message : IpcMessage) (value : Nat) : IpcMessage :=
  { message with buffer := setWord message.buffer 0 value }

def fdCallNumber (message : IpcMessage) : BitVec 8 :=
  byteOf message.buffer 0

def fdReplyEndpoint (message : IpcMessage) : IpcCapability :=
  capabilityOf message 0

def fdOpenFlags (message : IpcMessage) : BitVec 8 :=
  byteOf message.buffer 1

def fdOpenMode (message : IpcMessage) : BitVec 8 :=
  byteOf message.buffer 2

def fdOpenNameAddress (message : IpcMessage) : IpcCapability :=
  capabilityOf message 1

def setFdOpenFlags (message : IpcMessage) (flags : BitVec 8) : IpcMessage :=
  { message with buffer := message.buffer.set! 1 flags }

def fdMountFlags (message : IpcMessage) : BitVec 8 :=
  byteOf message.buffer 1

def fdMountFileDescriptor (message : IpcMessage) : IpcCapability :=
  capabilityOf message 1

def fdLinkFd (message : IpcMessage) : IpcCapability :=
  capabilityOf message 1

def fdLinkNameAddress (message : IpcMessage) : IpcCapability :=
  capabilityOf message 2

def fdUnlinkNameAddress (message : IpcMessage) : IpcCapability :=
  capabilityOf message 1

/-! Replies. -/

/-- A reply without capabilities from any of the functions that send one. -/
def reply (caller : Caller) (replyCapability value : Nat) : Vfs Unit := do
  let _ ← send caller replyCapability (returning (ipcMessage [] [] 0) value)

def returnValue (replyCapability errorCode : Nat) : Vfs Unit :=
  reply .returnValue replyCapability errorCode

/-- The results of the send and of the deletion are not looked at. -/
def badgeAndSend (caller : Caller) (state : State) (badge replyEndpointAddress : Nat) :
    Vfs Nat := do
  let result ← copyEndpoint caller state.threadId state.tempSlot badge
  if result ≠ 0 then
    return result
  else
    let _ ← send caller replyEndpointAddress (returning
      (ipcMessage [] [⟨threadStorageSlot state.threadId state.tempSlot,
        threadStorageNodeBits + threadStorageBits + initNodeDepth⟩] 0) 0)
    let _ ← storageDelete caller state.threadId state.tempSlot
    return 0

/-! Calls to file systems. -/

/-- `vfs_call`; the second component is what has been received. -/
def vfsCall (caller : Caller) (endpoint replyEndpoint : Nat) (toSend : IpcMessage)
    (slot : Option Nat) : Vfs (Nat × Option Answer) := do
  let result ← send caller endpoint toSend
  if result ≠ 0 then
    return (result, none)
  else
    let answer ← receive caller replyEndpoint slot
    if answer.result ≠ 0 then
      return (answer.result, none)
    else
      return (answer.value, some answer)

def fdOpenCall (caller : Caller) (fdAddress replyEndpoint nameAddress fdSlot : Nat)
    (flags mode : BitVec 8) : Vfs Nat := do
  let (result, _) ← vfsCall caller fdAddress replyEndpoint
    (ipcMessage [fdOpen, flags, mode] [⟨replyEndpoint, sizeMax⟩, ⟨nameAddress, sizeMax⟩] 1)
    (some fdSlot)
  return result

structure Stat where
  inode : Nat
  mode : Nat
  deriving DecidableEq, Repr

/-- `none` for the structure where the call fails. -/
def fdStatCall (caller : Caller) (fdAddress replyEndpoint : Nat) :
    Vfs (Nat × Option Stat) := do
  let (result, answer) ← vfsCall caller fdAddress replyEndpoint
    (ipcMessage [fdStat] [⟨replyEndpoint, sizeMax⟩] 1) none
  return (result, if result = 0 then answer.map fun answer => ⟨answer.inode, answer.mode⟩
    else none)

end Cenix.Vfs
