import Cenix.Vfs.MountPoints

namespace Cenix.Vfs

/-! Messages of the process server and the main loop. -/

/-- The namespace of a new process, and whether its creator may not modify it. -/
def namespaceForProcess (creatorPid : Nat) (flags : BitVec 8) :
    Vfs (Except Nat (Nat × Bool)) := do
  if flags &&& vfsShareNamespace ≠ 0 then
    let creatorAddress := processDataAddress creatorPid
    if !(← lock .setUpFilesystemForProcess creatorAddress) then
      return .error eNoMem
    else
      let creator ← processDataAt creatorAddress
      unlock .setUpFilesystemForProcess creatorAddress
      let address := namespaceAddress creator.fsNamespace
      if !(← lock .setUpFilesystemForProcess address) then
        return .error eNoMem
      else
        let fsNamespace ← fsNamespaceAt address
        writeStructure address (.fsNamespace { fsNamespace with
          references := (fsNamespace.references + 1) % 2 ^ ptrBits })
        unlock .setUpFilesystemForProcess address
        return .ok (creator.fsNamespace, !creator.canModifyNamespace)
  else
    let address ← allocNamespace
    if address = sizeMax then
      return .error eNoMem
    else
      return .ok (address / 2 ^ initNodeDepth, false)

def canModifyFlag (canModifyNamespace : Bool) : Nat :=
  if canModifyNamespace then ipcFlagCanModify else 0

/-- The part of `set_up_filesystem_for_process` after the allocation of the process's
data. -/
def fillProcessData (state : State) (newPid : Nat) (flags : BitVec 8)
    (replyAddress fsNamespace : Nat) (forceDisableNamespaceModification : Bool) : Vfs Nat := do
  let address := processDataAddress newPid
  if !(← lock .setUpFilesystemForProcess address) then
    freeNamespace fsNamespace
    let _ ← nodeDelete .setUpFilesystemForProcess processDataNodeSlot newPid
    return eNoMem
  else
    let canModifyNamespace := !forceDisableNamespaceModification &&
      flags &&& vfsReadOnlyNamespace == 0
    writeStructure address (.processData ⟨fsNamespace, canModifyNamespace⟩)
    unlock .setUpFilesystemForProcess address
    let result ← openRoot state (ipcBadge fsNamespace (canModifyFlag canModifyNamespace))
      replyAddress fsNamespace
    onlyIf (result ≠ 0) (do
      freeNamespace fsNamespace
      let _ ← nodeDelete .setUpFilesystemForProcess processDataNodeSlot newPid)
    return result

def setUpFilesystemForProcess (state : State) (creatorPid newPid : Nat) (flags : BitVec 8)
    (replyAddress : Nat) : Vfs Nat := do
  match ← namespaceForProcess creatorPid flags with
  | .error result => return result
  | .ok (fsNamespace, forceDisableNamespaceModification) =>
      if (← allocUntyped .setUpFilesystemForProcess (processDataAddress newPid)) ≠ 0 then
        freeNamespace fsNamespace
        return eNoMem
      else
        fillProcessData state newPid flags replyAddress fsNamespace
          forceDisableNamespaceModification

/-- A `pid_t` from two bytes. -/
def pidOf (buffer : Buffer) (i : Nat) : Nat :=
  (byteOf buffer i).toNat * 256 + (byteOf buffer (i + 1)).toNat

def handleVfsMessage (state : State) (message : IpcMessage) : Vfs Unit := do
  let replyCapability := (fdReplyEndpoint message).address
  if fdCallNumber message = vfsNewProcess then
    let result ← setUpFilesystemForProcess state (pidOf message.buffer 4)
      (pidOf message.buffer 2) (byteOf message.buffer 1) replyCapability
    onlyIf (result ≠ 0) (reply .handleVfsMessage replyCapability result)
  else
    reply .handleVfsMessage replyCapability eBadMsg

/-- The handler that `main_loop` picks for a badge. -/
inductive Handler where
  | directory
  | mountPoint
  | vfs
  deriving DecidableEq, Repr

def handlerOf (badge : Nat) : Handler :=
  if ipcFlags badge = ipcFlagIsDirectory then .directory
  else if ipcFlags badge = ipcFlagIsMountPoint then .mountPoint
  else .vfs

/-- What is left of the message. -/
def handleMessage (fuel : Nat) (state : State) (message : IpcMessage) : Vfs IpcMessage := do
  match handlerOf message.badge with
  | .directory => handleDirectoryMessage fuel state message
  | .mountPoint =>
      handleMountPointMessage fuel state message
      return message
  | .vfs =>
      handleVfsMessage state message
      return message

/-- Puts the capabilities of a message into the storage of the thread: the slots that
they have been received in, as bits, and the server. -/
def storeCapabilities (threadId : Nat) (received : List (Option Fd)) (s : Server) :
    BitVec 8 × Server :=
  (List.range ipcCapabilitySlots).foldl (fun (transferred, s) i =>
    match received.getD i none with
    | none => (transferred, s)
    | some fd =>
        if s.occupied (.storage threadId i) then
          (transferred, s)
        else
          (transferred ||| BitVec.ofNat 8 (2 ^ i), s.setFd (.storage threadId i) (some fd)))
    (0, s)

/-- `ENDPOINT_RECEIVE` of the main loop. -/
def receiveMessage (state : State) (buffer : Buffer) (badge : Nat)
    (received : List (Option Fd)) : Vfs IpcMessage := do
  let s ← getServer
  let (transferred, s) := storeCapabilities state.threadId received s
  modifyServer fun _ => s
  return {
    buffer := buffer
    capabilities := Vector.ofFn fun i => ⟨threadStorageSlot state.threadId i,
      threadStorageNodeBits + threadStorageBits + initNodeDepth⟩
    toCopy := 0
    transferredCapabilities := transferred
    badge := badge }

/-- The loop at the end of a round. -/
def deleteLeftover (state : State) (message : IpcMessage) : List Nat → Vfs Unit
  | [] => return ()
  | i :: is => do
      onlyIf (message.transferredCapabilities.getLsbD i) (do
        let _ ← storageDelete .mainLoop state.threadId i)
      deleteLeftover state message is

/-- One round of the main loop. -/
def mainLoopRound (fuel : Nat) (state : State) (buffer : Buffer) (badge : Nat)
    (received : List (Option Fd)) : Vfs Unit := do
  let message ← receiveMessage state buffer badge received
  let message ← handleMessage fuel state message
  deleteLeftover state message (List.range ipcCapabilitySlots)

def mainState : State :=
  ⟨0, ipcCapabilitySlots + 1, 3⟩

/-- What `_start` does once `init_vfs_structures` is done; its assertions hold or it does not
get to the main loop. -/
def start : Vfs Unit := do
  if (← badgeAndSend .start mainState (ipcBadge 0 0) 2) ≠ 0 then
    failure
  else if (← setUpFilesystemForProcess mainState 1 1 0 2) ≠ 0 then
    failure

namespace Server

/-- The server after `init_vfs_structures`, with its endpoint and the capability that it
answers the process server with. -/
def initial : Server where
  structures := fun _ => none
  fds := Function.update (Function.update (fun _ => none) (.root 2) (some (.other 0)))
    (.root 3) (some (.endpoint 0))
  listNodes := fun _ => false
  used := fun _ _ => false

/-- The server at the start of a call or a message. -/
def world (s : Server) (answers : Nat → Caller → Request → Answer) : World :=
  ⟨s, answers, 0, []⟩

end Server

end Cenix.Vfs
