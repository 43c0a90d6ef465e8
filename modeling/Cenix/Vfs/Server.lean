import Cenix.Kernel.LookUp
import Cenix.Vfs.Layout

namespace Cenix.Vfs

/-! The state of the VFS server and the system calls it makes. -/

structure ProcessData where
  /-- An id, in spite of what the comment in the source says. -/
  fsNamespace : Nat
  canModifyNamespace : Bool
  deriving DecidableEq, Repr

structure DirectoryInfo where
  namespaceId : Nat
  canModifyNamespace : Bool
  inode : Nat
  /-- The union of `enclosing_filesystem` and `mount_point_address`. -/
  enclosingFilesystem : Nat
  deriving DecidableEq, Repr

def DirectoryInfo.mountPointAddress (info : DirectoryInfo) : Nat :=
  info.enclosingFilesystem

structure MountPoint where
  previous : Nat
  next : Nat
  references : Nat
  enclosingFilesystem : Nat
  inode : Nat
  mountedListIndex : Nat
  deriving DecidableEq, Repr

structure MountedListInfo where
  usedSlots : BitVec ptrBits
  createFlaggedSlots : BitVec ptrBits
  nextIndex : Nat
  deriving DecidableEq, Repr

def numBuckets : Nat := 128

structure FsNamespace where
  references : Nat
  rootAddress : Nat
  mountPointAddresses : Nat → Nat

/-- What the server has written into a piece of memory. -/
inductive Structure where
  | uninitialized
  | processData (data : ProcessData)
  | directoryInfo (info : DirectoryInfo)
  | mountPoint (mountPoint : MountPoint)
  | listInfo (info : MountedListInfo)
  | fsNamespace (fsNamespace : FsNamespace)

/-- The sets of ids. -/
inductive Ids where
  | mountPoints
  | mountedLists
  | namespaces
  | directories
  deriving DecidableEq, Repr

def Ids.address : Ids → Nat
  | .mountPoints => usedMountPointIdsSlot
  | .mountedLists => usedMountedListsSlot
  | .namespaces => usedNamespacesSlot
  | .directories => usedDirectoryIdsSlot

/-- A capability that is no memory of the server: its own endpoint with a badge, or what
clients and file systems have sent. -/
inductive Fd where
  | endpoint (badge : Nat)
  | other (n : Nat)
  deriving DecidableEq, Repr

/-- The ids from the size of a set on stand for the memory behind it. -/
structure Server where
  structures : Place → Option Structure
  fds : Place → Option Fd
  listNodes : Nat → Bool
  used : Ids → Nat → Bool

namespace Server

def setStructure (s : Server) (p : Place) (structure' : Option Structure) : Server :=
  { s with structures := Function.update s.structures p structure' }

def setFd (s : Server) (p : Place) (fd : Option Fd) : Server :=
  { s with fds := Function.update s.fds p fd }

def setUsed (s : Server) (ids : Ids) (id : Nat) (used : Bool) : Server :=
  { s with used := Function.update s.used ids (Function.update (s.used ids) id used) }

def occupied (s : Server) (p : Place) : Bool :=
  (s.structures p).isSome || (s.fds p).isSome

end Server

/-! The kernel, the clients and the file systems. -/

/-- The function that makes a system call, or that `badge_and_send` makes it for. -/
inductive Caller where
  | findSlotFor
  | markSlotUnused
  | allocStructure
  | freeStructure
  | createMountedListEntry
  | mountedListInsert
  | iterateOverMountedList
  | allocNamespace
  | freeNamespace
  | setUpFilesystemForProcess
  | addMountPointToNamespace
  | findMountPoint
  | returnValue
  | openFileCallback
  | openFile
  | openMountPoint
  | proxyDirectory
  | passThruDirectoryMessage
  | directoryOpen
  | handleDirectoryMessage
  | openRoot
  | iterateOverMountPoint
  | mountPointStat
  | linkCallback
  | mountPointOpen
  | handleMountPointMessage
  | mount
  | handleVfsMessage
  | mainLoop
  | start
  deriving DecidableEq, Repr

inductive Request where
  | alloc (address : Nat)
  | lock (address : Nat)
  | copy (badge : Nat)
  | move (source index slot : Nat)
  | delete (node slot : Nat)
  | send (address : Nat)
  | receive (address : Nat)
  deriving DecidableEq, Repr

/-- How a system call turns out where that is not up to the server: its result, which
capabilities of a message are taken by the receiver, and, for a message that is received,
its first capability and what the server reads from its buffer. -/
structure Answer where
  result : Nat
  taken : Nat → Bool
  fd : Option Fd
  value : Nat
  inode : Nat
  mode : Nat

inductive Event where
  | locked (caller : Caller) (address : Nat) (found : Bool)
  | unlocked (caller : Caller) (address : Nat)
  | deleted (caller : Caller) (node slot result : Nat)
  | sent (caller : Caller) (address : Nat) (receiver : Option Fd) (message : IpcMessage)
      (capabilities : List (Option Fd)) (result : Nat)
  deriving DecidableEq, Repr

structure World where
  server : Server
  answers : Nat → Caller → Request → Answer
  time : Nat
  events : List Event

/-- `none` where the server reads or writes memory through a pointer to no such
structure. -/
abbrev Vfs := StateT World Option

/-- A statement under an `if` without an `else`. -/
def onlyIf (c : Prop) [Decidable c] (x : Vfs Unit) : Vfs Unit :=
  if c then x else pure ()

def ask (caller : Caller) (request : Request) : Vfs Answer := fun w =>
  some (w.answers w.time caller request, { w with time := w.time + 1 })

def record (event : Event) : Vfs Unit :=
  modify fun w => { w with events := w.events ++ [event] }

def getServer : Vfs Server :=
  return (← get).server

def modifyServer (f : Server → Server) : Vfs Unit :=
  modify fun w => { w with server := f w.server }

/-- `ADDRESS_SPACE_ALLOC` of untyped memory. -/
def allocUntyped (caller : Caller) (address : Nat) : Vfs Nat := do
  let answer ← ask caller (.alloc address)
  let s ← getServer
  if answer.result ≠ 0 then
    return answer.result
  else if s.occupied (place address) then
    return eCapExists
  else
    modifyServer (·.setStructure (place address) (some .uninitialized))
    return 0

/-- `ADDRESS_SPACE_ALLOC` of the node of a mounted list.  The server only asks for one
where there is none. -/
def allocListNode (caller : Caller) (index : Nat) : Vfs Nat := do
  let answer ← ask caller (.alloc (mountedListNodeAddress index))
  let s ← getServer
  if answer.result ≠ 0 then
    return answer.result
  else if s.listNodes index then
    failure
  else
    modifyServer fun s => { s with listNodes := Function.update s.listNodes index true }
    return 0

/-- `UNTYPED_LOCK`; `false` for a `NULL` result.  Where there is no memory at the address the
kernel gives an error code back, which is not `NULL`: what is read through it then fails. -/
def lock (caller : Caller) (address : Nat) : Vfs Bool := do
  let answer ← ask caller (.lock address)
  let found := answer.result == 0
  record (.locked caller address found)
  return found

def unlock (caller : Caller) (address : Nat) : Vfs Unit :=
  record (.unlocked caller address)

/-- What `NODE_DELETE` returns. -/
def deleteResult (answer slotBits slot : Nat) (occupied : Bool) : Nat :=
  if answer ≠ 0 then answer
  else if slot ≥ 2 ^ slotBits then eInval
  else if occupied then 0
  else eNoCapability

/-- `NODE_DELETE` in a node in the root node. -/
def nodeDelete (caller : Caller) (node slot : Nat) : Vfs Nat := do
  let answer ← ask caller (.delete node slot)
  let s ← getServer
  let result := deleteResult answer.result (nodeSlotBits node) slot
    (s.occupied (nodePlace node slot))
  record (.deleted caller node slot result)
  onlyIf (result = 0) (modifyServer fun s =>
    (s.setStructure (nodePlace node slot) none).setFd (nodePlace node slot) none)
  return result

/-- `NODE_DELETE` in the storage of a thread. -/
def storageDelete (caller : Caller) (threadId slot : Nat) : Vfs Nat := do
  let answer ← ask caller (.delete (threadStorageAddress threadId) slot)
  let s ← getServer
  let result := deleteResult answer.result threadStorageBits slot
    (s.fds (.storage threadId slot)).isSome
  record (.deleted caller (threadStorageAddress threadId) slot result)
  onlyIf (result = 0) (modifyServer (·.setFd (.storage threadId slot) none))
  return result

/-- `NODE_COPY` of the server's endpoint into the storage of a thread. -/
def copyEndpoint (caller : Caller) (threadId slot badge : Nat) : Vfs Nat := do
  let answer ← ask caller (.copy badge)
  let s ← getServer
  if answer.result ≠ 0 then
    return answer.result
  else if (s.fds (.storage threadId slot)).isSome then
    return eCapExists
  else
    modifyServer (·.setFd (.storage threadId slot) (some (.endpoint badge)))
    return 0

/-- `NODE_MOVE` into the node of a mounted list. -/
def moveIntoList (caller : Caller) (source index slot : Nat) : Vfs Nat := do
  let answer ← ask caller (.move source index slot)
  let s ← getServer
  if answer.result ≠ 0 then
    return answer.result
  else if s.listNodes index = false ∨ slot ≥ 2 ^ mountedListEntryBits then
    return eInval
  else if (s.fds (.listSlot index slot)).isSome then
    return eCapExists
  else if (s.fds (place source)).isNone then
    return eNoCapability
  else
    modifyServer fun s => (s.setFd (place source) none).setFd (.listSlot index slot)
      (s.fds (place source))
    return 0

/-- What a message carries at each of its indices. -/
def carried (s : Server) (message : IpcMessage) : List (Option Fd) :=
  message.capabilities.toList.map fun capability =>
    if capability.depth = 0 then none else s.fds (place capability.address)

/-- The capability at one index, if it is not copied, leaves the server. -/
def takeCapability (message : IpcMessage) (taken : Nat → Bool) (s : Server) (i : Nat) :
    Server :=
  match message.capabilities[i]? with
  | none => s
  | some capability =>
      if capability.depth ≠ 0 ∧ taken i ∧ message.toCopy.getLsbD i = false then
        s.setFd (place capability.address) none
      else
        s

/-- `ENDPOINT_SEND` -/
def send (caller : Caller) (address : Nat) (message : IpcMessage) : Vfs Nat := do
  let answer ← ask caller (.send address)
  let s ← getServer
  let receiver := s.fds (place address)
  let result := if receiver.isSome then answer.result else eCapInval
  record (.sent caller address receiver message (carried s message) result)
  onlyIf (result = 0) (modifyServer fun s =>
    (List.range ipcCapabilitySlots).foldl (takeCapability message answer.taken) s)
  return result

/-- A capability that is received goes into a slot, if there is one and it is empty. -/
def receiveCapability (slot : Option Nat) (fd : Option Fd) (s : Server) : Server :=
  match slot, fd with
  | some slot, some fd =>
      if s.occupied (place slot) then s else s.setFd (place slot) (some fd)
  | _, _ => s

/-- `ENDPOINT_RECEIVE` with a slot for the first capability of the message. -/
def receive (caller : Caller) (address : Nat) (slot : Option Nat) : Vfs Answer := do
  let answer ← ask caller (.receive address)
  onlyIf (answer.result = 0) (modifyServer (receiveCapability slot answer.fd))
  return answer

/-! Memory. -/

/-- Reads a structure through a pointer to the memory at an address. -/
def structureAt (address : Nat) : Vfs Structure := fun w =>
  (w.server.structures (place address)).map fun structure' => (structure', w)

/-- Writes through a pointer to the memory at an address. -/
def writeStructure (address : Nat) (structure' : Structure) : Vfs Unit := do
  let _ ← structureAt address
  modifyServer (·.setStructure (place address) (some structure'))

def processDataAt (address : Nat) : Vfs ProcessData := do
  match ← structureAt address with
  | .processData data => return data
  | _ => failure

def directoryInfoAt (address : Nat) : Vfs DirectoryInfo := do
  match ← structureAt address with
  | .directoryInfo info => return info
  | _ => failure

def mountPointAt (address : Nat) : Vfs MountPoint := do
  match ← structureAt address with
  | .mountPoint mountPoint => return mountPoint
  | _ => failure

def listInfoAt (address : Nat) : Vfs MountedListInfo := do
  match ← structureAt address with
  | .listInfo info => return info
  | _ => failure

def fsNamespaceAt (address : Nat) : Vfs FsNamespace := do
  match ← structureAt address with
  | .fsNamespace fsNamespace => return fsNamespace
  | _ => failure

end Cenix.Vfs
