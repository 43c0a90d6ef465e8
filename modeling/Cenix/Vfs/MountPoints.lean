import Cenix.Vfs.Directories

namespace Cenix.Vfs

/-! Messages for the descriptors of mount points. -/

def iterateOverMountPoint (fuel : Nat) (mountPointAddress : Nat)
    (fn : Nat → Bool → Vfs (Option Nat)) : Vfs Nat := do
  if !(← lock .iterateOverMountPoint mountPointAddress) then
    return eNoMem
  else
    let mountPoint ← mountPointAt mountPointAddress
    let result ← iterateOverMountedList fn fuel mountPoint.mountedListIndex
    unlock .iterateOverMountPoint mountPointAddress
    return result

/-- The offset of `st_dev` in a reply to `FD_STAT`; everything else in it is 0. -/
def statOffset : Nat := ptrBits / 8

def mountPointStat (info : DirectoryInfo) (message : IpcMessage) : Vfs Unit := do
  let answer := returning (ipcMessage [] [] 0) 0
  let _ ← send .mountPointStat (fdReplyEndpoint message).address
    { answer with buffer := setWord answer.buffer statOffset info.mountPointAddress }

def linkCallback (toSend : IpcMessage) (requiresCreateFlag : Bool) (directoryAddress : Nat)
    (isCreateFlagged : Bool) : Vfs (Option Nat) := do
  if !isCreateFlagged && requiresCreateFlag then
    return none
  else
    let (result, _) ← vfsCall .linkCallback directoryAddress (fdReplyEndpoint toSend).address
      toSend none
    return if result = 0 then some 0 else none

/-- `mount_point_link` and `mount_point_unlink`, for the message they send on. -/
def linkInMountPoint (fuel : Nat) (info : DirectoryInfo) (message toSend : IpcMessage)
    (requiresCreateFlag : Bool) : Vfs Unit := do
  let result ← iterateOverMountPoint fuel info.mountPointAddress
    (linkCallback toSend requiresCreateFlag)
  returnValue (fdReplyEndpoint message).address result

def mountPointLink (fuel threadId : Nat) (info : DirectoryInfo) (message : IpcMessage) :
    Vfs Unit :=
  linkInMountPoint fuel info message
    (ipcMessage [fdLink] [⟨threadStorageSlot threadId 7, sizeMax⟩, fdLinkFd message,
      fdLinkNameAddress message] 7) true

def mountPointUnlink (fuel threadId : Nat) (info : DirectoryInfo) (message : IpcMessage) :
    Vfs Unit :=
  linkInMountPoint fuel info message
    (ipcMessage [fdUnlink] [⟨threadStorageSlot threadId 7, sizeMax⟩,
      fdUnlinkNameAddress message] 3) false

/-- A directory flagged with `MOUNT_CREATE` is left out when nothing may be created. -/
def openCallback (fuel : Nat) (state : State) (info : DirectoryInfo) (message : IpcMessage)
    (allowCreate : Bool) (directoryAddress : Nat) (isCreateFlagged : Bool) :
    Vfs (Option Nat) := do
  if isCreateFlagged && !allowCreate then
    return none
  else
    let result ← openFile fuel state directoryAddress info message
    return if result = 0 then some 0 else none

/-- One pass over the directories of a mount point. -/
def openPass (fuel : Nat) (state : State) (mountPointAddress : Nat) (info : DirectoryInfo)
    (message : IpcMessage) (allowCreate : Bool) : Vfs Nat :=
  iterateOverMountPoint fuel mountPointAddress
    (openCallback fuel state info message allowCreate)

/-- `OPEN_CREATE | OPEN_EXCLUSIVE` -/
def createsExclusively (flags : BitVec 8) : Bool :=
  flags &&& (openCreate ||| openExclusive) == openCreate ||| openExclusive

/-- The lock is given up before the passes of the second branch. -/
def openPasses (fuel : Nat) (state : State) (mountPointAddress : Nat) (info : DirectoryInfo)
    (message : IpcMessage) : Vfs Nat := do
  let flags := fdOpenFlags message
  if createsExclusively flags then
    openPass fuel state mountPointAddress info message true
  else
    let message := setFdOpenFlags message (flags &&& ~~~openCreate)
    unlock .mountPointOpen mountPointAddress
    let result ← openPass fuel state mountPointAddress info message false
    if result ≠ 0 ∧ flags &&& openCreate ≠ 0 then
      openPass fuel state mountPointAddress info
        (setFdOpenFlags message (fdOpenFlags message ||| openCreate)) true
    else
      return result

/-- With a `NULL` pointer the source sends a reply and reads through it then. -/
def mountPointOpen (fuel : Nat) (state : State) (info : DirectoryInfo) (message : IpcMessage) :
    Vfs Unit := do
  let replyCapability := (fdReplyEndpoint message).address
  if !(← lock .mountPointOpen info.mountPointAddress) then
    returnValue replyCapability eNoMem
    failure
  else
    let mountPoint ← mountPointAt info.mountPointAddress
    let result ← openPasses fuel state info.mountPointAddress
      ⟨info.namespaceId, info.canModifyNamespace, info.inode, mountPoint.enclosingFilesystem⟩
      message
    onlyIf (result ≠ 0) (returnValue replyCapability result)

/-- A descriptor from before the root was mounted gets its address here. -/
def fixUpMountPointAddress (infoAddress : Nat) (info : DirectoryInfo) : Vfs DirectoryInfo := do
  if info.mountPointAddress = sizeMax then
    let address := namespaceAddress info.namespaceId
    if ← lock .handleMountPointMessage address then
      let fsNamespace ← fsNamespaceAt address
      let fixed := { info with enclosingFilesystem := fsNamespace.rootAddress }
      onlyIf (fsNamespace.rootAddress ≠ sizeMax)
        (writeStructure infoAddress (.directoryInfo fixed))
      unlock .handleMountPointMessage address
      return if fsNamespace.rootAddress ≠ sizeMax then fixed else info
    else
      return info
  else
    return info

def mountPointCall (fuel : Nat) (state : State) (info : DirectoryInfo) (message : IpcMessage) :
    Vfs Unit := do
  let replyCapability := (fdReplyEndpoint message).address
  let call := fdCallNumber message
  if call = fdRead ∨ call = fdReadFast then
    returnValue replyCapability eNoSys
  else if call = fdStat then
    mountPointStat info message
  else if call = fdLink then
    mountPointLink fuel state.threadId info message
  else if call = fdUnlink then
    mountPointUnlink fuel state.threadId info message
  else if call = fdOpen then
    mountPointOpen fuel state info message
  else if call = fdWrite ∨ call = fdWriteFast ∨ call = fdTruncate then
    returnValue replyCapability eNotSup
  else if call = fdMount then
    let result ← mount fuel info (fdMountFileDescriptor message).address (fdMountFlags message)
    reply .handleMountPointMessage replyCapability result
  else if call = fdUnmount then
    returnValue replyCapability eNoSys
  else
    returnValue replyCapability eBadMsg

def handleMountPointMessage (fuel : Nat) (state : State) (message : IpcMessage) : Vfs Unit := do
  let infoAddress := ipcId message.badge
  if !(← lock .handleMountPointMessage infoAddress) then
    returnValue (fdReplyEndpoint message).address eNoMem
  else
    let info ← directoryInfoAt infoAddress
    let info ← fixUpMountPointAddress infoAddress info
    mountPointCall fuel state info message
    unlock .handleMountPointMessage infoAddress

end Cenix.Vfs
