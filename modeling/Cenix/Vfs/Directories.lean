import Cenix.Vfs.MountLists
import Cenix.Vfs.Namespaces

namespace Cenix.Vfs

/-! Opening of files and directories. -/

/-- The struct that `mount` passes on. -/
def newMountPoint (info : DirectoryInfo) (mountedListIndex : Nat) : MountPoint where
  previous := sizeMax
  next := sizeMax
  references := 1
  enclosingFilesystem := info.enclosingFilesystem
  inode := info.inode
  mountedListIndex := mountedListIndex

def mount (fuel : Nat) (info : DirectoryInfo) (directoryFd : Nat) (flags : BitVec 8) :
    Vfs Nat := do
  if info.canModifyNamespace = false then
    return ePerm
  else
    let address := namespaceAddress info.namespaceId
    if !(← lock .mount address) then
      return eNoMem
    else
      let mountedListIndex ← createMountedListEntry
      if mountedListIndex = sizeMax then
        unlock .mount address
        return eNoMem
      else
        let result ← mountedListInsert directoryFd flags fuel mountedListIndex
        if result ≠ 0 then
          unlock .mount address
          return result
        else
          let result ← addMountPointToNamespace address (newMountPoint info mountedListIndex)
          unlock .mount address
          return result

def openFileCallback (fdEndpoint replyEndpoint nameAddress : Nat) (flags mode : BitVec 8)
    (slot : Nat) : Vfs Nat := do
  let fdAddress := directoryAddress slot
  let result ← fdOpenCall .openFileCallback fdEndpoint replyEndpoint nameAddress fdAddress
    flags mode
  if result = 0 then
    return fdAddress
  else
    return sizeMax

def openMountPoint (state : State) (openedFileAddress mountPointAddress : Nat)
    (info : DirectoryInfo) (inode replyAddress : Nat) : Vfs Nat := do
  let openedFileSlot := openedFileAddress / 2 ^ initNodeDepth
  let infoAddress := directoryInfoAddress openedFileSlot
  let result ← allocUntyped .openMountPoint infoAddress
  if result ≠ 0 then
    return result
  else
    let _ ← nodeDelete .openMountPoint directoryNodeSlot openedFileSlot
    if !(← lock .openMountPoint infoAddress) then
      return eNoMem
    else
      writeStructure infoAddress (.directoryInfo
        ⟨info.namespaceId, info.canModifyNamespace, inode, mountPointAddress⟩)
      unlock .openMountPoint infoAddress
      badgeAndSend .openMountPoint state (ipcBadge infoAddress ipcFlagIsMountPoint) replyAddress

/-- A failed lock gives the result of the allocation back, which is 0 there. -/
def proxyDirectory (state : State) (openedFileAddress : Nat) (info : DirectoryInfo)
    (inode replyAddress : Nat) : Vfs Nat := do
  let newDirectoryId := openedFileAddress / 2 ^ initNodeDepth
  let infoAddress := directoryInfoAddress newDirectoryId
  let result ← allocUntyped .proxyDirectory infoAddress
  if result ≠ 0 then
    return result
  else if !(← lock .proxyDirectory infoAddress) then
    let _ ← nodeDelete .proxyDirectory directoryInfoSlot newDirectoryId
    return result
  else
    writeStructure infoAddress (.directoryInfo { info with inode := inode })
    unlock .proxyDirectory infoAddress
    let result ← badgeAndSend .proxyDirectory state
      (ipcBadge newDirectoryId ipcFlagIsMountPoint) replyAddress
    onlyIf (result ≠ 0) (do
      let _ ← nodeDelete .proxyDirectory directoryInfoSlot newDirectoryId)
    return result

/-- `S_ISDIR` -/
def isDirectory (mode : Nat) : Bool :=
  mode / 2 ^ 9 % 2 ^ 4 == 2

def freeOpenedFile (openedFileAddress : Nat) : Vfs Unit :=
  freeStructure .directories directoryNodeSlot maxOpenDirectories openedFileAddress

/-- The label before the end of the first error branch, where `result` is the result of
`fd_stat`: the branches for directories have another variable of this name, so that their
errors are not returned. -/
def openFile (fuel : Nat) (state : State) (fdEndpoint : Nat) (info : DirectoryInfo)
    (message : IpcMessage) : Vfs Nat := do
  let replyCapability := (fdReplyEndpoint message).address
  let replyEndpointAddress := threadStorageSlot state.threadId replyEndpointSlot
  let openedFileAddress ← findSlotFor .directories maxOpenDirectories
    (openFileCallback fdEndpoint replyEndpointAddress (fdOpenNameAddress message).address
      (fdOpenFlags message) (fdOpenMode message))
  if openedFileAddress = sizeMax then
    return eNoMem
  else
    match ← fdStatCall .openFile openedFileAddress replyEndpointAddress with
    | (result, none) =>
        freeOpenedFile openedFileAddress
        return result
    | (result, some stat) =>
        let mountPointAddress ← findMountPoint fuel info.namespaceId stat.inode
          info.enclosingFilesystem
        if mountPointAddress ≠ sizeMax then
          if (← openMountPoint state openedFileAddress mountPointAddress info stat.inode
              replyCapability) ≠ 0 then
            freeOpenedFile openedFileAddress
            return result
          else
            return 0
        else if !isDirectory stat.mode then
          let _ ← send .openFile replyCapability
            (returning (ipcMessage [] [⟨openedFileAddress, sizeMax⟩] 0) 0)
          freeOpenedFile openedFileAddress
          return result
        else if (← proxyDirectory state openedFileAddress info stat.inode
            replyCapability) ≠ 0 then
          freeOpenedFile openedFileAddress
          return result
        else
          return 0

/-- The second component is the message with what is left of its capabilities. -/
def passThruDirectoryMessage (directoryId : Nat) (message : IpcMessage) : Vfs IpcMessage := do
  let transferredCapabilities := message.transferredCapabilities
  let message := { message with toCopy := 0 }
  let _ ← send .passThruDirectoryMessage (directoryAddress directoryId) message
  return { message with
    transferredCapabilities := message.transferredCapabilities ^^^ transferredCapabilities }

def directoryOpen (fuel : Nat) (state : State) (directoryId : Nat) (message : IpcMessage) :
    Vfs Unit := do
  let infoAddress := directoryInfoAddress directoryId
  let replyCapability := (fdReplyEndpoint message).address
  if !(← lock .directoryOpen infoAddress) then
    returnValue replyCapability eNoMem
  else
    let info ← directoryInfoAt infoAddress
    let result ← openFile fuel state (directoryAddress directoryId) info message
    unlock .directoryOpen infoAddress
    onlyIf (result ≠ 0) (returnValue replyCapability result)

/-- What is left of the message. -/
def handleDirectoryMessage (fuel : Nat) (state : State) (message : IpcMessage) :
    Vfs IpcMessage := do
  let directoryId := ipcId message.badge
  let replyCapability := (fdReplyEndpoint message).address
  let call := fdCallNumber message
  if call = fdRead ∨ call = fdReadFast ∨ call = fdStat ∨ call = fdLink ∨ call = fdUnlink then
    passThruDirectoryMessage directoryId message
  else if call = fdOpen then
    directoryOpen fuel state directoryId message
    return message
  else if call = fdWrite ∨ call = fdWriteFast ∨ call = fdTruncate then
    returnValue replyCapability eNotSup
    return message
  else if call = fdMount then
    -- the id is used as an address here
    if !(← lock .handleDirectoryMessage directoryId) then
      returnValue replyCapability eNoMem
      return message
    else
      let info ← directoryInfoAt directoryId
      let result ← mount fuel info (fdMountFileDescriptor message).address (fdMountFlags message)
      reply .handleDirectoryMessage replyCapability result
      return message
  else if call = fdUnmount then
    returnValue replyCapability eNoSys
    return message
  else
    returnValue replyCapability eBadMsg
    return message

/-- The namespace stays locked where this fails. -/
def openRoot (state : State) (badge replyCapability namespaceId : Nat) : Vfs Nat := do
  let address := namespaceAddress namespaceId
  if !(← lock .openRoot address) then
    return eNoMem
  else
    let infoAddress ← allocStructure .directories directoryInfoSlot maxOpenDirectories
    if infoAddress = sizeMax then
      return eNoMem
    else if !(← lock .openRoot infoAddress) then
      freeStructure .directories directoryInfoSlot maxOpenDirectories infoAddress
      return eNoMem
    else
      let fsNamespace ← fsNamespaceAt address
      writeStructure infoAddress (.directoryInfo ⟨namespaceId,
        ipcFlags badge == ipcFlagCanModify, 0, fsNamespace.rootAddress⟩)
      unlock .openRoot infoAddress
      let result ← badgeAndSend .openRoot state (ipcBadge infoAddress ipcFlagIsMountPoint)
        replyCapability
      if result ≠ 0 then
        freeStructure .directories directoryInfoSlot maxOpenDirectories infoAddress
        return result
      else
        unlock .openRoot address
        return result

end Cenix.Vfs
