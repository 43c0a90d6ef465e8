import Cenix.FileProtocol.Stubs
import Cenix.InitrdFs.Files

namespace Cenix.InitrdFs

open Fields FileProtocol Jax Vfs

/-! Messages for the files of the archive. -/

def eRoFs : Nat := 19

def modeWrite : BitVec 8 := 4
def modeAppend : BitVec 8 := 8

/-- The slot of the node for a descriptor that is about to be sent. -/
def temporarySlot : Nat := ipcCapabilitySlots + 1

def nodeAddress : Nat := 3
def nodeBits : Nat := 3

/-- `((i) << INIT_NODE_DEPTH) | state->node.address` -/
def slotAddress (i : Nat) : Nat :=
  i * 2 ^ initNodeDepth + nodeAddress

/-- The slots of the node for capabilities. -/
abbrev Slots := Nat → Option Fd

/-- How the system calls of one message turn out: `lock` and `untypedSizeof` as they return,
`copyResult` where the slot is empty, and what the receiver of the reply takes. -/
structure Environment where
  memory : Memory
  lock : IpcCapability → Nat
  untypedSizeof : IpcCapability → Nat
  copyResult : Nat
  sendResult : Nat
  taken : Nat → Bool
  /-- What a `struct jax_file` on the stack holds. -/
  uninitialized : JaxFile

variable (order : ByteOrder) (e : Environment) (s : State)

/-! Reading. -/

structure VfsDirectoryEntry where
  inode : Nat
  nextEntryPosition : Nat
  nameLength : Nat
  name : List Byte
  deriving DecidableEq, Repr

/-- The size of the fields before the name. -/
def vfsDirectoryEntrySize : Nat := 10

def VfsDirectoryEntry.bytes (entry : VfsDirectoryEntry) : List Byte :=
  numberBytes order wordBytes entry.inode ++
    numberBytes order wordBytes entry.nextEntryPosition ++
    numberBytes order 2 entry.nameLength ++ entry.name

/-- The return value of the reply, the result of the function and what it has written. -/
structure ReadResult where
  returnValue : Nat
  count : Nat
  data : List Byte
  deriving DecidableEq, Repr

/-- Where the name of a file starts without the name of its directory. -/
def baseNameStart (dirFile : JaxFile) : Nat :=
  if dirFile.nameLength.toNat = 0 then 0 else dirFile.nameLength.toNat + 1

/-- The entry for a file that has been found. -/
def directoryEntry (dirFile : JaxFile) (found : Found) (nextEntryPosition readSize : Nat) :
    VfsDirectoryEntry :=
  let dirLength := dirFile.nameLength.toNat
  let file := found.file
  let nameLength := (file.nameLength - (if dirLength = 0 then 0 else dirFile.nameLength - 1)).toNat
  let room := readSize - vfsDirectoryEntrySize
  let written := if room < nameLength then room else nameLength
  ⟨found.address, nextEntryPosition, written,
    e.memory.bytesAt (file.name + baseNameStart dirFile) written⟩

def readDirectory (fuel : Nat) (badge : Nat) (file : JaxFile) (position readSize : Nat) :
    Option ReadResult :=
  let readSize := if readSize < vfsDirectoryEntrySize then vfsDirectoryEntrySize else readSize
  let readAddress := if position = 0 then badge else position
  if readAddress < s.iterator.start ∧ readAddress ≠ 0 then
    some ⟨eInval, 0, []⟩
  else
    (nextFileInDir e.memory s fuel file readAddress).bind fun
      | none => some ⟨eInval, 0, []⟩
      | some found =>
          (nextFileInDir e.memory s fuel file found.next).map fun following =>
            let nextEntryPosition := if following.isNone then 0 else found.next
            let entry := directoryEntry e file found nextEntryPosition readSize
            ⟨0, entry.nameLength + vfsDirectoryEntrySize, entry.bytes order⟩

def readFile (file : JaxFile) (position readSize : Nat) : ReadResult :=
  let size := file.size.toNat % 2 ^ ptrBits
  let readSize :=
    if position ≥ size then 0
    else if (position + readSize) % 2 ^ ptrBits ≥ size then size - position
    else readSize
  ⟨0, readSize, e.memory.bytesAt (file.data + position) readSize⟩

def handleRead (fuel : Nat) (badge : Nat) (file : JaxFile) (position readSize : Nat) :
    Option ReadResult :=
  if file.type = typeDirectory then readDirectory order e s fuel badge file position readSize
  else some (readFile e file position readSize)

/-! Opening. -/

/-- The comparison of the name of a file with the one to be opened: the result is whether the
characters at which it ends are equal. -/
def nameMatches (dirFile file : JaxFile) (filename : Nat) : Bool :=
  let start := baseNameStart dirFile
  let i := scan (fun i => e.memory (file.name + i) == e.memory (filename + (i - start)))
    (file.nameLength.toNat - start) start
  e.memory (file.name + i) == e.memory (filename + (i - start))

/-- The loop of `handle_open`, with the address of the first file that matches. -/
def findFile (file : JaxFile) (filename : Nat) : (fuel : Nat) → (next : Nat) →
    Option (Option Nat)
  | 0, _ => none
  | fuel + 1, next =>
      (nextFileInDir e.memory s (fuel + 1) file next).bind fun
        | none => some none
        | some found =>
            if nameMatches e file found.file filename then some (some found.address)
            else findFile file filename fuel found.next

/-- `NODE_COPY` of the endpoint with a badge into a slot of the node. -/
def copyEndpoint (slots : Slots) (badge : Nat) : Nat × Slots :=
  if e.copyResult ≠ 0 then (e.copyResult, slots)
  else if (slots temporarySlot).isSome then (eCapExists, slots)
  else (0, Function.update slots temporarySlot (some (.endpoint badge)))

/-- What `handle_open` does before it looks for the file: an error, or the pointer to the
name. -/
def openName (received : IpcMessage) (file : JaxFile) : Except Nat Nat :=
  if file.type ≠ typeDirectory then
    .error eNotSup
  else if fdOpenFlags received &&& openExclusive ≠ 0 ∨
      fdOpenMode received &&& (modeWrite ||| modeAppend) ≠ 0 then
    .error eRoFs
  else if e.lock (fdOpenNameAddress received) = 0 then
    .error eNoMem
  else
    .ok (e.lock (fdOpenNameAddress received))

def setReturn (reply : IpcMessage) (value : Nat) : IpcMessage :=
  setReturnValue order reply (BitVec.ofNat _ value)

/-- `FD_OPEN_REPLY_FD(*reply)` is set. -/
def setReplyFd (reply : IpcMessage) (capability : IpcCapability) : IpcMessage :=
  { reply with capabilities := reply.capabilities.set! 0 capability }

/-- The reply and the slots afterwards. -/
def handleOpen (fuel : Nat) (slots : Slots) (received reply : IpcMessage) (file : JaxFile)
    (next : Nat) : Option (IpcMessage × Slots) :=
  match openName e received file with
  | .error result => some (setReturn order reply result, slots)
  | .ok filename =>
      (findFile e s file filename fuel next).map fun
        | none =>
            let result := if fdOpenFlags received &&& openCreate ≠ 0 then eRoFs else eNoEnt
            (setReturn order reply result, slots)
        | some address =>
            let (result, slots) := copyEndpoint e slots address
            let reply := setReturn order reply result
            if result = 0 then
              (setReturn order (setReplyFd reply ⟨slotAddress temporarySlot, sizeMax⟩) 0, slots)
            else
              (reply, slots)

/-! Calls. -/

def statOfFile (badge : Nat) (file : JaxFile) : FileProtocol.Stat where
  dev := 0
  ino := BitVec.ofNat 32 badge
  mode := file.mode
  nlink := 0
  uid := file.owner
  gid := file.group
  rdev := 0
  size := file.size.setWidth 32
  atime := file.timestamp
  mtime := file.timestamp
  ctime := file.timestamp
  blksize := 512
  blocks := ((file.size + 511).sdiv 512).setWidth 32

/-- What a message does: the reply, the slots afterwards and what is written where. -/
structure Handled where
  reply : IpcMessage
  slots : Slots
  written : Option (Nat × List Byte)

def handleReadCall (fuel : Nat) (slots : Slots) (received reply : IpcMessage)
    (file : JaxFile) : Option Handled :=
  let buffer := fdReadBuffer received
  let data := e.lock buffer
  if data = 0 then
    some ⟨setReturn order reply eNoMem, slots, none⟩
  else
    let size := e.untypedSizeof buffer
    let requested := (fdReadSize order received).toNat
    (handleRead order e s fuel received.badge file (fdReadPosition order received).toNat
      (if requested > size then size else requested)).map fun result =>
        ⟨setBytesRead order (setReturn order reply result.returnValue)
          (BitVec.ofNat _ result.count), slots, some (data, result.data)⟩

def handleReadFastCall (fuel : Nat) (slots : Slots) (received reply : IpcMessage)
    (file : JaxFile) : Option Handled :=
  let requested := (fdReadFastSize received).toNat
  (handleRead order e s fuel received.badge file (fdReadFastPosition order received).toNat
    (if requested > fdReadFastMaxSize then fdReadFastMaxSize else requested)).map fun result =>
      let reply := { reply with
        buffer := setBytes reply.buffer (wordBytes * 2) result.data }
      ⟨setBytesRead order (setReturn order reply result.returnValue)
        (BitVec.ofNat _ result.count), slots, none⟩

def handleFdMessage (fuel : Nat) (slots : Slots) (received reply : IpcMessage)
    (file : JaxFile) (next : Nat) : Option Handled :=
  let call := fdCallNumber received
  if call = fdRead then
    handleReadCall order e s fuel slots received reply file
  else if call = fdReadFast then
    handleReadFastCall order e s fuel slots received reply file
  else if call = fdStat then
    let reply := { reply with
      buffer := setStatStruct order reply.buffer fdStatStructOffset
        (statOfFile received.badge file) }
    some ⟨setReturn order reply 0, slots, none⟩
  else if call = fdOpen then
    (handleOpen order e s fuel slots received reply file next).map fun (reply, slots) =>
      ⟨reply, slots, none⟩
  else if call = fdWrite ∨ call = fdWriteFast ∨ call = fdLink ∨ call = fdUnlink ∨
      call = fdTruncate then
    some ⟨setReturn order reply eNotSup, slots, none⟩
  else
    some ⟨reply, slots, none⟩

/-- The file for the root directory. -/
def rootFile : JaxFile :=
  { JaxFile.zero with type := typeDirectory, mode := 0b101101101 }

/-- The badge, the file and the address of what follows it that a message is handled with. -/
def target (badge : Nat) : Nat × JaxFile × Nat :=
  if badge = 0 then
    (s.iterator.start, rootFile, s.iterator.start)
  else
    let (next, file) := nextFile e.memory badge s.initrdEnd e.uninitialized
    (badge, file, next.getD 0)

def handleIpcMessage (fuel : Nat) (slots : Slots) (received reply : IpcMessage) :
    Option Handled :=
  let (badge, file, next) := target e s received.badge
  handleFdMessage order e s fuel slots { received with badge := badge } reply file next

end Cenix.InitrdFs
