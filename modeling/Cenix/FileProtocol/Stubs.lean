import Cenix.FileProtocol.Fields
import Cenix.Vfs.Messages

namespace Cenix.FileProtocol

open Fields Vfs

/-! The client stubs of the file protocol and the accessors of its messages. -/

def wordBytes : Nat := ptrBits / 8

abbrev Word := BitVec ptrBits

variable (order : ByteOrder)

def wordAt (buffer : Buffer) (offset : Nat) : Word :=
  BitVec.ofNat ptrBits (numberAt buffer order offset wordBytes)

def setWordAt (buffer : Buffer) (offset : Nat) (value : Word) : Buffer :=
  setNumber buffer order offset wordBytes value.toNat

/-! The accessors.  Those with one definition have the same text under several names. -/

def fdReturnValue (message : IpcMessage) : Word :=
  wordAt order message.buffer 0

/-- `FD_READ_SIZE`, `FD_WRITE_SIZE` -/
def fdReadSize (message : IpcMessage) : Word :=
  wordAt order message.buffer wordBytes

/-- `FD_READ_POSITION`, `FD_WRITE_POSITION` -/
def fdReadPosition (message : IpcMessage) : Word :=
  wordAt order message.buffer (2 * wordBytes)

/-- `FD_READ_BUFFER`, `FD_WRITE_BUFFER` -/
def fdReadBuffer (message : IpcMessage) : IpcCapability :=
  capabilityOf message 1

/-- `FD_READ_BYTES_READ`, `FD_READ_FAST_BYTES_READ`, `FD_WRITE_BYTES_WRITTEN`,
`FD_WRITE_FAST_BYTES_WRITTEN` -/
def fdReadBytesRead (message : IpcMessage) : Word :=
  wordAt order message.buffer wordBytes

/-- `FD_READ_FAST_MAX_SIZE`, `FD_WRITE_FAST_MAX_SIZE` -/
def fdReadFastMaxSize : Nat :=
  ipcBufferSize - wordBytes * 2

/-- `FD_READ_FAST_DATA`, `FD_WRITE_FAST_DATA` -/
def fdReadFastData (message : IpcMessage) (count : Nat) : List (BitVec 8) :=
  bytesAt message.buffer (wordBytes * 2) count

/-- `FD_READ_FAST_SIZE`, `FD_WRITE_FAST_SIZE` -/
def fdReadFastSize (message : IpcMessage) : BitVec 8 :=
  byteAt message.buffer 1

/-- `FD_READ_FAST_POSITION`, `FD_WRITE_FAST_POSITION` -/
def fdReadFastPosition (message : IpcMessage) : Word :=
  wordAt order message.buffer wordBytes

def setReturnValue (m : IpcMessage) (value : Word) : IpcMessage :=
  { m with buffer := setWordAt order m.buffer 0 value }

def setBytesRead (m : IpcMessage) (count : Word) : IpcMessage :=
  { m with buffer := setWordAt order m.buffer wordBytes count }

def fdTruncateSize (message : IpcMessage) : Word :=
  wordAt order message.buffer wordBytes

/-! `struct stat`: fields lie on even offsets, without padding. -/

structure Stat where
  dev : BitVec 32
  ino : BitVec 32
  mode : BitVec 16
  nlink : BitVec 16
  uid : BitVec 16
  gid : BitVec 16
  rdev : BitVec 32
  size : BitVec 32
  atime : BitVec 64
  mtime : BitVec 64
  ctime : BitVec 64
  blksize : BitVec 16
  blocks : BitVec 32
  deriving DecidableEq, Repr

def statSize : Nat := 54

/-- Assigns the fields one after the other. -/
def setStatStruct (buffer : Buffer) (offset : Nat) (s : Stat) : Buffer :=
  [(0, 4, s.dev.toNat), (4, 4, s.ino.toNat), (8, 2, s.mode.toNat), (10, 2, s.nlink.toNat),
    (12, 2, s.uid.toNat), (14, 2, s.gid.toNat), (16, 4, s.rdev.toNat), (20, 4, s.size.toNat),
    (24, 8, s.atime.toNat), (32, 8, s.mtime.toNat), (40, 8, s.ctime.toNat),
    (48, 2, s.blksize.toNat), (50, 4, s.blocks.toNat)].foldl
    (fun buffer (field, count, value) => setNumber buffer order (offset + field) count value)
    buffer

/-- The fields in a copy of the structure's bytes. -/
def statOf (bytes : Vector (BitVec 8) statSize) : Stat where
  dev := BitVec.ofNat _ (numberAt bytes order 0 4)
  ino := BitVec.ofNat _ (numberAt bytes order 4 4)
  mode := BitVec.ofNat _ (numberAt bytes order 8 2)
  nlink := BitVec.ofNat _ (numberAt bytes order 10 2)
  uid := BitVec.ofNat _ (numberAt bytes order 12 2)
  gid := BitVec.ofNat _ (numberAt bytes order 14 2)
  rdev := BitVec.ofNat _ (numberAt bytes order 16 4)
  size := BitVec.ofNat _ (numberAt bytes order 20 4)
  atime := BitVec.ofNat _ (numberAt bytes order 24 8)
  mtime := BitVec.ofNat _ (numberAt bytes order 32 8)
  ctime := BitVec.ofNat _ (numberAt bytes order 40 8)
  blksize := BitVec.ofNat _ (numberAt bytes order 48 2)
  blocks := BitVec.ofNat _ (numberAt bytes order 50 4)

def fdStatStructOffset : Nat := wordBytes

/-- `memcpy` of `FD_STAT_STRUCT` -/
def fdStatStruct (message : IpcMessage) : Vector (BitVec 8) statSize :=
  Vector.ofFn fun i => byteAt message.buffer (fdStatStructOffset + i)

/-! What the stubs send. -/

def fdReadMessage (replyEndpoint readBuffer : Nat) (size position : Word) : IpcMessage :=
  let toSend := ipcMessage [fdRead] [⟨replyEndpoint, sizeMax⟩, ⟨readBuffer, sizeMax⟩] 3
  let toSend := { toSend with buffer := setWordAt order toSend.buffer wordBytes size }
  { toSend with buffer := setWordAt order toSend.buffer (2 * wordBytes) position }

def fdReadFastMessage (replyEndpoint : Nat) (size position : Word) : IpcMessage :=
  let toSend := ipcMessage [fdReadFast, size.setWidth 8] [⟨replyEndpoint, sizeMax⟩] 1
  { toSend with buffer := setWordAt order toSend.buffer wordBytes position }

def fdWriteMessage (replyEndpoint writeBuffer : Nat) (size position : Word) : IpcMessage :=
  let toSend := ipcMessage [fdWrite] [⟨replyEndpoint, sizeMax⟩, ⟨writeBuffer, sizeMax⟩] 1
  let toSend := { toSend with buffer := setWordAt order toSend.buffer wordBytes size }
  { toSend with buffer := setWordAt order toSend.buffer (2 * wordBytes) position }

/-- `writeBuffer` are the `size` bytes to be written. -/
def fdWriteFastMessage (replyEndpoint : Nat) (writeBuffer : List (BitVec 8))
    (position : Word) : IpcMessage :=
  let toSend := ipcMessage [fdWriteFast, BitVec.ofNat 8 writeBuffer.length]
    [⟨replyEndpoint, sizeMax⟩] 1
  let toSend := { toSend with buffer := setWordAt order toSend.buffer wordBytes position }
  { toSend with buffer := setBytes toSend.buffer (wordBytes * 2) writeBuffer }

def fdStatMessage (replyEndpoint : Nat) : IpcMessage :=
  ipcMessage [fdStat] [⟨replyEndpoint, sizeMax⟩] 1

def fdOpenMessage (replyEndpoint nameAddress : Nat) (flags mode : BitVec 8) : IpcMessage :=
  ipcMessage [fdOpen, flags, mode] [⟨replyEndpoint, sizeMax⟩, ⟨nameAddress, sizeMax⟩] 1

def fdLinkMessage (replyEndpoint fdToLink nameAddress : Nat) : IpcMessage :=
  ipcMessage [fdLink]
    [⟨replyEndpoint, sizeMax⟩, ⟨fdToLink, sizeMax⟩, ⟨nameAddress, sizeMax⟩] 1

def fdUnlinkMessage (replyEndpoint nameAddress : Nat) : IpcMessage :=
  ipcMessage [fdUnlink] [⟨replyEndpoint, sizeMax⟩, ⟨nameAddress, sizeMax⟩] 1

def fdTruncateMessage (replyEndpoint : Nat) (size : Word) : IpcMessage :=
  let toSend := ipcMessage [fdTruncate] [⟨replyEndpoint, sizeMax⟩] 1
  { toSend with buffer := setWordAt order toSend.buffer wordBytes size }

def fdMountMessage (replyEndpoint directoryFd : Nat) (flags : BitVec 8) : IpcMessage :=
  ipcMessage [fdMount, flags] [⟨replyEndpoint, sizeMax⟩, ⟨directoryFd, sizeMax⟩] 1

/-! What the stubs return. -/

/-- The results of the two system calls of `vfs_call` and the message received. -/
structure Exchange where
  sendResult : Word
  receiveResult : Word
  received : IpcMessage

/-- The return value and `to_receive` afterwards. -/
def vfsCall (toReceive : IpcMessage) (exchange : Exchange) : Word × IpcMessage :=
  if exchange.sendResult ≠ 0 then
    (exchange.sendResult, toReceive)
  else if exchange.receiveResult ≠ 0 then
    (exchange.receiveResult, exchange.received)
  else
    (fdReturnValue order exchange.received, exchange.received)

/-- The return value and what is stored in the output parameters, `none` where nothing is. -/
structure Outcome where
  result : Word
  count : Option Word
  data : Option (List (BitVec 8))
  stat : Option Stat
  deriving DecidableEq

def emptyMessage : IpcMessage := ipcMessage [] [] 0

def fdReadStub (exchange : Exchange) : Outcome :=
  let (result, toReceive) := vfsCall order emptyMessage exchange
  ⟨result, some (fdReadBytesRead order toReceive), none, none⟩

def fdReadFastStub (size : Word) (exchange : Exchange) : Outcome :=
  if size.toNat > fdReadFastMaxSize then
    ⟨BitVec.ofNat _ eInval, none, none, none⟩
  else
    let (result, toReceive) := vfsCall order emptyMessage exchange
    if result ≠ 0 then
      ⟨result, none, none, none⟩
    else
      let bytesRead := fdReadBytesRead order toReceive
      let count := if size.toNat > bytesRead.toNat then bytesRead.toNat else size.toNat
      ⟨0, some bytesRead, some (fdReadFastData toReceive count), none⟩

def fdWriteStub (exchange : Exchange) : Outcome :=
  let (result, toReceive) := vfsCall order emptyMessage exchange
  ⟨result, some (fdReadBytesRead order toReceive), none, none⟩

def fdWriteFastStub (size : Nat) (exchange : Exchange) : Outcome :=
  if size > fdReadFastMaxSize then
    ⟨BitVec.ofNat _ eInval, none, none, none⟩
  else
    -- the number of bytes is taken before the call is made
    let bytesWritten := fdReadBytesRead order emptyMessage
    let (result, _) := vfsCall order emptyMessage exchange
    ⟨result, some bytesWritten, none, none⟩

def fdStatStub (exchange : Exchange) : Outcome :=
  let (result, toReceive) := vfsCall order emptyMessage exchange
  ⟨result, none, none, if result = 0 then some (statOf order (fdStatStruct toReceive)) else none⟩

/-- `fd_open`, `fd_link`, `fd_unlink`, `fd_truncate` and `fd_mount` -/
def plainStub (exchange : Exchange) : Outcome :=
  ⟨(vfsCall order emptyMessage exchange).1, none, none, none⟩

end Cenix.FileProtocol
