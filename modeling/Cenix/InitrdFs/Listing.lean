import Cenix.FileProtocol.Agreement
import Cenix.InitrdFs.Directories
import Cenix.InitrdFs.MainLoop

namespace Cenix.InitrdFs

open Fields FileProtocol Jax Vfs

/-! Listing a directory over the file protocol. -/

/-- A call of a client: what the system calls do, the capabilities in the message and
whether it is `FD_READ_FAST` where it reads. -/
structure Call where
  environment : Environment
  fuel : Nat
  replyEndpoint : Nat
  attached : Nat
  fast : Bool

namespace Call

variable (order : ByteOrder) (s : State) (c : Call) (badge : Nat)

def handle (message : IpcMessage) : Option Handled :=
  handleIpcMessage order c.environment s c.fuel (fun _ => none)
    { message with badge := badge } emptyMessage

/-- A directory entry as a client finds it in its buffer. -/
def entryOf (bytes : List Byte) : VfsDirectoryEntry :=
  let nameLength := ofNumberBytes order ((bytes.drop (2 * wordBytes)).take 2)
  { inode := ofNumberBytes order (bytes.take wordBytes)
    nextEntryPosition := ofNumberBytes order ((bytes.drop wordBytes).take wordBytes)
    nameLength := nameLength
    name := (bytes.drop vfsDirectoryEntrySize).take nameLength }

def readMessage (size position : Word) : IpcMessage :=
  if c.fast then fdReadFastMessage order c.replyEndpoint size position
  else fdReadMessage order c.replyEndpoint c.attached size position

/-- Where the client finds what has been read. -/
def readData (handled : Handled) : Option (List Byte) :=
  if c.fast then
    some (fdReadFastData handled.reply (fdReadBytesRead order handled.reply).toNat)
  else
    handled.written.map Prod.snd

/-- Reads one entry: the inner option is empty if the server returns an error. -/
def readEntry (size position : Word) : Option (Option VfsDirectoryEntry) :=
  (c.handle order s badge (c.readMessage order size position)).map fun handled =>
    if fdReturnValue order handled.reply = 0 then
      (c.readData order handled).map (entryOf order)
    else
      none

/-- Follows the positions of next entries until one is 0. -/
def list (size : Word) : (rounds : Nat) → (position : Word) →
    Option (Option (List VfsDirectoryEntry))
  | 0, _ => none
  | rounds + 1, position =>
      (c.readEntry order s badge size position).bind fun
        | none => some none
        | some entry =>
            if entry.nextEntryPosition = 0 then
              some (some [entry])
            else
              (list size rounds (BitVec.ofNat _ entry.nextEntryPosition)).map
                (Option.map (entry :: ·))

/-- Opening a file gives a descriptor with that badge. -/
def Opened (flags mode : BitVec 8) (fd : Nat) : Prop :=
  ∃ handled, c.handle order s badge
      (fdOpenMessage c.replyEndpoint c.attached flags mode) = some handled ∧
    fdReturnValue order handled.reply = 0 ∧
    handled.slots (slotOf (capabilityOf handled.reply 0).address) = some (.endpoint fd)

def StatInode (inode : Nat) : Prop :=
  ∃ handled, c.handle order s badge (fdStatMessage c.replyEndpoint) = some handled ∧
    fdReturnValue order handled.reply = 0 ∧
    (statOf order (fdStatStruct handled.reply)).ino.toNat = inode

/-- The server has opened the archive. -/
structure Serves (records : List DescribedRecord) : Prop where
  stored : c.environment.memory.Stored s.initrdStart
    (magic ++ records.flatMap DescribedRecord.bytes)
  stop : s.initrdEnd =
    s.initrdStart + (magic ++ records.flatMap DescribedRecord.bytes).length
  bound : s.initrdEnd < 2 ^ ptrBits
  opened : openJax c.environment.memory s.initrdStart s.initrdEnd = some s.iterator
  fuel : records.length < c.fuel

/-- The size is that of a buffer that can be locked, or of one for a fast call. -/
def CanRead (size : Word) : Prop :=
  if c.fast then
    size.toNat ≤ fdReadFastMaxSize
  else
    c.environment.lock ⟨c.attached, sizeMax⟩ ≠ 0 ∧
      size.toNat ≤ c.environment.untypedSizeof ⟨c.attached, sizeMax⟩

/-- The client opens the file of that name for reading. -/
structure Names (name : List Byte) (flags mode : BitVec 8) : Prop where
  lock : c.environment.lock ⟨c.attached, sizeMax⟩ ≠ 0
  stored : c.environment.memory.Stored (c.environment.lock ⟨c.attached, sizeMax⟩) (name ++ [0])
  copy : c.environment.copyResult = 0
  flags : flags &&& openExclusive = 0
  mode : mode &&& (modeWrite ||| modeAppend) = 0

end Call

section

variable (order : ByteOrder) (s : State) (records : List DescribedRecord)

/-- The names of the files of a directory, in the order of the archive. -/
def childNames (dir : List Byte) : List (List Byte) :=
  (records.filter fun r => decide (IsChild dir r.name)).map fun r => baseName dir r.name

/-- The entry has the name, and the inode is the one that the file has once it is opened. -/
structure Describes (badge : Nat) (name : List Byte) (entry : VfsDirectoryEntry) : Prop where
  nameLength : entry.nameLength = name.length
  bytes : entry.name = name
  inode : ∀ (c : Call) flags mode, c.Serves s records → c.Names name flags mode →
    ∃ fd, c.Opened order s badge flags mode fd ∧ c.StatInode order s fd entry.inode

/-- With any large enough buffer, the listing ends and has one entry for each file. -/
def ListsExactly (badge : Nat) (dir : List Byte) : Prop :=
  ∀ (c : Call) (size : Word), c.Serves s records → c.CanRead size →
    (∀ name ∈ childNames records dir, vfsDirectoryEntrySize + name.length ≤ size.toNat) →
    ∀ rounds, records.length < rounds →
      ∃ entries, c.list order s badge size rounds 0 = some (some entries) ∧
        List.Forall₂ (Describes order s records badge) (childNames records dir) entries

/-- The records with their addresses. -/
def located : Nat → List DescribedRecord → List (Nat × DescribedRecord)
  | _, [] => []
  | start, r :: records => (start, r) :: located (start + r.bytes.length) records

/-- The badge and the name of a directory. -/
inductive Directory : Nat → List Byte → Prop where
  | root : Directory 0 []
  | nested {address : Nat} {r : DescribedRecord}
      (hmem : (address, r) ∈ located (s.initrdStart + magic.length) records)
      (htype : r.type = typeDirectory) : Directory address r.name

structure WellFormed : Prop where
  distinct : (records.map fun r => r.name).Nodup
  nonempty : ∀ r ∈ records, r.name ≠ []
  noNul : ∀ r ∈ records, 0 ∉ r.name
  /-- A directory comes before what is in it. -/
  precedes : records.Pairwise fun r later =>
    later.type = typeDirectory → ¬ later.name ++ [separator] <+: r.name

end

/-! Reading one entry. -/

theorem VfsDirectoryEntry.length_bytes (order : ByteOrder) (entry : VfsDirectoryEntry) :
    (entry.bytes order).length = vfsDirectoryEntrySize + entry.name.length := by
  simp [bytes, vfsDirectoryEntrySize, wordBytes, ptrBits]
  omega

theorem entryOf_bytes (order : ByteOrder) {entry : VfsDirectoryEntry}
    (hinode : entry.inode < 2 ^ ptrBits) (hnext : entry.nextEntryPosition < 2 ^ ptrBits)
    (hlength : entry.nameLength < 2 ^ 16) (hname : entry.name.length = entry.nameLength) :
    Call.entryOf order (entry.bytes order) = entry := by
  have hword : ∀ value, (numberBytes order wordBytes value).length = wordBytes :=
    fun value => length_numberBytes order wordBytes value
  have hbits : 8 * wordBytes = ptrBits := by decide
  have hnumber : ∀ value, value < 2 ^ ptrBits →
      ofNumberBytes order (numberBytes order wordBytes value) = value := by
    intro value hvalue
    apply ofNumberBytes_numberBytes
    rwa [hbits]
  have htwo : ofNumberBytes order (numberBytes order 2 entry.nameLength) = entry.nameLength :=
    ofNumberBytes_numberBytes order hlength
  have hsize : vfsDirectoryEntrySize = wordBytes + (wordBytes + 2) := by decide
  have hlength : ((((entry.bytes order).drop (2 * wordBytes))).take 2) =
      numberBytes order 2 entry.nameLength := by
    rw [VfsDirectoryEntry.bytes, Nat.two_mul, ← List.drop_drop, List.append_assoc,
      List.append_assoc, List.drop_left' (hword _), List.drop_left' (hword _),
      List.take_left' (length_numberBytes order 2 _)]
  simp only [Call.entryOf, hlength, htwo]
  simp only [VfsDirectoryEntry.bytes, List.append_assoc, hsize, ← List.drop_drop,
    List.drop_left' (hword _), List.take_left' (hword _), hnumber _ hinode, hnumber _ hnext,
    List.drop_left' (length_numberBytes order 2 _), ← hname, List.take_length]
  rw [hname]

namespace Call

variable {order : ByteOrder} {s : State} {c : Call} {badge : Nat}

theorem fdReturnValue_setBytesRead (reply : IpcMessage) (value : Nat) (count : Word) :
    fdReturnValue order (setBytesRead order (setReturn order reply value) count) =
      BitVec.ofNat _ value :=
  (wordAt_setWordAt_of_apart order _ _ (by decide) (by decide)).trans
    (wordAt_setWordAt order _ _ (by decide))

theorem fdReadBytesRead_setBytesRead (reply : IpcMessage) (count : Word) :
    fdReadBytesRead order (setBytesRead order reply count) = count :=
  wordAt_setWordAt order _ _ (by decide)

theorem fdReturnValue_setReturn (reply : IpcMessage) (value : Nat) :
    fdReturnValue order (setReturn order reply value) = BitVec.ofNat _ value :=
  wordAt_setWordAt order _ _ (by decide)

/-- The data of a fast call stay in front of the fields that are set later. -/
theorem fdReadFastData_reply (reply : IpcMessage) (value : Nat) (count : Word)
    {data : List Byte} (hdata : data.length ≤ fdReadFastMaxSize) :
    fdReadFastData (setBytesRead order (setReturn order
      { reply with buffer := setBytes reply.buffer (wordBytes * 2) data } value) count)
        data.length = data := by
  have hend : wordBytes * 2 + data.length ≤ ipcBufferSize := by
    simp only [fdReadFastMaxSize, wordBytes, ptrBits, ipcBufferSize] at hdata ⊢
    omega
  have hword : wordBytes + wordBytes ≤ wordBytes * 2 := by decide
  have hfront : 0 + wordBytes ≤ wordBytes * 2 := by decide
  rw [fdReadFastData, setBytesRead, setReturn, setReturnValue,
    bytesAt_setWordAt_of_apart order _ _ hend (.inr hword),
    bytesAt_setWordAt_of_apart order _ _ hend (.inr hfront), bytesAt_setBytes _ _ hend]

theorem handleReadCall_eq {slots : Slots} {received reply : IpcMessage} {file : JaxFile}
    {result : ReadResult}
    (hlock : c.environment.lock (fdReadBuffer received) ≠ 0)
    (hsize : (fdReadSize order received).toNat ≤
      c.environment.untypedSizeof (fdReadBuffer received))
    (hresult : handleRead order c.environment s c.fuel received.badge file
      (fdReadPosition order received).toNat (fdReadSize order received).toNat = some result) :
    handleReadCall order c.environment s c.fuel slots received reply file =
      some ⟨setBytesRead order (setReturn order reply result.returnValue)
        (BitVec.ofNat _ result.count), slots,
        some (c.environment.lock (fdReadBuffer received), result.data)⟩ := by
  have hnot : ¬ (fdReadSize order received).toNat >
      c.environment.untypedSizeof (fdReadBuffer received) := Nat.not_lt.mpr hsize
  simp only [handleReadCall, hlock, hnot, if_false, hresult, Option.map_some]

theorem handleReadFastCall_eq {slots : Slots} {received reply : IpcMessage} {file : JaxFile}
    {result : ReadResult}
    (hsize : (fdReadFastSize received).toNat ≤ fdReadFastMaxSize)
    (hresult : handleRead order c.environment s c.fuel received.badge file
      (fdReadFastPosition order received).toNat (fdReadFastSize received).toNat =
        some result) :
    handleReadFastCall order c.environment s c.fuel slots received reply file =
      some ⟨setBytesRead order (setReturn order
        { reply with buffer := setBytes reply.buffer (wordBytes * 2) result.data }
        result.returnValue) (BitVec.ofNat _ result.count), slots, none⟩ := by
  have hnot : ¬ (fdReadFastSize received).toNat > fdReadFastMaxSize := Nat.not_lt.mpr hsize
  simp only [handleReadFastCall, hnot, if_false, hresult, Option.map_some]

/-- An entry that is read reaches the client, and so does an error. -/
theorem readEntry_eq {size position : Word} (hread : c.CanRead size)
    {badge' next : Nat} {file : JaxFile}
    (htarget : target c.environment s badge = (badge', file, next))
    (hdir : file.type = typeDirectory) {result : ReadResult}
    (hresult : readDirectory order c.environment s c.fuel badge' file position.toNat
      size.toNat = some result)
    (hlength : result.data.length = result.count) (hsize : result.count ≤ size.toNat)
    (hvalue : result.returnValue < 2 ^ ptrBits) :
    c.readEntry order s badge size position =
      some (if result.returnValue = 0 then some (entryOf order result.data) else none) := by
  have hword : (BitVec.ofNat ptrBits result.returnValue = 0) = (result.returnValue = 0) := by
    apply propext
    rw [← BitVec.toNat_inj, BitVec.toNat_ofNat, Nat.mod_eq_of_lt hvalue]
    rfl
  have hhandle : handleRead order c.environment s c.fuel badge' file position.toNat
      size.toNat = some result := by
    rw [handleRead, if_pos hdir, hresult]
  rw [← hlength] at hsize
  have hcount : (BitVec.ofNat ptrBits result.data.length).toNat = result.data.length := by
    rw [BitVec.toNat_ofNat]
    exact Nat.mod_eq_of_lt (Nat.lt_of_le_of_lt hsize size.isLt)
  rw [CanRead] at hread
  simp only [readEntry, handle, handleIpcMessage, htarget]
  cases hfast : c.fast with
  | true =>
      rw [hfast, if_pos rfl] at hread
      have hmessage : c.readMessage order size position =
          FileCall.message order c.replyEndpoint (.readFast size position) := by
        rw [readMessage, hfast, if_pos rfl, FileCall.message]
      have hdelivered : Delivered order
          { c.readMessage order size position with badge := badge' } (.readFast size position) :=
        hmessage ▸ (message_delivered order c.replyEndpoint (.readFast size position) hread).1
      have hbadge : { c.readMessage order size position with badge := badge' }.badge = badge' :=
        rfl
      generalize { c.readMessage order size position with badge := badge' } = received
        at hdelivered hbadge
      obtain ⟨hcall, hsize', hposition⟩ := hdelivered
      have hother : fdCallNumber received ≠ fdRead :=
        fun heq => absurd (hcall.symm.trans heq) (by decide)
      rw [handleFdMessage, if_neg hother, if_pos hcall,
        handleReadFastCall_eq (by rwa [hsize']) (by rwa [hsize', hposition, hbadge])]
      simp only [Option.map_some, fdReturnValue_setBytesRead, hword, readData, hfast,
        fdReadBytesRead_setBytesRead, ← hlength, hcount, if_true]
      rw [fdReadFastData_reply _ _ _ (Nat.le_trans hsize hread)]
  | false =>
      rw [hfast, if_neg Bool.false_ne_true] at hread
      have hmessage : c.readMessage order size position =
          FileCall.message order c.replyEndpoint (.read c.attached size position) := by
        rw [readMessage, hfast, if_neg Bool.false_ne_true, FileCall.message]
      have hdelivered : Delivered order
          { c.readMessage order size position with badge := badge' }
          (.read c.attached size position) :=
        hmessage ▸ (message_delivered order c.replyEndpoint
          (.read c.attached size position) trivial).1
      have hbadge : { c.readMessage order size position with badge := badge' }.badge = badge' :=
        rfl
      generalize { c.readMessage order size position with badge := badge' } = received
        at hdelivered hbadge
      obtain ⟨hcall, hbuffer, hsize', hposition⟩ := hdelivered
      rw [handleFdMessage, if_pos hcall,
        handleReadCall_eq (by rw [hbuffer]; exact hread.1) (by rw [hbuffer, hsize']; exact hread.2)
          (by rwa [hsize', hposition, hbadge])]
      simp only [Option.map_some, fdReturnValue_setBytesRead, hword, readData, hfast,
        Bool.false_eq_true, if_false]

end Call

/-! Entries of a directory. -/

section

variable (order : ByteOrder) (s : State) (badge position readSize : Nat) {e : Environment}
  {fuel : Nat} {dirFile : JaxFile} {dir : List Byte} {address : Nat}
  {records : List DescribedRecord}

/-- The first file from the address on is read, and whether there is another one. -/
theorem readDirectory_chain (hdir : Named e.memory dirFile dir)
    (h : Chain e.memory s.initrdEnd address records) (hfuel : records.length < fuel)
    (hposition : (if position = 0 then badge else position) = address)
    (hiterator : s.iterator.start ≤ address) (hstart : s.initrdStart ≤ address)
    (hsize : vfsDirectoryEntrySize ≤ readSize) {child : Nat × DescribedRecord}
    {others : List (Nat × DescribedRecord)}
    (hchildren : children dir address records = child :: others) :
    readDirectory order e s fuel badge dirFile position readSize =
      let entry := directoryEntry e dirFile (foundOf child)
        (if others = [] then 0 else child.1 + child.2.bytes.length) readSize
      some ⟨0, entry.nameLength + vfsDirectoryEntrySize, entry.bytes order⟩ := by
  obtain ⟨rest, hrest, hothers, hlength, hle, _⟩ := h.behind hchildren
  have hnot : ¬ (address < s.iterator.start ∧ address ≠ 0) := by omega
  have hbefore : ¬ address < s.initrdStart := by omega
  have hnext : ¬ child.1 + child.2.bytes.length < s.initrdStart := by omega
  simp only [readDirectory, hposition, hnot, if_false, nextFileInDir, hbefore,
    nextFileLoop_chain hdir h hfuel, hchildren, List.head?_cons, Option.map_some,
    Option.bind_some, Nat.not_lt.mpr hsize, foundOf, hnext,
    nextFileLoop_chain hdir hrest (Nat.lt_trans hlength hfuel), hothers]
  cases others with
  | nil => rfl
  | cons other others => rfl

theorem readDirectory_empty (hdir : Named e.memory dirFile dir)
    (h : Chain e.memory s.initrdEnd address records) (hfuel : records.length < fuel)
    (hposition : (if position = 0 then badge else position) = address)
    (hchildren : children dir address records = []) :
    readDirectory order e s fuel badge dirFile position readSize = some ⟨eInval, 0, []⟩ := by
  simp only [readDirectory, hposition, nextFileInDir, nextFileLoop_chain hdir h hfuel,
    hchildren, List.head?_nil, Option.map_none]
  split
  · rfl
  · split
    · rfl
    · rfl

theorem directoryEntry_rootFile {child : Nat × DescribedRecord} {next : Nat}
    (hname : e.memory.Stored (child.1 + 3) child.2.name)
    (hsize : vfsDirectoryEntrySize + child.2.name.length ≤ readSize) :
    directoryEntry e rootFile (foundOf child) next readSize =
      ⟨child.1, next, child.2.name.length, child.2.name⟩ := by
  have hroom : ¬ readSize - vfsDirectoryEntrySize < child.2.name.length := by omega
  have hroot : rootFile.nameLength.toNat = 0 := rfl
  have hlength : ((child.2.file child.1).nameLength - 0).toNat = child.2.name.length := by
    have hzero : (child.2.file child.1).nameLength - 0 = (child.2.file child.1).nameLength := by
      simp
    rw [hzero, DescribedRecord.toNat_nameLength]
  simp only [directoryEntry, baseNameStart, hroot, if_true, foundOf, hlength, hroom, if_false]
  exact congrArg _ hname

/-- In another directory, the length is that of the name and the two bytes behind it. -/
theorem nameLength_directoryEntry {child : Nat × DescribedRecord} (next : Nat)
    (hdir : dirFile.nameLength.toNat = dir.length) (hroot : dir ≠ [])
    (hchild : IsChild dir child.2.name)
    (hsize : vfsDirectoryEntrySize + (baseName dir child.2.name).length + 2 ≤ readSize) :
    (directoryEntry e dirFile (foundOf child) next readSize).nameLength =
      (baseName dir child.2.name).length + 2 := by
  have hpos := List.length_pos_iff.mpr hroot
  have hstarts := (hchild.1.resolve_left hroot).length_le
  have hbound := child.2.nameBound
  have hbase : (baseName dir child.2.name).length =
      child.2.name.length - (dir.length + 1) := by
    rw [baseName, if_neg hroot, List.length_drop]
  rw [List.length_append, List.length_singleton] at hstarts
  have hone : (1 : BitVec 16).toNat = 1 := rfl
  have hless : (dirFile.nameLength - 1).toNat = dir.length - 1 := by
    rw [BitVec.toNat_sub, hdir, hone]
    omega
  have hlength : ((child.2.file child.1).nameLength - (dirFile.nameLength - 1)).toNat =
      (baseName dir child.2.name).length + 2 := by
    rw [BitVec.toNat_sub, hless, DescribedRecord.toNat_nameLength, hbase]
    omega
  have hzero : ¬ dir.length = 0 := Nat.ne_of_gt hpos
  have hroom : ¬ readSize - vfsDirectoryEntrySize < (baseName dir child.2.name).length + 2 := by
    omega
  simp only [directoryEntry, hdir, hzero, if_false, foundOf, hlength, hroom]

end

/-! The root. -/

def entriesOf : List (Nat × DescribedRecord) → List VfsDirectoryEntry
  | [] => []
  | child :: others =>
      ⟨child.1, if others = [] then 0 else child.1 + child.2.bytes.length,
        child.2.name.length, child.2.name⟩ :: entriesOf others

section

variable {order : ByteOrder} {s : State} {c : Call} {size : Word}

theorem readEntry_root (hread : c.CanRead size) (hbound : s.initrdEnd < 2 ^ ptrBits)
    {address : Nat} {records : List DescribedRecord}
    (h : Chain c.environment.memory s.initrdEnd address records)
    (hfuel : records.length < c.fuel) {position : Word}
    (hposition : (if position.toNat = 0 then s.iterator.start else position.toNat) = address)
    (hiterator : s.iterator.start ≤ address) (hstart : s.initrdStart ≤ address)
    {child : Nat × DescribedRecord} {others : List (Nat × DescribedRecord)}
    (hchildren : children [] address records = child :: others)
    (hsize : vfsDirectoryEntrySize + child.2.name.length ≤ size.toNat) :
    c.readEntry order s 0 size position = some (some ⟨child.1,
      if others = [] then 0 else child.1 + child.2.bytes.length,
      child.2.name.length, child.2.name⟩) := by
  obtain ⟨rest, hrest, hothers, hlength, hle, hstop, hname, _⟩ := h.behind hchildren
  have hbytes := child.2.length_bytes
  have hdirectory := readDirectory_chain order s s.iterator.start position.toNat size.toNat
    (named_rootFile _) h hfuel hposition hiterator hstart (by omega) hchildren
  rw [directoryEntry_rootFile _ hname hsize] at hdirectory
  rw [Call.readEntry_eq hread rfl rfl hdirectory]
  · rw [if_pos rfl, entryOf_bytes order]
    · show child.1 < 2 ^ ptrBits
      omega
    · show (if others = [] then 0 else child.1 + child.2.bytes.length) < 2 ^ ptrBits
      split
      · decide
      · exact Nat.lt_of_le_of_lt hstop hbound
    · exact child.2.nameBound
    · rfl
  · rw [VfsDirectoryEntry.length_bytes, Nat.add_comm]
  · show child.2.name.length + vfsDirectoryEntrySize ≤ size.toNat
    omega
  · exact Nat.two_pow_pos ptrBits

theorem list_root (hread : c.CanRead size) (hbound : s.initrdEnd < 2 ^ ptrBits)
    {address : Nat} {records : List DescribedRecord}
    (h : Chain c.environment.memory s.initrdEnd address records)
    (hfuel : records.length < c.fuel) {position : Word}
    (hposition : (if position.toNat = 0 then s.iterator.start else position.toNat) = address)
    (hiterator : s.iterator.start ≤ address) (hstart : s.initrdStart ≤ address)
    {child : Nat × DescribedRecord} {others : List (Nat × DescribedRecord)}
    (hchildren : children [] address records = child :: others)
    (hsize : ∀ child ∈ children [] address records,
      vfsDirectoryEntrySize + child.2.name.length ≤ size.toNat)
    {rounds : Nat} (hrounds : others.length < rounds) :
    c.list order s 0 size rounds position = some (some (entriesOf (child :: others))) := by
  induction others generalizing address records position child rounds with
  | nil =>
      obtain ⟨rounds, rfl⟩ := Nat.exists_eq_add_one_of_ne_zero (Nat.ne_of_gt hrounds)
      rw [Call.list, readEntry_root hread hbound h hfuel hposition hiterator hstart hchildren
        (hsize child (by simp [hchildren]))]
      rfl
  | cons other others ih =>
      obtain ⟨rounds, rfl⟩ :=
        Nat.exists_eq_add_one_of_ne_zero (Nat.ne_of_gt (Nat.zero_lt_of_lt hrounds))
      obtain ⟨rest, hrest, hothers, hlength, hle, hstop, _⟩ := h.behind hchildren
      have hbytes := child.2.length_bytes
      have hnext : (BitVec.ofNat ptrBits (child.1 + child.2.bytes.length)).toNat =
          child.1 + child.2.bytes.length := by
        rw [BitVec.toNat_ofNat, Nat.mod_eq_of_lt (Nat.lt_of_le_of_lt hstop hbound)]
      have hmore : child.1 + child.2.bytes.length ≠ 0 := by omega
      have hlist : c.list order s 0 size rounds
          (BitVec.ofNat ptrBits (child.1 + child.2.bytes.length)) =
            some (some (entriesOf (other :: others))) := by
        apply ih hrest (Nat.lt_trans hlength hfuel) _ (by omega) (by omega) hothers _
          (Nat.lt_of_succ_lt_succ hrounds)
        · rw [hnext, if_neg hmore]
        · intro child hmem
          apply hsize child
          rw [hchildren, List.mem_cons]
          exact .inr (hothers ▸ hmem)
      rw [Call.list, readEntry_root hread hbound h hfuel hposition hiterator hstart hchildren
        (hsize child (by simp [hchildren]))]
      simp only [Option.bind_some, List.cons_ne_nil, if_false, hmore, hlist, Option.map_some,
        entriesOf]

/-- Opening a name gives the descriptor of the file that is found first. -/
theorem opened_iff {name : List Byte} {flags mode : BitVec 8} (hnames : c.Names name flags mode)
    {found : Option Nat}
    (hfound : findFile c.environment s rootFile (c.environment.lock ⟨c.attached, sizeMax⟩)
      c.fuel s.iterator.start = some found) (fd : Nat) :
    c.Opened order s 0 flags mode fd ↔ found = some fd := by
  have hdelivered : Delivered order
      { fdOpenMessage c.replyEndpoint c.attached flags mode with badge := s.iterator.start }
      (.openFile c.attached flags mode) :=
    (message_delivered order c.replyEndpoint (.openFile c.attached flags mode) trivial).1
  have htarget : target c.environment s 0 = (s.iterator.start, rootFile, s.iterator.start) := rfl
  simp only [Call.Opened, Call.handle, handleIpcMessage, htarget]
  generalize { fdOpenMessage c.replyEndpoint c.attached flags mode with
    badge := s.iterator.start } = received at hdelivered
  obtain ⟨hcall, haddress, hflags, hmode⟩ := hdelivered
  have hname : openName c.environment received rootFile =
      .ok (c.environment.lock ⟨c.attached, sizeMax⟩) := by
    simp [openName, haddress, hflags, hmode, hnames.flags, hnames.mode, hnames.lock, rootFile]
  have hhandled : handleFdMessage order c.environment s c.fuel (fun _ => none) received
      emptyMessage rootFile s.iterator.start =
    (handleOpen order c.environment s c.fuel (fun _ => none) received emptyMessage rootFile
      s.iterator.start).map fun opened => ⟨opened.1, opened.2, none⟩ := by
    rw [handleFdMessage, hcall]
    rfl
  rw [hhandled, handleOpen, hname]
  simp only [hfound, Option.map_some, Option.some.injEq, exists_eq_left']
  cases found with
  | none =>
      refine iff_of_false (fun hopened => ?_) (Option.some_ne_none fd).symm
      have hvalue := hopened.1
      simp only at hvalue
      rw [Call.fdReturnValue_setReturn] at hvalue
      split at hvalue
      · exact absurd hvalue (by decide)
      · exact absurd hvalue (by decide)
  | some address =>
      have hcopy : copyEndpoint c.environment (fun _ => none) address =
          (0, Function.update (fun _ => none) temporarySlot (some (.endpoint address))) := by
        rw [copyEndpoint, if_neg (not_not.mpr hnames.copy)]
        rfl
      have hslot : slotOf (slotAddress temporarySlot) = temporarySlot :=
        slotOf_slotAddress (by decide)
      simp only [hcopy, if_true, capabilityOf_setReplyFd, hslot, Function.update_self,
        Call.fdReturnValue_setReturn]
      simp

theorem handleFdMessage_stat {fuel : Nat} {slots : Slots} {received reply : IpcMessage}
    {file : JaxFile} {next : Nat} (hcall : fdCallNumber received = fdStat) :
    handleFdMessage order c.environment s fuel slots received reply file next =
      some ⟨setReturn order { reply with
        buffer := setStatStruct order reply.buffer fdStatStructOffset
          (statOfFile received.badge file) } 0, slots, none⟩ := by
  rw [handleFdMessage, hcall]
  rfl

/-- `FD_STAT` returns the badge as the inode. -/
theorem statInode {fd : Nat} (hfd : fd ≠ 0) (hbound : fd < 2 ^ ptrBits) :
    c.StatInode order s fd fd := by
  have hcall : fdCallNumber { fdStatMessage c.replyEndpoint with badge := fd } = fdStat :=
    (message_delivered order c.replyEndpoint .stat trivial).1
  have hbadge : { fdStatMessage c.replyEndpoint with badge := fd }.badge = fd := rfl
  rw [Call.StatInode, Call.handle, handleIpcMessage, target, if_neg hfd]
  generalize { fdStatMessage c.replyEndpoint with badge := fd } = received at hcall hbadge
  subst hbadge
  generalize emptyMessage = reply
  refine ⟨_, handleFdMessage_stat hcall, Call.fdReturnValue_setReturn _ 0, ?_⟩
  rw [setReturn, statOf_setReturnValue, statOf_setStatStruct]
  exact Nat.mod_eq_of_lt hbound

end

end Cenix.InitrdFs
