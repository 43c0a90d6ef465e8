import Cenix.FileProtocol.Stubs

namespace Cenix.FileProtocol

open Fields Vfs

/-! The two ends of the file protocol agree. -/

inductive FileCall where
  | read (readBuffer : Nat) (size position : Word)
  | readFast (size position : Word)
  | write (writeBuffer : Nat) (size position : Word)
  | writeFast (writeBuffer : List (BitVec 8)) (position : Word)
  | stat
  | openFile (nameAddress : Nat) (flags mode : BitVec 8)
  | link (fdToLink nameAddress : Nat)
  | unlink (nameAddress : Nat)
  | truncate (size : Word)
  | mount (directoryFd : Nat) (flags : BitVec 8)

variable (order : ByteOrder)

namespace FileCall

/-- The arguments for which the stub makes a call. -/
def Accepted : FileCall → Prop
  | .readFast size _ => size.toNat ≤ fdReadFastMaxSize
  | .writeFast writeBuffer _ => writeBuffer.length ≤ fdReadFastMaxSize
  | _ => True

def message (replyEndpoint : Nat) : FileCall → IpcMessage
  | .read readBuffer size position =>
      fdReadMessage order replyEndpoint readBuffer size position
  | .readFast size position => fdReadFastMessage order replyEndpoint size position
  | .write writeBuffer size position =>
      fdWriteMessage order replyEndpoint writeBuffer size position
  | .writeFast writeBuffer position =>
      fdWriteFastMessage order replyEndpoint writeBuffer position
  | .stat => fdStatMessage replyEndpoint
  | .openFile nameAddress flags mode => fdOpenMessage replyEndpoint nameAddress flags mode
  | .link fdToLink nameAddress => fdLinkMessage replyEndpoint fdToLink nameAddress
  | .unlink nameAddress => fdUnlinkMessage replyEndpoint nameAddress
  | .truncate size => fdTruncateMessage order replyEndpoint size
  | .mount directoryFd flags => fdMountMessage replyEndpoint directoryFd flags

def stub (exchange : Exchange) : FileCall → Outcome
  | .read .. => fdReadStub order exchange
  | .readFast size _ => fdReadFastStub order size exchange
  | .write .. => fdWriteStub order exchange
  | .writeFast writeBuffer _ => fdWriteFastStub order writeBuffer.length exchange
  | .stat => fdStatStub order exchange
  | _ => plainStub order exchange

end FileCall

/-- The server's accessors return the arguments of the call. -/
def Delivered (m : IpcMessage) : FileCall → Prop
  | .read readBuffer size position =>
      fdCallNumber m = fdRead ∧ fdReadBuffer m = ⟨readBuffer, sizeMax⟩ ∧
        fdReadSize order m = size ∧ fdReadPosition order m = position
  | .readFast size position =>
      fdCallNumber m = fdReadFast ∧ (fdReadFastSize m).toNat = size.toNat ∧
        fdReadFastPosition order m = position
  | .write writeBuffer size position =>
      fdCallNumber m = fdWrite ∧ fdReadBuffer m = ⟨writeBuffer, sizeMax⟩ ∧
        fdReadSize order m = size ∧ fdReadPosition order m = position
  | .writeFast writeBuffer position =>
      fdCallNumber m = fdWriteFast ∧ (fdReadFastSize m).toNat = writeBuffer.length ∧
        fdReadFastPosition order m = position ∧
        fdReadFastData m (fdReadFastSize m).toNat = writeBuffer
  | .stat => fdCallNumber m = fdStat
  | .openFile nameAddress flags mode =>
      fdCallNumber m = fdOpen ∧ fdOpenNameAddress m = ⟨nameAddress, sizeMax⟩ ∧
        fdOpenFlags m = flags ∧ fdOpenMode m = mode
  | .link fdToLink nameAddress =>
      fdCallNumber m = fdLink ∧ fdLinkFd m = ⟨fdToLink, sizeMax⟩ ∧
        fdLinkNameAddress m = ⟨nameAddress, sizeMax⟩
  | .unlink nameAddress =>
      fdCallNumber m = fdUnlink ∧ fdUnlinkNameAddress m = ⟨nameAddress, sizeMax⟩
  | .truncate size => fdCallNumber m = fdTruncate ∧ fdTruncateSize order m = size
  | .mount directoryFd flags =>
      fdCallNumber m = fdMount ∧ fdMountFileDescriptor m = ⟨directoryFd, sizeMax⟩ ∧
        fdMountFlags m = flags

/-- What a server puts into a reply whose bytes were `before`. -/
structure Answer where
  before : IpcMessage
  value : Word
  count : Word
  data : List (BitVec 8)
  stat : Stat
  dataLength : data.length = fdReadFastMaxSize

/-- The reply to a call. -/
def Answer.message (answer : Answer) : FileCall → IpcMessage
  | .read .. | .write .. | .writeFast .. =>
      setBytesRead order (setReturnValue order answer.before answer.value) answer.count
  | .readFast .. =>
      let reply := { answer.before with
        buffer := setBytes answer.before.buffer (wordBytes * 2) answer.data }
      setBytesRead order (setReturnValue order reply answer.value) answer.count
  | .stat =>
      let reply := { answer.before with
        buffer := setStatStruct order answer.before.buffer fdStatStructOffset answer.stat }
      setReturnValue order reply answer.value
  | _ => setReturnValue order answer.before answer.value

/-- The stub returns the server's return value and, on success, its outputs. -/
def Conveyed (answer : Answer) (outcome : Outcome) (call : FileCall) : Prop :=
  outcome.result = answer.value ∧
    (answer.value = 0 →
      match call with
      | .read .. | .write .. | .writeFast .. => outcome.count = some answer.count
      | .readFast size _ => outcome.count = some answer.count ∧
          outcome.data = some (answer.data.take (min size.toNat answer.count.toNat))
      | .stat => outcome.stat = some answer.stat
      | _ => True)

/-! Words of a buffer. -/

theorem wordAt_setWordAt (buffer : Buffer) {offset : Nat} (value : Word)
    (h : offset + wordBytes ≤ ipcBufferSize) :
    wordAt order (setWordAt order buffer offset value) offset = value := by
  rw [wordAt, setWordAt, numberAt_setNumber buffer order h value.isLt]
  simp

theorem wordAt_setBytes_of_apart (buffer : Buffer) {offset start : Nat}
    {bytes : List (BitVec 8)} (h : start + wordBytes ≤ ipcBufferSize)
    (hapart : start + wordBytes ≤ offset ∨ offset + bytes.length ≤ start) :
    wordAt order (setBytes buffer offset bytes) start = wordAt order buffer start := by
  rw [wordAt, numberAt_setBytes_of_apart buffer order h hapart]
  rfl

theorem wordAt_setWordAt_of_apart (buffer : Buffer) {offset start : Nat} (value : Word)
    (h : start + wordBytes ≤ ipcBufferSize)
    (hapart : start + wordBytes ≤ offset ∨ offset + wordBytes ≤ start) :
    wordAt order (setWordAt order buffer offset value) start = wordAt order buffer start :=
  wordAt_setBytes_of_apart order buffer h (by simpa using hapart)

theorem byteAt_setWordAt_of_apart (buffer : Buffer) {offset i : Nat} (value : Word)
    (h : i < ipcBufferSize) (hapart : i < offset ∨ offset + wordBytes ≤ i) :
    byteAt (setWordAt order buffer offset value) i = byteAt buffer i :=
  byteAt_setBytes_of_apart buffer h (by simpa using hapart)

theorem bytesAt_setWordAt_of_apart (buffer : Buffer) {offset start count : Nat}
    (value : Word) (h : start + count ≤ ipcBufferSize)
    (hapart : start + count ≤ offset ∨ offset + wordBytes ≤ start) :
    bytesAt (setWordAt order buffer offset value) start count =
      bytesAt buffer start count :=
  bytesAt_setBytes_of_apart buffer h (by simpa using hapart)

theorem byteAt_ipcMessage (bytes : List (BitVec 8)) (capabilities : List IpcCapability)
    (toCopy : BitVec 8) {i : Nat} (h : i < ipcBufferSize) :
    byteAt (ipcMessage bytes capabilities toCopy).buffer i = bytes.getD i 0 :=
  byteAt_ofFn h

theorem capabilityOf_ipcMessage (bytes : List (BitVec 8))
    (capabilities : List IpcCapability) (toCopy : BitVec 8) {i : Nat}
    (h : i < ipcCapabilitySlots) :
    capabilityOf (ipcMessage bytes capabilities toCopy) i =
      capabilities.getD i noCapability := by
  simp [capabilityOf, ipcMessage, h]

theorem byteOf_eq_byteAt (buffer : Buffer) (i : Nat) :
    byteOf buffer i = byteAt buffer i := by
  rw [byteOf, byteAt]

theorem capabilityOf_setBuffer (m : IpcMessage) (buffer : Buffer) (i : Nat) :
    capabilityOf { m with buffer := buffer } i = capabilityOf m i := by
  rw [capabilityOf, capabilityOf]

/-! Requests. -/

theorem message_delivered (replyEndpoint : Nat) (call : FileCall) (h : call.Accepted) :
    Delivered order (call.message order replyEndpoint) call ∧
      fdReplyEndpoint (call.message order replyEndpoint) = ⟨replyEndpoint, sizeMax⟩ := by
  cases call with
  | read readBuffer size position =>
      simp (disch := decide) only [Delivered, FileCall.message, fdReadMessage, fdCallNumber,
        fdReadBuffer, fdReadSize, fdReadPosition, fdReplyEndpoint, byteOf_eq_byteAt,
        capabilityOf_setBuffer, capabilityOf_ipcMessage, wordAt_setWordAt,
        wordAt_setWordAt_of_apart, byteAt_setWordAt_of_apart, byteAt_ipcMessage]
      simp
  | readFast size position =>
      have hsmall : size.toNat < 2 ^ 8 := Nat.lt_of_le_of_lt h (by decide)
      simp (disch := decide) only [Delivered, FileCall.message, fdReadFastMessage, fdCallNumber,
        fdReadFastSize, fdReadFastPosition, fdReplyEndpoint, byteOf_eq_byteAt,
        capabilityOf_setBuffer, capabilityOf_ipcMessage, wordAt_setWordAt,
        byteAt_setWordAt_of_apart, byteAt_ipcMessage]
      simpa using hsmall
  | write writeBuffer size position =>
      simp (disch := decide) only [Delivered, FileCall.message, fdWriteMessage, fdCallNumber,
        fdReadBuffer, fdReadSize, fdReadPosition, fdReplyEndpoint, byteOf_eq_byteAt,
        capabilityOf_setBuffer, capabilityOf_ipcMessage, wordAt_setWordAt,
        wordAt_setWordAt_of_apart, byteAt_setWordAt_of_apart, byteAt_ipcMessage]
      simp
  | writeFast writeBuffer position =>
      have hend : wordBytes * 2 + writeBuffer.length ≤ ipcBufferSize := by
        simp only [FileCall.Accepted, fdReadFastMaxSize, wordBytes, ipcBufferSize, ptrBits]
          at h ⊢
        omega
      have hsmall : writeBuffer.length < 2 ^ 8 := Nat.lt_of_le_of_lt h (by decide)
      have hbyte : ∀ buffer : Buffer, ∀ i, i < wordBytes * 2 →
          byteAt (setBytes buffer (wordBytes * 2) writeBuffer) i = byteAt buffer i :=
        fun buffer i hi =>
          byteAt_setBytes_of_apart buffer (Nat.lt_trans hi (by decide)) (.inl hi)
      have hword : ∀ buffer : Buffer,
          wordAt order (setBytes buffer (wordBytes * 2) writeBuffer) wordBytes =
            wordAt order buffer wordBytes :=
        fun buffer => wordAt_setBytes_of_apart order buffer (by decide) (.inl (by decide))
      simp (disch := decide) only [Delivered, FileCall.message, fdWriteFastMessage, fdCallNumber,
        fdReadFastSize, fdReadFastPosition, fdReadFastData, fdReplyEndpoint,
        byteOf_eq_byteAt, capabilityOf_setBuffer, capabilityOf_ipcMessage, hbyte, hword,
        wordAt_setWordAt, byteAt_setWordAt_of_apart, byteAt_ipcMessage]
      have hsize : (BitVec.ofNat 8 writeBuffer.length).toNat = writeBuffer.length :=
        Nat.mod_eq_of_lt hsmall
      simp only [List.getD_cons_zero, List.getD_cons_succ, hsize,
        bytesAt_setBytes _ _ hend, and_self]
  | stat =>
      simp (disch := decide) only [Delivered, FileCall.message, fdStatMessage, fdCallNumber,
        fdReplyEndpoint, byteOf_eq_byteAt, capabilityOf_ipcMessage, byteAt_ipcMessage]
      simp
  | openFile nameAddress flags mode =>
      simp (disch := decide) only [Delivered, FileCall.message, fdOpenMessage, fdCallNumber,
        fdOpenNameAddress, fdOpenFlags, fdOpenMode, fdReplyEndpoint, byteOf_eq_byteAt,
        capabilityOf_ipcMessage, byteAt_ipcMessage]
      simp
  | link fdToLink nameAddress =>
      simp (disch := decide) only [Delivered, FileCall.message, fdLinkMessage, fdCallNumber,
        fdLinkFd, fdLinkNameAddress, fdReplyEndpoint, byteOf_eq_byteAt,
        capabilityOf_ipcMessage, byteAt_ipcMessage]
      simp
  | unlink nameAddress =>
      simp (disch := decide) only [Delivered, FileCall.message, fdUnlinkMessage, fdCallNumber,
        fdUnlinkNameAddress, fdReplyEndpoint, byteOf_eq_byteAt, capabilityOf_ipcMessage,
        byteAt_ipcMessage]
      simp
  | truncate size =>
      simp (disch := decide) only [Delivered, FileCall.message, fdTruncateMessage, fdCallNumber,
        fdTruncateSize, fdReplyEndpoint, byteOf_eq_byteAt, capabilityOf_setBuffer,
        capabilityOf_ipcMessage, wordAt_setWordAt, byteAt_setWordAt_of_apart,
        byteAt_ipcMessage]
      simp
  | mount directoryFd flags =>
      simp (disch := decide) only [Delivered, FileCall.message, fdMountMessage, fdCallNumber,
        fdMountFileDescriptor, fdMountFlags, fdReplyEndpoint, byteOf_eq_byteAt,
        capabilityOf_ipcMessage, byteAt_ipcMessage]
      simp

/-! Replies. -/

theorem numberAt_fdStatStruct (m : IpcMessage) {offset count : Nat}
    (h : offset + count ≤ statSize) :
    numberAt (fdStatStruct m) order offset count =
      numberAt m.buffer order (fdStatStructOffset + offset) count := by
  have hbytes : bytesAt (fdStatStruct m) offset count =
      bytesAt m.buffer (fdStatStructOffset + offset) count := by
    apply List.map_congr_left
    intro i hi
    have hlt := List.mem_range.mp hi
    rw [fdStatStruct, byteAt_ofFn (show offset + i < statSize by omega), Nat.add_assoc]
  rw [numberAt, numberAt, hbytes]

/-- Any two of the fields lie apart. -/
theorem statOf_setStatStruct (m : IpcMessage) (s : Stat) :
    statOf order (fdStatStruct { m with
      buffer := setStatStruct order m.buffer fdStatStructOffset s }) = s := by
  simp (disch := decide) only [statOf, numberAt_fdStatStruct, setStatStruct, List.foldl_cons,
    List.foldl_nil, numberAt_setNumber_of_apart, ofNat_numberAt_setNumber]

theorem numberAt_fdStatStruct_setReturnValue (m : IpcMessage) (value : Word)
    {offset count : Nat} (h : offset + count ≤ statSize) :
    numberAt (fdStatStruct (setReturnValue order m value)) order offset count =
      numberAt (fdStatStruct m) order offset count := by
  rw [numberAt_fdStatStruct order _ h, numberAt_fdStatStruct order _ h]
  apply numberAt_setNumber_of_apart
  · simp only [fdStatStructOffset, statSize, wordBytes, ptrBits, ipcBufferSize] at h ⊢
    omega
  · simp only [fdStatStructOffset]
    omega

theorem statOf_setReturnValue (m : IpcMessage) (value : Word) :
    statOf order (fdStatStruct (setReturnValue order m value)) =
      statOf order (fdStatStruct m) := by
  simp (disch := decide) only [statOf, numberAt_fdStatStruct_setReturnValue]

/-- An exchange whose system calls succeed. -/
def Exchange.of (reply : IpcMessage) : Exchange := ⟨0, 0, reply⟩

theorem vfsCall_of (toReceive reply : IpcMessage) :
    vfsCall order toReceive (.of reply) = (fdReturnValue order reply, reply) := by
  simp [vfsCall, Exchange.of]

theorem fdReturnValue_message (answer : Answer) (call : FileCall) :
    fdReturnValue order (answer.message order call) = answer.value := by
  cases call with
  | read | write | writeFast | readFast =>
      exact (wordAt_setWordAt_of_apart order _ _ (by decide) (by decide)).trans
        (wordAt_setWordAt order _ _ (by decide))
  | stat | openFile | link | unlink | truncate | mount =>
      exact wordAt_setWordAt order _ _ (by decide)

theorem fdReadBytesRead_message (answer : Answer) (m : IpcMessage) :
    fdReadBytesRead order (setBytesRead order m answer.count) = answer.count :=
  wordAt_setWordAt order _ _ (by decide)

theorem fdReadBytesRead_emptyMessage : fdReadBytesRead order emptyMessage = 0 := by
  cases order with
  | little => decide +kernel
  | big => decide +kernel

theorem fdReadFastData_message (answer : Answer) (size position : Word) {count : Nat}
    (hcount : count ≤ fdReadFastMaxSize) :
    fdReadFastData (answer.message order (.readFast size position)) count =
      answer.data.take count := by
  have hend : wordBytes * 2 + count ≤ ipcBufferSize := by
    simp only [fdReadFastMaxSize, wordBytes, ptrBits, ipcBufferSize] at hcount ⊢
    omega
  have hdata : wordBytes * 2 + answer.data.length ≤ ipcBufferSize := by
    rw [answer.dataLength]
    decide
  have hbytes : fdReadFastData (answer.message order (.readFast size position)) count =
      bytesAt (setBytes answer.before.buffer (wordBytes * 2) answer.data)
        (wordBytes * 2) count :=
    (bytesAt_setWordAt_of_apart order _ _ hend (.inr (by decide))).trans
      (bytesAt_setWordAt_of_apart order _ _ hend (.inr (by decide)))
  rw [hbytes, ← bytesAt_take _ (hcount.trans answer.dataLength.ge),
    bytesAt_setBytes _ _ hdata]

/-- Every stub but `fd_write_fast` gets the whole reply, and that one when no bytes have
been written. -/
theorem conveyed_iff (answer : Answer) (call : FileCall) (h : call.Accepted) :
    Conveyed answer (call.stub order (.of (answer.message order call))) call ↔
      ∀ writeBuffer position, call = .writeFast writeBuffer position →
        answer.value = 0 → answer.count = 0 := by
  have hvalue := fdReturnValue_message order answer call
  have hcount := fdReadBytesRead_message order answer
  cases call with
  | read | write =>
      simp only [Conveyed, FileCall.stub, fdReadStub, fdWriteStub, vfsCall_of, hvalue]
      simp [Answer.message, hcount]
  | readFast size position =>
      have hsize : ¬ size.toNat > fdReadFastMaxSize := Nat.not_lt.mpr h
      have hmin : (if size.toNat > answer.count.toNat then answer.count.toNat
          else size.toNat) = min size.toNat answer.count.toNat := by
        split <;> omega
      have hdata := fdReadFastData_message order answer size position
        ((Nat.min_le_left size.toNat answer.count.toNat).trans h)
      have hbytesRead : fdReadBytesRead order
          (answer.message order (.readFast size position)) = answer.count :=
        hcount _
      simp only [Conveyed, FileCall.stub, fdReadFastStub, vfsCall_of, hvalue, if_neg hsize,
        hbytesRead, hmin, hdata]
      constructor
      · intro _ _ _ heq
        cases heq
      · intro _
        cases eq_or_ne answer.value 0 with
        | inl hzero =>
            rw [if_neg (not_not.mpr hzero)]
            exact ⟨hzero.symm, fun _ => ⟨rfl, rfl⟩⟩
        | inr hfailed =>
            rw [if_pos hfailed]
            exact ⟨rfl, fun hzero => absurd hzero hfailed⟩
  | writeFast writeBuffer position =>
      have hsize : ¬ writeBuffer.length > fdReadFastMaxSize := Nat.not_lt.mpr h
      simp only [Conveyed, FileCall.stub, fdWriteFastStub, vfsCall_of, hvalue, if_neg hsize,
        fdReadBytesRead_emptyMessage]
      constructor
      · intro hconveyed _ _ _ hzero
        exact (Option.some.inj (hconveyed.2 hzero)).symm
      · intro hcondition
        refine ⟨trivial, fun hzero => ?_⟩
        rw [hcondition writeBuffer position rfl hzero]
  | stat =>
      simp only [Conveyed, FileCall.stub, fdStatStub, vfsCall_of, hvalue]
      simp [Answer.message, statOf_setReturnValue, statOf_setStatStruct]
  | openFile | link | unlink | truncate | mount =>
      simp [Conveyed, FileCall.stub, plainStub, vfsCall_of, hvalue]

/-- The server reads the arguments of the call, and the stub gets the server's reply. -/
def EndsAgree (replyEndpoint : Nat) (call : FileCall) (answer : Answer) : Prop :=
  Delivered order (call.message order replyEndpoint) call ∧
    fdReplyEndpoint (call.message order replyEndpoint) = ⟨replyEndpoint, sizeMax⟩ ∧
    Conveyed answer (call.stub order (.of (answer.message order call))) call

theorem endsAgree_iff (replyEndpoint : Nat) (call : FileCall) (answer : Answer)
    (h : call.Accepted) :
    EndsAgree order replyEndpoint call answer ↔
      ∀ writeBuffer position, call = .writeFast writeBuffer position →
        answer.value = 0 → answer.count = 0 := by
  obtain ⟨hdelivered, hreply⟩ := message_delivered order replyEndpoint call h
  rw [← conveyed_iff order answer call h, EndsAgree]
  exact ⟨fun hagree => hagree.2.2, fun hconveyed => ⟨hdelivered, hreply, hconveyed⟩⟩

/-- A reply that reports one byte. -/
def oneByte : Answer where
  before := emptyMessage
  value := 0
  count := 1
  data := List.replicate fdReadFastMaxSize 0
  stat := statOf .big (Vector.replicate statSize 0)
  dataLength := by simp

theorem endsAgree_iff_stat :
    EndsAgree .big 5 .stat oneByte ↔
      ∀ writeBuffer position, FileCall.stat = .writeFast writeBuffer position →
        oneByte.value = 0 → oneByte.count = 0 :=
  endsAgree_iff .big 5 .stat oneByte trivial

theorem writeFast_disagrees : ¬ EndsAgree .big 5 (.writeFast [0x2a] 0) oneByte := by
  intro hagree
  have hcount := hagree.2.2.2 rfl
  have hstored : ((FileCall.writeFast [0x2a] 0).stub .big
      (.of (oneByte.message .big (.writeFast [0x2a] 0)))).count = some 0 := by
    decide +kernel
  simp only at hcount
  rw [hstored] at hcount
  cases hcount

end Cenix.FileProtocol
