import Cenix.InitrdFs.ExactListing

namespace Cenix.InitrdFs

open Fields FileProtocol Jax Vfs

/-! How much a read writes and what it reads. -/

/-! The bytes that are written. -/

section

variable (order : ByteOrder) (e : Environment) (s : State) (received : IpcMessage)
  (file : JaxFile)

/-- The size for a `FD_READ`, which is what has been asked for or the size of the buffer. -/
def readSize : Nat :=
  let size := e.untypedSizeof (fdReadBuffer received)
  let requested := (fdReadSize order received).toNat
  if requested > size then size else requested

/-- The size for a `FD_READ_FAST`. -/
def readFastSize : Nat :=
  let requested := (fdReadFastSize received).toNat
  if requested > fdReadFastMaxSize then fdReadFastMaxSize else requested

/-- The result stays inside a buffer with that much room. -/
structure FitsInto (room : Nat) (result : ReadResult) : Prop where
  written : result.data.length ≤ room
  reported : result.count ≤ room

/-- The two calls stay inside what their data is written to. -/
structure StaysInside : Prop where
  read : fdCallNumber received = fdRead → ∀ fuel result,
    handleRead order e s fuel received.badge file (fdReadPosition order received).toNat
      (readSize order e received) = some result → FitsInto (readSize order e received) result
  fast : fdCallNumber received = fdReadFast → ∀ fuel result,
    handleRead order e s fuel received.badge file (fdReadFastPosition order received).toNat
      (readFastSize received) = some result → FitsInto fdReadFastMaxSize result

/-- There is an entry of the directory to be read at the position. -/
def FindsEntry (badge : Nat) (position : Nat) : Prop :=
  let address := if position = 0 then badge else position
  ¬ (address < s.iterator.start ∧ address ≠ 0) ∧
    ∃ fuel found following, nextFileInDir e.memory s fuel file address = some (some found) ∧
      nextFileInDir e.memory s fuel file found.next = some following

end

section

variable {order : ByteOrder} {e : Environment} {s : State} {received : IpcMessage}
  {file : JaxFile}

theorem handleReadCall_of_lock {fuel : Nat} {slots : Slots} {reply : IpcMessage}
    (hlock : e.lock (fdReadBuffer received) ≠ 0) :
    handleReadCall order e s fuel slots received reply file =
      (handleRead order e s fuel received.badge file (fdReadPosition order received).toNat
        (readSize order e received)).map fun result =>
          ⟨setBytesRead order (setReturn order reply result.returnValue)
            (BitVec.ofNat _ result.count), slots,
            some (e.lock (fdReadBuffer received), result.data)⟩ := by
  rw [handleReadCall, if_neg hlock]
  rfl

theorem handleReadFastCall_eq_map {fuel : Nat} {slots : Slots} {reply : IpcMessage} :
    handleReadFastCall order e s fuel slots received reply file =
      (handleRead order e s fuel received.badge file (fdReadFastPosition order received).toNat
        (readFastSize received)).map fun result =>
          ⟨setBytesRead order (setReturn order
            { reply with buffer := setBytes reply.buffer (wordBytes * 2) result.data }
            result.returnValue) (BitVec.ofNat _ result.count), slots, none⟩ :=
  rfl

theorem FitsInto.mono {room room' : Nat} {result : ReadResult} (h : FitsInto room result)
    (hle : room ≤ room') : FitsInto room' result :=
  ⟨Nat.le_trans h.written hle, Nat.le_trans h.reported hle⟩

theorem readFile_fits (position size : Nat) : FitsInto size (readFile e file position size) := by
  simp only [readFile]
  generalize file.size.toNat % 2 ^ ptrBits = length
  have hle := Nat.mod_le (position + size) (2 ^ ptrBits)
  have hcount : (if position ≥ length then 0
      else if (position + size) % 2 ^ ptrBits ≥ length then length - position
      else size) ≤ size := by
    split
    · exact Nat.zero_le size
    · split
      · omega
      · exact Nat.le_refl size
  exact ⟨by rwa [Memory.length_bytesAt], hcount⟩

theorem readFastSize_le (received : IpcMessage) : readFastSize received ≤ fdReadFastMaxSize := by
  rw [readFastSize]
  split
  · exact Nat.le_refl _
  · omega

/-- An entry is written with at least its fields, an error without anything. -/
theorem readDirectory_cases {fuel badge position size : Nat} {result : ReadResult}
    (h : readDirectory order e s fuel badge file position size = some result) :
    FitsInto 0 result ∨
      FindsEntry e s file badge position ∧ vfsDirectoryEntrySize ≤ result.count ∧
        FitsInto (if size < vfsDirectoryEntrySize then vfsDirectoryEntrySize else size)
          result := by
  simp only [readDirectory] at h
  rw [FindsEntry]
  generalize (if position = 0 then badge else position) = address at h ⊢
  generalize hsize : (if size < vfsDirectoryEntrySize then vfsDirectoryEntrySize else size) =
    size' at h ⊢
  have hroom : vfsDirectoryEntrySize ≤ size' := by
    split at hsize
    · omega
    · omega
  split at h
  · cases h
    exact .inl ⟨Nat.le_refl 0, Nat.le_refl 0⟩
  · rename_i hvalid
    obtain ⟨found, hfound, h⟩ := Option.bind_eq_some_iff.mp h
    cases found with
    | none =>
        cases h
        exact .inl ⟨Nat.le_refl 0, Nat.le_refl 0⟩
    | some found =>
        obtain ⟨following, hfollowing, rfl⟩ := Option.map_eq_some_iff.mp h
        refine .inr ⟨⟨hvalid, fuel, found, following, hfound, hfollowing⟩,
          Nat.le_add_left _ _, ?_⟩
        generalize (if following.isNone then 0 else found.next) = next
        have hlength := length_name_directoryEntry e file found next size'
        have hname : (directoryEntry e file found next size').nameLength ≤
            size' - vfsDirectoryEntrySize := by
          simp only [directoryEntry]
          generalize (found.file.nameLength -
            if file.nameLength.toNat = 0 then 0 else file.nameLength - 1).toNat = length
          split
          · exact Nat.le_refl _
          · omega
        constructor
        · rw [VfsDirectoryEntry.length_bytes, hlength]
          omega
        · dsimp only
          omega

/-- An entry that is there is written. -/
theorem FindsEntry.written {badge position : Nat} (hfinds : FindsEntry e s file badge position)
    (order : ByteOrder) (size : Nat) :
    ∃ fuel result, readDirectory order e s fuel badge file position size = some result ∧
      vfsDirectoryEntrySize ≤ result.count := by
  obtain ⟨hvalid, fuel, found, following, hfound, hfollowing⟩ := hfinds
  let entry := directoryEntry e file found (if following.isNone then 0 else found.next)
    (if size < vfsDirectoryEntrySize then vfsDirectoryEntrySize else size)
  refine ⟨fuel, ⟨0, entry.nameLength + vfsDirectoryEntrySize, entry.bytes order⟩, ?_,
    Nat.le_add_left _ _⟩
  simp only [readDirectory, hvalid, if_false, hfound, Option.bind_some, hfollowing,
    Option.map_some, entry]

/-- Both calls stay inside their buffers exactly if there is room for the fields of an entry
wherever one is read into a buffer of the caller. -/
theorem staysInside_iff :
    StaysInside order e s received file ↔
      (fdCallNumber received = fdRead → file.type = typeDirectory →
        FindsEntry e s file received.badge (fdReadPosition order received).toNat →
          vfsDirectoryEntrySize ≤ readSize order e received) := by
  constructor
  · intro hinside hcall htype hfinds
    obtain ⟨fuel, result, hresult, hcount⟩ := hfinds.written order (readSize order e received)
    have hfits := hinside.read hcall fuel result (by rw [handleRead, if_pos htype, hresult])
    exact Nat.le_trans hcount hfits.reported
  · intro hroom
    constructor
    · intro hcall fuel result hresult
      rw [handleRead] at hresult
      split at hresult
      · rename_i htype
        rcases readDirectory_cases hresult with hnothing | ⟨hfinds, _, hfits⟩
        · exact hnothing.mono (Nat.zero_le _)
        · rwa [if_neg (Nat.not_lt.mpr (hroom hcall htype hfinds))] at hfits
      · cases hresult
        exact readFile_fits _ _
    · intro hcall fuel result hresult
      have hsize := readFastSize_le received
      have hentry : vfsDirectoryEntrySize ≤ fdReadFastMaxSize := by decide
      rw [handleRead] at hresult
      split at hresult
      · rcases readDirectory_cases hresult with hnothing | ⟨_, _, hfits⟩
        · exact hnothing.mono (Nat.zero_le _)
        · apply hfits.mono
          split
          · exact hentry
          · exact hsize
      · cases hresult
        exact (readFile_fits _ _).mono hsize

/-- A client that asks for one byte of the root. -/
def readingOneByte : IpcMessage :=
  { fdReadMessage .big 0 0 1 0 with badge := 4 }

/-- The fields of the first entry are written behind the one byte. -/
theorem not_staysInside_readingOneByte :
    ¬ StaysInside .big (callAt (memoryWith 0 archiveOfA) 1 3).environment stateOfA
      readingOneByte rootFile := by
  intro hinside
  have hcount : (handleRead .big (callAt (memoryWith 0 archiveOfA) 1 3).environment stateOfA 3
      readingOneByte.badge rootFile (fdReadPosition .big readingOneByte).toNat
      (readSize .big (callAt (memoryWith 0 archiveOfA) 1 3).environment readingOneByte)).map
        ReadResult.count = some 10 := by
    decide +kernel
  obtain ⟨result, hresult, hten⟩ := Option.map_eq_some_iff.mp hcount
  have hreported := (hinside.read (by decide) 3 result hresult).reported
  rw [hten] at hreported
  exact absurd hreported (by decide +kernel)

end

/-! What is read of a file. -/

/-- The file is not a directory and its contents are in the archive. -/
structure Contains (m : Memory) (s : State) (file : JaxFile) (contents : List Byte) : Prop where
  type : file.type ≠ typeDirectory
  size : file.size.toNat = contents.length
  stored : m.Stored file.data contents
  start : s.initrdStart < file.data
  stop : file.data + contents.length ≤ s.initrdEnd

/-- Two regions of the address space without a byte in common. -/
structure Apart (start length start' length' : Nat) : Prop where
  bound : start + length ≤ 2 ^ ptrBits
  bound' : start' + length' ≤ 2 ^ ptrBits
  apart : start + length ≤ start' ∨ start' + length' ≤ start

/-- A message that reads from a file; `replyData` is where the data of a fast reply are. -/
structure Reading where
  environment : Environment
  fuel : Nat
  slots : Slots
  received : IpcMessage
  reply : IpcMessage
  next : Nat
  replyData : Nat

namespace Reading

variable (order : ByteOrder) (s : State) (file : JaxFile) (contents : List Byte) (r : Reading)

def handled : Option Handled :=
  handleFdMessage order r.environment s r.fuel r.slots r.received r.reply file r.next

def position : Nat :=
  if fdCallNumber r.received = fdRead then (fdReadPosition order r.received).toNat
  else (fdReadFastPosition order r.received).toNat

/-- The size that is left of what has been asked for. -/
def size : Nat :=
  if fdCallNumber r.received = fdRead then readSize order r.environment r.received
  else readFastSize r.received

/-- The region that the data are written to. -/
def buffer : Nat × Nat :=
  if fdCallNumber r.received = fdRead then
    (r.environment.lock (fdReadBuffer r.received),
      r.environment.untypedSizeof (fdReadBuffer r.received))
  else
    (r.replyData, fdReadFastMaxSize)

/-- The number of bytes that is returned. -/
def count (handled : Handled) : Nat :=
  (fdReadBytesRead order handled.reply).toNat

/-- What the client finds in its buffer or in the reply. -/
def data (handled : Handled) : List Byte :=
  if fdCallNumber r.received = fdRead then (handled.written.map Prod.snd).getD []
  else fdReadFastData handled.reply (count order handled)

/-- The message reads from the file into a region apart from it. -/
structure Valid : Prop where
  call : fdCallNumber r.received = fdRead ∨ fdCallNumber r.received = fdReadFast
  contains : Contains r.environment.memory s file contents
  locked : fdCallNumber r.received = fdRead →
    r.environment.lock (fdReadBuffer r.received) ≠ 0
  apart : Apart file.data contents.length r.buffer.1 r.buffer.2

/-- The bytes that the position and the size stand for are read and counted. -/
def ReadsSlice : Prop :=
  ∃ handled, r.handled order s file = some handled ∧ fdReturnValue order handled.reply = 0 ∧
    r.data order handled = (contents.drop (r.position order)).take (r.size order) ∧
    count order handled = (r.data order handled).length

end Reading

theorem bytesAt_of_stored {m : Memory} {start position count : Nat} {contents : List Byte}
    (h : m.Stored start contents) (hle : position + count ≤ contents.length) :
    m.bytesAt (start + position) count = (contents.drop position).take count := by
  apply List.ext_getElem
  · simp
    omega
  · intro i hi hi'
    rw [Memory.length_bytesAt] at hi
    have hbyte := Memory.getElem_of_stored h (show position + i < contents.length by omega)
    simpa [Memory.bytesAt, Nat.add_assoc] using hbyte

/-- No sum is too large if the regions are apart. -/
theorem readFile_eq {e : Environment} {s : State} {file : JaxFile} {contents : List Byte}
    (h : Contains e.memory s file contents) (position : Nat) {size start room : Nat}
    (hsize : size ≤ room) (happart : Apart file.data contents.length start room) :
    (readFile e file position size).returnValue = 0 ∧
      (readFile e file position size).data = (contents.drop position).take size ∧
      (readFile e file position size).count =
        (readFile e file position size).data.length := by
  have hstart := h.start
  have hbound := happart.bound
  have hroom : contents.length + room ≤ 2 ^ ptrBits := by
    have hbound' := happart.bound'
    rcases happart.apart with hbefore | hbehind
    · omega
    · omega
  have hlength : file.size.toNat % 2 ^ ptrBits = contents.length := by
    rw [h.size]
    exact Nat.mod_eq_of_lt (by omega)
  simp only [readFile, hlength, true_and, Memory.length_bytesAt, and_true]
  rcases Nat.lt_or_ge position contents.length with hinside | hpast
  · have hsum : (position + size) % 2 ^ ptrBits = position + size :=
      Nat.mod_eq_of_lt (by omega)
    rw [if_neg (Nat.not_le.mpr hinside), hsum]
    split
    · rename_i hmore
      rw [bytesAt_of_stored h.stored (by omega), List.take_of_length_le,
        List.take_of_length_le]
      · rw [List.length_drop]
        omega
      · rw [List.length_drop]
    · rw [bytesAt_of_stored h.stored (by omega)]
  · rw [if_pos hpast, List.drop_of_length_le hpast, Memory.bytesAt_zero, List.take_nil]

namespace Reading

variable {order : ByteOrder} {s : State} {file : JaxFile} {contents : List Byte} {r : Reading}

theorem size_le (order : ByteOrder) (r : Reading) : r.size order ≤ r.buffer.2 := by
  rw [size, buffer]
  split
  · rw [readSize]
    split
    · exact Nat.le_refl _
    · omega
  · exact readFastSize_le r.received

theorem Valid.readsSlice (h : r.Valid s file contents) (order : ByteOrder) :
    r.ReadsSlice order s file contents := by
  have happart := h.apart
  have hsize := r.size_le order
  have htype := h.contains.type
  obtain ⟨hvalue, hdata, hcount⟩ :=
    readFile_eq h.contains (r.position order) hsize happart
  generalize hresult : readFile r.environment file (r.position order) (r.size order) = result
    at hvalue hdata hcount
  have hword : (BitVec.ofNat ptrBits result.data.length).toNat = result.data.length := by
    have hstart := h.contains.start
    have hbound := happart.bound
    have hshorter : result.data.length ≤ contents.length := by
      rw [hdata, List.length_take, List.length_drop]
      omega
    rw [BitVec.toNat_ofNat]
    exact Nat.mod_eq_of_lt (by omega)
  rcases h.call with hcall | hcall
  · have hhandled : r.handled order s file = some
        ⟨setBytesRead order (setReturn order r.reply 0) (BitVec.ofNat _ result.data.length),
          r.slots, some (r.environment.lock (fdReadBuffer r.received), result.data)⟩ := by
      simp only [position, size, hcall, if_true] at hresult
      have hread : handleRead order r.environment s r.fuel r.received.badge file
          (fdReadPosition order r.received).toNat (readSize order r.environment r.received) =
            some result := by
        rw [handleRead, if_neg htype, hresult]
      rw [handled, handleFdMessage, if_pos hcall, handleReadCall_of_lock (h.locked hcall), hread,
        Option.map_some, hvalue, hcount]
    refine ⟨_, hhandled, Call.fdReturnValue_setBytesRead _ 0 _, ?_, ?_⟩
    · rw [data, if_pos hcall]
      exact hdata
    · rw [count, Call.fdReadBytesRead_setBytesRead, hword, data, if_pos hcall]
      rfl
  · have hother : fdCallNumber r.received ≠ fdRead :=
      fun heq => absurd (hcall.symm.trans heq) (by decide)
    have hshort : result.data.length ≤ fdReadFastMaxSize := by
      have hle := readFastSize_le r.received
      rw [hdata, List.length_take, size, if_neg hother]
      omega
    have hhandled : r.handled order s file = some
        ⟨setBytesRead order (setReturn order
          { r.reply with buffer := setBytes r.reply.buffer (wordBytes * 2) result.data } 0)
          (BitVec.ofNat _ result.data.length), r.slots, none⟩ := by
      simp only [position, size, hother, if_false] at hresult
      have hread : handleRead order r.environment s r.fuel r.received.badge file
          (fdReadFastPosition order r.received).toNat (readFastSize r.received) =
            some result := by
        rw [handleRead, if_neg htype, hresult]
      rw [handled, handleFdMessage, if_neg hother, if_pos hcall, handleReadFastCall_eq_map,
        hread, Option.map_some, hvalue, hcount]
    have hreply : fdReadFastData (setBytesRead order (setReturn order
        { r.reply with buffer := setBytes r.reply.buffer (wordBytes * 2) result.data } 0)
          (BitVec.ofNat _ result.data.length)) result.data.length = result.data :=
      Call.fdReadFastData_reply r.reply 0 _ hshort
    refine ⟨_, hhandled, Call.fdReturnValue_setBytesRead _ 0 _, ?_, ?_⟩
    · rw [data, if_neg hother, count, Call.fdReadBytesRead_setBytesRead, hword, hreply, hdata]
    · rw [data, if_neg hother, count, Call.fdReadBytesRead_setBytesRead, hword, hreply]

/-- Messages that are handled one after the other, each at the position that the counts of
the ones before add up to, and what each of them reads. -/
inductive Run (order : ByteOrder) (s : State) (file : JaxFile) :
    Nat → List Reading → List (List Byte) → Prop where
  | nil {position : Nat} : Run order s file position [] []
  | cons {r : Reading} {rs : List Reading} {handled : Handled} {chunks : List (List Byte)}
      (hhandled : r.handled order s file = some handled)
      (h : Run order s file (r.position order + count order handled) rs chunks) :
      Run order s file (r.position order) (r :: rs) (r.data order handled :: chunks)

/-- The chunks are the contents from the position on, as far as the sizes go. -/
theorem Run.flatten_eq {position : Nat} {rs : List Reading} {chunks : List (List Byte)}
    (hrun : Run order s file position rs chunks)
    (hvalid : ∀ r ∈ rs, r.Valid s file contents) :
    chunks.flatten = (contents.drop position).take (rs.map (size order)).sum := by
  induction hrun with
  | nil => rw [List.map_nil, List.sum_nil, List.take_zero, List.flatten_nil]
  | cons hhandled hrest ih =>
      rename_i r rs handled chunks
      obtain ⟨handled', hhandled', _, hdata, hcount⟩ :=
        (hvalid r List.mem_cons_self).readsSlice order
      rw [hhandled, Option.some.injEq] at hhandled'
      subst hhandled'
      rw [List.flatten_cons, ih fun r hmem => hvalid r (List.mem_cons_of_mem _ hmem), hcount,
        hdata, List.map_cons, List.sum_cons, List.take_add, ← List.drop_drop]
      congr 1
      rw [List.length_take, List.length_drop]
      rcases Nat.le_total (r.size order) (contents.length - r.position order) with hle | hle
      · rw [Nat.min_eq_left hle]
      · rw [Nat.min_eq_right hle, ← List.length_drop, List.drop_length,
          List.drop_of_length_le (by rwa [List.length_drop])]

theorem Run.split {position : Nat} {front back : List Reading} {chunks : List (List Byte)}
    (hrun : Run order s file position (front ++ back) chunks) :
    ∃ first rest, chunks = first ++ rest ∧ Run order s file position front first := by
  induction front generalizing position chunks with
  | nil => exact ⟨[], chunks, rfl, .nil⟩
  | cons r front ih =>
      cases hrun with
      | cons hhandled hrest =>
          obtain ⟨first, rest, rfl, hfront⟩ := ih hrest
          exact ⟨_ :: first, rest, rfl, .cons hhandled hfront⟩

theorem length_le_sum {sizes : List Nat} (h : ∀ n ∈ sizes, 0 < n) : sizes.length ≤ sizes.sum := by
  induction sizes with
  | nil => exact Nat.le_refl 0
  | cons n sizes ih =>
      have hpos := h n List.mem_cons_self
      have hrest := ih fun n hmem => h n (List.mem_cons_of_mem _ hmem)
      rw [List.length_cons, List.sum_cons]
      omega

end Reading

/-- Every read gives the bytes that it asks for, and reads of positive sizes that follow each
other give the contents and then nothing. -/
structure ReadsExactly (order : ByteOrder) (s : State) (file : JaxFile) (contents : List Byte) :
    Prop where
  slice : ∀ r : Reading, r.Valid s file contents → r.ReadsSlice order s file contents
  pieces : ∀ rs chunks, (∀ r ∈ rs, r.Valid s file contents) →
    Reading.Run order s file 0 rs chunks →
      chunks.flatten = contents.take (rs.map (Reading.size order)).sum
  whole : ∀ front back chunks,
    (∀ r ∈ front ++ back, r.Valid s file contents ∧ 0 < r.size order) →
    contents.length ≤ front.length → Reading.Run order s file 0 (front ++ back) chunks →
      ∃ first rest, chunks = first ++ rest ∧ first.flatten = contents ∧ ∀ chunk ∈ rest, chunk = []

theorem fileReads_exact (order : ByteOrder) (s : State) (file : JaxFile)
    (contents : List Byte) : ReadsExactly order s file contents := by
  have hpieces : ∀ rs chunks, (∀ r ∈ rs, r.Valid s file contents) →
      Reading.Run order s file 0 rs chunks →
        chunks.flatten = contents.take (rs.map (Reading.size order)).sum :=
    fun rs chunks hvalid hrun => hrun.flatten_eq hvalid
  refine ⟨fun r hvalid => hvalid.readsSlice order, hpieces, ?_⟩
  intro front back chunks hvalid henough hrun
  obtain ⟨first, rest, rfl, hfront⟩ := hrun.split
  have hfirst := hpieces front first
    (fun r hmem => (hvalid r (List.mem_append_left _ hmem)).1) hfront
  have hall := hpieces (front ++ back) (first ++ rest) (fun r hmem => (hvalid r hmem).1) hrun
  have hsizes : contents.length ≤ (front.map (Reading.size order)).sum := by
    have hpositive : ∀ n ∈ front.map (Reading.size order), 0 < n := by
      intro n hmem
      obtain ⟨r, hr, rfl⟩ := List.mem_map.mp hmem
      exact (hvalid r (List.mem_append_left _ hr)).2
    have hcount := Reading.length_le_sum hpositive
    rw [List.length_map] at hcount
    exact Nat.le_trans henough hcount
  rw [List.take_of_length_le hsizes] at hfirst
  rw [List.map_append, List.sum_append, List.flatten_append,
    List.take_of_length_le (Nat.le_trans hsizes (Nat.le_add_right _ _)), hfirst] at hall
  exact ⟨first, rest, rfl, hfirst, List.flatten_eq_nil_iff.mp (List.append_right_eq_self.mp hall)⟩

/-- Five bytes are asked for from the only one of the file. -/
def readingA : Reading where
  environment :=
    { (callAt (memoryWith 0 archiveOfA) 64 0).environment with untypedSizeof := fun _ => 8 }
  fuel := 0
  slots := fun _ => none
  received := fdReadMessage .big 0 0 5 0
  reply := emptyMessage
  next := 0
  replyData := 128

theorem fileReads_exact_fileA : readingA.ReadsSlice .big stateOfA (fileA.file 4) [0x62] := by
  refine (fileReads_exact .big stateOfA (fileA.file 4) [0x62]).slice readingA ?_
  refine ⟨.inl (by decide), ⟨by decide, by decide, ?_, by decide, by decide⟩, ?_, ?_⟩
  · decide +kernel
  · decide
  · exact ⟨by decide, by decide, .inl (by decide)⟩

end Cenix.InitrdFs
