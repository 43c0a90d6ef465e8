import Cenix.InitrdFs.Messages

namespace Cenix.Jax

open InitrdFs

/-! Archives that nobody has checked. -/

/-- The comparison loop of `jax_find`: the index at which it ends. -/
def matched (m : Memory) (file : JaxFile) (toFind : Nat) : Nat :=
  scan (fun i => m (file.name + i) == m (toFind + i) && m (toFind + i) != 0)
    file.nameLength.toNat 0

def jaxFindLoop (m : Memory) (toFind : Nat) (type : Byte) :
    (fuel : Nat) → JaxIterator → JaxFile → Option (Option (Nat × Nat))
  | 0, _, _ => none
  | fuel + 1, iter, file =>
      let (found, iter, file) := jaxNextFile m iter file
      if found = false then
        some none
      else if type ≠ 0 ∧ file.type ≠ type then
        jaxFindLoop m toFind type fuel iter file
      else if m (toFind + matched m file toFind) ≠ 0 then
        jaxFindLoop m toFind type fuel iter file
      else
        some (some (file.data, file.size.toNat % 2 ^ ptrBits))

/-- The data and the size of the file, `none` if the loop takes more than `fuel` rounds. -/
def jaxFind (m : Memory) (fuel : Nat) (iter : JaxIterator) (toFind : Nat) (type : Byte) :
    Option (Option (Nat × Nat)) :=
  let toFind := if m toFind = separator then toFind + 1 else toFind
  jaxFindLoop m toFind type fuel iter .zero

/-! Where the parts of a header are. -/

section Headers

variable (m : Memory) (p stop : Nat)

def descriptionAt : Nat :=
  p + ((u16ToNe m (p + 1)).toNat + 3)

def metadataAt : Nat :=
  descriptionAt m p + ((u16ToNe m (descriptionAt m p)).toNat + 2)

/-- The size that the header says its file has. -/
def declaredSize : BitVec 64 :=
  i64ToNe m (metadataAt m p + 14)

structure HasHeader : Prop where
  type : p + 3 < stop
  description : descriptionAt m p + 2 < stop
  metadata : metadataAt m p + 22 < stop

instance : Decidable (HasHeader m p stop) :=
  decidable_of_iff (p + 3 < stop ∧ descriptionAt m p + 2 < stop ∧ metadataAt m p + 22 < stop)
    ⟨fun ⟨h, h', h''⟩ => ⟨h, h', h''⟩, fun h => ⟨h.type, h.description, h.metadata⟩⟩

/-- If there is a header, the file behind it has a size that is not negative and ends in the
address space, or its end comes out behind the buffer all the same. -/
def SizeFits : Prop :=
  HasHeader m p stop →
    0 ≤ (declaredSize m p).toInt ∧
        (metadataAt m p + 22 : Nat) + (declaredSize m p).toInt < 2 ^ ptrBits ∨
      (stop : Int) < ((metadataAt m p + 22 : Nat) + (declaredSize m p).toInt) % 2 ^ ptrBits

instance : Decidable (SizeFits m p stop) :=
  inferInstanceAs (Decidable (_ → _))

/-- The file that is read from a complete header. -/
def headerFile (file : JaxFile) : JaxFile :=
  { file with
    type := m p
    nameLength := u16ToNe m (p + 1)
    name := p + 3
    descriptionLength := u16ToNe m (descriptionAt m p)
    description := descriptionAt m p + 2
    timestamp := i64ToNe m (metadataAt m p)
    mode := u16ToNe m (metadataAt m p + 8)
    owner := u16ToNe m (metadataAt m p + 10)
    group := u16ToNe m (metadataAt m p + 12)
    size := declaredSize m p
    data := metadataAt m p + 22 }

/-- The pointer behind the data, as it is computed. -/
def followingAt : Nat :=
  offsetPointer (metadataAt m p) (declaredSize m p + 22)

end Headers

variable {m : Memory} {start stop p : Nat}

theorem jaxNextFile_of_header (h : HasHeader m p stop) (file : JaxFile) :
    jaxNextFile m ⟨p, stop⟩ file =
      (decide (followingAt m p ≤ stop), ⟨followingAt m p, stop⟩, headerFile m p file) := by
  have hdescription := h.description
  have hmetadata := h.metadata
  simp only [descriptionAt] at hdescription
  simp only [metadataAt, descriptionAt] at hmetadata
  have htype := h.type
  rw [jaxNextFile, if_neg (by dsimp only; omega)]
  dsimp only
  rw [if_neg (by omega), if_neg (by omega)]
  rfl

theorem jaxNextFile_of_no_header (h : ¬ HasHeader m p stop) (file : JaxFile) :
    (jaxNextFile m ⟨p, stop⟩ file).1 = false := by
  by_contra hfound
  apply h
  simp only [jaxNextFile] at hfound
  split at hfound
  · exact absurd rfl hfound
  · rename_i htype
    split at hfound
    · exact absurd rfl hfound
    · rename_i hdescription
      split at hfound
      · exact absurd rfl hfound
      · rename_i hmetadata
        constructor
        · omega
        · simp only [descriptionAt]
          omega
        · simp only [metadataAt, descriptionAt]
          omega

/-- The pointer behind the data wraps around. -/
theorem followingAt_eq (m : Memory) (p : Nat) :
    (followingAt m p : Int) =
      ((metadataAt m p + 22 : Nat) + (declaredSize m p).toInt) % 2 ^ ptrBits := by
  have hsum : (declaredSize m p + 22).toNat = ((declaredSize m p).toNat + 22) % 2 ^ 64 :=
    BitVec.toNat_add _ _
  have hsigned := BitVec.toInt_eq_toNat_cond (declaredSize m p)
  simp only [followingAt, offsetPointer, ptrBits]
  split at hsigned
  · omega
  · omega

/-- The data pointer and the declared size give the pointer behind the data exactly if the sum
stays in the address space. -/
theorem followingAt_of_fits
    (hfits : 0 ≤ (declaredSize m p).toInt ∧
      (metadataAt m p + 22 : Nat) + (declaredSize m p).toInt < 2 ^ ptrBits) :
    followingAt m p = metadataAt m p + 22 + (declaredSize m p).toInt.toNat := by
  have hwrapped := followingAt_eq m p
  rw [Int.emod_eq_of_lt (by omega) hfits.2] at hwrapped
  omega

/-! What a call promises, and when. -/

def Inside (start stop address count : Nat) : Prop :=
  start ≤ address ∧ address + count ≤ stop

/-- The iterator and the file after a call that was successful at `p`. -/
structure Sound (start stop p : Nat) (iter : JaxIterator) (file : JaxFile) : Prop where
  name : Inside start stop file.name file.nameLength.toNat
  description : Inside start stop file.description file.descriptionLength.toNat
  size : 0 ≤ file.size.toInt
  data : Inside start stop file.data file.size.toInt.toNat
  advanced : p < iter.start
  bounded : iter.start ≤ stop
  sameStop : iter.stop = stop

/-- A true result at `p` is sound. -/
def CallSafe (m : Memory) (start stop p : Nat) : Prop :=
  ∀ file iter next, jaxNextFile m ⟨p, stop⟩ file = (true, iter, next) →
    Sound start stop p iter next

theorem descriptionAt_le (m : Memory) (p : Nat) :
    p + 3 + (u16ToNe m (p + 1)).toNat = descriptionAt m p := by
  simp only [descriptionAt]
  omega

theorem metadataAt_le (m : Memory) (p : Nat) :
    descriptionAt m p + 2 + (u16ToNe m (descriptionAt m p)).toNat = metadataAt m p := by
  simp only [metadataAt]
  omega

theorem SizeFits.callSafe (hfits : SizeFits m p stop) (hstart : start ≤ p) :
    CallSafe m start stop p := by
  intro file iter next hcall
  by_cases hheader : HasHeader m p stop
  · have hdescription := descriptionAt_le m p
    have hmetadata := metadataAt_le m p
    have hdescriptionLt := hheader.description
    have hmetadataLt := hheader.metadata
    rw [jaxNextFile_of_header hheader file] at hcall
    obtain ⟨hfound, hrest⟩ := Prod.mk.inj hcall
    obtain ⟨rfl, rfl⟩ := Prod.mk.inj hrest
    have hle : followingAt m p ≤ stop := of_decide_eq_true hfound
    have hsize := (hfits hheader).resolve_right (by rw [← followingAt_eq]; omega)
    have hfollowing := followingAt_of_fits hsize
    constructor
    · exact ⟨by simp only [headerFile]; omega, by simp only [headerFile]; omega⟩
    · exact ⟨by simp only [headerFile]; omega, by simp only [headerFile]; omega⟩
    · exact hsize.1
    · exact ⟨by simp only [headerFile]; omega, by simp only [headerFile]; omega⟩
    · dsimp only
      omega
    · exact hle
    · rfl
  · have hfound := jaxNextFile_of_no_header hheader file
    rw [hcall] at hfound
    cases hfound

theorem CallSafe.sizeFits (hsafe : CallSafe m start stop p) (hstop : stop < 2 ^ ptrBits) :
    SizeFits m p stop := by
  intro hheader
  by_cases hfound : followingAt m p ≤ stop
  · have hcall := jaxNextFile_of_header hheader .zero
    rw [decide_eq_true hfound] at hcall
    have hsound := hsafe _ _ _ hcall
    have hsize : 0 ≤ (declaredSize m p).toInt := hsound.size
    have hdata : metadataAt m p + 22 + (declaredSize m p).toInt.toNat ≤ stop := hsound.data.2
    simp only [ptrBits] at hstop ⊢
    omega
  · right
    rw [← followingAt_eq]
    omega

theorem callSafe_iff (hstart : start ≤ p) (hstop : stop < 2 ^ ptrBits) :
    CallSafe m start stop p ↔ SizeFits m p stop :=
  ⟨fun hsafe => hsafe.sizeFits hstop, fun hfits => hfits.callSafe hstart⟩

/-! Loops. -/

/-- Every position in the buffer is safe. -/
def BufferSafe (m : Memory) (start stop : Nat) : Prop :=
  ∀ p, start ≤ p → p < stop → CallSafe m start stop p

/-- A call that is successful stays in the buffer and leaves fewer bytes. -/
theorem BufferSafe.advances (hsafe : BufferSafe m start stop) (hstart : start ≤ p)
    {file next : JaxFile} {iter : JaxIterator}
    (hcall : jaxNextFile m ⟨p, stop⟩ file = (true, iter, next)) :
    ∃ q, iter = ⟨q, stop⟩ ∧ p < q ∧ q ≤ stop := by
  have hbefore : p < stop := by
    by_contra hbehind
    rw [jaxNextFile, if_pos (by dsimp only; omega)] at hcall
    cases hcall
  have hsound := hsafe p hstart hbefore file iter next hcall
  refine ⟨iter.start, ?_, hsound.advanced, hsound.bounded⟩
  rw [← hsound.sameStop]

theorem BufferSafe.files_returns (hsafe : BufferSafe m start stop) (hstart : start ≤ p)
    {fuel : Nat} (hfuel : stop - p < fuel) (file : JaxFile) :
    ∃ found, files m fuel ⟨p, stop⟩ file = some found := by
  induction fuel generalizing p file with
  | zero => omega
  | succ fuel ih =>
      rw [files]
      rcases hcall : jaxNextFile m ⟨p, stop⟩ file with ⟨found, iter, next⟩
      cases found with
      | false => exact ⟨[], rfl⟩
      | true =>
          obtain ⟨q, rfl, hlt, hle⟩ := hsafe.advances hstart hcall
          obtain ⟨rest, hrest⟩ := ih (show start ≤ q by omega) (by omega) next
          exact ⟨next :: rest, by simp [hrest]⟩

theorem BufferSafe.jaxFindLoop_returns (hsafe : BufferSafe m start stop) (hstart : start ≤ p)
    {fuel : Nat} (hfuel : stop - p < fuel) (toFind : Nat) (type : Byte) (file : JaxFile) :
    ∃ result, jaxFindLoop m toFind type fuel ⟨p, stop⟩ file = some result := by
  induction fuel generalizing p file with
  | zero => omega
  | succ fuel ih =>
      rw [jaxFindLoop]
      rcases hcall : jaxNextFile m ⟨p, stop⟩ file with ⟨found, iter, next⟩
      cases found with
      | false => exact ⟨none, rfl⟩
      | true =>
          obtain ⟨q, rfl, hlt, hle⟩ := hsafe.advances hstart hcall
          have hrest := ih (show start ≤ q by omega) (by omega) next
          dsimp only
          rw [if_neg (by decide)]
          split
          · exact hrest
          · split
            · exact hrest
            · exact ⟨_, rfl⟩

theorem BufferSafe.nextFileLoop_returns (hsafe : BufferSafe m start stop) (hstart : start ≤ p)
    {fuel : Nat} (hfuel : stop - p < fuel) (dirFile file : JaxFile) :
    ∃ result, nextFileLoop m dirFile stop fuel p file = some result ∧
      ∀ found ∈ result, p < found.next ∧ found.next ≤ stop := by
  induction fuel generalizing p file with
  | zero => omega
  | succ fuel ih =>
      rw [nextFileLoop, nextFile]
      rcases hcall : jaxNextFile m ⟨p, stop⟩ file with ⟨found, iter, next⟩
      cases found with
      | false => exact ⟨none, rfl, nofun⟩
      | true =>
          obtain ⟨q, rfl, hlt, hle⟩ := hsafe.advances hstart hcall
          obtain ⟨result, hresult, hbounds⟩ := ih (show start ≤ q by omega) (by omega) next
          dsimp only
          rw [if_pos rfl]
          dsimp only
          split
          · exact ⟨result, hresult, fun found hfound =>
              ⟨Nat.lt_trans hlt (hbounds found hfound).1, (hbounds found hfound).2⟩⟩
          · refine ⟨_, rfl, ?_⟩
            intro found hfound
            cases hfound
            exact ⟨hlt, hle⟩

end Cenix.Jax

namespace Cenix.InitrdFs

open Fields Jax Vfs

variable {order : ByteOrder} {e : Environment} {s : State} {fuel : Nat}

/-- The archive in memory is safe to read. -/
def ArchiveSafe (m : Memory) (s : State) : Prop :=
  BufferSafe m s.initrdStart s.initrdEnd

theorem ArchiveSafe.nextFileInDir_returns {m : Memory} (hsafe : ArchiveSafe m s)
    (dirFile : JaxFile) (address : Nat) (hfuel : s.initrdEnd - address < fuel) :
    ∃ result, nextFileInDir m s fuel dirFile address = some result ∧
      ∀ found ∈ result, address < found.next ∧ found.next ≤ s.initrdEnd := by
  rw [nextFileInDir]
  split
  · exact ⟨none, rfl, nofun⟩
  · exact hsafe.nextFileLoop_returns (by omega) hfuel dirFile .zero

theorem ArchiveSafe.readDirectory_returns (hsafe : ArchiveSafe e.memory s)
    (hfuel : s.initrdEnd < fuel) (badge : Nat) (file : JaxFile) (position readSize : Nat) :
    (readDirectory order e s fuel badge file position readSize).isSome := by
  rw [readDirectory]
  dsimp only
  generalize (if readSize < vfsDirectoryEntrySize then vfsDirectoryEntrySize else readSize) = size
  generalize (if position = 0 then badge else position) = address
  split
  · rfl
  · obtain ⟨result, hresult, -⟩ :=
      hsafe.nextFileInDir_returns file address (show s.initrdEnd - address < fuel by omega)
    rw [hresult]
    cases result with
    | none => rfl
    | some found =>
        obtain ⟨following, hfollowing, -⟩ := hsafe.nextFileInDir_returns file found.next
          (show s.initrdEnd - found.next < fuel by omega)
        simp [hfollowing]

theorem ArchiveSafe.findFile_returns (hsafe : ArchiveSafe e.memory s) (file : JaxFile)
    (filename next : Nat) (hfuel : s.initrdEnd - next < fuel) :
    (findFile e s file filename fuel next).isSome := by
  induction fuel generalizing next with
  | zero => omega
  | succ fuel ih =>
      rw [findFile]
      obtain ⟨result, hresult, hbounds⟩ := hsafe.nextFileInDir_returns file next hfuel
      rw [hresult]
      cases result with
      | none => rfl
      | some found =>
          obtain ⟨hlt, hle⟩ := hbounds found rfl
          simp only [Option.bind_some]
          split
          · rfl
          · apply ih
            omega

theorem ArchiveSafe.handleRead_returns (hsafe : ArchiveSafe e.memory s)
    (hfuel : s.initrdEnd < fuel) (badge : Nat) (file : JaxFile) (position readSize : Nat) :
    (handleRead order e s fuel badge file position readSize).isSome := by
  rw [handleRead]
  split
  · exact hsafe.readDirectory_returns hfuel badge file position readSize
  · rfl

theorem ArchiveSafe.handleOpen_returns (hsafe : ArchiveSafe e.memory s)
    (hfuel : s.initrdEnd < fuel) (slots : Slots) (received reply : IpcMessage)
    (file : JaxFile) (next : Nat) :
    (handleOpen order e s fuel slots received reply file next).isSome := by
  rw [handleOpen]
  cases openName e received file with
  | error result => rfl
  | ok filename =>
      dsimp only
      rw [Option.isSome_map]
      apply hsafe.findFile_returns
      omega

theorem ArchiveSafe.handleFdMessage_returns (hsafe : ArchiveSafe e.memory s)
    (hfuel : s.initrdEnd < fuel) (slots : Slots) (received reply : IpcMessage)
    (file : JaxFile) (next : Nat) :
    (handleFdMessage order e s fuel slots received reply file next).isSome := by
  rw [handleFdMessage]
  dsimp only
  split
  · rw [handleReadCall]
    dsimp only
    split
    · rfl
    · rw [Option.isSome_map]
      apply hsafe.handleRead_returns hfuel
  · split
    · rw [handleReadFastCall]
      dsimp only
      rw [Option.isSome_map]
      apply hsafe.handleRead_returns hfuel
    · split
      · rfl
      · split
        · rw [Option.isSome_map]
          apply hsafe.handleOpen_returns hfuel
        · split
          · rfl
          · rfl

theorem ArchiveSafe.handleIpcMessage_returns (hsafe : ArchiveSafe e.memory s)
    (hfuel : s.initrdEnd < fuel) (slots : Slots) (received reply : IpcMessage) :
    (handleIpcMessage order e s fuel slots received reply).isSome :=
  hsafe.handleFdMessage_returns hfuel _ _ _ _ _

/-! The whole of it. -/

/-- The loops over an archive between `start` and `stop` end, wherever they begin. -/
structure LoopsEnd (m : Memory) (start stop : Nat) : Prop where
  find : ∀ p, start ≤ p → ∀ toFind type fuel, stop < fuel →
    (jaxFind m fuel ⟨p, stop⟩ toFind type).isSome
  directory : ∀ iterator dirFile address fuel, stop < fuel →
    (nextFileInDir m ⟨start, stop, iterator⟩ fuel dirFile address).isSome
  message : ∀ order (e : Environment) iterator, e.memory = m → ∀ fuel, stop < fuel →
    ∀ slots received reply,
      (handleIpcMessage order e ⟨start, stop, iterator⟩ fuel slots received reply).isSome

theorem loopsEnd {m : Memory} {start stop : Nat} (hsafe : BufferSafe m start stop) :
    LoopsEnd m start stop where
  find := by
    intro p hstart toFind type fuel hfuel
    rw [jaxFind, Option.isSome_iff_exists]
    exact hsafe.jaxFindLoop_returns hstart (by omega) _ type .zero
  directory := by
    intro iterator dirFile address fuel hfuel
    have harchive : ArchiveSafe m ⟨start, stop, iterator⟩ := hsafe
    obtain ⟨result, hresult, -⟩ := harchive.nextFileInDir_returns dirFile address
      (show stop - address < fuel by omega)
    rw [hresult]
    rfl
  message := by
    rintro order e iterator rfl fuel hfuel slots received reply
    have harchive : ArchiveSafe e.memory ⟨start, stop, iterator⟩ := hsafe
    exact harchive.handleIpcMessage_returns hfuel slots received reply

/-- A regular file without a name or a description, of size -27. -/
def stuckArchive : Memory :=
  memoryWith 16 ([0x72] ++ List.replicate 18 0 ++ i64ToLe (-27))

theorem jaxNextFile_stuck (file : JaxFile) :
    jaxNextFile stuckArchive ⟨16, 48⟩ file =
      (true, ⟨16, 48⟩, headerFile stuckArchive 16 file) := by
  have hheader : HasHeader stuckArchive 16 48 := by decide +kernel
  have hfollowing : followingAt stuckArchive 16 = 16 := by decide +kernel
  rw [jaxNextFile_of_header hheader, hfollowing]
  rfl

theorem jaxFindLoop_stuck (toFind fuel : Nat) (file : JaxFile) :
    jaxFindLoop stuckArchive toFind 0x73 fuel ⟨16, 48⟩ file = none := by
  induction fuel generalizing file with
  | zero => rfl
  | succ fuel ih =>
      have htype : (headerFile stuckArchive 16 file).type = 0x72 := by
        simp only [headerFile]
        decide +kernel
      rw [jaxFindLoop, jaxNextFile_stuck]
      dsimp only
      rw [if_neg (by decide), if_pos ⟨by decide, by rw [htype]; decide⟩]
      exact ih _

end Cenix.InitrdFs
