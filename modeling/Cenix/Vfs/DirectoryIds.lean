import Cenix.Vfs.MountAtomicity

namespace Cenix.Vfs

open Programs

/-! What becomes of the id that is taken to open a file. -/

/-- What `open_file` has found out when it branches. -/
inductive Opened where
  | nothing
  | unknown
  | mountPoint (address inode : Nat)
  | file
  | directory (inode : Nat)
  deriving DecidableEq, Repr

def openId (state : State) (fdEndpoint : Nat) (message : IpcMessage) : Vfs Nat :=
  findSlotFor .directories maxOpenDirectories
    (openFileCallback fdEndpoint (threadStorageSlot state.threadId replyEndpointSlot)
      (fdOpenNameAddress message).address (fdOpenFlags message) (fdOpenMode message))

/-- The calls of `open_file` before it branches, by their outcomes. -/
inductive OpensTo (fuel : Nat) (state : State) (fdEndpoint : Nat) (info : DirectoryInfo)
    (message : IpcMessage) (w : World) : Opened → World → Prop where
  | nothing {v : World} (hopen : openId state fdEndpoint message w = some (sizeMax, v)) :
      OpensTo fuel state fdEndpoint info message w .nothing v
  | unknown {v v' : World} {address result : Nat}
      (hopen : openId state fdEndpoint message w = some (address, v)) (hne : address ≠ sizeMax)
      (hstat : fdStatCall .openFile address (threadStorageSlot state.threadId replyEndpointSlot)
        v = some ((result, none), v')) : OpensTo fuel state fdEndpoint info message w .unknown v'
  | known {v v₁ v₂ : World} {address result found : Nat} {stat : Stat}
      (hopen : openId state fdEndpoint message w = some (address, v)) (hne : address ≠ sizeMax)
      (hstat : fdStatCall .openFile address (threadStorageSlot state.threadId replyEndpointSlot)
        v = some ((result, some stat), v₁))
      (hfind : findMountPoint fuel info.namespaceId stat.inode info.enclosingFilesystem v₁ =
        some (found, v₂)) : OpensTo fuel state fdEndpoint info message w
          (if found ≠ sizeMax then .mountPoint found stat.inode
            else if !isDirectory stat.mode then .file else .directory stat.inode) v₂

/-- The id whose bit is taken. -/
def World.Takes (w : World) (id : Nat) : Prop :=
  w.resultAt 0 .findSlotFor (.lock usedDirectoryIdsSlot) = 0 ∧
    firstFree w.server .directories maxOpenDirectories = some id

/-- The bit is set if and only if a descriptor for the id has been handed out; there is
information about it then, and nothing at all otherwise. -/
structure Conserved (s : Server) (id : Nat) (handedOut : Prop) : Prop where
  used : s.used .directories id = true ↔ handedOut
  informed : handedOut → s.occupied (.directoryInfo id) = true
  returned : ¬handedOut →
    s.occupied (.directory id) = false ∧ s.occupied (.directoryInfo id) = false

/-! The conditions, from the `n`th system call on. -/

/-- The server's endpoint is copied with a badge. -/
def Copied (w : World) (n : Nat) (caller : Caller) (state : State) (badge : Nat) : Prop :=
  w.resultAt n caller (.copy badge) = 0 ∧
    w.server.fds (.storage state.threadId state.tempSlot) = none

/-- The client takes the copy, where the server is in the state `s`. -/
def Delivers (w : World) (n : Nat) (s : Server) (caller : Caller) (state : State)
    (badge replyAddress : Nat) : Prop :=
  let s' := s.setFd (.storage state.threadId state.tempSlot) (some (.endpoint badge))
  Copied w n caller state badge ∧
    s'.fds (place (threadStorageSlot state.threadId state.tempSlot)) = some (.endpoint badge) ∧
    (s'.fds (place replyAddress)).isSome ∧
    w.resultAt (n + 1) caller (.send replyAddress) = 0 ∧
    (w.answers (w.time + (n + 1)) caller (.send replyAddress)).taken 0 = true

/-- The memory for the information about a directory is allocated and can be locked. -/
def Informed (w : World) (n : Nat) (caller : Caller) (id : Nat) : Prop :=
  w.resultAt 0 caller (.alloc (directoryInfoAddress id)) = 0 ∧
    w.server.occupied (.directoryInfo id) = false ∧
    w.resultAt n caller (.lock (directoryInfoAddress id)) = 0

/-- The server once `open_mount_point` has deleted the descriptor of the directory below. -/
def World.uncovered (w : World) (id : Nat) : Server :=
  if w.resultAt 1 .openMountPoint (.delete directoryNodeSlot id) = 0 then
    w.server.cleared (.directory id)
  else
    w.server

/-- A descriptor of a mount point or of a directory is handed out. -/
def HandedOut (state : State) (replyAddress id : Nat) (w : World) : Opened → Prop
  | .mountPoint _ _ => Informed w 2 .openMountPoint id ∧
      Delivers w 3 (w.uncovered id) .openMountPoint state
        (ipcBadge (directoryInfoAddress id) ipcFlagIsMountPoint) replyAddress
  | .directory _ => Informed w 1 .proxyDirectory id ∧
      Delivers w 2 w.server .proxyDirectory state (ipcBadge id ipcFlagIsMountPoint) replyAddress
  | .nothing | .unknown | .file => False

/-- The kernel lets `free_structure` free the id. -/
def IdFreed (w : World) (n id : Nat) : Prop :=
  w.resultAt n .freeStructure (.delete directoryNodeSlot id) = 0 ∧
    w.resultAt (n + 1) .markSlotUnused (.lock usedDirectoryIdsSlot) = 0

/-- The client takes the descriptor of a file, and nothing is left in its place. -/
def FileTaken (w : World) (replyAddress id : Nat) : Prop :=
  (w.server.fds (place replyAddress)).isSome ∧
    w.resultAt 0 .openFile (.send replyAddress) = 0 ∧
    (w.answers w.time .openFile (.send replyAddress)).taken 0 = true ∧
    w.server.structures (.directory id) = none

/-- The id is handed out or given back. -/
def Conserves (state : State) (replyAddress id : Nat) (w : World) : Opened → Prop
  | .nothing => id < ptrBits ∧ w.server.occupied (.directory id) = false ∧
      w.server.occupied (.directoryInfo id) = false
  | .unknown => w.server.occupied (.directory id) = true ∧
      w.server.occupied (.directoryInfo id) = false ∧ IdFreed w 0 id
  | .file => ¬FileTaken w replyAddress id ∧
      w.server.occupied (.directoryInfo id) = false ∧ IdFreed w 1 id
  | .mountPoint address inode =>
      HandedOut state replyAddress id w (.mountPoint address inode) ∨
        w.server.occupied (.directoryInfo id) = false ∧
          w.resultAt 0 .openMountPoint (.alloc (directoryInfoAddress id)) ≠ 0 ∧ IdFreed w 1 id
  | .directory inode =>
      HandedOut state replyAddress id w (.directory inode) ∨
        w.server.occupied (.directoryInfo id) = false ∧
          (w.resultAt 0 .proxyDirectory (.alloc (directoryInfoAddress id)) ≠ 0 ∧
              IdFreed w 1 id ∨
            Informed w 1 .proxyDirectory id ∧
              ¬Copied w 2 .proxyDirectory state (ipcBadge id ipcFlagIsMountPoint) ∧
              w.resultAt 3 .proxyDirectory (.delete directoryInfoSlot id) = 0 ∧ IdFreed w 4 id)

variable {w w₁ w' : World} {state : State} {id replyAddress : Nat} {s : Server}

/-! Freeing the id. -/

theorem conserved_false : Conserved s id False ↔ s.used .directories id = false ∧
    s.occupied (.directory id) = false ∧ s.occupied (.directoryInfo id) = false := by
  constructor
  · intro h
    refine ⟨Bool.eq_false_iff.mpr fun hused => h.used.mp hused, h.returned not_false⟩
  · rintro ⟨hused, hempty⟩
    exact ⟨by simp [hused], False.elim, fun _ => hempty⟩

/-- A set bit is no trace if and only if the descriptor is handed out. -/
theorem conserved_of_used {handedOut : Prop} (hused : s.used .directories id = true)
    (hinfo : s.occupied (.directoryInfo id) = true) : Conserved s id handedOut ↔ handedOut := by
  constructor
  · exact fun h => h.used.mp hused
  · exact fun h => ⟨iff_of_true hused h, fun _ => hinfo, fun hnot => absurd h hnot⟩

theorem freeOpenedFile_conserved {u : Unit} (hid : id < maxOpenDirectories)
    (hused : w.server.used .directories id = true)
    (h : freeOpenedFile (directoryAddress id) w = some (u, w')) :
    Conserved w'.server id False ↔ w.server.occupied (.directory id) = true ∧
      w.server.occupied (.directoryInfo id) = false ∧ IdFreed w 0 id := by
  obtain ⟨n, hafter⟩ := freeStructure_after (show directoryNodeSlot < 2 ^ initNodeDepth by decide) hid hid h
  rw [conserved_false, hafter.server]
  unfold World.freed
  rw [nodePlace_directory hid]
  by_cases hdeleted : w.resultAt 0 .freeStructure (.delete directoryNodeSlot id) = 0 ∧
      w.server.occupied (.directory id) = true
  · rw [if_pos hdeleted]
    by_cases hmarked : w.resultAt 1 .markSlotUnused (.lock Ids.directories.address) = 0
    · rw [if_pos hmarked]
      have hinfo : ((w.server.cleared (.directory id)).setUsed .directories id false).occupied
          (.directoryInfo id) = w.server.occupied (.directoryInfo id) := by
        simp [Server.occupied, Server.cleared, Server.setStructure, Server.setFd,
          Server.setUsed]
      rw [hinfo]
      constructor
      · exact fun h => ⟨hdeleted.2, h.2.2, hdeleted.1, hmarked⟩
      · refine fun h => ⟨by simp [setUsed_used], ?_, h.2.1⟩
        simp [Server.occupied, Server.cleared, Server.setStructure, Server.setFd,
          Server.setUsed]
    · rw [if_neg hmarked]
      refine iff_of_false (fun h => ?_) fun h => hmarked h.2.2.2
      have hset : (w.server.cleared (.directory id)).used .directories id = true := hused
      rw [hset] at h
      exact absurd h.1 (by decide)
  · rw [if_neg hdeleted]
    refine iff_of_false (fun h => ?_) fun h => hdeleted ⟨h.2.2.1, h.1⟩
    rw [hused] at h
    exact absurd h.1 (by decide)

/-! Sending. -/

/-- Nothing has changed but in the storage of threads. -/
structure OnlyStorage (s s' : Server) : Prop where
  structures : s'.structures = s.structures
  used : s'.used = s.used
  fds : ∀ p, (∀ i slot, p ≠ .storage i slot) → s'.fds p = s.fds p

theorem OnlyStorage.refl (s : Server) : OnlyStorage s s :=
  ⟨rfl, rfl, fun _ _ => rfl⟩

theorem OnlyStorage.trans {s₁ s₂ s₃ : Server} (h : OnlyStorage s₁ s₂) (h' : OnlyStorage s₂ s₃) :
    OnlyStorage s₁ s₃ :=
  ⟨h'.structures.trans h.structures, h'.used.trans h.used,
    fun p hp => (h'.fds p hp).trans (h.fds p hp)⟩

theorem OnlyStorage.setFd {s : Server} {i slot : Nat} {fd : Option Fd} :
    OnlyStorage s (s.setFd (.storage i slot) fd) := by
  refine ⟨rfl, rfl, fun p hp => ?_⟩
  simp [Server.setFd, hp i slot]

theorem OnlyStorage.occupied {s s' : Server} {p : Place} (h : OnlyStorage s s')
    (hp : ∀ i slot, p ≠ .storage i slot) : s'.occupied p = s.occupied p := by
  rw [Server.occupied, Server.occupied, h.structures, h.fds p hp]

theorem place_storage {threadId slot : Nat} :
    ∃ i j, place (threadStorageSlot threadId slot) = .storage i j := by
  have hmod : threadStorageSlot threadId slot % 2 ^ initNodeDepth = threadStorageNodeSlot := by
    simp only [threadStorageSlot, threadStorageAddress, nodeAddress, threadStorageBits,
      initNodeDepth, threadStorageNodeSlot]
    omega
  rw [place, hmod]
  exact ⟨_, _, rfl⟩

theorem ipcMessage_capability {bytes : List (BitVec 8)} {capabilities : List IpcCapability}
    {toCopy : BitVec 8} {i : Nat} (hi : i < ipcCapabilitySlots) :
    (ipcMessage bytes capabilities toCopy).capabilities[i]? =
      some (capabilities.getD i noCapability) := by
  simp [ipcMessage, hi]

theorem returning_capabilities {message : IpcMessage} {value : Nat} :
    (returning message value).capabilities = message.capabilities := by
  simp only [returning]

theorem returning_toCopy {message : IpcMessage} {value : Nat} :
    (returning message value).toCopy = message.toCopy := by
  simp only [returning]

theorem ipcMessage_toCopy {bytes : List (BitVec 8)} {capabilities : List IpcCapability}
    {toCopy : BitVec 8} : (ipcMessage bytes capabilities toCopy).toCopy = toCopy := by
  simp only [ipcMessage]

theorem takeCapability_eq {message : IpcMessage} {capability : IpcCapability}
    {taken : Nat → Bool} {i : Nat} (h : message.capabilities[i]? = some capability) :
    takeCapability message taken s i =
      if capability.depth ≠ 0 ∧ taken i = true ∧ message.toCopy.getLsbD i = false then
        s.setFd (place capability.address) none
      else s := by
  rw [takeCapability, h]

/-- A message with one capability. -/
theorem foldl_takeCapability_single {message : IpcMessage} {bytes : List (BitVec 8)}
    {address depth : Nat} {toCopy : BitVec 8} {taken : Nat → Bool} (hdepth : depth ≠ 0)
    (h : message.capabilities = (ipcMessage bytes [⟨address, depth⟩] toCopy).capabilities) :
    (List.range ipcCapabilitySlots).foldl (takeCapability message taken) s =
      if taken 0 = true ∧ message.toCopy.getLsbD 0 = false then s.setFd (place address) none
      else s := by
  have hcapability : ∀ i < ipcCapabilitySlots, message.capabilities[i]? =
      some ([(⟨address, depth⟩ : IpcCapability)].getD i noCapability) := by
    intro i hi
    rw [h, ipcMessage_capability hi]
  have hrange : List.range ipcCapabilitySlots = [0, 1, 2, 3] := by decide
  rw [hrange]
  simp only [List.foldl_cons, List.foldl_nil]
  rw [takeCapability_eq (hcapability 3 (by decide)), takeCapability_eq (hcapability 2 (by decide)),
    takeCapability_eq (hcapability 1 (by decide)), takeCapability_eq (hcapability 0 (by decide))]
  simp [noCapability, hdepth]

theorem badgeAndSend_after {caller : Caller} {badge result : Nat}
    (h : badgeAndSend caller state badge replyAddress w = some (result, w')) :
    (result = 0 ↔ Copied w 0 caller state badge) ∧ OnlyStorage w.server w'.server ∧
      (result ≠ 0 → After 1 w.server w w') := by
  obtain ⟨copied, w₁, hcopy, h⟩ := bind_some h
  obtain ⟨hcopied, hafter⟩ := copyEndpoint_after hcopy
  split at h
  · rename_i hfailed
    cases h
    rw [if_neg hfailed] at hafter
    exact ⟨hcopied, hafter.server ▸ .refl _, fun _ => hafter⟩
  · rename_i hzero
    rw [not_not] at hzero
    obtain ⟨sent, w₂, hsend, h⟩ := bind_some h
    obtain ⟨deleted, w₃, hdelete, h⟩ := bind_some h
    cases h
    rw [if_pos hzero] at hafter
    refine ⟨iff_of_true rfl (hcopied.mp hzero), ?_, fun hne => absurd rfl hne⟩
    have hsent : OnlyStorage w₁.server w₂.server := by
      rw [(send_after hsend).2.server,
        foldl_takeCapability_single (by decide) returning_capabilities]
      obtain ⟨i, j, hplace⟩ := @place_storage state.threadId state.tempSlot
      rw [hplace]
      split
      · split
        · exact .setFd
        · exact .refl _
      · exact .refl _
    have hdeleted : OnlyStorage w₂.server w'.server := by
      rw [(storageDelete_after hdelete).server]
      split
      · exact .setFd
      · exact .refl _
    exact (OnlyStorage.trans (hafter.server ▸ .setFd) hsent).trans hdeleted

/-! The branches. -/

theorem conserved_of_not {handedOut : Prop} (h : ¬handedOut) :
    Conserved s id handedOut ↔ Conserved s id False := by
  rw [eq_false h]

theorem After.idFreed {m n : Nat} (h : After m s w w₁) :
    IdFreed w₁ n id ↔ IdFreed w (m + n) id := by
  simp only [IdFreed, h.resultAt, Nat.add_assoc]

/-- With information left behind, the id can't be given back any more. -/
theorem freeOpenedFile_leaks {u : Unit} (hid : id < maxOpenDirectories)
    (hused : w.server.used .directories id = true)
    (hinfo : w.server.occupied (.directoryInfo id) = true)
    (h : freeOpenedFile (directoryAddress id) w = some (u, w')) :
    ¬Conserved w'.server id False := by
  rw [freeOpenedFile_conserved hid hused h, hinfo]
  simp

/-- Without memory for the information the id is given back if the kernel lets the server. -/
theorem refused_conserved {caller : Caller} {handedOut : Prop} {u : Unit}
    (hid : id < maxOpenDirectories) (hused : w.server.used .directories id = true)
    (hnode : w.server.occupied (.directory id) = true)
    (hwhy : w.resultAt 0 caller (.alloc (directoryInfoAddress id)) ≠ 0 ∨
      w.server.occupied (.directoryInfo id) = true)
    (hafter : After 1 w.server w w₁)
    (hfree : freeOpenedFile (directoryAddress id) w₁ = some (u, w')) (hnot : ¬handedOut) :
    Conserved w'.server id handedOut ↔ w.server.occupied (.directoryInfo id) = false ∧
      w.resultAt 0 caller (.alloc (directoryInfoAddress id)) ≠ 0 ∧ IdFreed w 1 id := by
  have hfreed := freeOpenedFile_conserved hid (hafter.server ▸ hused) hfree
  rw [hafter.idFreed, hafter.server] at hfreed
  rw [conserved_of_not hnot, hfreed]
  constructor
  · rintro ⟨-, hempty, hdone⟩
    refine ⟨hempty, hwhy.resolve_right fun hoccupied => ?_, hdone⟩
    rw [hempty] at hoccupied
    cases hoccupied
  · rintro ⟨hempty, -, hdone⟩
    exact ⟨hnode, hempty, hdone⟩

theorem not_informed {caller : Caller} {n : Nat}
    (hwhy : w.resultAt 0 caller (.alloc (directoryInfoAddress id)) ≠ 0 ∨
      w.server.occupied (.directoryInfo id) = true) : ¬Informed w n caller id := by
  rintro ⟨hgranted, hempty, -⟩
  rcases hwhy with hrefused | hoccupied
  · exact hrefused hgranted
  · rw [hempty] at hoccupied
    cases hoccupied

theorem openMountPoint_conserved {address inode result : Nat} {info : DirectoryInfo} {u : Unit}
    (hid : id < maxOpenDirectories) (hused : w.server.used .directories id = true)
    (hnode : w.server.occupied (.directory id) = true)
    (hopen : openMountPoint state (directoryAddress id) address info inode replyAddress w =
      some (result, w₁))
    (hfree : if result ≠ 0 then freeOpenedFile (directoryAddress id) w₁ = some (u, w')
      else w' = w₁) :
    Conserved w'.server id (HandedOut state replyAddress id w (.mountPoint address inode)) ↔
      Conserves state replyAddress id w (.mountPoint address inode) := by
  have hplace := place_directoryInfo hid
  have hdiv : directoryAddress id / 2 ^ initNodeDepth = id := nodeAddress_div id (by decide)
  unfold openMountPoint at hopen
  simp only [hdiv] at hopen
  obtain ⟨allocated, v₁, halloc, hopen⟩ := bind_some hopen
  rcases allocUntyped_after halloc with ⟨rfl, hgranted, hempty, hafter⟩ | ⟨hfailed, hwhy, hafter⟩
  · rw [hplace] at hempty hafter
    rw [if_neg (not_not.mpr rfl)] at hopen
    -- the memory is there from here on
    have hnotRefused : Conserves state replyAddress id w (.mountPoint address inode) ↔
        HandedOut state replyAddress id w (.mountPoint address inode) :=
      or_iff_left fun h => h.2.1 hgranted
    rw [hnotRefused]
    obtain ⟨deleted, v₂, hdelete, hopen⟩ := bind_some hopen
    obtain ⟨-, hdeleted⟩ := nodeDelete_after (show id < 2 ^ nodeSlotBits directoryNodeSlot
      from hid) hdelete
    rw [nodePlace_directory hid] at hdeleted
    have hinfo₂ : v₂.server.occupied (.directoryInfo id) = true := by
      rw [hdeleted.server, hafter.server]
      split <;> simp [Server.occupied, Server.cleared, Server.setStructure, Server.setFd]
    have hused₂ : v₂.server.used .directories id = true := by
      rw [hdeleted.server, hafter.server]
      split <;> exact hused
    have hstorage₂ : v₂.server.fds (.storage state.threadId state.tempSlot) =
        w.server.fds (.storage state.threadId state.tempSlot) := by
      rw [hdeleted.server, hafter.server]
      split <;> simp [Server.cleared, Server.setStructure, Server.setFd]
    obtain ⟨found, v₃, hlock, hopen⟩ := bind_some hopen
    obtain ⟨hfound, hlocked⟩ := lock_after hlock
    rw [(hafter.trans hdeleted).resultAt] at hfound
    rw [← hlocked.server] at hinfo₂ hused₂ hstorage₂
    split at hopen
    · rename_i hno
      cases hopen
      have hnot : ¬HandedOut state replyAddress id w (.mountPoint address inode) := by
        rintro ⟨⟨-, -, hlock'⟩, -⟩
        simp [hfound.mpr hlock'] at hno
      rw [conserved_of_not hnot]
      exact iff_of_false (freeOpenedFile_leaks hid hused₂ hinfo₂ hfree) hnot
    · rename_i hyes
      obtain ⟨u₁, v₄, hwrite, hopen⟩ := bind_some hopen
      obtain ⟨u₂, v₅, hunlock, hopen⟩ := bind_some hopen
      obtain ⟨-, hwritten⟩ := writeStructure_after hwrite
      rw [hplace] at hwritten
      have hunlocked := unlock_after hunlock
      obtain ⟨hsent, honly, -⟩ := badgeAndSend_after hopen
      have hafter₅ := (((hafter.trans hdeleted).trans hlocked).trans hwritten).trans hunlocked
      have hinfo₅ : v₅.server.occupied (.directoryInfo id) = true := by
        rw [hunlocked.server, hwritten.server]
        simp [Server.occupied, Server.setStructure]
      have hused₅ : v₅.server.used .directories id = true := by
        rw [hunlocked.server, hwritten.server]
        exact hused₂
      have hcopied : Copied v₅ 0 .openMountPoint state
          (ipcBadge (directoryInfoAddress id) ipcFlagIsMountPoint) ↔
          Copied w 3 .openMountPoint state
            (ipcBadge (directoryInfoAddress id) ipcFlagIsMountPoint) := by
        have hfds : v₅.server.fds (.storage state.threadId state.tempSlot) =
            w.server.fds (.storage state.threadId state.tempSlot) := by
          rw [hunlocked.server, hwritten.server]
          exact hstorage₂
        rw [Copied, Copied, hafter₅.resultAt, hfds]
      rw [← honly.occupied (by simp)] at hinfo₅
      rw [← honly.used] at hused₅
      split at hfree
      · rename_i hfailed
        have hnot : ¬HandedOut state replyAddress id w (.mountPoint address inode) := by
          rintro ⟨-, hdelivers⟩
          exact hfailed (hsent.mpr (hcopied.mpr hdelivers.1))
        rw [conserved_of_not hnot]
        exact iff_of_false (freeOpenedFile_leaks hid hused₅ hinfo₅ hfree) hnot
      · rw [hfree]
        exact conserved_of_used hused₅ hinfo₅
  · rw [if_pos hfailed] at hopen
    cases hopen
    rw [if_pos hfailed] at hfree
    rw [hplace] at hwhy
    have hnot : ¬HandedOut state replyAddress id w (.mountPoint address inode) :=
      fun hhanded => not_informed hwhy hhanded.1
    rw [refused_conserved hid hused hnode hwhy hafter hfree hnot]
    exact (or_iff_right hnot).symm

theorem proxyDirectory_conserved {inode result : Nat} {info : DirectoryInfo} {u : Unit}
    (hid : id < maxOpenDirectories) (hused : w.server.used .directories id = true)
    (hnode : w.server.occupied (.directory id) = true)
    (hopen : proxyDirectory state (directoryAddress id) info inode replyAddress w =
      some (result, w₁))
    (hfree : if result ≠ 0 then freeOpenedFile (directoryAddress id) w₁ = some (u, w')
      else w' = w₁) :
    Conserved w'.server id (HandedOut state replyAddress id w (.directory inode)) ↔
      Conserves state replyAddress id w (.directory inode) := by
  have hplace := place_directoryInfo hid
  have hdiv : directoryAddress id / 2 ^ initNodeDepth = id := nodeAddress_div id (by decide)
  unfold proxyDirectory at hopen
  simp only [hdiv] at hopen
  obtain ⟨allocated, v₁, halloc, hopen⟩ := bind_some hopen
  rcases allocUntyped_after halloc with ⟨rfl, hgranted, hempty, hafter⟩ | ⟨hfailed, hwhy, hafter⟩
  · rw [hplace] at hempty hafter
    rw [if_neg (not_not.mpr rfl)] at hopen
    have hused₁ : v₁.server.used .directories id = true := by
      rw [hafter.server]
      exact hused
    obtain ⟨found, v₂, hlock, hopen⟩ := bind_some hopen
    obtain ⟨hfound, hlocked⟩ := lock_after hlock
    rw [hafter.resultAt] at hfound
    rw [← hlocked.server] at hused₁
    split at hopen
    · rename_i hno
      obtain ⟨deleted, v₃, hdelete, hopen⟩ := bind_some hopen
      cases hopen
      have hlock' : ¬Informed w 1 .proxyDirectory id := fun hinformed => by
        simp [hfound.mpr hinformed.2.2] at hno
      rw [if_neg (not_not.mpr rfl)] at hfree
      rw [conserved_of_not fun hhanded => hlock' hhanded.1]
      refine iff_of_false (fun hconserved => hconserved.used.mp ?_) ?_
      · obtain ⟨-, hdeleted⟩ := nodeDelete_after (show id < 2 ^ nodeSlotBits directoryInfoSlot
          from hid) hdelete
        rw [hfree, hdeleted.server]
        split <;> exact hused₁
      · rintro (hhanded | ⟨-, hrefused | hinformed⟩)
        · exact hlock' hhanded.1
        · exact hrefused.1 hgranted
        · exact hlock' hinformed.1
    · rename_i hyes
      have hinformed : Informed w 1 .proxyDirectory id :=
        ⟨hgranted, hempty, hfound.mp (by simpa using hyes)⟩
      obtain ⟨u₁, v₃, hwrite, hopen⟩ := bind_some hopen
      obtain ⟨u₂, v₄, hunlock, hopen⟩ := bind_some hopen
      obtain ⟨-, hwritten⟩ := writeStructure_after hwrite
      rw [hplace] at hwritten
      have hunlocked := unlock_after hunlock
      obtain ⟨sent, v₅, hsend, hopen⟩ := bind_some hopen
      obtain ⟨hsent, honly, hunsent⟩ := badgeAndSend_after hsend
      have hafter₄ := ((hafter.trans hlocked).trans hwritten).trans hunlocked
      have hserver₄ : v₄.server = w.server.setStructure (.directoryInfo id)
          (some (.directoryInfo { info with inode := inode })) := by
        rw [hunlocked.server, hwritten.server, hlocked.server, hafter.server]
        simp [Server.setStructure]
      have hinfo₄ : v₄.server.occupied (.directoryInfo id) = true := by
        rw [hserver₄]
        simp [Server.occupied, Server.setStructure]
      have hused₄ : v₄.server.used .directories id = true := by
        rw [hserver₄]
        exact hused
      have hnode₄ : v₄.server.occupied (.directory id) = true := by
        rw [hserver₄, ← hnode]
        simp [Server.occupied, Server.setStructure]
      have hcopied : Copied v₄ 0 .proxyDirectory state (ipcBadge id ipcFlagIsMountPoint) ↔
          Copied w 2 .proxyDirectory state (ipcBadge id ipcFlagIsMountPoint) := by
        rw [Copied, Copied, hafter₄.resultAt, hserver₄]
        rfl
      rw [hcopied] at hsent
      obtain ⟨u₃, v₆, hdelete, hopen⟩ := bind_some hopen
      cases hopen
      by_cases hzero : result = 0
      · rw [onlyIf, if_neg (not_not.mpr hzero)] at hdelete
        cases hdelete
        rw [if_neg (not_not.mpr hzero)] at hfree
        rw [hfree, conserved_of_used (honly.used ▸ hused₄)
          ((honly.occupied (by simp)).trans hinfo₄)]
        refine (or_iff_left ?_).symm
        rintro ⟨-, hrefused | hfailed⟩
        · exact hrefused.1 hgranted
        · exact hfailed.2.1 (hsent.mp hzero)
      · rw [onlyIf, if_pos hzero] at hdelete
        obtain ⟨deleted, v₇, hdelete, hpure⟩ := bind_some hdelete
        cases hpure
        rw [if_pos hzero] at hfree
        have hunsent := hunsent hzero
        have hafter₅ := hafter₄.trans hunsent
        obtain ⟨hdone, hdeleted⟩ := nodeDelete_after (show id < 2 ^ nodeSlotBits directoryInfoSlot
          from hid) hdelete
        rw [nodePlace_directoryInfo hid, hafter₅.resultAt, hunsent.server, hinfo₄] at hdone
        rw [nodePlace_directoryInfo hid, hunsent.server] at hdeleted
        have hnotCopied : ¬Copied w 2 .proxyDirectory state (ipcBadge id ipcFlagIsMountPoint) :=
          fun hcopied' => hzero (hsent.mpr hcopied')
        have hnot : ¬HandedOut state replyAddress id w (.directory inode) :=
          fun hhanded => hnotCopied hhanded.2.1
        rw [conserved_of_not hnot]
        by_cases hd : deleted = 0
        · rw [if_pos hd] at hdeleted
          have hfreed := freeOpenedFile_conserved hid
            (by rw [hdeleted.server]; exact hused₄) hfree
          have hnode₆ : (v₄.server.cleared (.directoryInfo id)).occupied (.directory id) =
              true := by
            rw [← hnode₄]
            simp [Server.occupied, Server.cleared, Server.setStructure, Server.setFd]
          have hinfo₆ : (v₄.server.cleared (.directoryInfo id)).occupied (.directoryInfo id) =
              false := by
            simp [Server.occupied, Server.cleared, Server.setStructure, Server.setFd]
          rw [(hafter₅.trans hdeleted).idFreed, hdeleted.server, hnode₆, hinfo₆] at hfreed
          rw [hfreed]
          constructor
          · rintro ⟨-, -, hid⟩
            exact .inr ⟨hempty, .inr ⟨hinformed, hnotCopied, (hdone.mp hd).1, hid⟩⟩
          · rintro (hhanded | ⟨-, hrefused | hfailed⟩)
            · exact absurd hhanded hnot
            · exact absurd hgranted hrefused.1
            · exact ⟨rfl, rfl, hfailed.2.2.2⟩
        · rw [if_neg hd] at hdeleted
          refine iff_of_false (freeOpenedFile_leaks hid (by rw [hdeleted.server]; exact hused₄)
            (by rw [hdeleted.server]; exact hinfo₄) hfree) ?_
          rintro (hhanded | ⟨-, hrefused | hfailed⟩)
          · exact hnot hhanded
          · exact hrefused.1 hgranted
          · exact hd (hdone.mpr ⟨hfailed.2.2.1, rfl⟩)
  · rw [if_pos hfailed] at hopen
    cases hopen
    rw [if_pos hfailed] at hfree
    rw [hplace] at hwhy
    have hinformed : ¬Informed w 1 .proxyDirectory id := not_informed hwhy
    have hnot : ¬HandedOut state replyAddress id w (.directory inode) :=
      fun hhanded => hinformed hhanded.1
    rw [refused_conserved hid hused hnode hwhy hafter hfree hnot]
    constructor
    · rintro ⟨hempty, hrefused, hdone⟩
      exact .inr ⟨hempty, .inl ⟨hrefused, hdone⟩⟩
    · rintro (hhanded | ⟨hempty, ⟨hrefused, hdone⟩ | hfailed⟩)
      · exact absurd hhanded hnot
      · exact ⟨hempty, hrefused, hdone⟩
      · exact absurd hfailed.1 hinformed

theorem file_conserved {result : Nat} {u : Unit} (hid : id < maxOpenDirectories)
    (hused : w.server.used .directories id = true)
    (hnode : (w.server.fds (.directory id)).isSome)
    (hsend : send .openFile replyAddress
      (returning (ipcMessage [] [⟨directoryAddress id, sizeMax⟩] 0) 0) w = some (result, w₁))
    (hfree : freeOpenedFile (directoryAddress id) w₁ = some (u, w')) :
    Conserved w'.server id False ↔ Conserves state replyAddress id w .file := by
  obtain ⟨hsent, hafter⟩ := send_after hsend
  rw [foldl_takeCapability_single (by decide) returning_capabilities, place_directory hid,
    returning_toCopy, ipcMessage_toCopy] at hafter
  have hused₁ : w₁.server.used .directories id = true := by
    rw [hafter.server]
    split
    · split <;> exact hused
    · exact hused
  have hinfo₁ : w₁.server.occupied (.directoryInfo id) =
      w.server.occupied (.directoryInfo id) := by
    rw [hafter.server]
    split
    · split
      · simp [Server.occupied, Server.setFd]
      · rfl
    · rfl
  have hnode₁ : w₁.server.occupied (.directory id) = true ↔ ¬FileTaken w replyAddress id := by
    rw [hafter.server]
    by_cases hzero : result = 0
    · obtain ⟨hreceiver, hgranted⟩ := hsent.mp hzero
      rw [if_pos hzero]
      by_cases htaken : (w.answers w.time .openFile (.send replyAddress)).taken 0 = true
      · rw [if_pos ⟨htaken, by decide⟩]
        simp [Server.occupied, Server.setFd, FileTaken, hreceiver, hgranted, htaken,
          Option.isSome_iff_ne_none]
      · rw [if_neg fun h => htaken h.1]
        exact iff_of_true (by simp [Server.occupied, hnode]) fun h => htaken h.2.2.1
    · rw [if_neg hzero]
      exact iff_of_true (by simp [Server.occupied, hnode])
        fun h => hzero (hsent.mpr ⟨h.1, h.2.1⟩)
  rw [freeOpenedFile_conserved hid hused₁ hfree, hnode₁, hinfo₁, hafter.idFreed]
  rfl

/-! The calls before. -/

theorem foldl_takeCapability_used {message : IpcMessage} {taken : Nat → Bool} {is : List Nat} :
    (is.foldl (takeCapability message taken) s).used = s.used := by
  induction is generalizing s with
  | nil => rfl
  | cons i is ih =>
      rw [List.foldl_cons, ih]
      unfold takeCapability
      split
      · rfl
      · split <;> rfl

theorem receiveCapability_used {slot : Option Nat} {fd : Option Fd} :
    (receiveCapability slot fd s).used = s.used := by
  unfold receiveCapability
  split
  · split <;> rfl
  · rfl

theorem vfsCall_used {caller : Caller} {endpoint replyEndpoint : Nat} {toSend : IpcMessage}
    {slot : Option Nat} {answer : Nat × Option Answer}
    (h : vfsCall caller endpoint replyEndpoint toSend slot w = some (answer, w')) :
    w'.server.used = w.server.used := by
  obtain ⟨sent, w₁, hsend, h⟩ := bind_some h
  have hused₁ : w₁.server.used = w.server.used := by
    rw [(send_after hsend).2.server]
    split
    · exact foldl_takeCapability_used
    · rfl
  split at h
  · cases h
    exact hused₁
  · obtain ⟨received, w₂, hreceive, h⟩ := bind_some h
    have hused₂ : w₂.server.used = w₁.server.used := by
      rw [(receive_after hreceive).2.server]
      split
      · exact receiveCapability_used
      · rfl
    split at h <;> cases h <;> exact hused₂.trans hused₁

/-- `fd_stat` moves nothing, and it asks the descriptor. -/
theorem fdStatCall_server {caller : Caller} {address replyEndpoint result : Nat}
    {stat : Option Stat}
    (h : fdStatCall caller address replyEndpoint w = some ((result, stat), w')) :
    w'.server = w.server ∧ (stat ≠ none → (w.server.fds (place address)).isSome) := by
  obtain ⟨⟨result', answer⟩, w₁, hcall, h⟩ := bind_some h
  cases h
  obtain ⟨sent, w₂, hsend, hcall⟩ := bind_some hcall
  obtain ⟨hsent, hafter⟩ := send_after hsend
  rw [foldl_takeCapability_single (show sizeMax ≠ 0 by decide) rfl, ipcMessage_toCopy] at hafter
  have hserver : w₂.server = w.server := by
    rw [hafter.server]
    split
    · exact if_neg fun h => absurd h.2 (by decide)
    · rfl
  split at hcall
  · cases hcall
    exact ⟨hserver, fun hne => absurd (ite_self _) hne⟩
  · rename_i hzero
    rw [not_not] at hzero
    obtain ⟨received, w₃, hreceive, hcall⟩ := bind_some hcall
    have hserver₃ : w₃.server = w.server := by
      rw [(receive_after hreceive).2.server, ← hserver]
      exact ite_self _
    split at hcall <;> cases hcall <;> exact ⟨hserver₃, fun _ => (hsent.mp hzero).1⟩

theorem openFileCallback_opens {fdEndpoint replyEndpoint nameAddress slot a : Nat}
    {flags mode : BitVec 8}
    (h : openFileCallback fdEndpoint replyEndpoint nameAddress flags mode slot w =
      some (a, w')) :
    (a = directoryAddress slot ∨ a = sizeMax) ∧ w'.server.used = w.server.used := by
  obtain ⟨result, w₁, hcall, h⟩ := bind_some h
  obtain ⟨⟨result', answer⟩, w₂, hcall, hpure⟩ := bind_some hcall
  cases hpure
  have hused := vfsCall_used hcall
  split at h
  · cases h
    exact ⟨.inl rfl, hused⟩
  · cases h
    exact ⟨.inr rfl, hused⟩

theorem openId_opens {fdEndpoint a : Nat} {message : IpcMessage} (htakes : w.Takes id)
    (h : openId state fdEndpoint message w = some (a, w')) :
    (a = sizeMax ∧ (w'.server.used .directories id = false ↔ id < ptrBits)) ∨
      (a = directoryAddress id ∧ a ≠ sizeMax ∧ w'.server.used .directories id = true) := by
  obtain ⟨hgranted, hfree⟩ := htakes
  obtain ⟨hid, -⟩ := firstFree_some hfree
  rcases findSlotFor_after h with ⟨-, hrefused, -⟩ | ⟨-, w₁, w₂, htaken, hcall, hafter⟩
  · exact absurd hgranted hrefused
  · rw [slotFor_eq hfree] at hcall
    obtain ⟨ha, hused⟩ := openFileCallback_opens hcall
    have hset : w₂.server.used .directories id = true := by
      rw [hused, htaken.server, Server.taking, hfree]
      simp [setUsed_used]
    have hne : directoryAddress id ≠ sizeMax :=
      nodeAddress_ne_sizeMax (show directoryNodeSlot < 2 ^ initNodeDepth by decide) hid
    rcases ha with rfl | rfl
    · rw [if_neg hne] at hafter
      exact .inr ⟨rfl, hne, by rw [hafter.server]; exact hset⟩
    · rw [if_pos rfl] at hafter
      refine .inl ⟨rfl, ?_⟩
      rw [hafter.server, Server.untaking, hfree]
      simp only [searchEnd, setUsed_used, hset]
      have hcleared : id = clearedBit (id / ptrBits) id ↔ id < ptrBits := by
        simp only [clearedBit, ptrBits]
        omega
      rw [← hcleared]
      simp

theorem fsNamespaceAt_rests {address : Nat} : Respects Rests (fsNamespaceAt address) := by
  intro w n w' h
  rw [(fsNamespaceAt_some h).1]
  exact Std.Refl.refl w

theorem mountPointAt_rests {address : Nat} : Respects Rests (mountPointAt address) := by
  intro w m w' h
  rw [(mountPointAt_some h).1]
  exact Std.Refl.refl w

theorem findInBucket_rests {inode enclosing fuel address : Nat} :
    Respects Rests (findInBucket inode enclosing fuel address) := by
  induction fuel generalizing address with
  | zero => exact .failure
  | succ fuel ih =>
      refine .ite .pure (.bind (lock_rests (by decide)) fun _ => .ite .pure ?_)
      exact .bind mountPointAt_rests fun _ => .bind (unlock_rests (by decide)) fun _ =>
        .ite .pure ih

theorem findMountPoint_rests {fuel namespaceId inode enclosing : Nat} :
    Respects Rests (findMountPoint fuel namespaceId inode enclosing) := by
  refine .bind (lock_rests (by decide)) fun _ => .ite .pure (.bind fsNamespaceAt_rests ?_)
  exact fun _ => .bind findInBucket_rests fun _ => .bind (unlock_rests (by decide)) fun _ => .pure

/-- The id that `open_file` takes is handed out or given back if and only if its calls turn
out as described above. -/
theorem openFile_conserves_iff {fuel fdEndpoint result : Nat} {info : DirectoryInfo}
    {message : IpcMessage} {opened : Opened} {v : World} (htakes : w.Takes id)
    (hopens : OpensTo fuel state fdEndpoint info message w opened v)
    (h : openFile fuel state fdEndpoint info message w = some (result, w')) :
    Conserved w'.server id (HandedOut state (fdReplyEndpoint message).address id v opened) ↔
      Conserves state (fdReplyEndpoint message).address id v opened := by
  have hid := (firstFree_some htakes.2).1
  obtain ⟨address, v₀, hopen, h⟩ := bind_some h
  cases hopens with
  | nothing hopen' =>
      cases hopen'.symm.trans hopen
      rcases openId_opens htakes hopen with ⟨-, hcleared⟩ | ⟨-, hne, -⟩
      · cases h
        rw [HandedOut, conserved_false, hcleared]
        rfl
      · exact absurd rfl hne
  | unknown hopen' hne hstat =>
      cases hopen'.symm.trans hopen
      rcases openId_opens htakes hopen with ⟨hnothing, -⟩ | ⟨rfl, -, hused⟩
      · exact absurd hnothing hne
      · rw [if_neg hne] at h
        obtain ⟨⟨r, stat⟩, v₁, hstat', h⟩ := bind_some h
        cases hstat.symm.trans hstat'
        obtain ⟨u, v₂, hfree, h⟩ := bind_some h
        cases h
        rw [← (fdStatCall_server hstat).1] at hused
        rw [HandedOut, freeOpenedFile_conserved hid hused hfree]
        rfl
  | known hopen' hne hstat hfind =>
      cases hopen'.symm.trans hopen
      rcases openId_opens htakes hopen with ⟨hnothing, -⟩ | ⟨rfl, -, hused⟩
      · exact absurd hnothing hne
      · rw [if_neg hne] at h
        obtain ⟨⟨r, stat⟩, v₁, hstat', h⟩ := bind_some h
        cases hstat.symm.trans hstat'
        obtain ⟨found, v₂, hfind', h⟩ := bind_some h
        cases hfind.symm.trans hfind'
        obtain ⟨hserver, hreceiver⟩ := fdStatCall_server hstat
        rw [← (findMountPoint_rests _ _ _ hfind).server] at hserver
        have hfd : (v.server.fds (.directory id)).isSome := by
          rw [hserver, ← place_directory hid]
          exact hreceiver (by simp)
        have hnode : v.server.occupied (.directory id) = true := by
          simp [Server.occupied, hfd]
        rw [← hserver] at hused
        split at h
        · rename_i hfound
          rw [if_pos hfound]
          obtain ⟨r', v₃, hmount, h⟩ := bind_some h
          refine openMountPoint_conserved (u := ()) hid hused hnode hmount ?_
          split at h
          · rename_i hfailed
            obtain ⟨u, v₄, hfree, h⟩ := bind_some h
            cases h
            rw [if_pos hfailed]
            exact hfree
          · rename_i hzero
            cases h
            rw [if_neg hzero]
        · rename_i hfound
          rw [if_neg hfound]
          split at h
          · rename_i hfile
            rw [if_pos hfile]
            obtain ⟨r', v₃, hsend, h⟩ := bind_some h
            obtain ⟨u, v₄, hfree, h⟩ := bind_some h
            cases h
            exact file_conserved hid hused hfd hsend hfree
          · rename_i hdirectory
            rw [if_neg hdirectory]
            obtain ⟨r', v₃, hproxy, h⟩ := bind_some h
            refine proxyDirectory_conserved (u := ()) hid hused hnode hproxy ?_
            split at h
            · rename_i hfailed
              obtain ⟨u, v₄, hfree, h⟩ := bind_some h
              cases h
              rw [if_pos hfailed]
              exact hfree
            · rename_i hzero
              cases h
              rw [if_neg hzero]

/-! A file. -/

instance : Decidable (w.Takes id) :=
  inferInstanceAs (Decidable (_ ∧ _))

/-- Every call succeeds; what is opened is a file, which the client takes or does not. -/
def opensFile (taken : Bool) : Nat → Caller → Request → Answer :=
  fun _ _ _ => ⟨0, fun _ => taken, some (.other 1), 0, 5, 0⟩

def fileMessage : IpcMessage :=
  ipcMessage [fdOpen] [⟨2, sizeMax⟩] 0

def fileInfo : DirectoryInfo :=
  ⟨0, false, 0, sizeMax⟩

/-- The file is opened in a new namespace. -/
theorem opensFile_run (taken : Bool) : ∃ w v w', w.Takes 0 ∧
    OpensTo 1 mainState 2 fileInfo fileMessage w .file v ∧
    openFile 1 mainState 2 fileInfo fileMessage w = some (0, w') ∧
    w'.server.used .directories 0 = taken := by
  have hrun : ((allocNamespace (Server.initial.world (opensFile taken))).bind fun allocated =>
      (openId mainState 2 fileMessage allocated.2).bind fun descriptor =>
        (fdStatCall .openFile descriptor.1
          (threadStorageSlot mainState.threadId replyEndpointSlot) descriptor.2).bind fun called =>
            called.1.2.bind fun stat =>
              (findMountPoint 1 0 stat.inode sizeMax called.2).bind fun found =>
                (openFile 1 mainState 2 fileInfo fileMessage allocated.2).map fun opened =>
                  (decide (allocated.2.Takes 0 ∧ descriptor.1 ≠ sizeMax ∧ ¬found.1 ≠ sizeMax),
                    isDirectory stat.mode, opened.1, opened.2.server.used .directories 0)) =
      some (true, false, 0, taken) := by
    cases taken <;> decide +kernel
  simp only [Option.bind_eq_some_iff, Option.map_eq_some_iff] at hrun
  obtain ⟨⟨a, w⟩, -, ⟨address, v⟩, hopen, ⟨⟨r, stat'⟩, v₁⟩, hstat, stat, rfl, ⟨found, v₂⟩, hfind,
    ⟨result, w'⟩, hfile, heq⟩ := hrun
  simp only [Prod.mk.injEq, decide_eq_true_eq] at heq
  obtain ⟨⟨htakes, hne, hfound⟩, hmode, rfl, hused⟩ := heq
  have hopens : OpensTo 1 mainState 2 fileInfo fileMessage w _ v₂ :=
    .known hopen hne hstat hfind
  rw [if_neg hfound, if_pos (by rw [hmode]; rfl)] at hopens
  exact ⟨w, v₂, w', htakes, hopens, hfile, hused⟩

theorem openFile_conserves_iff_file : ∃ w v w', w.Takes 0 ∧
    openFile 1 mainState 2 fileInfo fileMessage w = some (0, w') ∧
    (Conserved w'.server 0 (HandedOut mainState 2 0 v .file) ↔
      Conserves mainState 2 0 v .file) := by
  obtain ⟨w, v, w', htakes, hopens, hfile, -⟩ := opensFile_run false
  exact ⟨w, v, w', htakes, hfile, openFile_conserves_iff htakes hopens hfile⟩

/-- A file that the client takes costs the server an id. -/
theorem openFile_leaks_id : ¬ ∀ {fuel fdEndpoint result id : Nat} {state : State}
    {info : DirectoryInfo} {message : IpcMessage} {opened : Opened} {w v w' : World},
    w.Takes id → OpensTo fuel state fdEndpoint info message w opened v →
    openFile fuel state fdEndpoint info message w = some (result, w') →
    Conserved w'.server id
      (HandedOut state (fdReplyEndpoint message).address id v opened) := by
  intro hconserves
  obtain ⟨w, v, w', htakes, hopens, hfile, hused⟩ := opensFile_run true
  exact (hconserves htakes hopens hfile).used.mp hused

end Cenix.Vfs
