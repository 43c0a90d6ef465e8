import Cenix.Vfs.Main
import Cenix.Programs.Triple
import Cenix.Runs

namespace Cenix.Vfs

open Programs

/-! Which slots for received capabilities the functions of the server fill. -/

/-- The slots that `main_loop` receives into. -/
def ReceiveSlot (p : Place) : Prop :=
  ∃ i < ipcCapabilitySlots, p = .storage mainState.threadId i

/-- No slot for received capabilities is filled. -/
structure Drains (w w' : World) : Prop where
  answers : w'.answers = w.answers
  stays : ∀ p, ReceiveSlot p → w.server.fds p = none → w'.server.fds p = none

variable {w w' : World} {α : Type}

instance : Std.Refl Drains where
  refl _ := ⟨rfl, fun _ _ h => h⟩

instance : IsTrans World Drains where
  trans _ _ _ h h' :=
    ⟨h'.answers.trans h.answers, fun p hp hnone => h'.stays p hp (h.stays p hp hnone)⟩

theorem drains_of (hanswers : w'.answers = w.answers) (hfds : w'.server.fds = w.server.fds) :
    Drains w w' :=
  ⟨hanswers, fun p _ h => by rw [hfds, h]⟩

/-! System calls. -/

theorem ask_drains {caller : Caller} {request : Request} :
    Respects Drains (ask caller request) := by
  intro w answer w' h
  cases h
  exact drains_of rfl rfl

theorem record_drains {event : Event} : Respects Drains (record event) := by
  intro w u w' h
  cases h
  exact drains_of rfl rfl

theorem getServer_drains : Respects Drains getServer := by
  intro w s w' h
  cases h
  exact drains_of rfl rfl

theorem modifyServer_drains {f : Server → Server}
    (hf : ∀ s p, ReceiveSlot p → s.fds p = none → (f s).fds p = none) :
    Respects Drains (modifyServer f) := by
  intro w u w' h
  cases h
  exact ⟨rfl, hf w.server⟩

theorem modifyOther_drains {f : Server → Server} (hf : ∀ s, (f s).fds = s.fds) :
    Respects Drains (modifyServer f) :=
  modifyServer_drains fun s p _ h => by rw [hf, h]

theorem onlyIf_drains {c : Prop} [Decidable c] {x : Vfs Unit} (h : Respects Drains x) :
    Respects Drains (onlyIf c x) :=
  .ite h .pure

theorem setFd_none {s : Server} {p q : Place} (h : s.fds p = none) :
    (s.setFd q none).fds p = none := by
  simp only [Server.setFd, Function.update_apply]
  split
  · rfl
  · exact h

theorem setFd_of_ne {s : Server} {p q : Place} {fd : Option Fd} (h : s.fds p = none)
    (hne : p ≠ q) : (s.setFd q fd).fds p = none := by
  simp only [Server.setFd, Function.update_of_ne hne, h]

theorem structureAt_drains {address : Nat} : Respects Drains (structureAt address) := by
  intro w a w' h
  simp only [structureAt, Option.map_eq_some_iff, Prod.mk.injEq] at h
  obtain ⟨_, _, _, rfl⟩ := h
  exact drains_of rfl rfl

theorem lock_drains {caller : Caller} {address : Nat} :
    Respects Drains (lock caller address) :=
  .bind ask_drains fun _ => .bind record_drains fun _ => .pure

theorem unlock_drains {caller : Caller} {address : Nat} :
    Respects Drains (unlock caller address) :=
  record_drains

theorem allocUntyped_drains {caller : Caller} {address : Nat} :
    Respects Drains (allocUntyped caller address) :=
  .bind ask_drains fun _ => .bind getServer_drains fun _ => .ite .pure (.ite .pure
    (.bind (modifyOther_drains fun _ => rfl) fun _ => .pure))

theorem allocListNode_drains {caller : Caller} {index : Nat} :
    Respects Drains (allocListNode caller index) :=
  .bind ask_drains fun _ => .bind getServer_drains fun _ => .ite .pure (.ite .failure
    (.bind (modifyOther_drains fun _ => rfl) fun _ => .pure))

theorem nodeDelete_drains {caller : Caller} {node slot : Nat} :
    Respects Drains (nodeDelete caller node slot) :=
  .bind ask_drains fun _ => .bind getServer_drains fun _ => .bind record_drains fun _ =>
    .bind (onlyIf_drains (modifyServer_drains fun _ _ _ h => setFd_none h)) fun _ => .pure

theorem storageDelete_drains {caller : Caller} {threadId slot : Nat} :
    Respects Drains (storageDelete caller threadId slot) :=
  .bind ask_drains fun _ => .bind getServer_drains fun _ => .bind record_drains fun _ =>
    .bind (onlyIf_drains (modifyServer_drains fun _ _ _ h => setFd_none h)) fun _ => .pure

theorem copyEndpoint_drains {caller : Caller} {threadId slot badge : Nat}
    (hslot : ipcCapabilitySlots ≤ slot) :
    Respects Drains (copyEndpoint caller threadId slot badge) := by
  refine .bind ask_drains fun _ => .bind getServer_drains fun _ => .ite .pure (.ite .pure
    (.bind (modifyServer_drains fun s p hp h => setFd_of_ne h ?_) fun _ => .pure))
  obtain ⟨i, hi, rfl⟩ := hp
  intro heq
  cases heq
  omega

theorem moveIntoList_drains {caller : Caller} {source index slot : Nat} :
    Respects Drains (moveIntoList caller source index slot) := by
  refine .bind ask_drains fun _ => .bind getServer_drains fun _ => .ite .pure (.ite .pure
    (.ite .pure (.ite .pure (.bind (modifyServer_drains fun s p hp h => ?_) fun _ => .pure))))
  obtain ⟨i, _, rfl⟩ := hp
  exact setFd_of_ne (setFd_none h) nofun

theorem takeCapability_fds {message : IpcMessage} {taken : Nat → Bool} {s : Server} {i : Nat}
    {p : Place} (h : s.fds p = none) : (takeCapability message taken s i).fds p = none := by
  unfold takeCapability
  cases message.capabilities[i]? with
  | none => exact h
  | some capability =>
      simp only
      split
      · exact setFd_none h
      · exact h

theorem foldl_takeCapability_fds {message : IpcMessage} {taken : Nat → Bool} {is : List Nat}
    {s : Server} {p : Place} (h : s.fds p = none) :
    (is.foldl (takeCapability message taken) s).fds p = none := by
  induction is generalizing s with
  | nil => exact h
  | cons i is ih => exact ih (takeCapability_fds h)

theorem send_drains {caller : Caller} {address : Nat} {message : IpcMessage} :
    Respects Drains (send caller address message) :=
  .bind ask_drains fun _ => .bind getServer_drains fun _ => .bind record_drains fun _ =>
    .bind (onlyIf_drains (modifyServer_drains fun _ _ _ h => foldl_takeCapability_fds h))
      fun _ => .pure

theorem receive_drains {caller : Caller} {address : Nat} {slot : Option Nat}
    (hslot : ∀ a, slot = some a → ¬ ReceiveSlot (place a)) :
    Respects Drains (receive caller address slot) := by
  refine .bind ask_drains fun answer => .bind (onlyIf_drains (modifyServer_drains ?_))
    fun _ => .pure
  intro s p hp h
  unfold receiveCapability
  cases slot with
  | none => exact h
  | some a =>
      cases answer.fd with
      | none => exact h
      | some fd =>
          simp only
          split
          · exact h
          · exact setFd_of_ne h fun heq => hslot a rfl (heq ▸ hp)

theorem writeStructure_drains {address : Nat} {structure' : Structure} :
    Respects Drains (writeStructure address structure') :=
  .bind structureAt_drains fun _ => modifyOther_drains fun _ => rfl

theorem processDataAt_drains {address : Nat} : Respects Drains (processDataAt address) := by
  refine .bind structureAt_drains fun structure' => ?_
  cases structure' <;> first | exact .pure | exact .failure

theorem directoryInfoAt_drains {address : Nat} : Respects Drains (directoryInfoAt address) := by
  refine .bind structureAt_drains fun structure' => ?_
  cases structure' <;> first | exact .pure | exact .failure

theorem mountPointAt_drains {address : Nat} : Respects Drains (mountPointAt address) := by
  refine .bind structureAt_drains fun structure' => ?_
  cases structure' <;> first | exact .pure | exact .failure

theorem listInfoAt_drains {address : Nat} : Respects Drains (listInfoAt address) := by
  refine .bind structureAt_drains fun structure' => ?_
  cases structure' <;> first | exact .pure | exact .failure

theorem fsNamespaceAt_drains {address : Nat} : Respects Drains (fsNamespaceAt address) := by
  refine .bind structureAt_drains fun structure' => ?_
  cases structure' <;> first | exact .pure | exact .failure

/-! Structures and lists. -/

theorem findSlotFor_drains {ids : Ids} {maxItems : Nat} {fn : Nat → Vfs Nat}
    (hfn : ∀ id, Respects Drains (fn id)) :
    Respects Drains (findSlotFor ids maxItems fn) := by
  refine .bind lock_drains fun _ => .ite .pure (.bind getServer_drains fun _ => ?_)
  refine .bind (onlyIf_drains (modifyOther_drains fun _ => rfl)) fun _ => ?_
  exact .bind (hfn _) fun _ => .bind (onlyIf_drains (modifyOther_drains fun _ => rfl))
    fun _ => .bind unlock_drains fun _ => .pure

theorem markSlotUnused_drains {ids : Ids} {maxItems slotNumber : Nat} :
    Respects Drains (markSlotUnused ids maxItems slotNumber) :=
  .bind lock_drains fun _ => .ite
    (.bind (onlyIf_drains (modifyOther_drains fun _ => rfl)) fun _ => unlock_drains) .pure

theorem allocStructure_drains {ids : Ids} {node maxItems : Nat} :
    Respects Drains (allocStructure ids node maxItems) :=
  findSlotFor_drains fun _ => .bind allocUntyped_drains fun _ => .ite .pure .pure

theorem freeStructure_drains {ids : Ids} {node maxItems address : Nat} :
    Respects Drains (freeStructure ids node maxItems address) :=
  .bind nodeDelete_drains fun _ => .ite markSlotUnused_drains .pure

theorem createMountedListEntry_drains : Respects Drains createMountedListEntry := by
  refine .bind allocStructure_drains fun _ => .ite .pure (.bind lock_drains fun _ => .ite ?_ ?_)
  · exact .bind freeStructure_drains fun _ => .pure
  · refine .bind writeStructure_drains fun _ => .bind unlock_drains fun _ =>
      .bind allocListNode_drains fun _ => .ite ?_ .pure
    exact .bind freeStructure_drains fun _ => .pure

theorem insertIntoEntry_drains {index directoryFd : Nat} {mountFlags : BitVec 8}
    {info : MountedListInfo} :
    Respects Drains (insertIntoEntry index directoryFd mountFlags info) :=
  .bind moveIntoList_drains fun _ => .bind (onlyIf_drains writeStructure_drains)
    fun _ => .pure

theorem nextEntry_drains {index : Nat} {info : MountedListInfo} :
    Respects Drains (nextEntry index info) :=
  .ite (.bind createMountedListEntry_drains fun _ => .bind writeStructure_drains
    fun _ => .pure) .pure

theorem mountedListInsert_drains {directoryFd : Nat} {mountFlags : BitVec 8}
    {fuel index : Nat} :
    Respects Drains (mountedListInsert directoryFd mountFlags fuel index) := by
  induction fuel generalizing index with
  | zero => exact .failure
  | succ fuel ih =>
      refine .ite .pure (.bind lock_drains fun _ => .ite .pure ?_)
      refine .bind listInfoAt_drains fun _ => .ite ?_ ?_
      · exact .bind nextEntry_drains fun _ => .bind unlock_drains fun _ => .ite .pure ih
      · exact .bind insertIntoEntry_drains fun _ => .bind unlock_drains fun _ => .pure

theorem iterateOverSlots_drains {fn : Nat → Bool → Vfs (Option Nat)}
    (hfn : ∀ a flag, Respects Drains (fn a flag)) {index : Nat} {info : MountedListInfo}
    {is : List Nat} : Respects Drains (iterateOverSlots index info fn is) := by
  induction is with
  | nil => exact .pure
  | cons i is ih =>
      refine .ite ih (.bind (hfn _ _) fun found => ?_)
      cases found with
      | none => exact ih
      | some result => exact .pure

theorem iterateOverMountedList_drains {fn : Nat → Bool → Vfs (Option Nat)}
    (hfn : ∀ a flag, Respects Drains (fn a flag)) {fuel index : Nat} :
    Respects Drains (iterateOverMountedList fn fuel index) := by
  induction fuel generalizing index with
  | zero => exact .failure
  | succ fuel ih =>
      refine .ite .pure (.bind lock_drains fun _ => .ite .failure ?_)
      refine .bind listInfoAt_drains fun info => .bind (iterateOverSlots_drains hfn)
        fun found => .bind unlock_drains fun _ => ?_
      cases found with
      | none => exact ih
      | some result => exact .pure

theorem iterateOverMountPoint_drains {fn : Nat → Bool → Vfs (Option Nat)}
    (hfn : ∀ a flag, Respects Drains (fn a flag)) {fuel address : Nat} :
    Respects Drains (iterateOverMountPoint fuel address fn) :=
  .bind lock_drains fun _ => .ite .pure (.bind mountPointAt_drains fun _ =>
    .bind (iterateOverMountedList_drains hfn) fun _ => .bind unlock_drains fun _ => .pure)

/-! Namespaces. -/

theorem allocNamespace_drains : Respects Drains allocNamespace := by
  refine .bind allocStructure_drains fun _ => .ite .pure (.bind lock_drains fun _ => .ite ?_ ?_)
  · exact .bind freeStructure_drains fun _ => .pure
  · exact .bind writeStructure_drains fun _ => .bind unlock_drains fun _ => .pure

theorem freeNamespace_drains {id : Nat} : Respects Drains (freeNamespace id) := by
  refine .bind lock_drains fun _ => .ite (.bind fsNamespaceAt_drains fun _ => .ite ?_ ?_) .pure
  · exact .bind unlock_drains fun _ => freeStructure_drains
  · exact .bind writeStructure_drains fun _ => unlock_drains

theorem linkMountPoint_drains {namespaceAddress mountPointAddress : Nat}
    {mountPoint : MountPoint} :
    Respects Drains (linkMountPoint namespaceAddress mountPointAddress mountPoint) := by
  refine .bind fsNamespaceAt_drains fun _ => .ite ?_ (.ite ?_ ?_)
  · exact .bind writeStructure_drains fun _ => .pure
  · exact .bind writeStructure_drains fun _ => .pure
  · refine .bind lock_drains fun _ => .ite .pure (.bind mountPointAt_drains fun _ => ?_)
    refine .bind writeStructure_drains fun _ => .bind unlock_drains fun _ => ?_
    exact .bind writeStructure_drains fun _ => .bind writeStructure_drains fun _ => .pure

theorem addMountPointToNamespace_drains {namespaceAddress : Nat} {mountPoint : MountPoint} :
    Respects Drains (addMountPointToNamespace namespaceAddress mountPoint) := by
  refine .bind allocStructure_drains fun _ => .ite .pure (.bind lock_drains fun _ => .ite ?_ ?_)
  · exact .bind freeStructure_drains fun _ => .pure
  · refine .bind writeStructure_drains fun _ => .bind linkMountPoint_drains fun _ => .ite ?_ ?_
    · exact .bind freeStructure_drains fun _ => .pure
    · exact .bind unlock_drains fun _ => .pure

theorem findInBucket_drains {inode enclosing fuel address : Nat} :
    Respects Drains (findInBucket inode enclosing fuel address) := by
  induction fuel generalizing address with
  | zero => exact .failure
  | succ fuel ih =>
      refine .ite .pure (.bind lock_drains fun _ => .ite .pure ?_)
      exact .bind mountPointAt_drains fun _ => .bind unlock_drains fun _ => .ite .pure ih

theorem findMountPoint_drains {fuel namespaceId inode enclosing : Nat} :
    Respects Drains (findMountPoint fuel namespaceId inode enclosing) := by
  refine .bind lock_drains fun _ => .ite .pure (.bind fsNamespaceAt_drains fun _ => ?_)
  exact .bind findInBucket_drains fun _ => .bind unlock_drains fun _ => .pure

theorem mount_drains {fuel directoryFd : Nat} {info : DirectoryInfo} {flags : BitVec 8} :
    Respects Drains (mount fuel info directoryFd flags) := by
  refine .ite .pure (.bind lock_drains fun _ => .ite .pure ?_)
  refine .bind createMountedListEntry_drains fun _ => .ite (.bind unlock_drains fun _ => .pure) ?_
  refine .bind mountedListInsert_drains fun _ => .ite (.bind unlock_drains fun _ => .pure) ?_
  exact .bind addMountPointToNamespace_drains fun _ => .bind unlock_drains fun _ => .pure

/-! Messages. -/

theorem reply_drains {caller : Caller} {replyCapability value : Nat} :
    Respects Drains (reply caller replyCapability value) :=
  .bind send_drains fun _ => .pure

theorem returnValue_drains {replyCapability value : Nat} :
    Respects Drains (returnValue replyCapability value) :=
  reply_drains

theorem vfsCall_drains {caller : Caller} {endpoint replyEndpoint : Nat} {toSend : IpcMessage}
    {slot : Option Nat} (hslot : ∀ a, slot = some a → ¬ ReceiveSlot (place a)) :
    Respects Drains (vfsCall caller endpoint replyEndpoint toSend slot) :=
  .bind send_drains fun _ => .ite .pure (.bind (receive_drains hslot) fun _ =>
    .ite .pure .pure)

theorem openFileCallback_drains {fdEndpoint replyEndpoint nameAddress slot : Nat}
    {flags mode : BitVec 8} :
    Respects Drains (openFileCallback fdEndpoint replyEndpoint nameAddress flags mode slot) := by
  refine .bind (.bind (vfsCall_drains ?_) fun _ => .pure) fun _ => .ite .pure .pure
  rintro a ha ⟨i, _, hp⟩
  cases ha
  rw [place_directoryAddress] at hp
  cases hp

theorem fdStatCall_drains {caller : Caller} {fdAddress replyEndpoint : Nat} :
    Respects Drains (fdStatCall caller fdAddress replyEndpoint) :=
  .bind (vfsCall_drains nofun) fun _ => .pure

section Handlers

variable {state : State} (hstate : ipcCapabilitySlots ≤ state.tempSlot)

include hstate

theorem badgeAndSend_drains {caller : Caller} {badge replyAddress : Nat} :
    Respects Drains (badgeAndSend caller state badge replyAddress) :=
  .bind (copyEndpoint_drains hstate) fun _ => .ite .pure (.bind send_drains fun _ =>
    .bind storageDelete_drains fun _ => .pure)

theorem openMountPoint_drains {openedFileAddress mountPointAddress inode replyAddress : Nat}
    {info : DirectoryInfo} :
    Respects Drains (openMountPoint state openedFileAddress mountPointAddress info inode
      replyAddress) := by
  refine .bind allocUntyped_drains fun _ => .ite .pure (.bind nodeDelete_drains fun _ =>
    .bind lock_drains fun _ => .ite .pure ?_)
  exact .bind writeStructure_drains fun _ => .bind unlock_drains fun _ =>
    badgeAndSend_drains hstate

theorem proxyDirectory_drains {openedFileAddress inode replyAddress : Nat}
    {info : DirectoryInfo} :
    Respects Drains (proxyDirectory state openedFileAddress info inode replyAddress) := by
  refine .bind allocUntyped_drains fun _ => .ite .pure (.bind lock_drains fun _ => .ite
    (.bind nodeDelete_drains fun _ => .pure) ?_)
  refine .bind writeStructure_drains fun _ => .bind unlock_drains fun _ =>
    .bind (badgeAndSend_drains hstate) fun _ => .bind (onlyIf_drains ?_) fun _ => .pure
  exact .bind nodeDelete_drains fun _ => .pure

theorem openFile_drains {fuel fdEndpoint : Nat} {info : DirectoryInfo} {message : IpcMessage} :
    Respects Drains (openFile fuel state fdEndpoint info message) := by
  refine .bind (findSlotFor_drains fun _ => openFileCallback_drains) fun _ => .ite .pure ?_
  refine .bind fdStatCall_drains fun called => ?_
  obtain ⟨result, stat⟩ := called
  cases stat with
  | none => exact .bind freeStructure_drains fun _ => .pure
  | some stat =>
      refine .bind findMountPoint_drains fun _ => .ite ?_ (.ite ?_ ?_)
      · exact .bind (openMountPoint_drains hstate) fun _ => .ite
          (.bind freeStructure_drains fun _ => .pure) .pure
      · exact .bind send_drains fun _ => .bind freeStructure_drains fun _ => .pure
      · exact .bind (proxyDirectory_drains hstate) fun _ => .ite
          (.bind freeStructure_drains fun _ => .pure) .pure

theorem directoryOpen_drains {fuel directoryId : Nat} {message : IpcMessage} :
    Respects Drains (directoryOpen fuel state directoryId message) := by
  refine .bind lock_drains fun _ => .ite returnValue_drains ?_
  exact .bind directoryInfoAt_drains fun _ => .bind (openFile_drains hstate) fun _ =>
    .bind unlock_drains fun _ => onlyIf_drains returnValue_drains

theorem openRoot_drains {badge replyCapability namespaceId : Nat} :
    Respects Drains (openRoot state badge replyCapability namespaceId) := by
  refine .bind lock_drains fun _ => .ite .pure (.bind allocStructure_drains fun _ =>
    .ite .pure (.bind lock_drains fun _ => .ite ?_ ?_))
  · exact .bind freeStructure_drains fun _ => .pure
  · refine .bind fsNamespaceAt_drains fun _ => .bind writeStructure_drains fun _ =>
      .bind unlock_drains fun _ => .bind (badgeAndSend_drains hstate) fun _ => .ite ?_ ?_
    · exact .bind freeStructure_drains fun _ => .pure
    · exact .bind unlock_drains fun _ => .pure

theorem openPass_drains {fuel mountPointAddress : Nat} {info : DirectoryInfo}
    {message : IpcMessage} {allowCreate : Bool} :
    Respects Drains (openPass fuel state mountPointAddress info message allowCreate) :=
  iterateOverMountPoint_drains fun _ _ => .ite .pure
    (.bind (openFile_drains hstate) fun _ => .pure)

theorem openPasses_drains {fuel mountPointAddress : Nat} {info : DirectoryInfo}
    {message : IpcMessage} :
    Respects Drains (openPasses fuel state mountPointAddress info message) :=
  .ite (openPass_drains hstate) (.bind unlock_drains fun _ =>
    .bind (openPass_drains hstate) fun _ => .ite (openPass_drains hstate) .pure)

theorem mountPointOpen_drains {fuel : Nat} {info : DirectoryInfo} {message : IpcMessage} :
    Respects Drains (mountPointOpen fuel state info message) := by
  refine .bind lock_drains fun _ => .ite (.bind returnValue_drains fun _ => .failure) ?_
  exact .bind mountPointAt_drains fun _ => .bind (openPasses_drains hstate) fun _ =>
    onlyIf_drains returnValue_drains

omit hstate in
theorem linkInMountPoint_drains {fuel : Nat} {info : DirectoryInfo}
    {message toSend : IpcMessage} {requiresCreateFlag : Bool} :
    Respects Drains (linkInMountPoint fuel info message toSend requiresCreateFlag) := by
  refine .bind (iterateOverMountPoint_drains fun _ _ => ?_) fun _ => returnValue_drains
  exact .ite .pure (.bind (vfsCall_drains nofun) fun _ => .pure)

omit hstate in
theorem fixUpMountPointAddress_drains {infoAddress : Nat} {info : DirectoryInfo} :
    Respects Drains (fixUpMountPointAddress infoAddress info) := by
  refine .ite (.bind lock_drains fun _ => .ite ?_ .pure) .pure
  exact .bind fsNamespaceAt_drains fun _ => .bind (onlyIf_drains writeStructure_drains)
    fun _ => .bind unlock_drains fun _ => .pure

theorem mountPointCall_drains {fuel : Nat} {info : DirectoryInfo} {message : IpcMessage} :
    Respects Drains (mountPointCall fuel state info message) := by
  refine .ite returnValue_drains (.ite (.bind send_drains fun _ => .pure) (.ite
    linkInMountPoint_drains (.ite linkInMountPoint_drains (.ite (mountPointOpen_drains hstate)
      (.ite returnValue_drains (.ite ?_ (.ite returnValue_drains returnValue_drains)))))))
  exact .bind mount_drains fun _ => reply_drains

theorem handleMountPointMessage_drains {fuel : Nat} {message : IpcMessage} :
    Respects Drains (handleMountPointMessage fuel state message) :=
  .bind lock_drains fun _ => .ite returnValue_drains (.bind directoryInfoAt_drains fun _ =>
    .bind fixUpMountPointAddress_drains fun _ => .bind (mountPointCall_drains hstate)
      fun _ => unlock_drains)

omit hstate in
theorem namespaceForProcess_drains {creatorPid : Nat} {flags : BitVec 8} :
    Respects Drains (namespaceForProcess creatorPid flags) := by
  refine .ite (.bind lock_drains fun _ => .ite .pure ?_) ?_
  · refine .bind processDataAt_drains fun _ => .bind unlock_drains fun _ =>
      .bind lock_drains fun _ => .ite .pure (.bind fsNamespaceAt_drains fun _ => ?_)
    exact .bind writeStructure_drains fun _ => .bind unlock_drains fun _ => .pure
  · exact .bind allocNamespace_drains fun _ => .ite .pure .pure

theorem fillProcessData_drains {newPid replyAddress fsNamespace : Nat} {flags : BitVec 8}
    {force : Bool} :
    Respects Drains (fillProcessData state newPid flags replyAddress fsNamespace force) := by
  refine .bind lock_drains fun _ => .ite ?_ ?_
  · exact .bind freeNamespace_drains fun _ => .bind nodeDelete_drains fun _ => .pure
  · refine .bind writeStructure_drains fun _ => .bind unlock_drains fun _ =>
      .bind (openRoot_drains hstate) fun _ => .bind (onlyIf_drains ?_) fun _ => .pure
    exact .bind freeNamespace_drains fun _ => .bind nodeDelete_drains fun _ => .pure

theorem setUpFilesystemForProcess_drains {creatorPid newPid replyAddress : Nat}
    {flags : BitVec 8} :
    Respects Drains
      (setUpFilesystemForProcess state creatorPid newPid flags replyAddress) := by
  refine .bind namespaceForProcess_drains fun prepared => ?_
  cases prepared with
  | error result => exact .pure
  | ok shared =>
      exact .bind allocUntyped_drains fun _ => .ite
        (.bind freeNamespace_drains fun _ => .pure) (fillProcessData_drains hstate)

theorem handleVfsMessage_drains {message : IpcMessage} :
    Respects Drains (handleVfsMessage state message) :=
  .ite (.bind (setUpFilesystemForProcess_drains hstate) fun _ =>
    onlyIf_drains reply_drains) reply_drains

end Handlers

end Cenix.Vfs
