import Cenix.Vfs.Descriptors

namespace Cenix.Vfs

open Programs

/-! Which functions leave permissions and descriptors alone. -/

theorem AddressIn.bearsPermission {node maxItems address : Nat}
    (h : AddressIn node maxItems address) (hne : address ≠ sizeMax)
    (hslot : node < 2 ^ initNodeDepth)
    (hnode : ∀ id, bearsPermission (nodePlace node id) = false) :
    bearsPermission (place address) = false := by
  obtain ⟨id, hid⟩ := h.inNode hslot hne
  rw [hid]
  exact hnode id

/-! Mounted lists. -/

theorem createMountedListEntry_still : Respects Still createMountedListEntry := by
  refine .bind_of allocStructure_still (allocStructure_yields (by decide)) fun a ha => ?_
  refine .ite' (fun _ => .pure) fun hne => ?_
  have hplace := ha.bearsPermission hne (by decide) fun _ => rfl
  refine .bind (lock_still rfl) fun _ => .ite ?_ ?_
  · exact .bind (freeStructure_still fun _ => rfl) fun _ => .pure
  · refine .bind (writeStructure_still hplace) fun _ => .bind unlock_still fun _ =>
      .bind allocListNode_still fun _ => .ite ?_ .pure
    exact .bind (freeStructure_still fun _ => rfl) fun _ => .pure

theorem insertIntoEntry_still {index directoryFd : Nat} {mountFlags : BitVec 8}
    {info : MountedListInfo} :
    Respects Still (insertIntoEntry index directoryFd mountFlags info) := by
  refine .bind moveIntoList_still fun _ => .bind (onlyIf_still ?_) fun _ => .pure
  exact writeStructure_still (by rw [place_mountedListInfoAddress]; rfl)

theorem nextEntry_still {index : Nat} {info : MountedListInfo} :
    Respects Still (nextEntry index info) := by
  refine .ite (.bind createMountedListEntry_still fun _ => .bind ?_ fun _ => .pure) .pure
  exact writeStructure_still (by rw [place_mountedListInfoAddress]; rfl)

theorem mountedListInsert_still {directoryFd : Nat} {mountFlags : BitVec 8} {fuel index : Nat} :
    Respects Still (mountedListInsert directoryFd mountFlags fuel index) := by
  induction fuel generalizing index with
  | zero => exact .failure
  | succ fuel ih =>
      refine .ite .pure (.bind (lock_still rfl) fun _ => .ite .pure ?_)
      refine .bind listInfoAt_still fun _ => .ite ?_ ?_
      · exact .bind nextEntry_still fun _ => .bind unlock_still fun _ => .ite .pure ih
      · exact .bind insertIntoEntry_still fun _ => .bind unlock_still fun _ => .pure

section Iterate

variable {R : World → World → Prop} [Std.Refl R] [IsTrans World R] {fn : Nat → Bool → Vfs (Option Nat)}

theorem iterateOverSlots_respects (hfn : ∀ a flag, Respects R (fn a flag)) {index : Nat}
    {info : MountedListInfo} {is : List Nat} :
    Respects R (iterateOverSlots index info fn is) := by
  induction is with
  | nil => exact .pure
  | cons i is ih =>
      refine .ite ih (.bind (hfn _ _) fun found => ?_)
      cases found with
      | none => exact ih
      | some result => exact .pure

theorem iterateOverMountedList_respects (hstill : ∀ w w', Still w w' → R w w')
    (hfn : ∀ a flag, Respects R (fn a flag)) {fuel index : Nat} :
    Respects R (iterateOverMountedList fn fuel index) := by
  induction fuel generalizing index with
  | zero => exact .failure
  | succ fuel ih =>
      refine .ite .pure (.bind ((lock_still rfl).mono hstill) fun _ => .ite .failure ?_)
      refine .bind (listInfoAt_still.mono hstill) fun info =>
        .bind (iterateOverSlots_respects hfn) fun found =>
          .bind (unlock_still.mono hstill) fun _ => ?_
      cases found with
      | none => exact ih
      | some result => exact .pure

theorem iterateOverMountPoint_respects (hstill : ∀ w w', Still w w' → R w w')
    (hfn : ∀ a flag, Respects R (fn a flag)) {fuel address : Nat} :
    Respects R (iterateOverMountPoint fuel address fn) :=
  .bind ((lock_still rfl).mono hstill) fun _ => .ite .pure
    (.bind (mountPointAt_still.mono hstill) fun _ =>
      .bind (iterateOverMountedList_respects hstill hfn) fun _ =>
        .bind (unlock_still.mono hstill) fun _ => .pure)

end Iterate

/-! Namespaces. -/

theorem allocNamespace_still : Respects Still allocNamespace := by
  refine .bind_of allocStructure_still (allocStructure_yields (by decide)) fun a ha => ?_
  refine .ite' (fun _ => .pure) fun hne => ?_
  have hplace := ha.bearsPermission hne (by decide) fun _ => rfl
  refine .bind (lock_still rfl) fun _ => .ite ?_ ?_
  · exact .bind (freeStructure_still fun _ => rfl) fun _ => .pure
  · exact .bind (writeStructure_still hplace) fun _ => .bind unlock_still fun _ => .pure

theorem namespace_bearsPermission {id : Nat} :
    bearsPermission (place (namespaceAddress id)) = false := by
  rw [place_namespaceAddress]
  rfl

theorem freeNamespace_still {id : Nat} : Respects Still (freeNamespace id) := by
  refine .bind (lock_still rfl) fun _ => .ite (.bind fsNamespaceAt_still fun _ => .ite ?_ ?_) .pure
  · exact .bind unlock_still fun _ => freeStructure_still fun _ => rfl
  · exact .bind (writeStructure_still namespace_bearsPermission) fun _ => unlock_still

/-- A mount point is written over. -/
theorem overwrite_still {α : Type} {address : Nat} {f : MountPoint → MountPoint}
    {g : MountPoint → Vfs α} (hg : ∀ m, Respects Still (g m)) :
    Respects Still (mountPointAt address >>= fun m =>
      writeStructure address (.mountPoint (f m)) >>= fun _ => g m) := by
  intro w a w' h
  obtain ⟨m, w₁, hread, h⟩ := bind_some h
  obtain ⟨u, w₂, hwrite, h⟩ := bind_some h
  obtain ⟨rfl, hat⟩ := mountPointAt_some hread
  obtain ⟨old, w₃, hold, hmodify⟩ := bind_some hwrite
  obtain ⟨rfl, -⟩ := structureAt_some hold
  cases hmodify
  refine IsTrans.trans _ _ _ ?_ (hg m _ _ _ h)
  refine still_of rfl fun p => setStructure_permission ?_
  rw [hat, permission_mountPoint]

theorem linkMountPoint_still {namespaceAddress mountPointAddress : Nat} {mountPoint : MountPoint}
    (hspace : bearsPermission (place namespaceAddress) = false)
    (hpoint : bearsPermission (place mountPointAddress) = false) :
    Respects Still (linkMountPoint namespaceAddress mountPointAddress mountPoint) := by
  refine .bind fsNamespaceAt_still fun _ => .ite ?_ (.ite ?_ ?_)
  · exact .bind (writeStructure_still hspace) fun _ => .pure
  · exact .bind (writeStructure_still hspace) fun _ => .pure
  · refine .bind (lock_still rfl) fun _ => .ite .pure (overwrite_still fun _ => ?_)
    refine .bind unlock_still fun _ => .bind (writeStructure_still hpoint) fun _ => ?_
    exact .bind (writeStructure_still hspace) fun _ => .pure

theorem addMountPointToNamespace_still {namespaceAddress : Nat} {mountPoint : MountPoint}
    (hspace : bearsPermission (place namespaceAddress) = false) :
    Respects Still (addMountPointToNamespace namespaceAddress mountPoint) := by
  refine .bind_of allocStructure_still (allocStructure_yields (by decide)) fun a ha => ?_
  refine .ite' (fun _ => .pure) fun hne => ?_
  have hplace := ha.bearsPermission hne (by decide) fun _ => rfl
  refine .bind (lock_still rfl) fun _ => .ite ?_ (.bind (writeStructure_still hplace) fun _ => ?_)
  · exact .bind (freeStructure_still fun _ => rfl) fun _ => .pure
  · refine .bind (linkMountPoint_still hspace hplace) fun _ => .ite ?_ ?_
    · exact .bind (freeStructure_still fun _ => rfl) fun _ => .pure
    · exact .bind unlock_still fun _ => .pure

theorem findInBucket_still {inode enclosing fuel address : Nat} :
    Respects Still (findInBucket inode enclosing fuel address) := by
  induction fuel generalizing address with
  | zero => exact .failure
  | succ fuel ih =>
      refine .ite .pure (.bind (lock_still rfl) fun _ => .ite .pure ?_)
      exact .bind mountPointAt_still fun _ => .bind unlock_still fun _ => .ite .pure ih

theorem findMountPoint_still {fuel namespaceId inode enclosing : Nat} :
    Respects Still (findMountPoint fuel namespaceId inode enclosing) := by
  refine .bind (lock_still rfl) fun _ => .ite .pure (.bind fsNamespaceAt_still fun _ => ?_)
  exact .bind findInBucket_still fun _ => .bind unlock_still fun _ => .pure

theorem mount_still {fuel directoryFd : Nat} {info : DirectoryInfo} {flags : BitVec 8} :
    Respects Still (mount fuel info directoryFd flags) := by
  refine .ite .pure (.bind (lock_still rfl) fun _ => .ite .pure ?_)
  refine .bind createMountedListEntry_still fun _ => .ite (.bind unlock_still fun _ => .pure) ?_
  refine .bind mountedListInsert_still fun _ => .ite (.bind unlock_still fun _ => .pure) ?_
  exact .bind (addMountPointToNamespace_still namespace_bearsPermission) fun _ =>
    .bind unlock_still fun _ => .pure

/-! Messages. -/

theorem reply_still {caller : Caller} {replyCapability value : Nat}
    (h : constructorOf caller = none) (hfile : caller ≠ .openFile) :
    Respects Still (reply caller replyCapability value) :=
  .bind (send_still h hfile) fun _ => .pure

theorem returnValue_still {replyCapability value : Nat} :
    Respects Still (returnValue replyCapability value) :=
  reply_still rfl nofun

theorem vfsCall_still {caller : Caller} {endpoint replyEndpoint : Nat} {toSend : IpcMessage}
    {slot : Option Nat} (h : constructorOf caller = none) (hfile : caller ≠ .openFile) :
    Respects Still (vfsCall caller endpoint replyEndpoint toSend slot) :=
  .bind (send_still h hfile) fun _ => .ite .pure (.bind receive_still fun _ => .ite .pure .pure)

theorem openFileCallback_still {fdEndpoint replyEndpoint nameAddress slot : Nat}
    {flags mode : BitVec 8} :
    Respects Still (openFileCallback fdEndpoint replyEndpoint nameAddress flags mode slot) :=
  .bind (.bind (vfsCall_still rfl nofun) fun _ => .pure) fun _ => .ite .pure .pure

theorem freeOpenedFile_still {address : Nat} : Respects Still (freeOpenedFile address) :=
  freeStructure_still fun _ => rfl

theorem linkInMountPoint_still {fuel : Nat} {info : DirectoryInfo} {message toSend : IpcMessage}
    {requiresCreateFlag : Bool} :
    Respects Still (linkInMountPoint fuel info message toSend requiresCreateFlag) := by
  refine .bind (iterateOverMountPoint_respects (fun _ _ h => h) fun _ _ => ?_) fun _ =>
    returnValue_still
  exact .ite .pure (.bind (vfsCall_still rfl nofun) fun _ => .pure)

theorem deleteLeftover_still {state : State} {message : IpcMessage} {is : List Nat} :
    Respects Still (deleteLeftover state message is) := by
  induction is with
  | nil => exact .pure
  | cons i is ih =>
      exact .bind (onlyIf_still (.bind storageDelete_still fun _ => .pure)) fun _ => ih

theorem storeCapabilities_structures {threadId : Nat} {received : List (Option Fd)} {s : Server} :
    (storeCapabilities threadId received s).2.structures = s.structures := by
  unfold storeCapabilities
  generalize List.range ipcCapabilitySlots = is
  generalize (0 : BitVec 8) = transferred
  induction is generalizing transferred s with
  | nil => rfl
  | cons i is ih =>
      rw [List.foldl_cons]
      cases received.getD i none with
      | none => exact ih _
      | some fd =>
          simp only
          split
          · exact ih _
          · exact ih _

theorem receiveMessage_still {state : State} {buffer : Buffer} {badge : Nat}
    {received : List (Option Fd)} :
    Respects Still (receiveMessage state buffer badge received) := by
  intro w message w' h
  cases h
  refine still_of rfl fun p => ?_
  exact congrArg (fun f => permission p (f p)) storeCapabilities_structures

end Cenix.Vfs
