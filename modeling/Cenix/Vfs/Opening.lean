import Cenix.Vfs.Constructors

namespace Cenix.Vfs

open Programs

/-! What messages do to permissions and descriptors. -/

variable {pid : Option Nat} {c : Bool} {w w' : World} {α : Type} {state : State}

theorem grows_of_still {x : Vfs α} (hx : Respects Still x) : Respects (Grows pid c) x :=
  hx.mono fun _ _ h => h.grows

/-- `open_file` hands out no descriptor itself. -/
theorem record_openFile_grows {address result : Nat} {receiver : Option Fd}
    {message : IpcMessage} {capabilities : List (Option Fd)} :
    Respects (Grows pid c)
      (record (.sent .openFile address receiver message capabilities result)) := by
  intro w u w' h
  cases h
  refine ⟨fun p => .inl rfl, [_], rfl, ?_, fun o => ⟨[], ?_, freshDescriptors_nil⟩⟩
  · intro e he
    rw [List.mem_singleton.mp he]
    rfl
  · simp [watch, constructorOf]

theorem send_openFile_grows {address : Nat} {message : IpcMessage} :
    Respects (Grows pid c) (send .openFile address message) :=
  .bind (grows_of_still ask_still) fun _ => .bind (grows_of_still getServer_still) fun _ =>
    .bind record_openFile_grows fun _ => .bind (grows_of_still (onlyIf_still
      (modifyServer_still fun _ _ => foldl_takeCapability_permission))) fun _ => .pure

theorem fdStatCall_grows {fdAddress replyEndpoint : Nat} :
    Respects (Grows pid c) (fdStatCall .openFile fdAddress replyEndpoint) :=
  .bind (.bind send_openFile_grows fun _ => .ite .pure
    (.bind (grows_of_still receive_still) fun _ => .ite .pure .pure)) fun _ => .pure

theorem openFileCallback_yields {fdEndpoint replyEndpoint nameAddress slot : Nat}
    {flags mode : BitVec 8} (hslot : slot < maxOpenDirectories) :
    Yields (AddressIn directoryNodeSlot maxOpenDirectories)
      (openFileCallback fdEndpoint replyEndpoint nameAddress flags mode slot) :=
  .bind fun _ => .ite (fun _ => .pure (.inr ⟨slot, hslot, rfl⟩)) fun _ => .pure (.inl rfl)

theorem openFile_grows {fuel fdEndpoint : Nat} {info : DirectoryInfo} {message : IpcMessage}
    (hstate : state.Stores) :
    Respects (Grows pid info.canModifyNamespace)
      (openFile fuel state fdEndpoint info message) := by
  refine .bind_of (grows_of_still (findSlotFor_still fun _ => openFileCallback_still))
    (findSlotFor_yields (by decide) (.inl rfl) fun id hid => openFileCallback_yields hid)
      fun a ha => .ite' (fun _ => .pure) fun hne => ?_
  obtain ⟨id, hid, ha⟩ := ha.resolve_left hne
  rw [show a = directoryAddress id from ha]
  refine .bind fdStatCall_grows fun r => ?_
  obtain ⟨result, stat⟩ := r
  cases stat with
  | none => exact .bind (grows_of_still freeOpenedFile_still) fun _ => .pure
  | some stat =>
      refine .bind (grows_of_still findMountPoint_still) fun mountPointAddress => .ite ?_ ?_
      · refine .bind (respects_of_constructs (openMountPoint_constructs hid hstate)) fun _ => .ite ?_ .pure
        exact .bind (grows_of_still freeOpenedFile_still) fun _ => .pure
      · refine .ite ?_ (.bind (respects_of_constructs (proxyDirectory_constructs hid hstate)) fun _ =>
          .ite ?_ .pure)
        · exact .bind send_openFile_grows fun _ =>
            .bind (grows_of_still freeOpenedFile_still) fun _ => .pure
        · exact .bind (grows_of_still freeOpenedFile_still) fun _ => .pure

theorem openPass_grows {fuel mountPointAddress : Nat} {info : DirectoryInfo}
    {message : IpcMessage} {allowCreate : Bool} (hstate : state.Stores) :
    Respects (Grows pid info.canModifyNamespace)
      (openPass fuel state mountPointAddress info message allowCreate) :=
  iterateOverMountPoint_respects (R := Grows pid info.canModifyNamespace) (fun _ _ h => h.grows) fun _ _ =>
    .ite .pure (.bind (openFile_grows hstate) fun _ => .pure)

theorem openPasses_grows {fuel mountPointAddress : Nat} (info : DirectoryInfo)
    {message : IpcMessage} (hstate : state.Stores) :
    Respects (Grows pid info.canModifyNamespace)
      (openPasses fuel state mountPointAddress info message) := by
  refine .ite (openPass_grows hstate) (.bind (grows_of_still unlock_still) fun _ => ?_)
  exact .bind (openPass_grows hstate) fun _ => .ite (openPass_grows hstate) .pure

theorem mountPointOpen_grows {fuel : Nat} {info : DirectoryInfo} {message : IpcMessage}
    (hstate : state.Stores) :
    Respects (Grows pid info.canModifyNamespace) (mountPointOpen fuel state info message) := by
  refine .bind (grows_of_still (lock_still rfl)) fun _ => .ite ?_ ?_
  · exact .bind (grows_of_still returnValue_still) fun _ => .failure
  · refine .bind (grows_of_still mountPointAt_still) fun mountPoint =>
      .bind ?_ fun _ => grows_of_still (onlyIf_still returnValue_still)
    exact openPasses_grows ⟨info.namespaceId, info.canModifyNamespace, info.inode,
      mountPoint.enclosingFilesystem⟩ hstate

theorem mountPointStat_still {info : DirectoryInfo} {message : IpcMessage} :
    Respects Still (mountPointStat info message) :=
  .bind (send_still rfl nofun) fun _ => .pure

theorem mountPointCall_grows {fuel : Nat} {info : DirectoryInfo} {message : IpcMessage}
    (hstate : state.Stores) :
    Respects (Grows pid info.canModifyNamespace) (mountPointCall fuel state info message) := by
  have hreturn : ∀ value, Respects (Grows pid info.canModifyNamespace)
      (returnValue (fdReplyEndpoint message).address value) :=
    fun _ => grows_of_still returnValue_still
  unfold mountPointCall
  refine .ite (hreturn _) (.ite (grows_of_still mountPointStat_still) (.ite ?_ (.ite ?_ (.ite ?_
    (.ite (hreturn _) (.ite ?_ (.ite (hreturn _) (hreturn _))))))))
  · exact grows_of_still linkInMountPoint_still
  · exact grows_of_still linkInMountPoint_still
  · exact mountPointOpen_grows hstate
  · exact .bind (grows_of_still mount_still) fun _ => grows_of_still (reply_still rfl nofun)

/-! Messages for the descriptors of mount points. -/

theorem namespaceLock_unseen {namespaceId : Nat} {caller : Caller} {found : Bool}
    (h : constructorOf caller = none) :
    Unseen (.locked caller (namespaceAddress namespaceId) found) := by
  constructor
  · intro o
    simp [watch, h]
  · have hslot : namespaceAddress namespaceId % 2 ^ initNodeDepth = namespaceNodeSlot :=
      nodeAddress_mod namespaceId (by decide)
    simp [infoLock, hslot]

theorem namespaceLock_still {namespaceId : Nat} {caller : Caller}
    (h : constructorOf caller = none) :
    Respects Still (lock caller (namespaceAddress namespaceId)) :=
  .bind ask_still fun _ => .bind (record_still (namespaceLock_unseen h)) fun _ => .pure

theorem rewriteInfo_still {w₀ : World} {infoAddress : Nat} {info info' : DirectoryInfo}
    (hinfo : w₀.server.structures (place infoAddress) = some (.directoryInfo info))
    (hcan : info'.canModifyNamespace = info.canModifyNamespace) :
    Ensures (Still w₀) (writeStructure infoAddress (.directoryInfo info')) fun _ => Still w₀ := by
  intro w u w' hw h
  obtain ⟨old, w₁, hold, hmodify⟩ := bind_some h
  obtain ⟨rfl, -⟩ := structureAt_some hold
  cases hmodify
  refine IsTrans.trans _ _ _ hw (still_of rfl fun p => setStructure_permission ?_)
  have hat : permission (place infoAddress) (w₁.server.structures (place infoAddress)) =
      permission (place infoAddress) (w₀.server.structures (place infoAddress)) :=
    congrFun hw.permissions (place infoAddress)
  rw [hat, hinfo]
  exact permission_directoryInfo hcan

/-- The fix-up keeps what may be modified. -/
theorem fixUpMountPointAddress_still {w₀ : World} {infoAddress : Nat} {info : DirectoryInfo}
    (hinfo : w₀.server.structures (place infoAddress) = some (.directoryInfo info)) :
    Ensures (Still w₀) (fixUpMountPointAddress infoAddress info) fun fixed w =>
      Still w₀ w ∧ fixed.canModifyNamespace = info.canModifyNamespace := by
  refine .ite (fun _ => ?_) fun _ => .pure fun w hw => ⟨hw, rfl⟩
  refine .bind ((namespaceLock_still rfl).ensures w₀) fun _ => .ite (fun _ => ?_) fun _ =>
    .pure fun w hw => ⟨hw, rfl⟩
  refine .bind (fsNamespaceAt_still.ensures w₀) fun fsNamespace => .bind (R := fun _ => Still w₀)
    (.ite (fun _ => rewriteInfo_still hinfo rfl) fun _ => .pure fun _ hw => hw) fun _ => ?_
  refine .bind (unlock_still.ensures w₀) fun _ => .pure fun w hw => ⟨hw, ?_⟩
  split <;> rfl

/-! Whole messages. -/

def World.seen (w : World) (o : Watch) : Watch :=
  w.events.foldl watch o

def World.infoLocks (w : World) : List Nat :=
  w.events.filterMap infoLock

/-- Like `Grows`, but handlers may look for their `directory_info`. -/
structure Progress (pid : Option Nat) (c : Bool) (w w' : World) : Prop where
  permissions : ∀ p, w'.permissions p = w.permissions p ∨
    (newAt pid p ∧ w.permissions p = none ∧ w'.permissions p = some c)
  descriptors : ∀ o, ∃ ds, (w'.seen o).descriptors = (w.seen o).descriptors ++ ds ∧
    FreshDescriptors w.permissions w'.permissions ds

theorem Grows.progress (h : Grows pid c w w') : Progress pid c w w' := by
  refine ⟨h.permissions, fun o => ?_⟩
  obtain ⟨es, hes, -, hds⟩ := h.events
  rw [World.seen, World.seen, hes, List.foldl_append]
  exact hds _

theorem Grows.infoLocks (h : Grows pid c w w') : w'.infoLocks = w.infoLocks := by
  obtain ⟨es, hes, hlocks, -⟩ := h.events
  rw [World.infoLocks, World.infoLocks, hes, List.filterMap_append,
    List.filterMap_eq_nil_iff.mpr hlocks, List.append_nil]

theorem Still.seen (h : Still w w') (o : Watch) : w'.seen o = w.seen o := by
  obtain ⟨es, hes, hunseen⟩ := h.events
  rw [World.seen, World.seen, hes, List.foldl_append, foldl_watch_unseen hunseen]

theorem Progress.still_left {w₀ : World} (hstill : Still w₀ w) (h : Progress pid c w w') :
    Progress pid c w₀ w' := by
  refine ⟨fun p => ?_, fun o => ?_⟩
  · rw [← hstill.permissions]
    exact h.permissions p
  · rw [← hstill.permissions, ← hstill.seen]
    exact h.descriptors o

theorem Progress.still_right {w'' : World} (h : Progress pid c w w') (hstill : Still w' w'') :
    Progress pid c w w'' := by
  refine ⟨fun p => ?_, fun o => ?_⟩
  · rw [hstill.permissions]
    exact h.permissions p
  · rw [hstill.permissions, hstill.seen]
    exact h.descriptors o

/-- A lock by a handler. -/
theorem lock_handler {caller : Caller} {address : Nat} {found : Bool}
    (hcaller : constructorOf caller = none) (h : lock caller address w = some (found, w')) :
    w'.permissions = w.permissions ∧ (∀ o, w'.seen o = w.seen o) ∧
      w'.infoLocks = w.infoLocks ++ (infoLock (.locked caller address found)).toList := by
  cases h
  refine ⟨rfl, fun o => ?_, ?_⟩
  · simp [World.seen, watch, hcaller]
  · simp only [World.infoLocks, List.filterMap_append, List.filterMap_cons, List.filterMap_nil]
    split <;> simp [*]

/-- The handler's own lock comes first, and new permissions are the one of the
`directory_info` that it finds. -/
theorem handleMountPointMessage_after {fuel : Nat} {message : IpcMessage} {u : Unit}
    (hstate : state.Stores) (h : handleMountPointMessage fuel state message w = some (u, w')) :
    ∃ found w₁, lock .handleMountPointMessage (ipcId message.badge) w = some (found, w₁) ∧
      ∀ c, (∀ info, w.server.structures (place (ipcId message.badge)) =
        some (.directoryInfo info) → info.canModifyNamespace = c) → Grows none c w₁ w' := by
  obtain ⟨found, w₁, hlock, h⟩ := bind_some h
  refine ⟨found, w₁, hlock, fun c hc => ?_⟩
  cases hlock
  revert h
  cases (w.answers w.time .handleMountPointMessage (.lock (ipcId message.badge))).result == 0 with
  | false =>
      intro h
      exact (returnValue_still _ _ _ h).grows
  | true =>
      intro h
      obtain ⟨info, w₂, hread, hrest⟩ := bind_some h
      obtain ⟨rfl, hat⟩ := directoryInfoAt_some hread
      obtain ⟨fixed, w₃, hfix, hlast⟩ := bind_some hrest
      obtain ⟨hstill, hcan⟩ := fixUpMountPointAddress_still hat _ _ _ (Std.Refl.refl _) hfix
      obtain ⟨u, w₄, hcall, hunlock⟩ := bind_some hlast
      have hgrows : Grows none c w₃ w₄ :=
        (hcan.trans (hc info hat)) ▸ mountPointCall_grows hstate _ _ _ hcall
      exact IsTrans.trans (r := Grows none c) _ _ _ (IsTrans.trans _ _ _ hstill.grows hgrows)
        (unlock_still _ _ _ hunlock).grows

theorem handleMountPointMessage_progress {fuel : Nat} {message : IpcMessage} {u : Unit}
    (hstate : state.Stores)
    (hc : ∀ info, w.server.structures (place (ipcId message.badge)) =
      some (.directoryInfo info) → info.canModifyNamespace = c)
    (h : handleMountPointMessage fuel state message w = some (u, w')) :
    Progress none c w w' := by
  obtain ⟨found, w₁, hlock, hgrows⟩ := handleMountPointMessage_after hstate h
  obtain ⟨hpermissions, hseen, -⟩ := lock_handler rfl hlock
  have hprogress := (hgrows c hc).progress
  refine ⟨fun p => ?_, fun o => ?_⟩
  · rw [← hpermissions]
    exact hprogress.permissions p
  · rw [← hpermissions, ← hseen]
    exact hprogress.descriptors o

/-- All that a handler finds has one permission. -/
theorem exists_permission (address : Nat) (w : World) :
    ∃ c, ∀ info, w.server.structures (place address) = some (.directoryInfo info) →
      info.canModifyNamespace = c := by
  cases h : w.server.structures (place address) with
  | none => exact ⟨true, nofun⟩
  | some structure' =>
      cases structure' with
      | directoryInfo info =>
          refine ⟨info.canModifyNamespace, fun info' heq => ?_⟩
          cases heq
          rfl
      | uninitialized | processData | mountPoint | listInfo | fsNamespace => exact ⟨true, nofun⟩

/-- The handler looks for no other `directory_info` than the one at the address in the
badge. -/
theorem handleMountPointMessage_infoLocks {fuel : Nat} {message : IpcMessage} {u : Unit}
    (hstate : state.Stores) (h : handleMountPointMessage fuel state message w = some (u, w')) :
    ∃ found, w'.infoLocks = w.infoLocks ++
      (infoLock (.locked .handleMountPointMessage (ipcId message.badge) found)).toList := by
  obtain ⟨found, w₁, hlock, hgrows⟩ := handleMountPointMessage_after hstate h
  obtain ⟨-, -, hlocks⟩ := lock_handler rfl hlock
  obtain ⟨c, hc⟩ := exists_permission (ipcId message.badge) w
  exact ⟨found, by rw [(hgrows c hc).infoLocks, hlocks]⟩

end Cenix.Vfs
