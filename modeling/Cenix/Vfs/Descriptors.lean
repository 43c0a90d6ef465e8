import Cenix.Vfs.References

namespace Cenix.Vfs

open Programs

/-! The descriptors that the server hands out, as its messages show them. -/

inductive Kind where
  | root
  | mountPoint
  | directory
  deriving DecidableEq, Repr

/-- A descriptor: the badge of the endpoint that is sent, the `directory_info` that has been
allocated for it, and the file that has been opened last. -/
structure Descriptor where
  kind : Kind
  badge : Nat
  infoAddress : Nat
  opened : Option Fd
  deriving DecidableEq, Repr

/-- The functions that allocate a `directory_info` and send a descriptor for it. -/
def constructorOf : Caller → Option Kind
  | .openRoot => some .root
  | .openMountPoint => some .mountPoint
  | .proxyDirectory => some .directory
  | _ => none

/-- What is known from the events so far. -/
structure Watch where
  infoAddress : Nat
  opened : Option Fd
  descriptors : List Descriptor
  deriving DecidableEq, Repr

def Watch.handOut (o : Watch) (kind : Kind) (badge : Nat) : Watch :=
  { o with descriptors := o.descriptors ++ [⟨kind, badge, o.infoAddress, o.opened⟩] }

/-- A descriptor is handed out by a send that works. -/
def watchSent (o : Watch) (kind : Kind) (capabilities : List (Option Fd)) (result : Nat) :
    Watch :=
  match capabilities.head? with
  | some (some (.endpoint badge)) => if result = 0 then o.handOut kind badge else o
  | _ => o

/-- `open_file` asks for the status of what it has opened. -/
def watch (o : Watch) : Event → Watch
  | .locked caller address _ =>
      if (constructorOf caller).isSome then { o with infoAddress := address } else o
  | .sent caller _ receiver _ capabilities result =>
      match constructorOf caller with
      | some kind => watchSent o kind capabilities result
      | none => if caller = .openFile then { o with opened := receiver } else o
  | _ => o

/-- The functions that look for the `directory_info` of a message. -/
def isHandler : Caller → Bool
  | .handleMountPointMessage => true
  | .handleDirectoryMessage => true
  | .directoryOpen => true
  | _ => false

/-- The address, if the event is a handler's lock on something else than a namespace. -/
def infoLock : Event → Option Nat
  | .locked caller address _ =>
      if isHandler caller && address % 2 ^ initNodeDepth != namespaceNodeSlot then
        some address
      else
        none
  | _ => none

/-! Permissions. -/

/-- Whether the process or the descriptor whose structure lies at a place may modify its
namespace. -/
def permission : Place → Option Structure → Option Bool
  | .directoryInfo _, some (.directoryInfo info) => some info.canModifyNamespace
  | .processData _, some (.processData data) => some data.canModifyNamespace
  | _, _ => none

def World.permissions (w : World) : Place → Option Bool :=
  fun p => permission p (w.server.structures p)

/-- The places of the structures with a permission. -/
def bearsPermission : Place → Bool
  | .processData _ => true
  | .directoryInfo _ => true
  | _ => false

theorem permission_of_not_bears {p : Place} {x : Option Structure}
    (h : bearsPermission p = false) : permission p x = none := by
  cases p <;> first | rfl | cases h

theorem permission_none {p : Place} : permission p none = none := by
  cases p <;> rfl

/-- Only processes and descriptors have permissions. -/
theorem permission_mountPoint {p : Place} {m m' : MountPoint} :
    permission p (some (.mountPoint m)) = permission p (some (.mountPoint m')) := by
  cases p <;> rfl

theorem permission_directoryInfo {p : Place} {info info' : DirectoryInfo}
    (h : info.canModifyNamespace = info'.canModifyNamespace) :
    permission p (some (.directoryInfo info)) = permission p (some (.directoryInfo info')) := by
  cases p <;> simp [permission, h]

theorem permission_uninitialized {p : Place} :
    permission p (some .uninitialized) = none := by
  cases p <;> rfl

/-- An event that shows nothing about descriptors. -/
structure Unseen (e : Event) : Prop where
  watch : ∀ o, watch o e = o
  infoLock : infoLock e = none

/-- Nothing has happened to permissions and descriptors. -/
structure Still (w w' : World) : Prop where
  events : ∃ es, w'.events = w.events ++ es ∧ ∀ e ∈ es, Unseen e
  permissions : w'.permissions = w.permissions

instance : Std.Refl Still where
  refl _ := ⟨⟨[], (List.append_nil _).symm, nofun⟩, rfl⟩

instance : IsTrans World Still where
  trans := by
    intro _ _ _ h h'
    obtain ⟨⟨es, hes, hunseen⟩, hpermissions⟩ := h
    obtain ⟨⟨es', hes', hunseen'⟩, hpermissions'⟩ := h'
    refine ⟨⟨es ++ es', by rw [hes', hes, List.append_assoc], fun e he => ?_⟩,
      hpermissions'.trans hpermissions⟩
    cases List.mem_append.mp he with
    | inl he => exact hunseen e he
    | inr he => exact hunseen' e he

variable {α : Type} {x : Vfs α}

theorem ask_still {caller : Caller} {request : Request} : Respects Still (ask caller request) := by
  intro w answer w' h
  cases h
  exact ⟨⟨[], (List.append_nil _).symm, nofun⟩, rfl⟩

/-- What comes after looking at the server. -/
theorem getServer_bind {f : Server → Vfs α} {w : World} :
    (getServer >>= f) w = f w.server w :=
  rfl

theorem getServer_still : Respects Still getServer := by
  intro w s w' h
  cases h
  exact Std.Refl.refl w

theorem record_still {event : Event} (h : Unseen event) : Respects Still (record event) := by
  intro w u w' hrecord
  cases hrecord
  exact ⟨⟨[event], rfl, by simpa using h⟩, rfl⟩

theorem modifyServer_still {f : Server → Server}
    (hf : ∀ s p, permission p ((f s).structures p) = permission p (s.structures p)) :
    Respects Still (modifyServer f) := by
  intro w u w' h
  cases h
  exact ⟨⟨[], (List.append_nil _).symm, nofun⟩, funext fun p => hf w.server p⟩

theorem onlyIf_still {c : Prop} [Decidable c] {x : Vfs Unit} (h : Respects Still x) :
    Respects Still (onlyIf c x) :=
  .ite h .pure

/-- A function that looks for no `directory_info` and sends no descriptor. -/
def isPlain (caller : Caller) : Bool :=
  constructorOf caller == none && !isHandler caller && caller != .openFile

theorem locked_unseen {caller : Caller} {address : Nat} {found : Bool}
    (h : isPlain caller) : Unseen (.locked caller address found) := by
  simp only [isPlain, Bool.and_eq_true, beq_iff_eq, Bool.not_eq_true'] at h
  constructor
  · intro o
    simp [watch, h.1.1]
  · simp [infoLock, h.1.2]

theorem unlocked_unseen {caller : Caller} {address : Nat} : Unseen (.unlocked caller address) :=
  ⟨fun _ => rfl, rfl⟩

theorem deleted_unseen {caller : Caller} {node slot result : Nat} :
    Unseen (.deleted caller node slot result) :=
  ⟨fun _ => rfl, rfl⟩

theorem sent_unseen {caller : Caller} {address result : Nat} {receiver : Option Fd}
    {message : IpcMessage} {capabilities : List (Option Fd)} (h : constructorOf caller = none)
    (hfile : caller ≠ .openFile) :
    Unseen (.sent caller address receiver message capabilities result) := by
  constructor
  · intro o
    simp [watch, h, hfile]
  · rfl

theorem structureAt_still {address : Nat} : Respects Still (structureAt address) := by
  intro w a w' h
  simp only [structureAt, Option.map_eq_some_iff, Prod.mk.injEq] at h
  obtain ⟨_, _, _, rfl⟩ := h
  exact Std.Refl.refl w

theorem lock_still {caller : Caller} {address : Nat} (h : isPlain caller) :
    Respects Still (lock caller address) :=
  .bind ask_still fun _ => .bind (record_still (locked_unseen h)) fun _ => .pure

theorem unlock_still {caller : Caller} {address : Nat} : Respects Still (unlock caller address) :=
  record_still unlocked_unseen

theorem setStructure_permission {s : Server} {p q : Place} {structure' : Option Structure}
    (h : permission p structure' = permission p (s.structures p)) :
    permission q ((s.setStructure p structure').structures q) = permission q (s.structures q) := by
  cases decEq q p with
  | isTrue heq =>
      subst heq
      simpa [Server.setStructure] using h
  | isFalse hne => rw [setStructure_structures hne]

theorem still_of {w w' : World} (hevents : w'.events = w.events)
    (hpermissions : ∀ p, permission p (w'.server.structures p) =
      permission p (w.server.structures p)) : Still w w' :=
  ⟨⟨[], by rw [hevents, List.append_nil], nofun⟩, funext hpermissions⟩

theorem storageDelete_still {caller : Caller} {threadId slot : Nat} :
    Respects Still (storageDelete caller threadId slot) :=
  .bind ask_still fun _ => .bind getServer_still fun _ => .bind (record_still deleted_unseen)
    fun _ => .bind (onlyIf_still (modifyServer_still fun _ _ => rfl)) fun _ => .pure

theorem copyEndpoint_still {caller : Caller} {threadId slot badge : Nat} :
    Respects Still (copyEndpoint caller threadId slot badge) := by
  refine .bind ask_still fun _ => .bind getServer_still fun _ => .ite .pure (.ite .pure ?_)
  exact .bind (modifyServer_still fun _ _ => rfl) fun _ => .pure

theorem foldl_takeCapability_permission {message : IpcMessage} {taken : Nat → Bool}
    {is : List Nat} {s : Server} {p : Place} :
    permission p ((is.foldl (takeCapability message taken) s).structures p) =
      permission p (s.structures p) := by
  rw [foldl_takeCapability_structures]

theorem send_still {caller : Caller} {address : Nat} {message : IpcMessage}
    (h : constructorOf caller = none) (hfile : caller ≠ .openFile) :
    Respects Still (send caller address message) :=
  .bind ask_still fun _ => .bind getServer_still fun _ =>
    .bind (record_still (sent_unseen h hfile)) fun _ =>
      .bind (onlyIf_still (modifyServer_still fun _ _ => foldl_takeCapability_permission))
        fun _ => .pure

theorem receive_still {caller : Caller} {address : Nat} {slot : Option Nat} :
    Respects Still (receive caller address slot) := by
  refine .bind ask_still fun _ => .bind (onlyIf_still (modifyServer_still ?_)) fun _ => .pure
  intro s p
  unfold receiveCapability
  split
  · split <;> rfl
  · rfl

theorem moveIntoList_still {caller : Caller} {source index slot : Nat} :
    Respects Still (moveIntoList caller source index slot) := by
  refine .bind ask_still fun _ => .bind getServer_still fun _ => .ite .pure (.ite .pure
    (.ite .pure (.ite .pure ?_)))
  exact .bind (modifyServer_still fun _ _ => rfl) fun _ => .pure

theorem allocListNode_still {caller : Caller} {index : Nat} :
    Respects Still (allocListNode caller index) := by
  refine .bind ask_still fun _ => .bind getServer_still fun _ => .ite .pure (.ite .failure ?_)
  exact .bind (modifyServer_still fun _ _ => rfl) fun _ => .pure

theorem free_of_not_occupied {s : Server} {p : Place} (h : ¬s.occupied p) :
    s.structures p = none := by
  simp only [Server.occupied, Bool.or_eq_true, not_or, Bool.not_eq_true] at h
  exact Option.isNone_iff_eq_none.mp (Option.isSome_eq_false_iff.mp h.1)

/-- Memory is only allocated where there is none. -/
theorem allocUntyped_still {caller : Caller} {address : Nat} :
    Respects Still (allocUntyped caller address) := by
  refine .bind ask_still fun answer w result w' h => ?_
  rw [getServer_bind] at h
  split at h
  · cases h
    exact Std.Refl.refl w
  · split at h
    · cases h
      exact Std.Refl.refl w
    · rename_i hfree
      cases h
      refine still_of rfl fun p => setStructure_permission ?_
      rw [free_of_not_occupied hfree, permission_uninitialized, permission_none]

theorem writeStructure_still {address : Nat} {structure' : Structure}
    (hplace : bearsPermission (place address) = false) :
    Respects Still (writeStructure address structure') := by
  refine .bind structureAt_still fun _ w u w' h => ?_
  cases h
  refine still_of rfl fun p => setStructure_permission ?_
  rw [permission_of_not_bears hplace, permission_of_not_bears hplace]

theorem nodeDelete_still {caller : Caller} {node slot : Nat}
    (hplace : bearsPermission (nodePlace node slot) = false) :
    Respects Still (nodeDelete caller node slot) := by
  refine .bind ask_still fun _ => .bind getServer_still fun _ =>
    .bind (record_still deleted_unseen) fun _ => .bind (onlyIf_still ?_) fun _ => .pure
  intro w u w' h
  cases h
  refine still_of rfl fun p => setStructure_permission ?_
  rw [permission_of_not_bears hplace, permission_of_not_bears hplace]

theorem findSlotFor_still {ids : Ids} {maxItems : Nat} {fn : Nat → Vfs Nat}
    (hfn : ∀ id, Respects Still (fn id)) : Respects Still (findSlotFor ids maxItems fn) := by
  refine .bind (lock_still rfl) fun _ => .ite .pure (.bind getServer_still fun _ => ?_)
  refine .bind (onlyIf_still (modifyServer_still fun _ _ => rfl)) fun _ => .bind (hfn _) fun _ => ?_
  exact .bind (onlyIf_still (modifyServer_still fun _ _ => rfl)) fun _ =>
    .bind unlock_still fun _ => .pure

theorem markSlotUnused_still {ids : Ids} {maxItems slotNumber : Nat} :
    Respects Still (markSlotUnused ids maxItems slotNumber) :=
  .bind (lock_still rfl) fun _ => .ite
    (.bind (onlyIf_still (modifyServer_still fun _ _ => rfl)) fun _ => unlock_still) .pure

theorem allocStructure_still {ids : Ids} {node maxItems : Nat} :
    Respects Still (allocStructure ids node maxItems) :=
  findSlotFor_still fun _ => .bind allocUntyped_still fun _ => .ite .pure .pure

theorem freeStructure_still {ids : Ids} {node maxItems address : Nat}
    (hplace : ∀ id, bearsPermission (nodePlace node id) = false) :
    Respects Still (freeStructure ids node maxItems address) :=
  .bind (nodeDelete_still (hplace _)) fun _ => .ite markSlotUnused_still .pure

/-! Reading. -/

theorem mountPointAt_still {address : Nat} : Respects Still (mountPointAt address) := by
  refine .bind structureAt_still fun structure' => ?_
  cases structure' <;> first | exact .pure | exact .failure

theorem listInfoAt_still {address : Nat} : Respects Still (listInfoAt address) := by
  refine .bind structureAt_still fun structure' => ?_
  cases structure' <;> first | exact .pure | exact .failure

theorem fsNamespaceAt_still {address : Nat} : Respects Still (fsNamespaceAt address) := by
  refine .bind structureAt_still fun structure' => ?_
  cases structure' <;> first | exact .pure | exact .failure

theorem processDataAt_still {address : Nat} : Respects Still (processDataAt address) := by
  refine .bind structureAt_still fun structure' => ?_
  cases structure' <;> first | exact .pure | exact .failure

/-- What is read is what lies there. -/
theorem structureAt_some {address : Nat} {structure' : Structure} {w w' : World}
    (h : structureAt address w = some (structure', w')) :
    w' = w ∧ w.server.structures (place address) = some structure' := by
  simp only [structureAt, Option.map_eq_some_iff, Prod.mk.injEq] at h
  obtain ⟨_, hat, rfl, rfl⟩ := h
  exact ⟨rfl, hat⟩

theorem mountPointAt_some {address : Nat} {mountPoint : MountPoint} {w w' : World}
    (h : mountPointAt address w = some (mountPoint, w')) :
    w' = w ∧ w.server.structures (place address) = some (.mountPoint mountPoint) := by
  obtain ⟨structure', w₁, hread, h⟩ := bind_some h
  obtain ⟨rfl, hat⟩ := structureAt_some hread
  cases structure' with
  | mountPoint mountPoint' =>
      cases h
      exact ⟨rfl, hat⟩
  | uninitialized | processData | directoryInfo | listInfo | fsNamespace => cases h

theorem directoryInfoAt_some {address : Nat} {info : DirectoryInfo} {w w' : World}
    (h : directoryInfoAt address w = some (info, w')) :
    w' = w ∧ w.server.structures (place address) = some (.directoryInfo info) := by
  obtain ⟨structure', w₁, hread, h⟩ := bind_some h
  obtain ⟨rfl, hat⟩ := structureAt_some hread
  cases structure' with
  | directoryInfo info' =>
      cases h
      exact ⟨rfl, hat⟩
  | uninitialized | processData | mountPoint | listInfo | fsNamespace => cases h

theorem processDataAt_some {address : Nat} {data : ProcessData} {w w' : World}
    (h : processDataAt address w = some (data, w')) :
    w' = w ∧ w.server.structures (place address) = some (.processData data) := by
  obtain ⟨structure', w₁, hread, h⟩ := bind_some h
  obtain ⟨rfl, hat⟩ := structureAt_some hread
  cases structure' with
  | processData data' =>
      cases h
      exact ⟨rfl, hat⟩
  | uninitialized | directoryInfo | mountPoint | listInfo | fsNamespace => cases h

end Cenix.Vfs
