import Cenix.Vfs.Permissions

namespace Cenix.Vfs

open Programs

/-! Which functions the events of a function are from. -/

def Event.caller : Event → Caller
  | .locked caller _ _ => caller
  | .unlocked caller _ => caller
  | .deleted caller _ _ _ => caller
  | .sent caller _ _ _ _ _ => caller

/-- New events are only from the given functions. -/
structure Emits (callers : List Caller) (w w' : World) : Prop where
  answers : w'.answers = w.answers
  events : ∃ es, w'.events = w.events ++ es ∧ ∀ e ∈ es, e.caller ∈ callers

variable {S T : List Caller} {w w' : World} {α : Type}

instance : Std.Refl (Emits S) where
  refl _ := ⟨rfl, [], (List.append_nil _).symm, nofun⟩

instance : IsTrans World (Emits S) where
  trans := by
    intro _ _ _ h h'
    obtain ⟨hanswers, es, hes, hcallers⟩ := h
    obtain ⟨hanswers', es', hes', hcallers'⟩ := h'
    refine ⟨hanswers'.trans hanswers, es ++ es', by rw [hes', hes, List.append_assoc], ?_⟩
    intro e he
    exact (List.mem_append.mp he).elim (hcallers e) (hcallers' e)

theorem emits_of {w w' : World} (hanswers : w'.answers = w.answers)
    (hevents : w'.events = w.events) : Emits S w w' :=
  ⟨hanswers, [], by rw [hevents, List.append_nil], nofun⟩

theorem emits_mono {x : Vfs α} (h : Respects (Emits S) x) (hST : ∀ c ∈ S, c ∈ T) :
    Respects (Emits T) x := by
  refine h.mono fun w w' hemits => ?_
  obtain ⟨hanswers, es, hes, hcallers⟩ := hemits
  exact ⟨hanswers, es, hes, fun e he => hST _ (hcallers e he)⟩

theorem ask_emits {caller : Caller} {request : Request} :
    Respects (Emits S) (ask caller request) := by
  intro w answer w' h
  cases h
  exact emits_of rfl rfl

theorem getServer_emits : Respects (Emits S) getServer := by
  intro w s w' h
  cases h
  exact emits_of rfl rfl

theorem modifyServer_emits {f : Server → Server} : Respects (Emits S) (modifyServer f) := by
  intro w u w' h
  cases h
  exact emits_of rfl rfl

theorem record_emits {e : Event} (h : e.caller ∈ S) : Respects (Emits S) (record e) := by
  intro w u w' hrecord
  cases hrecord
  exact ⟨rfl, [e], rfl, by simpa using h⟩

theorem onlyIf_emits {c : Prop} [Decidable c] {x : Vfs Unit} (h : Respects (Emits S) x) :
    Respects (Emits S) (onlyIf c x) :=
  .ite h .pure

theorem structureAt_emits {address : Nat} : Respects (Emits S) (structureAt address) := by
  intro w a w' h
  obtain ⟨rfl, -⟩ := structureAt_some h
  exact emits_of rfl rfl

theorem lock_emits {caller : Caller} {address : Nat} (h : caller ∈ S) :
    Respects (Emits S) (lock caller address) :=
  .bind ask_emits fun _ => .bind (record_emits h) fun _ => .pure

theorem unlock_emits {caller : Caller} {address : Nat} (h : caller ∈ S) :
    Respects (Emits S) (unlock caller address) :=
  record_emits h

theorem allocUntyped_emits {caller : Caller} {address : Nat} :
    Respects (Emits S) (allocUntyped caller address) :=
  .bind ask_emits fun _ => .bind getServer_emits fun _ => .ite .pure (.ite .pure
    (.bind modifyServer_emits fun _ => .pure))

theorem nodeDelete_emits {caller : Caller} {node slot : Nat} (h : caller ∈ S) :
    Respects (Emits S) (nodeDelete caller node slot) :=
  .bind ask_emits fun _ => .bind getServer_emits fun _ => .bind (record_emits h) fun _ =>
    .bind (onlyIf_emits modifyServer_emits) fun _ => .pure

theorem storageDelete_emits {caller : Caller} {threadId slot : Nat} (h : caller ∈ S) :
    Respects (Emits S) (storageDelete caller threadId slot) :=
  .bind ask_emits fun _ => .bind getServer_emits fun _ => .bind (record_emits h) fun _ =>
    .bind (onlyIf_emits modifyServer_emits) fun _ => .pure

theorem copyEndpoint_emits {caller : Caller} {threadId slot badge : Nat} :
    Respects (Emits S) (copyEndpoint caller threadId slot badge) :=
  .bind ask_emits fun _ => .bind getServer_emits fun _ => .ite .pure (.ite .pure
    (.bind modifyServer_emits fun _ => .pure))

theorem send_emits {caller : Caller} {address : Nat} {message : IpcMessage} (h : caller ∈ S) :
    Respects (Emits S) (send caller address message) :=
  .bind ask_emits fun _ => .bind getServer_emits fun _ => .bind (record_emits h) fun _ =>
    .bind (onlyIf_emits modifyServer_emits) fun _ => .pure

theorem receive_emits {caller : Caller} {address : Nat} {slot : Option Nat} :
    Respects (Emits S) (receive caller address slot) :=
  .bind ask_emits fun _ => .bind (onlyIf_emits modifyServer_emits) fun _ => .pure

theorem writeStructure_emits {address : Nat} {structure' : Structure} :
    Respects (Emits S) (writeStructure address structure') :=
  .bind structureAt_emits fun _ => modifyServer_emits

theorem mountPointAt_emits {address : Nat} : Respects (Emits S) (mountPointAt address) := by
  refine .bind structureAt_emits fun structure' => ?_
  cases structure' <;> first | exact .pure | exact .failure

theorem fsNamespaceAt_emits {address : Nat} : Respects (Emits S) (fsNamespaceAt address) := by
  refine .bind structureAt_emits fun structure' => ?_
  cases structure' <;> first | exact .pure | exact .failure

/-! Functions. -/

theorem freeStructure_emits {ids : Ids} {node maxItems address : Nat} :
    Respects (Emits [.freeStructure, .markSlotUnused])
      (freeStructure ids node maxItems address) := by
  refine .bind (nodeDelete_emits (by decide)) fun _ => .ite (.bind (lock_emits (by decide))
    fun _ => .ite ?_ .pure) .pure
  exact .bind (onlyIf_emits modifyServer_emits) fun _ => unlock_emits (by decide)

theorem findInBucket_emits {inode enclosing fuel address : Nat} :
    Respects (Emits [.findMountPoint]) (findInBucket inode enclosing fuel address) := by
  induction fuel generalizing address with
  | zero => exact .failure
  | succ fuel ih =>
      refine .ite .pure (.bind (lock_emits (by decide)) fun _ => .ite .pure ?_)
      exact .bind mountPointAt_emits fun _ => .bind (unlock_emits (by decide)) fun _ =>
        .ite .pure ih

theorem findMountPoint_emits {fuel namespaceId inode enclosing : Nat} :
    Respects (Emits [.findMountPoint]) (findMountPoint fuel namespaceId inode enclosing) := by
  refine .bind (lock_emits (by decide)) fun _ => .ite .pure (.bind fsNamespaceAt_emits fun _ => ?_)
  exact .bind findInBucket_emits fun _ => .bind (unlock_emits (by decide)) fun _ => .pure

theorem vfsCall_emits {caller : Caller} {endpoint replyEndpoint : Nat} {toSend : IpcMessage}
    {slot : Option Nat} (h : caller ∈ S) :
    Respects (Emits S) (vfsCall caller endpoint replyEndpoint toSend slot) :=
  .bind (send_emits h) fun _ => .ite .pure (.bind receive_emits fun _ => .ite .pure .pure)

theorem fdStatCall_emits {caller : Caller} {fdAddress replyEndpoint : Nat} (h : caller ∈ S) :
    Respects (Emits S) (fdStatCall caller fdAddress replyEndpoint) :=
  .bind (vfsCall_emits h) fun _ => .pure

theorem badgeAndSend_emits {caller : Caller} {state : State} {badge replyAddress : Nat}
    (h : caller ∈ S) : Respects (Emits S) (badgeAndSend caller state badge replyAddress) :=
  .bind copyEndpoint_emits fun _ => .ite .pure (.bind (send_emits h) fun _ =>
    .bind (storageDelete_emits h) fun _ => .pure)

theorem openMountPoint_emits {state : State}
    {openedFileAddress mountPointAddress inode replyAddress : Nat} {info : DirectoryInfo} :
    Respects (Emits [.openMountPoint]) (openMountPoint state openedFileAddress mountPointAddress
      info inode replyAddress) := by
  refine .bind allocUntyped_emits fun _ => .ite .pure (.bind (nodeDelete_emits (by decide))
    fun _ => .bind (lock_emits (by decide)) fun _ => .ite .pure ?_)
  exact .bind writeStructure_emits fun _ => .bind (unlock_emits (by decide)) fun _ =>
    badgeAndSend_emits (by decide)

theorem proxyDirectory_emits {state : State} {openedFileAddress inode replyAddress : Nat}
    {info : DirectoryInfo} :
    Respects (Emits [.proxyDirectory])
      (proxyDirectory state openedFileAddress info inode replyAddress) := by
  refine .bind allocUntyped_emits fun _ => .ite .pure (.bind (lock_emits (by decide)) fun _ =>
    .ite (.bind (nodeDelete_emits (by decide)) fun _ => .pure) ?_)
  refine .bind writeStructure_emits fun _ => .bind (unlock_emits (by decide)) fun _ =>
    .bind (badgeAndSend_emits (by decide)) fun _ => .bind (onlyIf_emits ?_) fun _ => .pure
  exact .bind (nodeDelete_emits (by decide)) fun _ => .pure

end Cenix.Vfs
