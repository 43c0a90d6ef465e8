import Cenix.Vfs.Emissions
import Cenix.Vfs.Footprints

namespace Cenix.Vfs

open Programs

/-! What `open_file` asks a directory, and which structures it leaves alone. -/

/-- A request to open a file: whom it goes to, the name that comes with it and whether the
file may be created. -/
structure Ask where
  place : Place
  name : Option Fd
  create : Bool
  deriving DecidableEq, Repr

def creates (flags : BitVec 8) : Bool :=
  flags &&& openCreate != 0

def askOf : Event → Option Ask
  | .sent .openFileCallback address _ message capabilities _ =>
      some ⟨place address, capabilities.getD 1 none, creates (byteOf message.buffer 1)⟩
  | _ => none

def World.asks (w : World) : List Ask :=
  w.events.filterMap askOf

variable {w w' : World} {state : State} {α : Type}

theorem askOf_none {e : Event} (h : e.caller ≠ .openFileCallback) : askOf e = none := by
  cases e with
  | sent caller =>
      cases caller <;> first | rfl | exact absurd rfl h
  | locked | unlocked | deleted => rfl

theorem Emits.asks {S : List Caller} (h : Emits S w w') (hS : .openFileCallback ∉ S) :
    w'.asks = w.asks := by
  obtain ⟨es, hes, hcallers⟩ := h.events
  have hnone : es.filterMap askOf = [] := by
    apply List.filterMap_eq_nil_iff.mpr
    intro e he
    apply askOf_none
    intro heq
    exact hS (heq ▸ hcallers e he)
  rw [World.asks, World.asks, hes, List.filterMap_append, hnone, List.append_nil]

/-- A program that asks nothing. -/
theorem asks_ensures {S : List Caller} {x : Vfs α} {as : List Ask} (hx : Respects (Emits S) x)
    (hS : .openFileCallback ∉ S) : Ensures (fun w => w.asks = as) x fun _ w => w.asks = as :=
  fun _ _ _ hw h => ((hx _ _ _ h).asks hS).trans hw

/-! The structures that it changes. -/

/-- The places for what is opened. -/
def opened : Place → Prop :=
  fun p => inNode directoryNodeSlot p ∨ inNode directoryInfoSlot p

theorem opened_directory {p : Place} (h : inNode directoryNodeSlot p) : opened p :=
  .inl h

theorem opened_info {id : Nat} {p : Place} (h : p = place (directoryInfoAddress id)) : opened p := by
  rw [h, place_directoryInfoAddress]
  exact .inr ⟨id, rfl⟩

theorem openMountPoint_touches {openedFileAddress mountPointAddress inode replyAddress : Nat}
    {info : DirectoryInfo} :
    Touches opened (openMountPoint state openedFileAddress mountPointAddress info inode
      replyAddress) := by
  refine .bind (allocUntyped_touches.mono fun _ => opened_info) fun _ => .ite .pure ?_
  refine .bind (nodeDelete_touches.mono fun p hp => .inl ⟨_, hp⟩) fun _ =>
    .bind lock_touches fun _ => .ite .pure ?_
  exact .bind (writeStructure_touches.mono fun _ => opened_info) fun _ =>
    .bind unlock_touches fun _ => badgeAndSend_touches

theorem proxyDirectory_touches {openedFileAddress inode replyAddress : Nat}
    {info : DirectoryInfo} :
    Touches opened (proxyDirectory state openedFileAddress info inode replyAddress) := by
  have hdelete : ∀ {caller : Caller} {slot : Nat},
      Touches opened (nodeDelete caller directoryInfoSlot slot) :=
    nodeDelete_touches.mono fun p hp => .inr ⟨_, hp⟩
  refine .bind (allocUntyped_touches.mono fun _ => opened_info) fun _ => .ite .pure
    (.bind lock_touches fun _ => .ite (.bind hdelete fun _ => .pure) ?_)
  exact .bind (writeStructure_touches.mono fun _ => opened_info) fun _ =>
    .bind unlock_touches fun _ => .bind badgeAndSend_touches fun _ =>
      .bind (onlyIf_touches (.bind hdelete fun _ => .pure)) fun _ => .pure

theorem openFileCallback_touches {P : Place → Prop}
    {fdEndpoint replyEndpoint nameAddress slot : Nat} {flags mode : BitVec 8} :
    Touches P (openFileCallback fdEndpoint replyEndpoint nameAddress flags mode slot) :=
  .bind fdOpenCall_touches fun _ => .ite .pure .pure

theorem freeOpenedFile_touches {address : Nat} : Touches opened (freeOpenedFile address) :=
  freeStructure_touches.mono fun _ => opened_directory

theorem openFile_touches {fuel fdEndpoint : Nat} {info : DirectoryInfo} {message : IpcMessage} :
    Touches opened (openFile fuel state fdEndpoint info message) := by
  refine .bind (findSlotFor_touches fun _ => openFileCallback_touches) fun _ => .ite .pure ?_
  refine .bind fdStatCall_touches fun r => ?_
  obtain ⟨result, stat⟩ := r
  cases stat with
  | none => exact .bind freeOpenedFile_touches fun _ => .pure
  | some stat =>
      refine .bind findMountPoint_touches fun _ => .ite ?_ (.ite ?_ ?_)
      · exact .bind openMountPoint_touches fun _ =>
          .ite (.bind freeOpenedFile_touches fun _ => .pure) .pure
      · exact .bind send_touches fun _ => .bind freeOpenedFile_touches fun _ => .pure
      · exact .bind proxyDirectory_touches fun _ =>
          .ite (.bind freeOpenedFile_touches fun _ => .pure) .pure

/-! What it asks. -/

/-- The functions of `open_file` after the file has been opened. -/
def openFileCallers : List Caller :=
  [.findSlotFor, .openFile, .findMountPoint, .openMountPoint, .proxyDirectory, .freeStructure,
    .markSlotUnused]

theorem freeOpenedFile_emits {address : Nat} :
    Respects (Emits openFileCallers) (freeOpenedFile address) :=
  emits_mono freeStructure_emits (by decide)

/-- The part of `open_file` after the file has been opened. -/
def openedFile (fuel : Nat) (state : State) (info : DirectoryInfo) (replyCapability
    replyEndpointAddress openedFileAddress : Nat) : Vfs Nat := do
  match ← fdStatCall .openFile openedFileAddress replyEndpointAddress with
  | (result, none) =>
      freeOpenedFile openedFileAddress
      return result
  | (result, some stat) =>
      let mountPointAddress ← findMountPoint fuel info.namespaceId stat.inode
        info.enclosingFilesystem
      if mountPointAddress ≠ sizeMax then
        if (← openMountPoint state openedFileAddress mountPointAddress info stat.inode
            replyCapability) ≠ 0 then
          freeOpenedFile openedFileAddress
          return result
        else
          return 0
      else if !isDirectory stat.mode then
        let _ ← send .openFile replyCapability
          (returning (ipcMessage [] [⟨openedFileAddress, sizeMax⟩] 0) 0)
        freeOpenedFile openedFileAddress
        return result
      else if (← proxyDirectory state openedFileAddress info stat.inode replyCapability) ≠ 0 then
        freeOpenedFile openedFileAddress
        return result
      else
        return 0

theorem openFile_eq {fuel fdEndpoint : Nat} {info : DirectoryInfo} {message : IpcMessage} :
    openFile fuel state fdEndpoint info message = (do
      let openedFileAddress ← findSlotFor .directories maxOpenDirectories
        (openFileCallback fdEndpoint (threadStorageSlot state.threadId replyEndpointSlot)
          (fdOpenNameAddress message).address (fdOpenFlags message) (fdOpenMode message))
      if openedFileAddress = sizeMax then
        return eNoMem
      else
        openedFile fuel state info (fdReplyEndpoint message).address
          (threadStorageSlot state.threadId replyEndpointSlot) openedFileAddress) :=
  rfl

theorem openedFile_emits {fuel replyCapability replyEndpointAddress openedFileAddress : Nat}
    {info : DirectoryInfo} :
    Respects (Emits openFileCallers) (openedFile fuel state info replyCapability
      replyEndpointAddress openedFileAddress) := by
  refine .bind (fdStatCall_emits (by decide)) fun r => ?_
  obtain ⟨result, stat⟩ := r
  cases stat with
  | none => exact .bind freeOpenedFile_emits fun _ => .pure
  | some stat =>
      refine .bind (emits_mono findMountPoint_emits (by decide)) fun _ => .ite ?_ (.ite ?_ ?_)
      · exact .bind (emits_mono openMountPoint_emits (by decide)) fun _ =>
          .ite (.bind freeOpenedFile_emits fun _ => .pure) .pure
      · exact .bind (send_emits (by decide)) fun _ => .bind freeOpenedFile_emits fun _ => .pure
      · exact .bind (emits_mono proxyDirectory_emits (by decide)) fun _ =>
          .ite (.bind freeOpenedFile_emits fun _ => .pure) .pure

/-- The message that asks for a file. -/
def openRequest (replyEndpoint nameAddress : Nat) (flags mode : BitVec 8) : IpcMessage :=
  ipcMessage [fdOpen, flags, mode] [⟨replyEndpoint, sizeMax⟩, ⟨nameAddress, sizeMax⟩] 1

theorem byteOf_ipcMessage {bytes : List (BitVec 8)} {capabilities : List IpcCapability}
    {toCopy : BitVec 8} {i : Nat} (hi : i < ipcBufferSize) :
    byteOf (ipcMessage bytes capabilities toCopy).buffer i = bytes.getD i 0 := by
  simp [byteOf, ipcMessage, hi]

theorem carried_ipcMessage {s : Server} {bytes : List (BitVec 8)}
    {capabilities : List IpcCapability} {toCopy : BitVec 8} {i : Nat}
    (hi : i < ipcCapabilitySlots) :
    (carried s (ipcMessage bytes capabilities toCopy)).getD i none =
      if (capabilities.getD i noCapability).depth = 0 then none
      else s.fds (place (capabilities.getD i noCapability).address) := by
  simp [carried, ipcMessage, hi]

theorem flags_openRequest {replyEndpoint nameAddress : Nat} {flags mode : BitVec 8} :
    byteOf (openRequest replyEndpoint nameAddress flags mode).buffer 1 = flags :=
  byteOf_ipcMessage (by decide)

theorem carried_openRequest {s : Server} {replyEndpoint nameAddress : Nat}
    {flags mode : BitVec 8} :
    (carried s (openRequest replyEndpoint nameAddress flags mode)).getD 1 none =
      s.fds (place nameAddress) :=
  carried_ipcMessage (by decide)

/-- The directory is asked once. -/
theorem openFileCallback_asks {fdEndpoint replyEndpoint nameAddress slot : Nat}
    {flags mode : BitVec 8} {as : List Ask} {fds : Place → Option Fd} :
    Ensures (fun w => w.asks = as ∧ w.server.fds = fds)
      (openFileCallback fdEndpoint replyEndpoint nameAddress flags mode slot) fun _ w =>
        w.asks = as ++ [⟨place fdEndpoint, fds (place nameAddress), creates flags⟩] := by
  have hrest : ∀ {β : Type} {x : Vfs β} {bs : List Ask}, Respects (Emits []) x →
      Ensures (fun w => w.asks = bs) x fun _ w => w.asks = bs :=
    fun hx => asks_ensures hx (by decide)
  refine .bind (.bind ?_ fun _ => .pure fun _ hw => hw) fun _ =>
    .ite (fun _ => .pure fun _ hw => hw) fun _ => .pure fun _ hw => hw
  refine .bind ?_ fun _ => .ite (fun _ => .pure fun _ hw => hw) fun _ =>
    .bind (hrest receive_emits) fun _ => .ite (fun _ => .pure fun _ hw => hw)
      fun _ => .pure fun _ hw => hw
  intro w result w' hw h
  obtain ⟨answer, w₁, hask, h₁⟩ := bind_some h
  cases hask
  rw [getServer_bind] at h₁
  obtain ⟨u, w₂, hrecord, h₂⟩ := bind_some h₁
  obtain ⟨u, w₃, htake, h₃⟩ := bind_some h₂
  cases h₃
  have htaken := (onlyIf_emits (S := []) modifyServer_emits _ _ _ htake).asks (by decide)
  cases hrecord
  have hsent : askOf (.sent .openFileCallback fdEndpoint (w.server.fds (place fdEndpoint))
      (openRequest replyEndpoint nameAddress flags mode)
      (carried w.server (openRequest replyEndpoint nameAddress flags mode))
      (if (w.server.fds (place fdEndpoint)).isSome then
        (w.answers w.time .openFileCallback (.send fdEndpoint)).result else eCapInval)) =
      some ⟨place fdEndpoint, w.server.fds (place nameAddress), creates flags⟩ := by
    rw [askOf, flags_openRequest, carried_openRequest]
  rw [htaken, ← hw.1, ← hw.2]
  exact (List.filterMap_append ..).trans (congrArg _ (List.filterMap_cons_some hsent))

/-- No lock is refused to the functions. -/
def Grants (callers : List Caller) (answers : Nat → Caller → Request → Answer) : Prop :=
  ∀ time caller address, caller ∈ callers → (answers time caller (.lock address)).result = 0

theorem lock_granted {callers : List Caller} {caller : Caller} {address : Nat} {w w' : World}
    {found : Bool} (hgrants : Grants callers w.answers) (hcaller : caller ∈ callers)
    (h : lock caller address w = some (found, w')) : found = true := by
  cases h
  exact beq_iff_eq.mpr (hgrants w.time caller address hcaller)

theorem lock_fds {caller : Caller} {address : Nat} {w w' : World} {found : Bool}
    (h : lock caller address w = some (found, w')) : w'.server = w.server := by
  cases h
  rfl

/-- Every call of `open_file` asks its directory once, for whatever the name's slot holds. -/
theorem openFile_asks {fuel fdEndpoint : Nat} {info : DirectoryInfo} {message : IpcMessage}
    {as : List Ask} {name : Option Fd} :
    Ensures (fun w => Grants [.findSlotFor] w.answers ∧ w.asks = as ∧
        w.server.fds (place (fdOpenNameAddress message).address) = name)
      (openFile fuel state fdEndpoint info message) fun _ w =>
        w.asks = as ++ [⟨place fdEndpoint, name, creates (fdOpenFlags message)⟩] := by
  rw [openFile_eq]
  refine .bind (R := fun _ w =>
    w.asks = as ++ [⟨place fdEndpoint, name, creates (fdOpenFlags message)⟩]) ?_ fun _ =>
      .ite (fun _ => .pure fun _ hw => hw) fun _ => asks_ensures openedFile_emits (by decide)
  intro w result w' hw h
  obtain ⟨hgrants, has, hname⟩ := hw
  obtain ⟨found, w₁, hlock, h₁⟩ := bind_some h
  have hfound : found = true := lock_granted hgrants (by decide) hlock
  have hserver : w₁.server = w.server := lock_fds hlock
  have hasks : w₁.asks = as :=
    ((lock_emits (S := [.findSlotFor]) (by decide) _ _ _ hlock).asks (by decide)).trans has
  rw [hfound] at h₁
  simp only [Bool.not_true, Bool.false_eq_true, if_false] at h₁
  rw [getServer_bind] at h₁
  obtain ⟨u, w₂, hused, h₂⟩ := bind_some h₁
  obtain ⟨address, w₃, hcall, h₃⟩ := bind_some h₂
  have hbefore : w₂.asks = as ∧ w₂.server.fds = w.server.fds := by
    refine ⟨((onlyIf_emits (S := []) modifyServer_emits _ _ _ hused).asks
      (by decide)).trans hasks, ?_⟩
    rw [← hserver]
    revert hused
    unfold onlyIf
    split <;> intro hused <;> cases hused <;> rfl
  have hasked := openFileCallback_asks w₂ address w₃ hbefore hcall
  rw [hname] at hasked
  have hrest : w'.asks = w₃.asks := by
    refine Emits.asks (S := [.findSlotFor]) (Respects.bind (onlyIf_emits modifyServer_emits)
      (fun _ => .bind (unlock_emits (by decide)) fun _ => .pure) _ _ _ h₃) (by decide)
  rw [hrest, hasked]

end Cenix.Vfs
