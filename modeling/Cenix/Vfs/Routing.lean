import Cenix.Runs
import Cenix.Vfs.Creation

namespace Cenix.Vfs

open Programs

/-! Runs of the server, and where the messages for its descriptors go. -/

/-- The server with what it has handed out: for which process each `directory_info` has been
made, and from which process another one has got its namespace. -/
structure Registry where
  server : Server
  descriptors : List Descriptor
  owners : Nat → Option Nat
  creators : Nat → Option Nat

/-- A message from the process server, or by a descriptor, and how the system calls turn
out. -/
structure Delivery where
  sender : Option Descriptor
  fuel : Nat
  buffer : Buffer
  received : List (Option Fd)
  answers : Nat → Caller → Request → Answer

def Delivery.badge (m : Delivery) : Nat :=
  match m.sender with
  | none => ipcBadge 0 0
  | some d => d.badge

/-- The id of the `directory_info` of a descriptor. -/
def Descriptor.id (d : Descriptor) : Nat :=
  d.infoAddress / 2 ^ initNodeDepth

def Server.hasInfo (s : Server) (id : Nat) : Bool :=
  (permission (.directoryInfo id) (s.structures (.directoryInfo id))).isSome

def Server.hasProcess (s : Server) (n : Nat) : Bool :=
  (permission (.processData n) (s.structures (.processData n))).isSome

namespace Registry

/-- The process that a message creates. -/
def created (r : Registry) (m : Delivery) (s : Server) : Option Nat :=
  match m.sender with
  | none =>
      let n := pidOf m.buffer 2 % 2 ^ pidBits
      if s.hasProcess n && !r.server.hasProcess n then some n else none
  | some _ => none

/-- The process for which a message makes a `directory_info`. -/
def newOwner (r : Registry) (m : Delivery) (s : Server) : Option Nat :=
  match m.sender with
  | none => r.created m s
  | some d => r.owners d.id

def after (r : Registry) (m : Delivery) (w : World) : Registry where
  server := w.server
  descriptors := (w.seen ⟨0, none, r.descriptors⟩).descriptors
  owners := fun id =>
    if w.server.hasInfo id = false then none
    else if r.server.hasInfo id then r.owners id
    else r.newOwner m w.server
  creators := fun n =>
    if r.created m w.server = some n ∧ byteOf m.buffer 1 &&& vfsShareNamespace ≠ 0 then
      some (pidOf m.buffer 4 % 2 ^ pidBits)
    else
      r.creators n

def step (r : Registry) (m : Delivery) : Option Registry :=
  (mainLoopRound m.fuel mainState m.buffer m.badge m.received (r.server.world m.answers)).map
    fun (_, w) => r.after m w

/-- Badges cannot be forged. -/
def Legal (r : Registry) (m : Delivery) : Prop :=
  ∀ d, m.sender = some d → d ∈ r.descriptors

/-- The registry when `main_loop` is entered. -/
def begun (w : World) : Registry where
  server := w.server
  descriptors := (w.seen ⟨0, none, []⟩).descriptors
  owners := fun id => if w.server.hasInfo id && w.server.hasProcess 1 then some 1 else none
  creators := fun _ => none

def Begins (r : Registry) : Prop :=
  ∃ answers u w, start (Server.initial.world answers) = some (u, w) ∧ r = begun w

end Registry

/-! Routing. -/

def Kind.handler : Kind → Handler
  | .root => .mountPoint
  | .mountPoint => .mountPoint
  | .directory => .directory

/-- Whether the handler for an object looks for its `directory_info` for a call. -/
def Kind.looks : Kind → BitVec 8 → Bool
  | .root, _ => true
  | .mountPoint, _ => true
  | .directory, call => call == fdOpen || call == fdMount

/-- The calls that are passed on to the file system. -/
def passedOn (call : BitVec 8) : Bool :=
  [fdRead, fdReadFast, fdStat, fdLink, fdUnlink].contains call

/-- To whom messages have been passed on. -/
def World.passed (w : World) : List (Option Fd) :=
  w.events.filterMap fun e =>
    match e with
    | .sent .passThruDirectoryMessage _ receiver _ _ _ => some receiver
    | _ => none

/-- Messages with the badge of the descriptor go to the handler for the object that it stands
for, which looks for the `directory_info` that has been allocated for the descriptor and for
no other one, and passes on to the directory that has been opened. -/
structure Registry.Routed (r : Registry) (d : Descriptor) : Prop where
  dispatched : handlerOf d.badge = d.kind.handler
  allocated : ∃ info, r.server.structures (place d.infoAddress) = some (.directoryInfo info)
  own : ∀ d' ∈ r.descriptors, d'.infoAddress = d.infoAddress → d' = d
  locked : ∀ fuel message answers left w, message.badge = d.badge →
    handleMessage fuel mainState message (r.server.world answers) = some (left, w) →
      w.infoLocks = if d.kind.looks (fdCallNumber message) then [d.infoAddress] else []
  passed : d.kind = .directory → ∀ fuel message answers left w, message.badge = d.badge →
    passedOn (fdCallNumber message) →
      handleMessage fuel mainState message (r.server.world answers) = some (left, w) →
        w.passed = [d.opened]

/-! What is kept in every run. -/

structure Registry.Sound (r : Registry) : Prop where
  stamped : ∀ d ∈ r.descriptors, d.Stamped
  held : ∀ d ∈ r.descriptors, permission (place d.infoAddress)
    (r.server.structures (place d.infoAddress)) ≠ none
  distinct : (r.descriptors.map fun d => d.infoAddress).Nodup

variable {r r' : Registry} {m : Delivery} {w w' : World} {c : Bool}

theorem mem_of_infoAddress_eq {ds : List Descriptor} {d d' : Descriptor}
    (h : (ds.map fun d => d.infoAddress).Nodup) (hd : d ∈ ds) (hd' : d' ∈ ds)
    (heq : d'.infoAddress = d.infoAddress) : d' = d :=
  List.inj_on_of_nodup_map h hd' hd heq

theorem Descriptor.Stamped.infoLock {d : Descriptor} (h : d.Stamped) {caller : Caller}
    {found : Bool} (hcaller : isHandler caller = true) :
    infoLock (.locked caller d.infoAddress found) = some d.infoAddress := by
  obtain ⟨id, -, haddress, -⟩ := h
  have hslot : d.infoAddress % 2 ^ initNodeDepth = directoryInfoSlot := by
    rw [haddress]
    exact nodeAddress_mod id (by decide)
  simp [Vfs.infoLock, hcaller, hslot, directoryInfoSlot, namespaceNodeSlot]

theorem badgeFor_flags (kind : Kind) (id : Nat) :
    ipcFlags (badgeFor kind id) = ipcFlagIsMountPoint := by
  cases kind <;> exact ipcFlags_ipcBadge _ _

/-- All descriptors are taken for ones of mount points. -/
theorem Descriptor.Stamped.handlerOf {d : Descriptor} (h : d.Stamped) :
    handlerOf d.badge = .mountPoint := by
  obtain ⟨id, -, -, hbadge⟩ := h
  rw [hbadge, Vfs.handlerOf, badgeFor_flags]
  rfl

theorem Descriptor.Stamped.ipcId {d : Descriptor} (h : d.Stamped) (hkind : d.kind ≠ .directory) :
    ipcId d.badge = d.infoAddress := by
  obtain ⟨id, -, haddress, hbadge⟩ := h
  rw [hbadge, haddress]
  cases hd : d.kind with
  | root => exact ipcId_ipcBadge _ _
  | mountPoint => exact ipcId_ipcBadge _ _
  | directory => exact absurd hd hkind

theorem permission_directoryInfo_some {id : Nat} {x : Option Structure}
    (h : permission (.directoryInfo id) x ≠ none) : ∃ info, x = some (.directoryInfo info) := by
  cases x with
  | none => exact absurd rfl h
  | some structure' =>
      cases structure' with
      | directoryInfo info => exact ⟨info, rfl⟩
      | uninitialized | processData | mountPoint | listInfo | fsNamespace => exact absurd rfl h

theorem routed_iff (h : r.Sound) {d : Descriptor} (hd : d ∈ r.descriptors) :
    r.Routed d ↔ d.kind ≠ .directory := by
  have hstamped := h.stamped d hd
  constructor
  · intro hrouted hkind
    have hdispatched := hrouted.dispatched
    rw [hstamped.handlerOf, hkind] at hdispatched
    cases hdispatched
  · intro hkind
    have hlooks : ∀ call, d.kind.looks call = true := by
      intro call
      cases hd : d.kind <;> first | rfl | exact absurd hd hkind
    constructor
    · rw [hstamped.handlerOf]
      cases hd : d.kind <;> first | rfl | exact absurd hd hkind
    · obtain ⟨id, hid, haddress, -⟩ := hstamped
      have hheld := h.held d hd
      rw [haddress, place_directoryInfo hid] at hheld ⊢
      exact permission_directoryInfo_some hheld
    · exact fun d' hd' heq => mem_of_infoAddress_eq h.distinct hd hd' heq
    · intro fuel message answers left w hbadge hhandle
      rw [hlooks, if_pos rfl]
      simp only [handleMessage, hbadge, hstamped.handlerOf] at hhandle
      obtain ⟨u, w₁, hhandler, hrest⟩ := bind_some hhandle
      cases hrest
      obtain ⟨found, hlocks⟩ := handleMountPointMessage_infoLocks mainState_stores hhandler
      rw [hlocks, hbadge, hstamped.ipcId hkind, hstamped.infoLock rfl]
      rfl
    · exact fun hdirectory => absurd hdirectory hkind

/-! One round of the main loop. -/

theorem receiveMessage_some {state : State} {buffer : Buffer} {badge : Nat}
    {received : List (Option Fd)} {message : IpcMessage}
    (h : receiveMessage state buffer badge received w = some (message, w')) :
    message.badge = badge ∧ message.buffer = buffer ∧
      w'.server.structures = w.server.structures := by
  cases h
  exact ⟨rfl, rfl, storeCapabilities_structures⟩

/-- What a round does is what its handler does. -/
theorem mainLoopRound_some {state : State} {fuel badge : Nat} {buffer : Buffer}
    {received : List (Option Fd)} {u : Unit}
    (h : mainLoopRound fuel state buffer badge received w = some (u, w')) :
    ∃ message left w₁ w₂, message.badge = badge ∧ message.buffer = buffer ∧
      w₁.server.structures = w.server.structures ∧ Still w w₁ ∧
        handleMessage fuel state message w₁ = some (left, w₂) ∧ Still w₂ w' := by
  obtain ⟨message, w₁, hreceive, h₁⟩ := bind_some h
  obtain ⟨left, w₂, hhandle, h₂⟩ := bind_some h₁
  obtain ⟨hbadge, hbuffer, hstructures⟩ := receiveMessage_some hreceive
  exact ⟨message, left, w₁, w₂, hbadge, hbuffer, hstructures, receiveMessage_still _ _ _ hreceive,
    hhandle, deleteLeftover_still _ _ _ h₂⟩

theorem mainLoopRound_mountPoint {state : State} {fuel badge : Nat} {buffer : Buffer}
    {received : List (Option Fd)} {u : Unit} (hstate : state.Stores)
    (hhandler : handlerOf badge = .mountPoint)
    (hc : ∀ info, w.server.structures (place (ipcId badge)) = some (.directoryInfo info) →
      info.canModifyNamespace = c)
    (h : mainLoopRound fuel state buffer badge received w = some (u, w')) :
    Progress none c w w' := by
  obtain ⟨message, left, w₁, w₂, hbadge, -, hstructures, hbefore, hhandle, hafter⟩ :=
    mainLoopRound_some h
  simp only [handleMessage, hbadge, hhandler] at hhandle
  obtain ⟨u, w₃, hmessage, hrest⟩ := bind_some hhandle
  cases hrest
  refine .still_left hbefore (.still_right ?_ hafter)
  refine handleMountPointMessage_progress hstate ?_ hmessage
  rw [hstructures, hbadge]
  exact hc

theorem mainLoopRound_vfs {state : State} {fuel badge : Nat} {buffer : Buffer}
    {received : List (Option Fd)} {u : Unit} (hstate : state.Stores)
    (hhandler : handlerOf badge = .vfs)
    (h : mainLoopRound fuel state buffer badge received w = some (u, w')) :
    ∃ c, Progress (some (pidOf buffer 2 % 2 ^ pidBits)) c w w' ∧
      (byteOf buffer 1 &&& vfsShareNamespace ≠ 0 → c = true →
        w.permissions (.processData (pidOf buffer 4 % 2 ^ pidBits)) = some true) ∧
      (Withheld w w' ∨ w.permissions (.processData (pidOf buffer 2 % 2 ^ pidBits)) = none ∧
        w'.permissions (.processData (pidOf buffer 2 % 2 ^ pidBits)) ≠ none) := by
  obtain ⟨message, left, w₁, w₂, hbadge, hbuffer, -, hbefore, hhandle, hafter⟩ :=
    mainLoopRound_some h
  simp only [handleMessage, hbadge, hhandler] at hhandle
  obtain ⟨u, w₃, hmessage, hrest⟩ := bind_some hhandle
  cases hrest
  obtain ⟨c, hgrows, hshare, hsent⟩ := handleVfsMessage_grows hstate hmessage
  rw [hbuffer] at hgrows hshare hsent
  rw [hbefore.permissions] at hshare hsent
  refine ⟨c, .still_left hbefore (.still_right hgrows.progress hafter), hshare, ?_⟩
  rw [hafter.permissions]
  refine hsent.imp (fun hwithheld => ?_) id
  exact IsTrans.trans _ _ _ hbefore.withheld (IsTrans.trans _ _ _ hwithheld hafter.withheld)

/-! Runs. -/

theorem Progress.kept {pid : Option Nat} (h : Progress pid c w w') {p : Place}
    (hp : w.permissions p ≠ none) : w'.permissions p = w.permissions p := by
  cases h.permissions p with
  | inl heq => exact heq
  | inr hnew => exact absurd hnew.2.1 hp

theorem Registry.Sound.after {pid : Option Nat} {answers : Nat → Caller → Request → Answer}
    (h : r.Sound) (hprogress : Progress pid c (r.server.world answers) w) :
    (r.after m w).Sound := by
  obtain ⟨ds, hdescriptors, hfresh⟩ := hprogress.descriptors ⟨0, none, r.descriptors⟩
  have hall : (r.after m w).descriptors = r.descriptors ++ ds := hdescriptors
  have hkept : ∀ d ∈ r.descriptors, w.permissions (place d.infoAddress) ≠ none := by
    intro d hd
    rw [hprogress.kept (h.held d hd)]
    exact h.held d hd
  constructor
  · intro d hd
    rw [hall] at hd
    exact (List.mem_append.mp hd).elim (h.stamped d) (hfresh.stamped d)
  · intro d hd
    rw [hall] at hd
    exact (List.mem_append.mp hd).elim (hkept d) (hfresh.held d)
  · rw [hall, List.map_append]
    refine List.nodup_append.mpr ⟨h.distinct, hfresh.distinct, ?_⟩
    intro a ha b hb hab
    obtain ⟨d, hd, rfl⟩ := List.mem_map.mp ha
    obtain ⟨d', hd', rfl⟩ := List.mem_map.mp hb
    have hnone := hfresh.fresh d' hd'
    rw [← hab] at hnone
    exact h.held d hd hnone

/-- What happens before `main_loop` is entered. -/
theorem start_progress {answers : Nat → Caller → Request → Answer} {u : Unit}
    (h : start (Server.initial.world answers) = some (u, w)) :
    ∃ c, Progress (some 1) c (Server.initial.world answers) w ∧
      (Withheld (Server.initial.world answers) w ∨ w.permissions (.processData 1) ≠ none) := by
  obtain ⟨result, w₁, hsend, h₁⟩ := bind_some h
  have hstill : Still (Server.initial.world answers) w₁ := by
    refine Respects.bind copyEndpoint_still (fun _ => .ite .pure ?_) _ _ _ hsend
    exact .bind (send_still rfl nofun) fun _ => .bind storageDelete_still fun _ => .pure
  split at h₁
  · cases h₁
  · obtain ⟨result', w₂, hset, h₂⟩ := bind_some h₁
    obtain ⟨c, hgrows, -, hsent⟩ := setUpFilesystemForProcess_grows mainState_stores hset
    split at h₂
    · cases h₂
    · cases h₂
      refine ⟨c, .still_left hstill hgrows.progress, ?_⟩
      exact hsent.imp (fun hwithheld => IsTrans.trans _ _ _ hstill.withheld hwithheld) fun h => h.2

theorem Registry.Begins.sound (h : r.Begins) : r.Sound := by
  obtain ⟨answers, u, w, hstart, rfl⟩ := h
  obtain ⟨c, hprogress, -⟩ := start_progress hstart
  have hempty : Registry.Sound ⟨Server.initial, [], fun _ => none, fun _ => none⟩ :=
    ⟨nofun, nofun, List.nodup_nil⟩
  let m : Delivery := ⟨none, 0, emptyBuffer, [], answers⟩
  have hafter : Registry.Sound (Registry.after _ m w) := hempty.after hprogress
  exact ⟨hafter.stamped, hafter.held, hafter.distinct⟩

theorem Registry.Sound.step (h : r.Sound) (hlegal : r.Legal m) (hstep : r.step m = some r') :
    r'.Sound := by
  simp only [Registry.step, Option.map_eq_some_iff] at hstep
  obtain ⟨⟨u, w⟩, hround, rfl⟩ := hstep
  cases hsender : m.sender with
  | none =>
      have hbadge : m.badge = ipcBadge 0 0 := by rw [Delivery.badge, hsender]
      rw [hbadge] at hround
      obtain ⟨c, hprogress, -⟩ := mainLoopRound_vfs mainState_stores rfl hround
      exact h.after hprogress
  | some d =>
      have hbadge : m.badge = d.badge := by rw [Delivery.badge, hsender]
      have hhandler := (h.stamped d (hlegal d hsender)).handlerOf
      rw [hbadge] at hround
      obtain ⟨c, hc⟩ := exists_permission (ipcId d.badge) (r.server.world m.answers)
      exact h.after (mainLoopRound_mountPoint mainState_stores hhandler hc hround)

theorem registry_sound (h : Reaches Registry.step Registry.Legal Registry.Begins r) : r.Sound :=
  h.invariant (fun _ hbegins => hbegins.sound) fun _ _ _ hsound hlegal hstep =>
    hsound.step hlegal hstep

/-- In every run exactly the descriptors of proxied directories are misrouted. -/
theorem descriptors_routed (h : Reaches Registry.step Registry.Legal Registry.Begins r)
    {d : Descriptor} (hd : d ∈ r.descriptors) : r.Routed d ↔ d.kind ≠ .directory :=
  routed_iff (registry_sound h) hd

/-! Concrete runs. -/

instance (r : Registry) (m : Delivery) : Decidable (r.Legal m) :=
  match h : m.sender with
  | none => isTrue fun d hd => by rw [h] at hd; cases hd
  | some d =>
      decidable_of_iff (d ∈ r.descriptors)
        ⟨fun hd d' hd' => by rw [h] at hd'; cases hd'; exact hd, fun hlegal => hlegal d h⟩

section Executable

variable (condition : Registry → Delivery → Prop) [∀ r m, Decidable (condition r m)]

/-- The registry after a start and some messages. -/
def Registry.runFrom (answers : Nat → Caller → Request → Answer) (ms : List Delivery) :
    Option Registry :=
  (start (Server.initial.world answers)).bind fun (_, w) =>
    runWhile Registry.step condition (Registry.begun w) ms

theorem Registry.reaches_runFrom {answers : Nat → Caller → Request → Answer}
    {ms : List Delivery} (h : Registry.runFrom condition answers ms = some r) :
    Reaches Registry.step condition Registry.Begins r := by
  simp only [Registry.runFrom, Option.bind_eq_some_iff] at h
  obtain ⟨⟨u, w⟩, hstart, hrun⟩ := h
  exact Reaches.runWhile (.initial ⟨answers, u, w, hstart, rfl⟩) hrun

end Executable

/-- Every call succeeds, and everything that is opened is a directory. -/
def opensDirectories : Nat → Caller → Request → Answer :=
  fun _ _ _ => ⟨0, fun _ => false, some (.other 1), 0, 5, 1024⟩

def rootDescriptor : Descriptor :=
  ⟨.root, badgeFor .root 0, directoryInfoAddress 0, none⟩

def bufferOf (bytes : List (BitVec 8)) : Buffer :=
  Vector.ofFn fun i => bytes.getD i 0

/-- A call by a descriptor with a reply endpoint and one more capability. -/
def callBy (d : Descriptor) (call : BitVec 8) : Delivery :=
  ⟨some d, 5, bufferOf [call], [some (.other 2), some (.other 3)], opensDirectories⟩

/-- A directory of the root file system. -/
def directoryDescriptor : Descriptor :=
  ⟨.directory, badgeFor .directory 1, directoryInfoAddress 1, some (.other 1)⟩

/-- A file system is mounted as the root and a directory is opened in it. -/
theorem run_opensDirectory : ∃ r, Registry.runFrom Registry.Legal opensDirectories
    [callBy rootDescriptor fdMount, callBy rootDescriptor fdOpen] = some r ∧
      r.descriptors = [rootDescriptor, directoryDescriptor] := by
  have hrun : ((Registry.runFrom Registry.Legal opensDirectories
      [callBy rootDescriptor fdMount, callBy rootDescriptor fdOpen]).map fun r =>
        decide (r.descriptors = [rootDescriptor, directoryDescriptor])) = some true := by
    decide +kernel
  simp only [Option.map_eq_some_iff, decide_eq_true_eq] at hrun
  exact hrun

theorem descriptors_routed_root : ∃ r, Reaches Registry.step Registry.Legal Registry.Begins r ∧
    rootDescriptor ∈ r.descriptors ∧ r.Routed rootDescriptor := by
  obtain ⟨r, hrun, hdescriptors⟩ := run_opensDirectory
  have hreaches := Registry.reaches_runFrom _ hrun
  have hmem : rootDescriptor ∈ r.descriptors := by simp [hdescriptors]
  exact ⟨r, hreaches, hmem, (descriptors_routed hreaches hmem).mpr nofun⟩

/-- A directory that has been opened has the badge of a mount point. -/
theorem directory_misrouted : ∃ r, Reaches Registry.step Registry.Legal Registry.Begins r ∧
    directoryDescriptor ∈ r.descriptors ∧ ¬r.Routed directoryDescriptor := by
  obtain ⟨r, hrun, hdescriptors⟩ := run_opensDirectory
  refine ⟨r, Registry.reaches_runFrom _ hrun, by simp [hdescriptors], fun hrouted => ?_⟩
  exact absurd hrouted.dispatched (by decide)

end Cenix.Vfs
