import Cenix.Vfs.Rounds

namespace Cenix.Vfs

open Programs

/-! Union directories. -/

/-- A bucket of a namespace, for which `fuel` rounds are enough. -/
inductive Bucket (f : Place → Option Structure) : (fuel address : Nat) → Prop where
  | none {fuel : Nat} : Bucket f (fuel + 1) sizeMax
  | mountPoint {fuel address id : Nat} {mountPoint : MountPoint}
      (hplace : place address = .mountPoint id)
      (hmountPoint : f (.mountPoint id) = some (.mountPoint mountPoint))
      (hrest : Bucket f fuel mountPoint.next) : Bucket f (fuel + 1) address

/-- Looking for mount points in a namespace comes to an end. -/
def Browsable (f : Place → Option Structure) (fuel namespaceId : Nat) : Prop :=
  ∃ n, f (place (namespaceAddress namespaceId)) = some (.fsNamespace n) ∧
    ∀ bucket, Bucket f fuel (n.mountPointAddresses bucket)

variable {f : Place → Option Structure} {w w' : World} {state : State} {fuel : Nat} {α : Type}

/-! `open_file` returns. -/

theorem agrees_ensures {P : Place → Prop} {x : Vfs α} (hx : Touches P x)
    (hP : ∀ p, P p → opened p) : Ensures (Agrees f) x fun _ => Agrees f :=
  fun _ _ _ hw h => hw.of_changes (hx _ _ _ h) hP

/-- What always returns and only changes what is opened. -/
theorem agrees_returns {P : Place → Prop} {x : Vfs α} (htotal : Total x) (hx : Touches P x)
    (hP : ∀ p, P p → opened p) : Returns (Agrees f) x fun _ => Agrees f :=
  htotal.returns (agrees_ensures hx hP)

theorem findSlotFor_total {ids : Ids} {maxItems : Nat} {fn : Nat → Vfs Nat}
    (hfn : ∀ id, Total (fn id)) : Total (findSlotFor ids maxItems fn) :=
  .bind lock_total fun _ => .ite (fun _ => pure_total) fun _ => .bind getServer_total fun _ =>
    .bind (onlyIf_total modifyServer_total) fun _ => .bind (hfn _) fun _ =>
      .bind (onlyIf_total modifyServer_total) fun _ => .bind unlock_total fun _ => pure_total

theorem openFileCallback_total {fdEndpoint replyEndpoint nameAddress slot : Nat}
    {flags mode : BitVec 8} :
    Total (openFileCallback fdEndpoint replyEndpoint nameAddress flags mode slot) :=
  .bind (.bind vfsCall_total fun _ => pure_total) fun _ =>
    .ite (fun _ => pure_total) fun _ => pure_total

theorem fdStatCall_total {caller : Caller} {fdAddress replyEndpoint : Nat} :
    Total (fdStatCall caller fdAddress replyEndpoint) :=
  .bind vfsCall_total fun _ => pure_total

theorem findInBucket_returns {inode enclosing address : Nat} (hbucket : Bucket f fuel address) :
    Returns (Agrees f) (findInBucket inode enclosing fuel address) fun _ _ => True := by
  induction hbucket with
  | none => exact .pure fun _ _ => trivial
  | @mountPoint fuel address id mountPoint hplace hmountPoint _ ih =>
      refine .ite (fun _ => .pure fun _ _ => trivial) fun _ => ?_
      refine .bind (agrees_returns lock_total lock_touches fun _ => False.elim) fun _ =>
        .ite (fun _ => .pure fun _ _ => trivial) fun _ => ?_
      refine .bind (R := fun m w => m = mountPoint ∧ Agrees f w) ?_ fun m => .and_pre fun hm => ?_
      · intro w hw
        refine ⟨mountPoint, w, mountPointAt_of ?_, rfl, hw⟩
        rw [hplace, hw _ not_opened_mountPoint, hmountPoint]
      · subst hm
        refine .bind (agrees_returns unlock_total unlock_touches fun _ => False.elim) fun _ =>
          .ite (fun _ => .pure fun _ _ => trivial) fun _ => ih

theorem findMountPoint_returns {namespaceId inode enclosing : Nat}
    (hbrowsable : Browsable f fuel namespaceId) :
    Returns (Agrees f) (findMountPoint fuel namespaceId inode enclosing) fun _ _ => True := by
  obtain ⟨n, hn, hbuckets⟩ := hbrowsable
  refine .bind (agrees_returns lock_total lock_touches fun _ => False.elim) fun _ =>
    .ite (fun _ => .pure fun _ _ => trivial) fun _ => ?_
  refine .bind (R := fun n' w => n' = n ∧ Agrees f w) ?_ fun n' => .and_pre fun hn' => ?_
  · intro w hw
    refine ⟨n, w, fsNamespaceAt_of ?_, rfl, hw⟩
    rw [place_namespaceAddress] at hn ⊢
    rw [hw _ not_opened_fsNamespace, hn]
  · subst hn'
    exact .bind (findInBucket_returns (hbuckets _)) fun _ => .bind unlock_total fun _ => pure_total

/-- There is memory to write to at a place. -/
def Present (p : Place) (w : World) : Prop :=
  w.server.structures p ≠ none

theorem Present.ensures {P : Place → Prop} {p : Place} {x : Vfs α} (hx : Touches P x)
    (hp : ¬P p) : Ensures (Present p) x fun _ => Present p := by
  intro w a w' hw h
  rw [Present, (hx _ _ _ h).structures p hp]
  exact hw

theorem allocUntyped_present {caller : Caller} {address : Nat} :
    Returns (fun _ => True) (allocUntyped caller address) fun result w =>
      result = 0 → Present (place address) w := by
  intro w _
  obtain ⟨result, w', h, hresult⟩ := allocUntyped_returns (f := w.server.structures) w rfl
  refine ⟨result, w', h, fun hdone => ?_⟩
  rcases hresult with ⟨hfailed, -⟩ | ⟨-, -, hsees⟩
  · exact absurd hdone hfailed
  · rw [Present, show w'.server.structures = _ from hsees, Function.update_self]
    exact Option.some_ne_none _

theorem writeStructure_present {address : Nat} {structure' : Structure} :
    Returns (Present (place address)) (writeStructure address structure') fun _ _ => True := by
  intro w hw
  have hreturns : Returns (Sees w.server.structures) (writeStructure address structure')
    fun _ => Sees _ := writeStructure_returns hw
  obtain ⟨u, w', h, -⟩ := hreturns w rfl
  exact ⟨u, w', h, trivial⟩

theorem openMountPoint_total {openedFileAddress mountPointAddress inode replyAddress : Nat}
    {info : DirectoryInfo} :
    Total (openMountPoint state openedFileAddress mountPointAddress info inode replyAddress) := by
  refine .bind allocUntyped_present fun result => .ite (fun _ => .pure fun _ _ => trivial)
    fun hdone => ?_
  refine .pre (A := Present (place (directoryInfoAddress (openedFileAddress / 2 ^ initNodeDepth))))
    ?_ fun w hw => hw (not_not.mp hdone)
  refine .bind (nodeDelete_total.returns (Present.ensures nodeDelete_touches ?_)) fun _ => ?_
  · rw [place_directoryInfoAddress]
    exact fun h => Place.noConfusion h
  refine .bind (lock_total.returns (Present.ensures (P := nowhere) lock_touches id)) fun _ =>
    .ite (fun _ => .pure fun _ _ => trivial) fun _ => ?_
  exact .bind writeStructure_present fun _ => .bind unlock_total fun _ => badgeAndSend_total

theorem proxyDirectory_total {openedFileAddress inode replyAddress : Nat}
    {info : DirectoryInfo} :
    Total (proxyDirectory state openedFileAddress info inode replyAddress) := by
  refine .bind allocUntyped_present fun result => .ite (fun _ => .pure fun _ _ => trivial)
    fun hdone => ?_
  refine .pre (A := Present (place (directoryInfoAddress (openedFileAddress / 2 ^ initNodeDepth))))
    ?_ fun w hw => hw (not_not.mp hdone)
  refine .bind (lock_total.returns (Present.ensures (P := nowhere) lock_touches id)) fun _ =>
    .ite (fun _ => ?_) fun _ => ?_
  · exact .bind (nodeDelete_total.weaken (fun _ _ => trivial) fun _ _ h => h) fun _ => pure_total
  · refine .bind writeStructure_present fun _ => .bind unlock_total fun _ =>
      .bind badgeAndSend_total fun _ => .bind (onlyIf_total ?_) fun _ => pure_total
    exact .bind nodeDelete_total fun _ => pure_total

theorem openFile_returns {fdEndpoint : Nat} {info : DirectoryInfo} {message : IpcMessage}
    (hbrowsable : Browsable f fuel info.namespaceId) :
    Returns (Agrees f) (openFile fuel state fdEndpoint info message) fun _ => Agrees f := by
  suffices hreturns : Returns (Agrees f) (openFile fuel state fdEndpoint info message)
      fun _ _ => True from
    (hreturns.and (agrees_ensures openFile_touches fun _ h => h)).post fun _ _ h => h.2
  refine .bind (agrees_returns (findSlotFor_total fun _ => openFileCallback_total)
    (findSlotFor_touches (P := nowhere) fun _ => openFileCallback_touches) fun _ => False.elim)
    fun _ => .ite (fun _ => .pure fun _ _ => trivial) fun _ => ?_
  refine .bind (agrees_returns fdStatCall_total (fdStatCall_touches (P := nowhere))
    fun _ => False.elim) fun r => ?_
  obtain ⟨result, stat⟩ := r
  have hfree : ∀ {P : World → Prop} {address : Nat},
      Returns P (freeOpenedFile address) fun _ _ => True :=
    fun {P address} => freeStructure_total.weaken (fun _ _ => trivial) fun _ _ h => h
  cases stat with
  | none => exact .bind hfree fun _ => .pure fun _ _ => trivial
  | some stat =>
      refine .bind (findMountPoint_returns hbrowsable) fun _ => .ite (fun _ => ?_) fun _ =>
        .ite (fun _ => ?_) fun _ => ?_
      · exact .bind openMountPoint_total fun _ =>
          .ite (fun _ => .bind hfree fun _ => pure_total) fun _ => pure_total
      · exact .bind send_total fun _ => .bind hfree fun _ => pure_total
      · exact .bind proxyDirectory_total fun _ =>
          .ite (fun _ => .bind hfree fun _ => pure_total) fun _ => pure_total

/-! Searches. -/

/-- A call of `open_file` for a request, in whatever directory and with whatever flags. -/
def Opens (fuel : Nat) (state : State) (info : DirectoryInfo) (message : IpcMessage) (w : World)
    (result : Nat) (w' : World) : Prop :=
  ∃ address request, request.capabilities = message.capabilities ∧
    openFile fuel state address info request w = some (result, w')

/-- Files are opened one after the other until that works once; each time one directory is
asked. -/
inductive Searched (opens : World → Nat → World → Prop) :
    List Ask → World → Nat → World → Prop where
  | none {w w' : World} (h : Rests w w') : Searched opens [] w eNoEnt w'
  | found {a : Ask} {w w₁ w₂ w₃ : World} (hbefore : Rests w w₁) (hopens : opens w₁ 0 w₂)
      (hask : w₂.asks = w₁.asks ++ [a]) (hafter : Rests w₂ w₃) : Searched opens [a] w 0 w₃
  | next {a : Ask} {as : List Ask} {failed result : Nat} {w w₁ w₂ w₃ : World}
      (hbefore : Rests w w₁) (hopens : opens w₁ failed w₂) (hfailed : failed ≠ 0)
      (hask : w₂.asks = w₁.asks ++ [a]) (hrest : Searched opens as w₂ result w₃) :
      Searched opens (a :: as) w result w₃

namespace Searched

variable {opens : World → Nat → World → Prop} {as bs : List Ask} {result : Nat} {w₁ : World}

theorem asks (h : Searched opens as w result w') : w'.asks = w.asks ++ as := by
  induction h with
  | none h => rw [h.asks, List.append_nil]
  | found hbefore _ hask hafter => rw [hafter.asks, hask, hbefore.asks]
  | next hbefore _ _ hask _ ih => rw [ih, hask, hbefore.asks, List.append_assoc, List.singleton_append]

theorem rests_left (hrests : Rests w w₁) (h : Searched opens as w₁ result w') :
    Searched opens as w result w' := by
  cases h with
  | none h => exact .none (IsTrans.trans _ _ _ hrests h)
  | found hbefore hopens hask hafter =>
      exact .found (IsTrans.trans _ _ _ hrests hbefore) hopens hask hafter
  | next hbefore hopens hfailed hask hrest =>
      exact .next (IsTrans.trans _ _ _ hrests hbefore) hopens hfailed hask hrest

theorem rests_right (h : Searched opens as w result w₁) (hrests : Rests w₁ w') :
    Searched opens as w result w' := by
  induction h with
  | none h => exact .none (IsTrans.trans _ _ _ h hrests)
  | found hbefore hopens hask hafter =>
      exact .found hbefore hopens hask (IsTrans.trans _ _ _ hafter hrests)
  | next hbefore hopens hfailed hask _ ih => exact .next hbefore hopens hfailed hask (ih hrests)

/-- A search that has failed may go on. -/
theorem append (h : Searched opens as w result w₁) (hresult : result ≠ 0) {result' : Nat}
    (h' : Searched opens bs w₁ result' w') : Searched opens (as ++ bs) w result' w' := by
  induction h with
  | none h => exact h'.rests_left h
  | found => exact absurd rfl hresult
  | next hbefore hopens hfailed hask _ ih => exact .next hbefore hopens hfailed hask (ih hresult h')

end Searched

/-- Which directories a pass looks at. -/
def looksAt (allowCreate : Bool) (d : Mounted) : Bool :=
  !(d.createFlagged && !allowCreate)

/-- The asks of one pass: at the addresses that are built for the directories it looks at. -/
structure PassAsks (request : IpcMessage) (ds : List Mounted) (name : Option Fd)
    (as : List Ask) : Prop where
  places : as.map Ask.place = ds.map fun d => place d.address
  create : ∀ a ∈ as, a.create = creates (fdOpenFlags request)
  name : ∀ a ∈ as.head?, a.name = name

/-- The functions whose locks a search depends on. -/
def searchCallers : List Caller :=
  [.mountPointOpen, .iterateOverMountPoint, .iterateOverMountedList, .findSlotFor]

theorem Ready.mono {S T : List Caller} (h : Ready f T w) (hST : ∀ c ∈ S, c ∈ T) :
    Ready f S w :=
  ⟨h.agrees, fun time caller address hcaller => h.grants time caller address (hST _ hcaller)⟩

theorem Ready.of_rests {S : List Caller} (h : Ready f S w) (hrests : Rests w w') :
    Ready f S w' :=
  ⟨h.agrees.of_rests hrests, hrests.answers ▸ h.grants⟩

variable {info : DirectoryInfo} {message request : IpcMessage} {ds : List Mounted}
  {name : Option Fd} {as : List Ask}

theorem openFile_step (state : State) (request : IpcMessage) (address : Nat)
    (hready : Ready f searchCallers w) (hbrowsable : Browsable f fuel info.namespaceId) :
    ∃ result w', openFile fuel state address info request w = some (result, w') ∧
      Ready f searchCallers w' ∧ w'.asks = w.asks ++ [⟨place address,
        w.server.fds (place (fdOpenNameAddress request).address),
        creates (fdOpenFlags request)⟩] := by
  have hreturns : Returns (Agrees f) (openFile fuel state address info request)
    fun _ => Agrees f := openFile_returns hbrowsable
  obtain ⟨result, w', h, hagrees⟩ := hreturns w hready.agrees
  have hgrants : Grants [.findSlotFor] w.answers := by
    intro time caller a hcaller
    exact hready.grants time caller a (by rw [List.mem_singleton.mp hcaller]; decide)
  have hanswers : w'.answers = w.answers := (openFile_touches _ _ _ h).answers
  exact ⟨result, w', h, ⟨hagrees, hanswers ▸ hready.grants⟩,
    openFile_asks w result w' ⟨hgrants, rfl, rfl⟩ h⟩

theorem PassAsks.snoc {d : Mounted} {a : Ask} (h : PassAsks request ds name as)
    (hplace : a.place = place d.address) (hcreate : a.create = creates (fdOpenFlags request))
    (hname : as = [] → a.name = name) : PassAsks request (ds ++ [d]) name (as ++ [a]) := by
  refine ⟨?_, fun b hb => ?_, ?_⟩
  · rw [List.map_append, List.map_append, h.places, List.map_singleton, List.map_singleton, hplace]
  · cases List.mem_append.mp hb with
    | inl hb => exact h.create b hb
    | inr hb => rw [List.mem_singleton.mp hb, hcreate]
  · cases as with
    | nil =>
        intro b hb
        cases hb
        exact hname rfl
    | cons => exact h.name

/-- What holds before the directories that are left. -/
def Passing (f : Place → Option Structure) (fuel : Nat) (state : State) (info : DirectoryInfo)
    (request : IpcMessage) (allowCreate : Bool) (ds : List Mounted) (w₀ : World)
    (rest : List Mounted) (w : World) : Prop :=
  Ready f searchCallers w ∧ ∃ as done, ds = done ++ rest ∧
    Searched (Opens fuel state info request) as w₀ eNoEnt w ∧
    PassAsks request (done.filter (looksAt allowCreate))
      (w₀.server.fds (place (fdOpenNameAddress request).address)) as

/-- What holds after a pass. -/
def Passed (f : Place → Option Structure) (fuel : Nat) (state : State) (info : DirectoryInfo)
    (request : IpcMessage) (allowCreate : Bool) (ds : List Mounted) (w₀ : World)
    (result : Nat) (w : World) : Prop :=
  Ready f searchCallers w ∧ ∃ as asked, asked <+: ds.filter (looksAt allowCreate) ∧
    (result ≠ 0 → result = eNoEnt ∧ asked = ds.filter (looksAt allowCreate)) ∧
    Searched (Opens fuel state info request) as w₀ result w ∧
    PassAsks request asked (w₀.server.fds (place (fdOpenNameAddress request).address)) as

variable {allowCreate : Bool} {w₀ : World}

theorem openCallback_passes {d : Mounted} {rest : List Mounted}
    (hbrowsable : Browsable f fuel info.namespaceId) :
    Returns (Passing f fuel state info request allowCreate ds w₀ (d :: rest))
      (openCallback fuel state info request allowCreate d.address d.createFlagged)
      (SearchGoesOn (Passing f fuel state info request allowCreate ds w₀ rest)
        (Passed f fuel state info request allowCreate ds w₀)) := by
  rintro w ⟨hready, as, done, hds, hsearched, hasks⟩
  have hds' : ds = (done ++ [d]) ++ rest := by rw [hds, List.append_assoc, List.singleton_append]
  cases hlooks : looksAt allowCreate d with
  | false =>
      have hskip : (d.createFlagged && !allowCreate) = true := by
        simpa [looksAt] using hlooks
      refine ⟨none, w, ?_, hready, as, done ++ [d], hds', hsearched, ?_⟩
      · rw [openCallback, hskip]
        rfl
      · rw [List.filter_append, List.filter_singleton, hlooks]
        simpa using hasks
  | true =>
      have hlook : (d.createFlagged && !allowCreate) = false := by
        rw [← Bool.not_eq_true', ← hlooks, looksAt]
      obtain ⟨result, w', hopen, hready', hask⟩ :=
        openFile_step state request d.address hready hbrowsable
      have hopens : Opens fuel state info request w result w' :=
        ⟨d.address, request, rfl, hopen⟩
      have hasked : PassAsks request ((done ++ [d]).filter (looksAt allowCreate))
          (w₀.server.fds (place (fdOpenNameAddress request).address))
          (as ++ [⟨place d.address, w.server.fds (place (fdOpenNameAddress request).address),
            creates (fdOpenFlags request)⟩]) := by
        rw [List.filter_append, List.filter_singleton, hlooks]
        refine hasks.snoc rfl rfl fun hnone => ?_
        subst hnone
        cases hsearched with
        | none hrests => rw [hrests.server]
      by_cases hresult : result = 0
      · subst hresult
        refine ⟨some 0, w', ?_, hready', _, _, ?_, fun h => absurd rfl h,
          hsearched.append (by decide) (.found (Std.Refl.refl w) hopens hask (Std.Refl.refl w')),
          hasked⟩
        · rw [openCallback, hlook]
          exact bind_of hopen
        · rw [hds', List.filter_append _ rest]
          exact List.prefix_append _ _
      · refine ⟨none, w', ?_, hready', _, _, hds', hsearched.append (by decide)
          (.next (Std.Refl.refl w) hopens hresult hask (.none (Std.Refl.refl w'))), hasked⟩
        rw [openCallback, hlook]
        simp only [Bool.false_eq_true, if_false]
        rw [bind_of hopen, if_neg hresult]
        rfl

theorem openPass_passes {id mountPointAddress : Nat} {mountPoint : MountPoint}
    (hplace : place mountPointAddress = .mountPoint id)
    (hmountPoint : f (.mountPoint id) = some (.mountPoint mountPoint))
    (hlists : Lists f fuel mountPoint.mountedListIndex ds)
    (hbrowsable : Browsable f fuel info.namespaceId) (hready : Ready f searchCallers w₀) :
    ∃ result w, openPass fuel state mountPointAddress info request allowCreate w₀ =
        some (result, w) ∧ Passed f fuel state info request allowCreate ds w₀ result w := by
  refine iterateOverMountPoint_returns
    (J := Passing f fuel state info request allowCreate ds w₀) hplace hmountPoint hlists
    (fun rest w hw => hw.1.mono (by decide)) ?_ ?_ (fun d rest => openCallback_passes hbrowsable)
    ?_ w₀ ?_
  · rintro rest w w' ⟨hready, as, done, hds, hsearched, hasks⟩ hrests
    exact ⟨hready.of_rests hrests, as, done, hds, hsearched.rests_right hrests, hasks⟩
  · rintro result w w' ⟨hready, as, asked, hstart, hresult, hsearched, hasks⟩ hrests
    exact ⟨hready.of_rests hrests, as, asked, hstart, hresult, hsearched.rests_right hrests, hasks⟩
  · rintro w ⟨hready, as, done, hds, hsearched, hasks⟩
    rw [List.append_nil] at hds
    subst hds
    exact ⟨hready, as, _, List.prefix_rfl, fun _ => ⟨rfl, rfl⟩, hsearched, hasks⟩
  · exact ⟨hready, [], [], rfl, .none (Std.Refl.refl w₀), rfl, nofun, nofun⟩

theorem fdOpenFlags_setFdOpenFlags {flags : BitVec 8} :
    fdOpenFlags (setFdOpenFlags message flags) = flags := by
  simp [fdOpenFlags, setFdOpenFlags, byteOf, ipcBufferSize, Vector.set!]

theorem creates_without {flags : BitVec 8} : creates (flags &&& ~~~openCreate) = false := by
  revert flags
  decide

theorem creates_with {flags : BitVec 8} : creates (flags ||| openCreate) = true := by
  revert flags
  decide

theorem creates_of_exclusively {flags : BitVec 8} (h : createsExclusively flags = true) :
    creates flags = true := by
  revert flags
  decide

/-! Requests. -/

/-- What `mount_point_open` passes on to `open_file`. -/
def DirectoryInfo.within (info : DirectoryInfo) (mountPoint : MountPoint) : DirectoryInfo :=
  ⟨info.namespaceId, info.canModifyNamespace, info.inode, mountPoint.enclosingFilesystem⟩

/-- A request with a name for a mount point with the given directories. -/
structure UnionRequest (s : Server) (fuel : Nat) (info : DirectoryInfo) (message : IpcMessage)
    (mountPoint : MountPoint) (ds : List Mounted) (name : Fd) : Prop where
  found : ∃ id, place info.mountPointAddress = .mountPoint id ∧
    s.structures (.mountPoint id) = some (.mountPoint mountPoint)
  lists : Lists s.structures fuel mountPoint.mountedListIndex ds
  present : ∀ d ∈ ds, s.fds d.place ≠ none
  browsable : Browsable s.structures fuel info.namespaceId
  name : s.fds (place (fdOpenNameAddress message).address) = some name

def withoutCreate (message : IpcMessage) : IpcMessage :=
  setFdOpenFlags message (fdOpenFlags message &&& ~~~openCreate)

def withCreate (message : IpcMessage) : IpcMessage :=
  setFdOpenFlags (withoutCreate message) (fdOpenFlags (withoutCreate message) ||| openCreate)

/-- The passes of one call. -/
inductive SearchPasses (passed : IpcMessage → Bool → World → Nat → World → Prop)
    (message : IpcMessage) (w : World) (result : Nat) (w' : World) : Prop where
  | exclusive (hexclusive : createsExclusively (fdOpenFlags message) = true)
      (hpassed : passed message true w result w')
  | once (hexclusive : createsExclusively (fdOpenFlags message) = false)
      (hpassed : passed (withoutCreate message) false w result w')
      (hdone : result = 0 ∨ creates (fdOpenFlags message) = false)
  | twice {failed : Nat} {w₁ : World}
      (hexclusive : createsExclusively (fdOpenFlags message) = false)
      (hpassed : passed (withoutCreate message) false w failed w₁) (hfailed : failed ≠ 0)
      (hcreates : creates (fdOpenFlags message) = true)
      (hpassed' : passed (withCreate message) true w₁ result w')

variable {s : Server} {answers : Nat → Caller → Request → Answer} {m : MountPoint} {fd : Fd}

theorem openPasses_passes (state : State) (hrequest : UnionRequest s fuel info message m ds fd)
    (hready : Ready s.structures searchCallers w) :
    ∃ result w₁ w', openPasses fuel state info.mountPointAddress (info.within m) message w =
        some (result, w') ∧ Rests w w₁ ∧
      SearchPasses (fun request allowCreate => Passed s.structures fuel state (info.within m)
        request allowCreate ds) message w₁ result w' := by
  obtain ⟨id, hplace, hmountPoint⟩ := hrequest.found
  have hpass : ∀ request allowCreate w, Ready s.structures searchCallers w →
      ∃ result w', openPass fuel state info.mountPointAddress (info.within m) request allowCreate w =
        some (result, w') ∧ Passed s.structures fuel state (info.within m) request allowCreate ds
          w result w' :=
    fun request allowCreate w hw => openPass_passes hplace hmountPoint hrequest.lists hrequest.browsable hw
  cases hexclusive : createsExclusively (fdOpenFlags message) with
  | true =>
      obtain ⟨result, w', hrun, hpassed⟩ := hpass message true w hready
      refine ⟨result, w, w', ?_, Std.Refl.refl w, .exclusive hexclusive hpassed⟩
      rw [openPasses, hexclusive]
      exact hrun
  | false =>
      obtain ⟨w₁, hunlock⟩ := unlock_some .mountPointOpen info.mountPointAddress w
      have hrests := unlock_rests (by decide) _ _ _ hunlock
      obtain ⟨failed, w₂, hrun, hpassed⟩ :=
        hpass (withoutCreate message) false w₁ (hready.of_rests hrests)
      by_cases hagain : failed ≠ 0 ∧ fdOpenFlags message &&& openCreate ≠ 0
      · obtain ⟨result, w₃, hrun', hpassed'⟩ := hpass (withCreate message) true w₂ hpassed.1
        refine ⟨result, w₁, w₃, ?_, hrests, .twice hexclusive hpassed hagain.1 ?_ hpassed'⟩
        · rw [openPasses, hexclusive]
          simp only [Bool.false_eq_true, if_false]
          rw [bind_of hunlock]
          exact (bind_of hrun).trans ((congrFun (if_pos hagain) w₂).trans hrun')
        · exact bne_iff_ne.mpr hagain.2
      · refine ⟨failed, w₁, w₂, ?_, hrests, .once hexclusive hpassed ?_⟩
        · rw [openPasses, hexclusive]
          simp only [Bool.false_eq_true, if_false]
          rw [bind_of hunlock]
          exact (bind_of hrun).trans (congrFun (if_neg hagain) w₂)
        · rw [not_and_or, not_not, not_not] at hagain
          exact hagain.imp_right fun h => bne_eq_false_iff_eq.mpr h

theorem mountPointOpen_passes (state : State) (hrequest : UnionRequest s fuel info message m ds fd)
    (hgrants : Grants searchCallers answers) :
    ∃ result w₁ w₂ w', mountPointOpen fuel state info message (s.world answers) = some ((), w') ∧
      onlyIf (result ≠ 0) (returnValue (fdReplyEndpoint message).address result) w₂ =
        some ((), w') ∧ Rests (s.world answers) w₁ ∧
      SearchPasses (fun request allowCreate => Passed s.structures fuel state (info.within m)
        request allowCreate ds) message w₁ result w₂ := by
  obtain ⟨id, hplace, hmountPoint⟩ := hrequest.found
  have hready : Ready s.structures searchCallers (s.world answers) := ⟨fun _ _ => rfl, hgrants⟩
  obtain ⟨found, w₀, hlock⟩ :=
    lock_some .mountPointOpen info.mountPointAddress (s.world answers)
  have hfound : found = true := lock_granted hgrants (by decide) hlock
  have hrests := lock_rests (by decide) _ _ _ hlock
  have hready₀ := hready.of_rests hrests
  have hread : mountPointAt info.mountPointAddress w₀ = some (m, w₀) := by
    refine mountPointAt_of ?_
    rw [hplace, hready₀.agrees _ not_opened_mountPoint, hmountPoint]
  obtain ⟨result, w₁, w₂, hrun, hrests₁, hpasses⟩ :=
    openPasses_passes state hrequest hready₀
  have hreply : Total (onlyIf (result ≠ 0)
      (returnValue (fdReplyEndpoint message).address result)) := onlyIf_total reply_total
  obtain ⟨u, w', hreply, -⟩ := hreply w₂ trivial
  refine ⟨result, w₁, w₂, w', ?_, hreply, IsTrans.trans _ _ _ hrests hrests₁, hpasses⟩
  rw [mountPointOpen, bind_of hlock, hfound]
  simp only [Bool.not_true, Bool.false_eq_true, if_false]
  rw [bind_of hread]
  exact (bind_of hrun).trans hreply

end Cenix.Vfs
