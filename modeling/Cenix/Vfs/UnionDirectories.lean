import Cenix.Vfs.Processes
import Cenix.Vfs.Union

namespace Cenix.Vfs

open Programs

/-! What a union directory is for, and for which ones the code does it. -/

def askFor (name : Fd) (create : Bool) (d : Mounted) : Ask :=
  ⟨d.place, some name, create⟩

/-- Every directory is asked in order, up to the first in which the file is opened. -/
structure InOrder (ds : List Mounted) (name : Fd) (as : List Ask) (result : Nat) : Prop where
  asked : as <+: ds.map (askFor name false)
  all : result ≠ 0 → as = ds.map (askFor name false)

/-- Only directories flagged with `MOUNT_CREATE` are asked to create a file, and only once
the others have been asked for it. -/
structure CreatesOnlyFlagged (ds : List Mounted) (name : Fd) (as : List Ask) (result : Nat) :
    Prop where
  flagged : ∀ a ∈ as, a.create = true → ∀ d ∈ ds, d.place = a.place → d.createFlagged = true
  looked : ∀ before a after, as = before ++ a :: after → a.create = true →
    ∀ d ∈ ds, d.place ≠ a.place → askFor name false d ∈ before
  all : result ≠ 0 → ∀ d ∈ ds, ∃ a ∈ as, a.place = d.place ∧ a.name = some name

/-- The result of the search is the answer to the request: it has been sent with the file, or
it is returned. -/
def SearchesUnion (fuel : Nat) (state : State) (info : DirectoryInfo) (message : IpcMessage)
    (ds : List Mounted) (name : Fd) (w w' : World) : Prop :=
  ∃ as result w₁, Searched (Opens fuel state info message) as w result w₁ ∧
    onlyIf (result ≠ 0) (returnValue (fdReplyEndpoint message).address result) w₁ =
      some ((), w') ∧
    if creates (fdOpenFlags message) then CreatesOnlyFlagged ds name as result
    else InOrder ds name as result

/-- At most one directory, where its address is right, and with the flag that the request is
for. -/
def Suits (message : IpcMessage) (ds : List Mounted) : Prop :=
  ds.length ≤ 1 ∧ ∀ d ∈ ds, d.slot = 0 ∧ d.createFlagged = creates (fdOpenFlags message)

instance (message : IpcMessage) (ds : List Mounted) : Decidable (Suits message ds) :=
  inferInstanceAs (Decidable (_ ∧ _))

variable {f : Place → Option Structure} {w w' : World} {state : State} {fuel : Nat}
  {info : DirectoryInfo} {message request : IpcMessage} {ds : List Mounted} {name : Fd}
  {as : List Ask} {s : Server} {answers : Nat → Caller → Request → Answer} {m : MountPoint}
  {result : Nat} {w₁ w₂ : World}

/-! Where it works. -/

theorem PassAsks.eq_map {asked : List Mounted} (h : PassAsks request asked (some name) as)
    (hlength : asked.length ≤ 1)
    (hplaces : ∀ d ∈ asked, Vfs.place d.address = d.place) :
    as = asked.map (askFor name (creates (fdOpenFlags request))) := by
  match asked, as with
  | [], as => exact List.map_eq_nil_iff.mp h.places
  | [d], [] => exact absurd h.places nofun
  | [d], [a] =>
      have hplace : a.place = d.place := by
        rw [← hplaces d (List.mem_singleton_self d)]
        exact (List.cons.inj h.places).1
      have hname : a.name = some name := h.name a rfl
      have hcreate := h.create a (List.mem_singleton_self a)
      rw [List.map_singleton, askFor, ← hplace, ← hname, ← hcreate]
  | [d], a :: b :: as => exact absurd (congrArg List.length h.places) (by simp)
  | d :: d' :: asked, _ => exact absurd hlength (by simp)

theorem Searched.mono {opens opens' : World → Nat → World → Prop}
    (h : Searched opens as w result w') (hopens : ∀ w r w', opens w r w' → opens' w r w') :
    Searched opens' as w result w' := by
  induction h with
  | none h => exact .none h
  | found hbefore hopen hask hafter => exact .found hbefore (hopens _ _ _ hopen) hask hafter
  | next hbefore hopen hfailed hask _ ih =>
      exact .next hbefore (hopens _ _ _ hopen) hfailed hask ih

theorem fdOpenNameAddress_of_capabilities (h : request.capabilities = message.capabilities) :
    fdOpenNameAddress request = fdOpenNameAddress message := by
  rw [fdOpenNameAddress, fdOpenNameAddress, capabilityOf, capabilityOf, h]

theorem Opens.of_capabilities (hrequest : request.capabilities = message.capabilities)
    (h : Opens fuel state info request w result w') : Opens fuel state info message w result w' := by
  obtain ⟨address, r, hr, h⟩ := h
  exact ⟨address, r, hr.trans hrequest, h⟩

theorem looksAt_unflagged {d : Mounted} (h : d.createFlagged = false) :
    looksAt false d = true := by
  rw [looksAt, h]
  rfl

theorem filter_looksAt_true : ds.filter (looksAt true) = ds :=
  List.filter_eq_self.mpr fun d _ => by rw [looksAt, Bool.not_true, Bool.and_false, Bool.not_false]

/-- One pass over the only directory. -/
theorem Passed.single {allowCreate : Bool}
    (h : Passed f fuel state info request allowCreate ds w result w')
    (hsuits : Suits message ds) (hindex : ∀ d ∈ ds, d.index < maxMountedFs)
    (hlooks : ds.filter (looksAt allowCreate) = ds)
    (hcapabilities : request.capabilities = message.capabilities)
    (hcreates : creates (fdOpenFlags request) = creates (fdOpenFlags message))
    (hname : w.server.fds (place (fdOpenNameAddress message).address) = some name) :
    ∃ as, Searched (Opens fuel state info message) as w result w' ∧
      as <+: ds.map (askFor name (creates (fdOpenFlags message))) ∧
      (result ≠ 0 → as = ds.map (askFor name (creates (fdOpenFlags message)))) := by
  obtain ⟨-, as, asked, hstart, hresult, hsearched, hasks⟩ := h
  have haddress : (fdOpenNameAddress request).address = (fdOpenNameAddress message).address :=
    congrArg _ (fdOpenNameAddress_of_capabilities hcapabilities)
  rw [hlooks] at hstart hresult
  rw [haddress, hname] at hasks
  have has : as = asked.map (askFor name (creates (fdOpenFlags request))) := by
    refine hasks.eq_map (Nat.le_trans hstart.length_le hsuits.1) fun d hd => ?_
    have hd := hstart.mem hd
    have hslot : d.slot = 0 := (hsuits.2 d hd).1
    exact (place_address_eq_place (hindex d hd) (by rw [hslot]; decide)).mpr hslot
  rw [hcreates] at has
  refine ⟨as, hsearched.mono fun _ _ _ => Opens.of_capabilities hcapabilities, ?_, fun hne => ?_⟩
  · rw [has]
    exact hstart.map _
  · rw [has, (hresult hne).2]

theorem SearchPasses.single (h : SearchPasses (fun request allowCreate =>
      Passed f fuel state info request allowCreate ds) message w result w')
    (hsuits : Suits message ds) (hindex : ∀ d ∈ ds, d.index < maxMountedFs)
    (hname : w.server.fds (place (fdOpenNameAddress message).address) = some name) :
    ∃ as, Searched (Opens fuel state info message) as w result w' ∧
      as <+: ds.map (askFor name (creates (fdOpenFlags message))) ∧
      (result ≠ 0 → as = ds.map (askFor name (creates (fdOpenFlags message)))) := by
  have hflagged : creates (fdOpenFlags message) = true → ds.filter (looksAt false) = [] := by
    intro hcreates
    refine List.filter_eq_nil_iff.mpr fun d hd => ?_
    rw [looksAt, (hsuits.2 d hd).2, hcreates]
    decide
  cases h with
  | exclusive _ hpassed =>
      exact hpassed.single hsuits hindex filter_looksAt_true rfl rfl hname
  | once _ hpassed hdone =>
      cases hcreates : creates (fdOpenFlags message) with
      | false =>
          rw [← hcreates]
          refine hpassed.single hsuits hindex ?_ rfl ?_ hname
          · exact List.filter_eq_self.mpr fun d hd =>
              looksAt_unflagged ((hsuits.2 d hd).2.trans hcreates)
          · rw [hcreates, withoutCreate, fdOpenFlags_setFdOpenFlags, creates_without]
      | true =>
          -- no directory is looked at, so that nothing has been found
          obtain ⟨-, as, asked, hstart, -, hsearched, hasks⟩ := hpassed
          rw [hflagged hcreates, List.prefix_nil] at hstart
          have has : as = [] := List.map_eq_nil_iff.mp (hasks.places.trans (by rw [hstart]; rfl))
          subst has
          cases hsearched with
          | none => exact absurd hdone (by rw [hcreates]; decide)
  | twice _ hpassed hfailed hcreates hpassed' =>
      obtain ⟨-, as, asked, hstart, -, hsearched, hasks⟩ := hpassed
      rw [hflagged hcreates, List.prefix_nil] at hstart
      have has : as = [] := List.map_eq_nil_iff.mp (hasks.places.trans (by rw [hstart]; rfl))
      subst has
      cases hsearched with
      | none hrests =>
          rw [← hrests.server] at hname
          obtain ⟨as, hsearched, has⟩ := hpassed'.single hsuits hindex filter_looksAt_true rfl
            (by rw [hcreates, withCreate, fdOpenFlags_setFdOpenFlags, creates_with]) hname
          exact ⟨as, hsearched.rests_left hrests, has⟩

theorem createsOnlyFlagged_of_prefix (hlength : ds.length ≤ 1)
    (hflagged : ∀ d ∈ ds, d.createFlagged = true) (h : as <+: ds.map (askFor name true))
    (hall : result ≠ 0 → as = ds.map (askFor name true)) :
    CreatesOnlyFlagged ds name as result := by
  refine ⟨fun a _ _ d hd _ => hflagged d hd, ?_, fun hne d hd => ?_⟩
  · intro before a after has _ d hd hplace
    have ha : a ∈ ds.map (askFor name true) := h.mem (by rw [has]; simp)
    obtain ⟨d', hd', rfl⟩ := List.mem_map.mp ha
    obtain ⟨i, hi, rfl⟩ := List.getElem_of_mem hd
    obtain ⟨j, hj, rfl⟩ := List.getElem_of_mem hd'
    obtain rfl : i = j := by omega
    exact absurd rfl hplace
  · rw [hall hne]
    exact ⟨askFor name true d, List.mem_map_of_mem hd, rfl, rfl⟩

theorem searchesUnion_of_suits (hrequest : UnionRequest s fuel info message m ds name)
    (hsuits : Suits message ds) (hgrants : Grants searchCallers answers) :
    ∃ w', mountPointOpen fuel state info message (s.world answers) = some ((), w') ∧
      SearchesUnion fuel state (info.within m) message ds name (s.world answers) w' := by
  obtain ⟨result, w₁, w₂, w', hrun, hreply, hrests, hpasses⟩ :=
    mountPointOpen_passes state hrequest hgrants
  have hname : w₁.server.fds (place (fdOpenNameAddress message).address) = some name := by
    rw [hrests.server]
    exact hrequest.name
  obtain ⟨as, hsearched, hstart, hall⟩ :=
    hpasses.single hsuits (fun d hd => (hrequest.lists.bounds d hd).1) hname
  refine ⟨w', hrun, as, result, w₂, hsearched.rests_left hrests, hreply, ?_⟩
  cases hcreates : creates (fdOpenFlags message) with
  | false =>
      rw [hcreates] at hstart hall
      exact ⟨hstart, hall⟩
  | true =>
      rw [hcreates] at hstart hall
      exact createsOnlyFlagged_of_prefix hsuits.1
        (fun d hd => (hsuits.2 d hd).2.trans hcreates) hstart hall

/-! Where it does not: file systems that do not answer. -/

/-- Every call works but that nothing is ever received; `taken` says whether what is sent is
taken. -/
def refusing (taken : Bool) : Nat → Caller → Request → Answer
  | _, _, .receive _ => ⟨eNoSys, fun _ => taken, none, 0, 0, 0⟩
  | _, _, _ => ⟨0, fun _ => taken, none, 0, 0, 0⟩

variable {taken : Bool}

theorem refusing_grants {callers : List Caller} : Grants callers (refusing taken) :=
  fun _ _ _ _ => rfl

/-- A call to a file system fails, with the name taken. -/
theorem vfsCall_refused {caller : Caller} {endpoint replyEndpoint : Nat} {toSend : IpcMessage}
    {slot : Option Nat} {r : Nat × Option Answer} (hanswers : w.answers = refusing taken)
    (h : vfsCall caller endpoint replyEndpoint toSend slot w = some (r, w')) :
    r.1 ≠ 0 ∧ (w.server.fds (place endpoint) ≠ none → w'.server =
      (List.range ipcCapabilitySlots).foldl (takeCapability toSend fun _ => taken) w.server) := by
  obtain ⟨result, w₁, hsend, h⟩ := bind_some h
  have hsent : result = (if (w.server.fds (place endpoint)).isSome then 0 else eCapInval) ∧
      w₁.answers = refusing taken ∧ (w.server.fds (place endpoint) ≠ none → w₁.server =
        (List.range ipcCapabilitySlots).foldl (takeCapability toSend fun _ => taken)
          w.server) := by
    obtain ⟨answer, w₂, hask, hsend⟩ := bind_some hsend
    cases hask
    rw [getServer_bind] at hsend
    obtain ⟨u, w₃, hrecord, hsend⟩ := bind_some hsend
    cases hrecord
    obtain ⟨u, w₄, htake, hsend⟩ := bind_some hsend
    cases hsend
    simp only [hanswers, refusing] at htake ⊢
    refine ⟨trivial, ?_, fun hreceiver => ?_⟩
    · rw [((onlyIf_emits (S := []) modifyServer_emits) _ _ _ htake).answers]
    · rw [if_pos (Option.isSome_iff_ne_none.mpr hreceiver)] at htake
      cases htake
      rfl
  obtain ⟨hresult, hanswers₁, hserver⟩ := hsent
  by_cases hfailed : result ≠ 0
  · rw [if_pos hfailed] at h
    cases h
    refine ⟨hfailed, fun hreceiver => ?_⟩
    rw [if_pos (Option.isSome_iff_ne_none.mpr hreceiver)] at hresult
    exact absurd hresult hfailed
  · rw [if_neg hfailed] at h
    obtain ⟨answer, w₂, hreceive, h⟩ := bind_some h
    obtain ⟨answer', w₃, hask, hreceive⟩ := bind_some hreceive
    cases hask
    rw [hanswers₁] at hreceive
    cases hreceive
    cases h
    exact ⟨show eNoSys ≠ 0 by decide, hserver⟩

theorem takeCapability_none {toSend : IpcMessage} {taken : Nat → Bool} {i : Nat} {p : Place}
    (h : s.fds p = none) : (takeCapability toSend taken s i).fds p = none := by
  rw [takeCapability]
  split
  · exact h
  · split
    · simp only [Server.setFd, Function.update_apply]
      split
      · rfl
      · exact h
    · exact h

/-- Only the reply endpoint is copied. -/
theorem foldl_takeCapability_openRequest {replyEndpoint nameAddress : Nat}
    {flags mode : BitVec 8} :
    ((List.range ipcCapabilitySlots).foldl
      (takeCapability (openRequest replyEndpoint nameAddress flags mode) fun _ => true)
      s).fds (place nameAddress) = none := by
  have hname : ∀ s : Server, (takeCapability (openRequest replyEndpoint nameAddress flags mode)
      (fun _ => true) s 1).fds (place nameAddress) = none := by
    intro s
    have hone : (openRequest replyEndpoint nameAddress flags mode).capabilities[1]? =
        some ⟨nameAddress, sizeMax⟩ := by
      rw [Vector.getElem?_eq_getElem (show 1 < ipcCapabilitySlots by decide)]
      simp [openRequest, ipcMessage]
    have htakes : sizeMax ≠ 0 ∧ True ∧
        (openRequest replyEndpoint nameAddress flags mode).toCopy.getLsbD 1 = false :=
      ⟨by decide, trivial, show (1 : BitVec 8).getLsbD 1 = false by decide⟩
    rw [takeCapability, hone]
    simp only
    rw [if_pos htakes]
    exact Function.update_self ..
  have hrange : List.range ipcCapabilitySlots = [0, 1, 2, 3] := rfl
  simp only [hrange, List.foldl_cons, List.foldl_nil]
  exact takeCapability_none (takeCapability_none (hname _))

theorem openFileCallback_refused {fdEndpoint replyEndpoint nameAddress slot r : Nat}
    {flags mode : BitVec 8} (hanswers : w.answers = refusing taken)
    (h : openFileCallback fdEndpoint replyEndpoint nameAddress flags mode slot w = some (r, w')) :
    r = sizeMax ∧ (taken = true → w.server.fds (place fdEndpoint) ≠ none →
      w'.server.fds (place nameAddress) = none) := by
  obtain ⟨result, w₁, hcall, h⟩ := bind_some h
  obtain ⟨pair, w₂, hcall, hresult⟩ := bind_some hcall
  cases hresult
  obtain ⟨hfailed, hserver⟩ := vfsCall_refused hanswers hcall
  rw [if_neg hfailed] at h
  cases h
  refine ⟨rfl, fun htaken hreceiver => ?_⟩
  rw [hserver hreceiver, htaken]
  exact foldl_takeCapability_openRequest

theorem openFile_refused {address : Nat} (hanswers : w.answers = refusing taken)
    (h : openFile fuel state address info request w = some (result, w')) :
    result ≠ 0 ∧ (taken = true → w.server.fds (place address) ≠ none →
      w'.server.fds (place (fdOpenNameAddress request).address) = none) := by
  rw [openFile_eq] at h
  obtain ⟨r, w₁, hfind, h⟩ := bind_some h
  suffices hsearch : r = sizeMax ∧ (taken = true → w.server.fds (place address) ≠ none →
      w₁.server.fds (place (fdOpenNameAddress request).address) = none) by
    rw [if_pos hsearch.1] at h
    cases h
    exact ⟨by decide, hsearch.2⟩
  obtain ⟨found, w₂, hlock, hfind⟩ := bind_some hfind
  have hfound : found = true := by
    have hgrants : Grants [.findSlotFor] w.answers := by
      rw [hanswers]
      exact refusing_grants
    exact lock_granted hgrants (by decide) hlock
  have hrests := lock_rests (by decide) _ _ _ hlock
  rw [hfound] at hfind
  simp only [Bool.not_true, Bool.false_eq_true, if_false] at hfind
  rw [getServer_bind] at hfind
  obtain ⟨u, w₃, hused, hfind⟩ := bind_some hfind
  obtain ⟨r', w₄, hcall, hfind⟩ := bind_some hfind
  obtain ⟨u, w₅, hclear, hfind⟩ := bind_some hfind
  obtain ⟨u, w₆, hunlock, hfind⟩ := bind_some hfind
  cases hfind
  have hfds : ∀ {c : Prop} [Decidable c] {f : Server → Server} {u : Unit} {w w' : World},
      onlyIf c (modifyServer f) w = some (u, w') → (∀ s, (f s).fds = s.fds) →
        w'.server.fds = w.server.fds ∧ w'.answers = w.answers := by
    intro c _ f u w w' h hf
    unfold onlyIf at h
    split at h
    · cases h
      exact ⟨hf _, rfl⟩
    · cases h
      exact ⟨rfl, rfl⟩
  obtain ⟨hbefore, hanswers₃⟩ := hfds hused fun _ => rfl
  obtain ⟨hafter, -⟩ := hfds hclear fun _ => rfl
  rw [hrests.answers, hanswers] at hanswers₃
  obtain ⟨hr, htakes⟩ := openFileCallback_refused hanswers₃ hcall
  refine ⟨hr, fun htaken hreceiver => ?_⟩
  rw [(unlock_rests (by decide) _ _ _ hunlock).server, hafter]
  refine htakes htaken ?_
  rw [hbefore, hrests.server]
  exact hreceiver

theorem answers_of_searched (h : Searched (Opens fuel state info message) as w result w') :
    w'.answers = w.answers := by
  have hopened : ∀ {w r w'}, Opens fuel state info message w r w' → w'.answers = w.answers := by
    rintro w r w' ⟨address, request, -, hopen⟩
    exact (openFile_touches _ _ _ hopen).answers
  induction h with
  | none h => exact h.answers
  | found hbefore hopens _ hafter =>
      rw [hafter.answers, hopened hopens, hbefore.answers]
  | next hbefore hopens _ _ _ ih => rw [ih, hopened hopens, hbefore.answers]

/-- Nothing is opened. -/
theorem Searched.refused (h : Searched (Opens fuel state info message) as w result w')
    (hanswers : w.answers = refusing taken) : result ≠ 0 := by
  induction h with
  | none => exact by decide
  | found hbefore hopens _ _ =>
      obtain ⟨address, r, -, hopen⟩ := hopens
      exact absurd rfl (openFile_refused (hbefore.answers.trans hanswers) hopen).1
  | next hbefore hopens _ _ _ ih =>
      obtain ⟨address, r, -, hopen⟩ := hopens
      exact ih ((openFile_touches _ _ _ hopen).answers.trans (hbefore.answers.trans hanswers))

/-- What is asked is known from the call. -/
theorem Opens.ask {a : Ask} (h : Opens fuel state info message w result w')
    (hgrants : Grants [.findSlotFor] w.answers) (hask : w'.asks = w.asks ++ [a]) :
    ∃ address request, request.capabilities = message.capabilities ∧
      openFile fuel state address info request w = some (result, w') ∧ a.place = place address ∧
      a.name = w.server.fds (place (fdOpenNameAddress message).address) := by
  obtain ⟨address, request, hrequest, hopen⟩ := h
  have hasked : w'.asks = w.asks ++ [⟨place address,
      w.server.fds (place (fdOpenNameAddress request).address), creates (fdOpenFlags request)⟩] :=
    openFile_asks w result w' ⟨hgrants, rfl, rfl⟩ hopen
  rw [hask, List.append_cancel_left_eq, List.singleton_inj] at hasked
  refine ⟨address, request, hrequest, hopen, congrArg Ask.place hasked, ?_⟩
  rw [← fdOpenNameAddress_of_capabilities hrequest]
  exact congrArg Ask.name hasked

/-- A directory that takes the name leaves none for the next one. -/
theorem name_taken_of_searched {a b : Ask}
    (h : Searched (Opens fuel state info message) (a :: b :: as) w result w')
    (hanswers : w.answers = refusing true) (hreceiver : w.server.fds a.place ≠ none) :
    b.name = none := by
  cases h with
  | next hbefore hopens hfailed hask hrest =>
      rename_i failed w₁ w₂
      have hanswers₁ := hbefore.answers.trans hanswers
      obtain ⟨address, request, hrequest, hopen, hplace, -⟩ :=
        hopens.ask (hanswers₁ ▸ refusing_grants) hask
      have hanswers₂ := (openFile_touches _ _ _ hopen).answers.trans hanswers₁
      rw [hplace, ← hbefore.server] at hreceiver
      have htaken := (openFile_refused hanswers₁ hopen).2 rfl hreceiver
      rw [fdOpenNameAddress_of_capabilities hrequest] at htaken
      have hnext : ∀ {r w₃ w₄}, Rests w₂ w₃ → Opens fuel state info message w₃ r w₄ →
          w₄.asks = w₃.asks ++ [b] → b.name = none := by
        intro r w₃ w₄ hrests hopens hask
        obtain ⟨-, -, -, -, -, hname⟩ :=
          hopens.ask ((hrests.answers.trans hanswers₂) ▸ refusing_grants) hask
        rw [hname, hrests.server, htaken]
      cases hrest with
      | found hbefore hopens hask _ => exact hnext hbefore hopens hask
      | next hbefore hopens _ hask _ => exact hnext hbefore hopens hask

/-- The asks of all passes of a call in which nothing is opened. -/
structure AllAsks (message : IpcMessage) (ds : List Mounted) (first second : List Ask) : Prop where
  looked : first.map Ask.place = (if createsExclusively (fdOpenFlags message) then []
    else ds.filter (looksAt false)).map fun d => Vfs.place d.address
  look : ∀ a ∈ first, a.create = false
  created : second.map Ask.place = (if creates (fdOpenFlags message) then ds else []).map
    fun d => Vfs.place d.address
  create : ∀ a ∈ second, a.create = true

theorem SearchPasses.refused (h : SearchPasses (fun request allowCreate =>
      Passed f fuel state info request allowCreate ds) message w result w')
    (hanswers : w.answers = refusing taken) :
    ∃ first second, Searched (Opens fuel state info message) (first ++ second) w result w' ∧
      AllAsks message ds first second := by
  have hpass : ∀ {request allowCreate w result w'}, w.answers = refusing taken →
      Passed f fuel state info request allowCreate ds w result w' →
      request.capabilities = message.capabilities →
      ∃ as, Searched (Opens fuel state info message) as w result w' ∧ result ≠ 0 ∧
        as.map Ask.place = (ds.filter (looksAt allowCreate)).map (fun d => Vfs.place d.address) ∧
        ∀ a ∈ as, a.create = creates (fdOpenFlags request) := by
    rintro request allowCreate w result w' hanswers ⟨-, as, asked, -, hall, hsearched, hasks⟩
      hrequest
    have hsearched' := hsearched.mono fun _ _ _ => Opens.of_capabilities hrequest
    have hne := hsearched'.refused hanswers
    exact ⟨as, hsearched', hne, (hall hne).2 ▸ hasks.places, hasks.create⟩
  cases h with
  | exclusive hexclusive hpassed =>
      obtain ⟨as, hsearched, -, hplaces, hcreate⟩ := hpass hanswers hpassed rfl
      have hcreates := creates_of_exclusively hexclusive
      rw [filter_looksAt_true] at hplaces
      refine ⟨[], as, hsearched, ?_, nofun, ?_, fun a ha => (hcreate a ha).trans hcreates⟩
      · rw [hexclusive]
        rfl
      · rw [hcreates]
        exact hplaces
  | once hexclusive hpassed hdone =>
      obtain ⟨as, hsearched, hne, hplaces, hcreate⟩ := hpass hanswers hpassed rfl
      have hcreates := hdone.resolve_left hne
      refine ⟨as, [], (List.append_nil as).symm ▸ hsearched, ?_, fun a ha => ?_, ?_, nofun⟩
      · rw [hexclusive]
        exact hplaces
      · rw [hcreate a ha, withoutCreate, fdOpenFlags_setFdOpenFlags, creates_without]
      · rw [hcreates]
        rfl
  | @twice failed w₁ hexclusive hpassed hfailed hcreates hpassed' =>
      obtain ⟨first, hfirst, -, hlooked, hlook⟩ := hpass hanswers hpassed rfl
      have hanswers₁ : w₁.answers = refusing taken := by
        obtain ⟨hready, as, asked, -, -, hsearched, -⟩ := hpassed
        exact (answers_of_searched hsearched).trans hanswers
      obtain ⟨second, hsecond, -, hcreated, hcreate⟩ := hpass hanswers₁ hpassed' rfl
      rw [filter_looksAt_true] at hcreated
      refine ⟨first, second, hfirst.append hfailed hsecond, ?_, fun a ha => ?_, ?_, fun a ha => ?_⟩
      · rw [hexclusive]
        exact hlooked
      · rw [hlook a ha, withoutCreate, fdOpenFlags_setFdOpenFlags, creates_without]
      · rw [hcreates]
        exact hcreated
      · rw [hcreate a ha, withCreate, fdOpenFlags_setFdOpenFlags, creates_with]

theorem onlyIf_returnValue_asks {c : Prop} [Decidable c] {replyCapability : Nat} {u : Unit}
    (h : onlyIf c (returnValue replyCapability result) w = some (u, w')) : w'.asks = w.asks := by
  have hemits : Respects (Emits [.returnValue])
      (onlyIf c (returnValue replyCapability result)) :=
    onlyIf_emits (.bind (send_emits (by decide)) fun _ => .pure)
  exact (hemits _ _ _ h).asks (by decide)

/-- What the property says of a call in which nothing is opened. -/
theorem asks_of_searches (hrequest : UnionRequest s fuel info message m ds name)
    (h : ∃ w', mountPointOpen fuel state info message (s.world (refusing taken)) =
        some ((), w') ∧ SearchesUnion fuel state (info.within m) message ds name
          (s.world (refusing taken)) w') :
    ∃ first second result w', AllAsks message ds first second ∧ result ≠ 0 ∧
      Searched (Opens fuel state (info.within m) message) (first ++ second)
        (s.world (refusing taken)) result w' ∧
      if creates (fdOpenFlags message) then CreatesOnlyFlagged ds name (first ++ second) result
      else InOrder ds name (first ++ second) result := by
  obtain ⟨w', hrun, as, result, w₁, hsearched, hreply, hspec⟩ := h
  obtain ⟨result', w₂, w₃, w'', hrun', hreply', hrests, hpasses⟩ :=
    mountPointOpen_passes state hrequest refusing_grants
  rw [hrun] at hrun'
  cases hrun'
  obtain ⟨first, second, hasked, hall⟩ := hpasses.refused (hrests.answers.trans rfl)
  have has : as = first ++ second := by
    have hasks := onlyIf_returnValue_asks hreply
    rw [hsearched.asks, onlyIf_returnValue_asks hreply', hasked.asks, hrests.asks,
      List.append_cancel_left_eq] at hasks
    exact hasks.symm
  subst has
  exact ⟨first, second, result, w₁, hall, hsearched.refused rfl, hsearched, hspec⟩

theorem suits_of_inOrder {first second : List Ask} (hlists : Lists f fuel m.mountedListIndex ds)
    (hcreates : creates (fdOpenFlags message) = false)
    (hall : AllAsks message ds first second)
    (hspec : first ++ second = ds.map (askFor name false)) :
    ∀ d ∈ ds, d.slot = 0 ∧ d.createFlagged = false := by
  have hexclusive : createsExclusively (fdOpenFlags message) = false := by
    by_contra h
    rw [creates_of_exclusively (Bool.of_not_eq_false h)] at hcreates
    cases hcreates
  have hlooked := hall.looked
  have hcreated := hall.created
  rw [hexclusive] at hlooked
  rw [hcreates] at hcreated
  rw [List.map_eq_nil_iff.mp hcreated, List.append_nil] at hspec
  rw [hspec, List.map_map] at hlooked
  have hlength : (ds.filter (looksAt false)).length = ds.length := by
    have h := congrArg List.length hlooked
    rw [List.length_map, List.length_map] at h
    exact h.symm
  have hlooks : ∀ d ∈ ds, looksAt false d = true := List.length_filter_eq_length_iff.mp hlength
  have hfilter : ds.filter (looksAt false) = ds := List.filter_eq_self.mpr hlooks
  simp only [Bool.false_eq_true, if_false, hfilter] at hlooked
  intro d hd
  have hplace : d.place = Vfs.place d.address := List.map_inj_left.mp hlooked d hd
  obtain ⟨hindex, hslot⟩ := hlists.bounds d hd
  refine ⟨(place_address_eq_place hindex hslot).mp hplace.symm, ?_⟩
  have hlook := hlooks d hd
  rw [looksAt, Bool.not_false, Bool.and_true, Bool.not_eq_true'] at hlook
  exact hlook

theorem suits_of_createsOnlyFlagged {first second : List Ask} {result : Nat}
    (hlists : Lists f fuel m.mountedListIndex ds)
    (hcreates : creates (fdOpenFlags message) = true) (hall : AllAsks message ds first second)
    (hresult : result ≠ 0) (hspec : CreatesOnlyFlagged ds name (first ++ second) result) :
    Suits message ds := by
  have hcreated := hall.created
  rw [hcreates, if_pos rfl] at hcreated
  have hflagged : ∀ d ∈ ds, d.createFlagged = true := by
    intro d hd
    obtain ⟨a, ha, hplace, -⟩ := hspec.all hresult d hd
    -- whatever the first pass asks is asked to create the file by the second one
    have hagain : ∃ b ∈ second, b.place = a.place := by
      cases List.mem_append.mp ha with
      | inr ha => exact ⟨a, ha, rfl⟩
      | inl ha =>
          have hmem : a.place ∈ first.map Ask.place := List.mem_map_of_mem ha
          rw [hall.looked] at hmem
          obtain ⟨d', hd', haddress⟩ := List.mem_map.mp hmem
          have hin : d' ∈ ds := by
            split at hd'
            · cases hd'
            · exact List.mem_of_mem_filter hd'
          rw [← haddress]
          have hmem' : Vfs.place d'.address ∈ second.map Ask.place := by
            rw [hcreated]
            exact List.mem_map_of_mem hin
          exact List.mem_map.mp hmem'
    obtain ⟨b, hb, hb'⟩ := hagain
    exact hspec.flagged b (List.mem_append_right _ hb) (hall.create b hb) d hd
      (hplace.symm.trans hb'.symm)
  have hfirst : first = [] := by
    refine List.map_eq_nil_iff.mp (hall.looked.trans ?_)
    have hnone : ds.filter (looksAt false) = [] := by
      refine List.filter_eq_nil_iff.mpr fun d hd => ?_
      rw [looksAt, hflagged d hd]
      decide
    rw [hnone, ite_self, List.map_nil]
  subst hfirst
  rw [List.nil_append] at hspec
  cases ds with
  | nil => exact ⟨Nat.zero_le 1, List.forall_mem_nil _⟩
  | cons d rest =>
      obtain ⟨a, as, rfl⟩ : ∃ a as, second = a :: as := by
        cases second with
        | nil => simp at hcreated
        | cons a as => exact ⟨a, as, rfl⟩
      have hfirst : a.place = Vfs.place d.address := (List.cons.inj hcreated).1
      have hplaces : ∀ d' ∈ d :: rest, d'.place = a.place := by
        intro d' hd'
        by_contra hne
        have hlooked := hspec.looked [] a as rfl (hall.create a (List.mem_cons_self ..)) d' hd' hne
        cases hlooked
      have hd : d ∈ d :: rest := List.mem_cons_self ..
      obtain ⟨hindex, hslot⟩ := hlists.bounds d hd
      have hnone : rest = [] := by
        refine List.eq_nil_iff_forall_not_mem.mpr fun d' hd' => ?_
        have hnodup := List.nodup_cons.mp hlists.nodup
        refine hnodup.1 (List.mem_map.mpr ⟨d', hd', ?_⟩)
        rw [hplaces d' (List.mem_cons_of_mem d hd'), hplaces d hd]
      subst hnone
      refine ⟨Nat.le_refl 1, fun d' hd' => ?_⟩
      rw [List.mem_singleton.mp hd', hcreates]
      exact ⟨(place_address_eq_place hindex hslot).mp (hfirst.symm.trans (hplaces d hd).symm),
        hflagged d hd⟩

theorem suits_of_searchesUnion (hrequest : UnionRequest s fuel info message m ds name)
    (h : ∀ answers, Grants searchCallers answers →
      ∃ w', mountPointOpen fuel state info message (s.world answers) = some ((), w') ∧
        SearchesUnion fuel state (info.within m) message ds name (s.world answers) w') :
    Suits message ds := by
  obtain ⟨first, second, result, w', hall, hresult, -, hspec⟩ :=
    asks_of_searches hrequest (h (refusing false) refusing_grants)
  cases hcreates : creates (fdOpenFlags message) with
  | true =>
      rw [hcreates, if_pos rfl] at hspec
      exact suits_of_createsOnlyFlagged hrequest.lists hcreates hall hresult hspec
  | false =>
      simp only [hcreates, Bool.false_eq_true, if_false] at hspec
      have hslots := suits_of_inOrder hrequest.lists hcreates hall (hspec.all hresult)
      refine ⟨?_, fun d hd => by rw [hcreates]; exact hslots d hd⟩
      -- with two directories the first one may keep the name
      match ds, hrequest, hspec, h with
      | [], _, _, _ => exact Nat.zero_le 1
      | [d], _, _, _ => exact Nat.le_refl 1
      | d :: d' :: rest, hrequest, _, h =>
          obtain ⟨first, second, result, w', -, hresult, hsearched, hspec⟩ :=
            asks_of_searches hrequest (h (refusing true) refusing_grants)
          simp only [hcreates, Bool.false_eq_true, if_false] at hspec
          rw [hspec.all hresult] at hsearched
          have hnone := name_taken_of_searched hsearched rfl
            (hrequest.present d (List.mem_cons_self ..))
          cases hnone

/-! A root with one directory. -/

/-- A namespace with a root, on which one directory is mounted, and a request with a name. -/
def unionServer (createFlagged : Bool) : Server where
  structures
    | .fsNamespace 0 => some (.fsNamespace ⟨1, mountPointsNodeSlot, fun _ => sizeMax⟩)
    | .mountPoint 0 => some (.mountPoint ⟨sizeMax, sizeMax, 1, sizeMax, 0, 0⟩)
    | .listInfo 0 => some (.listInfo ⟨1, if createFlagged then 1 else 0, sizeMax⟩)
    | _ => none
  fds
    | .listSlot 0 0 => some (.other 1)
    | .storage 0 0 => some (.other 2)
    | .storage 0 1 => some (.other 3)
    | _ => none
  listNodes := fun index => index == 0
  used := fun _ id => id == 0

def rootInfo : DirectoryInfo :=
  ⟨0, true, 0, mountPointsNodeSlot⟩

def openRequestMessage (flags : BitVec 8) : IpcMessage :=
  ipcMessage [fdOpen, flags] [⟨threadStorageSlot 0 0, sizeMax⟩, ⟨threadStorageSlot 0 1, sizeMax⟩] 0

theorem unionServer_request (createFlagged : Bool) (flags : BitVec 8) :
    UnionRequest (unionServer createFlagged) 2 rootInfo (openRequestMessage flags)
      ⟨sizeMax, sizeMax, 1, sizeMax, 0, 0⟩ [⟨0, 0, createFlagged⟩] (.other 3) := by
  have hname : (fdOpenNameAddress (openRequestMessage flags)).address = threadStorageSlot 0 1 := by
    simp [fdOpenNameAddress, capabilityOf, openRequestMessage, ipcMessage, ipcCapabilitySlots]
  refine ⟨⟨0, rfl, rfl⟩, ?_, ?_, ⟨_, rfl, fun _ => .none⟩, ?_⟩
  · have hslots : ∀ i, (1 : BitVec ptrBits).getLsbD i = true → i = 0 := by
      intro i hi
      by_contra hne
      have hone : (BitVec.ofNat ptrBits 1).getLsbD i = true := hi
      rw [BitVec.getLsbD_one] at hone
      simp [hne] at hone
    have hds : directoriesIn 0 ⟨1, if createFlagged then 1 else 0, sizeMax⟩ (List.range ptrBits) =
        [⟨0, 0, createFlagged⟩] := by
      cases createFlagged <;> decide
    rw [← List.append_nil [_], ← hds]
    refine .entry (by decide) rfl (fun i hi => ?_) (List.forall_mem_nil _) .none
    rw [hslots i hi]
    decide
  · intro d hd
    rw [List.mem_singleton.mp hd]
    exact Option.some_ne_none _
  · rw [hname]
    rfl

/-- Union directories: `mount_point_open` is right for the mount points with at most one
directory, whose flag is the one that the request is for. -/
theorem union_searched (fuel : Nat) (state : State) (info : DirectoryInfo)
    (message : IpcMessage) (s : Server) (m : MountPoint) (ds : List Mounted) (name : Fd)
    (hrequest : UnionRequest s fuel info message m ds name) :
    (∀ answers, Grants searchCallers answers →
      ∃ w', mountPointOpen fuel state info message (s.world answers) = some ((), w') ∧
        SearchesUnion fuel state (info.within m) message ds name (s.world answers) w') ↔
      Suits message ds :=
  ⟨suits_of_searchesUnion hrequest, fun hsuits _ hgrants =>
    searchesUnion_of_suits hrequest hsuits hgrants⟩

theorem union_searched_unflagged : Suits (openRequestMessage 0) [⟨0, 0, false⟩] ∧
    ∀ answers, Grants searchCallers answers →
      ∃ w', mountPointOpen 2 mainState rootInfo (openRequestMessage 0)
          ((unionServer false).world answers) = some ((), w') ∧
        SearchesUnion 2 mainState (rootInfo.within ⟨sizeMax, sizeMax, 1, sizeMax, 0, 0⟩)
          (openRequestMessage 0) [⟨0, 0, false⟩] (.other 3)
          ((unionServer false).world answers) w' := by
  have hsuits : Suits (openRequestMessage 0) [⟨0, 0, false⟩] := by
    decide
  exact ⟨hsuits, (union_searched 2 mainState rootInfo (openRequestMessage 0) (unionServer false)
    _ _ _ (unionServer_request false 0)).mpr hsuits⟩

/-- A directory with `MOUNT_CREATE` is not asked for a file that is not to be created. -/
theorem union_flagged_skipped :
    creates (fdOpenFlags (openRequestMessage 0)) = false ∧
    Grants searchCallers Server.allSucceed ∧
    UnionRequest (unionServer true) 2 rootInfo (openRequestMessage 0)
      ⟨sizeMax, sizeMax, 1, sizeMax, 0, 0⟩ [⟨0, 0, true⟩] (.other 3) ∧
    ∃ w', mountPointOpen 2 mainState rootInfo (openRequestMessage 0)
        ((unionServer true).world Server.allSucceed) = some ((), w') ∧ w'.asks = [] ∧
      ¬SearchesUnion 2 mainState (rootInfo.within ⟨sizeMax, sizeMax, 1, sizeMax, 0, 0⟩)
        (openRequestMessage 0) [⟨0, 0, true⟩] (.other 3) ((unionServer true).world Server.allSucceed) w' := by
  have hrun : ((mountPointOpen 2 mainState rootInfo (openRequestMessage 0)
      ((unionServer true).world Server.allSucceed)).map fun r => decide (r.2.asks = [])) =
        some true := by
    decide +kernel
  simp only [Option.map_eq_some_iff, decide_eq_true_eq] at hrun
  obtain ⟨⟨u, w'⟩, hrun, hasks⟩ := hrun
  refine ⟨by decide, fun _ _ _ _ => rfl, unionServer_request true 0, w', hrun, hasks, ?_⟩
  rintro ⟨as, result, w₁, hsearched, hreply, hspec⟩
  rw [onlyIf_returnValue_asks hreply, hsearched.asks] at hasks
  have has : as = [] := hasks
  subst has
  have hresult : result = eNoEnt := by
    cases hsearched with
    | none => rfl
  have hall := (show InOrder _ _ _ _ from hspec).all (by rw [hresult]; decide)
  cases hall

end Cenix.Vfs
