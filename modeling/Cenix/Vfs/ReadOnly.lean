import Cenix.Vfs.Routing

namespace Cenix.Vfs

open Programs

/-! Processes that must not modify their namespace. -/

/-- Whether a process may modify its namespace, where there is one. -/
def Registry.mayModify (r : Registry) (n : Nat) : Option Bool :=
  permission (.processData n) (r.server.structures (.processData n))

/-- The permission in a `directory_info`, where there is one. -/
def Registry.infoModifies (r : Registry) (id : Nat) : Option Bool :=
  permission (.directoryInfo id) (r.server.structures (.directoryInfo id))

/-- The process has been created by the other one with its namespace, or by one that has been
so. -/
def Registry.SharesWith (r : Registry) : Nat → Nat → Prop :=
  Relation.ReflTransGen fun n n' => r.creators n = some n'

structure Registry.ReadOnly (r : Registry) : Prop where
  shared : ∀ n n', r.SharesWith n n' → r.mayModify n' = some false → r.mayModify n = some false
  opened : ∀ id n info, r.owners id = some n → r.mayModify n = some false →
    r.server.structures (.directoryInfo id) = some (.directoryInfo info) →
      info.canModifyNamespace = false
  /-- Whatever has been handed out belongs to a process. -/
  owned : ∀ d ∈ r.descriptors, ∃ n, r.owners d.id = some n ∧ r.mayModify n ≠ none
  refused : ∀ info : DirectoryInfo, info.canModifyNamespace = false →
    ∀ fuel directoryFd flags w, mount fuel info directoryFd flags w = some (ePerm, w)

/-- Messages do not come by descriptors of proxied directories. -/
def Registry.Routable (r : Registry) (m : Delivery) : Prop :=
  r.Legal m ∧ ∀ d, m.sender = some d → d.kind ≠ .directory

/-- What is kept in every run. -/
structure Registry.Guarded (r : Registry) : Prop where
  sound : r.Sound
  creators : ∀ n n', r.creators n = some n' → r.mayModify n ≠ none ∧
    (r.mayModify n = some true → r.mayModify n' = some true)
  owners : ∀ id n, r.owners id = some n → r.mayModify n ≠ none ∧
    (r.infoModifies id = some true → r.mayModify n = some true)
  owned : ∀ d ∈ r.descriptors, ∃ n, r.owners d.id = some n

variable {r r' : Registry} {m : Delivery} {w w' : World} {c : Bool}

theorem mayModify_shared (h : r.Guarded) {n n' : Nat} (hshares : r.SharesWith n n')
    (hmodify : r.mayModify n = some true) : r.mayModify n' = some true := by
  induction hshares with
  | refl => exact hmodify
  | tail _ hcreator ih => exact (h.creators _ _ hcreator).2 ih

theorem mayModify_false {x : Option Bool} (hx : x ≠ none) (h : x ≠ some true) : x = some false := by
  cases x with
  | none => exact absurd rfl hx
  | some b =>
      cases b with
      | false => rfl
      | true => exact absurd rfl h

theorem mayModify_of_shares (h : r.Guarded) {n n' : Nat} (hshares : r.SharesWith n n')
    (hheld : r.mayModify n' ≠ none) : r.mayModify n ≠ none := by
  induction hshares using Relation.ReflTransGen.head_induction_on with
  | refl => exact hheld
  | head hcreator _ _ => exact (h.creators _ _ hcreator).1

theorem Registry.Guarded.readOnly (h : r.Guarded) : r.ReadOnly := by
  constructor
  · intro n n' hshares hfalse
    apply mayModify_false
    · exact mayModify_of_shares h hshares (by simp [hfalse])
    · intro htrue
      have hshared := mayModify_shared h hshares htrue
      rw [hfalse] at hshared
      cases hshared
  · intro id n info howner hfalse hinfo
    cases hcan : info.canModifyNamespace with
    | false => rfl
    | true =>
        have hmodifies : r.infoModifies id = some true := by
          rw [Registry.infoModifies, hinfo, permission, hcan]
        have htrue := (h.owners id n howner).2 hmodifies
        rw [hfalse] at htrue
        cases htrue
  · intro d hd
    obtain ⟨n, howner⟩ := h.owned d hd
    exact ⟨n, howner, (h.owners _ _ howner).1⟩
  · intro info hcan fuel directoryFd flags w
    rw [mount, if_pos hcan]
    rfl

/-! Messages. -/

theorem Descriptor.Stamped.place {d : Descriptor} (h : d.Stamped) :
    place d.infoAddress = .directoryInfo d.id := by
  obtain ⟨id, hid, haddress, -⟩ := h
  have hdiv : d.id = id := by
    rw [Descriptor.id, haddress]
    exact nodeAddress_div id (by decide)
  rw [haddress, hdiv, place_directoryInfo hid]

theorem hasInfo_iff {id : Nat} :
    w.server.hasInfo id = true ↔ w.permissions (.directoryInfo id) ≠ none :=
  Option.isSome_iff_ne_none

theorem hasProcess_iff {n : Nat} :
    w.server.hasProcess n = true ↔ w.permissions (.processData n) ≠ none :=
  Option.isSome_iff_ne_none

/-- What is new has the permission of the message. -/
theorem Progress.new {pid : Option Nat} (h : Progress pid c w w') {p : Place}
    (hnone : w.permissions p = none) (hp : w'.permissions p ≠ none) :
    w'.permissions p = some c := by
  cases h.permissions p with
  | inl heq => exact absurd (heq.trans hnone) hp
  | inr hnew => exact hnew.2.2

theorem created_some (answers : Nat → Caller → Request → Answer) {n : Nat}
    (h : r.created m w.server = some n) : n = pidOf m.buffer 2 % 2 ^ pidBits ∧
      w.permissions (.processData n) ≠ none ∧
      (r.server.world answers).permissions (.processData n) = none := by
  unfold Registry.created at h
  split at h
  · simp only [Option.ite_none_right_eq_some, Option.some.injEq, Bool.and_eq_true,
      Bool.not_eq_true'] at h
    obtain ⟨⟨hafter, hbefore⟩, rfl⟩ := h
    exact ⟨rfl, hasProcess_iff.mp hafter, Option.not_isSome_iff_eq_none.mp (by
      simp only [Bool.not_eq_true]
      exact hbefore)⟩
  · cases h

theorem created_of {answers : Nat → Caller → Request → Answer} (hsender : m.sender = none)
    (hnone : (r.server.world answers).permissions
      (.processData (pidOf m.buffer 2 % 2 ^ pidBits)) = none)
    (hheld : w.permissions (.processData (pidOf m.buffer 2 % 2 ^ pidBits)) ≠ none) :
    r.created m w.server = some (pidOf m.buffer 2 % 2 ^ pidBits) := by
  have hbefore : r.server.hasProcess (pidOf m.buffer 2 % 2 ^ pidBits) = false := by
    rw [Server.hasProcess]
    exact Option.isSome_eq_false_iff.mpr (Option.isNone_iff_eq_none.mpr hnone)
  rw [Registry.created, hsender]
  simp [hasProcess_iff.mpr hheld, hbefore]

/-- What a message does to who owns what. -/
structure Keeps (r : Registry) (m : Delivery) (c : Bool) (w : World) : Prop where
  progress : ∃ pid, Progress pid c (r.server.world m.answers) w
  shared : ∀ n, r.created m w.server = some n → byteOf m.buffer 1 &&& vfsShareNamespace ≠ 0 →
    c = true → r.mayModify (pidOf m.buffer 4 % 2 ^ pidBits) = some true
  owner : ∀ n, r.newOwner m w.server = some n → w.permissions (.processData n) ≠ none ∧
    (c = true → w.permissions (.processData n) = some true)
  sent : Withheld (r.server.world m.answers) w ∨ ∃ n, r.newOwner m w.server = some n

theorem Registry.Guarded.after (h : r.Guarded) (hkeeps : Keeps r m c w) :
    (r.after m w).Guarded := by
  obtain ⟨pid, hprogress⟩ := hkeeps.progress
  have hkept : ∀ n, r.mayModify n ≠ none → (r.after m w).mayModify n = r.mayModify n :=
    fun n hn => hprogress.kept hn
  have hinfo : ∀ id, r.infoModifies id ≠ none →
      (r.after m w).infoModifies id = r.infoModifies id := fun id hid => hprogress.kept hid
  refine ⟨h.sound.after hprogress, fun n n' hcreator => ?_, fun id n howner => ?_, fun d hd => ?_⟩
  · simp only [Registry.after] at hcreator
    split at hcreator
    · rename_i hnew
      obtain ⟨hcreated, hshare⟩ := hnew
      cases hcreator
      obtain ⟨-, hheld, hnone⟩ := created_some m.answers hcreated
      have hperm := hprogress.new hnone hheld
      refine ⟨hheld, fun htrue => ?_⟩
      have hc : c = true := Option.some.inj (hperm.symm.trans htrue)
      have hcreator := hkeeps.shared n hcreated hshare hc
      rw [hkept _ (by simp [hcreator]), hcreator]
    · obtain ⟨hheld, himp⟩ := h.creators n n' hcreator
      rw [hkept n hheld]
      refine ⟨hheld, fun htrue => ?_⟩
      have hcreator' := himp htrue
      rw [hkept n' (by simp [hcreator']), hcreator']
  · simp only [Registry.after] at howner
    split at howner
    · cases howner
    · rename_i hpresent
      split at howner
      · rename_i hbefore
        obtain ⟨hheld, himp⟩ := h.owners id n howner
        rw [hkept n hheld, hinfo id (Option.isSome_iff_ne_none.mp hbefore)]
        exact ⟨hheld, himp⟩
      · rename_i hbefore
        obtain ⟨hheld, himp⟩ := hkeeps.owner n howner
        refine ⟨hheld, fun htrue => himp ?_⟩
        have hnone : (r.server.world m.answers).permissions (.directoryInfo id) = none := by
          by_contra hne
          exact hbefore (hasInfo_iff.mpr hne)
        have hnew := hprogress.new hnone (hasInfo_iff.mp (by simpa using hpresent))
        exact Option.some.inj (hnew.symm.trans htrue)
  · obtain ⟨ds, hdescriptors, hfresh⟩ := hprogress.descriptors ⟨0, none, r.descriptors⟩
    have hall : (r.after m w).descriptors = r.descriptors ++ ds := hdescriptors
    rw [hall] at hd
    cases List.mem_append.mp hd with
    | inl hold =>
        obtain ⟨n, howner⟩ := h.owned d hold
        have hheld := h.sound.held d hold
        rw [(h.sound.stamped d hold).place] at hheld
        have hbefore : r.server.hasInfo d.id = true := Option.isSome_iff_ne_none.mpr hheld
        have hafter : w.server.hasInfo d.id = true := by
          rw [hasInfo_iff, hprogress.kept hheld]
          exact hheld
        exact ⟨n, by simp [Registry.after, hbefore, hafter, howner]⟩
    | inr hnew =>
        have hstamped := hfresh.stamped d hnew
        have hnone := hfresh.fresh d hnew
        have hheld := hfresh.held d hnew
        rw [hstamped.place] at hnone hheld
        have hbefore : r.server.hasInfo d.id = false :=
          Option.isSome_eq_false_iff.mpr (Option.isNone_iff_eq_none.mpr hnone)
        cases hkeeps.sent with
        | inl hwithheld =>
            have hsame := hwithheld ⟨0, none, r.descriptors⟩
            rw [hdescriptors, List.append_right_eq_self] at hsame
            rw [hsame] at hnew
            cases hnew
        | inr howner =>
            obtain ⟨n, howner⟩ := howner
            exact ⟨n, by simp [Registry.after, hasInfo_iff.mpr hheld, hbefore, howner]⟩

theorem Registry.Guarded.step (h : r.Guarded) (hroutable : r.Routable m)
    (hstep : r.step m = some r') : r'.Guarded := by
  simp only [Registry.step, Option.map_eq_some_iff] at hstep
  obtain ⟨⟨u, w⟩, hround, rfl⟩ := hstep
  cases hsender : m.sender with
  | none =>
      have hbadge : m.badge = ipcBadge 0 0 := by rw [Delivery.badge, hsender]
      rw [hbadge] at hround
      obtain ⟨c, hprogress, hshare, hsent⟩ := mainLoopRound_vfs mainState_stores rfl hround
      have howner : ∀ s, r.newOwner m s = r.created m s := by
        intro s
        rw [Registry.newOwner, hsender]
      refine h.after (c := c) ⟨⟨_, hprogress⟩, fun n hcreated hshares hc => hshare hshares hc,
        fun n hn => ?_, hsent.imp id fun hdata => ?_⟩
      · rw [howner] at hn
        obtain ⟨-, hheld, hnone⟩ := created_some m.answers hn
        rw [hprogress.new hnone hheld]
        exact ⟨fun hne => absurd hne (by simp), fun hc => congrArg some hc⟩
      · exact ⟨_, (howner _).trans (created_of hsender hdata.1 hdata.2)⟩
  | some d =>
      have hbadge : m.badge = d.badge := by rw [Delivery.badge, hsender]
      have hmem := hroutable.1 d hsender
      have hstamped := h.sound.stamped d hmem
      rw [hbadge] at hround
      obtain ⟨n, howner⟩ := h.owned d hmem
      have hnew : ∀ s, r.newOwner m s = some n := by
        intro s
        rw [Registry.newOwner, hsender]
        exact howner
      have haddress : ipcId d.badge = d.infoAddress := hstamped.ipcId (hroutable.2 d hsender)
      have hheld := h.sound.held d hmem
      rw [hstamped.place] at hheld
      obtain ⟨info, hinfo⟩ := permission_directoryInfo_some hheld
      have hprogress := mainLoopRound_mountPoint (c := info.canModifyNamespace) mainState_stores
        hstamped.handlerOf (fun info' hinfo' => by
          rw [haddress, hstamped.place] at hinfo'
          cases hinfo'.symm.trans hinfo
          rfl) hround
      have hdata := h.owners d.id n howner
      have hkept : w.permissions (.processData n) = r.mayModify n := hprogress.kept hdata.1
      refine h.after (c := info.canModifyNamespace) ⟨⟨_, hprogress⟩, fun n' hcreated => ?_,
        fun n' hn' => ?_, .inr ⟨n, hnew _⟩⟩
      · rw [Registry.created, hsender] at hcreated
        cases hcreated
      · cases (hnew _).symm.trans hn'
        rw [hkept]
        refine ⟨hdata.1, fun hc => hdata.2 ?_⟩
        rw [Registry.infoModifies, hinfo, permission, hc]

theorem Registry.Begins.guarded (h : r.Begins) : r.Guarded := by
  have hsound := h.sound
  obtain ⟨answers, u, w, hstart, rfl⟩ := h
  obtain ⟨c, hprogress, hsent⟩ := start_progress hstart
  have hnone : ∀ p, (Server.initial.world answers).permissions p = none :=
    fun p => permission_none
  refine ⟨hsound, nofun, fun id n howner => ?_, fun d hd => ?_⟩
  · simp only [Registry.begun, Option.ite_none_right_eq_some, Bool.and_eq_true] at howner
    obtain ⟨⟨hinfo, hprocess⟩, hn⟩ := howner
    cases hn
    have hdata := hprogress.new (hnone _) (hasProcess_iff.mp hprocess)
    have hnew := hprogress.new (hnone _) (hasInfo_iff.mp hinfo)
    refine ⟨hasProcess_iff.mp hprocess, fun htrue => ?_⟩
    exact hdata.trans (hnew.symm.trans htrue)
  · have hheld := hsound.held d hd
    rw [(hsound.stamped d hd).place] at hheld
    cases hsent with
    | inl hwithheld =>
        have hsame := hwithheld ⟨0, none, []⟩
        have hempty : (Registry.begun w).descriptors = [] := hsame
        rw [hempty] at hd
        cases hd
    | inr hdata =>
        exact ⟨1, by simp [Registry.begun, hasInfo_iff.mpr hheld, hasProcess_iff.mpr hdata]⟩

/-- As long as no message comes by the descriptor of a proxied directory, a namespace that
must not be modified is not modified by anyone who has got it that way. -/
theorem namespaces_read_only
    (h : Reaches Registry.step Registry.Routable Registry.Begins r) : r.ReadOnly := by
  have hguarded : r.Guarded := h.invariant (fun _ hbegins => hbegins.guarded)
    fun _ _ _ hguarded hroutable hstep => hguarded.step hroutable hstep
  exact hguarded.readOnly

/-! Concrete runs. -/

/-- A process is created with its creator's namespace, which it must not modify. -/
def sharesReadOnly (creatorPid newPid : BitVec 8) : Delivery :=
  ⟨none, 5, bufferOf [vfsNewProcess, vfsShareNamespace ||| vfsReadOnlyNamespace, 0, newPid, 0,
    creatorPid], [some (.other 2)], opensDirectories⟩

def secondRoot : Descriptor :=
  ⟨.root, badgeFor .root 1, directoryInfoAddress 1, none⟩

instance (r : Registry) (m : Delivery) : Decidable (r.Routable m) :=
  match h : m.sender with
  | none => decidable_of_iff (r.Legal m)
      ⟨fun hlegal => ⟨hlegal, fun d hd => by rw [h] at hd; cases hd⟩, fun hroutable => hroutable.1⟩
  | some d => decidable_of_iff (r.Legal m ∧ d.kind ≠ .directory)
      ⟨fun hlegal => ⟨hlegal.1, fun d' hd' => by rw [h] at hd'; cases hd'; exact hlegal.2⟩,
        fun hroutable => ⟨hroutable.1, hroutable.2 d h⟩⟩

/-- A process that must not modify its namespace opens a directory. -/
theorem namespaces_read_only_shared : ∃ r,
    Reaches Registry.step Registry.Routable Registry.Begins r ∧
      r.owners 2 = some 2 ∧ r.mayModify 2 = some false ∧ r.ReadOnly := by
  have hrun : ((Registry.runFrom Registry.Routable opensDirectories
      [callBy rootDescriptor fdMount, sharesReadOnly 1 2, callBy secondRoot fdOpen]).map fun r =>
        decide (r.owners 2 = some 2 ∧ r.mayModify 2 = some false)) = some true := by
    decide +kernel
  simp only [Option.map_eq_some_iff, decide_eq_true_eq] at hrun
  obtain ⟨r, hrun, howner, hprocess⟩ := hrun
  have hreaches := Registry.reaches_runFrom _ hrun
  exact ⟨r, hreaches, howner, hprocess, namespaces_read_only hreaches⟩

/-- The directory that the second process opens last has the id 13, which is also the address
of the `directory_info` of the first process's root. -/
def thirteenthDirectory : Descriptor :=
  ⟨.directory, badgeFor .directory 13, directoryInfoAddress 13, some (.other 1)⟩

def opensThirteen : List Delivery :=
  [callBy rootDescriptor fdMount, sharesReadOnly 1 2] ++
    List.replicate 12 (callBy secondRoot fdOpen)

/-- The second process opens a directory through the thirteenth one. -/
theorem read_only_evaded : ∃ r, Reaches Registry.step Registry.Legal Registry.Begins r ∧
    ¬r.ReadOnly := by
  have hrun : ((Registry.runFrom Registry.Legal opensDirectories (opensThirteen ++
      [callBy thirteenthDirectory fdOpen])).map fun r =>
        decide (r.owners 14 = some 2 ∧ r.mayModify 2 = some false ∧
          r.infoModifies 14 = some true)) = some true := by
    decide +kernel
  simp only [Option.map_eq_some_iff, decide_eq_true_eq] at hrun
  obtain ⟨r, hrun, howner, hprocess, hinfo⟩ := hrun
  refine ⟨r, Registry.reaches_runFrom _ hrun, fun hreadOnly => ?_⟩
  have hheld : r.infoModifies 14 ≠ none := by simp [hinfo]
  obtain ⟨info, hat⟩ := permission_directoryInfo_some hheld
  have hfalse := hreadOnly.opened 14 2 info howner hprocess hat
  rw [Registry.infoModifies, hat, permission, hfalse] at hinfo
  cases hinfo

end Cenix.Vfs
