import Cenix.Vfs.Permissions

namespace Cenix.Vfs

open Programs

/-! The functions that allocate a `directory_info` and send a descriptor for it. -/

/-- The badge of a descriptor with the `directory_info` with the given id. -/
def badgeFor : Kind → Nat → Nat
  | .root, id => ipcBadge (directoryInfoAddress id) ipcFlagIsMountPoint
  | .mountPoint, id => ipcBadge (directoryInfoAddress id) ipcFlagIsMountPoint
  | .directory, id => ipcBadge id ipcFlagIsMountPoint

def Descriptor.Stamped (d : Descriptor) : Prop :=
  ∃ id < maxOpenDirectories, d.infoAddress = directoryInfoAddress id ∧ d.badge = badgeFor d.kind id

/-- New descriptors for structures that have not been there before. -/
structure FreshDescriptors (g g' : Place → Option Bool) (ds : List Descriptor) : Prop where
  stamped : ∀ d ∈ ds, d.Stamped
  fresh : ∀ d ∈ ds, g (place d.infoAddress) = none
  held : ∀ d ∈ ds, g' (place d.infoAddress) ≠ none
  distinct : (ds.map fun d => d.infoAddress).Nodup

/-- Where a new structure with a permission may be. -/
def newAt (pid : Option Nat) : Place → Prop
  | .directoryInfo _ => True
  | .processData i => pid = some i
  | _ => False

/-- Permissions stay, new ones are `c`, and new descriptors are for new structures. -/
structure Grows (pid : Option Nat) (c : Bool) (w w' : World) : Prop where
  permissions : ∀ p, w'.permissions p = w.permissions p ∨
    (newAt pid p ∧ w.permissions p = none ∧ w'.permissions p = some c)
  events : ∃ es, w'.events = w.events ++ es ∧ (∀ e ∈ es, infoLock e = none) ∧
    ∀ o, ∃ ds, (es.foldl watch o).descriptors = o.descriptors ++ ds ∧
      FreshDescriptors w.permissions w'.permissions ds

variable {pid : Option Nat} {c : Bool} {w w' w'' : World} {α : Type}

theorem freshDescriptors_nil {g g' : Place → Option Bool} : FreshDescriptors g g' [] :=
  ⟨nofun, nofun, nofun, List.nodup_nil⟩

theorem foldl_watch_unseen {es : List Event} (h : ∀ e ∈ es, Unseen e) (o : Watch) :
    es.foldl watch o = o := by
  induction es generalizing o with
  | nil => rfl
  | cons e es ih =>
      rw [List.foldl_cons, (h e List.mem_cons_self).watch]
      exact ih (fun e he => h e (List.mem_cons_of_mem _ he)) o

theorem Still.grows (h : Still w w') : Grows pid c w w' := by
  obtain ⟨es, hes, hunseen⟩ := h.events
  refine ⟨fun p => .inl (congrFun h.permissions p), es, hes,
    fun e he => (hunseen e he).infoLock, fun o => ⟨[], ?_, freshDescriptors_nil⟩⟩
  rw [foldl_watch_unseen hunseen, List.append_nil]

theorem Grows.kept (h : Grows pid c w w') {p : Place} (hp : w.permissions p ≠ none) :
    w'.permissions p = w.permissions p := by
  cases h.permissions p with
  | inl heq => exact heq
  | inr hnew => exact absurd hnew.2.1 hp

theorem Grows.none_before (h : Grows pid c w w') {p : Place} (hp : w'.permissions p = none) :
    w.permissions p = none := by
  by_contra hne
  exact hne ((h.kept hne).symm.trans hp)

theorem FreshDescriptors.append {ds ds' : List Descriptor} (h : Grows pid c w w')
    (h' : Grows pid c w' w'') (hds : FreshDescriptors w.permissions w'.permissions ds)
    (hds' : FreshDescriptors w'.permissions w''.permissions ds') :
    FreshDescriptors w.permissions w''.permissions (ds ++ ds') := by
  constructor
  · intro d hd
    exact (List.mem_append.mp hd).elim (hds.stamped d) (hds'.stamped d)
  · intro d hd
    cases List.mem_append.mp hd with
    | inl hd => exact hds.fresh d hd
    | inr hd => exact h.none_before (hds'.fresh d hd)
  · intro d hd
    cases List.mem_append.mp hd with
    | inl hd =>
        have hheld := hds.held d hd
        rw [h'.kept hheld]
        exact hheld
    | inr hd => exact hds'.held d hd
  · rw [List.map_append]
    refine List.nodup_append.mpr ⟨hds.distinct, hds'.distinct, ?_⟩
    intro a ha b hb hab
    obtain ⟨d, hd, rfl⟩ := List.mem_map.mp ha
    obtain ⟨d', hd', rfl⟩ := List.mem_map.mp hb
    have hfresh := hds'.fresh d' hd'
    rw [← hab] at hfresh
    exact hds.held d hd hfresh

instance : Std.Refl (Grows pid c) where
  refl _ := Still.grows (Std.Refl.refl _)

instance : IsTrans World (Grows pid c) where
  trans := by
    intro w w' w'' h h'
    obtain ⟨es, hes, hlocks, hds⟩ := h.events
    obtain ⟨es', hes', hlocks', hds'⟩ := h'.events
    refine ⟨fun p => ?_, es ++ es', by rw [hes', hes, List.append_assoc], ?_, ?_⟩
    · cases h.permissions p with
      | inl heq =>
          rw [← heq]
          exact h'.permissions p
      | inr hnew =>
          have hkept := h'.kept (p := p) (by simp [hnew.2.2])
          exact .inr ⟨hnew.1, hnew.2.1, hkept.trans hnew.2.2⟩
    · intro e he
      exact (List.mem_append.mp he).elim (hlocks e) (hlocks' e)
    · intro o
      obtain ⟨ds, hdescriptors, hfresh⟩ := hds o
      obtain ⟨ds', hdescriptors', hfresh'⟩ := hds' (es.foldl watch o)
      refine ⟨ds ++ ds', ?_, hfresh.append h h' hfresh'⟩
      rw [List.foldl_append, hdescriptors', hdescriptors, List.append_assoc]

theorem Grows.mono (h : Grows none c w w') : Grows pid c w w' := by
  refine ⟨fun p => ?_, h.events⟩
  cases h.permissions p with
  | inl heq => exact .inl heq
  | inr hnew =>
      refine .inr ⟨?_, hnew.2⟩
      have hat := hnew.1
      cases p <;> first | exact hat | cases hat

/-! The steps of the three functions. -/

/-- What has happened since `w₀`: what the events do to what is known, and the permissions
that there are. -/
structure Shows (w₀ : World) (f : Watch → Watch) (g : Place → Option Bool) (w : World) :
    Prop where
  permissions : w.permissions = g
  events : ∃ es, w.events = w₀.events ++ es ∧ (∀ e ∈ es, infoLock e = none) ∧
    ∀ o, es.foldl watch o = f o

variable {w₀ : World} {f : Watch → Watch} {g : Place → Option Bool}

theorem shows_self : Shows w id w.permissions w :=
  ⟨rfl, [], (List.append_nil _).symm, List.forall_mem_nil _, fun _ => rfl⟩

theorem Shows.congr {f' : Watch → Watch} (h : Shows w₀ f g w) (hf : ∀ o, f o = f' o) :
    Shows w₀ f' g w :=
  (funext hf : f = f') ▸ h

theorem Shows.of_still (h : Shows w₀ f g w) (hstill : Still w w') : Shows w₀ f g w' := by
  obtain ⟨hpermissions, es, hes, hlocks, hwatch⟩ := h
  obtain ⟨es', hes', hunseen⟩ := hstill.events
  refine ⟨hstill.permissions.trans hpermissions, es ++ es',
    by rw [hes', hes, List.append_assoc], fun e he => ?_, fun o => ?_⟩
  · exact (List.mem_append.mp he).elim (hlocks e) fun he => (hunseen e he).infoLock
  · rw [List.foldl_append, foldl_watch_unseen hunseen, hwatch]

theorem Shows.still {x : Vfs α} (hx : Respects Still x) :
    Ensures (Shows w₀ f g) x fun _ => Shows w₀ f g :=
  fun _ _ _ hw h => hw.of_still (hx _ _ _ h)

/-- One more event. -/
theorem Shows.record {e : Event} (h : Shows w₀ f g w) (hlock : infoLock e = none)
    (hevents : w'.events = w.events ++ [e]) (hpermissions : w'.permissions = w.permissions) :
    Shows w₀ (fun o => watch (f o) e) g w' := by
  obtain ⟨hperms, es, hes, hlocks, hwatch⟩ := h
  refine ⟨hpermissions.trans hperms, es ++ [e],
    by rw [hevents, hes, List.append_assoc], fun e' he => ?_, fun o => ?_⟩
  · cases List.mem_append.mp he with
    | inl he => exact hlocks e' he
    | inr he =>
        rw [List.mem_singleton.mp he]
        exact hlock
  · rw [List.foldl_append, hwatch]
    rfl

theorem record_shows {e : Event} (hlock : infoLock e = none) :
    Ensures (Shows w₀ f g) (record e) fun _ => Shows w₀ (fun o => watch (f o) e) g := by
  intro w u w' hw h
  cases h
  exact hw.record hlock rfl rfl

/-- The functions with descriptors are no handlers. -/
theorem infoLock_constructor {caller : Caller} {address : Nat} {found : Bool} {kind : Kind}
    (h : constructorOf caller = some kind) : infoLock (.locked caller address found) = none := by
  cases caller <;> first | rfl | cases h

def setInfoAddress (address : Nat) (o : Watch) : Watch :=
  { o with infoAddress := address }

theorem lock_shows {caller : Caller} {address : Nat} {kind : Kind}
    (h : constructorOf caller = some kind) :
    Ensures (Shows w₀ f g) (lock caller address) fun _ =>
      Shows w₀ (fun o => setInfoAddress address (f o)) g := by
  intro w found w' hw hlock
  cases hlock
  have hwatch : ∀ o found, watch o (.locked caller address found) = setInfoAddress address o := by
    intro o found
    simp [watch, h, setInfoAddress]
  simp only [← hwatch _ ((w.answers w.time caller (.lock address)).result == 0)]
  exact hw.record (infoLock_constructor h) rfl rfl

theorem allocUntyped_shows {caller : Caller} {address : Nat} :
    Ensures (Shows w₀ f g) (allocUntyped caller address) fun result w =>
      Shows w₀ f g w ∧ (result = 0 → g (place address) = none) := by
  intro w result w' hw h
  refine ⟨hw.of_still (allocUntyped_still _ _ _ h), fun hzero => ?_⟩
  obtain ⟨result', w'', h', hdone⟩ := allocUntyped_returns w (f := w.server.structures) rfl
  rw [h'] at h
  cases h
  rcases hdone with ⟨hfailed, -⟩ | ⟨-, hnone, -⟩
  · exact absurd hzero hfailed
  · rw [← hw.permissions]
    exact (congrArg (permission _) hnone).trans permission_none

theorem allocStructure_shows {ids : Ids} {node maxItems : Nat} (hmax : 0 < maxItems)
    (hnode : node < 2 ^ initNodeDepth) :
    Ensures (Shows w₀ f g) (allocStructure ids node maxItems) fun a w =>
      Shows w₀ f g w ∧ (a ≠ sizeMax → ∃ id < maxItems, a = nodeAddress node id ∧
        g (nodePlace node id) = none) := by
  intro w a w' hw h
  refine ⟨hw.of_still (allocStructure_still _ _ _ h), fun hne => ?_⟩
  have hreturns : Returns (Sees w.server.structures) (allocStructure ids node maxItems) _ :=
    allocStructure_returns hmax hnode
  obtain ⟨a', w'', h', hdone⟩ := hreturns w rfl
  rw [h'] at h
  cases h
  rcases hdone with ⟨hfailed, -⟩ | ⟨id, hid, ha, hnone, -⟩
  · exact absurd hfailed hne
  · refine ⟨id, hid, ha, ?_⟩
    rw [← hw.permissions]
    exact (congrArg (permission _) hnone).trans permission_none

theorem permissions_setStructure (p : Place) (structure' : Option Structure)
    (hw' : w'.server.structures = (w.server.setStructure p structure').structures) :
    w'.permissions = Function.update w.permissions p (permission p structure') := by
  funext q
  show permission q (w'.server.structures q) = _
  rw [hw']
  cases decEq q p with
  | isTrue heq =>
      subst heq
      simp [Server.setStructure]
  | isFalse hne =>
      rw [setStructure_structures hne, Function.update_of_ne hne]
      rfl

/-- A structure is written or deleted. -/
theorem Shows.update (h : Shows w₀ f g w) {p : Place} (structure' : Option Structure)
    (hevents : w'.events = w.events)
    (hw' : w'.server.structures = (w.server.setStructure p structure').structures) :
    Shows w₀ f (Function.update g p (permission p structure')) w' := by
  obtain ⟨hpermissions, es, hes, hlocks, hwatch⟩ := h
  refine ⟨?_, es, hevents.trans hes, hlocks, hwatch⟩
  rw [permissions_setStructure p structure' hw', hpermissions]

theorem writeStructure_shows {address : Nat} {structure' : Structure} :
    Ensures (Shows w₀ f g) (writeStructure address structure') fun _ =>
      Shows w₀ f (Function.update g (place address) (permission (place address) structure')) := by
  intro w u w' hw h
  obtain ⟨old, w₁, hold, hmodify⟩ := bind_some h
  obtain ⟨rfl, -⟩ := structureAt_some hold
  cases hmodify
  exact hw.update (some structure') rfl rfl

theorem nodeDelete_shows {caller : Caller} {node slot : Nat} :
    Ensures (Shows w₀ f g) (nodeDelete caller node slot) fun _ w =>
      Shows w₀ f g w ∨ Shows w₀ f (Function.update g (nodePlace node slot) none) w := by
  refine .bind (Shows.still ask_still) fun _ => .bind (Shows.still getServer_still) fun _ =>
    .bind (Shows.still (record_still deleted_unseen)) fun _ => ?_
  refine .bind (R := fun _ w => Shows w₀ f g w ∨
    Shows w₀ f (Function.update g (nodePlace node slot) none) w) (.ite (fun _ => ?_)
      fun _ => .pure fun _ hw => .inl hw) fun _ => .pure fun _ hw => hw
  intro w u w' hw h
  cases h
  exact .inr (permission_none ▸ hw.update none rfl rfl)

theorem freeInfo_shows {maxItems id : Nat} :
    Ensures (Shows w₀ f g) (freeStructure .directories directoryInfoSlot maxItems
      (nodeAddress directoryInfoSlot id)) fun _ w =>
        Shows w₀ f g w ∨
          Shows w₀ f (Function.update g (nodePlace directoryInfoSlot id) none) w := by
  have hid : nodeAddress directoryInfoSlot id / 2 ^ initNodeDepth = id :=
    nodeAddress_div id (by decide)
  unfold freeStructure
  rw [hid]
  refine .bind nodeDelete_shows fun _ => .ite (fun _ => ?_) fun _ => .pure fun _ hw => hw
  intro w u w' hw h
  exact hw.imp (·.of_still (markSlotUnused_still _ _ _ h)) (·.of_still (markSlotUnused_still _ _ _ h))

/-! The endpoint that is sent. -/

/-- The address of the temporary slot of a thread leads to it. -/
def State.Stores (state : State) : Prop :=
  place (threadStorageSlot state.threadId state.tempSlot) =
    .storage state.threadId state.tempSlot

theorem mainState_stores : mainState.Stores :=
  rfl

theorem copyEndpoint_carries {caller : Caller} {threadId slot badge : Nat} :
    Ensures (fun _ => True) (copyEndpoint caller threadId slot badge) fun result w =>
      result = 0 → w.server.fds (.storage threadId slot) = some (.endpoint badge) := by
  refine .bind (R := fun _ _ => True) (fun _ _ _ _ _ => trivial) fun answer => ?_
  refine .bind (R := fun _ _ => True) (fun _ _ _ _ _ => trivial) fun s => ?_
  refine .ite (fun hfailed => .pure fun _ _ hzero => absurd hzero hfailed) fun _ =>
    .ite (fun _ => .pure fun _ _ hzero => absurd hzero (by decide)) fun _ => ?_
  intro w result w' _ h _
  cases h
  simp [Server.setFd]

/-- The message of `badge_and_send`. -/
def badgeMessage (state : State) : IpcMessage :=
  returning (ipcMessage [] [⟨threadStorageSlot state.threadId state.tempSlot,
    threadStorageNodeBits + threadStorageBits + initNodeDepth⟩] 0) 0

theorem carried_badgeMessage {state : State} {s : Server} {badge : Nat} (hstate : state.Stores)
    (h : s.fds (.storage state.threadId state.tempSlot) = some (.endpoint badge)) :
    (carried s (badgeMessage state)).head? = some (some (.endpoint badge)) := by
  have hhead : (badgeMessage state).capabilities.toList.head? =
      some ⟨threadStorageSlot state.threadId state.tempSlot,
        threadStorageNodeBits + threadStorageBits + initNodeDepth⟩ := rfl
  rw [carried, List.head?_map, hhead, Option.map_some, hstate]
  simp [h, threadStorageNodeBits]

/-- A descriptor may have been handed out. -/
def HandsOut (w₀ : World) (f : Watch → Watch) (g : Place → Option Bool) (kind : Kind)
    (badge : Nat) (w : World) : Prop :=
  Shows w₀ f g w ∨ Shows w₀ (fun o => (f o).handOut kind badge) g w

theorem HandsOut.of_still {kind : Kind} {badge : Nat} (h : HandsOut w₀ f g kind badge w)
    (hstill : Still w w') : HandsOut w₀ f g kind badge w' :=
  h.imp (·.of_still hstill) (·.of_still hstill)

theorem HandsOut.still {x : Vfs α} {kind : Kind} {badge : Nat} (hx : Respects Still x) :
    Ensures (HandsOut w₀ f g kind badge) x fun _ => HandsOut w₀ f g kind badge :=
  fun _ _ _ hw h => hw.of_still (hx _ _ _ h)

theorem infoLock_sent {caller : Caller} {address result : Nat} {receiver : Option Fd}
    {message : IpcMessage} {capabilities : List (Option Fd)} :
    infoLock (.sent caller address receiver message capabilities result) = none :=
  rfl

theorem watchSent_handOut {capabilities : List (Option Fd)} {badge : Nat}
    (h : capabilities.head? = some (some (.endpoint badge))) (kind : Kind) (result : Nat) :
    (∀ o, watchSent o kind capabilities result = o.handOut kind badge) ∨
      ∀ o, watchSent o kind capabilities result = o := by
  cases decEq result 0 with
  | isTrue hzero => exact .inl fun o => by simp [watchSent, h, hzero]
  | isFalse hne => exact .inr fun o => by simp [watchSent, h, hne]

theorem send_handsOut {caller : Caller} {kind : Kind} {state : State}
    {badge replyAddress : Nat} (hkind : constructorOf caller = some kind)
    (hstate : state.Stores) :
    Ensures (fun w => Shows w₀ f g w ∧
        w.server.fds (.storage state.threadId state.tempSlot) = some (.endpoint badge))
      (send caller replyAddress (badgeMessage state)) fun _ => HandsOut w₀ f g kind badge := by
  intro w result w' hw h
  obtain ⟨hshows, hfd⟩ := hw
  obtain ⟨answer, w₁, hask, h⟩ := bind_some h
  have hasked := hshows.of_still (ask_still _ _ _ hask)
  cases hask
  rw [getServer_bind] at h
  obtain ⟨u, w₂, hrecord, h⟩ := bind_some h
  obtain ⟨u, w₃, htake, h⟩ := bind_some h
  cases h
  have hcarried := carried_badgeMessage hstate hfd
  have hrecorded := record_shows infoLock_sent _ _ _ hasked hrecord
  have hstill := onlyIf_still (modifyServer_still fun _ _ => foldl_takeCapability_permission)
    _ _ _ htake
  refine HandsOut.of_still ?_ hstill
  simp only [watch, hkind] at hrecorded
  exact (watchSent_handOut hcarried kind _).elim
    (fun hout => .inr (hrecorded.congr fun o => hout (f o)))
    fun hkept => .inl (hrecorded.congr fun o => hkept (f o))

theorem badgeAndSend_handsOut {caller : Caller} {kind : Kind} {state : State}
    {badge replyAddress : Nat} (hkind : constructorOf caller = some kind)
    (hstate : state.Stores) :
    Ensures (Shows w₀ f g) (badgeAndSend caller state badge replyAddress) fun result w =>
      (result ≠ 0 ∧ Shows w₀ f g w) ∨ (result = 0 ∧ HandsOut w₀ f g kind badge w) := by
  refine .bind (((Shows.still copyEndpoint_still).and
    (copyEndpoint_carries.pre fun _ _ => trivial))) fun result => .ite
      (fun hfailed => .pure fun w hw => .inl ⟨hfailed, hw.1⟩) fun hdone => ?_
  refine .bind ((send_handsOut hkind hstate).pre fun w hw => ⟨hw.1, hw.2 (not_not.mp hdone)⟩)
    fun _ => .bind (HandsOut.still storageDelete_still) fun _ => .pure fun w hw => .inr ⟨rfl, hw⟩

/-! What the three functions do. -/

/-- Nothing, or a new `directory_info` for which a descriptor may have been handed out. -/
def Constructs (w₀ : World) (kind : Kind) (c : Bool) (w : World) : Prop :=
  (∃ f, (∀ o, (f o).descriptors = o.descriptors) ∧ Shows w₀ f w₀.permissions w) ∨
    ∃ id < maxOpenDirectories, w₀.permissions (.directoryInfo id) = none ∧
      HandsOut w₀ (setInfoAddress (directoryInfoAddress id))
        (Function.update w₀.permissions (.directoryInfo id) (some c)) kind (badgeFor kind id) w

theorem constructs_nothing {kind : Kind} (h : Shows w₀ f w₀.permissions w)
    (hf : ∀ o, (f o).descriptors = o.descriptors) : Constructs w₀ kind c w :=
  .inl ⟨f, hf, h⟩

theorem Grows.of_shows {p₀ : Place} (hp₀ : newAt pid p₀) (hnone : w₀.permissions p₀ = none)
    (hf : ∀ o, ∃ ds, (f o).descriptors = o.descriptors ++ ds ∧ FreshDescriptors w₀.permissions
      (Function.update w₀.permissions p₀ (some c)) ds)
    (h : Shows w₀ f (Function.update w₀.permissions p₀ (some c)) w) :
    Grows pid c w₀ w := by
  obtain ⟨hpermissions, es, hes, hlocks, hwatch⟩ := h
  refine ⟨fun p => ?_, es, hes, hlocks, fun o => ?_⟩
  · rw [hpermissions]
    cases decEq p p₀ with
    | isTrue heq =>
        subst heq
        exact .inr ⟨hp₀, hnone, Function.update_self _ _ _⟩
    | isFalse hne => exact .inl (Function.update_of_ne hne _ _)
  · rw [hwatch, hpermissions]
    exact hf o

theorem freshDescriptors_single {kind : Kind} {id : Nat} {opened : Option Fd}
    {g : Place → Option Bool} (hid : id < maxOpenDirectories)
    (hnone : g (.directoryInfo id) = none) :
    FreshDescriptors g (Function.update g (.directoryInfo id) (some c))
      [⟨kind, badgeFor kind id, directoryInfoAddress id, opened⟩] := by
  constructor
  · intro d hd
    rw [List.mem_singleton.mp hd]
    exact ⟨id, hid, rfl, rfl⟩
  · intro d hd
    rw [List.mem_singleton.mp hd]
    exact (congrArg g (place_directoryInfo hid)).trans hnone
  · intro d hd
    rw [List.mem_singleton.mp hd]
    simp [place_directoryInfo hid]
  · exact List.nodup_singleton _

theorem Constructs.grows {kind : Kind} (h : Constructs w₀ kind c w) : Grows pid c w₀ w := by
  rcases h with ⟨f, hf, hpermissions, es, hes, hlocks, hwatch⟩ | ⟨id, hid, hnone, h⟩
  · refine ⟨fun p => .inl (congrFun hpermissions p), es, hes, hlocks, fun o =>
      ⟨[], ?_, freshDescriptors_nil⟩⟩
    rw [hwatch, List.append_nil, hf]
  · have hat : newAt pid (.directoryInfo id) := trivial
    cases h with
    | inl h =>
        refine .of_shows hat hnone (fun o => ⟨[], ?_, freshDescriptors_nil⟩) h
        exact (List.append_nil o.descriptors).symm
    | inr h => exact .of_shows hat hnone (fun o => ⟨[_], rfl, freshDescriptors_single hid hnone⟩) h

/-- A function that only does that. -/
theorem respects_of_constructs {x : Vfs α} {kind : Kind}
    (hx : ∀ w₀, Ensures (Shows w₀ id w₀.permissions) x fun _ => Constructs w₀ kind c) :
    Respects (Grows pid c) x :=
  fun w a w' h => (hx w w a w' shows_self h).grows

section Functions

variable {state : State}

/-- No descriptor has been handed out. -/
def Unsent (w₀ w : World) : Prop :=
  ∃ f g, (∀ o, (f o).descriptors = o.descriptors) ∧ Shows w₀ f g w

theorem unsent_of (h : Shows w₀ f g w) (hf : ∀ o, (f o).descriptors = o.descriptors) :
    Unsent w₀ w :=
  ⟨f, g, hf, h⟩

/-- Where the function fails it has handed out no descriptor. -/
theorem openRoot_outcome {badge replyCapability namespaceId : Nat} (hstate : state.Stores)
    (w₀ : World) :
    Ensures (Shows w₀ id w₀.permissions) (openRoot state badge replyCapability namespaceId)
      fun result w => Constructs w₀ .root (ipcFlags badge == ipcFlagCanModify) w ∧
        (result ≠ 0 → Unsent w₀ w) := by
  have hnothing : ∀ {f : Watch → Watch} {w : World} {result : Nat}, Shows w₀ f w₀.permissions w →
      (∀ o, (f o).descriptors = o.descriptors) → Constructs w₀ .root
        (ipcFlags badge == ipcFlagCanModify) w ∧ (result ≠ 0 → Unsent w₀ w) :=
    fun hw hf => ⟨constructs_nothing hw hf, fun _ => unsent_of hw hf⟩
  refine .bind (lock_shows rfl) fun _ => .ite
    (fun _ => .pure fun w hw => hnothing hw fun _ => rfl) fun _ => ?_
  refine .bind (allocStructure_shows (by decide) (by decide)) fun a => .ite
    (fun _ => .pure fun w hw => hnothing hw.1 fun _ => rfl) fun hne => ?_
  refine Ensures.pre (A := fun w => ∃ i, i < maxOpenDirectories ∧
    a = nodeAddress directoryInfoSlot i ∧ w₀.permissions (.directoryInfo i) = none ∧
      Shows w₀ (setInfoAddress (namespaceAddress namespaceId)) w₀.permissions w) ?_ fun w hw => ?_
  · refine .exists_pre fun i => .and_pre fun hi => .and_pre fun ha => .and_pre fun hnone => ?_
    subst ha
    have hback : ∀ c, Function.update (Function.update w₀.permissions (.directoryInfo i) c)
        (.directoryInfo i) none = w₀.permissions := by
      intro c
      rw [Function.update_idem, ← hnone, Function.update_eq_self]
    have hplace : place (nodeAddress directoryInfoSlot i) = .directoryInfo i :=
      place_directoryInfo hi
    refine .bind (lock_shows rfl) fun _ => .ite (fun _ => ?_) fun _ => ?_
    · refine .bind freeInfo_shows fun _ => .pure fun w hw =>
        ?_
      rw [nodePlace_directoryInfo hi, ← hnone, Function.update_eq_self, or_self] at hw
      exact hnothing hw fun _ => rfl
    · refine .bind (Shows.still fsNamespaceAt_still) fun fsNamespace =>
        .bind (writeStructure_shows) fun _ =>
          .bind (Shows.still unlock_still) fun _ => ?_
      rw [hplace]
      refine .bind (badgeAndSend_handsOut rfl hstate) fun result => .ite (fun hfailed => ?_)
        fun hzero => ?_
      · refine .pre (A := Shows w₀ _ _) (.bind freeInfo_shows fun _ => .pure fun w hw => ?_)
          fun w hw => (hw.resolve_right fun h => hfailed h.1).2
        rw [nodePlace_directoryInfo hi, hback] at hw
        cases hw with
        | inl hw => exact ⟨.inr ⟨i, hi, hnone, .inl hw⟩, fun _ => unsent_of hw fun _ => rfl⟩
        | inr hw => exact hnothing hw fun _ => rfl
      · refine .pre (A := HandsOut w₀ _ _ _ _) (.bind (HandsOut.still unlock_still) fun _ =>
          .pure fun w hw => ⟨.inr ⟨i, hi, hnone, hw⟩, fun hfailed => absurd hfailed hzero⟩)
            fun w hw => ?_
        exact (hw.resolve_left fun h => h.1 (not_not.mp hzero)).2
  · obtain ⟨i, hi, ha, hnone⟩ := hw.2 hne
    rw [nodePlace_directoryInfo hi] at hnone
    exact ⟨i, hi, ha, hnone, hw.1⟩

theorem openRoot_constructs {badge replyCapability namespaceId : Nat} (hstate : state.Stores)
    (w₀ : World) :
    Ensures (Shows w₀ id w₀.permissions) (openRoot state badge replyCapability namespaceId)
      fun _ => Constructs w₀ .root (ipcFlags badge == ipcFlagCanModify) :=
  (openRoot_outcome hstate w₀).post fun _ _ hw => hw.1

theorem directoryAddress_div (id : Nat) : directoryAddress id / 2 ^ initNodeDepth = id :=
  nodeAddress_div id (by decide)

/-- Where nothing is known to be there. -/
def Free (w₀ : World) (id : Nat) (f : Watch → Watch) (w : World) : Prop :=
  w₀.permissions (.directoryInfo id) = none ∧ Shows w₀ f w₀.permissions w

theorem Free.still {x : Vfs α} {id : Nat} (hx : Respects Still x) :
    Ensures (Free w₀ id f) x fun _ => Free w₀ id f :=
  fun _ _ _ hw h => ⟨hw.1, hw.2.of_still (hx _ _ _ h)⟩

theorem Free.lock {caller : Caller} {kind : Kind} {id address : Nat}
    (h : constructorOf caller = some kind) :
    Ensures (Free w₀ id f) (lock caller address) fun _ =>
      Free w₀ id fun o => setInfoAddress address (f o) :=
  .and_pre fun hnone => (lock_shows h).post fun _ _ hw => ⟨hnone, hw⟩

theorem openMountPoint_constructs {id mountPointAddress inode replyAddress : Nat}
    {info : DirectoryInfo} (hid : id < maxOpenDirectories) (hstate : state.Stores)
    (w₀ : World) :
    Ensures (Shows w₀ (fun o => o) w₀.permissions) (openMountPoint state (directoryAddress id)
        mountPointAddress info inode replyAddress) fun _ =>
      Constructs w₀ .mountPoint info.canModifyNamespace := by
  have hplace : place (directoryInfoAddress id) = .directoryInfo id := place_directoryInfo hid
  unfold openMountPoint
  simp only [directoryAddress_div]
  refine .bind allocUntyped_shows fun result => .ite
    (fun _ => .pure fun w hw => constructs_nothing hw.1 fun _ => rfl) fun hzero => ?_
  refine .pre (A := Free w₀ id fun o => o) ?_ fun w hw =>
    ⟨hplace ▸ hw.2 (not_not.mp hzero), hw.1⟩
  refine .bind (Free.still (nodeDelete_still rfl)) fun _ => .bind (Free.lock rfl) fun _ => .ite
    (fun _ => .pure fun w hw => constructs_nothing hw.2 fun _ => rfl) fun _ => .and_pre fun hnone => ?_
  refine .bind (writeStructure_shows) fun _ => .bind (Shows.still unlock_still)
    fun _ => ?_
  rw [hplace]
  refine (badgeAndSend_handsOut rfl hstate).post fun result w hw => .inr ⟨id, hid, hnone, ?_⟩
  exact hw.elim (fun hw => .inl hw.2) (fun hw => hw.2)

theorem proxyDirectory_constructs {id inode replyAddress : Nat} {info : DirectoryInfo}
    (hid : id < maxOpenDirectories) (hstate : state.Stores) (w₀ : World) :
    Ensures (Shows w₀ (fun o => o) w₀.permissions) (proxyDirectory state (directoryAddress id)
        info inode replyAddress) fun _ =>
      Constructs w₀ .directory info.canModifyNamespace := by
  have hplace : place (directoryInfoAddress id) = .directoryInfo id := place_directoryInfo hid
  have hnode : nodePlace directoryInfoSlot id = .directoryInfo id := nodePlace_directoryInfo hid
  unfold proxyDirectory
  simp only [directoryAddress_div]
  refine .bind allocUntyped_shows fun result => .ite
    (fun _ => .pure fun w hw => constructs_nothing hw.1 fun _ => rfl) fun hzero => ?_
  refine .pre (A := Free w₀ id fun o => o) ?_ fun w hw =>
    ⟨hplace ▸ hw.2 (not_not.mp hzero), hw.1⟩
  refine .bind (Free.lock rfl) fun _ => .ite (fun _ => .and_pre fun hnone => ?_) fun _ =>
    .and_pre fun hnone => ?_
  · refine .bind nodeDelete_shows fun _ => .pure fun w hw => ?_
    rw [hnode, ← hnone, Function.update_eq_self, or_self] at hw
    exact constructs_nothing hw fun _ => rfl
  · refine .bind (writeStructure_shows) fun _ => .bind (Shows.still unlock_still)
      fun _ => ?_
    rw [hplace]
    refine .bind (badgeAndSend_handsOut rfl hstate) fun result => .bind (R := fun _ =>
      Constructs w₀ .directory info.canModifyNamespace) (.ite (fun hfailed => ?_) fun hdone => ?_)
        fun _ => .pure fun _ hw => hw
    · refine .pre (A := Shows w₀ _ _) (.bind nodeDelete_shows fun _ =>
        .pure fun w hw => ?_) fun w hw => (hw.resolve_right fun h => hfailed h.1).2
      rw [hnode, Function.update_idem, ← hnone, Function.update_eq_self] at hw
      cases hw with
      | inl hw => exact .inr ⟨id, hid, hnone, .inl hw⟩
      | inr hw => exact constructs_nothing hw fun _ => rfl
    · refine .pure fun w hw => .inr ⟨id, hid, hnone, ?_⟩
      exact (hw.resolve_left fun h => h.1 (not_not.mp hdone)).2

end Functions

end Cenix.Vfs
