import Cenix.Vfs.Opening

namespace Cenix.Vfs

open Programs

/-! What the creation of a process does to permissions and descriptors. -/

variable {c : Bool} {w w' w'' : World} {state : State}

/-- Data of the new process is deleted again. -/
theorem Grows.delete {n : Nat} (h : Grows (some n) c w w')
    (hnone : w.permissions (.processData n) = none)
    (hpermissions : w''.permissions = Function.update w'.permissions (.processData n) none)
    (hevents : w''.events = w'.events) : Grows (some n) c w w'' := by
  obtain ⟨hperms, es, hes, hlocks, hds⟩ := h
  refine ⟨fun p => ?_, es, hevents.trans hes, hlocks, fun o => ?_⟩
  · rw [hpermissions]
    cases decEq p (.processData n) with
    | isTrue heq =>
        subst heq
        exact .inl (by rw [Function.update_self, hnone])
    | isFalse hne =>
        rw [Function.update_of_ne hne]
        exact hperms p
  · obtain ⟨ds, hdescriptors, hfresh⟩ := hds o
    refine ⟨ds, hdescriptors, hfresh.stamped, hfresh.fresh, fun d hd => ?_, hfresh.distinct⟩
    obtain ⟨id, hid, haddress, -⟩ := hfresh.stamped d hd
    have hplace : place d.infoAddress = .directoryInfo id := by
      rw [haddress, place_directoryInfo hid]
    rw [hpermissions, Function.update_of_ne (by rw [hplace]; exact nofun)]
    exact hfresh.held d hd

theorem ipcFlags_canModify (fsNamespace : Nat) (c : Bool) :
    (ipcFlags (ipcBadge fsNamespace (canModifyFlag c)) == ipcFlagCanModify) = c := by
  rw [ipcFlags_ipcBadge]
  cases c <;> rfl

section Growing

variable {w₀ : World} {pid : Option Nat} {α : Type}

theorem Grows.still {x : Vfs α} (hx : Respects Still x) :
    Ensures (Grows pid c w₀) x fun _ => Grows pid c w₀ :=
  (grows_of_still hx).ensures w₀

theorem deleteProcess_grows {caller : Caller} {newPid : Nat}
    (hnone : w₀.permissions (.processData (newPid % 2 ^ pidBits)) = none) :
    Ensures (Grows (some (newPid % 2 ^ pidBits)) c w₀)
      (nodeDelete caller processDataNodeSlot newPid) fun _ =>
        Grows (some (newPid % 2 ^ pidBits)) c w₀ := by
  refine .bind (Grows.still ask_still) fun _ => .bind (Grows.still getServer_still)
    fun _ => .bind (Grows.still (record_still deleted_unseen)) fun _ => ?_
  refine .bind (R := fun _ => Grows _ c w₀) (.ite (fun _ => ?_) fun _ => .pure fun _ hw => hw)
    fun _ => .pure fun _ hw => hw
  intro w u w' hw h
  cases h
  exact hw.delete hnone (permissions_setStructure (.processData _) none rfl) rfl

/-- The data of the new process is written. -/
theorem writeProcess_grows {newPid : Nat} {data : ProcessData}
    (hnone : w₀.permissions (.processData (newPid % 2 ^ pidBits)) = none) :
    Ensures (Still w₀) (writeStructure (processDataAddress newPid) (.processData data)) fun _ =>
      Grows (some (newPid % 2 ^ pidBits)) data.canModifyNamespace w₀ := by
  have hplace : place (processDataAddress newPid) = .processData (newPid % 2 ^ pidBits) :=
    place_processDataAddress newPid
  have hwrite : Ensures (Shows w₀ id w₀.permissions)
      (writeStructure (processDataAddress newPid) (.processData data)) _ :=
    writeStructure_shows
  rw [hplace] at hwrite
  refine hwrite.weaken (fun w hw => shows_self.of_still hw) fun _ w hw => ?_
  have hat : newAt (some (newPid % 2 ^ pidBits)) (.processData (newPid % 2 ^ pidBits)) := rfl
  exact .of_shows hat hnone (fun o =>
    ⟨[], (List.append_nil o.descriptors).symm, freshDescriptors_nil⟩) hw

end Growing

/-- The part of the function after the data has been allocated. -/
theorem fillProcessData_grows {newPid replyAddress fsNamespace : Nat} {flags : BitVec 8}
    {force : Bool} (hstate : state.Stores) {w₀ : World}
    (hnone : w₀.permissions (.processData (newPid % 2 ^ pidBits)) = none)
    (hc : (!force && flags &&& vfsReadOnlyNamespace == 0) = c) :
    Ensures (Still w₀) (fillProcessData state newPid flags replyAddress fsNamespace force)
      fun _ => Grows (some (newPid % 2 ^ pidBits)) c w₀ := by
  refine .bind ((lock_still rfl).ensures w₀) fun _ => .ite (fun _ => ?_) fun _ => ?_
  · refine .bind (freeNamespace_still.ensures w₀) fun _ => .bind (R := fun _ =>
      Grows (some (newPid % 2 ^ pidBits)) c w₀) ?_ fun _ => .pure fun _ hw => hw
    exact (deleteProcess_grows hnone).pre fun w hw => hw.grows
  · refine .bind (writeProcess_grows hnone) fun _ => ?_
    simp only [hc]
    refine .bind (Grows.still unlock_still) fun _ => .bind (R := fun _ =>
      Grows (some (newPid % 2 ^ pidBits)) c w₀) ?_ fun result => ?_
    · have hopen : Respects (Grows none _) (openRoot state
          (ipcBadge fsNamespace (canModifyFlag c)) replyAddress fsNamespace) :=
        respects_of_constructs (openRoot_constructs hstate)
      rw [ipcFlags_canModify] at hopen
      exact (hopen.mono fun _ _ h => h.mono).ensures w₀
    · refine .bind (R := fun _ => Grows (some (newPid % 2 ^ pidBits)) c w₀)
        (.ite (fun _ => ?_) fun _ => .pure fun _ hw => hw) fun _ => .pure fun _ hw => hw
      exact .bind (Grows.still freeNamespace_still) fun _ =>
        .bind (deleteProcess_grows hnone) fun _ => .pure fun _ hw => hw

theorem namespaceForProcess_still {creatorPid : Nat} {flags : BitVec 8} :
    Respects Still (namespaceForProcess creatorPid flags) := by
  refine .ite (.bind (lock_still rfl) fun _ => .ite .pure ?_)
    (.bind allocNamespace_still fun _ => .ite .pure .pure)
  refine .bind processDataAt_still fun _ => .bind unlock_still fun _ => .bind (lock_still rfl)
    fun _ => .ite .pure (.bind fsNamespaceAt_still fun _ => ?_)
  exact .bind (writeStructure_still namespace_bearsPermission) fun _ =>
    .bind unlock_still fun _ => .pure

/-- A process that shares its creator's namespace must not modify it if the creator must
not. -/
def ForcedBy (g : Place → Option Bool) (creatorPid : Nat) (chosen : Except Nat (Nat × Bool)) :
    Prop :=
  ∀ id force, chosen = .ok (id, force) →
    g (.processData (creatorPid % 2 ^ pidBits)) = some (!force)

theorem forcedBy_error {g : Place → Option Bool} {creatorPid e : Nat} :
    ForcedBy g creatorPid (.error e) :=
  fun _ _ h => by cases h

theorem namespaceForProcess_forcedBy {g : Place → Option Bool} {creatorPid : Nat}
    {flags : BitVec 8} (hshare : flags &&& vfsShareNamespace ≠ 0) :
    Ensures (fun w => w.permissions = g) (namespaceForProcess creatorPid flags) fun chosen _ =>
      ForcedBy g creatorPid chosen := by
  have hread : Ensures (fun w => w.permissions = g) (processDataAt (processDataAddress creatorPid))
      fun data _ => g (.processData (creatorPid % 2 ^ pidBits)) = some data.canModifyNamespace := by
    intro w data w' hsame hdata
    obtain ⟨-, hat⟩ := processDataAt_some hdata
    rw [place_processDataAddress] at hat
    rw [← hsame]
    exact congrArg (permission _) hat
  rw [namespaceForProcess, if_pos hshare]
  refine .bind (R := fun _ w => w.permissions = g) (fun w found w' hw h => ?_) fun _ => .ite
    (fun _ => .pure fun _ _ => forcedBy_error) fun _ => .bind hread fun data => ?_
  · cases h
    exact hw
  have hkept : ∀ {β : Type} {x : Vfs β}, Ensures (fun _ : World =>
      g (.processData (creatorPid % 2 ^ pidBits)) = some data.canModifyNamespace) x fun _ _ =>
        g (.processData (creatorPid % 2 ^ pidBits)) = some data.canModifyNamespace :=
    fun _ _ _ hdata _ => hdata
  refine .bind hkept fun _ => .bind hkept fun _ => .ite (fun _ => .pure fun _ _ => forcedBy_error)
    fun _ => .bind hkept fun _ => .bind hkept fun _ => .bind hkept fun _ => .pure ?_
  intro w hdata id force heq
  cases heq
  simpa using hdata

/-! Descriptors are only handed out for processes that have data. -/

/-- No descriptor has been handed out in between. -/
def Withheld (w w' : World) : Prop :=
  ∀ o, (w'.seen o).descriptors = (w.seen o).descriptors

instance : Std.Refl Withheld where
  refl _ _ := rfl

instance : IsTrans World Withheld where
  trans _ _ _ h h' o := (h' o).trans (h o)

theorem Still.withheld (h : Still w w') : Withheld w w' :=
  fun o => congrArg Watch.descriptors (h.seen o)

theorem Unsent.withheld (h : Unsent w w') : Withheld w w' := by
  obtain ⟨f, g, hf, -, es, hes, -, hwatch⟩ := h
  intro o
  rw [World.seen, World.seen, hes, List.foldl_append, hwatch, hf]

theorem nodeDelete_withheld {caller : Caller} {node slot : Nat} :
    Respects Withheld (nodeDelete caller node slot) := by
  have hstill : ∀ {α : Type} {x : Vfs α}, Respects Still x → Respects Withheld x :=
    fun hx => hx.mono fun _ _ h => h.withheld
  refine .bind (hstill ask_still) fun _ => .bind (hstill getServer_still) fun _ =>
    .bind (hstill (record_still deleted_unseen)) fun _ => .bind (.ite ?_ .pure) fun _ => .pure
  intro w u w' h
  cases h
  exact fun _ => rfl

theorem fillProcessData_withheld {newPid replyAddress fsNamespace : Nat} {flags : BitVec 8}
    {force : Bool} (hstate : state.Stores) (w₀ : World) :
    Ensures (Withheld w₀) (fillProcessData state newPid flags replyAddress fsNamespace force)
      fun _ w => Withheld w₀ w ∨ w.permissions (.processData (newPid % 2 ^ pidBits)) ≠ none := by
  have hstill : ∀ {α : Type} {x : Vfs α}, Respects Still x →
      Ensures (Withheld w₀) x fun _ => Withheld w₀ :=
    fun hx => (hx.mono fun _ _ h => h.withheld).ensures w₀
  have hheld : ∀ {α : Type} {x : Vfs α}, Respects Still x → Ensures (fun w => Withheld w₀ w ∧
      w.permissions (.processData (newPid % 2 ^ pidBits)) ≠ none) x fun _ w => Withheld w₀ w ∧
        w.permissions (.processData (newPid % 2 ^ pidBits)) ≠ none := by
    intro α x hx w a w' hw h
    have hkept := hx w a w' h
    exact ⟨IsTrans.trans _ _ _ hw.1 hkept.withheld, hkept.permissions ▸ hw.2⟩
  refine .bind (hstill (lock_still rfl)) fun _ => .ite (fun _ => ?_) fun _ => ?_
  · exact .bind (hstill freeNamespace_still) fun _ => .bind (nodeDelete_withheld.ensures w₀)
      fun _ => .pure fun _ hw => .inl hw
  · refine .bind (R := fun _ w => Withheld w₀ w ∧
      w.permissions (.processData (newPid % 2 ^ pidBits)) ≠ none) (fun w u w' hw h => ?_)
        fun _ => .bind (hheld unlock_still) fun _ => ?_
    · obtain ⟨old, w₁, hold, hmodify⟩ := bind_some h
      obtain ⟨rfl, -⟩ := structureAt_some hold
      cases hmodify
      refine ⟨hw, ?_⟩
      rw [permissions_setStructure (place (processDataAddress newPid)) _ rfl,
        place_processDataAddress, Function.update_self]
      exact nofun
    · refine .bind (R := fun result w => (result ≠ 0 → Withheld w₀ w) ∧
        w.permissions (.processData (newPid % 2 ^ pidBits)) ≠ none)
          (fun w result w' hw h => ?_) fun result => ?_
      · obtain ⟨hconstructs, hunsent⟩ := openRoot_outcome hstate w w result w' shows_self h
        have hgrows : Grows none _ w w' := hconstructs.grows
        refine ⟨fun hfailed => IsTrans.trans _ _ _ hw.1 (hunsent hfailed).withheld, ?_⟩
        rw [hgrows.kept hw.2]
        exact hw.2
      · refine .bind (R := fun _ w => Withheld w₀ w ∨
          w.permissions (.processData (newPid % 2 ^ pidBits)) ≠ none)
            (.ite (fun hfailed => ?_) fun _ => .pure fun w hw => .inr hw.2) fun _ =>
              .pure fun _ hw => hw
        refine .pre (A := Withheld w₀) ?_ fun w hw => hw.1 hfailed
        exact .bind (hstill freeNamespace_still) fun _ => .bind (nodeDelete_withheld.ensures w₀)
          fun _ => .pure fun _ hw => .inl hw

/-- Whether the new process may modify its namespace, and what becomes of a creation. -/
theorem setUpFilesystemForProcess_grows {creatorPid newPid replyAddress result : Nat}
    {flags : BitVec 8} (hstate : state.Stores)
    (h : setUpFilesystemForProcess state creatorPid newPid flags replyAddress w =
      some (result, w')) :
    ∃ c, Grows (some (newPid % 2 ^ pidBits)) c w w' ∧
      (flags &&& vfsShareNamespace ≠ 0 → c = true →
        w.permissions (.processData (creatorPid % 2 ^ pidBits)) = some true) ∧
      (Withheld w w' ∨ w.permissions (.processData (newPid % 2 ^ pidBits)) = none ∧
        w'.permissions (.processData (newPid % 2 ^ pidBits)) ≠ none) := by
  obtain ⟨chosen, w₁, hchosen, hrest⟩ := bind_some h
  have hstill := namespaceForProcess_still _ _ _ hchosen
  cases chosen with
  | error e =>
      cases hrest
      exact ⟨false, hstill.grows, fun _ hfalse => absurd hfalse Bool.false_ne_true,
      .inl hstill.withheld⟩
  | ok chosen =>
      obtain ⟨fsNamespace, force⟩ := chosen
      obtain ⟨allocated, w₂, halloc, hlast⟩ := bind_some hrest
      have hshown := allocUntyped_shows w₁ _ _ (shows_self.of_still hstill) halloc
      have hstill₂ : Still w w₂ := IsTrans.trans _ _ _ hstill (allocUntyped_still _ _ _ halloc)
      refine ⟨!force && flags &&& vfsReadOnlyNamespace == 0, ?_, fun hshare hc => ?_, ?_⟩
      · revert hlast
        refine Ensures.ite (P := Still w) (Q := fun _ w' => Grows _ _ w w') (fun _ => ?_)
          (fun hzero => ?_) _ _ _ hstill₂
        · exact .bind (freeNamespace_still.ensures w) fun _ => .pure fun _ hw => hw.grows
        · have hnone := hshown.2 (not_not.mp hzero)
          rw [place_processDataAddress] at hnone
          exact fillProcessData_grows hstate hnone rfl
      · have hcreator := namespaceForProcess_forcedBy hshare _ _ _ rfl hchosen _ _ rfl
        simp only [Bool.and_eq_true] at hc
        rw [hcreator, hc.1]
      · revert hlast
        refine Ensures.ite (P := Still w) (Q := fun _ w' => Withheld w w' ∨ w.permissions _ = none ∧
          w'.permissions _ ≠ none) (fun _ => ?_) (fun hzero => ?_) _ _ _ hstill₂
        · exact .bind (freeNamespace_still.ensures w) fun _ => .pure fun _ hw => .inl hw.withheld
        · have hnone := hshown.2 (not_not.mp hzero)
          rw [place_processDataAddress] at hnone
          exact (fillProcessData_withheld hstate w).weaken (fun _ hw => hw.withheld)
            fun _ _ hw => hw.imp id fun hdata => ⟨hnone, hdata⟩

theorem handleVfsMessage_grows {message : IpcMessage} {u : Unit} (hstate : state.Stores)
    (h : handleVfsMessage state message w = some (u, w')) :
    ∃ c, Grows (some (pidOf message.buffer 2 % 2 ^ pidBits)) c w w' ∧
      (byteOf message.buffer 1 &&& vfsShareNamespace ≠ 0 → c = true →
        w.permissions (.processData (pidOf message.buffer 4 % 2 ^ pidBits)) = some true) ∧
      (Withheld w w' ∨
        w.permissions (.processData (pidOf message.buffer 2 % 2 ^ pidBits)) = none ∧
        w'.permissions (.processData (pidOf message.buffer 2 % 2 ^ pidBits)) ≠ none) := by
  have hreply : ∀ value, Respects Still (reply .handleVfsMessage (fdReplyEndpoint message).address
      value) := fun _ => reply_still rfl nofun
  simp only [handleVfsMessage] at h
  split at h
  · obtain ⟨result, w₁, hset, hrest⟩ := bind_some h
    obtain ⟨c, hgrowth, hshare, hsent⟩ := setUpFilesystemForProcess_grows hstate hset
    have hstill : Still w₁ w' := onlyIf_still (hreply _) _ _ _ hrest
    refine ⟨c, IsTrans.trans _ _ _ hgrowth hstill.grows, hshare, ?_⟩
    rw [hstill.permissions]
    exact hsent.imp (fun hw => IsTrans.trans _ _ _ hw hstill.withheld) id
  · have hstill := hreply _ _ _ _ h
    exact ⟨false, hstill.grows, fun _ hfalse => absurd hfalse Bool.false_ne_true,
      .inl hstill.withheld⟩

end Cenix.Vfs
