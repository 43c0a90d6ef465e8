import Cenix.Vfs.Totality

namespace Cenix.Vfs

open Programs

/-! The processes' data and the namespaces that they share. -/

/-- The structures are those of `f`. -/
def Sees (f : Place → Option Structure) (w : World) : Prop :=
  w.server.structures = f

/-- An undo that did not work. -/
inductive FailedUndo : Event → Prop where
  | lock (address : Nat) : FailedUndo (.locked .freeNamespace address false)
  | free (node slot result : Nat) (h : result ≠ 0) :
      FailedUndo (.deleted .freeStructure node slot result)
  | process (node slot result : Nat) (h : result ≠ 0) :
      FailedUndo (.deleted .setUpFilesystemForProcess node slot result)

instance : DecidablePred FailedUndo
  | .locked caller _ found =>
      decidable_of_iff (caller = .freeNamespace ∧ found = false)
        ⟨fun ⟨hcaller, hfound⟩ => hcaller ▸ hfound ▸ .lock _, fun h => by cases h; simp⟩
  | .deleted caller _ _ result =>
      decidable_of_iff ((caller = .freeStructure ∨ caller = .setUpFilesystemForProcess) ∧
          result ≠ 0)
        ⟨fun ⟨hcaller, hresult⟩ => hcaller.elim (fun h => h ▸ .free _ _ _ hresult)
          (fun h => h ▸ .process _ _ _ hresult), fun h => by cases h <;> simp [*]⟩
  | .unlocked _ _ => isFalse nofun
  | .sent _ _ _ _ _ _ => isFalse nofun

/-- Every undo has worked so far. -/
def Undone (w : World) : Prop :=
  ∀ e ∈ w.events, ¬FailedUndo e

instance (w : World) : Decidable (Undone w) :=
  inferInstanceAs (Decidable (∀ e ∈ w.events, ¬FailedUndo e))

variable {P : Place → Prop} {w w' : World} {f : Place → Option Structure} {α : Type}

theorem Sees.of_changes (h : Sees f w) (hchange : ChangesOnly nowhere w w') : Sees f w' := by
  funext p
  rw [hchange.structures p id, h]

theorem Undone.of_changes (h : Undone w') (hchange : ChangesOnly P w w') : Undone w :=
  fun e he => h e (hchange.events.mem he)

/-- What changes no structures. -/
theorem Sees.ensures {x : Vfs α} (hx : Touches nowhere x) :
    Ensures (Sees f) x fun _ => Sees f :=
  fun _ _ _ hs h => hs.of_changes (hx _ _ _ h)

theorem lock_sees {caller : Caller} {address : Nat} :
    Returns (Sees f) (lock caller address) fun found w =>
      Sees f w ∧ .locked caller address found ∈ w.events := by
  intro w hw
  refine ⟨_, _, rfl, ?_, ?_⟩
  · exact hw
  · simp

theorem lock_returns {caller : Caller} {address : Nat} :
    Returns (Sees f) (lock caller address) fun _ => Sees f :=
  lock_sees.post fun _ _ h => h.1

theorem unlock_returns {caller : Caller} {address : Nat} :
    Returns (Sees f) (unlock caller address) fun _ => Sees f :=
  unlock_total.returns (Sees.ensures unlock_touches)

/-! Memory. -/

theorem Sees.update (h : Sees f w) {p : Place} {structure' : Option Structure}
    (hw' : w'.server.structures = (w.server.setStructure p structure').structures) :
    Sees (Function.update f p structure') w' := by
  rw [Sees, hw', Server.setStructure, h]

theorem allocUntyped_returns {caller : Caller} {address : Nat} :
    Returns (Sees f) (allocUntyped caller address) fun result w =>
      (result ≠ 0 ∧ Sees f w) ∨ (result = 0 ∧ f (place address) = none ∧
        Sees (Function.update f (place address) (some .uninitialized)) w) := by
  refine .bind (R := fun _ => Sees f) (fun w hw => ⟨_, _, rfl, hw⟩) fun answer => ?_
  refine .bind (R := fun s w => Sees f w ∧ w.server = s) (fun w hw => ⟨_, _, rfl, hw, rfl⟩)
    fun s => ?_
  refine .ite (fun hfailed => .pure fun w hw => .inl ⟨hfailed, hw.1⟩) fun _ => .ite
    (fun _ => .pure fun w hw => .inl ⟨by decide, hw.1⟩) fun hfree => ?_
  refine .bind (R := fun _ w => f (place address) = none ∧
    Sees (Function.update f (place address) (some .uninitialized)) w) ?_ fun _ => .pure
      fun w hw => .inr ⟨rfl, hw⟩
  rintro w ⟨hw, rfl⟩
  refine ⟨(), _, rfl, ?_, hw.update rfl⟩
  have hnone : w.server.structures (place address) = none := by
    simp only [Server.occupied, Bool.or_eq_true, not_or, Bool.not_eq_true] at hfree
    exact Option.isSome_eq_false_iff.mp hfree.1 |> Option.isNone_iff_eq_none.mp
  rw [← hw, hnone]

theorem writeStructure_returns {address : Nat} {structure' : Structure} (hf : f (place address) ≠ none) :
    Returns (Sees f) (writeStructure address structure') fun _ =>
      Sees (Function.update f (place address) (some structure')) := by
  intro w hw
  obtain ⟨old, hold⟩ := Option.ne_none_iff_exists'.mp hf
  have hread : structureAt address w = some (old, w) := by
    simp [structureAt, show w.server.structures = f from hw, hold]
  exact ⟨_, _, bind_of hread, hw.update rfl⟩

theorem structureAt_returns {address : Nat} {structure' : Structure} (hf : f (place address) = some structure') :
    Returns (Sees f) (structureAt address) fun a w => a = structure' ∧ Sees f w := by
  intro w hw
  refine ⟨structure', w, ?_, rfl, hw⟩
  simp [structureAt, show w.server.structures = f from hw, hf]

theorem fsNamespaceAt_returns {address : Nat} {fsNamespace : FsNamespace}
    (hf : f (place address) = some (.fsNamespace fsNamespace)) :
    Returns (Sees f) (fsNamespaceAt address) fun a w => a = fsNamespace ∧ Sees f w := by
  refine .bind (structureAt_returns hf) fun structure' w hw => ?_
  obtain ⟨rfl, hw⟩ := hw
  exact ⟨_, _, rfl, rfl, hw⟩

theorem processDataAt_returns {address : Nat} {data : ProcessData}
    (hf : f (place address) = some (.processData data)) :
    Returns (Sees f) (processDataAt address) fun a w => a = data ∧ Sees f w := by
  refine .bind (structureAt_returns hf) fun structure' w hw => ?_
  obtain ⟨rfl, hw⟩ := hw
  exact ⟨_, _, rfl, rfl, hw⟩

/-! Undo. -/

theorem nodeDelete_returns {caller : Caller} {node slot : Nat}
    (hcaller : ∀ result, result ≠ 0 → FailedUndo (.deleted caller node slot result)) :
    Returns (fun w => Undone w → Sees f w) (nodeDelete caller node slot) fun result w =>
      Undone w → result = 0 ∧ Sees (Function.update f (nodePlace node slot) none) w := by
  refine .bind (R := fun _ w => Undone w → Sees f w) (fun w hw => ⟨_, _, rfl, hw⟩)
    fun answer => ?_
  refine .bind (R := fun _ w => Undone w → Sees f w) (fun w hw => ⟨_, _, rfl, hw⟩) fun s => ?_
  generalize deleteResult answer.result (nodeSlotBits node) slot
    (s.occupied (nodePlace node slot)) = result
  refine .bind (R := fun _ w => Undone w → result = 0 ∧ Sees f w) ?_ fun _ => ?_
  · intro w hw
    refine ⟨(), _, rfl, fun hundone => ⟨?_, hw ?_⟩⟩
    · by_contra hfailed
      exact hundone _ (by simp) (hcaller result hfailed)
    · exact fun e he => hundone e (by simp [he])
  refine .bind (R := fun _ w => Undone w → result = 0 ∧
    Sees (Function.update f (nodePlace node slot) none) w) ?_ fun _ => .pure fun _ hw => hw
  refine .ite (fun hdone => ?_) fun hfailed => .pure fun w hw hundone =>
    absurd (hw hundone).1 hfailed
  intro w hw
  exact ⟨(), _, rfl, fun hundone => ⟨hdone, (hw hundone).2.update rfl⟩⟩

theorem freeStructure_returns {ids : Ids} {node id maxItems : Nat}
    (hnode : node < 2 ^ initNodeDepth) :
    Returns (Sees f) (freeStructure ids node maxItems (nodeAddress node id)) fun _ w =>
      Undone w → Sees (Function.update f (nodePlace node id) none) w := by
  have hid : nodeAddress node id / 2 ^ initNodeDepth = id := nodeAddress_div id hnode
  unfold freeStructure
  rw [hid]
  refine .bind ((nodeDelete_returns fun _ hfailed => .free _ _ _ hfailed).pre
    fun _ hw _ => hw) fun result => .ite (fun _ => ?_) fun hfailed => .pure
      fun w hw hundone => absurd (hw hundone).1 hfailed
  refine markSlotUnused_total.returns fun w a w' hw hmark hundone => ?_
  have hchange : ChangesOnly nowhere w w' := markSlotUnused_touches w a w' hmark
  exact (hw (hundone.of_changes hchange)).2.of_changes hchange

/-- What the callback achieves for some id, or fails at, with the lock held. -/
theorem findSlotFor_returns {ids : Ids} {maxItems : Nat} {fn : Nat → Vfs Nat}
    {Q : Nat → World → Prop} (hmax : 0 < maxItems)
    (hfn : ∀ id < maxItems, Returns (Sees f) (fn id) Q)
    (hstable : ∀ a w w', ChangesOnly nowhere w w' → Q a w → Q a w')
    (hnone : ∀ w, Sees f w → Q sizeMax w) :
    Returns (Sees f) (findSlotFor ids maxItems fn) Q := by
  refine .bind lock_returns fun _ => .ite (fun _ => .pure hnone) fun _ => ?_
  refine .bind (R := fun _ => Sees f) (fun w hw => ⟨_, _, rfl, hw⟩) fun s => ?_
  have hid : (searchEnd maxItems (firstFree s ids maxItems)).2 < maxItems := searchEnd_lt hmax
  simp only
  cases hfound : searchEnd maxItems (firstFree s ids maxItems) with
  | mk word id =>
      rw [hfound] at hid
      refine .bind (R := fun _ => Sees f) ?_ fun _ => .bind (hfn id hid) fun a => ?_
      · exact .ite (fun _ w hw => ⟨_, _, rfl, hw⟩) fun _ => .pure fun _ hw => hw
      refine .bind (R := fun _ => Q a) ?_ fun _ => ?_
      · refine .ite (fun _ w hw => ⟨_, _, rfl, hstable a w _ ?_ hw⟩) fun _ => .pure fun _ hw => hw
        exact ⟨rfl, List.prefix_rfl, fun _ _ => rfl⟩
      · refine .bind (R := fun _ => Q a) ?_ fun _ => .pure fun _ hw => hw
        refine unlock_total.returns fun w u w' hw hunlock => ?_
        exact hstable a w w' (unlock_touches w u w' hunlock) hw

/-- Nothing has been allocated, or a structure that is not written yet. -/
def Allocated (f : Place → Option Structure) (node maxItems : Nat) (a : Nat) (w : World) : Prop :=
  (a = sizeMax ∧ Sees f w) ∨ ∃ id < maxItems, a = nodeAddress node id ∧
    f (nodePlace node id) = none ∧
    Sees (Function.update f (nodePlace node id) (some .uninitialized)) w

theorem allocStructure_returns {ids : Ids} {node maxItems : Nat} (hmax : 0 < maxItems)
    (hnode : node < 2 ^ initNodeDepth) :
    Returns (Sees f) (allocStructure ids node maxItems) (Allocated f node maxItems) := by
  refine findSlotFor_returns hmax (fun id hid => ?_) ?_ fun w hw => .inl ⟨rfl, hw⟩
  · have hplace : place (nodeAddress node id) = nodePlace node id := place_nodeAddress id hnode
    refine .bind allocUntyped_returns fun result => .ite
      (fun hdone => .pure fun w hw => ?_) fun hfailed => .pure fun w hw => ?_
    · rcases hw with ⟨hfailed, -⟩ | ⟨-, hnone, hsees⟩
      · exact absurd hdone hfailed
      · rw [hplace] at hnone hsees
        exact .inr ⟨id, hid, rfl, hnone, hsees⟩
    · rcases hw with ⟨-, hsees⟩ | ⟨hdone, -⟩
      · exact .inl ⟨rfl, hsees⟩
      · exact absurd hdone hfailed
  · intro a w w' hchange hw
    rcases hw with ⟨ha, hsees⟩ | ⟨id, hid, ha, hnone, hsees⟩
    · exact .inl ⟨ha, hsees.of_changes hchange⟩
    · exact .inr ⟨id, hid, ha, hnone, hsees.of_changes hchange⟩

/-! Namespaces. -/

theorem nodePlace_namespace {id : Nat} (hid : id < maxNamespaces) :
    nodePlace namespaceNodeSlot id = .fsNamespace id :=
  congrArg Place.fsNamespace (Nat.mod_eq_of_lt hid)

theorem place_namespace {id : Nat} (hid : id < maxNamespaces) :
    place (namespaceAddress id) = .fsNamespace id :=
  (place_nodeAddress id (by decide)).trans (nodePlace_namespace hid)

/-- Either there is no new namespace, or an empty one where there was none. -/
def NewNamespace (f : Place → Option Structure) (a : Nat) (w : World) : Prop :=
  (a = sizeMax ∧ (Undone w → Sees f w)) ∨ ∃ id, id < maxNamespaces ∧ a = namespaceAddress id ∧
    f (.fsNamespace id) = none ∧
    Sees (Function.update f (.fsNamespace id) (some (.fsNamespace emptyNamespace))) w

theorem update_back {p : Place} {old new : Option Structure} (h : f p = old) :
    Function.update (Function.update f p new) p old = f := by
  rw [Function.update_idem, ← h, Function.update_eq_self]

theorem allocNamespace_returns : Returns (Sees f) allocNamespace (NewNamespace f) := by
  refine .bind (allocStructure_returns (by decide) (by decide)) fun a =>
    .ite (fun hfailed => .pure fun w hw => ?_) fun hne => ?_
  · rcases hw with ⟨-, hsees⟩ | ⟨id, hid, ha, -⟩
    · exact .inl ⟨rfl, fun _ => hsees⟩
    · exact absurd (ha.symm.trans hfailed) (nodeAddress_ne_sizeMax (by decide) hid)
  refine Returns.pre (A := fun w => ∃ id, id < maxNamespaces ∧ a = namespaceAddress id ∧
    f (.fsNamespace id) = none ∧
      Sees (Function.update f (.fsNamespace id) (some .uninitialized)) w) ?_ fun w hw => ?_
  · refine .exists_pre fun id => .and_pre fun hid => .and_pre fun ha => .and_pre fun hnone => ?_
    subst ha
    refine .bind lock_returns fun _ => .ite (fun _ => ?_) fun _ => ?_
    · refine .bind (freeStructure_returns (by decide)) fun _ => .pure fun w hw => ?_
      rw [nodePlace_namespace hid, update_back hnone] at hw
      exact .inl ⟨rfl, hw⟩
    · refine .bind (writeStructure_returns ?_) fun _ => .bind unlock_returns fun _ =>
        .pure fun w hw => ?_
      · simp [place_namespace hid]
      · rw [place_namespace hid, Function.update_idem] at hw
        exact .inr ⟨id, hid, rfl, hnone, hw⟩
  · rcases hw with ⟨ha, -⟩ | ⟨id, hid, ha, hnone, hsees⟩
    · exact absurd ha hne
    · rw [nodePlace_namespace hid] at hnone hsees
      exact ⟨id, hid, ha, hnone, hsees⟩

/-- The structures after a reference to a namespace has been given up. -/
def withoutReference (f : Place → Option Structure) (id : Nat) (fsNamespace : FsNamespace) :
    Place → Option Structure :=
  Function.update f (.fsNamespace id) (if fsNamespace.references ≤ 1 then none
    else some (.fsNamespace { fsNamespace with references := fsNamespace.references - 1 }))

theorem freeNamespace_returns {id : Nat} {fsNamespace : FsNamespace} (hid : id < maxNamespaces)
    (hf : f (.fsNamespace id) = some (.fsNamespace fsNamespace)) :
    Returns (Sees f) (freeNamespace id) fun _ w =>
      Undone w → Sees (withoutReference f id fsNamespace) w := by
  have hplace : f (place (namespaceAddress id)) = some (.fsNamespace fsNamespace) :=
    (congrArg f (place_namespace hid)).trans hf
  refine .bind lock_sees fun found => .ite (fun hfound => ?_) fun hfailed => ?_
  · refine .bind ((fsNamespaceAt_returns hplace).pre fun _ hw => hw.1)
      fun fsNamespace' => .and_pre fun heq => ?_
    subst heq
    refine .ite (fun hlast => .bind unlock_returns fun _ => ?_) fun hmore => ?_
    · refine (freeStructure_returns (by decide)).post fun _ w hw hundone => ?_
      rw [withoutReference, if_pos hlast, ← nodePlace_namespace hid]
      exact hw hundone
    · refine .bind (writeStructure_returns (by
        rw [hplace]
        exact Option.some_ne_none _)) fun _ => ?_
      refine unlock_returns.post fun _ w hw _ => ?_
      rw [withoutReference, if_neg hmore, ← place_namespace hid]
      exact hw
  · refine .pure fun w hw hundone => ?_
    have hnull : found = false := by simpa using hfailed
    subst hnull
    exact absurd (.lock _) (hundone _ hw.2)

/-! Root directories. -/

theorem nodePlace_namespace_ne (id : Nat) (i : Nat) :
    nodePlace directoryInfoSlot i ≠ .fsNamespace id :=
  fun h => Place.noConfusion h

theorem openRoot_returns {state : State} {badge replyCapability id : Nat}
    {fsNamespace : FsNamespace} (hid : id < maxNamespaces)
    (hf : f (.fsNamespace id) = some (.fsNamespace fsNamespace)) :
    Returns (Sees f) (openRoot state badge replyCapability id) fun _ _ => True := by
  refine .bind lock_returns fun _ => .ite (fun _ => .pure fun _ _ => trivial) fun _ => ?_
  refine .bind (allocStructure_returns (by decide) (by decide)) fun a => .ite
    (fun _ => .pure fun _ _ => trivial) fun hne => ?_
  refine Returns.pre (A := fun w => ∃ i, i < maxOpenDirectories ∧
    a = nodeAddress directoryInfoSlot i ∧ Sees (Function.update f
      (nodePlace directoryInfoSlot i) (some .uninitialized)) w) ?_ fun w hw => ?_
  · refine .exists_pre fun i => .and_pre fun hi => .and_pre fun ha => ?_
    subst ha
    have hplace : place (nodeAddress directoryInfoSlot i) = nodePlace directoryInfoSlot i :=
      place_nodeAddress i (by decide)
    refine .bind lock_returns fun _ => .ite (fun _ => ?_) fun _ => ?_
    · exact .bind (freeStructure_total.weaken (fun _ _ => trivial) fun _ _ h => h) fun _ =>
        pure_total
    have hnamespace : Function.update f (nodePlace directoryInfoSlot i) (some .uninitialized)
        (place (namespaceAddress id)) = some (.fsNamespace fsNamespace) := by
      rw [place_namespace hid, Function.update_of_ne (nodePlace_namespace_ne id i).symm, hf]
    refine .bind (fsNamespaceAt_returns hnamespace) fun n => .and_pre fun _ => ?_
    refine .bind (writeStructure_returns (by simp [hplace])) fun _ => ?_
    refine .pre (A := fun _ => True) ?_ fun _ _ => trivial
    refine .bind unlock_total fun _ => .bind badgeAndSend_total fun _ => .ite (fun _ => ?_)
      fun _ => .bind unlock_total fun _ => pure_total
    exact .bind freeStructure_total fun _ => pure_total
  · rcases hw with ⟨ha, -⟩ | ⟨i, hi, ha, -, hsees⟩
    · exact absurd ha hne
    · exact ⟨i, hi, ha, hsees⟩

end Cenix.Vfs
