import Cenix.Vfs.Union
import Cenix.Vfs.MountTables
import Cenix.Vfs.Storage

namespace Cenix.Vfs

open Programs

/-! How often an address is locked. -/

def lockChange (address : Nat) : Event → Int
  | .locked _ a found => if found = true ∧ a = address then 1 else 0
  | .unlocked _ a => if a = address then -1 else 0
  | _ => 0

def lockDepth (events : List Event) (address : Nat) : Int :=
  (events.map (lockChange address)).sum

/-- The locks are held as often as `g` says. -/
def Locked (g : Nat → Int) (w : World) : Prop :=
  ∀ a, lockDepth w.events a = g a

variable {g : Nat → Int} {w w' : World} {α : Type} {f : Place → Option Structure}

theorem lockDepth_append (events : List Event) (e : Event) (a : Nat) :
    lockDepth (events ++ [e]) a = lockDepth events a + lockChange a e := by
  simp [lockDepth]

/-- Programs that record nothing. -/
def Silent (w w' : World) : Prop :=
  w'.events = w.events

instance : Std.Refl Silent where
  refl _ := rfl

instance : IsTrans World Silent where
  trans _ _ _ h h' := h'.trans h

theorem Locked.of_silent (h : Locked g w) (hsilent : Silent w w') : Locked g w' := by
  intro a
  rw [show w'.events = w.events from hsilent]
  exact h a

theorem locked_ensures {x : Vfs α} (hx : Respects Silent x) :
    Ensures (Locked g) x fun _ => Locked g :=
  fun _ _ _ hw h => hw.of_silent (hx _ _ _ h)

theorem ask_silent {caller : Caller} {request : Request} : Respects Silent (ask caller request) := by
  intro w a w' h
  cases h
  rfl

theorem getServer_silent : Respects Silent getServer := by
  intro w a w' h
  cases h
  rfl

theorem modifyServer_silent {change : Server → Server} :
    Respects Silent (modifyServer change) := by
  intro w a w' h
  cases h
  rfl

theorem onlyIf_silent {c : Prop} [Decidable c] {x : Vfs Unit} (h : Respects Silent x) :
    Respects Silent (onlyIf c x) :=
  .ite h .pure

theorem structureAt_silent {address : Nat} : Respects Silent (structureAt address) := by
  intro w a w' h
  obtain ⟨rfl, -⟩ := structureAt_some h
  rfl

theorem writeStructure_silent {address : Nat} {structure' : Structure} :
    Respects Silent (writeStructure address structure') :=
  .bind structureAt_silent fun _ => modifyServer_silent

theorem mountPointAt_silent {address : Nat} : Respects Silent (mountPointAt address) := by
  refine .bind structureAt_silent fun structure' => ?_
  cases structure' <;> first | exact .pure | exact .failure

theorem fsNamespaceAt_silent {address : Nat} : Respects Silent (fsNamespaceAt address) := by
  refine .bind structureAt_silent fun structure' => ?_
  cases structure' <;> first | exact .pure | exact .failure

theorem allocUntyped_silent {caller : Caller} {address : Nat} :
    Respects Silent (allocUntyped caller address) :=
  .bind ask_silent fun _ => .bind getServer_silent fun _ => .ite .pure
    (.ite .pure (.bind modifyServer_silent fun _ => .pure))

/-- The lock is held once more where it is granted. -/
def lockedOnce (g : Nat → Int) (address : Nat) (found : Bool) : Nat → Int :=
  fun a => g a + if found = true ∧ address = a then 1 else 0

theorem lock_locked {caller : Caller} {address : Nat} :
    Ensures (Locked g) (lock caller address) fun found =>
      Locked (lockedOnce g address found) := by
  intro w found w' hw h a
  cases h
  rw [lockDepth_append, hw a]
  rfl

theorem unlock_locked {caller : Caller} {address : Nat} :
    Ensures (Locked (lockedOnce g address true)) (unlock caller address) fun _ =>
      Locked g := by
  intro w u w' hw h a
  cases h
  rw [lockDepth_append, hw a, lockedOnce, lockChange]
  by_cases ha : address = a
  · simp only [ha, and_self, if_true]
    omega
  · simp [ha]

theorem lockedOnce_false (g : Nat → Int) (address : Nat) : lockedOnce g address false = g := by
  funext a
  simp [lockedOnce]

/-- A program that takes a lock, and gives it up again where it has got it. -/
theorem bracket_locked {caller : Caller} {address : Nat} {refused granted : Vfs α}
    {Q : α → World → Prop}
    (hrefused : Ensures (Locked g) refused Q)
    (hgranted : Ensures (Locked (lockedOnce g address true)) granted Q) :
    Ensures (Locked g) (do if !(← lock caller address) then refused else granted) Q := by
  refine .bind lock_locked fun found => ?_
  cases found with
  | false =>
      rw [lockedOnce_false]
      exact hrefused
  | true => exact hgranted

theorem findSlotFor_locked {ids : Ids} {maxItems : Nat} {fn : Nat → Vfs Nat}
    (hfn : ∀ id, Respects Silent (fn id)) :
    Ensures (Locked g) (findSlotFor ids maxItems fn) fun _ => Locked g := by
  refine bracket_locked (.pure fun _ hw => hw) ?_
  refine .bind (locked_ensures getServer_silent) fun s => ?_
  refine .bind (locked_ensures (onlyIf_silent modifyServer_silent)) fun _ =>
    .bind (locked_ensures (hfn _)) fun _ =>
      .bind (locked_ensures (onlyIf_silent modifyServer_silent)) fun _ =>
        .bind unlock_locked fun _ => .pure fun _ hw => hw

theorem allocStructure_locked {ids : Ids} {node maxItems : Nat} :
    Ensures (Locked g) (allocStructure ids node maxItems) fun _ => Locked g :=
  findSlotFor_locked fun _ => .bind allocUntyped_silent fun _ => .ite .pure .pure

theorem linkMountPoint_locked {namespaceAddress address : Nat} {m : MountPoint} :
    Ensures (Locked g) (linkMountPoint namespaceAddress address m) fun _ => Locked g := by
  refine .bind (locked_ensures fsNamespaceAt_silent) fun n => .ite (fun _ => ?_) fun _ => ?_
  · exact .bind (locked_ensures writeStructure_silent) fun _ => .pure fun _ hw => hw
  · refine .ite (fun _ => ?_) fun _ => ?_
    · exact .bind (locked_ensures writeStructure_silent) fun _ => .pure fun _ hw => hw
    · refine bracket_locked (.pure fun _ hw => hw) ?_
      refine .bind (locked_ensures mountPointAt_silent) fun _ =>
        .bind (locked_ensures writeStructure_silent) fun _ => .bind unlock_locked fun _ => ?_
      exact .bind (locked_ensures writeStructure_silent) fun _ =>
        .bind (locked_ensures writeStructure_silent) fun _ => .pure fun _ hw => hw

theorem addMountPointToNamespace_locked {namespaceAddress : Nat} {m : MountPoint} :
    Ensures (Locked g) (addMountPointToNamespace namespaceAddress m) fun result w =>
      result = 0 → Locked g w := by
  have hfails : ∀ {P : World → Prop}, Ensures P (pure eNoMem : Vfs Nat) fun result w =>
      result = 0 → Locked g w := .pure fun _ _ hzero => absurd hzero (by decide)
  refine .bind allocStructure_locked fun address => .ite (fun _ => hfails) fun _ => ?_
  refine bracket_locked (.bind (R := fun _ _ => True) (fun _ _ _ _ _ => trivial) fun _ => hfails) ?_
  refine .bind (locked_ensures writeStructure_silent) fun _ =>
    .bind linkMountPoint_locked fun linked => .ite (fun _ => ?_) fun _ => ?_
  · exact .bind (R := fun _ _ => True) (fun _ _ _ _ _ => trivial) fun _ => hfails
  · exact .bind unlock_locked fun _ => .pure fun _ hw _ => hw

theorem allocNamespace_locked :
    Ensures (Locked g) allocNamespace fun result w => result ≠ sizeMax → Locked g w := by
  refine .bind allocStructure_locked fun address => .ite
    (fun _ => .pure fun _ _ hne => absurd rfl hne) fun _ => ?_
  refine bracket_locked (.bind (R := fun _ _ => True) (fun _ _ _ _ _ => trivial) fun _ =>
    .pure fun _ _ hne => absurd rfl hne) ?_
  exact .bind (locked_ensures writeStructure_silent) fun _ => .bind unlock_locked fun _ =>
    .pure fun _ hw _ => hw

theorem findInBucket_locked {inode enclosing fuel address : Nat} :
    Ensures (Locked g) (findInBucket inode enclosing fuel address) fun _ => Locked g := by
  induction fuel generalizing address with
  | zero => exact .failure
  | succ fuel ih =>
      refine .ite (fun _ => .pure fun _ hw => hw) fun _ => ?_
      refine bracket_locked (.pure fun _ hw => hw) ?_
      refine .bind (locked_ensures mountPointAt_silent) fun _ => .bind unlock_locked fun _ => ?_
      exact .ite (fun _ => .pure fun _ hw => hw) fun _ => ih

theorem findMountPoint_locked {fuel namespaceId inode enclosing : Nat} :
    Ensures (Locked g) (findMountPoint fuel namespaceId inode enclosing) fun _ => Locked g := by
  refine bracket_locked (.pure fun _ hw => hw) ?_
  exact .bind (locked_ensures fsNamespaceAt_silent) fun _ => .bind findInBucket_locked fun _ =>
    .bind unlock_locked fun _ => .pure fun _ hw => hw

/-! The mount points of a namespace. -/

/-- A mount point that has been added, as it was given. -/
structure Added where
  address : Nat
  mountPoint : MountPoint

/-- The mount points from an address on, where `previous` is the one before: only the links
have been filled in. -/
inductive Linked (f : Place → Option Structure) : (previous address : Nat) → List Added → Prop
  | nil {previous : Nat} : Linked f previous sizeMax []
  | cons {previous next id : Nat} {e : Added} {rest : List Added}
      (hplace : place e.address = .mountPoint id)
      (hat : f (.mountPoint id) =
        some (.mountPoint { e.mountPoint with previous := previous, next := next }))
      (hrest : Linked f e.address next rest) : Linked f previous e.address (e :: rest)

/-- Those of one bucket among the mount points that have been added, the last one first.  The
first one is the root of the namespace. -/
def chainOf (added : List Added) (bucket : Nat) : List Added :=
  added.dropLast.filter fun e => bucketOf e.mountPoint.inode = bucket

/-- The namespace has the mount points that have been added to it. -/
structure Mounts (f : Place → Option Structure) (n : FsNamespace) (added : List Added) :
    Prop where
  placed : ∀ e ∈ added, ∃ id, id < maxMountPoints ∧
    e.address = nodeAddress mountPointsNodeSlot id ∧ f (.mountPoint id) ≠ none
  distinct : (added.map fun e => e.address).Nodup
  root : n.rootAddress = (added.getLast?.map fun e => e.address).getD sizeMax
  rootAt : ∀ e, added.getLast? = some e →
    f (place e.address) = some (.mountPoint e.mountPoint)
  chains : ∀ bucket, Linked f sizeMax (n.mountPointAddresses bucket) (chainOf added bucket)

theorem Linked.congr {previous address : Nat} {links : List Added} {h : Place → Option Structure}
    (hlinked : Linked f previous address links)
    (hsame : ∀ e ∈ links, h (place e.address) = f (place e.address)) :
    Linked h previous address links := by
  induction hlinked with
  | nil => exact .nil
  | @cons previous next id e rest hplace hat _ ih =>
      refine .cons hplace ?_ (ih fun e' he' => hsame e' (List.mem_cons_of_mem _ he'))
      rw [← hat, ← hplace]
      exact hsame e List.mem_cons_self

theorem Mounts.start {f : Place → Option Structure} : Mounts f emptyNamespace [] where
  placed := nofun
  distinct := List.nodup_nil
  root := rfl
  rootAt := nofun
  chains := fun _ => .nil

/-- The namespace with one more mount point. -/
def FsNamespace.with (n : FsNamespace) (e : Added) : FsNamespace :=
  if n.rootAddress = sizeMax then
    { n with rootAddress := e.address }
  else
    { n with
      mountPointAddresses :=
        Function.update n.mountPointAddresses (bucketOf e.mountPoint.inode) e.address }

/-- The mount point behind the new one gets its link back. -/
def linkedBack (f : Place → Option Structure) (other : Nat) (e : Added) :
    Place → Option Structure :=
  match f (place other) with
  | some (.mountPoint m) =>
      Function.update f (place other) (some (.mountPoint { m with previous := e.address }))
  | _ => f

/-- What an addition does to the structures. -/
def addedTo (f : Place → Option Structure) (p : Place) (n : FsNamespace) (e : Added) :
    Place → Option Structure :=
  let other := n.mountPointAddresses (bucketOf e.mountPoint.inode)
  let mounted :=
    if n.rootAddress = sizeMax ∨ other = sizeMax then
      Function.update f (place e.address) (some (.mountPoint e.mountPoint))
    else
      Function.update (linkedBack f other e) (place e.address)
        (some (.mountPoint { e.mountPoint with next := other }))
  Function.update mounted p (some (.fsNamespace (n.with e)))

theorem writeStructure_sees {address : Nat} {structure' : Structure} :
    Ensures (Sees f) (writeStructure address structure') fun _ =>
      Sees (Function.update f (place address) (some structure')) := by
  intro w u w' hw h
  obtain ⟨old, w₁, hold, hmodify⟩ := bind_some h
  obtain ⟨rfl, -⟩ := structureAt_some hold
  cases hmodify
  exact hw.update rfl

theorem fsNamespaceAt_sees {address : Nat} :
    Ensures (Sees f) (fsNamespaceAt address) fun n w =>
      f (place address) = some (.fsNamespace n) ∧ Sees f w := by
  intro w n w' hw h
  obtain ⟨rfl, hat⟩ := fsNamespaceAt_some h
  rw [show w'.server.structures = f from hw] at hat
  exact ⟨hat, hw⟩

theorem mountPointAt_sees {address : Nat} :
    Ensures (Sees f) (mountPointAt address) fun m w =>
      f (place address) = some (.mountPoint m) ∧ Sees f w := by
  intro w m w' hw h
  obtain ⟨rfl, hat⟩ := mountPointAt_some h
  rw [show w'.server.structures = f from hw] at hat
  exact ⟨hat, hw⟩

variable {n : FsNamespace} {e : Added} {namespaceAddress : Nat}

/-- A new mount point in a namespace that is elsewhere. -/
structure New (f : Place → Option Structure) (namespaceAddress : Nat) (n : FsNamespace)
    (e : Added) : Prop where
  table : f (place namespaceAddress) = some (.fsNamespace n)
  free : f (place e.address) = none
  other : let other := n.mountPointAddresses (bucketOf e.mountPoint.inode)
    other ≠ sizeMax → f (place other) ≠ none ∧ place other ≠ place namespaceAddress

theorem New.apart (h : New f namespaceAddress n e) : place namespaceAddress ≠ place e.address := by
  intro heq
  have htable := h.table
  rw [heq, h.free] at htable
  cases htable

theorem linkMountPoint_adds (hnew : New f namespaceAddress n e) :
    Ensures (Sees (Function.update f (place e.address) (some (.mountPoint e.mountPoint))))
      (linkMountPoint namespaceAddress e.address e.mountPoint) fun linked w =>
        linked = true → Sees (addedTo f (place namespaceAddress) n e) w := by
  have hapart := hnew.apart
  refine .bind fsNamespaceAt_sees fun n' => .and_pre fun hn' => ?_
  rw [Function.update_of_ne hapart, hnew.table] at hn'
  cases hn'
  refine .ite (fun hroot => ?_) fun hroot => ?_
  · refine .bind writeStructure_sees fun _ => .pure fun w hw _ => ?_
    simpa only [addedTo, FsNamespace.with, hroot, if_true, true_or] using hw
  · refine .ite (fun hempty => ?_) fun hother => ?_
    · refine .bind writeStructure_sees fun _ => .pure fun w hw _ => ?_
      simpa only [addedTo, FsNamespace.with, hroot, hempty, if_true, if_false, or_true] using hw
    · refine .bind (Sees.ensures lock_touches) fun found =>
        .ite (fun _ => .pure fun _ _ hlinked => absurd hlinked (by decide)) fun _ => ?_
      refine .bind mountPointAt_sees fun om => .and_pre fun hom => ?_
      obtain ⟨hthere, hotherApart⟩ := hnew.other hother
      have hne : place (n.mountPointAddresses (bucketOf e.mountPoint.inode)) ≠
          place e.address := by
        intro heq
        rw [heq] at hthere
        exact hthere hnew.free
      rw [Function.update_of_ne hne] at hom
      refine .bind writeStructure_sees fun _ => .bind (Sees.ensures unlock_touches) fun _ =>
        .bind writeStructure_sees fun _ => .bind writeStructure_sees fun _ =>
          .pure fun w hw _ => ?_
      rw [Function.update_comm hne, Function.update_idem, Function.update_comm hne.symm] at hw
      simpa only [addedTo, FsNamespace.with, linkedBack, hroot, hother, hom, or_self, if_false]
        using hw

/-- The address of the next mount point. -/
def newAddress (w : World) : Nat :=
  ((allocStructure .mountPoints mountPointsNodeSlot maxMountPoints w).map Prod.fst).getD sizeMax

theorem place_mountPoint {id : Nat} (hid : id < maxMountPoints) :
    place (nodeAddress mountPointsNodeSlot id) = .mountPoint id :=
  (place_nodeAddress id (by decide)).trans (congrArg Place.mountPoint (Nat.mod_eq_of_lt hid))

theorem addMountPointToNamespace_adds {m : MountPoint} (hw : Sees f w)
    (htable : f (place namespaceAddress) = some (.fsNamespace n))
    (hother : let other := n.mountPointAddresses (bucketOf m.inode)
      other ≠ sizeMax → f (place other) ≠ none ∧ place other ≠ place namespaceAddress)
    (h : addMountPointToNamespace namespaceAddress m w = some (0, w')) :
    ∃ id, id < maxMountPoints ∧ newAddress w = nodeAddress mountPointsNodeSlot id ∧
      f (.mountPoint id) = none ∧
      Sees (addedTo f (place namespaceAddress) n ⟨newAddress w, m⟩) w' := by
  obtain ⟨a, w₁, halloc, h⟩ := bind_some h
  have ha : newAddress w = a := by simp [newAddress, halloc]
  have hfails : ∀ {P : World → Prop} {Q : World → Prop}, Ensures P (pure eNoMem : Vfs Nat)
      fun result w => result = 0 → Q w := .pure fun _ _ hzero => absurd hzero (by decide)
  have hreturns : Returns (Sees f) (allocStructure .mountPoints mountPointsNodeSlot
    maxMountPoints) _ := allocStructure_returns (by decide) (by decide)
  obtain ⟨a', w₁', halloc', hallocated⟩ := hreturns w hw
  rw [halloc] at halloc'
  cases halloc'
  subst ha
  refine (Ensures.ite (P := Allocated f mountPointsNodeSlot maxMountPoints (newAddress w))
    (Q := fun result w'' => result = 0 → ∃ id, id < maxMountPoints ∧
      newAddress w = nodeAddress mountPointsNodeSlot id ∧ f (.mountPoint id) = none ∧
        Sees (addedTo f (place namespaceAddress) n ⟨newAddress w, m⟩) w'')
    (fun _ => hfails) fun hne => ?_) w₁ 0 w' hallocated h rfl
  refine Ensures.pre (A := fun w'' => ∃ id, id < maxMountPoints ∧
    newAddress w = nodeAddress mountPointsNodeSlot id ∧ f (.mountPoint id) = none ∧
      Sees (Function.update f (.mountPoint id) (some .uninitialized)) w'') ?_ fun w'' hw'' => ?_
  · refine .exists_pre fun id => .and_pre fun hid => .and_pre fun haddress =>
      .and_pre fun hfree => ?_
    have hplace : place (newAddress w) = .mountPoint id := by
      rw [haddress]
      exact place_mountPoint hid
    have hnew : New f namespaceAddress n ⟨newAddress w, m⟩ :=
      ⟨htable, by rw [hplace]; exact hfree, hother⟩
    have hany : ∀ {x : Vfs Unit}, Ensures (fun _ => True) (x >>= fun _ => pure eNoMem)
        fun result w'' => result = 0 → ∃ id, id < maxMountPoints ∧
          newAddress w = nodeAddress mountPointsNodeSlot id ∧ f (.mountPoint id) = none ∧
            Sees (addedTo f (place namespaceAddress) n ⟨newAddress w, m⟩) w'' :=
      .bind (R := fun _ _ => True) (fun _ _ _ _ _ => trivial) fun _ => hfails
    refine .bind (Sees.ensures lock_touches) fun found => .ite
      (fun _ => hany.pre fun _ _ => trivial) fun _ => ?_
    refine .bind writeStructure_sees fun _ => ?_
    rw [hplace, Function.update_idem, ← hplace]
    refine .bind (linkMountPoint_adds hnew) fun linked => .ite
      (fun _ => hany.pre fun _ _ => trivial) fun hlinked => ?_
    refine .bind (R := fun _ => Sees (addedTo f (place namespaceAddress) n ⟨newAddress w, m⟩))
      ((Sees.ensures unlock_touches).pre fun w'' hw'' => hw'' (by simpa using hlinked))
      fun _ => .pure fun w'' hw'' _ => ⟨id, hid, haddress, hfree, hw''⟩
  · rcases hw'' with ⟨heq, -⟩ | ⟨id, hid, haddress, hfree, hsees⟩
    · exact absurd heq hne
    · have hplace : nodePlace mountPointsNodeSlot id = .mountPoint id :=
        congrArg Place.mountPoint (Nat.mod_eq_of_lt hid)
      rw [hplace] at hfree hsees
      exact ⟨id, hid, haddress, hfree, hsees⟩

/-! One more mount point. -/

variable {added : List Added}

theorem Mounts.place (h : Mounts f n added) {e : Added} (he : e ∈ added) :
    ∃ id, Vfs.place e.address = .mountPoint id ∧ f (Vfs.place e.address) ≠ none := by
  obtain ⟨id, hid, haddress, hthere⟩ := h.placed e he
  rw [haddress, place_mountPoint hid]
  exact ⟨id, rfl, hthere⟩

/-- Different mount points are at different places. -/
theorem Mounts.injective (h : Mounts f n added) {e e' : Added} (he : e ∈ added)
    (he' : e' ∈ added) (hplace : Vfs.place e.address = Vfs.place e'.address) : e = e' := by
  obtain ⟨id, hid, haddress, -⟩ := h.placed e he
  obtain ⟨id', hid', haddress', -⟩ := h.placed e' he'
  rw [haddress, haddress', place_mountPoint hid, place_mountPoint hid'] at hplace
  cases hplace
  exact List.inj_on_of_nodup_map h.distinct he he' (haddress.trans haddress'.symm)

theorem mem_of_mem_chainOf {bucket : Nat} (he : e ∈ chainOf added bucket) :
    e ∈ added ∧ bucketOf e.mountPoint.inode = bucket := by
  rw [chainOf, List.mem_filter] at he
  exact ⟨List.dropLast_subset added he.1, of_decide_eq_true he.2⟩

/-- The first mount point of a bucket. -/
theorem Mounts.head (h : Mounts f n added) {bucket : Nat}
    (hne : n.mountPointAddresses bucket ≠ sizeMax) :
    ∃ e, e ∈ chainOf added bucket ∧ n.mountPointAddresses bucket = e.address := by
  have hchain := h.chains bucket
  generalize chainOf added bucket = links at hchain ⊢
  generalize n.mountPointAddresses bucket = address at hchain hne ⊢
  cases hchain with
  | nil => exact absurd rfl hne
  | @cons _ _ _ e rest => exact ⟨e, List.mem_cons_self, rfl⟩

/-- The root is in no bucket. -/
theorem Mounts.root_notMem (h : Mounts f n added) {first : Added}
    (hlast : added.getLast? = some first) : first ∉ added.dropLast := by
  intro hmem
  have hdistinct := List.Nodup.of_map _ h.distinct
  rw [← List.dropLast_append_getLast? first hlast] at hdistinct
  exact (List.nodup_append.mp hdistinct).2.2 first hmem first (List.mem_singleton_self first) rfl

theorem chainOf_cons (hne : added ≠ []) (bucket : Nat) :
    chainOf (e :: added) bucket =
      if bucketOf e.mountPoint.inode = bucket then e :: chainOf added bucket
      else chainOf added bucket := by
  rw [chainOf, List.dropLast_cons_of_ne_nil hne, List.filter_cons]
  by_cases hbucket : bucketOf e.mountPoint.inode = bucket
  · simp [hbucket, chainOf]
  · simp [hbucket, chainOf]

theorem Mounts.root_eq_iff (h : Mounts f n added) : n.rootAddress = sizeMax ↔ added = [] := by
  rw [h.root]
  cases hlast : added.getLast? with
  | none => simpa using List.getLast?_eq_none_iff.mp hlast
  | some first =>
      have hfirst := List.mem_of_getLast? hlast
      obtain ⟨id, hplace, -⟩ := h.place hfirst
      have haddress := place_ne_sizeMax hplace
      constructor
      · intro hroot
        exact absurd hroot haddress
      · rintro rfl
        cases hlast

theorem linkedBack_of_ne {other : Nat} {p : Place} (hne : p ≠ Vfs.place other) :
    linkedBack f other e p = f p := by
  unfold linkedBack
  cases f (Vfs.place other) with
  | none => rfl
  | some structure' =>
      cases structure' with
      | mountPoint m => exact Function.update_of_ne hne _ _
      | uninitialized | processData | directoryInfo | listInfo | fsNamespace => rfl

/-- The structures elsewhere. -/
theorem addedTo_of_ne {p q : Place} (hp : q ≠ p) (haddress : q ≠ Vfs.place e.address)
    (hother : n.rootAddress ≠ sizeMax →
      n.mountPointAddresses (bucketOf e.mountPoint.inode) ≠ sizeMax →
      q ≠ Vfs.place (n.mountPointAddresses (bucketOf e.mountPoint.inode))) :
    addedTo f p n e q = f q := by
  rw [addedTo]
  dsimp only
  rw [Function.update_of_ne hp]
  split
  · exact Function.update_of_ne haddress _ _
  · rename_i hlinks
    push Not at hlinks
    rw [Function.update_of_ne haddress]
    exact linkedBack_of_ne (hother hlinks.1 hlinks.2)

theorem linkedBack_ne_none {other : Nat} {q : Place} (hq : f q ≠ none) :
    linkedBack f other e q ≠ none := by
  by_cases hne : q = Vfs.place other
  · subst hne
    unfold linkedBack
    cases hat : f (Vfs.place other) with
    | none => exact absurd hat hq
    | some structure' => cases structure' <;> simp [hat]
  · rw [linkedBack_of_ne hne]
    exact hq

/-- No structure goes away. -/
theorem addedTo_ne_none {p q : Place} (hp : q ≠ p) (hq : q = Vfs.place e.address ∨ f q ≠ none) :
    addedTo f p n e q ≠ none := by
  rw [addedTo]
  dsimp only
  rw [Function.update_of_ne hp]
  by_cases haddress : q = Vfs.place e.address
  · rw [haddress]
    split
    · simp
    · simp
  · have hthere := hq.resolve_left haddress
    split
    · rw [Function.update_of_ne haddress]
      exact hthere
    · rw [Function.update_of_ne haddress]
      exact linkedBack_ne_none hthere

theorem addedTo_table {p : Place} : addedTo f p n e p = some (.fsNamespace (n.with e)) :=
  Function.update_self _ _ _

theorem linkedBack_self {other : Nat} {m : MountPoint}
    (hm : f (Vfs.place other) = some (.mountPoint m)) :
    linkedBack f other e (Vfs.place other) =
      some (.mountPoint { m with previous := e.address }) := by
  unfold linkedBack
  rw [hm]
  exact Function.update_self _ _ _

theorem MountPoint.with_previous {m : MountPoint} {previous : Nat}
    (h : m.previous = previous) (next : Nat) :
    { m with previous := previous, next := next } = { m with next := next } := by
  subst h
  rfl

theorem MountPoint.with_next {m : MountPoint} {next : Nat} (h : m.next = next) :
    { m with next := next } = m := by
  subst h
  rfl

/-- The new mount point in its place. -/
theorem addedTo_address {p : Place} (hroot : n.rootAddress ≠ sizeMax)
    (hp : Vfs.place e.address ≠ p) (hprevious : e.mountPoint.previous = sizeMax)
    (hnext : e.mountPoint.next = sizeMax) :
    addedTo f p n e (Vfs.place e.address) = some (.mountPoint { e.mountPoint with
      previous := sizeMax
      next := n.mountPointAddresses (bucketOf e.mountPoint.inode) }) := by
  rw [addedTo, MountPoint.with_previous hprevious]
  dsimp only
  rw [Function.update_of_ne hp]
  by_cases hempty : n.mountPointAddresses (bucketOf e.mountPoint.inode) = sizeMax
  · rw [if_pos (.inr hempty), Function.update_self, hempty, MountPoint.with_next hnext]
  · rw [if_neg (by simp [hroot, hempty]), Function.update_self]

/-- A mount point that is there is neither the table nor the new one. -/
theorem Mounts.apart (h : Mounts f n added) {e' : Added} {p : Place} {id : Nat}
    (hplace : Vfs.place e.address = .mountPoint id) (hfree : f (.mountPoint id) = none)
    (hp : ∀ id, p ≠ .mountPoint id) (he' : e' ∈ added) :
    Vfs.place e'.address ≠ p ∧ Vfs.place e'.address ≠ Vfs.place e.address := by
  obtain ⟨id', hplace', hthere⟩ := h.place he'
  constructor
  · rw [hplace']
    exact (hp id').symm
  · intro heq
    rw [heq, hplace] at hthere
    exact hthere hfree

/-- The links from the new mount point on. -/
theorem Mounts.chain_cons (h : Mounts f n added) {p : Place} {id : Nat}
    (hroot : n.rootAddress ≠ sizeMax) (hplace : Vfs.place e.address = .mountPoint id)
    (hfree : f (.mountPoint id) = none) (hp : ∀ id, p ≠ .mountPoint id)
    (hprevious : e.mountPoint.previous = sizeMax) (hnext : e.mountPoint.next = sizeMax) :
    Linked (addedTo f p n e) sizeMax e.address
      (e :: chainOf added (bucketOf e.mountPoint.inode)) := by
  have hchain := h.chains (bucketOf e.mountPoint.inode)
  have hmem : ∀ e' ∈ chainOf added (bucketOf e.mountPoint.inode), e' ∈ added :=
    fun e' he' => (mem_of_mem_chainOf he').1
  have hdistinct : (chainOf added (bucketOf e.mountPoint.inode)).Nodup :=
    (List.Nodup.of_map _ h.distinct).sublist
      ((List.filter_sublist).trans (List.dropLast_sublist added))
  have hapart := fun (e' : Added) (he' : e' ∈ added) => h.apart hplace hfree hp he'
  have hself := addedTo_address (f := f) (n := n) hroot (by rw [hplace]; exact (hp id).symm)
    hprevious hnext
  rw [hplace] at hself
  refine .cons hplace hself ?_
  generalize hlinks : chainOf added (bucketOf e.mountPoint.inode) = links at hchain hmem hdistinct
  generalize hhead : n.mountPointAddresses (bucketOf e.mountPoint.inode) = address at hchain
  cases hchain with
  | nil => exact .nil
  | @cons _ next id₀ e₀ rest hplace₀ hat₀ hrest =>
      have hne : e₀.address ≠ sizeMax := place_ne_sizeMax hplace₀
      have hfirst := hmem e₀ List.mem_cons_self
      have hbefore : addedTo f p n e (.mountPoint id₀) =
          some (.mountPoint { e₀.mountPoint with previous := e.address, next := next }) := by
        rw [← hplace₀] at hat₀ ⊢
        rw [addedTo]
        dsimp only
        rw [hhead, Function.update_of_ne (hapart e₀ hfirst).1, if_neg (by simp [hroot, hne]),
          Function.update_of_ne (hapart e₀ hfirst).2, linkedBack_self hat₀]
      refine .cons hplace₀ hbefore (hrest.congr fun e' he' => ?_)
      have hmem' := hmem e' (List.mem_cons_of_mem _ he')
      refine addedTo_of_ne (hapart e' hmem').1 (hapart e' hmem').2 fun _ _ heq => ?_
      rw [hhead] at heq
      have hsame := h.injective hmem' hfirst heq
      rw [hsame] at he'
      exact (List.nodup_cons.mp hdistinct).1 he'

theorem FsNamespace.with_root (hroot : n.rootAddress = sizeMax) :
    n.with e = { n with rootAddress := e.address } :=
  if_pos hroot

theorem FsNamespace.with_bucket (hroot : n.rootAddress ≠ sizeMax) :
    n.with e = { n with
      mountPointAddresses :=
        Function.update n.mountPointAddresses (bucketOf e.mountPoint.inode) e.address } :=
  if_neg hroot

theorem Mounts.add (h : Mounts f n added) {p : Place} {id : Nat} (hid : id < maxMountPoints)
    (haddress : e.address = nodeAddress mountPointsNodeSlot id)
    (hfree : f (.mountPoint id) = none) (hp : ∀ id, p ≠ .mountPoint id)
    (hprevious : e.mountPoint.previous = sizeMax) (hnext : e.mountPoint.next = sizeMax) :
    Mounts (addedTo f p n e) (n.with e) (e :: added) := by
  have hplace : Vfs.place e.address = .mountPoint id := by
    rw [haddress]
    exact place_mountPoint hid
  have hapart := fun (e' : Added) (he' : e' ∈ added) => h.apart hplace hfree hp he'
  have hself : Vfs.place e.address ≠ p := by
    rw [hplace]
    exact (hp id).symm
  constructor
  · intro e' he'
    rcases List.mem_cons.mp he' with rfl | he'
    · exact ⟨id, hid, haddress, hplace ▸ addedTo_ne_none hself (.inl rfl)⟩
    · obtain ⟨id', hid', haddress', hthere⟩ := h.placed e' he'
      have hplace' : Vfs.place e'.address = .mountPoint id' := by
        rw [haddress']
        exact place_mountPoint hid'
      refine ⟨id', hid', haddress', ?_⟩
      rw [← hplace'] at hthere ⊢
      exact addedTo_ne_none (hapart e' he').1 (.inr hthere)
  · rw [List.map_cons, List.nodup_cons]
    refine ⟨fun hmem => ?_, h.distinct⟩
    obtain ⟨e', he', heq⟩ := List.mem_map.mp hmem
    exact (hapart e' he').2 (congrArg Vfs.place heq)
  · by_cases hroot : n.rootAddress = sizeMax
    · rw [FsNamespace.with_root hroot, h.root_eq_iff.mp hroot]
      rfl
    · have hne : added ≠ [] := fun hnil => hroot (h.root_eq_iff.mpr hnil)
      rw [FsNamespace.with_bucket hroot, List.getLast?_cons_of_ne_nil hne]
      exact h.root
  · intro first hlast
    by_cases hroot : n.rootAddress = sizeMax
    · rw [h.root_eq_iff.mp hroot] at hlast
      obtain rfl : e = first := by simpa using hlast
      rw [addedTo]
      dsimp only
      rw [Function.update_of_ne hself, if_pos (.inl hroot), Function.update_self]
    · have hne : added ≠ [] := fun hnil => hroot (h.root_eq_iff.mpr hnil)
      rw [List.getLast?_cons_of_ne_nil hne] at hlast
      have hfirst := List.mem_of_getLast? hlast
      rw [← h.rootAt first hlast]
      refine addedTo_of_ne (hapart first hfirst).1 (hapart first hfirst).2 fun _ hother heq => ?_
      obtain ⟨e₀, he₀, hhead⟩ := h.head hother
      rw [hhead] at heq
      have hsame := h.injective hfirst (mem_of_mem_chainOf he₀).1 heq
      rw [← hsame, chainOf, List.mem_filter] at he₀
      exact h.root_notMem hlast he₀.1
  · intro bucket
    by_cases hroot : n.rootAddress = sizeMax
    · obtain rfl := h.root_eq_iff.mp hroot
      rw [FsNamespace.with_root hroot]
      have hchain := h.chains bucket
      exact hchain.congr nofun
    · have hne : added ≠ [] := fun hnil => hroot (h.root_eq_iff.mpr hnil)
      rw [FsNamespace.with_bucket hroot, chainOf_cons hne]
      dsimp only
      by_cases hbucket : bucketOf e.mountPoint.inode = bucket
      · rw [if_pos hbucket, ← hbucket, Function.update_self]
        exact h.chain_cons hroot hplace hfree hp hprevious hnext
      · rw [if_neg hbucket, Function.update_of_ne (Ne.symm hbucket)]
        refine (h.chains bucket).congr fun e' he' => ?_
        obtain ⟨hmem, hin⟩ := mem_of_mem_chainOf he'
        refine addedTo_of_ne (hapart e' hmem).1 (hapart e' hmem).2 fun _ hother heq => ?_
        obtain ⟨e₀, he₀, hhead⟩ := h.head hother
        obtain ⟨hmem₀, hin₀⟩ := mem_of_mem_chainOf he₀
        rw [hhead] at heq
        rw [h.injective hmem hmem₀ heq, hin₀] at hin
        exact hbucket hin

/-! Runs. -/

/-- Mount points are added one after the other, all of them with success. -/
inductive Adds (namespaceAddress : Nat) : World → List Added → World → Prop
  | nil {w : World} : Adds namespaceAddress w [] w
  | add {w w' w'' : World} {added : List Added} {m : MountPoint}
      (hadds : Adds namespaceAddress w added w')
      (hprevious : m.previous = sizeMax) (hnext : m.next = sizeMax)
      (h : addMountPointToNamespace namespaceAddress m w' = some (0, w'')) :
      Adds namespaceAddress w (⟨newAddress w', m⟩ :: added) w''

/-- The namespace at an address has the mount points that have been added to it. -/
def HasMounts (namespaceAddress : Nat) (added : List Added) (w : World) : Prop :=
  ∃ n, w.server.structures (place namespaceAddress) = some (.fsNamespace n) ∧
    Mounts w.server.structures n added

theorem HasMounts.add {m : MountPoint} (h : HasMounts namespaceAddress added w)
    (hplace : ∀ id, place namespaceAddress ≠ .mountPoint id)
    (hprevious : m.previous = sizeMax) (hnext : m.next = sizeMax)
    (hadd : addMountPointToNamespace namespaceAddress m w = some (0, w')) :
    HasMounts namespaceAddress (⟨newAddress w, m⟩ :: added) w' := by
  obtain ⟨n, htable, hmounts⟩ := h
  have hother : let other := n.mountPointAddresses (bucketOf m.inode)
      other ≠ sizeMax → w.server.structures (place other) ≠ none ∧
        place other ≠ place namespaceAddress := by
    intro other hne
    obtain ⟨e, he, hhead⟩ := hmounts.head hne
    obtain ⟨id, hid, hthere⟩ := hmounts.place (mem_of_mem_chainOf he).1
    rw [show other = e.address from hhead]
    exact ⟨hthere, hid ▸ (hplace id).symm⟩
  obtain ⟨id, hid, haddress, hfree, hsees⟩ :=
    addMountPointToNamespace_adds (f := w.server.structures) rfl htable hother hadd
  have hmounts' := hmounts.add (e := ⟨newAddress w, m⟩) hid haddress hfree hplace hprevious hnext
  rw [← show w'.server.structures = _ from hsees] at hmounts'
  refine ⟨n.with ⟨newAddress w, m⟩, ?_, hmounts'⟩
  rw [show w'.server.structures = _ from hsees]
  exact addedTo_table

theorem Adds.hasMounts (h : Adds namespaceAddress w added w')
    (hplace : ∀ id, place namespaceAddress ≠ .mountPoint id)
    (hstart : HasMounts namespaceAddress [] w) : HasMounts namespaceAddress added w' := by
  induction h with
  | nil => exact hstart
  | add _ hprevious hnext hadd ih => exact ih.add hplace hprevious hnext hadd

theorem Adds.locked (h : Adds namespaceAddress w added w') (hlocked : Locked g w) :
    Locked g w' := by
  induction h with
  | nil => exact hlocked
  | add _ _ _ hadd ih => exact addMountPointToNamespace_locked _ _ _ ih hadd rfl

/-! What the search finds. -/

/-- The address of the mount point that was added last among those with a key; the first of
all is not looked for. -/
def mostRecent (added : List Added) (inode enclosing : Nat) : Nat :=
  match added.dropLast.find? fun e =>
    e.mountPoint.inode == inode && e.mountPoint.enclosingFilesystem == enclosing with
  | some e => e.address
  | none => sizeMax

def Added.link (e : Added) : Link :=
  ⟨e.address, e.mountPoint.inode, e.mountPoint.enclosingFilesystem⟩

theorem Linked.chain {previous address : Nat} {links : List Added}
    (h : Linked f previous address links) : Chain f address (links.map Added.link) := by
  induction h with
  | nil => exact .nil
  | @cons previous next id e rest hplace hat _ ih =>
      exact .cons (m := { e.mountPoint with previous := previous, next := next }) hplace hat ih

theorem Linked.bucket {previous address fuel : Nat} {links : List Added}
    (h : Linked f previous address links) (hfuel : links.length < fuel) :
    Bucket f fuel address := by
  induction h generalizing fuel with
  | nil =>
      obtain ⟨fuel, rfl⟩ := Nat.exists_eq_succ_of_ne_zero (Nat.ne_of_gt hfuel)
      exact .none
  | cons hplace hat _ ih =>
      obtain ⟨fuel, rfl⟩ := Nat.exists_eq_succ_of_ne_zero (Nat.ne_zero_of_lt hfuel)
      exact .mountPoint hplace hat (ih (Nat.lt_of_succ_lt_succ hfuel))

theorem firstWith_chainOf (added : List Added) (inode enclosing : Nat) :
    firstWith inode enclosing ((chainOf added (bucketOf inode)).map Added.link) =
      mostRecent added inode enclosing := by
  rw [firstWith, mostRecent, chainOf, List.find?_map, List.find?_filter]
  have hkeys : (fun e : Added => decide
      (decide (bucketOf e.mountPoint.inode = bucketOf inode) = true ∧
        ((fun l : Link => l.inode == inode && l.enclosingFilesystem == enclosing) ∘ Added.link) e =
          true)) =
      fun e => e.mountPoint.inode == inode && e.mountPoint.enclosingFilesystem == enclosing := by
    funext e
    by_cases hinode : e.mountPoint.inode = inode
    · simp [Added.link, hinode, beq_eq_decide]
    · simp [Added.link, hinode]
  rw [hkeys]
  cases added.dropLast.find? _ with
  | none => rfl
  | some e => rfl

theorem Mounts.finds (h : Mounts f n added) {namespaceId inode enclosing fuel : Nat}
    (htable : f (Vfs.place (Vfs.namespaceAddress namespaceId)) = some (.fsNamespace n))
    (hfuel : added.length < fuel) :
    Returns (Looks f) (findMountPoint fuel namespaceId inode enclosing) fun found w =>
      found = mostRecent added inode enclosing ∧ Sees f w := by
  have hlength : ∀ bucket, (chainOf added bucket).length < fuel := fun bucket =>
    Nat.lt_of_le_of_lt (Nat.le_trans (List.length_filter_le _ _)
      (List.Sublist.length_le (List.dropLast_sublist added))) hfuel
  have hreturns : Returns (Looks f) (findMountPoint fuel namespaceId inode enclosing)
      fun _ _ => True :=
    (findMountPoint_returns ⟨n, htable, fun bucket => (h.chains bucket).bucket (hlength bucket)⟩).pre
      fun w hw p _ => congrFun hw.1 p
  have hchain := (h.chains (bucketOf inode)).chain
  have htableOf : (tableOf (f (Vfs.place (Vfs.namespaceAddress namespaceId)))).buckets =
      n.mountPointAddresses := by rw [htable]; rfl
  rw [← htableOf] at hchain
  have hfinds : Ensures (Looks f) (findMountPoint fuel _ _ enclosing) _ :=
    findMountPoint_finds hchain
  rw [firstWith_chainOf] at hfinds
  refine ((hreturns.and hfinds).and (looks_ensures findMountPoint_touches)).post ?_
  rintro found w ⟨⟨-, hfound⟩, hlooks⟩
  exact ⟨hfound, hlooks.1⟩

/-- A later mount point is in the bucket of its inode, and in no other. -/
theorem Mounts.once (h : Mounts f n added) {e : Added} (he : e ∈ added.dropLast) :
    ∃! bucket, e.address ∈ (chainOf added bucket).map fun e => e.address := by
  refine ⟨bucketOf e.mountPoint.inode, ?_, ?_⟩
  · exact List.mem_map_of_mem (List.mem_filter.mpr ⟨he, decide_eq_true rfl⟩)
  · intro bucket hmem
    obtain ⟨e', he', haddress⟩ := List.mem_map.mp hmem
    obtain ⟨hmem', hbucket⟩ := mem_of_mem_chainOf he'
    have hsame := h.injective hmem' (List.dropLast_subset added he) (congrArg Vfs.place haddress)
    rw [← hsame, hbucket]

theorem allocNamespace_mounts {namespaceAddress : Nat}
    (h : allocNamespace w = some (namespaceAddress, w')) (hne : namespaceAddress ≠ sizeMax) :
    ∃ id, id < maxNamespaces ∧ namespaceAddress = Vfs.namespaceAddress id ∧
      HasMounts namespaceAddress [] w' := by
  have hreturns : Returns (Sees w.server.structures) allocNamespace _ := allocNamespace_returns
  obtain ⟨a, w'', h', hnew⟩ := hreturns w rfl
  rw [h] at h'
  cases h'
  rcases hnew with ⟨hnone, -⟩ | ⟨id, hid, haddress, -, hsees⟩
  · exact absurd hnone hne
  · refine ⟨id, hid, haddress, emptyNamespace, ?_, .start⟩
    rw [haddress, place_namespace hid, show w'.server.structures = _ from hsees,
      Function.update_self]

/-- A namespace and the mount points that are added to it behave as a map from inodes and
enclosing file systems to the mount points that were added last. -/
theorem findMountPoint_recent {w₀ w₁ w₂ : World} {namespaceAddress : Nat} {added : List Added}
    (halloc : allocNamespace w₀ = some (namespaceAddress, w₁))
    (hne : namespaceAddress ≠ sizeMax) (hadds : Adds namespaceAddress w₁ added w₂) :
    ∃ id n, namespaceAddress = Vfs.namespaceAddress id ∧
      w₂.server.structures (place namespaceAddress) = some (.fsNamespace n) ∧
      Mounts w₂.server.structures n added ∧
      (∀ e ∈ added.dropLast, ∃! bucket,
        e.address ∈ (chainOf added bucket).map fun e => e.address) ∧
      (∀ a, lockDepth w₂.events a = lockDepth w₀.events a) ∧
      (Grants [.findMountPoint] w₂.answers → ∀ inode enclosing fuel, added.length < fuel →
        ∃ w₃, findMountPoint fuel id inode enclosing w₂ =
            some (mostRecent added inode enclosing, w₃) ∧
          w₃.server.structures = w₂.server.structures ∧
          ∀ a, lockDepth w₃.events a = lockDepth w₂.events a) := by
  obtain ⟨id, hid, haddress, hstart⟩ := allocNamespace_mounts halloc hne
  have hplace : ∀ i, place namespaceAddress ≠ .mountPoint i := by
    intro i hi
    rw [haddress, place_namespace hid] at hi
    cases hi
  obtain ⟨n, htable, hmounts⟩ := hadds.hasMounts hplace hstart
  have hlocked : Locked (lockDepth w₀.events) w₁ :=
    allocNamespace_locked w₀ namespaceAddress w₁ (fun _ => rfl) halloc hne
  refine ⟨id, n, haddress, htable, hmounts, fun e he => hmounts.once he,
    hadds.locked hlocked, ?_⟩
  intro hgrants inode enclosing fuel hfuel
  obtain ⟨found, w₃, hfind, rfl, hsees⟩ :=
    hmounts.finds (haddress ▸ htable) hfuel w₂ ⟨rfl, hgrants⟩
  exact ⟨w₃, hfind, hsees, findMountPoint_locked w₂ _ w₃ (fun _ => rfl) hfind⟩

/-! A root and two mount points with one key. -/

def allSucceed : Nat → Caller → Request → Answer :=
  fun _ _ _ => ⟨0, fun _ => false, none, 0, 0, 0⟩

def sampleMountPoint : MountPoint :=
  ⟨sizeMax, sizeMax, 1, 0, 5, 0⟩

/-- A namespace with three mount points. -/
def threeMounts : Vfs (List Nat) := do
  let address ← allocNamespace
  let root ← addMountPointToNamespace address sampleMountPoint
  let first ← addMountPointToNamespace address sampleMountPoint
  let second ← addMountPointToNamespace address sampleMountPoint
  return [address, root, first, second]

theorem threeMounts_drains : Respects Drains threeMounts :=
  .bind allocNamespace_drains fun _ => .bind addMountPointToNamespace_drains fun _ =>
    .bind addMountPointToNamespace_drains fun _ => .bind addMountPointToNamespace_drains fun _ =>
      .pure

theorem threeMounts_run : ∃ w₁ w₂ added,
    allocNamespace (Server.initial.world allSucceed) = some (Vfs.namespaceAddress 0, w₁) ∧
      Adds (Vfs.namespaceAddress 0) w₁ added w₂ ∧ added.length = 3 ∧ w₂.answers = allSucceed := by
  have hrun : (threeMounts (Server.initial.world allSucceed)).map Prod.fst =
      some [Vfs.namespaceAddress 0, 0, 0, 0] := by decide +kernel
  obtain ⟨⟨results, w₂⟩, hthree, hresults⟩ := Option.map_eq_some_iff.mp hrun
  have hanswers := (threeMounts_drains _ _ _ hthree).answers
  obtain ⟨address, w₁, halloc, hthree⟩ := bind_some hthree
  obtain ⟨root, wRoot, hroot, hthree⟩ := bind_some hthree
  obtain ⟨first, wFirst, hfirst, hthree⟩ := bind_some hthree
  obtain ⟨second, wSecond, hsecond, hthree⟩ := bind_some hthree
  cases hthree
  cases hresults
  exact ⟨w₁, _, _, halloc, ((Adds.nil.add rfl rfl hroot).add rfl rfl hfirst).add rfl rfl hsecond,
    rfl, hanswers⟩

theorem findMountPoint_recent_threeMounts : ∃ w₂ w₃ added,
    added.length = 3 ∧ findMountPoint 4 0 5 0 w₂ = some (mostRecent added 5 0, w₃) := by
  obtain ⟨w₁, w₂, added, halloc, hadds, hlength, hanswers⟩ := threeMounts_run
  obtain ⟨id, n, haddress, -, -, -, -, hfinds⟩ :=
    findMountPoint_recent halloc (by decide) hadds
  obtain rfl : 0 = id := by
    simp only [Vfs.namespaceAddress, nodeAddress, initNodeDepth, namespaceNodeSlot] at haddress
    omega
  obtain ⟨w₃, hfind, -⟩ := hfinds (by rw [hanswers]; exact fun _ _ _ _ => rfl) 5 0 4 (by omega)
  exact ⟨w₂, w₃, added, hlength, hfind⟩

end Cenix.Vfs
