import Cenix.Vfs.NamespaceTables
import Cenix.Vfs.Outcomes

namespace Cenix.Vfs

open Programs

/-! When a mount that fails leaves no traces. -/

namespace Server

/-- The mount tables of `s'`, the namespace and the descriptor are those of `s`. -/
structure Unmounted (s s' : Server) (namespaceAddress directoryFd : Nat) : Prop where
  fsNamespace : s'.structures (place namespaceAddress) = s.structures (place namespaceAddress)
  chains : ∀ id, s'.structures (.mountPoint id) = s.structures (.mountPoint id)
  lists : ∀ i, s'.structures (.listInfo i) = s.structures (.listInfo i)
  listNodes : s'.listNodes = s.listNodes
  listSlots : ∀ i slot, s'.fds (.listSlot i slot) = s.fds (.listSlot i slot)
  usedMountPoints : ∀ id < maxMountPoints, s'.used .mountPoints id = s.used .mountPoints id
  usedLists : ∀ i < maxMountedFs, s'.used .mountedLists i = s.used .mountedLists i
  descriptor : s'.fds (place directoryFd) = s.fds (place directoryFd)

end Server

/-! The conditions, from the `n`th system call on. -/

/-- The id that `create_mounted_list_entry` works with. -/
def Server.listId (s : Server) : Nat :=
  s.slotFor .mountedLists maxMountedFs

/-- `create_mounted_list_entry` can allocate the information about the list. -/
def InfoAllocated (w : World) (n : Nat) : Prop :=
  w.resultAt n .allocStructure (.alloc (mountedListInfoAddress w.server.listId)) = 0 ∧
    w.server.occupied (.listInfo w.server.listId) = false

/-- It is freed, and the id is marked as unused if it was unused. -/
def InfoFreed (w : World) (n : Nat) : Prop :=
  w.resultAt n .freeStructure (.delete mountedListInfoSlot w.server.listId) = 0 ∧
    (w.resultAt (n + 1) .markSlotUnused (.lock usedMountedListsSlot) = 0 ↔
      w.server.used .mountedLists w.server.listId = false)

/-- `create_mounted_list_entry` fails and gives the id back. -/
def CreationUndone (w : World) (n : Nat) : Prop :=
  let id := w.server.listId
  let locked := w.resultAt (n + 2) .createMountedListEntry (.lock (mountedListInfoAddress id))
  let node := w.resultAt (n + 3) .createMountedListEntry (.alloc (mountedListNodeAddress id))
  (¬InfoAllocated w (n + 1) ∧ id < ptrBits) ∨
    (InfoAllocated w (n + 1) ∧ locked ≠ 0 ∧ InfoFreed w (n + 3)) ∨
    (InfoAllocated w (n + 1) ∧ locked = 0 ∧ node ≠ 0 ∧ InfoFreed w (n + 4))

/-- `create_mounted_list_entry` succeeds. -/
def ListCreated (w : World) (n : Nat) : Prop :=
  let id := w.server.listId
  InfoAllocated w (n + 1) ∧
    w.resultAt (n + 2) .createMountedListEntry (.lock (mountedListInfoAddress id)) = 0 ∧
    w.resultAt (n + 3) .createMountedListEntry (.alloc (mountedListNodeAddress id)) = 0

/-- `mounted_list_insert` into a slot of an entry succeeds. -/
def Inserted (w : World) (n id slot directoryFd : Nat) : Prop :=
  w.resultAt n .mountedListInsert (.lock (mountedListInfoAddress id)) = 0 ∧
    w.resultAt (n + 1) .mountedListInsert (.move directoryFd id slot) = 0 ∧
    (w.server.fds (place directoryFd)).isSome ∧ w.server.fds (.listSlot id slot) = none

/-- There is a mount point in the way, which cannot be locked. -/
def LinkRefused (s : Server) (w : World) (n namespaceAddress inode : Nat) : Prop :=
  ∃ fsNamespace, s.structures (place namespaceAddress) = some (.fsNamespace fsNamespace) ∧
    fsNamespace.rootAddress ≠ sizeMax ∧
    fsNamespace.mountPointAddresses (bucketOf inode) ≠ sizeMax ∧
    w.resultAt n .addMountPointToNamespace
      (.lock (fsNamespace.mountPointAddresses (bucketOf inode))) ≠ 0

/-- `add_mount_point_to_namespace` succeeds, with the tables of `s`. -/
def MountPointAdded (s : Server) (w : World) (n namespaceAddress inode : Nat) : Prop :=
  let id := s.slotFor .mountPoints maxMountPoints
  w.resultAt n .findSlotFor (.lock usedMountPointIdsSlot) = 0 ∧
    w.resultAt (n + 1) .allocStructure (.alloc (nodeAddress mountPointsNodeSlot id)) = 0 ∧
    s.occupied (.mountPoint id) = false ∧
    w.resultAt (n + 2) .addMountPointToNamespace
      (.lock (nodeAddress mountPointsNodeSlot id)) = 0 ∧
    ¬LinkRefused s w (n + 3) namespaceAddress inode

/-- The mount succeeds or fails before there is a list for it. -/
def MountsOrUndoes (w : World) (info : DirectoryInfo) (directoryFd : Nat) : Prop :=
  info.canModifyNamespace = false ∨
    w.resultAt 0 .mount (.lock (namespaceAddress info.namespaceId)) ≠ 0 ∨
    w.resultAt 1 .findSlotFor (.lock usedMountedListsSlot) ≠ 0 ∨
    CreationUndone w 1 ∨
    (ListCreated w 1 ∧ Inserted w 5 w.server.listId 0 directoryFd ∧
      MountPointAdded (w.server.setFd (place directoryFd) none) w 7
        (namespaceAddress info.namespaceId) info.inode)

variable {w w₁ w' : World}

/-! Lists. -/

theorem firstFree_some {s : Server} {ids : Ids} {maxItems id : Nat}
    (h : firstFree s ids maxItems = some id) : id < maxItems ∧ s.used ids id = false := by
  have hid := List.mem_of_find?_eq_some h
  have hfree := List.find?_some h
  exact ⟨List.mem_range.mp hid, by simpa using hfree⟩

theorem firstFree_none {s : Server} {ids : Ids} {maxItems : Nat}
    (h : firstFree s ids maxItems = none) : ∀ id < maxItems, s.used ids id = true := by
  intro id hid
  have hused := List.find?_eq_none.mp h id (List.mem_range.mpr hid)
  simpa using hused

/-- The same server, but for the bits behind the sets. -/
structure Server.SameTables (s s' : Server) : Prop where
  structures : s'.structures = s.structures
  fds : s'.fds = s.fds
  listNodes : s'.listNodes = s.listNodes
  used : ∀ ids, ∀ id < 2 ^ directoryBits, s'.used ids id = s.used ids id

theorem Server.SameTables.unmounted {s s' : Server} (h : s.SameTables s')
    (namespaceAddress directoryFd : Nat) : s.Unmounted s' namespaceAddress directoryFd where
  fsNamespace := by rw [h.structures]
  chains _ := by rw [h.structures]
  lists _ := by rw [h.structures]
  listNodes := h.listNodes
  listSlots _ _ := by rw [h.fds]
  usedMountPoints id hid := h.used _ id hid
  usedLists i hi := h.used _ i hi
  descriptor := by rw [h.fds]

theorem setUsed_used {s : Server} {ids : Ids} {id i : Nat} {b : Bool} :
    (s.setUsed ids id b).used ids i = if i = id then b else s.used ids i := by
  simp [Server.setUsed, Function.update_apply]

theorem slotFor_eq {s : Server} {ids : Ids} {maxItems id : Nat}
    (hfree : firstFree s ids maxItems = some id) : s.slotFor ids maxItems = id := by
  rw [Server.slotFor, hfree]
  rfl

theorem slotFor_full {s : Server} {ids : Ids} {maxItems : Nat}
    (hfull : firstFree s ids maxItems = none) : s.slotFor ids maxItems = 0 := by
  rw [Server.slotFor, hfull]
  rfl

/-- If every bit is set, it is the first one that is set again. -/
theorem taking_eq {s : Server} {ids : Ids} {maxItems : Nat} (hpos : 0 < maxItems) :
    s.taking ids maxItems = s.setUsed ids (s.slotFor ids maxItems) true := by
  unfold Server.taking
  cases hfree : firstFree s ids maxItems with
  | some id => rw [slotFor_eq hfree]
  | none =>
      rw [slotFor_full hfree, Server.setUsed, ← firstFree_none hfree 0 hpos,
        Function.update_eq_self, Function.update_eq_self]

/-- A failed search takes back what it has taken, if that is in the first word. -/
theorem untaking_sameTables {s : Server} {ids : Ids} {maxItems : Nat}
    (hmax : maxItems = 2 ^ directoryBits) (hfirst : s.slotFor ids maxItems < ptrBits) :
    s.SameTables (s.untaking (s.taking ids maxItems) ids maxItems) := by
  subst hmax
  unfold Server.untaking Server.taking
  cases hfree : firstFree s ids (2 ^ directoryBits) with
  | none =>
      refine ⟨rfl, rfl, rfl, fun ids' id hid => ?_⟩
      have hout : id ≠ clearedBit (2 ^ directoryBits / ptrBits) 0 := by
        simp only [clearedBit, directoryBits, ptrBits] at hid ⊢
        omega
      simp only [searchEnd, Server.setUsed]
      by_cases hids : ids' = ids
      · subst hids
        simp [hout]
      · simp [hids]
  | some free =>
      rw [slotFor_eq hfree] at hfirst
      have hclears : clearedBit (free / ptrBits) free = free := by
        simp only [clearedBit, ptrBits] at hfirst ⊢
        omega
      have hunused := (firstFree_some hfree).2
      simp only [searchEnd, hclears]
      refine ⟨rfl, rfl, rfl, fun ids' id _ => ?_⟩
      simp only [Server.setUsed, Function.update_self, Function.update_idem]
      rw [← hunused, Function.update_eq_self, Function.update_eq_self]

/-- Otherwise it clears another bit. -/
theorem untaking_leaks {s : Server} {ids : Ids} {maxItems : Nat}
    (hlater : ptrBits ≤ s.slotFor ids maxItems) :
    (s.untaking (s.taking ids maxItems) ids maxItems).used ids (s.slotFor ids maxItems) ≠
      s.used ids (s.slotFor ids maxItems) := by
  cases hfree : firstFree s ids maxItems with
  | none =>
      rw [slotFor_full hfree] at hlater
      cases hlater
  | some id =>
      rw [slotFor_eq hfree] at hlater ⊢
      have hother : id ≠ clearedBit (id / ptrBits) id := by
        simp only [clearedBit, ptrBits] at hlater ⊢
        omega
      unfold Server.untaking Server.taking
      simp only [hfree, searchEnd, setUsed_used, if_neg hother, if_true, (firstFree_some hfree).2]
      decide

/-- The structure that has just been allocated for a free id. -/
def Server.allocated (s : Server) (ids : Ids) (node id : Nat) (structure' : Structure) :
    Server :=
  (s.setUsed ids id true).setStructure (nodePlace node id) (some structure')

theorem allocated_allocated {s : Server} {ids : Ids} {node id : Nat} {old new : Structure} :
    (s.allocated ids node id old).setStructure (nodePlace node id) (some new) =
      s.allocated ids node id new := by
  simp [Server.allocated, Server.setStructure]

/-- It is given back without a trace unless the kernel refuses that. -/
theorem freed_cases {s : Server} {ids : Ids} {node id : Nat} {structure' : Structure}
    (hempty : s.occupied (nodePlace node id) = false)
    (hw : w.server = s.allocated ids node id structure') :
    (w.resultAt 0 .freeStructure (.delete node id) = 0 ∧
        (w.resultAt 1 .markSlotUnused (.lock ids.address) = 0 ↔ s.used ids id = false) ∧
        s.SameTables (w.freed ids node id)) ∨
      (¬(w.resultAt 0 .freeStructure (.delete node id) = 0 ∧
          (w.resultAt 1 .markSlotUnused (.lock ids.address) = 0 ↔ s.used ids id = false)) ∧
        ((w.freed ids node id).used ids id ≠ s.used ids id ∨
          (w.freed ids node id).structures (nodePlace node id) ≠
            s.structures (nodePlace node id))) := by
  have hoccupied : w.server.occupied (nodePlace node id) = true := by
    rw [hw]
    simp [Server.allocated, Server.occupied, Server.setStructure]
  have hnone : s.structures (nodePlace node id) = none ∧ s.fds (nodePlace node id) = none := by
    simpa [Server.occupied] using hempty
  unfold World.freed
  by_cases hdeleted : w.resultAt 0 .freeStructure (.delete node id) = 0
  · rw [if_pos ⟨hdeleted, hoccupied⟩]
    have hcleared : ∀ b, s.used ids id = b →
        s.SameTables ((w.server.cleared (nodePlace node id)).setUsed ids id b) := by
      intro b hb
      rw [hw]
      refine ⟨?_, ?_, rfl, fun ids' i _ => ?_⟩
      · simp [Server.cleared, Server.allocated, Server.setStructure, Server.setFd,
          Server.setUsed, ← hnone.1]
      · simp [Server.cleared, Server.allocated, Server.setStructure, Server.setFd,
          Server.setUsed, ← hnone.2]
      · simp only [Server.cleared, Server.allocated, Server.setStructure, Server.setFd,
          Server.setUsed, Function.update_self, Function.update_idem]
        rw [← hb, Function.update_eq_self, Function.update_eq_self]
    have hset : (w.server.cleared (nodePlace node id)).setUsed ids id true =
        w.server.cleared (nodePlace node id) := by
      rw [hw]
      simp [Server.cleared, Server.allocated, Server.setStructure, Server.setFd, Server.setUsed]
    by_cases hmarked : w.resultAt 1 .markSlotUnused (.lock ids.address) = 0
    · rw [if_pos hmarked]
      cases hused : s.used ids id with
      | false => exact .inl ⟨hdeleted, iff_of_true hmarked rfl, hcleared false hused⟩
      | true =>
          refine .inr ⟨fun h => absurd (h.2.mp hmarked) (by decide), .inl ?_⟩
          simp [setUsed_used]
    · rw [if_neg hmarked]
      cases hused : s.used ids id with
      | false =>
          refine .inr ⟨fun h => hmarked (h.2.mpr rfl), .inl ?_⟩
          rw [← hset]
          simp [setUsed_used]
      | true =>
          exact .inl ⟨hdeleted, iff_of_false hmarked (by decide), hset ▸ hcleared true hused⟩
  · rw [if_neg fun h => hdeleted h.1, hw]
    refine .inr ⟨fun h => hdeleted h.1, .inr ?_⟩
    simp [Server.allocated, Server.setStructure, hnone.1]

theorem After.infoAllocated {m n : Nat} (h : After m w.server w w₁) :
    InfoAllocated w₁ n ↔ InfoAllocated w (m + n) := by
  simp only [InfoAllocated, h.resultAt, h.server]

theorem After.creationUndone {m n : Nat} (h : After m w.server w w₁) :
    CreationUndone w₁ n ↔ CreationUndone w (m + n) := by
  simp only [CreationUndone, InfoFreed, h.infoAllocated, h.resultAt, h.server, Nat.add_assoc]

theorem After.listCreated {m n : Nat} (h : After m w.server w w₁) :
    ListCreated w₁ n ↔ ListCreated w (m + n) := by
  simp only [ListCreated, h.infoAllocated, h.resultAt, h.server, Nat.add_assoc]

/-- How `create_mounted_list_entry` turns out. -/
inductive Creates (w : World) : Nat → World → Prop where
  | refused {w' : World} (hlock : w.resultAt 0 .findSlotFor (.lock usedMountedListsSlot) ≠ 0)
      (hafter : w.server.SameTables w'.server) : Creates w sizeMax w'
  | undone {w' : World} (hlock : w.resultAt 0 .findSlotFor (.lock usedMountedListsSlot) = 0)
      (hundone : CreationUndone w 0) (hafter : w.server.SameTables w'.server) :
      Creates w sizeMax w'
  | leaked {w' : World} (hlock : w.resultAt 0 .findSlotFor (.lock usedMountedListsSlot) = 0)
      (hundone : ¬CreationUndone w 0) (hcreated : ¬ListCreated w 0)
      (hafter : w'.server.used .mountedLists w.server.listId ≠
          w.server.used .mountedLists w.server.listId ∨
        w'.server.structures (.listInfo w.server.listId) ≠
          w.server.structures (.listInfo w.server.listId)) : Creates w sizeMax w'
  | created {w' : World} (hlock : w.resultAt 0 .findSlotFor (.lock usedMountedListsSlot) = 0)
      (hundone : ¬CreationUndone w 0) (hcreated : ListCreated w 0)
      (hnew : w.server.listNodes w.server.listId = false)
      (hafter : After 4 { w.server.allocated .mountedLists mountedListInfoSlot w.server.listId
          (.listInfo ⟨0, 0, sizeMax⟩) with
        listNodes := Function.update w.server.listNodes w.server.listId true } w w') :
      Creates w w.server.listId w'

theorem Server.listId_lt (s : Server) : s.listId < maxMountedFs :=
  searchEnd_lt (by decide)

theorem place_infoAddress {id : Nat} (hid : id < maxMountedFs) :
    place (mountedListInfoAddress id) = .listInfo id :=
  (place_mountedListInfoAddress id).trans (congrArg Place.listInfo (Nat.mod_eq_of_lt hid))

theorem createMountedListEntry_creates {a : Nat}
    (h : createMountedListEntry w = some (a, w')) : Creates w a w' := by
  obtain ⟨address, w₁, halloc, h⟩ := bind_some h
  have hnode : mountedListInfoSlot < 2 ^ initNodeDepth := by decide
  have hid := w.server.listId_lt
  have hplace := place_infoAddress hid
  have hlistInfo : nodePlace mountedListInfoSlot w.server.listId = .listInfo w.server.listId :=
    congrArg Place.listInfo (Nat.mod_eq_of_lt hid)
  rcases allocStructure_after hnode (by decide) (by decide) halloc with
    ⟨rfl, hlock, hafter⟩ | ⟨hlock, ⟨ha, hgranted, hempty, hafter⟩ | ⟨rfl, hwhy, hafter⟩⟩
  · cases h
    exact .refused hlock (hafter.server ▸ ⟨rfl, rfl, rfl, fun _ _ _ => rfl⟩)
  · have ha : address = mountedListInfoAddress w.server.listId := ha
    subst ha
    have hne : mountedListInfoAddress w.server.listId ≠ sizeMax :=
      nodeAddress_ne_sizeMax hnode hid
    rw [if_neg hne] at h
    rw [hplace] at hempty
    have hinfo : InfoAllocated w 1 := ⟨hgranted, hempty⟩
    have hw₁ : w₁.server = w.server.allocated .mountedLists mountedListInfoSlot w.server.listId
        .uninitialized := by
      rw [hafter.server, taking_eq (by decide), hplace, Server.allocated, hlistInfo]
      rfl
    have hfreed : ∀ (v v' : World) structure', v.server = w.server.allocated .mountedLists
        mountedListInfoSlot w.server.listId structure' → ∀ u, freeStructure .mountedLists
          mountedListInfoSlot maxMountedFs (mountedListInfoAddress w.server.listId) v =
            some (u, v') →
        (v.resultAt 0 .freeStructure (.delete mountedListInfoSlot w.server.listId) = 0 ∧
            (v.resultAt 1 .markSlotUnused (.lock usedMountedListsSlot) = 0 ↔
              w.server.used .mountedLists w.server.listId = false) ∧
            w.server.SameTables v'.server) ∨
          (¬(v.resultAt 0 .freeStructure (.delete mountedListInfoSlot w.server.listId) = 0 ∧
              (v.resultAt 1 .markSlotUnused (.lock usedMountedListsSlot) = 0 ↔
                w.server.used .mountedLists w.server.listId = false)) ∧
            (v'.server.used .mountedLists w.server.listId ≠
                w.server.used .mountedLists w.server.listId ∨
              v'.server.structures (.listInfo w.server.listId) ≠
                w.server.structures (.listInfo w.server.listId))) := by
      intro v v' structure' hv u hfreeing
      obtain ⟨n, hafter⟩ := freeStructure_after hnode hid hid hfreeing
      rw [hafter.server]
      have hcases := @freed_cases _ _ .mountedLists _ _ _ (hlistInfo ▸ hempty) hv
      rwa [hlistInfo] at hcases
    obtain ⟨found, w₂, hlock', h⟩ := bind_some h
    obtain ⟨hfound, hlocked⟩ := lock_after hlock'
    rw [hafter.resultAt] at hfound
    have hafter₂ := hafter.trans hlocked
    have hw₂ : w₂.server = w₁.server := hlocked.server
    rw [hw₁] at hw₂
    split at h
    · rename_i hno
      have hrefused : w.resultAt 2 .createMountedListEntry
          (.lock (mountedListInfoAddress w.server.listId)) ≠ 0 := fun hgranted => by
        simp [hfound.mpr hgranted] at hno
      obtain ⟨u, w₃, hfreeing, h⟩ := bind_some h
      cases h
      rcases hfreed w₂ _ _ hw₂ u hfreeing with ⟨hdeleted, hmarked, hsame⟩ | ⟨hnot, htrace⟩
      · rw [hafter₂.resultAt] at hdeleted hmarked
        exact .undone hlock (.inr (.inl ⟨hinfo, hrefused, hdeleted, hmarked⟩)) hsame
      · rw [hafter₂.resultAt, hafter₂.resultAt] at hnot
        refine .leaked hlock ?_ (fun hcreated => hrefused hcreated.2.1) htrace
        rintro (hundone | hundone | hundone)
        · exact hundone.1 hinfo
        · exact hnot hundone.2.2
        · exact hrefused hundone.2.1
    · rename_i hyes
      have hinfoLock : w.resultAt 2 .createMountedListEntry
          (.lock (mountedListInfoAddress w.server.listId)) = 0 := hfound.mp (by simpa using hyes)
      obtain ⟨u, w₃, hwrite, h⟩ := bind_some h
      obtain ⟨-, hwritten⟩ := writeStructure_after hwrite
      obtain ⟨u', w₄, hunlock, h⟩ := bind_some h
      have hunlocked := unlock_after hunlock
      obtain ⟨result, w₅, hnodeAlloc, h⟩ := bind_some h
      have hafter₄ := (hafter₂.trans hwritten).trans hunlocked
      have hw₄ : w₄.server = w.server.allocated .mountedLists mountedListInfoSlot
          w.server.listId (.listInfo ⟨0, 0, sizeMax⟩) := by
        rw [hunlocked.server, hwritten.server, hw₂, hplace, ← hlistInfo, allocated_allocated]
      rw [mountedListInfoAddress, nodeAddress_div _ hnode] at hnodeAlloc h
      rcases allocListNode_after hnodeAlloc with ⟨rfl, hgranted, hnew, hnodeAfter⟩ |
        ⟨hfailed, hrefused, hnodeAfter⟩
      · cases h
        rw [hafter₄.resultAt] at hgranted
        rw [hw₄] at hnodeAfter hnew
        refine .created hlock ?_ ⟨hinfo, hinfoLock, hgranted⟩ hnew (hafter₄.trans hnodeAfter)
        rintro (hundone | hundone | hundone)
        · exact hundone.1 hinfo
        · exact hundone.2.1 hinfoLock
        · exact hundone.2.2.1 hgranted
      · rw [if_pos hfailed] at h
        rw [hafter₄.resultAt] at hrefused
        obtain ⟨u'', w₆, hfreeing, h⟩ := bind_some h
        cases h
        have hafter₅ := hafter₄.trans hnodeAfter
        rcases hfreed w₅ _ _ (hnodeAfter.server.trans hw₄) u'' hfreeing with
          ⟨hdeleted, hmarked, hsame⟩ | ⟨hnot, htrace⟩
        · rw [hafter₅.resultAt] at hdeleted hmarked
          exact .undone hlock
            (.inr (.inr ⟨hinfo, hinfoLock, hrefused, hdeleted, hmarked⟩)) hsame
        · rw [hafter₅.resultAt, hafter₅.resultAt] at hnot
          refine .leaked hlock ?_ (fun hcreated => hrefused hcreated.2.2) htrace
          rintro (hundone | hundone | hundone)
          · exact hundone.1 hinfo
          · exact hundone.2.1 hinfoLock
          · exact hnot hundone.2.2.2
  · cases h
    have hinfo : ¬InfoAllocated w 1 := by
      rintro ⟨hgranted, hempty⟩
      rcases hwhy with hrefused | hoccupied
      · exact hrefused hgranted
      · change w.server.occupied (place (mountedListInfoAddress w.server.listId)) = true
          at hoccupied
        rw [hplace, hempty] at hoccupied
        cases hoccupied
    by_cases hfirst : w.server.listId < ptrBits
    · exact .undone hlock (.inl ⟨hinfo, hfirst⟩) (hafter.server ▸ untaking_sameTables rfl hfirst)
    · refine .leaked hlock ?_ (fun hcreated => hinfo hcreated.1)
        (.inl (hafter.server ▸ untaking_leaks (Nat.not_lt.mp hfirst)))
      rintro (hundone | hundone | hundone)
      · exact hfirst hundone.2
      · exact hinfo hundone.1
      · exact hinfo hundone.1

/-! The insertion and the mount point. -/

theorem After.inserted {s : Server} {m n id slot directoryFd : Nat} (h : After m s w w₁)
    (hfds : w₁.server.fds = w.server.fds) :
    Inserted w₁ n id slot directoryFd ↔ Inserted w (m + n) id slot directoryFd := by
  simp only [Inserted, h.resultAt, Nat.add_assoc, hfds]

theorem After.linkRefused {s s₁ s₂ : Server} {m n namespaceAddress inode : Nat}
    (h : After m s w w₁)
    (hspace : s₁.structures (place namespaceAddress) = s₂.structures (place namespaceAddress)) :
    LinkRefused s₁ w₁ n namespaceAddress inode ↔
      LinkRefused s₂ w (m + n) namespaceAddress inode := by
  simp only [LinkRefused, h.resultAt, hspace]

/-- What is written into an entry when a slot is taken. -/
def MountedListInfo.inserted (info : MountedListInfo) (flags : BitVec 8) : MountedListInfo :=
  { info with
    usedSlots := info.usedSlots ||| slotBit (firstClearSlot info.usedSlots)
    createFlaggedSlots :=
      if flags &&& mountCreate ≠ 0 then
        info.createFlaggedSlots ||| slotBit (firstClearSlot info.usedSlots)
      else
        info.createFlaggedSlots }

theorem mountedListInsert_entry {id directoryFd fuel result : Nat} {flags : BitVec 8}
    {info : MountedListInfo} (hid : id < maxMountedFs)
    (hinfo : w.server.structures (.listInfo id) = some (.listInfo info))
    (hnotFull : info.usedSlots ≠ BitVec.allOnes ptrBits)
    (h : mountedListInsert directoryFd flags fuel id w = some (result, w')) :
    let slot := firstClearSlot info.usedSlots
    (result = 0 ∧ Inserted w 0 id slot directoryFd ∧
        After 2 ((w.server.moved directoryFd id slot).setStructure (.listInfo id)
          (some (.listInfo (info.inserted flags)))) w w') ∨
      (result ≠ 0 ∧ (w.server.listNodes id = true → slot < 2 ^ mountedListEntryBits →
        ¬Inserted w 0 id slot directoryFd) ∧ w'.server = w.server) := by
  intro slot
  cases fuel with
  | zero => cases h
  | succ fuel =>
      have hplace := place_infoAddress hid
      unfold mountedListInsert at h
      rw [if_neg (show id ≠ sizeMax by simp only [maxMountedFs, sizeMax, ptrBits] at *; omega)]
        at h
      obtain ⟨found, w₁, hlock, h⟩ := bind_some h
      obtain ⟨hfound, hlocked⟩ := lock_after hlock
      split at h
      · rename_i hno
        cases h
        refine .inr ⟨by decide, fun _ _ hinserted => ?_, hlocked.server⟩
        simp [hfound.mpr hinserted.1] at hno
      · rename_i hyes
        have hgranted := hfound.mp (by simpa using hyes)
        obtain ⟨read, w₂, hread, h⟩ := bind_some h
        rw [listInfoAt_of (by rw [hplace, hlocked.server]; exact hinfo)] at hread
        cases hread
        rw [if_neg hnotFull] at h
        obtain ⟨moved, w₃, hinsert, h⟩ := bind_some h
        obtain ⟨u, w₄, hunlock, h⟩ := bind_some h
        cases h
        have hunlocked := unlock_after hunlock
        obtain ⟨answer, w₅, hmove, hinsert⟩ := bind_some hinsert
        obtain ⟨u', w₆, hwrite, hinsert⟩ := bind_some hinsert
        cases hinsert
        have hmoving := moveIntoList_after hmove
        rw [hlocked.resultAt, hlocked.server] at hmoving
        rcases hmoving with ⟨rfl, hmoved, hsource, hempty, hafter⟩ | ⟨hfailed, hwhy, hafter⟩
        · simp only [onlyIf, if_true] at hwrite
          obtain ⟨-, hwritten⟩ := writeStructure_after hwrite
          refine .inl ⟨rfl, ⟨hgranted, hmoved, hsource, hempty⟩, ?_⟩
          have hafter' := ((hlocked.trans hafter).trans hwritten).trans hunlocked
          rw [hwritten.server, hplace, hafter.server] at hafter'
          exact hafter'
        · rw [onlyIf, if_neg hfailed] at hwrite
          cases hwrite
          refine .inr ⟨hfailed, fun hnode hslot hinserted => ?_,
            hunlocked.server.trans hafter.server⟩
          rcases hwhy with hrefused | (hno | hout) | hfull | hnone
          · exact hrefused hinserted.2.1
          · rw [hnode] at hno
            cases hno
          · exact Nat.not_lt.mpr hout hslot
          · exact hfull hinserted.2.2.2
          · have hsource := hinserted.2.2.1
            rw [hnone] at hsource
            cases hsource

theorem linkMountPoint_after {namespaceAddress mountPointAddress : Nat} {mountPoint : MountPoint}
    {linked : Bool}
    (h : linkMountPoint namespaceAddress mountPointAddress mountPoint w = some (linked, w')) :
    (linked = true ↔ ¬LinkRefused w.server w 0 namespaceAddress mountPoint.inode) ∧
      w'.server.listNodes = w.server.listNodes := by
  obtain ⟨n, w₁, hread, hlink⟩ := bind_some h
  clear h
  obtain ⟨rfl, hn⟩ := fsNamespaceAt_some hread
  have hat : ∀ n', w₁.server.structures (place namespaceAddress) = some (.fsNamespace n') →
      n' = n := by
    intro n' hn'
    rw [hn] at hn'
    cases hn'
    rfl
  split at hlink
  · rename_i hroot
    obtain ⟨u, w₂, hwrite, h⟩ := bind_some hlink
    cases h
    refine ⟨iff_of_true rfl ?_, by rw [(writeStructure_after hwrite).2.server]; rfl⟩
    rintro ⟨n', hn', hnot, -⟩
    exact hnot (hat n' hn' ▸ hroot)
  · rename_i hroot
    simp only at hlink
    split at hlink
    · rename_i hempty
      obtain ⟨u, w₂, hwrite, h⟩ := bind_some hlink
      cases h
      refine ⟨iff_of_true rfl ?_, by rw [(writeStructure_after hwrite).2.server]; rfl⟩
      rintro ⟨n', hn', -, hnot, -⟩
      exact hnot (hat n' hn' ▸ hempty)
    · rename_i hother
      obtain ⟨found, w₂, hlock, h⟩ := bind_some hlink
      obtain ⟨hfound, hlocked⟩ := lock_after hlock
      split at h
      · rename_i hno
        cases h
        refine ⟨iff_of_false (by decide) (not_not.mpr ⟨n, hn, hroot, hother, fun hgranted => ?_⟩),
          by rw [hlocked.server]⟩
        simp [hfound.mpr hgranted] at hno
      · rename_i hyes
        obtain ⟨other, w₃, hread', hlinked⟩ := bind_some h
        clear h
        obtain ⟨rfl, -⟩ := mountPointAt_some hread'
        obtain ⟨u, w₄, hwrite, h⟩ := bind_some hlinked
        obtain ⟨u', w₅, hunlock, h⟩ := bind_some h
        obtain ⟨u'', w₆, hwrite', h⟩ := bind_some h
        obtain ⟨v, w₇, hwrite'', h⟩ := bind_some h
        cases h
        refine ⟨iff_of_true rfl ?_, ?_⟩
        · rintro ⟨n', hn', -, -, hrefused⟩
          rw [hat n' hn'] at hrefused
          exact hrefused (hfound.mp (by simpa using hyes))
        · rw [(writeStructure_after hwrite'').2.server]
          show w₆.server.listNodes = _
          rw [(writeStructure_after hwrite').2.server]
          show w₅.server.listNodes = _
          rw [(unlock_after hunlock).server, (writeStructure_after hwrite).2.server,
            hlocked.server]
          rfl

theorem freed_listNodes {ids : Ids} {node id : Nat} :
    (w.freed ids node id).listNodes = w.server.listNodes := by
  unfold World.freed
  split
  · split <;> rfl
  · rfl

theorem addMountPointToNamespace_after {namespaceAddress result : Nat} {mountPoint : MountPoint}
    (hapart : ∀ id, place namespaceAddress ≠ .mountPoint id)
    (h : addMountPointToNamespace namespaceAddress mountPoint w = some (result, w')) :
    (result = 0 ↔ MountPointAdded w.server w 0 namespaceAddress mountPoint.inode) ∧
      w'.server.listNodes = w.server.listNodes := by
  have hnode : mountPointsNodeSlot < 2 ^ initNodeDepth := by decide
  have hid : w.server.slotFor .mountPoints maxMountPoints < maxMountPoints :=
    searchEnd_lt (by decide)
  have hplace := place_mountPoint hid
  obtain ⟨a, w₁, halloc, h⟩ := bind_some h
  rcases allocStructure_after hnode (by decide) (by decide) halloc with
    ⟨rfl, hlock, hafter⟩ | ⟨hlock, ⟨rfl, hgranted, hempty, hafter⟩ | ⟨rfl, hwhy, hafter⟩⟩
  · cases h
    exact ⟨iff_of_false (by decide) fun hadded => hlock hadded.1, by rw [hafter.server]⟩
  · rw [taking_eq (by decide), hplace] at hafter
    rw [hplace] at hempty
    rw [if_neg (nodeAddress_ne_sizeMax hnode hid)] at h
    have hnodes₁ : w₁.server.listNodes = w.server.listNodes := by
      rw [hafter.server]
      rfl
    have hfreeing : ∀ (v v' : World) u, freeStructure .mountPoints mountPointsNodeSlot
        maxMountPoints (nodeAddress mountPointsNodeSlot
          (w.server.slotFor .mountPoints maxMountPoints)) v = some (u, v') →
        v'.server.listNodes = v.server.listNodes := by
      intro v v' u hfreeing
      obtain ⟨n, hfreed⟩ := freeStructure_after hnode hid hid hfreeing
      rw [hfreed.server, freed_listNodes]
    obtain ⟨found, w₂, hlock', h⟩ := bind_some h
    obtain ⟨hfound, hlocked⟩ := lock_after hlock'
    rw [hafter.resultAt] at hfound
    have hnodes₂ : w₂.server.listNodes = w.server.listNodes := by
      rw [hlocked.server, hnodes₁]
    split at h
    · rename_i hno
      obtain ⟨u, w₃, hfreed, h⟩ := bind_some h
      cases h
      refine ⟨iff_of_false (by decide) fun hadded => ?_, (hfreeing _ _ _ hfreed).trans hnodes₂⟩
      simp [hfound.mpr hadded.2.2.2.1] at hno
    · rename_i hyes
      have hgranted' := hfound.mp (by simpa using hyes)
      obtain ⟨u, w₃, hwrite, h⟩ := bind_some h
      obtain ⟨-, hwritten⟩ := writeStructure_after hwrite
      obtain ⟨linked, w₄, hlink, h⟩ := bind_some h
      obtain ⟨hlinked, hnodes⟩ := linkMountPoint_after hlink
      have hafter₃ := (hafter.trans hlocked).trans hwritten
      have hat : w₃.server.structures (place namespaceAddress) =
          w.server.structures (place namespaceAddress) := by
        rw [hwritten.server, hplace, setStructure_structures (hapart _), hlocked.server,
          hafter.server, setStructure_structures (hapart _)]
        rfl
      rw [hafter₃.linkRefused hat] at hlinked
      have hnodes₄ : w₄.server.listNodes = w.server.listNodes := by
        rw [hnodes, hwritten.server]
        exact hnodes₂
      split at h
      · rename_i hno
        obtain ⟨u', w₅, hfreed, h⟩ := bind_some h
        cases h
        refine ⟨iff_of_false (by decide) fun hadded => ?_,
          (hfreeing _ _ _ hfreed).trans hnodes₄⟩
        simp [hlinked.mpr hadded.2.2.2.2] at hno
      · rename_i hyes
        obtain ⟨u', w₅, hunlock, h⟩ := bind_some h
        cases h
        refine ⟨iff_of_true rfl ⟨hlock, hgranted, hempty, hgranted', ?_⟩, ?_⟩
        · exact hlinked.mp (by simpa using hyes)
        · rw [(unlock_after hunlock).server, hnodes₄]
  · cases h
    refine ⟨iff_of_false (by decide) fun hadded => ?_, ?_⟩
    · rcases hwhy with hrefused | hoccupied
      · exact hrefused hadded.2.1
      · rw [hplace, hadded.2.2.1] at hoccupied
        cases hoccupied
    · rw [hafter.server, taking_eq (by decide)]
      rfl

/-! Mounting. -/

theorem After.mountPointAdded {s s₁ s₂ : Server} {m n namespaceAddress inode : Nat}
    (h : After m s w w₁)
    (hat : s₁.structures (place namespaceAddress) = s₂.structures (place namespaceAddress))
    (hused : s₁.used .mountPoints = s₂.used .mountPoints)
    (hoccupied : ∀ id, s₁.occupied (.mountPoint id) = s₂.occupied (.mountPoint id)) :
    MountPointAdded s₁ w₁ n namespaceAddress inode ↔
      MountPointAdded s₂ w (m + n) namespaceAddress inode := by
  have hid : s₁.slotFor .mountPoints maxMountPoints = s₂.slotFor .mountPoints maxMountPoints := by
    simp only [Server.slotFor, firstFree, hused]
  simp only [MountPointAdded, h.resultAt, h.linkRefused hat, hid, hoccupied, Nat.add_assoc]

/-- The kernel has no memory for what is to be at an address. -/
def outOfMemoryAt (address : Nat) : Nat → Caller → Request → Answer :=
  fun _ _ request =>
    ⟨if request = .alloc address then eNoMem else 0, fun _ => false, none, 0, 0, 0⟩

def mountingInfo : DirectoryInfo :=
  ⟨0, true, 0, sizeMax⟩

end Cenix.Vfs
