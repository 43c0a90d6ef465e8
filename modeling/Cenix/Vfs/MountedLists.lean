import Cenix.Vfs.MountAtomicity

namespace Cenix.Vfs

open Programs

/-! Lists that directories are inserted into, and rounds over them. -/

/-- Every list that there is stays as it is. -/
def KeepsLists (w w' : World) : Prop :=
  ∀ index structure', w.server.structures (.listInfo index) = some structure' →
    w'.server.structures (.listInfo index) = some structure'

/-- A descriptor has been moved into an empty slot. -/
def MovedTo (w w' : World) (p : Place) : Prop :=
  w.server.fds p = none ∧ (w'.server.fds p).isSome

def isCreateFlagged (flags : BitVec 8) : Bool :=
  flags &&& mountCreate != 0

/-- Calls of `mounted_list_insert`, with the slot of each directory that is inserted and
whether it is flagged.  In between the server may do what leaves the lists alone. -/
inductive Inserts (index : Nat) (w : World) : List (Place × Bool) → World → Prop where
  | nil : Inserts index w [] w
  | other {ms : List (Place × Bool)} {w₁ w' : World} (h : Inserts index w ms w₁)
      (hkeeps : KeepsLists w₁ w') : Inserts index w ms w'
  | failed {ms : List (Place × Bool)} {w₁ w' : World} {directoryFd fuel result : Nat}
      {flags : BitVec 8} (h : Inserts index w ms w₁)
      (hinsert : mountedListInsert directoryFd flags fuel index w₁ = some (result, w'))
      (hfailed : result ≠ 0) : Inserts index w ms w'
  | moved {ms : List (Place × Bool)} {w₁ w' : World} {directoryFd fuel : Nat}
      {flags : BitVec 8} {p : Place} (h : Inserts index w ms w₁)
      (hinsert : mountedListInsert directoryFd flags fuel index w₁ = some (0, w'))
      (hmoved : MovedTo w₁ w' p) : Inserts index w (ms ++ [(p, isCreateFlagged flags)]) w'

/-- A callback that always returns and leaves the lists alone. -/
def Callback (fn : Nat → Bool → Vfs (Option Nat)) : Prop :=
  ∀ address flagged w, ∃ found w', fn address flagged w = some (found, w') ∧ KeepsLists w w'

/-- The callback is called with one argument after the other until it ends the search. -/
inductive Calls (fn : Nat → Bool → Vfs (Option Nat)) :
    World → List (Nat × Bool) → Nat → World → Prop where
  | done {w w' : World} (hrests : Rests w w') : Calls fn w [] eNoEnt w'
  | next {w w₁ w₂ w' : World} {address result : Nat} {flagged : Bool}
      {calls : List (Nat × Bool)} (hrests : Rests w w₁)
      (hcall : fn address flagged w₁ = some (none, w₂)) (h : Calls fn w₂ calls result w') :
      Calls fn w ((address, flagged) :: calls) result w'
  | stop {w w₁ w₂ w' : World} {address result : Nat} {flagged : Bool}
      {calls : List (Nat × Bool)} (hrests : Rests w w₁)
      (hcall : fn address flagged w₁ = some (some result, w₂)) (hrests' : Rests w₂ w') :
      Calls fn w ((address, flagged) :: calls) result w'

/-- A round calls every callback once for each directory, in this order, with an address that
leads to the directory's slot. -/
def IteratesOver (index : Nat) (ms : List (Place × Bool)) (w : World) : Prop :=
  ∃ calls : List (Nat × Bool),
    calls.map (fun (address, flagged) => (place address, flagged)) = ms ∧
    ∀ fn, Callback fn → ∃ fuel result w',
      iterateOverMountedList fn fuel index w = some (result, w') ∧ Calls fn w calls result w'

variable {w w₁ w' : World} {index : Nat} {ms : List (Place × Bool)}

/-! What a new entry leaves alone. -/

/-- Nothing has changed but in one slot, and not in it either if there was something. -/
structure OnlyFills (p : Place) (s s' : Server) : Prop where
  others : ∀ q, q ≠ p → s'.structures q = s.structures q ∧ s'.fds q = s.fds q
  filled : s.structures p ≠ none → s'.structures p = s.structures p

theorem OnlyFills.refl {p : Place} (s : Server) : OnlyFills p s s :=
  ⟨fun _ _ => ⟨rfl, rfl⟩, fun _ => rfl⟩

theorem OnlyFills.keepsLists (h : OnlyFills (.listInfo index) w.server w'.server) :
    KeepsLists w w' := by
  intro i structure' hat
  by_cases hi : Place.listInfo i = .listInfo index
  · rw [hi] at hat ⊢
    rw [h.filled (by simp [hat]), hat]
  · rw [(h.others _ hi).1, hat]

theorem KeepsLists.trans {w₂ : World} (h : KeepsLists w w₁) (h' : KeepsLists w₁ w₂) :
    KeepsLists w w₂ :=
  fun i structure' hat => h' i structure' (h i structure' hat)

theorem KeepsLists.of_server (h : w'.server = w.server) : KeepsLists w w' := by
  intro i structure' hat
  rw [h, hat]

/-- In a slot that is empty anything may be written, and it may be cleared again. -/
theorem onlyFills_of_empty {p : Place} {s s' : Server} (hempty : s.occupied p = false)
    (h : ∀ q, q ≠ p → s'.structures q = s.structures q ∧ s'.fds q = s.fds q) :
    OnlyFills p s s' := by
  refine ⟨h, fun hthere => absurd ?_ hthere⟩
  simpa [Server.occupied] using (Bool.or_eq_false_iff.mp hempty).1

theorem freed_others {ids : Ids} {node id : Nat} {q : Place} (hq : q ≠ nodePlace node id) :
    (w.freed ids node id).structures q = w.server.structures q ∧
      (w.freed ids node id).fds q = w.server.fds q := by
  unfold World.freed
  split
  · split <;> simp [Server.cleared, Server.setUsed, Server.setStructure, Server.setFd, hq]
  · exact ⟨rfl, rfl⟩

theorem createMountedListEntry_fills {a : Nat} (h : createMountedListEntry w = some (a, w')) :
    OnlyFills (.listInfo w.server.listId) w.server w'.server := by
  obtain ⟨address, w₁, halloc, h⟩ := bind_some h
  have hnode : mountedListInfoSlot < 2 ^ initNodeDepth := by decide
  have hid := w.server.listId_lt
  have hplace := place_infoAddress hid
  have hlistInfo : nodePlace mountedListInfoSlot w.server.listId = .listInfo w.server.listId :=
    congrArg Place.listInfo (Nat.mod_eq_of_lt hid)
  rcases allocStructure_after hnode (by decide) (by decide) halloc with
    ⟨rfl, -, hafter⟩ | ⟨-, ⟨ha, -, hempty, hafter⟩ | ⟨rfl, -, hafter⟩⟩
  · cases h
    exact hafter.server ▸ .refl _
  · have ha : address = mountedListInfoAddress w.server.listId := ha
    subst ha
    have hne : mountedListInfoAddress w.server.listId ≠ sizeMax :=
      nodeAddress_ne_sizeMax hnode hid
    rw [if_neg hne] at h
    rw [hplace, taking_eq (by decide)] at hafter
    rw [hplace] at hempty
    refine onlyFills_of_empty hempty fun q hq => ?_
    have hw₁ : w₁.server.structures q = w.server.structures q ∧
        w₁.server.fds q = w.server.fds q := by
      rw [hafter.server, setStructure_structures hq]
      exact ⟨rfl, rfl⟩
    have hfreed : ∀ {v v' : World} {u}, freeStructure .mountedLists mountedListInfoSlot
        maxMountedFs (mountedListInfoAddress w.server.listId) v = some (u, v') →
        v'.server.structures q = v.server.structures q ∧ v'.server.fds q = v.server.fds q := by
      intro v v' u hfreeing
      obtain ⟨n, hfreed⟩ := freeStructure_after hnode hid hid hfreeing
      rw [hfreed.server]
      exact freed_others (hlistInfo ▸ hq)
    obtain ⟨found, w₂, hlock, h⟩ := bind_some h
    rw [← (lock_after hlock).2.server] at hw₁
    split at h
    · obtain ⟨u, w₃, hfreeing, h⟩ := bind_some h
      cases h
      rw [(hfreed hfreeing).1, (hfreed hfreeing).2]
      exact hw₁
    · obtain ⟨u, w₃, hwrite, h⟩ := bind_some h
      obtain ⟨u', w₄, hunlock, h⟩ := bind_some h
      obtain ⟨result, w₅, halloc', h⟩ := bind_some h
      have hw₄ : w₄.server.structures q = w.server.structures q ∧
          w₄.server.fds q = w.server.fds q := by
        rw [(unlock_after hunlock).server, (writeStructure_after hwrite).2.server, hplace,
          setStructure_structures hq]
        exact hw₁
      have hw₅ : w₅.server.structures q = w.server.structures q ∧
          w₅.server.fds q = w.server.fds q := by
        rcases allocListNode_after halloc' with ⟨-, -, -, hafter'⟩ | ⟨-, -, hafter'⟩
        · rw [hafter'.server]
          exact hw₄
        · rw [hafter'.server]
          exact hw₄
      split at h
      · obtain ⟨u'', w₆, hfreeing, h⟩ := bind_some h
        cases h
        rw [(hfreed hfreeing).1, (hfreed hfreeing).2]
        exact hw₅
      · cases h
        exact hw₅
  · cases h
    rw [hafter.server, taking_eq (by decide)]
    exact ⟨fun _ _ => ⟨rfl, rfl⟩, fun _ => rfl⟩

/-! The first entry of a list. -/

theorem listInfoAt_some {address : Nat} {info : MountedListInfo}
    (h : listInfoAt address w = some (info, w')) :
    w' = w ∧ w.server.structures (place address) = some (.listInfo info) := by
  obtain ⟨structure', w₁, hread, h⟩ := bind_some h
  obtain ⟨rfl, hat⟩ := structureAt_some hread
  cases structure' with
  | listInfo => cases h; exact ⟨rfl, hat⟩
  | uninitialized | processData | directoryInfo | mountPoint | fsNamespace => cases h

def newEntry : MountedListInfo :=
  ⟨0, 0, sizeMax⟩

theorem firstClearSlot_newEntry : firstClearSlot newEntry.usedSlots = 0 := by decide

theorem firstClearSlot_inserted {flags : BitVec 8} :
    firstClearSlot (newEntry.inserted flags).usedSlots = 1 := by
  show firstClearSlot (0 ||| slotBit (firstClearSlot 0)) = 1
  decide

theorem inserted_notFull {flags : BitVec 8} :
    (newEntry.inserted flags).usedSlots ≠ BitVec.allOnes ptrBits := by
  show 0 ||| slotBit (firstClearSlot 0) ≠ _
  decide

theorem inserted_used {flags : BitVec 8} {i : Nat} (hi : i < ptrBits) :
    (newEntry.inserted flags).usedSlots.getLsbD i = decide (i = 0) := by
  have hused : (newEntry.inserted flags).usedSlots = 1 := by
    show 0 ||| slotBit (firstClearSlot 0) = 1
    decide
  rw [hused]
  revert i
  decide

theorem inserted_flagged {flags : BitVec 8} :
    (newEntry.inserted flags).createFlaggedSlots.getLsbD 0 = isCreateFlagged flags := by
  unfold MountedListInfo.inserted isCreateFlagged
  by_cases h : flags &&& mountCreate = 0
  · simp [h, newEntry]
  · rw [if_pos h, bne_iff_ne.mpr h]
    decide

theorem inserted_both {first second : BitVec 8} {i : Nat} (hi : i < 2) :
    ((newEntry.inserted first).inserted second).usedSlots.getLsbD i = true := by
  have hused : ((newEntry.inserted first).inserted second).usedSlots = 3 := by
    show (newEntry.inserted first).usedSlots |||
      slotBit (firstClearSlot (newEntry.inserted first).usedSlots) = 3
    rw [firstClearSlot_inserted]
    show (0 ||| slotBit (firstClearSlot 0)) ||| slotBit 1 = 3
    decide
  rw [hused]
  revert i
  decide

/-- The slots of an entry that are in use stay in use. -/
def Uses (index : Nat) (slots : List Nat) (w : World) : Prop :=
  ∃ info, w.server.structures (.listInfo index) = some (.listInfo info) ∧
    ∀ i ∈ slots, info.usedSlots.getLsbD i = true

variable {slots : List Nat}

theorem Uses.keeps (h : Uses index slots w) (hkeeps : KeepsLists w w') : Uses index slots w' := by
  obtain ⟨info, hat, hused⟩ := h
  exact ⟨info, hkeeps _ _ hat, hused⟩

/-- An entry is replaced by one with the same slots in use, and maybe more. -/
theorem Uses.writes {address : Nat} {info new : MountedListInfo} {u : Unit}
    (h : Uses index slots w)
    (hinfo : w.server.structures (place address) = some (.listInfo info))
    (hnew : ∀ i, info.usedSlots.getLsbD i = true → new.usedSlots.getLsbD i = true)
    (hwrite : writeStructure address (.listInfo new) w = some (u, w')) : Uses index slots w' := by
  obtain ⟨old, hat, hused⟩ := h
  obtain ⟨-, hwritten⟩ := writeStructure_after hwrite
  by_cases hplace : Place.listInfo index = place address
  · rw [hplace, hinfo] at hat
    cases hat
    refine ⟨new, ?_, fun i hi => hnew i (hused i hi)⟩
    rw [hwritten.server, hplace]
    simp [Server.setStructure]
  · refine ⟨old, ?_, hused⟩
    rw [hwritten.server, setStructure_structures hplace, hat]

theorem moveIntoList_keeps {caller : Caller} {source i slot result : Nat}
    (h : moveIntoList caller source i slot w = some (result, w')) : KeepsLists w w' := by
  intro j structure' hat
  rcases moveIntoList_after h with ⟨-, -, -, -, hafter⟩ | ⟨-, -, hafter⟩
  · rw [hafter.server]
    exact hat
  · rw [hafter.server]
    exact hat

theorem mountedListInsert_uses {directoryFd fuel i result : Nat} {flags : BitVec 8}
    (hw : Uses index slots w)
    (h : mountedListInsert directoryFd flags fuel i w = some (result, w')) :
    Uses index slots w' := by
  induction fuel generalizing i w with
  | zero => cases h
  | succ fuel ih =>
      unfold mountedListInsert at h
      split at h
      · cases h
        exact hw
      obtain ⟨found, w₁, hlock, h⟩ := bind_some h
      have hw₁ := hw.keeps (.of_server (lock_after hlock).2.server)
      split at h
      · cases h
        exact hw₁
      obtain ⟨info, w₂, hread, hinsert⟩ := bind_some h
      clear h
      obtain ⟨rfl, hinfo⟩ := listInfoAt_some hread
      split at hinsert
      · obtain ⟨next, w₃, hnext, h⟩ := bind_some hinsert
        obtain ⟨u, w₄, hunlock, h⟩ := bind_some h
        have hw₃ : Uses index slots w₃ := by
          unfold nextEntry at hnext
          split at hnext
          · obtain ⟨new, w₅, hcreate, hnext⟩ := bind_some hnext
            obtain ⟨u', w₆, hwrite, hnext⟩ := bind_some hnext
            cases hnext
            have hkeeps := (createMountedListEntry_fills hcreate).keepsLists
            rw [place_mountedListInfoAddress] at hinfo
            have hkept := hkeeps _ _ hinfo
            rw [← place_mountedListInfoAddress] at hkept
            exact (hw₁.keeps hkeeps).writes hkept (by exact fun _ hi => hi) hwrite
          · cases hnext
            exact hw₁
        have hw₄ := hw₃.keeps (.of_server (unlock_after hunlock).server)
        split at h
        · cases h
          exact hw₄
        · exact ih hw₄ h
      · obtain ⟨moved, w₃, hinsert, h⟩ := bind_some hinsert
        obtain ⟨u, w₄, hunlock, h⟩ := bind_some h
        cases h
        refine Uses.keeps ?_ (.of_server (unlock_after hunlock).server)
        obtain ⟨answer, w₅, hmove, hinsert⟩ := bind_some hinsert
        obtain ⟨u', w₆, hwrite, hinsert⟩ := bind_some hinsert
        cases hinsert
        have hkeeps := moveIntoList_keeps hmove
        unfold onlyIf at hwrite
        split at hwrite
        · rw [place_mountedListInfoAddress] at hinfo
          have hkept := hkeeps _ _ hinfo
          rw [← place_mountedListInfoAddress] at hkept
          refine (hw₁.keeps hkeeps).writes hkept (fun j hj => ?_) hwrite
          simp [hj]
        · cases hwrite
          exact hw₁.keeps hkeeps

theorem nextEntry_fds {info : MountedListInfo} {next : Nat} {i slot : Nat}
    (h : nextEntry index info w = some (next, w')) :
    w'.server.fds (.listSlot i slot) = w.server.fds (.listSlot i slot) := by
  unfold nextEntry at h
  split at h
  · obtain ⟨new, w₁, hcreate, h⟩ := bind_some h
    obtain ⟨u, w₂, hwrite, h⟩ := bind_some h
    cases h
    rw [(writeStructure_after hwrite).2.server]
    exact ((createMountedListEntry_fills hcreate).others _ (by simp)).2
  · cases h
    rfl

/-- There is such a slot for every insertion that succeeds. -/
theorem mountedListInsert_moves {directoryFd fuel i : Nat} {flags : BitVec 8}
    (h : mountedListInsert directoryFd flags fuel i w = some (0, w')) :
    ∃ j slot, MovedTo w w' (.listSlot j slot) := by
  induction fuel generalizing i w with
  | zero => cases h
  | succ fuel ih =>
      unfold mountedListInsert at h
      split at h
      · cases h
      obtain ⟨found, w₁, hlock, h⟩ := bind_some h
      have hserver := (lock_after hlock).2.server
      split at h
      · cases h
      obtain ⟨info, w₂, hread, hinsert⟩ := bind_some h
      clear h
      obtain ⟨rfl, -⟩ := listInfoAt_some hread
      split at hinsert
      · obtain ⟨next, w₃, hnext, h⟩ := bind_some hinsert
        obtain ⟨u, w₄, hunlock, h⟩ := bind_some h
        split at h
        · cases h
        · obtain ⟨j, slot, hnone, hsome⟩ := ih h
          refine ⟨j, slot, ?_, hsome⟩
          rwa [(unlock_after hunlock).server, nextEntry_fds hnext, hserver] at hnone
      · obtain ⟨moved, w₃, hinto, h⟩ := bind_some hinsert
        obtain ⟨u, w₄, hunlock, h⟩ := bind_some h
        cases h
        obtain ⟨answer, w₅, hmove, hinto⟩ := bind_some hinto
        obtain ⟨u', w₆, hwrite, hinto⟩ := bind_some hinto
        cases hinto
        rcases moveIntoList_after hmove with ⟨-, -, hsource, hempty, hafter⟩ | ⟨hne, -⟩
        · rw [hserver] at hsource hempty hafter
          refine ⟨i, firstClearSlot info.usedSlots, hempty, ?_⟩
          rw [onlyIf, if_pos rfl] at hwrite
          rw [(unlock_after hunlock).server, (writeStructure_after hwrite).2.server,
            hafter.server]
          simpa [Server.setStructure, Server.moved, Server.setFd] using hsource
        · exact absurd rfl hne

/-- What the first entry says about the directories that have been inserted. -/
def FirstEntry (index : Nat) : List (Place × Bool) → World → Prop
  | [], w => w.server.structures (.listInfo index) = some (.listInfo newEntry)
  | [m], w => ∃ flags, m = (.listSlot index 0, isCreateFlagged flags) ∧
      w.server.structures (.listInfo index) = some (.listInfo (newEntry.inserted flags))
  | first :: second :: _, w => first.1 = .listSlot index 0 ∧ second.1 = .listSlot index 1 ∧
      Uses index [0, 1] w

theorem FirstEntry.keeps (h : FirstEntry index ms w) (hkeeps : KeepsLists w w') :
    FirstEntry index ms w' := by
  match ms, h with
  | [], h => exact hkeeps _ _ h
  | [m], ⟨flags, hm, hat⟩ => exact ⟨flags, hm, hkeeps _ _ hat⟩
  | _ :: _ :: _, ⟨hfirst, hsecond, huses⟩ => exact ⟨hfirst, hsecond, huses.keeps hkeeps⟩

/-- The slot that has been empty and is filled is the one that has been inserted into. -/
theorem MovedTo.eq {source slot : Nat} {structure' : Option Structure} {p q : Place}
    (h : MovedTo w w' p)
    (hafter : w'.server = (w.server.moved source index slot).setStructure q structure') :
    p = .listSlot index slot := by
  by_contra hne
  obtain ⟨hnone, hsome⟩ := h
  rw [hafter] at hsome
  simp only [Server.setStructure, Server.moved, Server.setFd, Function.update_of_ne hne] at hsome
  by_cases hsource : p = place source
  · rw [hsource, Function.update_self] at hsome
    cases hsome
  · rw [Function.update_of_ne hsource, hnone] at hsome
    cases hsome

theorem FirstEntry.failed {directoryFd fuel result : Nat} {flags : BitVec 8}
    (hid : index < maxMountedFs) (h : FirstEntry index ms w)
    (hinsert : mountedListInsert directoryFd flags fuel index w = some (result, w'))
    (hfailed : result ≠ 0) : FirstEntry index ms w' := by
  match ms, h with
  | [], h =>
      rcases mountedListInsert_entry hid h (by decide) hinsert with ⟨hzero, -⟩ | ⟨-, -, hserver⟩
      · exact absurd hzero hfailed
      · exact FirstEntry.keeps h (.of_server hserver)
  | [m], ⟨flags', hm, hat⟩ =>
      rcases mountedListInsert_entry hid hat inserted_notFull hinsert with
        ⟨hzero, -⟩ | ⟨-, -, hserver⟩
      · exact absurd hzero hfailed
      · exact @FirstEntry.keeps _ _ _ [m] ⟨flags', hm, hat⟩ (.of_server hserver)
  | _ :: _ :: _, ⟨hfirst, hsecond, huses⟩ =>
      exact ⟨hfirst, hsecond, mountedListInsert_uses huses hinsert⟩

theorem FirstEntry.moved {directoryFd fuel : Nat} {flags : BitVec 8} {p : Place}
    (hid : index < maxMountedFs) (h : FirstEntry index ms w)
    (hinsert : mountedListInsert directoryFd flags fuel index w = some (0, w'))
    (hmoved : MovedTo w w' p) : FirstEntry index (ms ++ [(p, isCreateFlagged flags)]) w' := by
  match ms, h with
  | [], h =>
      rcases mountedListInsert_entry hid h (by decide) hinsert with ⟨-, -, hafter⟩ | ⟨hne, -⟩
      · rw [firstClearSlot_newEntry] at hafter
        refine ⟨flags, by rw [hmoved.eq hafter.server], ?_⟩
        rw [hafter.server]
        simp [Server.setStructure]
      · exact absurd rfl hne
  | [m], ⟨flags', hm, hat⟩ =>
      rcases mountedListInsert_entry hid hat inserted_notFull hinsert with
        ⟨-, -, hafter⟩ | ⟨hne, -⟩
      · rw [firstClearSlot_inserted] at hafter
        refine ⟨by rw [hm], hmoved.eq hafter.server, (newEntry.inserted flags').inserted flags,
          ?_, fun i hi => inserted_both ?_⟩
        · rw [hafter.server]
          simp [Server.setStructure]
        · simp only [List.mem_cons, List.not_mem_nil, or_false] at hi
          omega
      · exact absurd rfl hne
  | _ :: _ :: _, ⟨hfirst, hsecond, huses⟩ =>
      exact ⟨hfirst, hsecond, mountedListInsert_uses huses hinsert⟩

theorem Inserts.firstEntry {w₀ : World} (h : Inserts index w ms w')
    (hcreate : createMountedListEntry w₀ = some (index, w)) (hne : index ≠ sizeMax) :
    index < maxMountedFs ∧ FirstEntry index ms w' := by
  induction h with
  | nil =>
      cases createMountedListEntry_creates hcreate with
      | refused | undone | leaked => exact absurd rfl hne
      | created hlock hundone hcreated hnew hafter =>
          have hid := w₀.server.listId_lt
          have hlistInfo : nodePlace mountedListInfoSlot w₀.server.listId =
              .listInfo w₀.server.listId := congrArg Place.listInfo (Nat.mod_eq_of_lt hid)
          refine ⟨hid, ?_⟩
          show w.server.structures _ = _
          rw [hafter.server]
          simp [Server.allocated, Server.setStructure, hlistInfo, newEntry]
  | other _ hkeeps ih => exact ⟨ih.1, ih.2.keeps hkeeps⟩
  | failed _ hinsert hfailed ih => exact ⟨ih.1, ih.2.failed ih.1 hinsert hfailed⟩
  | moved _ hinsert hmoved ih => exact ⟨ih.1, ih.2.moved ih.1 hinsert hmoved⟩

/-! Rounds. -/

variable {fn : Nat → Bool → Vfs (Option Nat)} {fuel result : Nat}

theorem iterateOverMountedList_entry {info : MountedListInfo} (hid : index < maxMountedFs)
    (hinfo : w.server.structures (.listInfo index) = some (.listInfo info))
    (h : iterateOverMountedList fn fuel index w = some (result, w')) :
    w.resultAt 0 .iterateOverMountedList (.lock (mountedListInfoAddress index)) = 0 ∧
      ∃ w₁ found w₂ w₃, Rests w w₁ ∧
        iterateOverSlots index info fn (List.range ptrBits) w₁ = some (found, w₂) ∧
        (∀ r, found = some r → r = result ∧ w₃ = w') := by
  cases fuel with
  | zero => cases h
  | succ fuel =>
      unfold iterateOverMountedList at h
      rw [if_neg (show index ≠ sizeMax by simp only [maxMountedFs, sizeMax, ptrBits] at *; omega)]
        at h
      obtain ⟨found, w₁, hlock, h⟩ := bind_some h
      obtain ⟨hfound, hlocked⟩ := lock_after hlock
      split at h
      · cases h
      · rename_i hyes
        obtain ⟨read, w₂, hread, h⟩ := bind_some h
        rw [listInfoAt_of (by rw [place_infoAddress hid, hlocked.server]; exact hinfo)] at hread
        cases hread
        obtain ⟨stopped, w₃, hslots, h⟩ := bind_some h
        obtain ⟨u, w₄, hunlock, h⟩ := bind_some h
        refine ⟨hfound.mp (by simpa using hyes), w₁, stopped, w₃, w₄,
          lock_rests (by decide) _ _ _ hlock, hslots, fun r hr => ?_⟩
        subst hr
        cases h
        exact ⟨rfl, rfl⟩

theorem Calls.after {calls : List (Nat × Bool)} (h : Calls fn w₁ calls result w')
    (hrests : Rests w w₁) : Calls fn w calls result w' := by
  cases h with
  | done hrests' => exact .done (IsTrans.trans _ _ _ hrests hrests')
  | next hrests' hcall h => exact .next (IsTrans.trans _ _ _ hrests hrests') hcall h
  | stop hrests' hcall h => exact .stop (IsTrans.trans _ _ _ hrests hrests') hcall h

theorem iterateOverSlots_unused {info : MountedListInfo}
    (h : ∀ i ∈ slots, info.usedSlots.getLsbD i = false) :
    iterateOverSlots index info fn slots w = some (none, w) := by
  induction slots with
  | nil => rfl
  | cons i slots ih =>
      rw [iterateOverSlots, if_pos (h i (List.mem_cons_self ..))]
      exact ih fun j hj => h j (List.mem_cons_of_mem _ hj)

theorem iterateOverSlots_used {info : MountedListInfo} {i : Nat}
    (h : info.usedSlots.getLsbD i = true) :
    iterateOverSlots index info fn (i :: slots) w =
      (fn (mountedListSlot index i) (info.createFlaggedSlots.getLsbD i) w).bind
        fun (found, w₁) => match found with
          | some result => some (some result, w₁)
          | none => iterateOverSlots index info fn slots w₁ := by
  rw [iterateOverSlots, if_neg (by simp [h])]
  show Option.bind _ _ = _
  congr 1
  funext r
  obtain ⟨found, w₁⟩ := r
  cases found <;> rfl

/-- A round over the last entry of a list. -/
theorem iterateOverMountedList_calls {info : MountedListInfo} {calls : List (Nat × Bool)}
    (hid : index < maxMountedFs)
    (hinfo : w.server.structures (.listInfo index) = some (.listInfo info))
    (hlast : info.nextIndex = sizeMax)
    (hgranted : w.resultAt 0 .iterateOverMountedList (.lock (mountedListInfoAddress index)) = 0)
    (hslots : ∀ w₁, ∃ found w₂,
      iterateOverSlots index info fn (List.range ptrBits) w₁ = some (found, w₂) ∧
        ∀ w', Rests w₂ w' → Calls fn w₁ calls (found.getD eNoEnt) w') :
    ∃ result w', iterateOverMountedList fn 2 index w = some (result, w') ∧
      Calls fn w calls result w' := by
  obtain ⟨found, w₁, hlock⟩ := lock_some .iterateOverMountedList (mountedListInfoAddress index) w
  obtain ⟨hfound, hlocked⟩ := lock_after hlock
  have hread : listInfoAt (mountedListInfoAddress index) w₁ = some (info, w₁) :=
    listInfoAt_of (by rw [place_infoAddress hid, hlocked.server]; exact hinfo)
  obtain ⟨stopped, w₂, hrun, hcalls⟩ := hslots w₁
  obtain ⟨w₃, hunlock⟩ := unlock_some .iterateOverMountedList (mountedListInfoAddress index) w₂
  refine ⟨stopped.getD eNoEnt, w₃, ?_,
    (hcalls w₃ (unlock_rests (by decide) _ _ _ hunlock)).after
      (lock_rests (by decide) _ _ _ hlock)⟩
  rw [iterateOverMountedList,
    if_neg (show index ≠ sizeMax by simp only [maxMountedFs, sizeMax, ptrBits] at *; omega),
    bind_of hlock, hfound.mpr hgranted]
  simp only [Bool.not_true, Bool.false_eq_true, if_false]
  rw [bind_of hread, bind_of hrun, bind_of hunlock]
  cases stopped with
  | some result => rfl
  | none =>
      rw [hlast]
      rfl

theorem mountedListSlot_first (hid : index < maxMountedFs) :
    place (mountedListSlot index 0) = .listSlot index 0 :=
  (place_address_eq_place (d := ⟨index, 0, false⟩) hid (Nat.two_pow_pos _)).mpr rfl

theorem mountedListSlot_second (hid : index < maxMountedFs) :
    place (mountedListSlot index 1) ≠ .listSlot index 1 := by
  intro heq
  have hzero : 1 = 0 :=
    (place_address_eq_place (d := ⟨index, 1, false⟩) hid
      (by exact Nat.one_lt_two_pow (by decide))).mp heq
  cases hzero

theorem FirstEntry.iteratesOver (hid : index < maxMountedFs) (h : FirstEntry index ms w)
    (hfew : ms.length ≤ 1)
    (hgranted : w.resultAt 0 .iterateOverMountedList
      (.lock (mountedListInfoAddress index)) = 0) : IteratesOver index ms w := by
  match ms, h with
  | [], hinfo =>
      refine ⟨[], rfl, fun fn _ => ⟨2, ?_⟩⟩
      refine iterateOverMountedList_calls hid hinfo rfl hgranted fun w₁ => ⟨none, w₁, ?_, ?_⟩
      · exact iterateOverSlots_unused fun i _ => by simp [newEntry]
      · exact fun w' hrests => .done hrests
  | [m], ⟨flags, hm, hinfo⟩ =>
      refine ⟨[(mountedListSlot index 0, isCreateFlagged flags)], ?_, fun fn hfn => ⟨2, ?_⟩⟩
      · rw [hm, ← mountedListSlot_first hid]
        rfl
      refine iterateOverMountedList_calls hid hinfo rfl hgranted fun w₁ => ?_
      obtain ⟨found, w₂, hcall, -⟩ := hfn (mountedListSlot index 0) (isCreateFlagged flags) w₁
      have hrange : List.range ptrBits = 0 :: List.range' 1 (ptrBits - 1) := by decide
      refine ⟨found, w₂, ?_, fun w' hrests => ?_⟩
      · rw [hrange, iterateOverSlots_used (by rw [inserted_used (by decide)]; rfl),
          inserted_flagged, hcall]
        cases found with
        | some result => rfl
        | none =>
            refine iterateOverSlots_unused fun i hi => ?_
            obtain ⟨hpos, hlt⟩ := List.mem_range'_1.mp hi
            rw [inserted_used (by simp only [ptrBits] at hlt ⊢; omega)]
            exact decide_eq_false (by omega)
      · cases found with
        | some result => exact .stop (Std.Refl.refl w₁) hcall hrests
        | none => exact .next (Std.Refl.refl w₁) hcall (.done hrests)
  | _ :: _ :: _, _ => simp at hfew

/-- Ends the search at the second call, with the address that it gets. -/
def secondCall (b : Bool) (address : Nat) (_ : Bool) : Vfs (Option Nat) := do
  let s ← getServer
  if s.used .namespaces 0 = b then
    modifyServer (·.setUsed .namespaces 0 !b)
    return none
  else
    return some address

theorem secondCall_of_eq {b : Bool} {address : Nat} {flagged : Bool}
    (h : w.server.used .namespaces 0 = b) : secondCall b address flagged w =
      some (none, { w with server := w.server.setUsed .namespaces 0 !b }) := by
  show (if w.server.used .namespaces 0 = b then _ else _ : Vfs (Option Nat)) w = _
  rw [if_pos h]
  rfl

theorem secondCall_of_ne {b : Bool} {address : Nat} {flagged : Bool}
    (h : w.server.used .namespaces 0 = !b) :
    secondCall b address flagged w = some (some address, w) := by
  show (if w.server.used .namespaces 0 = b then _ else _ : Vfs (Option Nat)) w = _
  rw [if_neg (by rw [h]; cases b <;> decide)]
  rfl

theorem secondCall_callback {b : Bool} : Callback (secondCall b) := by
  intro address flagged w
  by_cases h : w.server.used .namespaces 0 = b
  · exact ⟨_, _, secondCall_of_eq h, fun _ _ hat => hat⟩
  · refine ⟨_, _, secondCall_of_ne ?_, fun _ _ hat => hat⟩
    cases b <;> simpa using h

/-- The address of the second directory leads somewhere else. -/
theorem FirstEntry.not_iteratesOver {first second : Place × Bool}
    (hid : index < maxMountedFs) (h : FirstEntry index (first :: second :: ms) w) :
    ¬IteratesOver index (first :: second :: ms) w := by
  rintro ⟨calls, hplaces, hcalls⟩
  obtain ⟨-, hsecond, info, hinfo, hused⟩ := h
  obtain ⟨fuel, result, w', hrun, hmade⟩ :=
    hcalls (secondCall (w.server.used .namespaces 0)) secondCall_callback
  obtain ⟨-, w₁, found, w₂, w₃, hrests, hslots, hstopped⟩ :=
    iterateOverMountedList_entry hid hinfo hrun
  have hflagged : (w.server.setUsed .namespaces 0
      !w.server.used .namespaces 0).used .namespaces 0 = !w.server.used .namespaces 0 := by
    simp [setUsed_used]
  have hrange : List.range ptrBits = 0 :: 1 :: List.range' 2 (ptrBits - 2) := by decide
  have hresult : mountedListSlot index 1 = result := by
    rw [hrange, iterateOverSlots_used (hused 0 (by simp)),
      secondCall_of_eq (by rw [hrests.server])] at hslots
    simp only [Option.bind_some] at hslots
    rw [iterateOverSlots_used (hused 1 (by simp)),
      secondCall_of_ne (by rw [hrests.server]; exact hflagged)] at hslots
    simp only [Option.bind_some, Option.some.injEq, Prod.mk.injEq] at hslots
    exact (hstopped _ hslots.1.symm).1
  match calls, hplaces with
  | (a, f) :: (a', f') :: calls, hplaces =>
      have ha' : place a' = .listSlot index 1 := by
        rw [← hsecond]
        have hpair := (List.cons.inj (List.cons.inj hplaces).2).1
        exact congrArg Prod.fst hpair
      have hlast : result = a' := by
        cases hmade with
        | stop hrests' hcall =>
            rw [secondCall_of_eq (by rw [hrests'.server])] at hcall
            cases hcall
        | next hrests' hcall hmade =>
            rw [secondCall_of_eq (by rw [hrests'.server])] at hcall
            cases hcall
            cases hmade with
            | next hrests'' hcall' =>
                rw [secondCall_of_ne (by rw [hrests''.server, hrests'.server]; exact hflagged)]
                  at hcall'
                cases hcall'
            | stop hrests'' hcall' =>
                rw [secondCall_of_ne (by rw [hrests''.server, hrests'.server]; exact hflagged)]
                  at hcall'
                cases hcall'
                rfl
      rw [← hlast, ← hresult] at ha'
      exact mountedListSlot_second hid ha'

end Cenix.Vfs
