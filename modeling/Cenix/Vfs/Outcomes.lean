import Cenix.Vfs.Rounds

namespace Cenix.Vfs

open Programs

/-! What each system call does, by how the kernel answers it. -/

/-- `w'` is `n` system calls later than `w`, with the server `s`. -/
structure After (n : Nat) (s : Server) (w w' : World) : Prop where
  answers : w'.answers = w.answers
  time : w'.time = w.time + n
  server : w'.server = s

/-- The result that the kernel gives to a request `n` system calls later. -/
def World.resultAt (w : World) (n : Nat) (caller : Caller) (request : Request) : Nat :=
  (w.answers (w.time + n) caller request).result

variable {w w₁ w' : World} {s s' : Server} {m n : Nat} {caller : Caller} {address : Nat}

namespace After

theorem refl (w : World) : After 0 w.server w w :=
  ⟨rfl, rfl, rfl⟩

theorem trans (h : After m s w w₁) (h' : After n s' w₁ w') : After (m + n) s' w w' :=
  ⟨h'.answers.trans h.answers, by rw [h'.time, h.time, Nat.add_assoc], h'.server⟩

theorem resultAt (h : After m s w w₁) (n : Nat) (caller : Caller) (request : Request) :
    w₁.resultAt n caller request = w.resultAt (m + n) caller request := by
  rw [World.resultAt, h.answers, h.time, Nat.add_assoc, World.resultAt]

end After

theorem lock_after {found : Bool} (h : lock caller address w = some (found, w')) :
    (found = true ↔ w.resultAt 0 caller (.lock address) = 0) ∧ After 1 w.server w w' := by
  cases h
  exact ⟨beq_iff_eq, rfl, rfl, rfl⟩

theorem unlock_after {u : Unit} (h : unlock caller address w = some (u, w')) :
    After 0 w.server w w' := by
  cases h
  exact ⟨rfl, rfl, rfl⟩

theorem modifyServer_after {f : Server → Server} {u : Unit}
    (h : modifyServer f w = some (u, w')) : After 0 (f w.server) w w' := by
  cases h
  exact ⟨rfl, rfl, rfl⟩

theorem onlyIf_after {c : Prop} [Decidable c] {f : Server → Server} {u : Unit}
    (h : onlyIf c (modifyServer f) w = some (u, w')) :
    After 0 (if c then f w.server else w.server) w w' := by
  unfold onlyIf at h
  split at h
  · rename_i hc
    rw [if_pos hc]
    exact modifyServer_after h
  · rename_i hc
    rw [if_neg hc]
    cases h
    exact .refl w

theorem writeStructure_after {structure' : Structure} {u : Unit}
    (h : writeStructure address structure' w = some (u, w')) :
    w.server.structures (place address) ≠ none ∧
      After 0 (w.server.setStructure (place address) (some structure')) w w' := by
  obtain ⟨old, w₁, hold, hmodify⟩ := bind_some h
  obtain ⟨rfl, hat⟩ := structureAt_some hold
  exact ⟨by simp [hat], modifyServer_after hmodify⟩

theorem allocUntyped_after {result : Nat} (h : allocUntyped caller address w = some (result, w')) :
    (result = 0 ∧ w.resultAt 0 caller (.alloc address) = 0 ∧
        w.server.occupied (place address) = false ∧
        After 1 (w.server.setStructure (place address) (some .uninitialized)) w w') ∨
      (result ≠ 0 ∧ (w.resultAt 0 caller (.alloc address) ≠ 0 ∨
        w.server.occupied (place address) = true) ∧ After 1 w.server w w') := by
  obtain ⟨answer, w₁, hask, h⟩ := bind_some h
  cases hask
  obtain ⟨s, w₂, hget, h⟩ := bind_some h
  cases hget
  split at h
  · rename_i hrefused
    cases h
    exact .inr ⟨hrefused, .inl hrefused, rfl, rfl, rfl⟩
  · rename_i hgranted
    have hgranted : w.resultAt 0 caller (.alloc address) = 0 := not_not.mp hgranted
    split at h
    · rename_i hoccupied
      cases h
      exact .inr ⟨by decide, .inr hoccupied, rfl, rfl, rfl⟩
    · rename_i hfree
      cases h
      exact .inl ⟨rfl, hgranted, by simpa using hfree, rfl, rfl, rfl⟩

/-- What the server has after `NODE_DELETE`. -/
def Server.cleared (s : Server) (p : Place) : Server :=
  (s.setStructure p none).setFd p none

theorem deleteResult_eq_zero {answer slotBits slot : Nat} {occupied : Bool}
    (hslot : slot < 2 ^ slotBits) :
    deleteResult answer slotBits slot occupied = 0 ↔ answer = 0 ∧ occupied = true := by
  unfold deleteResult
  have hne : eNoCapability ≠ 0 := by decide
  split
  · rename_i hrefused
    exact iff_of_false hrefused fun h => hrefused h.1
  · rename_i hgranted
    rw [if_neg (by omega)]
    cases occupied with
    | false => simp [hne]
    | true =>
        simp only [if_true, and_true, true_iff]
        exact not_not.mp hgranted

theorem nodeDelete_after {node slot result : Nat} (hslot : slot < 2 ^ nodeSlotBits node)
    (h : nodeDelete caller node slot w = some (result, w')) :
    (result = 0 ↔ w.resultAt 0 caller (.delete node slot) = 0 ∧
        w.server.occupied (nodePlace node slot) = true) ∧
      After 1 (if result = 0 then w.server.cleared (nodePlace node slot) else w.server)
        w w' := by
  obtain ⟨answer, w₁, hask, h⟩ := bind_some h
  cases hask
  obtain ⟨s, w₂, hget, h⟩ := bind_some h
  cases hget
  obtain ⟨u, w₃, hrecord, h⟩ := bind_some h
  cases hrecord
  obtain ⟨u', w₄, hmodify, h⟩ := bind_some h
  cases h
  have hafter := onlyIf_after hmodify
  exact ⟨deleteResult_eq_zero hslot, hafter.answers, hafter.time, hafter.server⟩

theorem markSlotUnused_after {ids : Ids} {maxItems slotNumber : Nat} {u : Unit}
    (hslot : slotNumber < maxItems)
    (h : markSlotUnused ids maxItems slotNumber w = some (u, w')) :
    After 1 (if w.resultAt 0 .markSlotUnused (.lock ids.address) = 0 then
      w.server.setUsed ids slotNumber false else w.server) w w' := by
  obtain ⟨found, w₁, hlock, h⟩ := bind_some h
  obtain ⟨hfound, hlocked⟩ := lock_after hlock
  split at h
  · rename_i hyes
    rw [if_pos (hfound.mp hyes)]
    obtain ⟨u', w₂, hmodify, hunlock⟩ := bind_some h
    have hmodified := onlyIf_after hmodify
    rw [if_pos hslot, hlocked.server] at hmodified
    have hunlocked := unlock_after hunlock
    rw [hmodified.server] at hunlocked
    exact (hlocked.trans hmodified).trans hunlocked
  · rename_i hno
    rw [if_neg fun hgranted => hno (hfound.mpr hgranted)]
    cases h
    exact hlocked

/-- What the server has after `free_structure` for a slot with an id. -/
def World.freed (w : World) (ids : Ids) (node id : Nat) : Server :=
  if w.resultAt 0 .freeStructure (.delete node id) = 0 ∧
      w.server.occupied (nodePlace node id) = true then
    if w.resultAt 1 .markSlotUnused (.lock ids.address) = 0 then
      (w.server.cleared (nodePlace node id)).setUsed ids id false
    else
      w.server.cleared (nodePlace node id)
  else
    w.server

theorem freeStructure_after {ids : Ids} {node id maxItems : Nat} {u : Unit}
    (hnode : node < 2 ^ initNodeDepth) (hid : id < maxItems) (hslot : id < 2 ^ nodeSlotBits node)
    (h : freeStructure ids node maxItems (nodeAddress node id) w = some (u, w')) :
    ∃ n, After n (w.freed ids node id) w w' := by
  unfold freeStructure at h
  rw [nodeAddress_div id hnode] at h
  obtain ⟨result, w₁, hdelete, h⟩ := bind_some h
  obtain ⟨hresult, hdeleted⟩ := nodeDelete_after hslot hdelete
  unfold World.freed
  split at h
  · rename_i hzero
    rw [if_pos hzero] at hdeleted
    have hmarked := markSlotUnused_after hid h
    rw [hdeleted.resultAt, hdeleted.server] at hmarked
    rw [if_pos (hresult.mp hzero)]
    exact ⟨2, hdeleted.trans hmarked⟩
  · rename_i hfailed
    rw [if_neg hfailed] at hdeleted
    rw [if_neg fun hdone => hfailed (hresult.mpr hdone)]
    cases h
    exact ⟨1, hdeleted⟩

/-- The server once `find_slot_for` has set the bit that it has found. -/
def Server.taking (s : Server) (ids : Ids) (maxItems : Nat) : Server :=
  match firstFree s ids maxItems with
  | some id => s.setUsed ids id true
  | none => s

/-- The id that `find_slot_for` calls its callback with. -/
def Server.slotFor (s : Server) (ids : Ids) (maxItems : Nat) : Nat :=
  (searchEnd maxItems (firstFree s ids maxItems)).2

/-- The server once `find_slot_for` has cleared a bit after a failure. -/
def Server.untaking (s s' : Server) (ids : Ids) (maxItems : Nat) : Server :=
  let (word, id) := searchEnd maxItems (firstFree s ids maxItems)
  s'.setUsed ids (clearedBit word id) false

theorem findSlotFor_after {ids : Ids} {maxItems a : Nat} {fn : Nat → Vfs Nat}
    (h : findSlotFor ids maxItems fn w = some (a, w')) :
    (a = sizeMax ∧ w.resultAt 0 .findSlotFor (.lock ids.address) ≠ 0 ∧
        After 1 w.server w w') ∨
      (w.resultAt 0 .findSlotFor (.lock ids.address) = 0 ∧ ∃ w₁ w₂,
        After 1 (w.server.taking ids maxItems) w w₁ ∧
        fn (w.server.slotFor ids maxItems) w₁ = some (a, w₂) ∧
        After 0 (if a = sizeMax then w.server.untaking w₂.server ids maxItems else w₂.server)
          w₂ w') := by
  obtain ⟨found, w₁, hlock, h⟩ := bind_some h
  obtain ⟨hfound, hlocked⟩ := lock_after hlock
  split at h
  · rename_i hno
    cases h
    exact .inl ⟨rfl, fun hgranted => by simp [hfound.mpr hgranted] at hno, hlocked⟩
  · rename_i hyes
    refine .inr ⟨hfound.mp (by simpa using hyes), ?_⟩
    obtain ⟨s, w₂, hget, h⟩ := bind_some h
    cases hget
    rw [hlocked.server] at h
    obtain ⟨u, w₃, htake, h⟩ := bind_some h
    obtain ⟨b, w₄, hcall, h⟩ := bind_some h
    obtain ⟨u', w₅, huntake, h⟩ := bind_some h
    obtain ⟨u'', w₆, hunlock, h⟩ := bind_some h
    cases h
    have htaken := onlyIf_after htake
    have huntaken := onlyIf_after huntake
    have hunlocked := unlock_after hunlock
    rw [huntaken.server] at hunlocked
    rw [hlocked.server] at htaken
    have htaken : After 0 (w.server.taking ids maxItems) w₁ w₃ := by
      unfold Server.taking
      cases hfree : firstFree w.server ids maxItems with
      | none => simpa [hfree] using htaken
      | some id => simpa [hfree] using htaken
    exact ⟨w₃, w₄, hlocked.trans htaken, hcall, huntaken.trans hunlocked⟩

theorem allocStructure_after {ids : Ids} {node maxItems a : Nat} (hnode : node < 2 ^ initNodeDepth)
    (hmax : maxItems ≤ 2 ^ directoryBits) (hpos : 0 < maxItems)
    (h : allocStructure ids node maxItems w = some (a, w')) :
    (a = sizeMax ∧ w.resultAt 0 .findSlotFor (.lock ids.address) ≠ 0 ∧
        After 1 w.server w w') ∨
      (w.resultAt 0 .findSlotFor (.lock ids.address) = 0 ∧
        (a = nodeAddress node (w.server.slotFor ids maxItems) ∧
            w.resultAt 1 .allocStructure (.alloc a) = 0 ∧
            w.server.occupied (place a) = false ∧
            After 2 ((w.server.taking ids maxItems).setStructure (place a)
              (some .uninitialized)) w w' ∨
          a = sizeMax ∧ (w.resultAt 1 .allocStructure
              (.alloc (nodeAddress node (w.server.slotFor ids maxItems))) ≠ 0 ∨
            w.server.occupied (place (nodeAddress node (w.server.slotFor ids maxItems))) =
              true) ∧
            After 2 (w.server.untaking (w.server.taking ids maxItems) ids maxItems) w w')) := by
  rcases findSlotFor_after h with hrefused | ⟨hgranted, w₁, w₂, htaken, hcall, hafter⟩
  · exact .inl hrefused
  · refine .inr ⟨hgranted, ?_⟩
    have hoccupied : ∀ p, (w.server.taking ids maxItems).occupied p = w.server.occupied p := by
      intro p
      unfold Server.taking
      split <;> rfl
    have hid : w.server.slotFor ids maxItems < maxItems := searchEnd_lt hpos
    have hne := nodeAddress_ne_sizeMax hnode (Nat.lt_of_lt_of_le hid hmax)
    obtain ⟨result, w₃, halloc, hcall⟩ := bind_some hcall
    have hresult := htaken.resultAt 0 .allocStructure
      (.alloc (nodeAddress node (w.server.slotFor ids maxItems)))
    rcases allocUntyped_after halloc with ⟨hzero, hdone, hfree, hallocated⟩ | ⟨hfailed, hwhy, hkept⟩
    · rw [if_pos hzero] at hcall
      cases hcall
      rw [if_neg hne] at hafter
      rw [htaken.server, hoccupied] at hfree
      rw [hallocated.server, htaken.server] at hafter
      exact .inl ⟨rfl, hresult ▸ hdone, hfree, (htaken.trans hallocated).trans hafter⟩
    · rw [if_neg hfailed] at hcall
      cases hcall
      rw [if_pos rfl, hkept.server, htaken.server] at hafter
      rw [hresult, htaken.server, hoccupied] at hwhy
      exact .inr ⟨rfl, hwhy, (htaken.trans hkept).trans hafter⟩

theorem allocListNode_after {index result : Nat}
    (h : allocListNode caller index w = some (result, w')) :
    (result = 0 ∧ w.resultAt 0 caller (.alloc (mountedListNodeAddress index)) = 0 ∧
        w.server.listNodes index = false ∧
        After 1 { w.server with listNodes := Function.update w.server.listNodes index true }
          w w') ∨
      (result ≠ 0 ∧ w.resultAt 0 caller (.alloc (mountedListNodeAddress index)) ≠ 0 ∧
        After 1 w.server w w') := by
  obtain ⟨answer, w₁, hask, h⟩ := bind_some h
  cases hask
  obtain ⟨s, w₂, hget, h⟩ := bind_some h
  cases hget
  split at h
  · rename_i hrefused
    cases h
    exact .inr ⟨hrefused, hrefused, rfl, rfl, rfl⟩
  · rename_i hgranted
    split at h
    · cases h
    · rename_i hnew
      cases h
      exact .inl ⟨rfl, not_not.mp hgranted, Bool.not_eq_true _ ▸ hnew, rfl, rfl, rfl⟩

/-- What the server has once a descriptor is in a slot of a list. -/
def Server.moved (s : Server) (source index slot : Nat) : Server :=
  (s.setFd (place source) none).setFd (.listSlot index slot) (s.fds (place source))

theorem moveIntoList_after {source index slot result : Nat}
    (h : moveIntoList caller source index slot w = some (result, w')) :
    (result = 0 ∧ w.resultAt 0 caller (.move source index slot) = 0 ∧
        (w.server.fds (place source)).isSome ∧ w.server.fds (.listSlot index slot) = none ∧
        After 1 (w.server.moved source index slot) w w') ∨
      (result ≠ 0 ∧ (w.resultAt 0 caller (.move source index slot) ≠ 0 ∨
        (w.server.listNodes index = false ∨ slot ≥ 2 ^ mountedListEntryBits) ∨
        w.server.fds (.listSlot index slot) ≠ none ∨ w.server.fds (place source) = none) ∧
        After 1 w.server w w') := by
  obtain ⟨answer, w₁, hask, h⟩ := bind_some h
  cases hask
  obtain ⟨s, w₂, hget, h⟩ := bind_some h
  cases hget
  split at h
  · rename_i hrefused
    cases h
    exact .inr ⟨hrefused, .inl hrefused, rfl, rfl, rfl⟩
  · rename_i hgranted
    split at h
    · rename_i hout
      cases h
      exact .inr ⟨by decide, .inr (.inl hout), rfl, rfl, rfl⟩
    · split at h
      · rename_i hfull
        cases h
        refine .inr ⟨by decide, .inr (.inr (.inl ?_)), rfl, rfl, rfl⟩
        exact Option.isSome_iff_ne_none.mp hfull
      · rename_i hempty
        split at h
        · rename_i hnone
          cases h
          refine .inr ⟨by decide, .inr (.inr (.inr ?_)), rfl, rfl, rfl⟩
          exact Option.isNone_iff_eq_none.mp hnone
        · rename_i hsome
          cases h
          refine .inl ⟨rfl, not_not.mp hgranted, ?_, by simpa using hempty, rfl, rfl, rfl⟩
          simpa [Option.isSome_iff_ne_none] using hsome

/-! Messages. -/

theorem send_after {message : IpcMessage} {result : Nat}
    (h : send caller address message w = some (result, w')) :
    (result = 0 ↔ (w.server.fds (place address)).isSome ∧
        w.resultAt 0 caller (.send address) = 0) ∧
      After 1 (if result = 0 then
        (List.range ipcCapabilitySlots).foldl
          (takeCapability message (w.answers w.time caller (.send address)).taken) w.server
        else w.server) w w' := by
  obtain ⟨answer, w₁, hask, h⟩ := bind_some h
  cases hask
  obtain ⟨s, w₂, hget, h⟩ := bind_some h
  cases hget
  obtain ⟨u, w₃, hrecord, h⟩ := bind_some h
  cases hrecord
  obtain ⟨u', w₄, hmodify, h⟩ := bind_some h
  cases h
  have hafter := onlyIf_after hmodify
  refine ⟨?_, hafter.answers, hafter.time, hafter.server⟩
  have hne : eCapInval ≠ 0 := by decide
  by_cases hreceiver : (w.server.fds (place address)).isSome
  · rw [if_pos hreceiver]
    exact (and_iff_right hreceiver).symm
  · rw [if_neg hreceiver]
    exact iff_of_false hne fun h => hreceiver h.1

theorem receive_after {slot : Option Nat} {answer : Answer}
    (h : receive caller address slot w = some (answer, w')) :
    answer = w.answers w.time caller (.receive address) ∧
      After 1 (if answer.result = 0 then receiveCapability slot answer.fd w.server
        else w.server) w w' := by
  obtain ⟨answer', w₁, hask, h⟩ := bind_some h
  cases hask
  obtain ⟨u, w₂, hmodify, h⟩ := bind_some h
  cases h
  have hafter := onlyIf_after hmodify
  exact ⟨rfl, hafter.answers, hafter.time, hafter.server⟩

theorem copyEndpoint_after {threadId slot badge result : Nat}
    (h : copyEndpoint caller threadId slot badge w = some (result, w')) :
    (result = 0 ↔ w.resultAt 0 caller (.copy badge) = 0 ∧
        w.server.fds (.storage threadId slot) = none) ∧
      After 1 (if result = 0 then
        w.server.setFd (.storage threadId slot) (some (.endpoint badge)) else w.server) w w' := by
  obtain ⟨answer, w₁, hask, h⟩ := bind_some h
  cases hask
  obtain ⟨s, w₂, hget, h⟩ := bind_some h
  cases hget
  split at h
  · rename_i hrefused
    cases h
    refine ⟨iff_of_false hrefused fun h => hrefused h.1, ?_⟩
    rw [if_neg hrefused]
    exact ⟨rfl, rfl, rfl⟩
  · rename_i hgranted
    split at h
    · rename_i hfull
      cases h
      have hne : eCapExists ≠ 0 := by decide
      refine ⟨iff_of_false hne fun h => ?_, ?_⟩
      · rw [h.2] at hfull
        cases hfull
      · rw [if_neg hne]
        exact ⟨rfl, rfl, rfl⟩
    · rename_i hempty
      cases h
      exact ⟨iff_of_true rfl ⟨not_not.mp hgranted, by simpa using hempty⟩, rfl, rfl, rfl⟩

theorem storageDelete_after {threadId slot result : Nat}
    (h : storageDelete caller threadId slot w = some (result, w')) :
    After 1 (if result = 0 then w.server.setFd (.storage threadId slot) none else w.server)
      w w' := by
  obtain ⟨answer, w₁, hask, h⟩ := bind_some h
  cases hask
  obtain ⟨s, w₂, hget, h⟩ := bind_some h
  cases hget
  obtain ⟨u, w₃, hrecord, h⟩ := bind_some h
  cases hrecord
  obtain ⟨u', w₄, hmodify, h⟩ := bind_some h
  cases h
  have hafter := onlyIf_after hmodify
  exact ⟨hafter.answers, hafter.time, hafter.server⟩

end Cenix.Vfs
