import Cenix.Vfs.Routing
import Cenix.Vfs.Storage

namespace Cenix.Vfs

open Programs

/-! The capabilities that a round of the main loop leaves in the thread's storage. -/

/-- Every slot that messages are received into is empty. -/
def Server.Drained (s : Server) : Prop :=
  ∀ i < ipcCapabilitySlots, s.fds (.storage mainState.threadId i) = none

/-- Only slots whose bit is set are filled. -/
def Server.FilledIn (s : Server) (transferred : BitVec 8) (is : List Nat) : Prop :=
  ∀ i < ipcCapabilitySlots, s.fds (.storage mainState.threadId i) ≠ none →
    transferred.getLsbD i = true ∧ i ∈ is

variable {w w' : World}

theorem mainState_tempSlot : ipcCapabilitySlots ≤ mainState.tempSlot := by
  decide

theorem Server.FilledIn.drains {transferred : BitVec 8} {is : List Nat}
    (h : w.server.FilledIn transferred is) (hdrains : Drains w w') :
    w'.server.FilledIn transferred is := by
  intro i hi hfilled
  apply h i hi
  intro hnone
  exact hfilled (hdrains.stays _ ⟨i, hi, rfl⟩ hnone)

/-! Receiving. -/

theorem getLsbD_slotBit : ∀ i < ipcCapabilitySlots, ∀ j < ipcCapabilitySlots,
    (BitVec.ofNat 8 (2 ^ j)).getLsbD i = decide (i = j) := by
  decide

/-- What has been stored so far of the capabilities of a message. -/
structure StoredFrom (before : Server) (received : List (Option Fd))
    (stored : BitVec 8 × Server) : Prop where
  filled : ∀ i < ipcCapabilitySlots,
    stored.2.fds (.storage mainState.threadId i) ≠ none → stored.1.getLsbD i = true
  marked : ∀ i < ipcCapabilitySlots, stored.1.getLsbD i = true → received.getD i none ≠ none
  others : ∀ p, ¬ ReceiveSlot p → stored.2.fds p = before.fds p

theorem storeCapabilities_stored {s : Server} (received : List (Option Fd))
    (h : s.Drained) :
    StoredFrom s received (storeCapabilities mainState.threadId received s) := by
  unfold storeCapabilities
  have hinitial : StoredFrom s received (0, s) :=
    ⟨fun i hi hfilled => absurd (h i hi) hfilled, fun i _ hmarked => by simp at hmarked,
      fun _ _ => rfl⟩
  have hbounds : ∀ i ∈ List.range ipcCapabilitySlots, i < ipcCapabilitySlots :=
    fun i hi => List.mem_range.mp hi
  revert hinitial hbounds
  generalize ((0, s) : BitVec 8 × Server) = stored
  generalize List.range ipcCapabilitySlots = is
  intro hstored hbounds
  induction is generalizing stored with
  | nil => exact hstored
  | cons j is ih =>
      have hj : j < ipcCapabilitySlots := hbounds j (by simp)
      rw [List.foldl_cons]
      apply ih _ _ fun i hi => hbounds i (by simp [hi])
      cases hreceived : received.getD j none with
      | none => exact hstored
      | some fd =>
          simp only
          split
          · exact hstored
          · constructor
            · intro i hi hfilled
              simp only [BitVec.getLsbD_or, getLsbD_slotBit i hi j hj, Bool.or_eq_true,
                decide_eq_true_eq]
              cases eq_or_ne i j with
              | inl heq => exact .inr heq
              | inr hne =>
                  refine .inl (hstored.filled i hi ?_)
                  simpa [Server.setFd, hne] using hfilled
            · intro i hi hmarked
              simp only [BitVec.getLsbD_or, getLsbD_slotBit i hi j hj, Bool.or_eq_true,
                decide_eq_true_eq] at hmarked
              cases hmarked with
              | inl hbit => exact hstored.marked i hi hbit
              | inr heq =>
                  rw [heq, hreceived]
                  exact Option.some_ne_none fd
            · intro p hp
              have hne : p ≠ .storage mainState.threadId j := fun heq => hp ⟨j, hj, heq⟩
              simp only [Server.setFd, Function.update_of_ne hne]
              exact hstored.others p hp

/-! Deleting. -/

/-- The kernel refuses no deletion of the main loop. -/
def Deletes (answers : Nat → Caller → Request → Answer) : Prop :=
  ∀ t node slot, (answers t .mainLoop (.delete node slot)).result = 0

theorem storageDelete_empties {slot : Nat} (hslot : slot < ipcCapabilitySlots) :
    Ensures (fun w => Deletes w.answers)
      (storageDelete .mainLoop mainState.threadId slot)
      fun _ w => w.server.fds (.storage mainState.threadId slot) = none := by
  intro w result w' hdeletes h
  obtain ⟨answer, w₁, hask, h⟩ := bind_some h
  cases hask
  obtain ⟨s, w₂, hget, h⟩ := bind_some h
  cases hget
  obtain ⟨_, w₃, hrecord, h⟩ := bind_some h
  cases hrecord
  obtain ⟨_, w₄, hmodify, h⟩ := bind_some h
  cases h
  have hsmall : ¬ slot ≥ 2 ^ threadStorageBits := by
    simp only [threadStorageBits, ipcCapabilitySlots] at hslot ⊢
    omega
  rw [hdeletes] at hmodify
  simp only [deleteResult, ne_eq, not_true, if_false, hsmall] at hmodify
  cases hfd : w.server.fds (.storage mainState.threadId slot) with
  | none =>
      simp only [hfd, Option.isSome_none, onlyIf] at hmodify
      cases hmodify
      exact hfd
  | some fd =>
      simp only [hfd, Option.isSome_some, if_true, onlyIf] at hmodify
      cases hmodify
      simp [Server.setFd]

theorem deleteLeftover_drained {message : IpcMessage} {is : List Nat}
    (hbounds : ∀ i ∈ is, i < ipcCapabilitySlots) :
    Ensures (fun w => Deletes w.answers ∧
        w.server.FilledIn message.transferredCapabilities is)
      (deleteLeftover mainState message is) fun _ w => w.server.Drained := by
  induction is with
  | nil =>
      refine .pure fun w hw i hi => ?_
      by_contra hfilled
      exact List.not_mem_nil (hw.2 i hi hfilled).2
  | cons j is ih =>
      have hj : j < ipcCapabilitySlots := hbounds j (by simp)
      refine .bind (R := fun _ w => Deletes w.answers ∧
        w.server.FilledIn message.transferredCapabilities is) ?_
        fun _ => ih fun i hi => hbounds i (by simp [hi])
      intro w u w' hw h
      have hdrains : Drains w w' :=
        onlyIf_drains (.bind storageDelete_drains fun _ => .pure) _ _ _ h
      refine ⟨hdrains.answers ▸ hw.1, fun i hi hfilled => ?_⟩
      have hbefore := hw.2.drains hdrains i hi hfilled
      refine ⟨hbefore.1, (List.mem_cons.mp hbefore.2).resolve_left fun heq => ?_⟩
      subst heq
      simp only [onlyIf, hbefore.1, if_true] at h
      obtain ⟨result, w₁, hdelete, h⟩ := bind_some h
      cases h
      exact hfilled (storageDelete_empties hj _ _ _ hw.1 hdelete)

/-! Forwarding. -/

theorem place_threadStorageSlot : ∀ i < ipcCapabilitySlots,
    place (threadStorageSlot mainState.threadId i) = .storage mainState.threadId i := by
  decide

/-- The capabilities that `main_loop` receives go to the slots of the thread's storage. -/
def Receives (message : IpcMessage) : Prop :=
  ∀ i < ipcCapabilitySlots, message.capabilities[i]? =
    some ⟨threadStorageSlot mainState.threadId i,
      threadStorageNodeBits + threadStorageBits + initNodeDepth⟩

theorem foldl_takeCapability_empties {message : IpcMessage} {taken : Nat → Bool}
    {is : List Nat} {s : Server} {i : Nat} (hi : i < ipcCapabilitySlots) (hmem : i ∈ is)
    (hreceives : Receives message) (hmove : message.toCopy = 0) (htaken : taken i = true) :
    (is.foldl (takeCapability message taken) s).fds (.storage mainState.threadId i) =
      none := by
  induction is generalizing s with
  | nil => cases hmem
  | cons j is ih =>
      rw [List.foldl_cons]
      cases List.mem_cons.mp hmem with
      | inr hlater => exact ih hlater
      | inl heq =>
          subst heq
          apply foldl_takeCapability_fds
          have hdepth : threadStorageNodeBits + threadStorageBits + initNodeDepth ≠ 0 := by
            decide
          have hmoved : message.toCopy.getLsbD i = false := by simp [hmove]
          simp only [takeCapability, hreceives i hi, place_threadStorageSlot i hi]
          rw [if_pos ⟨hdepth, htaken, hmoved⟩]
          exact Function.update_self ..

/-- A round of the main loop: the message that is received and how the system calls turn
out. -/
structure Round where
  fuel : Nat
  buffer : Buffer
  badge : Nat
  received : List (Option Fd)
  answers : Nat → Caller → Request → Answer

namespace Round

variable (r : Round)

def directory : Nat := directoryAddress (ipcId r.badge)

/-- The message is one that `pass_thru_directory_message` sends on. -/
def Forwarded : Prop :=
  handlerOf r.badge = .directory ∧
    (byteOf r.buffer 0 = fdRead ∨ byteOf r.buffer 0 = fdReadFast ∨
      byteOf r.buffer 0 = fdStat ∨ byteOf r.buffer 0 = fdLink ∨ byteOf r.buffer 0 = fdUnlink)

instance : Decidable r.Forwarded :=
  inferInstanceAs (Decidable (_ ∧ _))

/-- The file system takes the capability at index `i`. -/
def TakenBy (s : Server) (i : Nat) : Prop :=
  let answer := r.answers 0 .passThruDirectoryMessage (.send r.directory)
  (s.fds (place r.directory)).isSome ∧ answer.result = 0 ∧ answer.taken i = true

/-- Every capability of a message that is sent on is taken. -/
def Passed (s : Server) : Prop :=
  Deletes r.answers ∧ (r.Forwarded → ∀ i < ipcCapabilitySlots,
    r.received.getD i none ≠ none → r.TakenBy s i)

end Round

def Server.step (s : Server) (r : Round) : Option Server :=
  (mainLoopRound r.fuel mainState r.buffer r.badge r.received (s.world r.answers)).map
    fun (_, w) => w.server

/-- The server when `main_loop` is entered. -/
def Server.Begins (s : Server) : Prop :=
  ∃ answers u w, start (Server.initial.world answers) = some (u, w) ∧ s = w.server

/-- The send empties the slots of what is taken. -/
theorem passThruDirectoryMessage_empties {directoryId : Nat} {message message' : IpcMessage}
    (hreceives : Receives message)
    (h : passThruDirectoryMessage directoryId message w = some (message', w')) :
    message'.transferredCapabilities = 0 ∧
      ∀ i < ipcCapabilitySlots,
        (w.server.fds (place (directoryAddress directoryId))).isSome →
        (w.answers w.time .passThruDirectoryMessage
          (.send (directoryAddress directoryId))).result = 0 →
        (w.answers w.time .passThruDirectoryMessage
          (.send (directoryAddress directoryId))).taken i = true →
        w'.server.fds (.storage mainState.threadId i) = none := by
  obtain ⟨result, w₁, hsend, h⟩ := bind_some h
  cases h
  refine ⟨by simp, fun i hi hreceiver hresult htaken => ?_⟩
  obtain ⟨answer, w₂, hask, h⟩ := bind_some hsend
  cases hask
  obtain ⟨s, w₃, hget, h⟩ := bind_some h
  cases hget
  obtain ⟨_, w₄, hrecord, h⟩ := bind_some h
  cases hrecord
  obtain ⟨_, w₅, hmodify, h⟩ := bind_some h
  cases h
  simp only [hreceiver, if_true, hresult, onlyIf] at hmodify
  cases hmodify
  exact foldl_takeCapability_empties hi (List.mem_range.mpr hi) hreceives rfl htaken

/-! Other messages. -/

/-- The calls that a directory sends on. -/
def SentOn (message : IpcMessage) : Prop :=
  handlerOf message.badge = .directory ∧
    (fdCallNumber message = fdRead ∨ fdCallNumber message = fdReadFast ∨
      fdCallNumber message = fdStat ∨ fdCallNumber message = fdLink ∨
      fdCallNumber message = fdUnlink)

theorem handleDirectoryMessage_yields {fuel : Nat} {message : IpcMessage}
    (hnot : ¬ (fdCallNumber message = fdRead ∨ fdCallNumber message = fdReadFast ∨
      fdCallNumber message = fdStat ∨ fdCallNumber message = fdLink ∨
      fdCallNumber message = fdUnlink)) :
    Yields (· = message) (handleDirectoryMessage fuel mainState message) := by
  refine .ite (fun hsent => absurd hsent hnot) fun _ => .ite
    (fun _ => .bind fun _ => .pure rfl) fun _ => .ite
    (fun _ => .bind fun _ => .pure rfl) fun _ => .ite (fun _ => ?_) fun _ => .ite
    (fun _ => .bind fun _ => .pure rfl) fun _ => .bind fun _ => .pure rfl
  exact .bind fun _ => .ite (fun _ => .bind fun _ => .pure rfl) fun _ =>
    .bind fun _ => .bind fun _ => .bind fun _ => .pure rfl

theorem passThruDirectoryMessage_drains {directoryId : Nat} {message : IpcMessage} :
    Respects Drains (passThruDirectoryMessage directoryId message) :=
  .bind send_drains fun _ => .pure

theorem handleDirectoryMessage_drains {fuel : Nat} {message : IpcMessage} :
    Respects Drains (handleDirectoryMessage fuel mainState message) := by
  refine .ite passThruDirectoryMessage_drains (.ite
    (.bind (directoryOpen_drains mainState_tempSlot) fun _ => .pure) (.ite
    (.bind returnValue_drains fun _ => .pure) (.ite ?_ (.ite
    (.bind returnValue_drains fun _ => .pure) (.bind returnValue_drains fun _ => .pure)))))
  refine .bind lock_drains fun _ => .ite (.bind returnValue_drains fun _ => .pure) ?_
  exact .bind directoryInfoAt_drains fun _ => .bind mount_drains fun _ =>
    .bind reply_drains fun _ => .pure

theorem handleMessage_drains {fuel : Nat} {message : IpcMessage} :
    Respects Drains (handleMessage fuel mainState message) := by
  unfold handleMessage
  cases handlerOf message.badge with
  | directory => exact handleDirectoryMessage_drains
  | mountPoint =>
      exact .bind (handleMountPointMessage_drains mainState_tempSlot) fun _ => .pure
  | vfs => exact .bind (handleVfsMessage_drains mainState_tempSlot) fun _ => .pure

theorem handleMessage_yields {fuel : Nat} {message : IpcMessage} (hnot : ¬ SentOn message) :
    Yields (· = message) (handleMessage fuel mainState message) := by
  unfold handleMessage
  cases hhandler : handlerOf message.badge with
  | directory => exact handleDirectoryMessage_yields fun hcall => hnot ⟨hhandler, hcall⟩
  | mountPoint => exact .bind fun _ => .pure rfl
  | vfs => exact .bind fun _ => .pure rfl

theorem handleMessage_sentOn {fuel : Nat} {message : IpcMessage} (h : SentOn message) :
    handleMessage fuel mainState message =
      passThruDirectoryMessage (ipcId message.badge) message := by
  unfold handleMessage
  rw [h.1]
  exact if_pos h.2

/-! Rounds. -/

/-- The message of a round, and what has become of its capabilities. -/
structure Received (s : Server) (r : Round) (message : IpcMessage) (w : World) : Prop where
  slots : Receives message
  sentOn : SentOn message ↔ r.Forwarded
  badge : message.badge = r.badge
  answers : w.answers = r.answers
  time : w.time = 0
  stored : StoredFrom s r.received (message.transferredCapabilities, w.server)

theorem receiveMessage_received {s : Server} {r : Round} {message : IpcMessage}
    (h : s.Drained)
    (hreceive : receiveMessage mainState r.buffer r.badge r.received (s.world r.answers) =
      some (message, w)) : Received s r message w := by
  cases hreceive
  refine ⟨fun i hi => ?_, Iff.rfl, rfl, rfl, rfl, storeCapabilities_stored r.received h⟩
  simp [hi]

theorem not_receiveSlot_directory (id : Nat) : ¬ ReceiveSlot (place (directoryAddress id)) := by
  rintro ⟨i, _, heq⟩
  rw [place_directoryAddress] at heq
  cases heq

/-- The slots that are filled after the handler are those that are deleted. -/
theorem handleMessage_filledIn {s : Server} {r : Round} {fuel : Nat}
    {message message' : IpcMessage} (hreceived : Received s r message w)
    (hpassed : r.Passed s)
    (h : handleMessage fuel mainState message w = some (message', w')) :
    w'.server.FilledIn message'.transferredCapabilities (List.range ipcCapabilitySlots) := by
  have hdrains := handleMessage_drains _ _ _ h
  have hstored : w.server.FilledIn message.transferredCapabilities
      (List.range ipcCapabilitySlots) :=
    fun i hi hfilled => ⟨hreceived.stored.filled i hi hfilled, List.mem_range.mpr hi⟩
  by_cases hsent : SentOn message
  · rw [handleMessage_sentOn hsent] at h
    obtain ⟨_, hempties⟩ := passThruDirectoryMessage_empties hreceived.slots h
    intro i hi hfilled
    have hmarked := (hstored.drains hdrains i hi hfilled).1
    have htaken := hpassed.2 (hreceived.sentOn.mp hsent) i hi
      (hreceived.stored.marked i hi hmarked)
    simp only [Round.TakenBy, Round.directory] at htaken
    rw [hreceived.answers, hreceived.time, hreceived.badge,
      hreceived.stored.others _ (not_receiveSlot_directory _)] at hempties
    exact absurd (hempties i hi htaken.1 htaken.2.1 htaken.2.2) hfilled
  · have hsame : message' = message := handleMessage_yields hsent _ _ _ h
    rw [hsame]
    exact hstored.drains hdrains

theorem Server.Drained.step {s s' : Server} {r : Round} (h : s.Drained) (hpassed : r.Passed s)
    (hstep : s.step r = some s') : s'.Drained := by
  simp only [Server.step, Option.map_eq_some_iff] at hstep
  obtain ⟨⟨u, w'⟩, hround, rfl⟩ := hstep
  obtain ⟨message, w₁, hreceive, hround⟩ := bind_some hround
  obtain ⟨message', w₂, hhandle, hdelete⟩ := bind_some hround
  have hreceived := receiveMessage_received h hreceive
  have hanswers : w₂.answers = r.answers :=
    (handleMessage_drains _ _ _ hhandle).answers.trans hreceived.answers
  exact deleteLeftover_drained (fun i hi => List.mem_range.mp hi) _ _ _
    ⟨hanswers ▸ hpassed.1, handleMessage_filledIn hreceived hpassed hhandle⟩ hdelete

theorem start_drains : Respects Drains start :=
  .bind (badgeAndSend_drains mainState_tempSlot) fun _ => .ite .failure
    (.bind (setUpFilesystemForProcess_drains mainState_tempSlot) fun _ =>
      .ite .failure .pure)

theorem Server.Begins.drained {s : Server} (h : s.Begins) : s.Drained := by
  obtain ⟨answers, u, w, hstart, rfl⟩ := h
  exact fun i hi => (start_drains _ _ _ hstart).stays _ ⟨i, hi, rfl⟩ rfl

/-- A call with a reply endpoint and one more capability; no receiver takes anything. -/
def Round.call (badge : Nat) (call : BitVec 8) : Round :=
  ⟨5, bufferOf [call], badge, [some (.other 2), some (.other 3)], opensDirectories⟩

/-- A file system is mounted as the root, a directory is opened in it and read. -/
def readsDirectory : List Round :=
  [.call rootDescriptor.badge fdMount, .call rootDescriptor.badge fdOpen,
    .call (ipcBadge 1 ipcFlagIsDirectory) fdRead]

theorem run_readsDirectory : ∃ u w, start (Server.initial.world opensDirectories) =
    some (u, w) ∧ ∃ s, runWhile Server.step (fun _ _ => True) w.server readsDirectory =
      some s ∧ s.fds (.storage mainState.threadId 0) = some (.other 2) := by
  have hrun : ((start (Server.initial.world opensDirectories)).bind fun (_, w) =>
      (runWhile Server.step (fun _ _ => True) w.server readsDirectory).map fun s =>
        decide (s.fds (.storage mainState.threadId 0) = some (.other 2))) = some true := by
    decide +kernel
  simp only [Option.bind_eq_some_iff, Option.map_eq_some_iff, decide_eq_true_eq] at hrun
  obtain ⟨⟨u, w⟩, hstart, hrun⟩ := hrun
  exact ⟨u, w, hstart, hrun⟩

theorem readsDirectory_deletes : ∀ r ∈ readsDirectory, Deletes r.answers := by
  intro r hr
  simp only [readsDirectory, List.mem_cons, List.not_mem_nil, or_false] at hr
  obtain rfl | rfl | rfl := hr <;> exact fun _ _ _ => rfl

end Cenix.Vfs
