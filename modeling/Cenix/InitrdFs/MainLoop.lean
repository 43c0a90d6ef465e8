import Cenix.InitrdFs.Messages
import Cenix.Jax.Archive
import Cenix.Runs

namespace Cenix.InitrdFs

open Fields FileProtocol Jax Vfs

/-! The main loop and what it leaves in the slots of the node. -/

/-- One round: the message that is received and how the system calls turn out. -/
structure Round where
  fuel : Nat
  environment : Environment
  buffer : Buffer
  badge : Nat
  received : List (Option Fd)

/-- The capabilities that come with a message go into the slots that are empty. -/
def storeCapabilities (received : List (Option Fd)) (slots : Slots) : Slots :=
  (List.range ipcCapabilitySlots).foldl (fun slots i =>
    if (slots i).isNone then Function.update slots i (received.getD i none) else slots) slots

def Round.message (r : Round) : IpcMessage where
  buffer := r.buffer
  capabilities := Vector.ofFn fun i => ⟨slotAddress i, sizeMax⟩
  toCopy := 0
  transferredCapabilities := 0
  badge := r.badge

/-- The slot of the node that an address leads to. -/
def slotOf (address : Nat) : Nat :=
  address / 2 ^ initNodeDepth % 2 ^ nodeBits

/-- The capability at an index of the reply is moved to the receiver if that takes it. -/
def moveCapability (reply : IpcMessage) (taken : Nat → Bool) (slots : Slots) (i : Nat) :
    Slots :=
  let capability := capabilityOf reply i
  if capability.depth ≠ 0 ∧ taken i then
    Function.update slots (slotOf capability.address) none
  else
    slots

/-- `ENDPOINT_SEND` of the reply; its result is ignored. -/
def sendReply (e : Environment) (message reply : IpcMessage) (slots : Slots) : Slots :=
  if (slots (slotOf (fdReplyEndpoint message).address)).isSome ∧ e.sendResult = 0 then
    (List.range ipcCapabilitySlots).foldl (moveCapability reply e.taken) slots
  else
    slots

/-- The loop at the end of a round, up to `IPC_CAPABILITY_SLOTS + 1`. -/
def deleteLeftover (slots : Slots) : Slots :=
  (List.range (ipcCapabilitySlots + 1)).foldl (fun slots i => Function.update slots i none) slots

variable (order : ByteOrder) (s : State)

def handleRound (slots : Slots) (r : Round) : Option Handled :=
  handleIpcMessage order r.environment s r.fuel (storeCapabilities r.received slots) r.message
    emptyMessage

def mainLoopRound (slots : Slots) (r : Round) : Option Slots :=
  (handleRound order s slots r).map fun handled =>
    deleteLeftover (sendReply r.environment r.message handled.reply handled.slots)

/-- The slots when `main_loop` is entered: `fd_mount` has succeeded, so that the descriptor
for the root has been taken. -/
def Begins (slots : Slots) : Prop :=
  ∀ i, slots i = none

/-- The slots for received and temporary capabilities are empty. -/
def Drained (slots : Slots) : Prop :=
  ∀ i ≤ temporarySlot, slots i = none

/-- Nothing is left of earlier messages, and replies do not depend on them. -/
structure Undisturbed (slots : Slots) : Prop where
  drained : Drained slots
  replies : ∀ r : Round, (handleRound order s slots r).map Handled.reply =
    (handleRound order s (fun _ => none) r).map Handled.reply

/-! Which messages open a file. -/

/-- `handle_open` makes a descriptor for a file that it has found. -/
def Round.Opens (r : Round) : Prop :=
  let (_, file, next) := target r.environment s r.badge
  fdCallNumber r.message = fdOpen ∧ r.environment.copyResult = 0 ∧
    ∃ filename address, openName r.environment r.message file = .ok filename ∧
      findFile r.environment s file filename r.fuel next = some (some address)

/-- A descriptor is taken by whoever has asked for it. -/
def Round.Taken (r : Round) : Prop :=
  r.Opens s → r.received.getD 0 none ≠ none ∧ r.environment.sendResult = 0 ∧
    r.environment.taken 0 = true

/-! Slots. -/

theorem slotOf_slotAddress {i : Nat} (h : i < 2 ^ nodeBits) : slotOf (slotAddress i) = i := by
  simp only [slotOf, slotAddress, nodeAddress, initNodeDepth, nodeBits] at *
  omega

theorem slotOf_replyEndpoint (r : Round) :
    slotOf (fdReplyEndpoint r.message).address = 0 := by
  have hcapability : fdReplyEndpoint r.message = ⟨slotAddress 0, sizeMax⟩ := by
    simp [fdReplyEndpoint, capabilityOf, Round.message, ipcCapabilitySlots]
  rw [hcapability, slotOf_slotAddress (by decide)]

theorem foldl_storeCapabilities (received : List (Option Fd)) {is : List Nat} (hnodup : is.Nodup)
    {slots : Slots} (hempty : ∀ i ∈ is, slots i = none) (i : Nat) :
    is.foldl (fun slots i =>
      if (slots i).isNone then Function.update slots i (received.getD i none) else slots)
        slots i = if i ∈ is then received.getD i none else slots i := by
  induction is generalizing slots with
  | nil => rfl
  | cons j is ih =>
      have hj : slots j = none := hempty j (by simp)
      rw [List.foldl_cons, hj, Option.isNone_none, if_pos rfl]
      obtain ⟨hnotin, hnodup⟩ := List.nodup_cons.mp hnodup
      rw [ih hnodup fun k hk => ?_]
      · cases eq_or_ne i j with
        | inl heq => simp [heq, hnotin]
        | inr hne => simp [hne]
      · have hne : k ≠ j := fun heq => hnotin (heq ▸ hk)
        rw [Function.update_of_ne hne]
        exact hempty k (by simp [hk])

theorem storeCapabilities_apply {received : List (Option Fd)} {slots : Slots}
    (h : Drained slots) (i : Nat) :
    storeCapabilities received slots i =
      if i < ipcCapabilitySlots then received.getD i none else slots i := by
  have hempty : ∀ i ∈ List.range ipcCapabilitySlots, slots i = none := by
    intro i hi
    have hlt := List.mem_range.mp hi
    exact h i (Nat.le_of_lt (Nat.lt_succ_of_lt hlt))
  rw [storeCapabilities, foldl_storeCapabilities received List.nodup_range hempty]
  simp only [List.mem_range]

theorem foldl_update_none (is : List Nat) (slots : Slots) (i : Nat) :
    is.foldl (fun slots i => Function.update slots i none) slots i =
      if i ∈ is then none else slots i := by
  induction is generalizing slots with
  | nil => rfl
  | cons j is ih =>
      rw [List.foldl_cons, ih]
      cases eq_or_ne i j with
      | inl heq => simp [heq]
      | inr hne => simp [hne]

theorem deleteLeftover_apply (slots : Slots) (i : Nat) :
    deleteLeftover slots i = if i ≤ ipcCapabilitySlots then none else slots i := by
  rw [deleteLeftover, foldl_update_none]
  simp only [List.mem_range, Nat.lt_succ_iff]

theorem moveCapability_none {reply : IpcMessage} {taken : Nat → Bool} {slots : Slots}
    {i j : Nat} (h : slots j = none) : moveCapability reply taken slots i j = none := by
  rw [moveCapability]
  split
  · rw [Function.update_apply]
    split
    · rfl
    · exact h
  · exact h

theorem foldl_moveCapability_none {reply : IpcMessage} {taken : Nat → Bool} (is : List Nat)
    {slots : Slots} {j : Nat} (h : slots j = none) :
    is.foldl (moveCapability reply taken) slots j = none := by
  induction is generalizing slots with
  | nil => exact h
  | cons i is ih => exact ih (moveCapability_none h)

theorem sendReply_none {e : Environment} {message reply : IpcMessage} {slots : Slots} {j : Nat}
    (h : slots j = none) : sendReply e message reply slots j = none := by
  rw [sendReply]
  split
  · exact foldl_moveCapability_none _ h
  · exact h

/-- The descriptor at the front of a reply that is taken is gone. -/
theorem sendReply_taken {e : Environment} {message reply : IpcMessage} {slots : Slots}
    (hreceiver : slots (slotOf (fdReplyEndpoint message).address) ≠ none)
    (hsend : e.sendResult = 0) (htaken : e.taken 0 = true)
    (hreply : capabilityOf reply 0 = ⟨slotAddress temporarySlot, sizeMax⟩) :
    sendReply e message reply slots temporarySlot = none := by
  have hsome := Option.isSome_iff_ne_none.mpr hreceiver
  have hdepth : sizeMax ≠ 0 := by decide
  rw [sendReply, if_pos ⟨hsome, hsend⟩, ipcCapabilitySlots, List.range_succ_eq_map,
    List.foldl_cons]
  apply foldl_moveCapability_none
  rw [moveCapability, hreply, if_pos ⟨hdepth, htaken⟩, slotOf_slotAddress (by decide)]
  exact Function.update_self ..

/-! What the handlers do to the slots. -/

section

variable {order s} {e : Environment}

theorem capabilityOf_setReplyFd (reply : IpcMessage) (capability : IpcCapability) (value : Nat) :
    capabilityOf (setReturn order (setReplyFd reply capability) value) 0 = capability := by
  simp [capabilityOf, setReturn, setReturnValue, setReplyFd, ipcCapabilitySlots, Vector.set!]

theorem handleOpen_slots {fuel : Nat} {slots slots' : Slots} {received reply reply' : IpcMessage}
    {file : JaxFile} {next : Nat}
    (h : handleOpen order e s fuel slots received reply file next = some (reply', slots')) :
    slots' = slots ∨
      ∃ filename address, openName e received file = .ok filename ∧
        findFile e s file filename fuel next = some (some address) ∧ e.copyResult = 0 ∧
        capabilityOf reply' 0 = ⟨slotAddress temporarySlot, sizeMax⟩ ∧
        slots' = Function.update slots temporarySlot (some (.endpoint address)) := by
  rw [handleOpen] at h
  cases hname : openName e received file with
  | error result =>
      rw [hname] at h
      exact .inl (congrArg Prod.snd (Option.some.inj h)).symm
  | ok filename =>
      rw [hname] at h
      obtain ⟨found, hfound, h⟩ := Option.map_eq_some_iff.mp h
      cases found with
      | none =>
          exact .inl (congrArg Prod.snd h).symm
      | some address =>
          simp only [copyEndpoint] at h
          split at h
          · exact .inl (congrArg Prod.snd h).symm
          · rename_i hcopy
            split at h
            · have hexists : eCapExists ≠ 0 := by decide
              rw [if_neg hexists] at h
              exact .inl (congrArg Prod.snd h).symm
            · rw [if_pos rfl] at h
              obtain ⟨rfl, rfl⟩ := Prod.mk.inj h
              exact .inr ⟨filename, address, rfl, hfound, not_not.mp hcopy,
                capabilityOf_setReplyFd .., rfl⟩

/-- Only an open that makes a descriptor changes a slot, and its reply has that slot. -/
theorem handleFdMessage_slots {fuel : Nat} {slots : Slots} {received reply : IpcMessage}
    {file : JaxFile} {next : Nat} {handled : Handled}
    (h : handleFdMessage order e s fuel slots received reply file next = some handled) :
    handled.slots = slots ∨
      (fdCallNumber received = fdOpen ∧ e.copyResult = 0 ∧
        ∃ filename address, openName e received file = .ok filename ∧
          findFile e s file filename fuel next = some (some address)) ∧
      capabilityOf handled.reply 0 = ⟨slotAddress temporarySlot, sizeMax⟩ ∧
        ∃ fd, handled.slots = Function.update slots temporarySlot fd := by
  simp only [handleFdMessage, handleReadCall, handleReadFastCall] at h
  split at h
  · split at h
    · exact .inl (congrArg Handled.slots (Option.some.inj h)).symm
    · obtain ⟨_, _, rfl⟩ := Option.map_eq_some_iff.mp h
      exact .inl rfl
  · split at h
    · obtain ⟨_, _, rfl⟩ := Option.map_eq_some_iff.mp h
      exact .inl rfl
    · split at h
      · exact .inl (congrArg Handled.slots (Option.some.inj h)).symm
      · split at h
        · rename_i hcall
          obtain ⟨⟨reply', slots'⟩, hopen, rfl⟩ := Option.map_eq_some_iff.mp h
          rcases handleOpen_slots hopen with heq | ⟨filename, address, hname, hfound, hcopy,
            hreply, heq⟩
          · exact .inl heq
          · exact .inr ⟨⟨hcall, hcopy, filename, address, hname, hfound⟩, hreply, _, heq⟩
        · split at h
          · exact .inl (congrArg Handled.slots (Option.some.inj h)).symm
          · exact .inl (congrArg Handled.slots (Option.some.inj h)).symm

theorem copyEndpoint_result {slots slots' : Slots} (badge : Nat)
    (h : slots temporarySlot = slots' temporarySlot) :
    (copyEndpoint e slots badge).1 = (copyEndpoint e slots' badge).1 := by
  simp only [copyEndpoint, h]
  split
  · rfl
  · split
    · rfl
    · rfl

theorem handleOpen_reply {fuel : Nat} {slots slots' : Slots} {received reply : IpcMessage}
    {file : JaxFile} {next : Nat} (h : slots temporarySlot = slots' temporarySlot) :
    (handleOpen order e s fuel slots received reply file next).map Prod.fst =
      (handleOpen order e s fuel slots' received reply file next).map Prod.fst := by
  rw [handleOpen, handleOpen]
  cases openName e received file with
  | error result => rfl
  | ok filename =>
      rw [Option.map_map, Option.map_map]
      apply congrArg (fun f => (findFile e s file filename fuel next).map f)
      funext found
      cases found with
      | none => rfl
      | some address =>
          have hresult := copyEndpoint_result (e := e) address h
          simp only [Function.comp_apply, hresult]
          split
          · rfl
          · rfl

/-- A reply depends on the slots only where the descriptor is made. -/
theorem handleFdMessage_reply {fuel : Nat} {slots slots' : Slots} {received reply : IpcMessage}
    {file : JaxFile} {next : Nat} (h : slots temporarySlot = slots' temporarySlot) :
    (handleFdMessage order e s fuel slots received reply file next).map Handled.reply =
      (handleFdMessage order e s fuel slots' received reply file next).map Handled.reply := by
  simp only [handleFdMessage, handleReadCall, handleReadFastCall]
  split
  · split
    · rfl
    · rw [Option.map_map, Option.map_map]
      rfl
  · split
    · rw [Option.map_map, Option.map_map]
      rfl
    · split
      · rfl
      · split
        · rw [Option.map_map, Option.map_map]
          exact handleOpen_reply h
        · split
          · rfl
          · rfl

end

/-! Runs. -/

theorem mainLoopRound_drained {slots slots' : Slots} {r : Round} (h : Drained slots)
    (htaken : r.Taken s) (hround : mainLoopRound order s slots r = some slots') :
    Drained slots' := by
  obtain ⟨handled, hhandled, rfl⟩ := Option.map_eq_some_iff.mp hround
  intro i hi
  rw [deleteLeftover_apply]
  split
  · rfl
  · rename_i hlast
    have hi : i = temporarySlot := by
      simp only [temporarySlot] at *
      omega
    subst hi
    rcases handleFdMessage_slots hhandled with heq | ⟨hopens, hreply, fd, heq⟩
    · apply sendReply_none
      rw [heq, storeCapabilities_apply h, if_neg (by decide)]
      exact h _ (Nat.le_refl _)
    · obtain ⟨hreceived, hsend, htaken⟩ := htaken hopens
      apply sendReply_taken _ hsend htaken hreply
      rw [slotOf_replyEndpoint, heq, Function.update_of_ne (by decide), storeCapabilities_apply h,
        if_pos (by decide)]
      exact hreceived

theorem undisturbed_of_drained {slots : Slots} (h : Drained slots) :
    Undisturbed order s slots where
  drained := h
  replies r := by
    apply handleFdMessage_reply
    rw [storeCapabilities_apply h, storeCapabilities_apply fun _ _ => rfl]
    simp only [h temporarySlot (Nat.le_refl _)]

/-- If every descriptor that is made is taken, nothing is left in the slots between rounds. -/
theorem taken_undisturbed {slots : Slots}
    (h : Reaches (mainLoopRound order s) (fun _ r => r.Taken s) Begins slots) :
    Undisturbed order s slots := by
  apply undisturbed_of_drained
  apply h.invariant
  · intro slots hbegins i _
    exact hbegins i
  · intro slots r slots' hdrained htaken hround
    exact mainLoopRound_drained order s hdrained htaken hround

def fileA : Record :=
  { emptyFile with data := [0x62], dataBound := by decide }

def archiveOfA : List Byte := archive [fileA]

def stateOfA : State where
  initrdStart := 0
  initrdEnd := archiveOfA.length
  iterator := ⟨4, archiveOfA.length⟩

/-- Opens the file, whose name is stored behind the archive. -/
def openingA (taken : Nat → Bool) : Round where
  fuel := 3
  environment :=
    { memory := memoryWith 0 (archiveOfA ++ [0x61, 0])
      lock := fun _ => archiveOfA.length
      untypedSizeof := fun _ => 0
      copyResult := 0
      sendResult := 0
      taken := taken
      uninitialized := .zero }
  buffer := (fdOpenMessage 0 0 0 0).buffer
  badge := 0
  received := [some (.endpoint 1), none]

theorem taken_undisturbed_openingA :
    ∃ slots, mainLoopRound .big stateOfA (fun _ => none) (openingA fun _ => true) =
      some slots ∧ Undisturbed .big stateOfA slots := by
  have htaken : (openingA fun _ => true).Taken stateOfA := fun _ => ⟨nofun, rfl, rfl⟩
  have hrun : (mainLoopRound .big stateOfA (fun _ => none) (openingA fun _ => true)).isSome := by
    decide +kernel
  obtain ⟨slots, hround⟩ := Option.isSome_iff_exists.mp hrun
  exact ⟨slots, hround,
    taken_undisturbed _ _ (.step (.initial fun _ => rfl) htaken hround)⟩

/-- A descriptor that is not taken stays, and the next open fails. -/
theorem not_drained_openingA :
    ∃ slots, Reaches (mainLoopRound .big stateOfA) (fun _ _ => True) Begins slots ∧
      ¬ Drained slots ∧
      (handleRound .big stateOfA slots (openingA fun _ => true)).map (fun handled =>
        fdReturnValue .big handled.reply) = some (BitVec.ofNat _ eCapExists) ∧
      (handleRound .big stateOfA (fun _ => none) (openingA fun _ => true)).map
        (fun handled => fdReturnValue .big handled.reply) = some 0 := by
  have hrun : (mainLoopRound .big stateOfA (fun _ => none) (openingA fun _ => false)).map
      (fun slots => decide (slots temporarySlot ≠ none ∧
        (handleRound .big stateOfA slots (openingA fun _ => true)).map (fun handled =>
          fdReturnValue .big handled.reply) = some (BitVec.ofNat _ eCapExists))) =
      some true := by
    decide +kernel
  obtain ⟨slots, hround, hslots⟩ := Option.map_eq_some_iff.mp hrun
  obtain ⟨hfilled, hreply⟩ := of_decide_eq_true hslots
  refine ⟨slots, .step (.initial fun _ => rfl) trivial hround, ?_, hreply, by decide +kernel⟩
  intro hdrained
  exact hfilled (hdrained temporarySlot (Nat.le_refl _))

end Cenix.InitrdFs
