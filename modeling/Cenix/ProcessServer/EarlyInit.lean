import Cenix.ProcessServer.Starting

namespace Cenix.ProcessServer

open Bflt Fields FileProtocol InitrdFs Jax Programs
open Vfs (pidBits ipcMessage vfsNewProcess vfsShareNamespace)

/-! The first programs hold what the process server has given them, and nothing else. -/

def pidSetSlot : Nat := 2

/-- `endpoint_alloc_args.address` -/
def endpointSlot : Nat := 6

section

variable {κ : Type}

def World.occupied (w : World κ) (slot : Nat) : Bool :=
  (w.slots slot).isSome || (w.nodes slot).isSome

/-! System calls. -/

/-- `assert` that a call returns 0. -/
def check (call : Server κ Nat) : Server κ Unit := do
  let result ← call
  if result ≠ 0 then failure else return ()

/-- `allocate_pid` -/
def takePid : Server κ Nat := do
  let answer ← ask (.lock pidSetSlot)
  let w ← get
  let (pid, pids) := allocatePid (answer.pointer != 0) w.pids
  set { w with pids := pids }
  return pid

/-- `ADDRESS_SPACE_ALLOC` of a node. -/
def allocNode (slot : Nat) : Server κ Nat :=
  allocAt slot (·.occupied slot) fun _ w => w.setNode slot (some fun _ => none)

/-- `ADDRESS_SPACE_ALLOC` of an endpoint. -/
def allocEndpoint (slot : Nat) : Server κ Nat :=
  allocAt slot (·.occupied slot) fun answer w => w.setSlot slot answer.capability

/-- `NODE_COPY` with all rights.  A copy of an empty slot is an empty slot. -/
def nodeCopy (node source slot : Nat) : Server κ Nat := do
  let answer ← ask (.copy source slot)
  let w ← get
  if answer.result ≠ 0 then
    return answer.result
  else
    match w.nodes node with
    | none => return eCapInval
    | some contents =>
        if (contents slot).isSome then
          return eCapExists
        else
          set (w.setNode node (some (Function.update contents slot (w.slots source))))
          return 0

def send (endpoint : Nat) (message : IpcMessage) : Server κ Nat := do
  let answer ← ask (.send endpoint)
  let w ← get
  match w.slots endpoint with
  | none => return eCapInval
  | some capability =>
      if answer.result = 0 then
        set { w with sent := w.sent ++ [(capability, message)] }
      return answer.result

/-- Where a capability of a message is stored. -/
inductive Destination where
  | slot (slot : Nat)
  | inNode (node slot : Nat)
  deriving DecidableEq, Repr

/-- A capability is only stored in an empty slot. -/
def World.store (w : World κ) (capability : Option κ) : Destination → World κ
  | .slot slot => if w.occupied slot then w else w.setSlot slot capability
  | .inNode node slot =>
      match w.nodes node with
      | none => w
      | some contents =>
          if (contents slot).isSome then w
          else w.setNode node (some (Function.update contents slot capability))

/-- `ENDPOINT_RECEIVE` and the first word of the message.  The programs that run until it
arrives may change the memory. -/
def receive (endpoint : Nat) (destination : Destination) : Server κ (Nat × Nat) := do
  let answer ← ask (.receive endpoint)
  modify fun w => { w with memory := answer.memory }
  if answer.result = 0 then
    modify (·.store answer.capability destination)
  return (answer.result, answer.value)

def vfsCall (endpoint replyEndpoint : Nat) (toSend : IpcMessage) (destination : Destination) :
    Server κ Nat := do
  let result ← send endpoint toSend
  if result ≠ 0 then
    return result
  else
    let (result, value) ← receive replyEndpoint destination
    return if result ≠ 0 then result else value

/-! `early_init` -/

/-- `{pid >> 8, pid & 0xff}` in front of the creator's pid 1. -/
def newProcessMessage (pid endpoint : Nat) : IpcMessage :=
  ipcMessage [vfsNewProcess, vfsShareNamespace, BitVec.ofNat 8 (pid / 2 ^ 8),
    BitVec.ofNat 8 pid, 0, 1] [⟨endpoint, sizeMax⟩] 1

abbrev SetupCallback (κ : Type) := Nat → Server κ Unit

def vfsServerSetupCallback (endpoint : Nat) : SetupCallback κ := fun _ =>
  check (nodeCopy rootNodeAddress endpoint 2)

def initrdFsSetupCallback (endpoint : Nat) : SetupCallback κ := fun pid =>
  check (vfsCall vfsEndpointSlot endpoint (newProcessMessage pid endpoint)
    (.inNode rootNodeAddress 2))

def initrdFsRegistersCallback (order : ByteOrder) (start stop : Word) : RegistersCallback :=
  fun registers m =>
    let (data, registers) := startArguments registers (4 * 2)
    let state := addArgument order registers start 4 (data, m)
    let (_, m) := addArgument order registers stop 4 state
    (0, registers, m)

/-- `start` and `stop` are where the archive is. -/
def startProcess (order : ByteOrder) (fuel : Nat) (start stop : Word) (filename : Nat)
    (setupCallback : SetupCallback κ) (registersCallback : Option RegistersCallback) :
    Server κ Unit := do
  let pid ← takePid
  check (allocNode rootNodeAddress)
  check (nodeCopy rootNodeAddress 0 0)
  check (nodeCopy rootNodeAddress 1 1)
  setupCallback pid
  let w ← get
  match openJax (World.numbered w.memory) start.toNat stop.toNat with
  | none => failure
  | some iter =>
      check (execFromInitrd order fuel pid iter filename rootNodeAddress registersCallback)

/-- `vfsServer` and `initrdFs` are the addresses of their paths. -/
def earlyInit (order : ByteOrder) (fuel : Nat) (start stop : Word) (vfsServer initrdFs : Nat) :
    Server κ Unit := do
  check (allocEndpoint endpointSlot)
  startProcess order fuel start stop vfsServer (vfsServerSetupCallback endpointSlot) none
  check (Prod.fst <$> receive endpointSlot (.slot vfsEndpointSlot))
  check (Prod.fst <$> receive endpointSlot (.slot rootFdSlot))
  startProcess order fuel start stop initrdFs (initrdFsSetupCallback endpointSlot)
    (some (initrdFsRegistersCallback order start stop))

/-! What the calls have done when they return 0. -/

variable {w w' : World κ}

theorem check_some {call : Server κ Nat} (h : check call w = some ((), w')) :
    call w = some (0, w') := by
  obtain ⟨result, w₁, hcall, hrest⟩ := bind_some h
  by_cases hresult : result = 0
  · rw [if_neg (not_not.mpr hresult)] at hrest
    cases hrest
    rw [hcall, hresult]
  · rw [if_pos hresult] at hrest
    cases hrest

theorem allocAt_zero {address : Nat} {occupied : World κ → Bool}
    {fill : Answer κ → World κ → World κ} (h : allocAt address occupied fill w = some (0, w')) :
    occupied (w.later 1) = false ∧ w' = fill (w.answers w.time (.alloc address)) (w.later 1) := by
  by_cases hgranted : (w.answers w.time (.alloc address)).result = 0 ∧
      occupied (w.later 1) = false
  · rw [allocAt_granted hgranted.1 hgranted.2] at h
    cases h
    exact ⟨hgranted.2, rfl⟩
  · obtain ⟨result, hne, hrefused⟩ := @allocAt_refused κ w address occupied fill fun hresult => by
      rw [← Bool.not_eq_false]
      exact fun hfree => hgranted ⟨hresult, hfree⟩
    rw [hrefused] at h
    cases h
    exact absurd rfl hne

theorem takePid_some {pid : Nat} (h : takePid w = some (pid, w')) :
    ∃ locked pids, allocatePid locked w.pids = (pid, pids) ∧
      w' = { w.later 1 with pids := pids } := by
  cases h
  exact ⟨_, _, rfl, rfl⟩

theorem nodeCopy_zero {node source slot : Nat} (h : nodeCopy node source slot w = some (0, w')) :
    ∃ contents, w.nodes node = some contents ∧ contents slot = none ∧
      w' = (w.later 1).setNode node (some (Function.update contents slot (w.slots source))) := by
  have hask : ask (.copy source slot) w =
    some (w.answers w.time (.copy source slot), w.later 1) := rfl
  have hget : (get : Server κ (World κ)) (w.later 1) = some (w.later 1, w.later 1) := rfl
  rw [nodeCopy, bind_of hask, bind_of hget] at h
  by_cases hresult : (w.answers w.time (.copy source slot)).result = 0
  · rw [if_neg (not_not.mpr hresult)] at h
    cases hnode : (w.later 1).nodes node with
    | none =>
        rw [hnode] at h
        cases h
    | some contents =>
        rw [hnode] at h
        cases hslot : contents slot with
        | some capability =>
            simp only [hslot, Option.isSome_some, if_true] at h
            cases h
        | none =>
            simp only [hslot, Option.isSome_none, Bool.false_eq_true, if_false] at h
            cases h
            exact ⟨contents, hnode, hslot, rfl⟩
  · rw [if_pos hresult] at h
    exact absurd (congrArg Prod.fst (Option.some.inj h)) hresult

theorem nodes_setNode (w : World κ) (slot : Nat) (node : Option (Nat → Option κ)) :
    (w.setNode slot node).nodes slot = node :=
  Function.update_self ..

theorem nodeCopy_in {node source slot : Nat} {contents : Nat → Option κ}
    (h : nodeCopy node source slot w = some (0, w')) (hnode : w.nodes node = some contents) :
    w' = (w.later 1).setNode node (some (Function.update contents slot (w.slots source))) := by
  obtain ⟨contents', hnode', -, rfl⟩ := nodeCopy_zero h
  cases hnode.symm.trans hnode'
  rfl

theorem send_zero {endpoint : Nat} {message : IpcMessage}
    (h : send endpoint message w = some (0, w')) :
    ∃ capability, w.slots endpoint = some capability ∧
      w' = { w.later 1 with sent := w.sent ++ [(capability, message)] } := by
  have hask : ask (.send endpoint) w =
    some (w.answers w.time (.send endpoint), w.later 1) := rfl
  have hget : (get : Server κ (World κ)) (w.later 1) = some (w.later 1, w.later 1) := rfl
  rw [send, bind_of hask, bind_of hget] at h
  cases hslot : (w.later 1).slots endpoint with
  | none =>
      rw [hslot] at h
      cases h
  | some capability =>
      rw [hslot] at h
      by_cases hresult : (w.answers w.time (.send endpoint)).result = 0
      · simp only [hresult, if_true] at h
        cases h
        exact ⟨capability, hslot, rfl⟩
      · simp only [hresult, if_false] at h
        exact absurd (congrArg Prod.fst (Option.some.inj h)) hresult

/-- The world when a message has been received. -/
def World.received (w : World κ) (endpoint : Nat) (destination : Destination) : World κ :=
  World.store { w.later 1 with memory := (w.answers w.time (.receive endpoint)).memory }
    (w.answers w.time (.receive endpoint)).capability destination

theorem receive_zero {endpoint result value : Nat} {destination : Destination}
    (h : receive endpoint destination w = some ((result, value), w')) (hresult : result = 0) :
    w' = w.received endpoint destination := by
  have hask : ask (.receive endpoint) w =
    some (w.answers w.time (.receive endpoint), w.later 1) := rfl
  have hmemory : (modify fun w' => { w' with
      memory := (w.answers w.time (.receive endpoint)).memory } : Server κ Unit) (w.later 1) =
    some ((), { w.later 1 with memory := (w.answers w.time (.receive endpoint)).memory }) := rfl
  rw [receive, bind_of hask, bind_of hmemory] at h
  by_cases hgranted : (w.answers w.time (.receive endpoint)).result = 0
  · simp only [hgranted, if_true] at h
    cases h
    rfl
  · simp only [hgranted, if_false] at h
    have hfirst := congrArg (fun r => r.1.1) (Option.some.inj h)
    exact absurd (hfirst.trans hresult) hgranted

theorem received_of_map {endpoint : Nat} {destination : Destination}
    (h : (Prod.fst <$> receive endpoint destination : Server κ Nat) w = some (0, w')) :
    w' = w.received endpoint destination := by
  have hbind : (receive endpoint destination w).bind (fun r => some (r.1.1, r.2)) =
    some (0, w') := h
  obtain ⟨⟨⟨result, value⟩, w₁⟩, hreceive, hresult⟩ := Option.bind_eq_some_iff.mp hbind
  cases hresult
  exact receive_zero hreceive rfl

theorem vfsCall_zero {endpoint replyEndpoint : Nat} {message : IpcMessage}
    {destination : Destination}
    (h : vfsCall endpoint replyEndpoint message destination w = some (0, w')) :
    ∃ capability, w.slots endpoint = some capability ∧
      w' = { w.later 1 with sent := w.sent ++ [(capability, message)] }.received
        replyEndpoint destination := by
  obtain ⟨result, w₁, hsend, hrest⟩ := bind_some h
  by_cases hresult : result = 0
  · rw [if_neg (not_not.mpr hresult)] at hrest
    obtain ⟨⟨received, value⟩, w₂, hreceive, hvalue⟩ := bind_some hrest
    subst hresult
    obtain ⟨capability, hslot, rfl⟩ := send_zero hsend
    refine ⟨capability, hslot, ?_⟩
    by_cases hzero : received = 0
    · have hworld : w₂ = w' := congrArg Prod.snd (Option.some.inj hvalue)
      exact hworld ▸ receive_zero hreceive hzero
    · simp only [hzero, ne_eq, not_false_eq_true, if_true] at hvalue
      exact absurd (congrArg Prod.fst (Option.some.inj hvalue)) hzero
  · rw [if_pos hresult] at hrest
    exact absurd (congrArg Prod.fst (Option.some.inj hrest)) hresult

theorem store_slot (w : World κ) (capability : Option κ) (slot : Nat) :
    ∃ slots, w.store capability (.slot slot) = { w with slots := slots } ∧
      ∀ other, other ≠ slot → slots other = w.slots other := by
  by_cases hoccupied : w.occupied slot = true
  · exact ⟨w.slots, if_pos hoccupied, fun _ _ => rfl⟩
  · exact ⟨_, if_neg hoccupied, fun other hother => Function.update_of_ne hother ..⟩

theorem store_inNode (w : World κ) (capability : Option κ) (node slot : Nat) :
    ∃ nodes, w.store capability (.inNode node slot) = { w with nodes := nodes } ∧
      ∀ contents, w.nodes node = some contents → contents slot = none →
        nodes node = some (Function.update contents slot capability) := by
  by_cases hfree : ∃ contents, w.nodes node = some contents ∧ contents slot = none
  · obtain ⟨contents, hnode, hslot⟩ := hfree
    refine ⟨Function.update w.nodes node (some (Function.update contents slot capability)), ?_, ?_⟩
    · simp [World.store, hnode, hslot, World.setNode]
    · intro contents' hcontents _
      cases hnode.symm.trans hcontents
      exact Function.update_self ..
  · refine ⟨w.nodes, ?_, fun contents hnode hslot => absurd ⟨contents, hnode, hslot⟩ hfree⟩
    cases hnode : w.nodes node with
    | none => simp [World.store, hnode]
    | some contents =>
        cases hslot : contents slot with
        | none => exact absurd ⟨contents, hnode, hslot⟩ hfree
        | some stored => simp [World.store, hnode, hslot]

/-! What becomes of a process. -/

/-- The memory as it is, or as it can be when a message arrives. -/
def Meanwhile (w : World κ) (m : Ram) : Prop :=
  m = w.memory ∨ ∃ time endpoint, m = (w.answers time (.receive endpoint)).memory

theorem Meanwhile.trans {m : Ram} (h : Meanwhile w w'.memory) (hanswers : w'.answers = w.answers)
    (hm : Meanwhile w' m) : Meanwhile w m := by
  cases hm with
  | inl heq => exact heq ▸ h
  | inr hreceived => exact .inr (hanswers ▸ hreceived)

/-- What a `setup_callback` does to the world, with the capability that it puts next to those
that every process is given. -/
structure SetsUp (w w' : World κ) (third : Option κ) : Prop where
  answers : w'.answers = w.answers
  pids : w'.pids = w.pids
  slots : w'.slots = w.slots
  threads : w'.threads = w.threads
  memory : Meanwhile w w'.memory
  root : ∀ contents, w.nodes rootNodeAddress = some contents → contents 2 = none →
    w'.nodes rootNodeAddress = some (Function.update contents 2 third)

theorem SetsUp.vfsServer {pid endpoint : Nat}
    (h : vfsServerSetupCallback endpoint pid w = some ((), w')) :
    SetsUp w w' (w.slots endpoint) ∧ w'.sent = w.sent := by
  obtain ⟨contents, hnode, hslot, rfl⟩ := nodeCopy_zero (check_some h)
  refine ⟨⟨rfl, rfl, rfl, rfl, .inl rfl, fun contents' hcontents _ => ?_⟩, rfl⟩
  cases hnode.symm.trans hcontents
  exact Function.update_self rootNodeAddress _ w.nodes

theorem SetsUp.initrdFs {pid endpoint : Nat}
    (h : initrdFsSetupCallback endpoint pid w = some ((), w')) :
    ∃ time capability, SetsUp w w' (w.answers time (.receive endpoint)).capability ∧
      w.slots vfsEndpointSlot = some capability ∧
      w'.sent = w.sent ++ [(capability, newProcessMessage pid endpoint)] := by
  obtain ⟨capability, hslot, rfl⟩ := vfsCall_zero (check_some h)
  unfold World.received
  obtain ⟨nodes, hstored, hroot⟩ := store_inNode
    { ({ w.later 1 with
        sent := w.sent ++ [(capability, newProcessMessage pid endpoint)] } : World κ).later 1 with
      memory := (w.answers (w.time + 1) (.receive endpoint)).memory }
    (w.answers (w.time + 1) (.receive endpoint)).capability rootNodeAddress 2
  refine ⟨w.time + 1, capability, ?_, hslot, ?_⟩
  · refine Eq.mpr (congrArg (fun w' => SetsUp w w' _) hstored) ?_
    exact ⟨rfl, rfl, rfl, rfl, .inr ⟨_, _, rfl⟩, hroot⟩
  · exact congrArg World.sent hstored

/-- A program of the archive, with its path and where the path is in memory. -/
structure Program where
  filename : Nat
  path : List Byte
  child : Nat × DescribedRecord
  entries : Nat

/-- The archive stays as it is, the file is the first with its path and a binary with room for
its arguments, and whatever memory the kernel locks for it is apart from the archive. -/
structure Installed (order : ByteOrder) (w : World κ) (start stop : Word)
    (records : List DescribedRecord) (program : Program) (arguments : Option (List Word)) :
    Prop where
  magic : ∀ m, Meanwhile w m → (World.numbered m).Stored start.toNat magic
  archive : ∀ m, Meanwhile w m → InArchive { w with memory := m }
    ⟨start.toNat + 4, stop.toNat⟩ records program.filename program.path
  wanted : wanted ⟨start.toNat + 4, stop.toNat⟩ records program.path = some program.child
  verified : bfltVerify (headerOf order program.child.2.data) = true
  binary : Consistent order (headerOf order program.child.2.data) program.child.2.data
    program.entries
  room : 4 * (arguments.getD []).length ≤
    (headerOf order program.child.2.data).stackSize.toNat
  memory : ∀ time pid, (w.answers time (.lock (dataAddress pid))).pointer ≠ 0 →
    Loadable (headerOf order program.child.2.data) program.child.2.data
      (headerAddress program.child) (w.answers time (.lock (dataAddress pid))).pointer
      (w.answers time (.lock (dataAddress pid))).memory

/-- What is in the root node of a new process. -/
def handed (w : World κ) (third : Option κ) (slot : Nat) : Option κ :=
  if slot < 2 then w.slots slot else if slot = 2 then third else none

/-- A process runs its program from the start, with these capabilities. -/
def Runs (order : ByteOrder) (w : World κ) (program : Program) (arguments : Option (List Word))
    (pid : Nat) (root : Nat → Option κ) : Prop :=
  ∃ allocation registers memory, w.threads pid = some ⟨registers, some root, some memory⟩ ∧
    Finds order program.child.2.data program.entries (headerAddress program.child) allocation
      arguments registers memory

theorem Runs.of_threads {order : ByteOrder} {program : Program} {arguments : Option (List Word)}
    {pid : Nat} {root : Nat → Option κ} (h : Runs order w program arguments pid root)
    (hthread : w'.threads pid = w.threads pid) : Runs order w' program arguments pid root := by
  obtain ⟨allocation, registers, memory, hthread', hfinds⟩ := h
  exact ⟨allocation, registers, memory, hthread.trans hthread', hfinds⟩

/-- What a successful start has changed. -/
structure Started (order : ByteOrder) (w w' : World κ) (program : Program)
    (arguments : Option (List Word)) (pid : Nat) (third : Option κ) : Prop where
  answers : w'.answers = w.answers
  slots : w'.slots = w.slots
  pids : ∃ locked, allocatePid locked w.pids = (pid, w'.pids)
  free : w.threads pid = none
  others : ∀ other, other ≠ pid → w'.threads other = w.threads other
  runs : Runs order w' program arguments pid (handed w third)

theorem update_handed (w : World κ) (third : Option κ) :
    Function.update (Function.update (Function.update (fun _ => none) 0 (w.slots 0)) 1
      (w.slots 1)) 2 third = handed w third := by
  funext slot
  match slot with
  | 0 => rfl
  | 1 => rfl
  | 2 => rfl
  | slot + 3 => simp [handed]

/-- A program that is installed is started, if it is not refused. -/
theorem execFromInitrd_zero {order : ByteOrder} {w₀ : World κ} {start stop : Word}
    {records : List DescribedRecord} {program : Program} {arguments : Option (List Word)}
    {fuel pid nodeAddress : Nat} (hobliging : Obliging w₀)
    (hinstalled : Installed order w₀ start stop records program arguments)
    (hfuel : records.length < fuel) (hentries : program.entries < fuel)
    (hpid : pid < 2 ^ pidBits) (hanswers : w.answers = w₀.answers)
    (hmemory : Meanwhile w₀ w.memory)
    (h : execFromInitrd order fuel pid ⟨start.toNat + 4, stop.toNat⟩ program.filename
      nodeAddress (arguments.map (passArguments order)) w = some (0, w')) :
    w.threads pid = none ∧ ∃ allocation registers memory,
      w' = (w.prepared pid (bfltAllocationSize (headerOf order program.child.2.data))).launched
        pid nodeAddress registers memory ∧
      Finds order program.child.2.data program.entries (headerAddress program.child) allocation
        arguments (sanitizeRegisters registers) memory := by
  have hkept := hinstalled.archive w.memory hmemory
  have harchive : InArchive w ⟨start.toNat + 4, stop.toNat⟩ records program.filename
      program.path := ⟨hkept.ahead, hkept.stored, hkept.terminated, hkept.first⟩
  have hverify : bfltVerify (headerAt order w.memory (headerAddress program.child)) = true := by
    rw [headerAt_wanted harchive hinstalled.wanted hinstalled.binary]
    exact hinstalled.verified
  have hobliging' : Obliging w := hobliging.of_answers hanswers
  by_cases hgranted : Granted w pid
  · have hsuits : Suited order w pid program.child program.entries arguments := by
      refine ⟨hinstalled.binary, hinstalled.room, ?_⟩
      rw [World.locked, hanswers]
      exact hinstalled.memory (w.time + 2) pid
    obtain ⟨registers, memory, hrun, hfinds⟩ := execFromInitrd_started hpid hobliging' harchive
      hinstalled.wanted hverify hsuits hgranted hfuel hentries
    cases hrun.symm.trans h
    exact ⟨hgranted.noThread, _, registers, memory, rfl, hfinds⟩
  · obtain ⟨w₁, hrun, -⟩ := execFromInitrd_refused hpid hobliging' harchive hinstalled.wanted
      hverify hgranted hfuel (arguments.map (passArguments order))
    cases hrun.symm.trans h

/-- The root node of a new process with the capabilities that all are given. -/
structure RootMade (w w' : World κ) (pid : Nat) : Prop where
  answers : w'.answers = w.answers
  pids : ∃ locked, allocatePid locked w.pids = (pid, w'.pids)
  slots : w'.slots = w.slots
  threads : w'.threads = w.threads
  memory : w'.memory = w.memory
  sent : w'.sent = w.sent
  root : w'.nodes rootNodeAddress = some (Function.update (Function.update (fun _ => none) 0
    (w.slots 0)) 1 (w.slots 1))

theorem RootMade.of_calls {pid : Nat} {w₁ w₂ w₃ : World κ} (htake : takePid w = some (pid, w₁))
    (hroot : check (allocNode rootNodeAddress) w₁ = some ((), w₂))
    (hfirst : check (nodeCopy rootNodeAddress 0 0) w₂ = some ((), w₃))
    (hsecond : check (nodeCopy rootNodeAddress 1 1) w₃ = some ((), w')) : RootMade w w' pid := by
  obtain ⟨locked, pids, hpid, hw₁⟩ := takePid_some htake
  have hw₂ := (allocAt_zero (check_some hroot)).2
  have hroot₂ : w₂.nodes rootNodeAddress = some fun _ => none := hw₂ ▸ nodes_setNode ..
  have hw₃ := nodeCopy_in (check_some hfirst) hroot₂
  have hroot₃ : w₃.nodes rootNodeAddress =
    some (Function.update (fun _ => none) 0 (w₂.slots 0)) := hw₃ ▸ nodes_setNode ..
  have hw' := nodeCopy_in (check_some hsecond) hroot₃
  subst hw' hw₃ hw₂ hw₁
  exact ⟨rfl, ⟨locked, hpid⟩, rfl, rfl, rfl, rfl, nodes_setNode ..⟩

/-- A process is started with the capabilities that all are given and the one of its
`setup_callback`. -/
theorem startProcess_some {order : ByteOrder} {w₀ : World κ} {start stop : Word}
    {records : List DescribedRecord} {program : Program} {arguments : Option (List Word)}
    {fuel : Nat} {setupCallback : SetupCallback κ} (hobliging : Obliging w₀)
    (hinstalled : Installed order w₀ start stop records program arguments)
    (hfuel : records.length < fuel) (hentries : program.entries < fuel)
    (hpids : ∀ locked, (allocatePid locked w.pids).1 < 2 ^ pidBits)
    (hanswers : w.answers = w₀.answers) (hmemory : Meanwhile w₀ w.memory)
    {SetUp : Nat → World κ → Option κ → Prop}
    (hsetup : ∀ pid w₁ w₂, w₁.answers = w.answers → w₁.slots = w.slots → w₁.sent = w.sent →
      setupCallback pid w₁ = some ((), w₂) → ∃ third, SetsUp w₁ w₂ third ∧ SetUp pid w₂ third)
    (h : startProcess order fuel start stop program.filename setupCallback
      (arguments.map (passArguments order)) w = some ((), w')) :
    ∃ pid w₂ third, SetUp pid w₂ third ∧ w'.sent = w₂.sent ∧
      Started order w w' program arguments pid third := by
  obtain ⟨pid, w₁, htake, h⟩ := bind_some h
  obtain ⟨⟨⟩, w₂, hroot, h⟩ := bind_some h
  obtain ⟨⟨⟩, w₃, hfirst, h⟩ := bind_some h
  obtain ⟨⟨⟩, w₄, hsecond, h⟩ := bind_some h
  obtain ⟨⟨⟩, w₅, hset, h⟩ := bind_some h
  have hmade := RootMade.of_calls htake hroot hfirst hsecond
  obtain ⟨third, hsets, hthird⟩ :=
    hsetup pid w₄ w₅ hmade.answers hmade.slots hmade.sent hset
  have hanswers₄ : w₄.answers = w₀.answers := hmade.answers.trans hanswers
  have hanswers₅ : w₅.answers = w₀.answers := hsets.answers.trans hanswers₄
  have hmemory₄ : Meanwhile w₀ w₄.memory := hmade.memory ▸ hmemory
  have hmemory₅ : Meanwhile w₀ w₅.memory := hmemory₄.trans hanswers₄ hsets.memory
  have hget : (get : Server κ (World κ)) w₅ = some (w₅, w₅) := rfl
  have hstop : start.toNat + 4 ≤ stop.toNat := by
    have hlength := (hinstalled.archive _ hmemory₅).ahead.stop
    simp only at hlength
    omega
  rw [bind_of hget, openJax_magic (hinstalled.magic _ hmemory₅) hstop] at h
  obtain ⟨locked, hallocated⟩ := hmade.pids
  have hpid : pid < 2 ^ pidBits := by
    have hlt := hpids locked
    rwa [hallocated] at hlt
  obtain ⟨hfree, allocation, registers, memory, rfl, hfinds⟩ := execFromInitrd_zero hobliging
    hinstalled hfuel hentries hpid hanswers₅ hmemory₅ (check_some h)
  have hthreads : w₅.threads = w.threads := hsets.threads.trans hmade.threads
  have hcontents : w₅.nodes rootNodeAddress = some (handed w third) := by
    rw [hsets.root _ hmade.root rfl, update_handed]
  refine ⟨pid, w₅, third, hthird, rfl, ?_⟩
  constructor
  · exact hsets.answers.trans hmade.answers
  · exact hsets.slots.trans hmade.slots
  · exact ⟨locked, hallocated.trans (congrArg (Prod.mk pid) hsets.pids.symm)⟩
  · rw [← hthreads]
    exact hfree
  · intro other hother
    rw [← hthreads]
    simp only [World.launched, World.prepared, Function.update_idem]
    exact Function.update_of_ne hother ..
  · refine ⟨allocation, sanitizeRegisters registers, memory, ?_, hfinds⟩
    rw [← hcontents]
    exact Function.update_self ..

/-- What a message that arrives changes. -/
structure Received (w w' : World κ) (slot : Nat) : Prop where
  answers : w'.answers = w.answers
  pids : w'.pids = w.pids
  threads : w'.threads = w.threads
  sent : w'.sent = w.sent
  memory : ∃ time endpoint, w'.memory = (w.answers time (.receive endpoint)).memory
  slots : ∀ other, other ≠ slot → w'.slots other = w.slots other

theorem Received.of_call {endpoint slot : Nat}
    (h : check (Prod.fst <$> receive endpoint (.slot slot)) w = some ((), w')) :
    Received w w' slot := by
  have hreceived := received_of_map (check_some h)
  obtain ⟨slots, hstored, hothers⟩ := store_slot
    { w.later 1 with memory := (w.answers w.time (.receive endpoint)).memory }
    (w.answers w.time (.receive endpoint)).capability slot
  rw [World.received, hstored] at hreceived
  subst hreceived
  exact ⟨rfl, rfl, rfl, rfl, ⟨_, _, rfl⟩, hothers⟩

theorem handed_congr (third : Option κ) (h : ∀ slot, slot < 2 → w'.slots slot = w.slots slot) :
    handed w' third = handed w third := by
  funext slot
  unfold handed
  split
  · rename_i hlt
    exact h slot hlt
  · rfl

section

variable {order : ByteOrder} {w₀ : World κ} {start stop : Word} {records : List DescribedRecord}
  {program : Program} {fuel : Nat}

theorem startsVfsServer (hobliging : Obliging w₀)
    (hinstalled : Installed order w₀ start stop records program none)
    (hfuel : records.length < fuel) (hentries : program.entries < fuel)
    (hpids : ∀ locked, (allocatePid locked w.pids).1 < 2 ^ pidBits)
    (hanswers : w.answers = w₀.answers) (hmemory : Meanwhile w₀ w.memory)
    (h : startProcess order fuel start stop program.filename
      (vfsServerSetupCallback endpointSlot) none w = some ((), w')) :
    ∃ vfs, Started order w w' program none vfs (w.slots endpointSlot) ∧ w'.sent = w.sent := by
  have hsetup : ∀ pid w₁ w₂, w₁.answers = w.answers → w₁.slots = w.slots → w₁.sent = w.sent →
      vfsServerSetupCallback endpointSlot pid w₁ = some ((), w₂) →
      ∃ third, SetsUp w₁ w₂ third ∧ third = w.slots endpointSlot ∧ w₂.sent = w.sent := by
    intro pid w₁ w₂ _ hslots hsent hset
    obtain ⟨hsets, hsame⟩ := SetsUp.vfsServer hset
    exact ⟨_, hsets, congrFun hslots _, hsame.trans hsent⟩
  obtain ⟨vfs, w₁, third, ⟨rfl, hsame⟩, hsent, hstarted⟩ :=
    startProcess_some hobliging hinstalled hfuel hentries hpids hanswers hmemory hsetup h
  exact ⟨vfs, hstarted, hsent.trans hsame⟩

theorem startsInitrdFs (hobliging : Obliging w₀)
    (hinstalled : Installed order w₀ start stop records program (some [start, stop]))
    (hfuel : records.length < fuel) (hentries : program.entries < fuel)
    (hpids : ∀ locked, (allocatePid locked w.pids).1 < 2 ^ pidBits)
    (hanswers : w.answers = w₀.answers) (hmemory : Meanwhile w₀ w.memory)
    (h : startProcess order fuel start stop program.filename
      (initrdFsSetupCallback endpointSlot) (some (initrdFsRegistersCallback order start stop)) w =
        some ((), w')) :
    ∃ initrd time capability, Started order w w' program (some [start, stop]) initrd
        (w₀.answers time (.receive endpointSlot)).capability ∧
      w.slots vfsEndpointSlot = some capability ∧
      w'.sent = w.sent ++ [(capability, newProcessMessage initrd endpointSlot)] := by
  have hsetup : ∀ pid w₁ w₂, w₁.answers = w.answers → w₁.slots = w.slots → w₁.sent = w.sent →
      initrdFsSetupCallback endpointSlot pid w₁ = some ((), w₂) →
      ∃ third, SetsUp w₁ w₂ third ∧ ∃ time capability,
        third = (w₀.answers time (.receive endpointSlot)).capability ∧
        w.slots vfsEndpointSlot = some capability ∧
        w₂.sent = w.sent ++ [(capability, newProcessMessage pid endpointSlot)] := by
    intro pid w₁ w₂ hanswers₁ hslots hsent hset
    obtain ⟨time, capability, hsets, hslot, htold⟩ := SetsUp.initrdFs hset
    rw [hslots] at hslot
    rw [hsent] at htold
    rw [hanswers₁, hanswers] at hsets
    exact ⟨_, hsets, time, capability, rfl, hslot, htold⟩
  obtain ⟨initrd, w₁, third, ⟨time, capability, rfl, hslot, htold⟩, hsent, hstarted⟩ :=
    startProcess_some hobliging hinstalled hfuel hentries hpids hanswers hmemory hsetup h
  exact ⟨initrd, time, capability, hstarted, hslot, hsent.trans htold⟩

end

/-- The vfs server holds the endpoint that the process server gives it, and the file system of
the archive holds what the vfs server has answered with. -/
structure FirstPrograms (order : ByteOrder) (w w' : World κ) (start stop : Word)
    (vfsServer initrdFs : Program) (vfs initrd : Nat) : Prop where
  distinct : vfs ≠ initrd
  free : w.threads vfs = none ∧ w.threads initrd = none
  vfsServer : Runs order w' vfsServer none vfs (handed w (w'.slots endpointSlot))
  initrdFs : ∃ time, Runs order w' initrdFs (some [start, stop]) initrd
    (handed w (w.answers time (.receive endpointSlot)).capability)
  others : ∀ other, other ≠ vfs → other ≠ initrd → w'.threads other = w.threads other
  told : ∃ capability, w'.slots vfsEndpointSlot = some capability ∧
    w'.sent = w.sent ++ [(capability, newProcessMessage initrd endpointSlot)]

/-- Two starts one after the other. -/
theorem FirstPrograms.of_started {order : ByteOrder} {start stop : Word}
    {vfsServer initrdFs : Program} {vfs initrd time : Nat} {capability : κ} {w₁ w₂ w₃ : World κ}
    (hthreads₁ : w₁.threads = w.threads)
    (hslots₁ : ∀ slot, slot < 2 → w₁.slots slot = w.slots slot)
    (hvfs : Started order w₁ w₂ vfsServer none vfs (w₁.slots endpointSlot))
    (hthreads₃ : w₃.threads = w₂.threads)
    (hslots₃ : ∀ slot, slot ≠ rootFdSlot → slot ≠ vfsEndpointSlot →
      w₃.slots slot = w₂.slots slot)
    (hinitrd : Started order w₃ w' initrdFs (some [start, stop]) initrd
      (w.answers time (.receive endpointSlot)).capability)
    (hslot : w₃.slots vfsEndpointSlot = some capability)
    (hsent : w'.sent = w.sent ++ [(capability, newProcessMessage initrd endpointSlot)]) :
    FirstPrograms order w w' start stop vfsServer initrdFs vfs initrd := by
  have hdistinct : vfs ≠ initrd := by
    rintro rfl
    obtain ⟨_, _, _, hthread, _⟩ := hvfs.runs
    have hfree := hinitrd.free
    rw [hthreads₃, hthread] at hfree
    cases hfree
  have hothers : ∀ other, other ≠ vfs → w₃.threads other = w.threads other := by
    intro other hother
    rw [hthreads₃, hvfs.others other hother, hthreads₁]
  refine ⟨hdistinct, ⟨hthreads₁ ▸ hvfs.free, ?_⟩, ?_, ⟨time, ?_⟩, ?_, capability, ?_, hsent⟩
  · rw [← hothers initrd hdistinct.symm]
    exact hinitrd.free
  · have hendpoint : w'.slots endpointSlot = w₁.slots endpointSlot := by
      rw [hinitrd.slots, hslots₃ endpointSlot (by decide) (by decide), hvfs.slots]
    rw [hendpoint, ← handed_congr _ hslots₁]
    refine hvfs.runs.of_threads ?_
    rw [hinitrd.others vfs hdistinct, hthreads₃]
  · have hslots : ∀ slot, slot < 2 → w₃.slots slot = w.slots slot := by
      intro slot hlt
      rw [hslots₃ slot (by simp only [rootFdSlot]; omega) (by simp only [vfsEndpointSlot]; omega),
        hvfs.slots]
      exact hslots₁ slot hlt
    rw [← handed_congr _ hslots]
    exact hinitrd.runs
  · intro other hvfs hinitrd'
    rw [hinitrd.others other hinitrd', hothers other hvfs]
  · rw [hinitrd.slots]
    exact hslot

end

/-- The archive with its magic number in front of the record. -/
def bootMemory : Ram :=
  WordMemory.set binaryMemory 0x1fe0 magic

/-- A process server whose kernel hands over a new capability with every answer. -/
def bootWorld : World Nat where
  answers time _ := ⟨0, 0x1000, bootMemory, some time, 0⟩
  time := 0
  memory := bootMemory
  uninitialized := .zero
  pids := initProcessTable
  slots slot := if slot < 2 then some slot else none
  nodes _ := none
  data _ := none
  threads _ := none
  sent := []

def binaryProgram : Program where
  filename := 0x100
  path := [0x2f, 0x61]
  child := (0x1fe4, binaryRecord)
  entries := 2

theorem bootWorld_installed {arguments : Option (List Word)}
    (hroom : (arguments.getD []).length ≤ 4) :
    Installed .big bootWorld 0x1fe0 0x205c [binaryRecord] binaryProgram arguments := by
  have hmemory : ∀ m, Meanwhile bootWorld m → m = bootMemory := by
    rintro m (rfl | ⟨time, endpoint, rfl⟩)
    · rfl
    · rfl
  have hstack : (headerOf .big gotBinary).stackSize.toNat = 16 := by
    rw [headerOf_gotBinary]
    rfl
  have hloadable := gotBinary_loadable (.inl rfl : (0x1000 : Word) = 0x1000 ∨ _)
  have haddress : headerAddress binaryProgram.child = 0x2000 := by decide
  have hstored : bootMemory.bytesAt 0x2000 gotBinary.length = gotBinary := by decide +kernel
  constructor
  · intro m hm
    rw [hmemory m hm]
    decide +kernel
  · intro m hm
    rw [hmemory m hm]
    exact binaryRecord_inArchive (by decide +kernel) (by decide +kernel)
  · decide
  · have hverify : bfltVerify (headerOf .big gotBinary) = true := by
      rw [headerOf_gotBinary]
      rfl
    exact hverify
  · exact gotBinary_consistent
  · exact (Nat.mul_le_mul_left 4 hroom).trans (Nat.le_of_eq hstack.symm)
  · intro time pid _
    rw [haddress]
    exact ⟨hstored, hloadable.apart, hloadable.nonnull, hloadable.bound⟩

end Cenix.ProcessServer
