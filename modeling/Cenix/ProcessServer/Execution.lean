import Cenix.Bflt.Relocation
import Cenix.Jax.Finding
import Cenix.ProcessServer.Launching
import Cenix.Programs.Triple

namespace Cenix.ProcessServer

open Bflt Fields FileProtocol InitrdFs Jax Programs WordMemory
open Vfs (pidBits eNoEnt)

/-! A program is started as its file and its arguments say, or nothing is left of it. -/

/-! Arguments. -/

/-- Passes arguments of the size of a pointer. -/
def passArguments (order : ByteOrder) (arguments : List Word) : RegistersCallback :=
  fun registers m =>
    let (data, registers) := startArguments registers (BitVec.ofNat ptrBits (4 * arguments.length))
    let (_, m) := arguments.foldl
      (fun state argument => addArgument order registers argument 4 state) (data, m)
    (0, registers, m)

/-- Argument `i` of a function, behind its return address. -/
def argumentAt (order : ByteOrder) (registers : ThreadRegisters) (m : Ram) (i : Nat) : Word :=
  word order m (stackPointerOf registers + 4 + BitVec.ofNat ptrBits (4 * i))

/-- The stack pointer that `arguments` leave of the end of a stack. -/
def belowArguments (stackEnd : Word) (arguments : List Word) : Word :=
  stackEnd - (BitVec.ofNat ptrBits (4 * arguments.length) + 4)

section

variable {order : ByteOrder} {m : Ram} {stackEnd : Word}

theorem addArgument_eq (registers : ThreadRegisters) (argument increment : Word) :
    addArgument order registers argument 4 (⟨increment⟩, m) =
      (⟨increment + 4⟩, m.set (stackPointerOf registers + increment)
        (valueBytes order argument)) := by
  have hbytes : (numberBytes order wordBytes argument.toNat).take (4 : BitVec 8).toNat =
      valueBytes order argument :=
    List.take_of_length_le (Nat.le_of_eq (length_numberBytes ..))
  unfold addArgument
  rw [hbytes]
  rfl

theorem addArguments_eq (registers : ThreadRegisters) {arguments : List Word}
    (hlength : 4 * arguments.length ≤ 2 ^ ptrBits) (increment : Word) :
    (arguments.foldl (fun state argument => addArgument order registers argument 4 state)
      (⟨increment⟩, m)).2 =
      m.set (stackPointerOf registers + increment) (arrayBytes order arguments) := by
  induction arguments generalizing m increment with
  | nil =>
      funext x
      simp [arrayBytes, WordMemory.set]
  | cons argument arguments ih =>
      have hbytes : (arrayBytes order (argument :: arguments)).length ≤ 2 ^ ptrBits := by
        rwa [length_arrayBytes]
      rw [List.length_cons] at hlength
      have hnext : stackPointerOf registers + (increment + 4) =
          stackPointerOf registers + increment +
            BitVec.ofNat ptrBits (valueBytes order argument).length := by
        rw [length_valueBytes, BitVec.add_assoc]
        rfl
      rw [List.foldl_cons, addArgument_eq, ih (by omega), hnext]
      exact set_append hbytes

theorem passArguments_eq (registers : ThreadRegisters) {arguments : List Word}
    (hlength : 4 * arguments.length ≤ 2 ^ ptrBits) :
    passArguments order arguments registers m =
      (0, setStackPointer registers (belowArguments (stackPointerOf registers) arguments),
        m.set (belowArguments (stackPointerOf registers) arguments + 4)
          (arrayBytes order arguments)) := by
  have hbytes := @addArguments_eq order m
    (setStackPointer registers (belowArguments (stackPointerOf registers) arguments)) _ hlength 4
  exact congrArg (fun m => (0, setStackPointer registers
    (belowArguments (stackPointerOf registers) arguments), m)) hbytes

theorem argumentAt_passArguments {registers : ThreadRegisters} {arguments : List Word}
    (hlength : 4 * arguments.length ≤ 2 ^ ptrBits)
    (hstack : stackPointerOf registers = belowArguments stackEnd arguments) {i : Nat}
    (hi : i < arguments.length) :
    argumentAt order registers (m.set (belowArguments stackEnd arguments + 4)
      (arrayBytes order arguments)) i = arguments[i] := by
  have hbytes : (arrayBytes order arguments).length = 4 * arguments.length :=
    length_arrayBytes ..
  have hdrop := @bytesAt_set_drop _ m (belowArguments stackEnd arguments + 4)
    (arrayBytes order arguments) (by omega) (4 * i) 4 (by omega)
  have hvalue := @valueOf_arrayBytes ptrBits 4 order rfl arguments _ hi []
  rw [List.append_nil] at hvalue
  rw [argumentAt, hstack, ← hvalue, word, WordMemory.wordAt]
  exact congrArg (fun bytes => BitVec.ofNat ptrBits (ofNumberBytes order bytes)) hdrop

end

/-! What the system calls do. -/

section

variable {κ : Type}

/-- After some system calls that have changed nothing. -/
def World.later (w : World κ) (calls : Nat) : World κ :=
  { w with time := w.time + calls }

/-- What belongs to processes is as before. -/
structure Untouched (w w' : World κ) : Prop where
  answers : w'.answers = w.answers
  pids : w'.pids = w.pids
  slots : w'.slots = w.slots
  nodes : w'.nodes = w.nodes
  data : w'.data = w.data
  threads : w'.threads = w.threads
  sent : w'.sent = w.sent

/-- The kernel does what is asked with objects that exist. -/
structure Obliging (w : World κ) : Prop where
  delete : ∀ time node slot, (w.answers time (.delete node slot)).result = 0
  writeRegisters : ∀ time address, (w.answers time (.writeRegisters address)).result = 0
  setRootNode : ∀ time address, (w.answers time (.setRootNode address)).result = 0
  resume : ∀ time address, (w.answers time (.resume address)).result = 0

/-- How the memory of a process is locked after two allocations. -/
def World.locked (w : World κ) (pid : Nat) : Answer κ :=
  w.answers (w.time + 2) (.lock (dataAddress pid))

/-- The kernel has memory and a thread for the process, and slots for both. -/
structure Granted (w : World κ) (pid : Nat) : Prop where
  data : (w.answers w.time (.alloc (dataAddress pid))).result = 0
  noData : w.data pid = none
  thread : (w.answers (w.time + 1) (.alloc (threadAddress pid))).result = 0
  noThread : w.threads pid = none
  locked : (w.locked pid).pointer ≠ 0

variable {w : World κ} {pid : Nat}

theorem Untouched.refl (w : World κ) : Untouched w w :=
  ⟨rfl, rfl, rfl, rfl, rfl, rfl, rfl⟩

theorem Obliging.of_answers {w' : World κ} (h : Obliging w) (hanswers : w'.answers = w.answers) :
    Obliging w' := by
  constructor <;> rw [hanswers]
  · exact h.delete
  · exact h.writeRegisters
  · exact h.setRootNode
  · exact h.resume

theorem pidSlot_of_lt (hpid : pid < 2 ^ pidBits) : pidSlot pid = pid :=
  Nat.mod_eq_of_lt hpid

theorem allocAt_granted {address : Nat} {occupied : World κ → Bool}
    {fill : Answer κ → World κ → World κ} (h : (w.answers w.time (.alloc address)).result = 0)
    (hfree : occupied (w.later 1) = false) :
    allocAt address occupied fill w =
      some (0, fill (w.answers w.time (.alloc address)) (w.later 1)) := by
  have hask : ask (.alloc address) w = some (w.answers w.time (.alloc address), w.later 1) := rfl
  have hget : (get : Server κ (World κ)) (w.later 1) = some (w.later 1, w.later 1) := rfl
  rw [allocAt, bind_of hask, bind_of hget, if_neg (not_not.mpr h), hfree]
  rfl

theorem allocAt_refused {address : Nat} {occupied : World κ → Bool}
    {fill : Answer κ → World κ → World κ}
    (h : (w.answers w.time (.alloc address)).result = 0 → occupied (w.later 1) = true) :
    ∃ result, result ≠ 0 ∧ allocAt address occupied fill w = some (result, w.later 1) := by
  have hask : ask (.alloc address) w = some (w.answers w.time (.alloc address), w.later 1) := rfl
  have hget : (get : Server κ (World κ)) (w.later 1) = some (w.later 1, w.later 1) := rfl
  rw [allocAt, bind_of hask, bind_of hget]
  by_cases hresult : (w.answers w.time (.alloc address)).result = 0
  · refine ⟨eCapExists, by decide, ?_⟩
    rw [if_neg (not_not.mpr hresult), h hresult]
    rfl
  · refine ⟨_, hresult, ?_⟩
    rw [if_pos hresult]
    rfl

theorem nodeDelete_eq (hobliging : Obliging w) {node slot : Nat} (hslot : slot < 2 ^ pidBits)
    (clear : World κ → World κ) :
    nodeDelete node slot clear w = some ((), clear (w.later 1)) := by
  have hask : ask (.delete node slot) w =
      some (w.answers w.time (.delete node slot), w.later 1) := rfl
  rw [nodeDelete, bind_of hask, if_pos ⟨hobliging.delete .., hslot⟩]
  rfl

theorem invokeThread_eq {call : SystemCall} {change : World κ → NewThread κ → World κ}
    {thread : NewThread κ} (hpid : pid < 2 ^ pidBits) (hthread : w.threads pid = some thread)
    (h : (w.answers w.time call).result = 0) :
    invokeThread call pid change w = some ((), change (w.later 1) thread) := by
  have hask : ask call w = some (w.answers w.time call, w.later 1) := rfl
  have hget : (get : Server κ (World κ)) (w.later 1) = some (w.later 1, w.later 1) := rfl
  have hfound : (w.later 1).threads (pidSlot pid) = some thread := by
    rw [pidSlot_of_lt hpid]
    exact hthread
  rw [invokeThread, bind_of hask, bind_of hget, hfound]
  simp only [h, if_true]
  rfl

/-! The outcomes of `exec_from_initrd`. -/

variable {order : ByteOrder} {fuel : Nat} {header allocationSize : Word} {nodeAddress : Nat}
  {callback : Option RegistersCallback}

/-- The world when the memory of a process is locked. -/
def World.prepared (w : World κ) (pid : Nat) (allocationSize : Word) : World κ :=
  { w with
    time := w.time + 3
    memory := (w.locked pid).memory
    data := Function.update w.data pid (some allocationSize)
    threads := Function.update w.threads pid (some ⟨.zero, none, none⟩) }

/-- The slots of a process are emptied again. -/
theorem update_update_none {α : Type} {f : Nat → Option α} (h : f pid = none) (a : Option α) :
    Function.update (Function.update f pid a) pid none = f := by
  rw [Function.update_idem, ← h, Function.update_eq_self]

theorem deleteData_eq (hobliging : Obliging w) (hpid : pid < 2 ^ pidBits) :
    deleteData pid w = some ((), (w.later 1).setData pid none) :=
  nodeDelete_eq hobliging hpid _

theorem deleteThread_eq (hobliging : Obliging w) (hpid : pid < 2 ^ pidBits) :
    deleteThread pid w = some ((), (w.later 1).setThread pid none) :=
  nodeDelete_eq hobliging hpid _

/-- Both are deleted. -/
theorem giveUp_eq (hobliging : Obliging w) (hpid : pid < 2 ^ pidBits) :
    (do deleteData pid
        deleteThread pid
        return eNoMem : Server κ Nat) w =
      some (eNoMem, ((w.later 2).setData pid none).setThread pid none) := by
  have hobliging' : Obliging ((w.later 1).setData pid none) := hobliging.of_answers rfl
  rw [bind_of (deleteData_eq hobliging hpid), bind_of (deleteThread_eq hobliging' hpid)]
  rfl

theorem allocData_eq (hpid : pid < 2 ^ pidBits) (size : Word) :
    allocData (κ := κ) pid size = allocAt (dataAddress pid) (fun w => (w.data pid).isSome)
      fun _ w => w.setData pid (some size) := by
  rw [allocData, pidSlot_of_lt hpid]

theorem allocThread_eq (hpid : pid < 2 ^ pidBits) :
    allocThread (κ := κ) pid = allocAt (threadAddress pid) (fun w => (w.threads pid).isSome)
      fun _ w => w.setThread pid (some ⟨.zero, none, none⟩) := by
  rw [allocThread, pidSlot_of_lt hpid]

theorem allocData_granted (hpid : pid < 2 ^ pidBits)
    (h : (w.answers w.time (.alloc (dataAddress pid))).result = 0) (hfree : w.data pid = none)
    (size : Word) :
    allocData pid size w = some (0, (w.later 1).setData pid (some size)) := by
  rw [allocData_eq hpid]
  exact allocAt_granted h (congrArg Option.isSome hfree)

theorem allocThread_granted (hpid : pid < 2 ^ pidBits)
    (h : (w.answers w.time (.alloc (threadAddress pid))).result = 0)
    (hfree : w.threads pid = none) :
    allocThread pid w = some (0, (w.later 1).setThread pid (some ⟨.zero, none, none⟩)) := by
  rw [allocThread_eq hpid]
  exact allocAt_granted h (congrArg Option.isSome hfree)

theorem lockData_eq (w : World κ) (pid : Nat) :
    lockData pid w = some ((w.answers w.time (.lock (dataAddress pid))).pointer,
      { w.later 1 with memory := (w.answers w.time (.lock (dataAddress pid))).memory }) :=
  rfl

/-- The world when the memory of a process is locked, with its thread. -/
theorem execHeader_granted (hpid : pid < 2 ^ pidBits) (h : Granted w pid) :
    execHeader order fuel pid header allocationSize nodeAddress callback w =
      launch order fuel pid header (w.locked pid).pointer nodeAddress callback
        (w.prepared pid allocationSize) := by
  let w₁ := (w.later 1).setData pid (some allocationSize)
  let w₂ := (w₁.later 1).setThread pid (some ⟨.zero, none, none⟩)
  have hthread : allocThread pid w₁ = some (0, w₂) := allocThread_granted hpid h.thread h.noThread
  have hlocked : ¬ (w₂.answers w₂.time (.lock (dataAddress pid))).pointer = 0 := h.locked
  rw [execHeader, bind_of (allocData_granted hpid h.data h.noData allocationSize),
    if_neg (not_not.mpr rfl), bind_of hthread, if_neg (not_not.mpr rfl),
    bind_of (lockData_eq w₂ pid), if_neg hlocked]
  rfl

/-- Whatever is refused, what has been allocated is deleted again. -/
theorem execHeader_refused (hpid : pid < 2 ^ pidBits) (hobliging : Obliging w)
    (h : ¬ Granted w pid) :
    ∃ w', execHeader order fuel pid header allocationSize nodeAddress callback w =
      some (eNoMem, w') ∧ Untouched w w' := by
  by_cases hdata : (w.answers w.time (.alloc (dataAddress pid))).result = 0 ∧ w.data pid = none
  · obtain ⟨hgranted, hfree⟩ := hdata
    let w₁ := (w.later 1).setData pid (some allocationSize)
    have hcleared : (w₁.setData pid none).data = w.data := update_update_none hfree _
    rw [execHeader, bind_of (allocData_granted hpid hgranted hfree allocationSize),
      if_neg (not_not.mpr rfl)]
    by_cases hthread : (w.answers (w.time + 1) (.alloc (threadAddress pid))).result = 0 ∧
        w.threads pid = none
    · obtain ⟨hthread, hnoThread⟩ := hthread
      let w₂ := (w₁.later 1).setThread pid (some ⟨.zero, none, none⟩)
      have hnull : (w₂.answers w₂.time (.lock (dataAddress pid))).pointer = 0 := by
        by_contra hlocked
        exact h ⟨hgranted, hfree, hthread, hnoThread, hlocked⟩
      have hallocated : allocThread pid w₁ = some (0, w₂) :=
        allocThread_granted hpid hthread hnoThread
      let w₃ := { w₂.later 1 with memory := (w.locked pid).memory }
      have hobliging₃ : Obliging w₃ := hobliging.of_answers rfl
      refine ⟨((w₃.later 2).setData pid none).setThread pid none, ?_,
        ⟨rfl, rfl, rfl, rfl, hcleared, update_update_none hnoThread _, rfl⟩⟩
      rw [bind_of hallocated, if_neg (not_not.mpr rfl), bind_of (lockData_eq w₂ pid), if_pos hnull]
      exact giveUp_eq hobliging₃ hpid
    · obtain ⟨result, hne, hrefused⟩ := @allocAt_refused κ w₁ (threadAddress pid)
        (fun w => (w.threads pid).isSome)
        (fun _ w => w.setThread pid (some ⟨.zero, none, none⟩)) fun hgranted => by
          rw [← Option.ne_none_iff_isSome]
          exact fun hnone => hthread ⟨hgranted, hnone⟩
      have hobliging₁ : Obliging (w₁.later 1) := hobliging.of_answers rfl
      refine ⟨(w₁.later 2).setData pid none, ?_, ⟨rfl, rfl, rfl, rfl, hcleared, rfl, rfl⟩⟩
      rw [allocThread_eq hpid, bind_of hrefused, if_pos hne,
        bind_of (deleteData_eq hobliging₁ hpid)]
      rfl
  · obtain ⟨result, hne, hrefused⟩ := @allocAt_refused κ w (dataAddress pid)
      (fun w => (w.data pid).isSome) (fun _ w => w.setData pid (some allocationSize))
      fun hgranted => by
        rw [← Option.ne_none_iff_isSome]
        exact fun hnone => hdata ⟨hgranted, hnone⟩
    refine ⟨w.later 1, ?_, ⟨rfl, rfl, rfl, rfl, rfl, rfl, rfl⟩⟩
    rw [execHeader, allocData_eq hpid, bind_of hrefused, if_pos hne]
    rfl

/-! The end of `exec_from_initrd`. -/

variable {allocation : Word} {loaded : Loaded} {registers : ThreadRegisters} {memory : Ram}

/-- The world when the thread of a process has been resumed with `memory`. -/
def World.launched (w : World κ) (pid nodeAddress : Nat) (registers : ThreadRegisters)
    (memory : Ram) : World κ :=
  { w with
    time := w.time + 3
    memory := memory
    nodes := Function.update w.nodes nodeAddress none
    threads := Function.update w.threads pid
      (some ⟨sanitizeRegisters registers, w.nodes nodeAddress, some memory⟩) }

theorem writeRegisters_eq {thread : NewThread κ} (hpid : pid < 2 ^ pidBits)
    (hobliging : Obliging w) (hthread : w.threads pid = some thread)
    (registers : ThreadRegisters) :
    writeRegisters pid registers w = some ((), (w.later 1).setThread pid
      (some { thread with registers := sanitizeRegisters registers })) := by
  have hinvoked := @invokeThread_eq κ w pid _ (fun w thread => w.setThread pid
    (some { thread with
      registers := sanitizeRegisters (thread.registers.overwrite registers.bytes) }))
    thread hpid hthread (hobliging.writeRegisters w.time (threadAddress pid))
  rw [writeRegisters, pidSlot_of_lt hpid, hinvoked, ThreadRegisters.overwrite_bytes]

theorem setRootNode_eq {thread : NewThread κ} (hpid : pid < 2 ^ pidBits)
    (hobliging : Obliging w) (hthread : w.threads pid = some thread)
    (hnew : thread.rootNode = none) (nodeAddress : Nat) :
    setRootNode pid nodeAddress w = some ((), ((w.later 1).setThread pid
      (some { thread with rootNode := w.nodes nodeAddress })).setNode nodeAddress none) := by
  rw [setRootNode, pidSlot_of_lt hpid,
    invokeThread_eq hpid hthread (hobliging.setRootNode w.time (threadAddress pid))]
  cases hnode : w.nodes nodeAddress with
  | some node => simp only [World.later, hnode]
  | none =>
      have hthreads : Function.update w.threads pid (some { thread with rootNode := none }) =
          w.threads := by
        rw [← hnew, ← hthread, Function.update_eq_self]
      have hnodes : Function.update w.nodes nodeAddress none = w.nodes := by
        rw [← hnode, Function.update_eq_self]
      simp only [World.later, hnode, World.setThread, World.setNode, hthreads, hnodes]

theorem resume_eq {thread : NewThread κ} (hpid : pid < 2 ^ pidBits) (hobliging : Obliging w)
    (hthread : w.threads pid = some thread) :
    resume pid w = some ((), (w.later 1).setThread pid
      (some { thread with resumed := some w.memory })) := by
  rw [resume, pidSlot_of_lt hpid,
    invokeThread_eq hpid hthread (hobliging.resume w.time (threadAddress pid))]
  rfl

theorem launch_resumed (hpid : pid < 2 ^ pidBits) (hobliging : Obliging w)
    (hthread : w.threads pid = some ⟨.zero, none, none⟩)
    (hloaded : bfltLoad order fuel header allocation w.memory = some loaded)
    (hcallback : callbackResult callback (setRegisters loaded.registers w.uninitialized)
      loaded.loading.memory = (0, registers, memory)) :
    launch order fuel pid header allocation nodeAddress callback w =
      some (0, w.launched pid nodeAddress registers memory) := by
  let w₀ := { w with memory := memory }
  let w₁ := (w₀.later 1).setThread pid (some ⟨sanitizeRegisters registers, none, none⟩)
  let w₂ := ((w₁.later 1).setThread pid
    (some ⟨sanitizeRegisters registers, w.nodes nodeAddress, none⟩)).setNode nodeAddress none
  let w₃ := (w₂.later 1).setThread pid
    (some ⟨sanitizeRegisters registers, w.nodes nodeAddress, some memory⟩)
  have hget : (get : Server κ (World κ)) w = some (w, w) := rfl
  have hset : (set w₀ : Server κ Unit) w = some ((), w₀) := rfl
  have hobliging₀ : Obliging w₀ := hobliging.of_answers rfl
  have hobliging₁ : Obliging w₁ := hobliging.of_answers rfl
  have hobliging₂ : Obliging w₂ := hobliging.of_answers rfl
  have hwrite : writeRegisters pid registers w₀ = some ((), w₁) :=
    writeRegisters_eq hpid hobliging₀ hthread registers
  have hroot : setRootNode pid nodeAddress w₁ = some ((), w₂) :=
    setRootNode_eq hpid hobliging₁ (Function.update_self ..) rfl nodeAddress
  have hresume : resume pid w₂ = some ((), w₃) :=
    resume_eq hpid hobliging₂ (Function.update_self ..)
  have hthreads : w₃.threads = Function.update w.threads pid
      (some ⟨sanitizeRegisters registers, w.nodes nodeAddress, some memory⟩) := by
    simp only [w₃, w₂, w₁, World.setThread, World.setNode, World.later, Function.update_idem]
    rfl
  rw [launch, bind_of hget, hloaded]
  simp only [hcallback]
  rw [bind_of hset, if_neg (not_not.mpr rfl), bind_of hwrite, bind_of hroot, bind_of hresume,
    World.launched, ← hthreads]
  rfl

end

end Cenix.ProcessServer
