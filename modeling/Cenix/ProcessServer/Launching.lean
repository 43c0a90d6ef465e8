import Cenix.Bflt.Loader
import Cenix.Interrupts.Registers
import Cenix.InitrdFs.UntrustedArchives
import Cenix.JaxTool.Host
import Cenix.Kernel.Ipc
import Cenix.ProcessServer.Pids

namespace Cenix.ProcessServer

open Bflt Fields FileProtocol InitrdFs Jax
open Vfs (nodeAddress pidBits eNoEnt)

/-! How the process server starts the first programs. -/

def eNoExec : Nat := 16

def rootNodeAddress : Nat := 7
def vfsEndpointSlot : Nat := 8
def rootFdSlot : Nat := 9

/-- A thread with what it has been given, and the memory when it has been resumed.  Slots
hold capabilities of any kind. -/
structure NewThread (κ : Type) where
  registers : ThreadRegisters
  rootNode : Option (Nat → Option κ)
  resumed : Option Ram

inductive SystemCall where
  | alloc (address : Nat)
  | delete (node slot : Nat)
  | lock (address : Nat)
  | copy (source slot : Nat)
  | writeRegisters (address : Nat)
  | setRootNode (address : Nat)
  | resume (address : Nat)
  | send (address : Nat)
  | receive (address : Nat)
  deriving DecidableEq, Repr

/-- How a system call turns out where that is not up to the server: its result, and where
there is one, a pointer, the memory after the call, a capability and the first word of a
message. -/
structure Answer (κ : Type) where
  result : Nat
  pointer : Word
  memory : Ram
  capability : Option κ
  value : Nat

/-- `slots` and `nodes` are what is in the root node of the server, `data` the sizes of the
memory in the node for data. -/
structure World (κ : Type) where
  answers : Nat → SystemCall → Answer κ
  time : Nat
  memory : Ram
  /-- What a `struct thread_registers` on the stack holds. -/
  uninitialized : ThreadRegisters
  pids : PidSet
  slots : Nat → Option κ
  nodes : Nat → Option (Nat → Option κ)
  data : Nat → Option Word
  threads : Nat → Option (NewThread κ)
  sent : List (κ × IpcMessage)

/-- `none` where an assertion fails or a loop does not end. -/
abbrev Server (κ : Type) := StateT (World κ) Option

variable {κ : Type}

namespace World

variable (w : World κ)

def setSlot (slot : Nat) (capability : Option κ) : World κ :=
  { w with slots := Function.update w.slots slot capability }

def setNode (slot : Nat) (node : Option (Nat → Option κ)) : World κ :=
  { w with nodes := Function.update w.nodes slot node }

def setData (slot : Nat) (size : Option Word) : World κ :=
  { w with data := Function.update w.data slot size }

def setThread (slot : Nat) (thread : Option (NewThread κ)) : World κ :=
  { w with threads := Function.update w.threads slot thread }

/-- The memory by numbers. -/
def numbered (m : Ram) : Memory :=
  fun address => m (BitVec.ofNat ptrBits address)

end World

/-! System calls. -/

def ask (call : SystemCall) : Server κ (Answer κ) := fun w =>
  some (w.answers w.time call, { w with time := w.time + 1 })

/-- The slot that the address of an object of a process leads to. -/
def pidSlot (pid : Nat) : Nat :=
  pid % 2 ^ pidBits

def dataAddress (pid : Nat) : Nat :=
  nodeAddress pidDataNodeSlot pid

def threadAddress (pid : Nat) : Nat :=
  nodeAddress pidThreadNodeSlot pid

/-- `ADDRESS_SPACE_ALLOC` in a slot, with what it looks like before and after. -/
def allocAt (address : Nat) (occupied : World κ → Bool) (fill : Answer κ → World κ → World κ) :
    Server κ Nat := do
  let answer ← ask (.alloc address)
  let w ← get
  if answer.result ≠ 0 then
    return answer.result
  else if occupied w then
    return eCapExists
  else
    set (fill answer w)
    return 0

/-- `ADDRESS_SPACE_ALLOC` of the memory of a process. -/
def allocData (pid : Nat) (size : Word) : Server κ Nat :=
  allocAt (dataAddress pid) (fun w => (w.data (pidSlot pid)).isSome)
    fun _ w => w.setData (pidSlot pid) (some size)

def allocThread (pid : Nat) : Server κ Nat :=
  allocAt (threadAddress pid) (fun w => (w.threads (pidSlot pid)).isSome)
    fun _ w => w.setThread (pidSlot pid) (some ⟨.zero, none, none⟩)

/-- `NODE_DELETE`, which takes the number of a slot and not an address. -/
def nodeDelete (node slot : Nat) (clear : World κ → World κ) : Server κ Unit := do
  let answer ← ask (.delete node slot)
  if answer.result = 0 ∧ slot < 2 ^ pidBits then
    modify clear

def deleteData (pid : Nat) : Server κ Unit :=
  nodeDelete pidDataNodeSlot pid (·.setData pid none)

def deleteThread (pid : Nat) : Server κ Unit :=
  nodeDelete pidThreadNodeSlot pid (·.setThread pid none)

/-- `UNTYPED_LOCK`.  Others may have changed the memory since the last time. -/
def lockData (pid : Nat) : Server κ Word := do
  let answer ← ask (.lock (dataAddress pid))
  modify fun w => { w with memory := answer.memory }
  return answer.pointer

/-- A call of a handler of the thread of a process, whose result is ignored. -/
def invokeThread (call : SystemCall) (pid : Nat)
    (change : World κ → NewThread κ → World κ) : Server κ Unit := do
  let answer ← ask call
  let w ← get
  match w.threads (pidSlot pid) with
  | some thread => if answer.result = 0 then set (change w thread)
  | none => return ()

def writeRegisters (pid : Nat) (registers : ThreadRegisters) : Server κ Unit :=
  invokeThread (.writeRegisters (threadAddress pid)) pid fun w thread =>
    w.setThread (pidSlot pid) (some { thread with
      registers := sanitizeRegisters (thread.registers.overwrite registers.bytes) })

/-- `THREAD_SET_ROOT_NODE`, which moves the capability of the node. -/
def setRootNode (pid nodeAddress : Nat) : Server κ Unit :=
  invokeThread (.setRootNode (threadAddress pid)) pid fun w thread =>
    match w.nodes nodeAddress with
    | some node =>
        (w.setThread (pidSlot pid) (some { thread with rootNode := some node })).setNode
          nodeAddress none
    | none => w

def resume (pid : Nat) : Server κ Unit :=
  invokeThread (.resume (threadAddress pid)) pid fun w thread =>
    w.setThread (pidSlot pid) (some { thread with resumed := some w.memory })

/-! Registers and the arguments of a program. -/

def setProgramCounter (registers : ThreadRegisters) (programCounter : Word) : ThreadRegisters :=
  { registers with programCounter := programCounter }

def setStackPointer (registers : ThreadRegisters) (stackPointer : Word) : ThreadRegisters :=
  { registers with stackPointer := stackPointer }

def setGotPointer (registers : ThreadRegisters) (gotPointer : Word) : ThreadRegisters :=
  { registers with address := registers.address.set! 5 gotPointer }

def stackPointerOf (registers : ThreadRegisters) : Word :=
  registers.stackPointer

/-- `struct arguments_data` -/
structure ArgumentsData where
  argumentsIncrement : Word

def startArguments (registers : ThreadRegisters) (argumentsSizeBytes : Word) :
    ArgumentsData × ThreadRegisters :=
  (⟨4⟩, setStackPointer registers (stackPointerOf registers - (argumentsSizeBytes + 4)))

def addArgument (order : ByteOrder) (registers : ThreadRegisters) (argument : Word)
    (argumentSizeBytes : BitVec 8) (state : ArgumentsData × Ram) : ArgumentsData × Ram :=
  let (data, m) := state
  (⟨data.argumentsIncrement + argumentSizeBytes.setWidth ptrBits⟩,
    m.set (stackPointerOf registers + data.argumentsIncrement)
      ((numberBytes order wordBytes argument.toNat).take argumentSizeBytes.toNat))

/-- A `registers_callback`, with its result, the registers and the memory afterwards. -/
abbrev RegistersCallback := ThreadRegisters → Ram → Nat × ThreadRegisters × Ram

/-- `callback_result`, where there may be no callback. -/
def callbackResult (callback : Option RegistersCallback) : RegistersCallback :=
  callback.getD fun registers m => (0, registers, m)

/-! `exec_from_initrd` -/

/-- The registers that the loader sets. -/
def setRegisters (loaded : Bflt.Registers) (registers : ThreadRegisters) : ThreadRegisters :=
  let registers := setProgramCounter registers loaded.programCounter
  let registers := setStackPointer registers loaded.stackPointer
  match loaded.gotPointer with
  | some got => setGotPointer registers got
  | none => registers

/-- The end of `exec_from_initrd`, once the memory of the process is locked. -/
def launch (order : ByteOrder) (fuel pid : Nat) (header allocation : Word)
    (nodeAddress : Nat) (callback : Option RegistersCallback) : Server κ Nat := do
  let w ← get
  match bfltLoad order fuel header allocation w.memory with
  | none => failure
  | some loaded =>
      let (result, registers, memory) := callbackResult callback
        (setRegisters loaded.registers w.uninitialized) loaded.loading.memory
      set { w with memory := memory }
      if result ≠ 0 then
        deleteData pid
        deleteThread pid
        return eNoMem
      else
        writeRegisters pid registers
        setRootNode pid nodeAddress
        resume pid
        return 0

/-- The part after the header has been verified. -/
def execHeader (order : ByteOrder) (fuel pid : Nat) (header allocationSize : Word)
    (nodeAddress : Nat) (callback : Option RegistersCallback) : Server κ Nat := do
  if (← allocData pid allocationSize) ≠ 0 then
    return eNoMem
  else if (← allocThread pid) ≠ 0 then
    deleteData pid
    return eNoMem
  else
    let data ← lockData pid
    if data = 0 then
      deleteData pid
      deleteThread pid
      return eNoMem
    else
      launch order fuel pid header data nodeAddress callback

def execFromInitrd (order : ByteOrder) (fuel pid : Nat) (iter : JaxIterator)
    (filename nodeAddress : Nat) (callback : Option RegistersCallback) : Server κ Nat := do
  let w ← get
  match jaxFind (World.numbered w.memory) fuel iter filename JaxTool.typeRegular with
  | none => failure
  | some none => return eNoEnt
  | some (some (fileData, _)) =>
      let header := BitVec.ofNat ptrBits fileData
      let h := headerAt order w.memory header
      if !bfltVerify h then
        return eNoExec
      else
        execHeader order fuel pid header (bfltAllocationSize h) nodeAddress callback

end Cenix.ProcessServer
