import Cenix.LinkedLists.Container
import Cenix.LinkedLists.NoContainer
import Cenix.LinkedLists.Iterate
import Mathlib.Algebra.GroupWithZero.Nat
import Mathlib.Algebra.Ring.Int.Defs

namespace Cenix

open LinkedLists

/-! The kernel's memory, read through the types of the objects in it. -/

/-- A pointer to a heap block.  `0` is the null pointer. -/
abbrev Addr := Nat

/-! Machine words have 32 bits on the only architecture there is. -/

def ptrBits : Nat := 32

def sizeMax : Nat := 2 ^ ptrBits - 1

/-- `value << bits` on a `size_t`. -/
def shiftLeft (value bits : Nat) : Nat :=
  if bits < ptrBits then value * 2 ^ bits % 2 ^ ptrBits else 0

/-- `address & ((1 << depth) - 1)` on a `size_t`. -/
def maskAddress (address depth : Nat) : Nat :=
  if depth < ptrBits then address % 2 ^ depth else address % 2 ^ ptrBits

/-! Capabilities. -/

/-- A pointer to a capability: a slot of a node, or the root capability of a
thread. -/
inductive SlotPtr where
  | node (block : Addr) (index : Nat)
  | root (thread : Addr)
  deriving DecidableEq, Repr

/-- The invocation handlers, one constructor for each static table of them. -/
inductive Handlers where
  | debug
  | endpoint
  | thread
  | node
  | untyped
  | addressSpace
  deriving DecidableEq, Repr

structure CapFlags where
  isHeapManaged : Bool
  badged : Bool
  original : Bool
  deriving DecidableEq, Repr

def CapFlags.zero : CapFlags := ⟨false, false, false⟩

structure AbsoluteCapabilityAddress where
  threadId : Nat
  bucketNumber : Nat
  address : Nat
  depth : Nat
  deriving DecidableEq, Repr

def AbsoluteCapabilityAddress.zero : AbsoluteCapabilityAddress := ⟨0, 0, 0, 0⟩

structure Capability where
  handlers : Option Handlers
  resource : Addr
  flags : CapFlags
  badge : Nat
  accessRights : BitVec 8
  resourceList : Links SlotPtr
  derivationList : Links SlotPtr
  derivedFrom : Option SlotPtr
  derivation : Option SlotPtr
  address : AbsoluteCapabilityAddress
  deriving DecidableEq, Repr

/-- A capability slot filled with zero bytes. -/
def Capability.zero : Capability where
  handlers := none
  resource := 0
  flags := .zero
  badge := 0
  accessRights := 0
  resourceList := .empty
  derivationList := .empty
  derivedFrom := none
  derivation := none
  address := .zero

structure CapabilityNode where
  slotBits : Nat
  nestedNodes : Nat
  deriving DecidableEq, Repr

def maxNestedNodes : Nat := 4

/-! Threads, endpoints and messages. -/

def execModeRunning : BitVec 8 := 0
def execModeBlocked : BitVec 8 := 1
def execModeSuspended : BitVec 8 := 2

/-- `EXEC_MODE_BLOCKED` is bit 0 of an execution mode. -/
theorem blockedBit_lt : 0 < 8 := by decide

structure ThreadRegisters where
  stackPointer : BitVec 32
  data : Vector (BitVec 32) 8
  address : Vector (BitVec 32) 7
  statusRegister : BitVec 16
  programCounter : BitVec 32
  deriving DecidableEq, Repr

def ThreadRegisters.zero : ThreadRegisters where
  stackPointer := 0
  data := Vector.replicate 8 0
  address := Vector.replicate 7 0
  statusRegister := 0
  programCounter := 0

structure ThreadFlags where
  currentlyRunning : Bool
  needsCpuUpdate : Bool
  blockedOnSend : Bool
  blockedOnReceive : Bool
  deriving DecidableEq, Repr

def ThreadFlags.zero : ThreadFlags := ⟨false, false, false, false⟩

/-- A thread without its root capability, which is a slot of its own.
`runqueue` is the index of the priority queue the source points to. -/
structure ThreadCapability where
  execMode : BitVec 8
  registers : ThreadRegisters
  flags : ThreadFlags
  runqueue : Option Nat
  runqueueEntry : Link Addr
  cpuUpdateEntry : Link Addr
  threadId : Nat
  bucketNumber : Nat
  tableEntry : Link Addr
  blockedQueue : Link Addr
  blockedOn : Option Addr
  messageBuffer : Addr
  sendingBadge : Nat
  deriving DecidableEq, Repr

/-- A thread block filled with zero bytes. -/
def ThreadCapability.zero : ThreadCapability where
  execMode := 0
  registers := .zero
  flags := .zero
  runqueue := none
  runqueueEntry := .empty
  cpuUpdateEntry := .empty
  threadId := 0
  bucketNumber := 0
  tableEntry := .empty
  blockedQueue := .empty
  blockedOn := none
  messageBuffer := 0
  sendingBadge := 0

structure EndpointCapability where
  blockedSending : Container Addr
  blockedReceiving : Container Addr
  deriving DecidableEq, Repr

def ipcBufferSize : Nat := 64

def ipcCapabilitySlots : Nat := 4

structure IpcCapability where
  address : Nat
  depth : Nat
  deriving DecidableEq, Repr

structure IpcMessage where
  buffer : Vector (BitVec 8) ipcBufferSize
  capabilities : Vector IpcCapability ipcCapabilitySlots
  toCopy : BitVec 8
  transferredCapabilities : BitVec 8
  badge : Nat
  deriving DecidableEq, Repr

/-! Heap blocks. -/

inductive Kind where
  | available
  | immovable
  | movable
  deriving DecidableEq, Repr

/-- What the heap has to update when it moves a block. -/
inductive UpdateRef where
  | nothing
  | onThreadMoved
  | capability (address : AbsoluteCapabilityAddress)
  deriving DecidableEq, Repr

inductive ObjectKind where
  | untyped
  | node
  | thread
  | endpoint
  | addressSpace
  deriving DecidableEq, Repr

/-- The objects capabilities refer to, and the slots the capabilities lie in.
A block is allocated when `objects` gives it a kind; the other maps keep what
was last written at an address whether it is allocated or not. -/
structure Space where
  slots : SlotPtr → Capability
  nodes : Addr → CapabilityNode
  updateRefs : Addr → UpdateRef
  objects : Addr → Option ObjectKind

structure SchedulerState where
  currentThread : Option Addr
  priorityQueues : Nat → Container Addr
  needsCpuTimeUpdate : Container Addr
  pendingContextSwitch : Bool

structure Kernel where
  space : Space
  kinds : Addr → Kind
  contents : Addr → List (BitVec 8)
  threads : Addr → ThreadCapability
  endpoints : Addr → EndpointCapability
  messages : Addr → IpcMessage
  scheduler : SchedulerState
  threadHashTable : Nat → Container Addr
  usedThreadIds : Nat → Bool

namespace Space

variable (s : Space)

/-- Writes to one capability slot. -/
def modifySlot (p : SlotPtr) (change : Capability → Capability) : Space :=
  { s with slots := Function.update s.slots p (change (s.slots p)) }

def resourceLinks : SlotPtr → Links SlotPtr :=
  fun p => (s.slots p).resourceList

def setResourceLinks (links : SlotPtr → Links SlotPtr) : Space :=
  { s with slots := fun p => { s.slots p with resourceList := links p } }

def derivationLinks : SlotPtr → Links SlotPtr :=
  fun p => (s.slots p).derivationList

def setDerivationLinks (links : SlotPtr → Links SlotPtr) : Space :=
  { s with slots := fun p => { s.slots p with derivationList := links p } }

/-- The slot lies in an allocated block. -/
def Slot : SlotPtr → Prop
  | .node block index =>
      s.objects block = some .node ∧ index < 2 ^ (s.nodes block).slotBits
  | .root thread => s.objects thread = some .thread

instance : (p : SlotPtr) → Decidable (s.Slot p)
  | .node _ _ => inferInstanceAs (Decidable (_ ∧ _))
  | .root _ => inferInstanceAs (Decidable (_ = _))

/-- The slot exists and holds a capability. -/
def Live (p : SlotPtr) : Prop :=
  s.Slot p ∧ (s.slots p).handlers ≠ none

instance (p : SlotPtr) : Decidable (s.Live p) :=
  inferInstanceAs (Decidable (_ ∧ _))

end Space

namespace Kernel

variable (k : Kernel)

/-- Writes to one thread. -/
def modifyThread (thread : Addr) (change : ThreadCapability → ThreadCapability) :
    Kernel :=
  { k with threads := Function.update k.threads thread (change (k.threads thread)) }

/-- Writes to one message in user memory. -/
def modifyMessage (message : Addr) (change : IpcMessage → IpcMessage) : Kernel :=
  { k with messages := Function.update k.messages message (change (k.messages message)) }

/-- Writes to one capability slot. -/
def modifySlot (p : SlotPtr) (change : Capability → Capability) : Kernel :=
  { k with space := k.space.modifySlot p change }

def runqueueEntries : Addr → Link Addr :=
  fun t => (k.threads t).runqueueEntry

def setRunqueueEntries (links : Addr → Link Addr) : Kernel :=
  { k with threads := fun t => { k.threads t with runqueueEntry := links t } }

def cpuUpdateEntries : Addr → Link Addr :=
  fun t => (k.threads t).cpuUpdateEntry

def setCpuUpdateEntries (links : Addr → Link Addr) : Kernel :=
  { k with threads := fun t => { k.threads t with cpuUpdateEntry := links t } }

def tableEntries : Addr → Link Addr :=
  fun t => (k.threads t).tableEntry

def setTableEntries (links : Addr → Link Addr) : Kernel :=
  { k with threads := fun t => { k.threads t with tableEntry := links t } }

def blockedQueues : Addr → Link Addr :=
  fun t => (k.threads t).blockedQueue

def setBlockedQueues (links : Addr → Link Addr) : Kernel :=
  { k with threads := fun t => { k.threads t with blockedQueue := links t } }

def setPriorityQueue (i : Nat) (queue : Container Addr) : Kernel :=
  { k with scheduler := { k.scheduler with
      priorityQueues := Function.update k.scheduler.priorityQueues i queue } }

def setThreadBucket (i : Nat) (bucket : Container Addr) : Kernel :=
  { k with threadHashTable := Function.update k.threadHashTable i bucket }

def setBlockedSending (endpoint : Addr) (queue : Container Addr) : Kernel :=
  let changed := { k.endpoints endpoint with blockedSending := queue }
  { k with endpoints := Function.update k.endpoints endpoint changed }

def setBlockedReceiving (endpoint : Addr) (queue : Container Addr) : Kernel :=
  let changed := { k.endpoints endpoint with blockedReceiving := queue }
  { k with endpoints := Function.update k.endpoints endpoint changed }

end Kernel

end Cenix
