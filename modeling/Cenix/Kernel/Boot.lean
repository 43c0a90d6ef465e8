import Cenix.Kernel.Heap

namespace Cenix

open LinkedLists

/-! Initialization. -/

def rootCapSlotBits : Nat := 4

namespace Space

/-- Memory filled with zero bytes, with nothing allocated. -/
def zero : Space where
  slots _ := Capability.zero
  nodes _ := ⟨0, 0⟩
  updateRefs _ := .nothing
  objects _ := none

end Space

namespace Kernel

def zero : Kernel where
  space := Space.zero
  kinds _ := .available
  contents _ := []
  threads _ := ThreadCapability.zero
  endpoints _ := ⟨Container.empty, Container.empty⟩
  messages _ := ⟨Vector.replicate _ 0, Vector.replicate _ ⟨0, 0⟩, 0, 0, 0⟩
  scheduler := ⟨none, fun _ => Container.empty, Container.empty, false⟩
  threadHashTable _ := Container.empty
  usedThreadIds _ := false

/-- Id 0 is reserved for kernel resources. -/
def initThreads (k : Kernel) : Kernel :=
  { k with
    threadHashTable := fun i =>
      if i < numBuckets then Container.empty else k.threadHashTable i
    usedThreadIds := fun i => if i < maxThreads then i == 0 else k.usedThreadIds i }

def initScheduler (k : Kernel) : Kernel :=
  { k with scheduler := { k.scheduler with
      currentThread := none
      priorityQueues := fun i =>
        if i < numPriorities then Container.empty else k.scheduler.priorityQueues i
      needsCpuTimeUpdate := Container.empty } }

/-- The root capability of the process server's thread, for the node at `root`. -/
def rootCapability (k : Kernel) (thread root : Addr) : Capability :=
  { Capability.zero with
    handlers := some .node
    resource := root
    flags := ⟨true, false, true⟩
    accessRights := BitVec.allOnes 8
    resourceList := ⟨some (.root thread), some (.root thread), none, none⟩
    address :=
      { AbsoluteCapabilityAddress.zero with
        threadId := (k.threads thread).threadId
        bucketNumber := (k.threads thread).bucketNumber } }

/-- `main_init` up to the process server's thread and its root node.  The
arguments are what `heap_alloc` returns for the program, the thread and the node;
`none` when one of the allocations fails. -/
def initProcessServer (fuel : Nat) (k : Kernel) (registers : ThreadRegisters)
    (program thread root : Placement) : Option (Addr × Kernel) := do
  let (allocation, k) ← k.initThreads.initScheduler.heapAlloc fuel program .untyped
  let _ ← allocation
  let (thread, k) ← k.allocThread fuel thread
  let thread ← thread
  let k := k.modifyThread thread fun t => { t with registers := registers }
  let k := k.resumeThread thread execModeSuspended
  let k := { k with space := { k.space with
    updateRefs := Function.update k.space.updateRefs thread .onThreadMoved } }
  let (root, k) ← k.allocNode fuel root rootCapSlotBits
  let root ← root
  let capability := k.rootCapability thread root
  let k := k.modifySlot (.root thread) fun _ => capability
  let k := { k with
    space := k.space.heapSetUpdateCapability root capability.address
    kinds := heapUnlock k.kinds root }
  let k := k.modifyThread thread fun t =>
    { t with flags := { t.flags with currentlyRunning := true } }
  some (thread, { k with
    scheduler := { k.scheduler with currentThread := some thread }
    kinds := heapUnlock k.kinds thread })

/-- The rest of `main_init`: the address space and the debug capability. -/
def initRootNode (fuel : Nat) (k : Kernel) (addressSpace : Placement) : Option Kernel := do
  let (resource, k) ← k.heapAlloc fuel addressSpace .addressSpace
  let resource ← resource
  let (_, k) ← k.populateCapabilitySlot fuel 0 rootCapSlotBits resource .addressSpace
    ⟨true, false, false⟩
  let (_, k) ← k.populateCapabilitySlot fuel 1 rootCapSlotBits 0 .debug .zero
  let thread ← k.scheduler.currentThread
  let k := k.modifyThread thread fun t =>
    { t with flags := { t.flags with currentlyRunning := false } }
  some { k with scheduler := { k.scheduler with currentThread := none } }

def mainInit (fuel : Nat) (k : Kernel) (registers : ThreadRegisters)
    (program thread root addressSpace : Placement) : Option Kernel :=
  (k.initProcessServer fuel registers program thread root).bind fun (_, k) =>
    k.initRootNode fuel addressSpace

/-- The kernel once it runs the process server, whose thread is at address 2 and
has its root node at address 3. -/
def booted : Option Kernel :=
  (zero.mainInit 8 .zero ⟨[], some 1⟩ ⟨[], some 2⟩ ⟨[], some 3⟩ ⟨[], some 4⟩).map fun k =>
    (k.tryContextSwitch 0 .zero).2

end Kernel

end Cenix
