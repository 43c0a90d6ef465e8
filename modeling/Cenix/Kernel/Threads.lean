import Cenix.Kernel.Capabilities

namespace Cenix

open LinkedLists

/-! Threads. -/

def numBuckets : Nat := 128

def maxThreads : Nat := 1024

/-- One round of 32-bit FNV-1a. -/
def hashByte (result byte : Nat) : Nat :=
  (result ^^^ byte) * 0x01000193 % 2 ^ 32

/-- The bytes of a `uint16_t` in the order they have in memory. -/
def hash (value : Nat) : Nat :=
  hashByte (hashByte 0x811c9dc5 (value / 256 % 256)) (value % 256)

namespace Kernel

/-- `RESUME` and `SUSPEND` on a thread capability.  Both leave the thread's lock
as they found it. -/
def resume (k : Kernel) (slot : SlotPtr) : Nat × Kernel :=
  let thread := (k.space.slots slot).resource
  let (shouldUnlock, kinds) := heapLock k.kinds thread
  let k := { k with kinds := kinds }.resumeThread thread execModeSuspended
  (0, { k with kinds := unlockIf shouldUnlock k.kinds thread })

def suspend (k : Kernel) (slot : SlotPtr) : Nat × Kernel :=
  let thread := (k.space.slots slot).resource
  let (shouldUnlock, kinds) := heapLock k.kinds thread
  let k := { k with kinds := kinds }.suspendThread thread execModeSuspended
  (0, { k with kinds := unlockIf shouldUnlock k.kinds thread })

/-- The root capability of `thread` becomes the one in `source`. -/
def installRoot (fuel : Nat) (k : Kernel) (thread : Addr) (source : SlotPtr) :
    Option Kernel :=
  (k.space.moveCapability fuel source (.root thread)).bind fun s =>
    let address : AbsoluteCapabilityAddress :=
      { threadId := (k.threads thread).threadId
        bucketNumber := (k.threads thread).bucketNumber
        address := 0
        depth := 0 }
    (s.updateCapabilityAddresses fuel (.root thread) address 0).map fun s =>
      { k with space := s }

/-- `args` are the address and the depth of the new root node. -/
def setRootNode (fuel : Nat) (k : Kernel) (slot : SlotPtr) (args : IpcCapability) :
    Option (Nat × Kernel) :=
  let thread := (k.space.slots slot).resource
  (k.lookUpCapabilityRelative fuel args.address args.depth).bind fun
    | (none, k) => some (eNoCapability, k)
    | (some result, k) =>
        if (k.space.slots result.slot).handlers = some .node then
          (k.space.getNestedNodesDepth fuel result.slot).bind fun depth =>
            if depth < maxNestedNodes then
              (k.installRoot fuel thread result.slot).map fun k =>
                (0, k.unlockLookedUpCapability result)
            else
              some (eCapInval, k.unlockLookedUpCapability result)
        else
          some (eCapInval, k.unlockLookedUpCapability result)

/-- `LIST_UPDATE_ADDRESS(*thread->runqueue, runqueue_entry, thread)` -/
def updateRunqueue (k : Kernel) (thread : Addr) : Kernel :=
  match (k.threads thread).runqueue with
  | none => k
  | some i =>
      let (queue, entries) :=
        listUpdateAddress (k.scheduler.priorityQueues i) k.runqueueEntries thread
      (k.setPriorityQueue i queue).setRunqueueEntries entries

/-- The queue of threads blocked on the same endpoint. -/
def updateBlockedQueue (k : Kernel) (thread : Addr) : Kernel :=
  let t := k.threads thread
  match t.blockedOn with
  | none => k
  | some endpoint =>
      if t.flags.blockedOnSend then
        let (queue, entries) :=
          listUpdateAddress (k.endpoints endpoint).blockedSending k.blockedQueues thread
        (k.setBlockedSending endpoint queue).setBlockedQueues entries
      else if t.flags.blockedOnReceive then
        let (queue, entries) :=
          listUpdateAddress (k.endpoints endpoint).blockedReceiving k.blockedQueues thread
        (k.setBlockedReceiving endpoint queue).setBlockedQueues entries
      else
        k

def updateThreadBucket (k : Kernel) (thread : Addr) : Kernel :=
  let i := (k.threads thread).bucketNumber
  let (bucket, entries) := listUpdateAddress (k.threadHashTable i) k.tableEntries thread
  (k.setThreadBucket i bucket).setTableEntries entries

def updateCpuUpdate (k : Kernel) (thread : Addr) : Kernel :=
  if (k.threads thread).flags.needsCpuUpdate then
    let (queue, entries) :=
      listUpdateAddress k.scheduler.needsCpuTimeUpdate k.cpuUpdateEntries thread
    { k with scheduler := { k.scheduler with needsCpuTimeUpdate := queue } }.setCpuUpdateEntries
      entries
  else
    k

def updateCurrentThread (k : Kernel) (thread : Addr) : Kernel :=
  if (k.threads thread).flags.currentlyRunning then
    { k with scheduler := { k.scheduler with currentThread := some thread } }
  else
    k

def onThreadMoved (fuel : Nat) (k : Kernel) (thread : Addr) : Option Kernel :=
  let k := ((k.updateRunqueue thread).updateBlockedQueue thread).updateThreadBucket thread
  let k := (k.updateCpuUpdate thread).updateCurrentThread thread
  if (k.space.slots (.root thread)).handlers = none then
    some k
  else
    (k.space.updateCapabilityReferences fuel (.root thread)).map fun s =>
      { k with space := s }

/-- The first id from `i` on that is not in use. -/
def findThreadId (k : Kernel) (i : Nat) : (left : Nat) → Option Nat
  | 0 => none
  | left + 1 => if k.usedThreadIds i then k.findThreadId (i + 1) left else some i

def setThreadId (k : Kernel) (threadId : Nat) (used : Bool) : Kernel :=
  { k with usedThreadIds := Function.update k.usedThreadIds threadId used }

/-- `alloc_thread` once its block is allocated. -/
def initThread (k : Kernel) (thread : Addr) (threadId : Nat) : Kernel :=
  let bucketNumber := hash threadId % numBuckets
  let k := k.modifyThread thread fun _ => { ThreadCapability.zero with
    execMode := execModeSuspended
    threadId := threadId
    bucketNumber := bucketNumber }
  let k := k.modifySlot (.root thread) fun _ => Capability.zero
  let (bucket, entries) :=
    listAppend (k.threadHashTable bucketNumber) k.tableEntries thread
  (k.setThreadBucket bucketNumber bucket).setTableEntries entries

end Kernel

end Cenix
