import Cenix.Kernel.LookUp
import Cenix.Kernel.Scheduler

namespace Cenix

open LinkedLists

/-! Capabilities.  Where an operation returns `none`, a loop or a recursion did
not end within its fuel or the source would follow a null pointer. -/

namespace Space

def heapSetUpdateCapability (s : Space) (ptr : Addr) (address : AbsoluteCapabilityAddress) :
    Space :=
  { s with updateRefs := Function.update s.updateRefs ptr (.capability address) }

/-- `LIST_ITER_NO_CONTAINER` over the derivation list that `link` is in. -/
def iterDerivationList (fuel : Nat) (s : Space) (link : SlotPtr)
    (body : Space → SlotPtr → Option Space) : Option Space :=
  listIter (fun s p => (s.slots p).derivationList.next) body fuel s
    (s.slots link).derivationList.start

/-- `LIST_ITER_NO_CONTAINER` over the resource list that `link` is in. -/
def iterResourceList (fuel : Nat) (s : Space) (link : SlotPtr)
    (body : Space → SlotPtr → Option Space) : Option Space :=
  listIter (fun s p => (s.slots p).resourceList.next) body fuel s
    (s.slots link).resourceList.start

/-- The capabilities derived from `capability` learn where it is now. -/
def updateDerived (fuel : Nat) (s : Space) (capability : SlotPtr) : Option Space :=
  let c := s.slots capability
  match c.derivation with
  | some derivation =>
      if c.flags.original || c.flags.badged then
        s.iterDerivationList fuel derivation fun s link =>
          some (s.modifySlot link fun l => { l with derivedFrom := some capability })
      else
        some s
  | none => some s

/-- So does the capability it was derived from, if it heads that one's list. -/
def updateParent (s : Space) (capability : SlotPtr) : Space :=
  let c := s.slots capability
  match c.derivationList.prev, c.derivedFrom with
  | none, some parent => s.modifySlot parent fun c => { c with derivation := some capability }
  | _, _ => s

def updateCapabilityReferences (fuel : Nat) (s : Space) (capability : SlotPtr) :
    Option Space := do
  let links ← listUpdateAddressNoContainer fuel s.resourceLinks capability
  let s := s.setResourceLinks links
  let links ← listUpdateAddressNoContainer fuel s.derivationLinks capability
  let s := s.setDerivationLinks links
  let s ← s.updateDerived fuel capability
  some (s.updateParent capability)

def moveCapability (fuel : Nat) (s : Space) (source dest : SlotPtr) : Option Space := do
  let s := s.modifySlot dest fun _ => s.slots source
  let s ← s.updateCapabilityReferences fuel dest
  some (s.modifySlot source fun c => { c with handlers := none })

/-- The part of `merge_derivation_lists` for a parent list with more items than
the one that is merged. -/
def spliceDerivationList (fuel : Nat) (s : Space) (toMerge derivation : SlotPtr) :
    Option Space := do
  let last ← (s.slots toMerge).derivationList.last
  let prev ← (s.slots last).derivationList.prev
  let start ← (s.slots derivation).derivationList.start
  let s := s.modifySlot prev fun c =>
    { c with derivationList := { c.derivationList with next := some start } }
  let s := s.modifySlot start fun c =>
    { c with derivationList := { c.derivationList with prev := some prev } }
  let last ← (s.slots toMerge).derivationList.last
  let derivationLast ← (s.slots derivation).derivationList.last
  let s := s.modifySlot last fun c =>
    { c with derivationList := { c.derivationList with prev := some derivationLast } }
  let derivationLast ← (s.slots derivation).derivationList.last
  -- the source makes the last item of the child list its own successor
  let s := s.modifySlot derivationLast fun c =>
    { c with derivationList := { c.derivationList with next := some derivationLast } }
  s.iterDerivationList fuel derivation fun s link =>
    let links := (s.slots toMerge).derivationList
    some (s.modifySlot link fun c =>
      { c with derivationList :=
          { c.derivationList with start := links.start, last := links.last } })

/-- The part of `merge_derivation_lists` for a badged capability with a parent
and a child derivation list. -/
def mergeBadged (fuel : Nat) (s : Space) (toMerge parent derivation : SlotPtr) :
    Option Space := do
  let s ← s.iterDerivationList fuel derivation fun s link =>
    let derivedFrom := (s.slots toMerge).derivedFrom
    some (s.modifySlot link fun c => { c with derivedFrom := derivedFrom })
  if (s.slots toMerge).derivationList.start = (s.slots toMerge).derivationList.last then
    some (s.modifySlot parent fun c => { c with derivation := (s.slots toMerge).derivation })
  else
    s.spliceDerivationList fuel toMerge derivation

/-- A capability at the head of its derivation list hands the list's head over
to the next one. -/
def unlinkFromParent (s : Space) (toMerge : SlotPtr) : Space :=
  let c := s.slots toMerge
  match c.derivationList.prev, c.derivedFrom with
  | none, some parent =>
      s.modifySlot parent fun p => { p with derivation := c.derivationList.next }
  | _, _ => s

/-- The first half of `merge_derivation_lists`. -/
def mergeChildren (fuel : Nat) (s : Space) (toMerge : SlotPtr) : Option Space :=
  let c := s.slots toMerge
  match c.derivedFrom, c.derivation with
  | some parent, some derivation =>
      if c.flags.badged then s.mergeBadged fuel toMerge parent derivation else some s
  | _, _ => some s

def mergeDerivationLists (fuel : Nat) (s : Space) (toMerge : SlotPtr) : Option Space := do
  let s ← s.mergeChildren fuel toMerge
  let s := s.unlinkFromParent toMerge
  let links ← listDeleteNoContainer fuel s.derivationLinks toMerge
  some (s.setDerivationLinks links)

/-- Adds `dest` to the derivation list that its source belongs to or heads. -/
def deriveCapability (s : Space) (source dest : SlotPtr) : Option Space :=
  let c := s.slots source
  if c.flags.original || c.flags.badged then
    let s := s.modifySlot dest fun d => { d with derivedFrom := some source }
    match (s.slots source).derivation with
    | none =>
        let s := s.modifySlot source fun c => { c with derivation := some dest }
        some (s.setDerivationLinks (listInitNoContainer s.derivationLinks dest))
    | some derivation =>
        (listInsertNoContainer s.derivationLinks derivation dest).map s.setDerivationLinks
  else
    (listInsertNoContainer s.derivationLinks source dest).map s.setDerivationLinks

def copyCapability (s : Space) (source dest : SlotPtr) (address depth : Nat) :
    Option Space := do
  let c := s.slots source
  let s := s.modifySlot dest fun _ => { c with
    flags := { c.flags with original := false, badged := false }
    address := { c.address with address := address, depth := depth } }
  let links ← listInsertNoContainer s.resourceLinks source dest
  let s := s.setResourceLinks links
  let s ← s.deriveCapability source dest
  some (s.modifySlot dest fun d => { d with derivation := none })

/-- `nesting` is a `uint8_t`. -/
def updateCapabilityAddresses : (fuel : Nat) → Space → (slot : SlotPtr) →
    AbsoluteCapabilityAddress → (nesting : Nat) → Option Space
  | 0, _, _, _, _ => none
  | fuel + 1, s, slot, address, nesting =>
      let s :=
        if (s.slots slot).resourceList.prev = none then
          s.heapSetUpdateCapability (s.slots slot).resource address
        else
          s
      let s := s.modifySlot slot fun c => { c with address := address }
      if (s.slots slot).handlers = some .node then
        let block := (s.slots slot).resource
        let node := s.nodes block
        let s := { s with
          nodes := Function.update s.nodes block { node with nestedNodes := nesting } }
        (List.range (2 ^ node.slotBits)).foldlM (fun s i =>
          if (s.slots (.node block i)).handlers = none then
            some s
          else
            s.updateCapabilityAddresses fuel (.node block i)
              { address with
                address := shiftLeft i address.depth ||| address.address
                depth := (address.depth + node.slotBits) % 2 ^ ptrBits }
              ((nesting + 1) % 256)) s
      else
        some s

/-- The loop of `nesting_depth_search`; its bound on the depth is `fuel`. -/
def nestingDepthSearch : (fuel : Nat) → Space → (nodeCapability : SlotPtr) → Option Nat
  | 0, _, _ => none
  | fuel + 1, s, nodeCapability =>
      let block := (s.slots nodeCapability).resource
      let node := s.nodes block
      (List.range (2 ^ node.slotBits)).foldlM (fun nesting i =>
        if (s.slots (.node block i)).handlers = some .node then
          (nestingDepthSearch fuel s (.node block i)).map (max nesting)
        else
          some nesting) node.nestedNodes

/-- The difference is a `uint8_t`. -/
def getNestedNodesDepth (fuel : Nat) (s : Space) (nodeCapability : SlotPtr) : Option Nat :=
  if (s.slots nodeCapability).handlers = some .node then
    (s.nestingDepthSearch fuel nodeCapability).map fun nesting =>
      (nesting + 256 - (s.nodes (s.slots nodeCapability).resource).nestedNodes) % 256
  else
    some 0

end Space

namespace Kernel

def heapFree (k : Kernel) (ptr : Addr) : Kernel :=
  { k with
    kinds := Function.update k.kinds ptr .available
    space := { k.space with
      updateRefs := Function.update k.space.updateRefs ptr .nothing
      objects := Function.update k.space.objects ptr none } }

/-- One round of the loops of `endpoint_destructor`. -/
def releaseBlocked (k : Kernel) (thread : Addr) : Kernel :=
  ((k.suspendThread thread execModeSuspended).resumeThread thread execModeBlocked).modifyThread
    thread fun t => { t with blockedOn := none }

/-- `LIST_ITER` over a queue of blocked threads. -/
def iterBlockedQueue (fuel : Nat) (k : Kernel) (queue : Container Addr)
    (body : Kernel → Addr → Option Kernel) : Option Kernel :=
  listIter (fun k t => (k.threads t).blockedQueue.next) body fuel k queue.start

def endpointDestructor (fuel : Nat) (k : Kernel) (slot : SlotPtr) : Option Kernel := do
  let endpoint := (k.space.slots slot).resource
  let k ← k.iterBlockedQueue fuel (k.endpoints endpoint).blockedSending
    fun k t => some (k.releaseBlocked t)
  k.iterBlockedQueue fuel (k.endpoints endpoint).blockedReceiving
    fun k t => some (k.releaseBlocked t)

/-- `LIST_REMOVE(scheduler_state.needs_cpu_time_update, cpu_update_entry, thread)` -/
def leaveCpuUpdate (k : Kernel) (thread : Addr) : Kernel :=
  let (queue, entries) :=
    listRemove k.scheduler.needsCpuTimeUpdate k.cpuUpdateEntries thread
  { k with scheduler := { k.scheduler with needsCpuTimeUpdate := queue } }.setCpuUpdateEntries
    entries

/-- `LIST_REMOVE(thread_hash_table[thread->bucket_number], table_entry, thread)` -/
def leaveThreadBucket (k : Kernel) (thread : Addr) : Kernel :=
  let i := (k.threads thread).bucketNumber
  let (bucket, entries) := listRemove (k.threadHashTable i) k.tableEntries thread
  (k.setThreadBucket i bucket).setTableEntries entries

/-- `LIST_REMOVE(endpoint->blocked_sending, blocked_queue, thread)` -/
def leaveBlockedSending (k : Kernel) (endpoint thread : Addr) : Kernel :=
  let (queue, entries) :=
    listRemove (k.endpoints endpoint).blockedSending k.blockedQueues thread
  (k.setBlockedSending endpoint queue).setBlockedQueues entries

/-- `LIST_REMOVE(endpoint->blocked_receiving, blocked_queue, thread)` -/
def leaveBlockedReceiving (k : Kernel) (endpoint thread : Addr) : Kernel :=
  let (queue, entries) :=
    listRemove (k.endpoints endpoint).blockedReceiving k.blockedQueues thread
  (k.setBlockedReceiving endpoint queue).setBlockedQueues entries

def leaveBlocked (k : Kernel) (thread : Addr) : Kernel :=
  match (k.threads thread).blockedOn with
  | none => k
  | some endpoint =>
      if (k.threads thread).flags.blockedOnSend then k.leaveBlockedSending endpoint thread
      else k.leaveBlockedReceiving endpoint thread

/-- `thread_destructor` after it has deleted the root capability: the thread
leaves every list and releases its id. -/
def unlinkThread (k : Kernel) (thread : Addr) : Kernel :=
  let k := match (k.threads thread).runqueue with
    | some i => k.leaveRunqueue thread i
    | none => k
  let k := if (k.threads thread).flags.needsCpuUpdate then k.leaveCpuUpdate thread else k
  let k := (k.leaveThreadBucket thread).leaveBlocked thread
  { k with
    usedThreadIds := Function.update k.usedThreadIds (k.threads thread).threadId false }

/-- The first two steps of `unlinkThread`, if there is anything to do for them. -/
def leaveScheduler (k : Kernel) (thread : Addr) : Kernel :=
  let k := (k.threads thread).runqueue.elim k (k.leaveRunqueue thread)
  if (k.threads thread).flags.needsCpuUpdate then k.leaveCpuUpdate thread else k

theorem unlinkThread_eq (k : Kernel) (thread : Addr) :
    k.unlinkThread thread =
      let k := ((k.leaveScheduler thread).leaveThreadBucket thread).leaveBlocked thread
      { k with
        usedThreadIds :=
          Function.update k.usedThreadIds (k.threads thread).threadId false } := by
  unfold unlinkThread leaveScheduler
  cases (k.threads thread).runqueue with
  | none => rfl
  | some i => rfl

/-- The destructors call `delete_capability` for what they contain. -/
def threadDestructor (delete : Kernel → SlotPtr → Option Kernel) (k : Kernel)
    (slot : SlotPtr) : Option Kernel :=
  let thread := (k.space.slots slot).resource
  (delete k (.root thread)).map fun k => k.unlinkThread thread

/-- One round of the loop of `node_destructor`. -/
def destroySlot (delete : Kernel → SlotPtr → Option Kernel) (fuel : Nat) (k : Kernel)
    (capability : SlotPtr) : Option Kernel :=
  if (k.space.slots capability).handlers = none then
    some k
  else
    (k.space.mergeDerivationLists fuel capability).bind fun s =>
      delete { k with space := s } capability

def nodeDestructor (delete : Kernel → SlotPtr → Option Kernel) (fuel : Nat) (k : Kernel)
    (nodeCapability : SlotPtr) : Option Kernel :=
  let block := (k.space.slots nodeCapability).resource
  (List.range (2 ^ (k.space.nodes block).slotBits)).foldlM
    (fun k i => k.destroySlot delete fuel (.node block i)) k

def destructor (delete : Kernel → SlotPtr → Option Kernel) (fuel : Nat) (k : Kernel)
    (slot : SlotPtr) : Option Kernel :=
  match (k.space.slots slot).handlers with
  | some .endpoint => k.endpointDestructor fuel slot
  | some .thread => k.threadDestructor delete slot
  | some .node => k.nodeDestructor delete fuel slot
  | some .debug | some .untyped | some .addressSpace => some k
  -- `to_delete->handlers->destructor` follows a null pointer
  | none => none

/-- A null resource is not on the heap. -/
def freeResource (k : Kernel) (resource : Addr) : Kernel :=
  if resource = 0 then k else k.heapFree resource

/-- The last capability of a resource destroys and frees it. -/
def destroyResource (delete : Kernel → SlotPtr → Option Kernel) (fuel : Nat) (k : Kernel)
    (toDelete : SlotPtr) : Option Kernel :=
  (k.destructor delete fuel toDelete).map fun k =>
    k.freeResource (k.space.slots toDelete).resource

/-- The owner of a resource hands it over to the next capability.  The source
does so for a null resource too and writes in front of address 0. -/
def handOver (s : Space) (toDelete : SlotPtr) : Space :=
  let c := s.slots toDelete
  match c.resourceList.prev, c.resourceList.next with
  | none, some next => s.heapSetUpdateCapability c.resource (s.slots next).address
  | _, _ => s

/-- A capability without neighbours is the last one of its resource. -/
def isLast (s : Space) (capability : SlotPtr) : Prop :=
  (s.slots capability).resourceList.prev = none ∧
    (s.slots capability).resourceList.next = none

instance (s : Space) (capability : SlotPtr) : Decidable (isLast s capability) :=
  inferInstanceAs (Decidable (_ ∧ _))

/-- `handOver` and the removal from the resource list. -/
def leaveResourceList (fuel : Nat) (s : Space) (toDelete : SlotPtr) : Option Space :=
  let s := handOver s toDelete
  (listDeleteNoContainer fuel s.resourceLinks toDelete).map s.setResourceLinks

def deleteCapability : (fuel : Nat) → Kernel → (toDelete : SlotPtr) → Option Kernel
  | 0, _, _ => none
  | fuel + 1, k, toDelete =>
      (leaveResourceList fuel k.space toDelete).bind fun s =>
        let unlinked := { k with space := s }
        (if isLast k.space toDelete then
          unlinked.destroyResource (deleteCapability fuel) fuel toDelete
        else
          some unlinked).map fun k => k.modifySlot toDelete fun c => { c with handlers := none }

end Kernel

end Cenix
