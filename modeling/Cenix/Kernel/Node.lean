import Cenix.Kernel.Capabilities

namespace Cenix

open LinkedLists

/-! Capability slots and the invocations of capability nodes.  The first
component of a result is the value the source returns. -/

structure NodeCopyArgs where
  sourceAddress : Nat
  sourceDepth : Nat
  destSlot : Nat
  accessRights : BitVec 8
  badge : Nat
  shouldSetBadge : Bool
  deriving DecidableEq, Repr

structure NodeMoveArgs where
  sourceAddress : Nat
  sourceDepth : Nat
  destSlot : Nat
  deriving DecidableEq, Repr

namespace Kernel

/-- A resource that cannot be placed is freed again. -/
def freeIfHeapManaged (k : Kernel) (flags : CapFlags) (resource : Addr) : Kernel :=
  if flags.isHeapManaged then k.heapFree resource else k

/-- The node is too many layers deep for another node in it. -/
def TooMuchNesting (k : Kernel) (handlers : Handlers) (container : Addr) : Prop :=
  handlers = .node ∧ maxNestedNodes ≤ (k.space.nodes container).nestedNodes

instance (k : Kernel) (handlers : Handlers) (container : Addr) :
    Decidable (k.TooMuchNesting handlers container) :=
  inferInstanceAs (Decidable (_ ∧ _))

/-- Where the current thread's capabilities are. -/
def slotAddress (k : Kernel) (address depth : Nat) : AbsoluteCapabilityAddress :=
  match k.scheduler.currentThread with
  | some thread =>
      { threadId := (k.threads thread).threadId
        bucketNumber := (k.threads thread).bucketNumber
        address := address
        depth := depth }
  | none => { AbsoluteCapabilityAddress.zero with address := address, depth := depth }

/-- A new node is one layer deeper than the node it is placed in. -/
def nestNode (s : Space) (handlers : Handlers) (container resource : Addr) : Space :=
  if handlers = .node then
    let node := { s.nodes resource with
      nestedNodes := (s.nodes container).nestedNodes + 1 }
    { s with nodes := Function.update s.nodes resource node }
  else
    s

/-- The capability that `populate_capability_slot` writes. -/
def newCapability (slot : SlotPtr) (resource : Addr) (handlers : Handlers)
    (flags : CapFlags) (address : AbsoluteCapabilityAddress) : Capability :=
  { Capability.zero with
    handlers := some handlers
    resource := resource
    flags := { flags with original := true }
    accessRights := BitVec.allOnes 8
    resourceList := ⟨some slot, some slot, none, none⟩
    address := address }

def fillSlot (k : Kernel) (result : LookUpResult) (address : Nat) (resource : Addr)
    (handlers : Handlers) (flags : CapFlags) : Kernel :=
  let slotAddress := k.slotAddress address result.depth
  let s := (nestNode k.space handlers result.container resource).modifySlot result.slot
    fun _ => newCapability result.slot resource handlers flags slotAddress
  if flags.isHeapManaged then
    { k with
      space := s.heapSetUpdateCapability resource slotAddress
      kinds := heapUnlock k.kinds resource }
  else
    { k with space := s }

def populateCapabilitySlot (fuel : Nat) (k : Kernel) (address depth : Nat)
    (resource : Addr) (handlers : Handlers) (flags : CapFlags) : Option (Nat × Kernel) :=
  (k.lookUpCapabilityRelative fuel address depth).map fun
    | (none, k) => (eNoCapability, k.freeIfHeapManaged flags resource)
    | (some result, k) =>
        if (k.space.slots result.slot).handlers ≠ none then
          (eCapExists,
            (k.freeIfHeapManaged flags resource).unlockLookedUpCapability result)
        else if k.TooMuchNesting handlers result.container then
          (eTooMuchNesting,
            (k.freeIfHeapManaged flags resource).unlockLookedUpCapability result)
        else
          (0, (k.fillSlot result address resource handlers flags).unlockLookedUpCapability
            result)

/-- The slot of the node behind `slot` with the given index, if there is one. -/
def nodeSlot (k : Kernel) (slot : SlotPtr) (index : Nat) : Option SlotPtr :=
  let block := (k.space.slots slot).resource
  if index < 2 ^ (k.space.nodes block).slotBits then some (.node block index) else none

/-- `depth + node->slot_bits` on a `size_t`. -/
def nodeSlotDepth (k : Kernel) (slot : SlotPtr) (depth : Nat) : Nat :=
  (depth + (k.space.nodes (k.space.slots slot).resource).slotBits) % 2 ^ ptrBits

/-- The badge of the new capability, when it is to be set. -/
def setBadge (s : Space) (dest : SlotPtr) (args : NodeCopyArgs) : Space :=
  if args.shouldSetBadge then
    s.modifySlot dest fun d =>
      { d with badge := args.badge, flags := { d.flags with badged := true } }
  else
    s

def nodeCopy (fuel : Nat) (k : Kernel) (address depth : Nat) (slot : SlotPtr)
    (args : NodeCopyArgs) : Option (Nat × Kernel) :=
  match k.nodeSlot slot args.destSlot with
  | none => some (eInval, k)
  | some dest =>
      if (k.space.slots dest).handlers ≠ none then
        some (eCapExists, k)
      else
        (k.lookUpCapabilityRelative fuel args.sourceAddress args.sourceDepth).bind fun
          | (none, k) => some (eNoCapability, k)
          | (some result, k) =>
              let source := k.space.slots result.slot
              if source.handlers = some .node then
                some (eCapInval, k.unlockLookedUpCapability result)
              else if args.shouldSetBadge && !source.flags.original then
                some (eCapInval, k.unlockLookedUpCapability result)
              else
                (k.space.copyCapability result.slot dest
                    (address ||| shiftLeft args.destSlot depth)
                    (k.nodeSlotDepth slot depth)).map fun s =>
                  (0, { k with space := setBadge s dest args }.unlockLookedUpCapability result)

/-- The address that `node_move` writes, and the owner address of the resource. -/
def setMovedAddress (s : Space) (dest : SlotPtr) (address depth : Nat) : Space :=
  let s := s.modifySlot dest fun d =>
    { d with address := { d.address with address := address, depth := depth } }
  let d := s.slots dest
  if d.flags.isHeapManaged ∧ d.resourceList.prev = none then
    s.heapSetUpdateCapability d.resource d.address
  else
    s

def nodeMove (fuel : Nat) (k : Kernel) (address depth : Nat) (slot : SlotPtr)
    (args : NodeMoveArgs) : Option (Nat × Kernel) :=
  match k.nodeSlot slot args.destSlot with
  | none => some (eInval, k)
  | some dest =>
      if (k.space.slots dest).handlers ≠ none then
        some (eCapExists, k)
      else
        (k.lookUpCapabilityRelative fuel args.sourceAddress args.sourceDepth).bind fun
          | (none, k) => some (eNoCapability, k)
          | (some result, k) =>
              (k.space.moveCapability fuel result.slot dest).map fun s =>
                let s := setMovedAddress s dest (address ||| shiftLeft args.destSlot depth)
                  (k.nodeSlotDepth slot depth)
                (0, { k with space := s }.unlockLookedUpCapability result)

def nodeDelete (fuel : Nat) (k : Kernel) (slot : SlotPtr) (argument : Nat) :
    Option (Nat × Kernel) :=
  match k.nodeSlot slot argument with
  | none => some (eInval, k)
  | some toDelete =>
      if (k.space.slots toDelete).handlers = none then
        some (eNoCapability, k)
      else
        (k.space.mergeDerivationLists fuel toDelete).bind fun s =>
          (deleteCapability fuel { k with space := s } toDelete).map fun k => (0, k)

/-- `LIST_ITER_NO_CONTAINER` over a derivation list with a body that deletes. -/
def iterDerivationList (fuel : Nat) (k : Kernel) (link : SlotPtr)
    (body : Kernel → SlotPtr → Option Kernel) : Option Kernel :=
  listIter (fun k p => (k.space.slots p).derivationList.next) body fuel k
    (k.space.slots link).derivationList.start

/-- The second level of the derivation tree. -/
def revokeDerived (fuel : Nat) (k : Kernel) (c : SlotPtr) : Option Kernel :=
  let flags := (k.space.slots c).flags
  match (k.space.slots c).derivation with
  | some derivation =>
      if flags.original || flags.badged then
        k.iterDerivationList fuel derivation fun k d => deleteCapability fuel k d
      else
        some k
  | none => some k

def nodeRevoke (fuel : Nat) (k : Kernel) (slot : SlotPtr) (argument : Nat) :
    Option (Nat × Kernel) :=
  match k.nodeSlot slot argument with
  | none => some (eInval, k)
  | some toRevoke =>
      let c := k.space.slots toRevoke
      if c.handlers = none then
        some (eNoCapability, k)
      else if c.handlers = some .node ∨ !(c.flags.badged || c.flags.original) then
        some (eCapInval, k)
      else
        match c.derivation with
        | none => some (0, k)
        | some derivation =>
            (k.iterDerivationList fuel derivation fun k c =>
                (k.revokeDerived fuel c).bind fun k => deleteCapability fuel k c).map fun k =>
              (0, k.modifySlot toRevoke fun c => { c with derivation := none })

end Kernel

end Cenix
