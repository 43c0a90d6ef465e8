import Cenix.Kernel.Node
import Cenix.Kernel.Threads

namespace Cenix

open LinkedLists

/-! Allocation and relocation of heap blocks. -/

/-- What `heap_alloc` decides to do: the blocks it moves with their new places,
in the order in which it copies them, and the block it returns. -/
structure Placement where
  moves : List (Addr × Addr)
  block : Option Addr
  deriving DecidableEq, Repr

namespace Kernel

def onNodeMoved (fuel : Nat) (s : Space) (block : Addr) : Option Space :=
  (List.range (2 ^ (s.nodes block).slotBits)).foldlM (fun s i =>
    if (s.slots (.node block i)).handlers = none then
      some s
    else
      s.updateCapabilityReferences fuel (.node block i)) s

def onEndpointMoved (fuel : Nat) (k : Kernel) (endpoint : Addr) : Option Kernel := do
  let setBlockedOn := fun (k : Kernel) t =>
    some (k.modifyThread t fun t => { t with blockedOn := some endpoint })
  let k ← k.iterBlockedQueue fuel (k.endpoints endpoint).blockedSending setBlockedOn
  k.iterBlockedQueue fuel (k.endpoints endpoint).blockedReceiving setBlockedOn

/-- The `on_moved` handlers. -/
def onMoved (fuel : Nat) (k : Kernel) (handlers : Handlers) (resource : Addr) :
    Option Kernel :=
  match handlers with
  | .node => (onNodeMoved fuel k.space resource).map fun s => { k with space := s }
  | .thread => k.onThreadMoved fuel resource
  | .endpoint => k.onEndpointMoved fuel resource
  | .debug | .untyped | .addressSpace => some k

/-- The capability at `address`; address 0 with depth 0 is a root capability. -/
def lookUpOwner (fuel : Nat) (k : Kernel) (address : AbsoluteCapabilityAddress) :
    Option (Option LookUpResult × Kernel) :=
  if address.address = 0 ∧ address.depth = 0 then
    (lookUpThreadById fuel k address.threadId address.bucketNumber).map fun
      | (none, _, k) => (none, k)
      | (some thread, shouldUnlock, k) =>
          (some ⟨.root thread, 0, thread, shouldUnlock⟩, k)
  else
    k.lookUpCapabilityAbsolute fuel address

/-- Every capability on the resource list of `slot` gets the new address. -/
def setResources (fuel : Nat) (s : Space) (slot : SlotPtr) (resource : Addr) :
    Option Space :=
  s.iterResourceList fuel slot fun s item =>
    some (s.modifySlot item fun c => { c with resource := resource })

def updateCapabilityResource (fuel : Nat) (k : Kernel)
    (address : AbsoluteCapabilityAddress) (newResourceAddress : Addr) : Option Kernel :=
  (k.lookUpOwner fuel address).bind fun
    | (none, k) => some k
    | (some result, k) =>
        match (k.space.slots result.slot).handlers with
        | none => some (k.unlockLookedUpCapability result)
        | some handlers => do
            let s ← setResources fuel k.space result.slot newResourceAddress
            let k ← { k with space := s }.onMoved fuel handlers (s.slots result.slot).resource
            some (k.unlockLookedUpCapability result)

def copySlots (slots : SlotPtr → Capability) (src dest : Addr) : SlotPtr → Capability
  | .node block i => if block = dest then slots (.node src i) else slots (.node block i)
  | .root thread => if thread = dest then slots (.root src) else slots (.root thread)

/-- `memcpy(dest_ptr, src_ptr, alloc_size)`, after which the block at `dest` is
the allocated one. -/
def copyBlock (k : Kernel) (src dest : Addr) : Kernel :=
  { k with
    space := { k.space with
      slots := copySlots k.space.slots src dest
      nodes := Function.update k.space.nodes dest (k.space.nodes src)
      objects := Function.update (Function.update k.space.objects dest
        (k.space.objects src)) src none }
    contents := Function.update k.contents dest (k.contents src)
    threads := Function.update k.threads dest (k.threads src)
    endpoints := Function.update k.endpoints dest (k.endpoints src) }

/-- What has to be updated in order to move a block. -/
def updateReferences (fuel : Nat) (k : Kernel) (src dest : Addr) : Option Kernel :=
  match k.space.updateRefs src with
  | .capability address =>
      (k.updateCapabilityResource fuel address dest).map fun k =>
        { k with space := k.space.heapSetUpdateCapability dest address }
  | .onThreadMoved =>
      (k.onThreadMoved fuel dest).map fun k =>
        { k with space := { k.space with
            updateRefs := Function.update k.space.updateRefs dest .onThreadMoved } }
  | .nothing => some k

/-- The block at `dest` is new and locked, and so is the one at `src`. -/
def beginMove (k : Kernel) (src dest : Addr) : Kernel :=
  { k with
    kinds := Function.update (Function.update k.kinds src .immovable) dest .immovable
    space := { k.space with
      updateRefs := Function.update k.space.updateRefs dest .nothing } }.copyBlock src dest

/-- Moves the block at `src` to `dest`. -/
def relocate (fuel : Nat) (k : Kernel) (src dest : Addr) : Option Kernel :=
  ((k.beginMove src dest).updateReferences fuel src dest).map fun k =>
    { k with kinds := Function.update (heapUnlock k.kinds dest) src .available }

/-- The heap only moves movable blocks, and only to unused places. -/
def CanMove (k : Kernel) (src dest : Addr) : Prop :=
  k.space.objects src ≠ none ∧ k.kinds src = .movable ∧
    k.space.objects dest = none ∧ dest ≠ 0

instance (k : Kernel) (src dest : Addr) : Decidable (k.CanMove src dest) :=
  inferInstanceAs (Decidable (_ ∧ _))

def relocateAll (fuel : Nat) (k : Kernel) (moves : List (Addr × Addr)) : Option Kernel :=
  moves.foldlM (fun k move =>
    if k.CanMove move.1 move.2 then k.relocate fuel move.1 move.2 else none) k

/-- The new block is locked and nothing is updated when it moves. -/
def allocateBlock (k : Kernel) (block : Addr) (kind : ObjectKind) : Kernel :=
  { k with
    kinds := Function.update k.kinds block .immovable
    space := { k.space with
      updateRefs := Function.update k.space.updateRefs block .nothing
      objects := Function.update k.space.objects block (some kind) } }

/-- `kind` is what the caller puts into the block.  `none` also when the heap
cannot place blocks like that. -/
def heapAlloc (fuel : Nat) (k : Kernel) (placement : Placement) (kind : ObjectKind) :
    Option (Option Addr × Kernel) :=
  (k.relocateAll fuel placement.moves).bind fun k =>
    match placement.block with
    | none => some (none, k)
    | some block =>
        if k.space.objects block = none ∧ block ≠ 0 then
          some (some block, k.allocateBlock block kind)
        else
          none

/-- `alloc_node` once its block is allocated. -/
def initNode (k : Kernel) (block : Addr) (slotBits : Nat) : Kernel :=
  { k with space := { k.space with
      nodes := Function.update k.space.nodes block ⟨slotBits, 1⟩
      slots := fun p => match p with
        | .node b i =>
            if b = block ∧ i < 2 ^ slotBits then
              { k.space.slots p with handlers := none }
            else
              k.space.slots p
        | .root _ => k.space.slots p } }

def allocNode (fuel : Nat) (k : Kernel) (placement : Placement) (slotBits : Nat) :
    Option (Option Addr × Kernel) :=
  (k.heapAlloc fuel placement .node).map fun
    | (none, k) => (none, k)
    | (some block, k) => (some block, k.initNode block (min slotBits (ptrBits - 1)))

def allocEndpoint (fuel : Nat) (k : Kernel) (placement : Placement) :
    Option (Option Addr × Kernel) :=
  (k.heapAlloc fuel placement .endpoint).map fun
    | (none, k) => (none, k)
    | (some block, k) =>
        (some block, { k with
          endpoints := Function.update k.endpoints block ⟨Container.empty, Container.empty⟩ })

def allocThread (fuel : Nat) (k : Kernel) (placement : Placement) :
    Option (Option Addr × Kernel) :=
  match k.findThreadId 0 maxThreads with
  | none => some (none, k)
  | some threadId =>
      ((k.setThreadId threadId true).heapAlloc fuel placement .thread).map fun
        | (none, k) => (none, k.setThreadId threadId false)
        | (some thread, k) => (some thread, k.initThread thread threadId)

/-! Address spaces. -/

def typeUntyped : Nat := 0
def typeNode : Nat := 1
def typeThread : Nat := 2
def typeEndpoint : Nat := 3

structure AllocArgs where
  type : Nat
  size : Nat
  address : Nat
  depth : Nat
  deriving DecidableEq, Repr

/-- The allocation of an object of each type, with its handlers. -/
def allocObject (fuel : Nat) (k : Kernel) (placement : Placement) (args : AllocArgs) :
    Option (Handlers × Option Addr × Kernel) :=
  if args.type = typeUntyped then
    (k.heapAlloc fuel placement .untyped).map (Prod.mk .untyped)
  else if args.type = typeNode then
    (k.allocNode fuel placement args.size).map (Prod.mk .node)
  else if args.type = typeThread then
    (k.allocThread fuel placement).map (Prod.mk .thread)
  else
    (k.allocEndpoint fuel placement).map (Prod.mk .endpoint)

def addressSpaceAlloc (fuel : Nat) (k : Kernel) (slot : SlotPtr) (placement : Placement)
    (args : AllocArgs) : Option (Nat × Kernel) :=
  if args.type ≥ 4 then
    some (eInval, k)
  else if (k.space.slots slot).accessRights.getLsbD args.type then
    (k.allocObject fuel placement args).bind fun
      | (_, none, k) => some (eNoMem, k)
      | (handlers, some resource, k) =>
          k.populateCapabilitySlot fuel args.address args.depth resource handlers
            ⟨true, false, false⟩
  else
    some (ePerm, k)

end Kernel

end Cenix
