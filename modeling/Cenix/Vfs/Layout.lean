import Cenix.Kernel.State

namespace Cenix.Vfs

/-! The slots of the VFS server's root node, the addresses it builds from them and the
badges it gives out. -/

def initNodeDepth : Nat := 4

def processDataNodeSlot : Nat := 4
def mountPointsNodeSlot : Nat := 5
def usedMountPointIdsSlot : Nat := 6
def mountedListInfoSlot : Nat := 7
def mountedListNodeSlot : Nat := 8
def usedMountedListsSlot : Nat := 9
def namespaceNodeSlot : Nat := 10
def usedNamespacesSlot : Nat := 11
def directoryNodeSlot : Nat := 12
def directoryInfoSlot : Nat := 13
def usedDirectoryIdsSlot : Nat := 14
def threadStorageNodeSlot : Nat := 15

def pidBits : Nat := 9
def mountPointsBits : Nat := 8
def maxMountPoints : Nat := 256
def mountedFsBits : Nat := 8
def maxMountedFs : Nat := 256
def namespaceBits : Nat := 8
def maxNamespaces : Nat := 256
def directoryBits : Nat := 8
def maxOpenDirectories : Nat := 256
def threadStorageBits : Nat := 3
def threadStorageNodeBits : Nat := 3

/-- `MOUNTED_LIST_ENTRY_BITS` for pointers of `ptrBits` bits. -/
def mountedListEntryBits : Nat := 5

/-- `((id) << INIT_NODE_DEPTH) | slot` -/
def nodeAddress (slot id : Nat) : Nat :=
  id * 2 ^ initNodeDepth + slot

def processDataAddress (pid : Nat) : Nat :=
  nodeAddress processDataNodeSlot pid

def namespaceAddress (namespaceId : Nat) : Nat :=
  nodeAddress namespaceNodeSlot namespaceId

def directoryAddress (id : Nat) : Nat :=
  nodeAddress directoryNodeSlot id

def directoryInfoAddress (id : Nat) : Nat :=
  nodeAddress directoryInfoSlot id

def mountedListInfoAddress (index : Nat) : Nat :=
  nodeAddress mountedListInfoSlot index

def mountedListNodeAddress (index : Nat) : Nat :=
  nodeAddress mountedListNodeSlot index

/-- `MOUNTED_LIST_SLOT`: the slot starts above the bits of the index only, so that it
overlaps with them. -/
def mountedListSlot (index slot : Nat) : Nat :=
  (slot * 2 ^ mountedFsBits) ||| mountedListNodeAddress index

def threadStorageAddress (threadId : Nat) : Nat :=
  nodeAddress threadStorageNodeSlot threadId

def threadStorageSlot (threadId slot : Nat) : Nat :=
  slot * 2 ^ (threadStorageBits + initNodeDepth) + threadStorageAddress threadId

def replyEndpointSlot : Nat := 2 ^ threadStorageBits - 1

/-! Badges. -/

def ipcFlagCanModify : Nat := 1
def ipcFlagIsDirectory : Nat := 2
def ipcFlagIsMountPoint : Nat := 3

def ipcFlags (badge : Nat) : Nat :=
  badge % 4

def ipcId (badge : Nat) : Nat :=
  badge / 4

def ipcBadge (id flags : Nat) : Nat :=
  id * 4 + flags % 4

@[simp] theorem ipcFlags_ipcBadge (id flags : Nat) :
    ipcFlags (ipcBadge id flags) = flags % 4 := by
  simp only [ipcFlags, ipcBadge]
  omega

@[simp] theorem ipcId_ipcBadge (id flags : Nat) : ipcId (ipcBadge id flags) = id := by
  simp only [ipcId, ipcBadge]
  omega

/-! Where an address leads. -/

/-- A slot of the server's capability space. -/
inductive Place where
  | root (slot : Nat)
  | processData (slot : Nat)
  | mountPoint (id : Nat)
  | listInfo (index : Nat)
  | listSlot (index slot : Nat)
  | fsNamespace (id : Nat)
  | directory (id : Nat)
  | directoryInfo (id : Nat)
  | storage (threadId slot : Nat)
  deriving DecidableEq, Repr

/-- The first slot in the node at `node` that an address with the further bits `rest`
leads to, in the nodes that `init_vfs_structures` allocates.  A slot of a list's node is
meant where that node exists, and the slot for the node itself where it does not. -/
def nodePlace (node rest : Nat) : Place :=
  if node = processDataNodeSlot then
    .processData (rest % 2 ^ pidBits)
  else if node = mountPointsNodeSlot then
    .mountPoint (rest % 2 ^ mountPointsBits)
  else if node = mountedListInfoSlot then
    .listInfo (rest % 2 ^ mountedFsBits)
  else if node = mountedListNodeSlot then
    .listSlot (rest % 2 ^ mountedFsBits) (rest / 2 ^ mountedFsBits % 2 ^ mountedListEntryBits)
  else if node = namespaceNodeSlot then
    .fsNamespace (rest % 2 ^ namespaceBits)
  else if node = directoryNodeSlot then
    .directory (rest % 2 ^ directoryBits)
  else if node = directoryInfoSlot then
    .directoryInfo (rest % 2 ^ directoryBits)
  else if node = threadStorageNodeSlot then
    .storage (rest % 2 ^ threadStorageNodeBits)
      (rest / 2 ^ threadStorageNodeBits % 2 ^ threadStorageBits)
  else
    .root node

/-- The `slot_bits` of the nodes that structures and directories lie in. -/
def nodeSlotBits (node : Nat) : Nat :=
  if node = processDataNodeSlot then pidBits
  else if node = mountPointsNodeSlot then mountPointsBits
  else if node = mountedListInfoSlot then mountedFsBits
  else if node = namespaceNodeSlot then namespaceBits
  else directoryBits

def place (address : Nat) : Place :=
  nodePlace (address % 2 ^ initNodeDepth) (address / 2 ^ initNodeDepth)

theorem nodeAddress_mod {slot : Nat} (id : Nat) (hslot : slot < 2 ^ initNodeDepth) :
    nodeAddress slot id % 2 ^ initNodeDepth = slot := by
  simp only [nodeAddress, initNodeDepth] at *
  omega

theorem nodeAddress_div {slot : Nat} (id : Nat) (hslot : slot < 2 ^ initNodeDepth) :
    nodeAddress slot id / 2 ^ initNodeDepth = id := by
  simp only [nodeAddress, initNodeDepth] at *
  omega

theorem place_nodeAddress {slot : Nat} (id : Nat) (hslot : slot < 2 ^ initNodeDepth) :
    place (nodeAddress slot id) = nodePlace slot id := by
  rw [place, nodeAddress_mod id hslot, nodeAddress_div id hslot]

theorem nodeAddress_ne_sizeMax {slot id : Nat} (hslot : slot < 2 ^ initNodeDepth)
    (hid : id < 2 ^ directoryBits) : nodeAddress slot id ≠ sizeMax := by
  simp only [nodeAddress, initNodeDepth, directoryBits, sizeMax, ptrBits] at *
  omega

@[simp] theorem place_processDataAddress (pid : Nat) :
    place (processDataAddress pid) = .processData (pid % 2 ^ pidBits) :=
  place_nodeAddress pid (by decide)

@[simp] theorem place_namespaceAddress (namespaceId : Nat) :
    place (namespaceAddress namespaceId) = .fsNamespace (namespaceId % 2 ^ namespaceBits) :=
  place_nodeAddress namespaceId (by decide)

@[simp] theorem place_directoryAddress (id : Nat) :
    place (directoryAddress id) = .directory (id % 2 ^ directoryBits) :=
  place_nodeAddress id (by decide)

@[simp] theorem place_directoryInfoAddress (id : Nat) :
    place (directoryInfoAddress id) = .directoryInfo (id % 2 ^ directoryBits) :=
  place_nodeAddress id (by decide)

@[simp] theorem place_mountedListInfoAddress (index : Nat) :
    place (mountedListInfoAddress index) = .listInfo (index % 2 ^ mountedFsBits) :=
  place_nodeAddress index (by decide)

theorem place_directory {id : Nat} (hid : id < maxOpenDirectories) :
    place (directoryAddress id) = .directory id :=
  (place_directoryAddress id).trans (congrArg Place.directory (Nat.mod_eq_of_lt hid))

theorem place_directoryInfo {id : Nat} (hid : id < maxOpenDirectories) :
    place (directoryInfoAddress id) = .directoryInfo id :=
  (place_directoryInfoAddress id).trans (congrArg Place.directoryInfo (Nat.mod_eq_of_lt hid))

theorem nodePlace_directory {id : Nat} (hid : id < maxOpenDirectories) :
    nodePlace directoryNodeSlot id = .directory id :=
  congrArg Place.directory (Nat.mod_eq_of_lt hid)

theorem nodePlace_directoryInfo {id : Nat} (hid : id < maxOpenDirectories) :
    nodePlace directoryInfoSlot id = .directoryInfo id :=
  congrArg Place.directoryInfo (Nat.mod_eq_of_lt hid)

end Cenix.Vfs
