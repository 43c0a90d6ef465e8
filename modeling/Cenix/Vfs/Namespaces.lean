import Cenix.Vfs.Messages

namespace Cenix.Vfs

/-! Filesystem namespaces. -/

def emptyNamespace : FsNamespace :=
  ⟨1, sizeMax, fun _ => sizeMax⟩

/-- The address of a new namespace. -/
def allocNamespace : Vfs Nat := do
  let address ← allocStructure .namespaces namespaceNodeSlot maxNamespaces
  if address = sizeMax then
    return sizeMax
  else if !(← lock .allocNamespace address) then
    freeStructure .namespaces namespaceNodeSlot maxNamespaces address
    return sizeMax
  else
    writeStructure address (.fsNamespace emptyNamespace)
    unlock .allocNamespace address
    return address

def freeNamespace (namespaceId : Nat) : Vfs Unit := do
  let address := namespaceAddress namespaceId
  if ← lock .freeNamespace address then
    let fsNamespace ← fsNamespaceAt address
    if fsNamespace.references ≤ 1 then
      unlock .freeNamespace address
      freeStructure .namespaces namespaceNodeSlot maxNamespaces address
    else
      writeStructure address
        (.fsNamespace { fsNamespace with references := fsNamespace.references - 1 })
      unlock .freeNamespace address

def permutationTable : Array Nat :=
  #[14, 132, 225, 182, 47, 210, 44, 79, 83, 145, 5, 135, 192, 162, 205, 91,
    29, 55, 48, 152, 246, 12, 117, 104, 211, 119, 49, 206, 36, 72, 24, 3,
    227, 9, 41, 239, 250, 61, 164, 200, 247, 184, 108, 161, 99, 185, 230, 126,
    96, 70, 163, 170, 77, 15, 43, 81, 76, 187, 52, 180, 178, 80, 86, 253,
    141, 105, 157, 168, 93, 196, 193, 13, 232, 125, 115, 183, 127, 51, 129, 222,
    113, 251, 121, 101, 20, 169, 94, 197, 229, 151, 218, 95, 114, 64, 124, 208,
    147, 0, 27, 103, 50, 189, 252, 238, 107, 173, 130, 235, 106, 33, 167, 30,
    156, 237, 140, 57, 214, 249, 155, 143, 78, 39, 203, 171, 2, 242, 219, 177,
    215, 216, 54, 23, 191, 34, 84, 69, 244, 176, 45, 241, 174, 158, 179, 6,
    153, 65, 149, 68, 85, 195, 112, 234, 42, 25, 58, 254, 102, 92, 100, 82,
    220, 236, 1, 110, 56, 63, 194, 136, 16, 223, 139, 209, 35, 37, 40, 87,
    148, 199, 201, 233, 217, 255, 59, 146, 207, 190, 116, 32, 7, 4, 98, 154,
    97, 134, 60, 46, 38, 138, 22, 204, 175, 172, 17, 73, 133, 142, 10, 213,
    240, 11, 228, 66, 131, 224, 118, 74, 181, 160, 19, 159, 31, 53, 248, 120,
    88, 71, 90, 137, 166, 165, 21, 212, 122, 231, 226, 18, 123, 128, 109, 221,
    144, 186, 28, 243, 75, 26, 188, 67, 8, 89, 202, 111, 150, 198, 245, 62]

/-- The bytes of the value go in from its first one on; they are little endian here. -/
def hash (value : Nat) : Nat :=
  (List.range (ptrBits / 8)).foldl
    (fun result i => permutationTable[result ^^^ (value / 2 ^ (8 * i) % 256)]?.getD 0) 0

def bucketOf (inode : Nat) : Nat :=
  hash inode % numBuckets

/-- Links a mount point that is locked and filled in into a namespace, unless it is the
root: the first part of the result says whether that worked. -/
def linkMountPoint (namespaceAddress mountPointAddress : Nat) (mountPoint : MountPoint) :
    Vfs Bool := do
  let fsNamespace ← fsNamespaceAt namespaceAddress
  if fsNamespace.rootAddress = sizeMax then
    writeStructure namespaceAddress
      (.fsNamespace { fsNamespace with rootAddress := mountPointAddress })
    return true
  else
    let bucket := bucketOf mountPoint.inode
    let other := fsNamespace.mountPointAddresses bucket
    let linked := FsNamespace.mk fsNamespace.references fsNamespace.rootAddress
      (Function.update fsNamespace.mountPointAddresses bucket mountPointAddress)
    if other = sizeMax then
      writeStructure namespaceAddress (.fsNamespace linked)
      return true
    else if !(← lock .addMountPointToNamespace other) then
      return false
    else
      let otherMountPoint ← mountPointAt other
      writeStructure other (.mountPoint { otherMountPoint with previous := mountPointAddress })
      unlock .addMountPointToNamespace other
      writeStructure mountPointAddress (.mountPoint { mountPoint with next := other })
      writeStructure namespaceAddress (.fsNamespace linked)
      return true

/-- The namespace is locked by the caller. -/
def addMountPointToNamespace (namespaceAddress : Nat) (mountPoint : MountPoint) : Vfs Nat := do
  let mountPointAddress ← allocStructure .mountPoints mountPointsNodeSlot maxMountPoints
  if mountPointAddress = sizeMax then
    return eNoMem
  else if !(← lock .addMountPointToNamespace mountPointAddress) then
    freeStructure .mountPoints mountPointsNodeSlot maxMountPoints mountPointAddress
    return eNoMem
  else
    writeStructure mountPointAddress (.mountPoint mountPoint)
    if !(← linkMountPoint namespaceAddress mountPointAddress mountPoint) then
      freeStructure .mountPoints mountPointsNodeSlot maxMountPoints mountPointAddress
      return eNoMem
    else
      unlock .addMountPointToNamespace mountPointAddress
      return 0

/-- The loop over a bucket. -/
def findInBucket (inode enclosingFilesystem : Nat) : (fuel : Nat) → (address : Nat) → Vfs Nat
  | 0, _ => failure
  | fuel + 1, address => do
      if address = sizeMax then
        return sizeMax
      else if !(← lock .findMountPoint address) then
        return sizeMax
      else
        let mountPoint ← mountPointAt address
        unlock .findMountPoint address
        if mountPoint.inode = inode ∧ mountPoint.enclosingFilesystem = enclosingFilesystem then
          return address
        else
          findInBucket inode enclosingFilesystem fuel mountPoint.next

def findMountPoint (fuel namespaceId inode enclosingFilesystem : Nat) : Vfs Nat := do
  let address := namespaceAddress namespaceId
  if !(← lock .findMountPoint address) then
    return sizeMax
  else
    let fsNamespace ← fsNamespaceAt address
    let found ← findInBucket inode enclosingFilesystem fuel
      (fsNamespace.mountPointAddresses (bucketOf inode))
    unlock .findMountPoint address
    return found

end Cenix.Vfs
