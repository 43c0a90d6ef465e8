import Cenix.Vfs.Structures

namespace Cenix.Vfs

/-! Lists of the directories that are mounted on a mount point. -/

def mountCreate : BitVec 8 := 8

def createMountedListEntry : Vfs Nat := do
  let infoAddress ← allocStructure .mountedLists mountedListInfoSlot maxMountedFs
  if infoAddress = sizeMax then
    return sizeMax
  else if !(← lock .createMountedListEntry infoAddress) then
    freeStructure .mountedLists mountedListInfoSlot maxMountedFs infoAddress
    return sizeMax
  else
    writeStructure infoAddress (.listInfo ⟨0, 0, sizeMax⟩)
    unlock .createMountedListEntry infoAddress
    let mountedListIndex := infoAddress / 2 ^ initNodeDepth
    if (← allocListNode .createMountedListEntry mountedListIndex) ≠ 0 then
      freeStructure .mountedLists mountedListInfoSlot maxMountedFs infoAddress
      return sizeMax
    else
      return mountedListIndex

/-- The first bit that is not set. -/
def firstClearSlot (slots : BitVec ptrBits) : Nat :=
  ((List.range ptrBits).find? fun i => !slots.getLsbD i).getD ptrBits

/-- `(size_t) 1 << slot` -/
def slotBit (slot : Nat) : BitVec ptrBits :=
  BitVec.ofNat ptrBits (2 ^ slot)

/-- The branch of `mounted_list_insert` for an entry with a free slot. -/
def insertIntoEntry (index directoryFd : Nat) (mountFlags : BitVec 8) (info : MountedListInfo) :
    Vfs Nat := do
  let slotIndex := firstClearSlot info.usedSlots
  let result ← moveIntoList .mountedListInsert directoryFd index slotIndex
  onlyIf (result = 0)
    (writeStructure (mountedListInfoAddress index) (.listInfo { info with
      usedSlots := info.usedSlots ||| slotBit slotIndex
      createFlaggedSlots :=
        if mountFlags &&& mountCreate ≠ 0 then
          info.createFlaggedSlots ||| slotBit slotIndex
        else
          info.createFlaggedSlots }))
  return result

/-- The entry after a full one, which is created where there is none. -/
def nextEntry (index : Nat) (info : MountedListInfo) : Vfs Nat := do
  if info.nextIndex = sizeMax then
    let nextIndex ← createMountedListEntry
    writeStructure (mountedListInfoAddress index) (.listInfo { info with nextIndex := nextIndex })
    return nextIndex
  else
    return info.nextIndex

/-- The outcome `failure` also stands for a loop that did not end within `fuel` rounds. -/
def mountedListInsert (directoryFd : Nat) (mountFlags : BitVec 8) :
    (fuel : Nat) → (index : Nat) → Vfs Nat
  | 0, _ => failure
  | fuel + 1, index => do
      if index = sizeMax then
        return eUnknown
      else if !(← lock .mountedListInsert (mountedListInfoAddress index)) then
        return eNoMem
      else
        let info ← listInfoAt (mountedListInfoAddress index)
        if info.usedSlots = BitVec.allOnes ptrBits then
          let nextIndex ← nextEntry index info
          unlock .mountedListInsert (mountedListInfoAddress index)
          if nextIndex = sizeMax then
            return eNoMem
          else
            mountedListInsert directoryFd mountFlags fuel nextIndex
        else
          let result ← insertIntoEntry index directoryFd mountFlags info
          unlock .mountedListInsert (mountedListInfoAddress index)
          return result

/-- The loop over the slots of one entry.  The callback says whether to go on, and
otherwise what to return. -/
def iterateOverSlots (index : Nat) (info : MountedListInfo)
    (fn : Nat → Bool → Vfs (Option Nat)) : List Nat → Vfs (Option Nat)
  | [] => return none
  | i :: is => do
      if info.usedSlots.getLsbD i = false then
        iterateOverSlots index info fn is
      else
        match ← fn (mountedListSlot index i) (info.createFlaggedSlots.getLsbD i) with
        | some result => return some result
        | none => iterateOverSlots index info fn is

/-- `next_index` is read before the pointer is compared with `NULL`. -/
def iterateOverMountedList (fn : Nat → Bool → Vfs (Option Nat)) :
    (fuel : Nat) → (index : Nat) → Vfs Nat
  | 0, _ => failure
  | fuel + 1, index => do
      if index = sizeMax then
        return eNoEnt
      else if !(← lock .iterateOverMountedList (mountedListInfoAddress index)) then
        failure
      else
        let info ← listInfoAt (mountedListInfoAddress index)
        let found ← iterateOverSlots index info fn (List.range ptrBits)
        unlock .iterateOverMountedList (mountedListInfoAddress index)
        match found with
        | some result => return result
        | none => iterateOverMountedList fn fuel info.nextIndex

end Cenix.Vfs
