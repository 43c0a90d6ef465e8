import Cenix.Vfs.Server

namespace Cenix.Vfs

/-! Allocation of ids and of the structures that they number. -/

def eUnknown : Nat := 1
def eNotSup : Nat := 6
def eBadMsg : Nat := 14
def eNoEnt : Nat := 15
def eNoSys : Nat := 17

/-- The first id below `maxItems` that is not in use. -/
def firstFree (s : Server) (ids : Ids) (maxItems : Nat) : Option Nat :=
  (List.range maxItems).find? fun id => !s.used ids id

/-- Where the search leaves `pointer`, and `id`. -/
def searchEnd (maxItems : Nat) : Option Nat → Nat × Nat
  | some id => (id / ptrBits, id)
  | none => (maxItems / ptrBits, 0)

/-- The bit that a failed callback clears: `pointer` is not set back to the first word
before the id is used as an index again. -/
def clearedBit (word id : Nat) : Nat :=
  (word + id / ptrBits) * ptrBits + id % ptrBits

def findSlotFor (ids : Ids) (maxItems : Nat) (fn : Nat → Vfs Nat) : Vfs Nat := do
  if !(← lock .findSlotFor ids.address) then
    return sizeMax
  else
    let s ← getServer
    let free := firstFree s ids maxItems
    let (word, id) := searchEnd maxItems free
    onlyIf free.isSome (modifyServer (·.setUsed ids id true))
    let result ← fn id
    onlyIf (result = sizeMax) (modifyServer (·.setUsed ids (clearedBit word id) false))
    unlock .findSlotFor ids.address
    return result

/-- The result of the unlock is not needed anywhere. -/
def markSlotUnused (ids : Ids) (maxItems slotNumber : Nat) : Vfs Unit := do
  if ← lock .markSlotUnused ids.address then
    onlyIf (slotNumber < maxItems) (modifyServer (·.setUsed ids slotNumber false))
    unlock .markSlotUnused ids.address

def allocStructureCallback (node id : Nat) : Vfs Nat := do
  let address := nodeAddress node id
  if (← allocUntyped .allocStructure address) = 0 then
    return address
  else
    return sizeMax

def allocStructure (ids : Ids) (node maxItems : Nat) : Vfs Nat :=
  findSlotFor ids maxItems (allocStructureCallback node)

def freeStructure (ids : Ids) (node maxItems structureAddress : Nat) : Vfs Unit := do
  let slotNumber := structureAddress / 2 ^ initNodeDepth
  if (← nodeDelete .freeStructure node slotNumber) = 0 then
    markSlotUnused ids maxItems slotNumber

end Cenix.Vfs
