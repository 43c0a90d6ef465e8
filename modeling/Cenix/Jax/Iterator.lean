import Cenix.Jax.Bytes

namespace Cenix.Jax

/-! The parser of an archive in memory.  Addresses are plain numbers: only the size of a
file is large enough to take a pointer past the end of the address space. -/

structure JaxIterator where
  start : Nat
  stop : Nat
  deriving DecidableEq, Repr

structure JaxFile where
  type : Byte
  nameLength : BitVec 16
  name : Nat
  descriptionLength : BitVec 16
  description : Nat
  timestamp : BitVec 64
  mode : BitVec 16
  owner : BitVec 16
  group : BitVec 16
  size : BitVec 64
  data : Nat
  deriving DecidableEq, Repr

/-- A `struct jax_file` filled with zero bytes. -/
def JaxFile.zero : JaxFile := ⟨0, 0, 0, 0, 0, 0, 0, 0, 0, 0, 0⟩

/-- `"^jax"` -/
def magic : List Byte := [0x5e, 0x6a, 0x61, 0x78]

def openJax (m : Memory) (start stop : Nat) : Option JaxIterator :=
  if start + 4 > stop ∨ m start ≠ 0x5e ∨ m (start + 1) ≠ 0x6a ∨ m (start + 2) ≠ 0x61 ∨
      m (start + 3) ≠ 0x78 then
    none
  else
    some ⟨start + 4, stop⟩

/-- `p + offset` for an `int64_t` -/
def offsetPointer (p : Nat) (offset : BitVec 64) : Nat :=
  (p + offset.toNat) % 2 ^ ptrBits

/-- The result, the iterator and the file afterwards; `file` keeps the old values of the
fields that are not reached. -/
def jaxNextFile (m : Memory) (iter : JaxIterator) (file : JaxFile) :
    Bool × JaxIterator × JaxFile :=
  if iter.start ≥ iter.stop ∨ iter.start + 3 ≥ iter.stop then
    (false, iter, file)
  else
    let file := { file with
      type := m iter.start
      nameLength := u16ToNe m (iter.start + 1)
      name := iter.start + 3 }
    let iter := { iter with start := iter.start + (file.nameLength.toNat + 3) }
    if iter.start ≥ iter.stop ∨ iter.start + 2 ≥ iter.stop then
      (false, iter, file)
    else
      let file := { file with
        descriptionLength := u16ToNe m iter.start
        description := iter.start + 2 }
      let iter := { iter with start := iter.start + (file.descriptionLength.toNat + 2) }
      if iter.start ≥ iter.stop ∨ iter.start + 22 ≥ iter.stop then
        (false, iter, file)
      else
        let file := { file with
          timestamp := i64ToNe m iter.start
          mode := u16ToNe m (iter.start + 8)
          owner := u16ToNe m (iter.start + 10)
          group := u16ToNe m (iter.start + 12)
          size := i64ToNe m (iter.start + 14)
          data := iter.start + 22 }
        let iter := { iter with start := offsetPointer iter.start (file.size + 22) }
        (decide (iter.start ≤ iter.stop), iter, file)

/-- Calls `jax_next_file` until it fails, `none` if that takes more than `fuel` calls. -/
def files (m : Memory) : (fuel : Nat) → JaxIterator → JaxFile → Option (List JaxFile)
  | 0, _, _ => none
  | fuel + 1, iter, file =>
      let (found, iter, file) := jaxNextFile m iter file
      if found then (files m fuel iter file).map (file :: ·) else some []

end Cenix.Jax
