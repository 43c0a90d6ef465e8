import Cenix.Jax.Iterator

namespace Cenix.InitrdFs

open Jax

/-! The files and directories of the archive that the server serves. -/

/-- `struct state` without the capabilities, which are always the same. -/
structure State where
  initrdStart : Nat
  initrdEnd : Nat
  iterator : JaxIterator
  deriving DecidableEq, Repr

/-- `'/'` -/
def separator : Byte := 0x2f

/-- `'d'` -/
def typeDirectory : Byte := 0x64

/-- `for (; i < end && go(i); i ++)`, where the loop has at most `rounds` rounds to go. -/
def scan (go : Nat → Bool) : (rounds i : Nat) → Nat
  | 0, i => i
  | rounds + 1, i => if go i then scan go rounds (i + 1) else i

/-- The name has a separator from position `i` on. -/
def separatorFrom (m : Memory) (file : JaxFile) (i : Nat) : Bool :=
  let length := file.nameLength.toNat
  let i := scan (fun i => m (file.name + i) != separator) (length - i) i
  decide (i < length) && m (file.name + i) == separator

/-- The loop of `next_file_in_dir` goes on to the next file. -/
def skips (m : Memory) (dirFile file : JaxFile) : Bool :=
  let dirLength := dirFile.nameLength.toNat
  if dirLength = 0 then
    separatorFrom m file 0
  else if file.nameLength.toNat < dirLength + 1 then
    true
  else
    let i := scan (fun i => m (dirFile.name + i) == m (file.name + i)) dirLength 0
    if (decide (i < dirLength) && m (dirFile.name + i) != m (file.name + i)) ||
        m (file.name + dirLength) != separator then
      true
    else
      separatorFrom m file (dirLength + 1)

/-- The address of the file after the one at `address`, and that one. -/
def nextFile (m : Memory) (address initrdEnd : Nat) (file : JaxFile) : Option Nat × JaxFile :=
  let (found, iterator, file) := jaxNextFile m ⟨address, initrdEnd⟩ file
  (if found then some iterator.start else none, file)

/-- A file of a directory: the address of what follows it, and its own. -/
structure Found where
  next : Nat
  file : JaxFile
  address : Nat
  deriving DecidableEq, Repr

/-- The loop of `next_file_in_dir`, `none` if it takes more than `fuel` rounds. -/
def nextFileLoop (m : Memory) (dirFile : JaxFile) (initrdEnd : Nat) :
    (fuel : Nat) → (address : Nat) → (file : JaxFile) → Option (Option Found)
  | 0, _, _ => none
  | fuel + 1, address, file =>
      match nextFile m address initrdEnd file with
      | (none, _) => some none
      | (some next, file) =>
          if skips m dirFile file then
            nextFileLoop m dirFile initrdEnd fuel next file
          else
            some (some ⟨next, file, address⟩)

/-- A null pointer is before the start. -/
def nextFileInDir (m : Memory) (s : State) (fuel : Nat) (dirFile : JaxFile) (address : Nat) :
    Option (Option Found) :=
  if address < s.initrdStart then some none
  else nextFileLoop m dirFile s.initrdEnd fuel address .zero

end Cenix.InitrdFs
