import Cenix.FileProtocol.Stubs
import Cenix.WordMemory

namespace Cenix.Bflt

open Fields FileProtocol

/-! The loader of binaries in the bFLT format. -/

abbrev Ram := WordMemory ptrBits

/-- What the loader uses of `struct bflt_header`. -/
structure BfltHeader where
  magic : List (BitVec 8)
  version : Word
  entryPoint : Word
  dataStart : Word
  dataEnd : Word
  bssEnd : Word
  stackSize : Word
  relocationsStart : Word
  numRelocations : Word
  flags : Word
  deriving DecidableEq, Repr

/-- `sizeof(struct bflt_header)` -/
def headerSize : Word := 64

def bfltFlagGotpic : Word := 2

def bfltFlagGzip : Word := 4

section

variable (order : ByteOrder) (m : Ram)

def word (address : Word) : Word :=
  m.wordAt order wordBytes address

/-- The header that a pointer to it points to. -/
def headerAt (header : Word) : BfltHeader where
  magic := m.bytesAt header 4
  version := word order m (header + 4)
  entryPoint := word order m (header + 8)
  dataStart := word order m (header + 12)
  dataEnd := word order m (header + 16)
  bssEnd := word order m (header + 20)
  stackSize := word order m (header + 24)
  relocationsStart := word order m (header + 28)
  numRelocations := word order m (header + 32)
  flags := word order m (header + 36)

end

namespace BfltHeader

variable (h : BfltHeader)

def gotpic : Bool :=
  h.flags &&& bfltFlagGotpic != 0

end BfltHeader

/-- The magic number is `bFLT`. -/
def bfltVerify (h : BfltHeader) : Bool :=
  if h.magic ≠ [0x62, 0x46, 0x4c, 0x54] then false
  else if h.version ≠ 4 then false
  else if h.flags &&& bfltFlagGzip ≠ 0 then false
  else true

def bfltAllocationSize (h : BfltHeader) : Word :=
  if h.gotpic then h.bssEnd - h.dataStart + h.stackSize
  else h.bssEnd - headerSize + h.stackSize

def noFlags : BitVec 8 := 0

def flagDenyTextReallocations : BitVec 8 := 1

def offsetToAddress (textSegment dataSegment : Word) (flags : BitVec 8)
    (dataStart offset : Word) : Word :=
  let dataSegmentOffset := dataStart - headerSize
  if offset < dataSegmentOffset then
    if flags &&& flagDenyTextReallocations ≠ 0 then 0 else textSegment + offset
  else dataSegment + offset - dataSegmentOffset

/-- The pointers that the loader has computed before it writes anything. -/
structure Segments where
  textStart : Word
  dataStart : Word
  dataEnd : Word
  textWritable : Bool

def segments (h : BfltHeader) (header allocation : Word) : Segments :=
  if h.gotpic then
    { textStart := header + headerSize
      dataStart := allocation
      dataEnd := allocation + h.dataEnd - h.dataStart
      textWritable := false }
  else
    { textStart := allocation
      dataStart := allocation + h.dataStart - headerSize
      dataEnd := allocation + h.dataEnd - headerSize
      textWritable := true }

/-- The memory, and the regions that have been written. -/
structure Loading where
  memory : Ram
  written : List (Word × Nat)

namespace Loading

variable (s : Loading)

def store (start : Word) (bytes : List (BitVec 8)) : Loading where
  memory := s.memory.set start bytes
  written := s.written ++ [(start, bytes.length)]

def memcpy (destination source length : Word) : Loading :=
  s.store destination (s.memory.bytesAt source length.toNat)

def memset (destination : Word) (byte : BitVec 8) (length : Word) : Loading :=
  s.store destination (List.replicate length.toNat byte)

def storeWord (order : ByteOrder) (address value : Word) : Loading :=
  s.store address (numberBytes order wordBytes value.toNat)

end Loading

section

variable (order : ByteOrder) (h : BfltHeader) (g : Segments)

def copySegments (header : Word) (s : Loading) : Loading :=
  if h.gotpic then
    s.memcpy g.dataStart (header + h.dataStart) (h.dataEnd - h.dataStart)
  else
    s.memcpy g.textStart (header + headerSize) (h.dataEnd - headerSize)

def clearBss (s : Loading) : Loading :=
  s.memset g.dataEnd 0 (h.bssEnd - h.dataEnd)

/-- `offset_to_address` without flags. -/
def addressOf (offset : Word) : Word :=
  offsetToAddress g.textStart g.dataStart noFlags h.dataStart offset

/-- The word that a relocation changes. -/
def addressToRelocate (offset : Word) : Word :=
  offsetToAddress g.textStart g.dataStart
    (if g.textWritable then noFlags else flagDenyTextReallocations) h.dataStart offset

/-- Replaces the offset in a word. -/
def fixUp (address : Word) (s : Loading) : Loading :=
  s.storeWord order address (addressOf h g (word order s.memory address))

def relocate (offset : Word) (s : Loading) : Loading :=
  if addressToRelocate h g offset = 0 then s
  else fixUp order h g (addressToRelocate h g offset) s

/-- The loop over the relocations, by the number of those left. -/
def relocations : (count : Nat) → (relocationsStart : Word) → Loading → Loading
  | 0, _, s => s
  | count + 1, relocationsStart, s =>
      relocations count (relocationsStart + 4)
        (relocate order h g (word order s.memory relocationsStart) s)

/-- The loop over the global offset table, with the entry that it ends at. -/
def fixUpGot : (fuel : Nat) → (got : Word) → Loading → Option (Loading × Word)
  | 0, _, _ => none
  | fuel + 1, got, s =>
      if word order s.memory got = BitVec.allOnes ptrBits then some (s, got)
      else fixUpGot fuel (got + 4) (fixUp order h g got s)

end

/-- The registers that the loader sets. -/
structure Registers where
  programCounter : Word
  stackPointer : Word
  gotPointer : Option Word

structure Loaded where
  loading : Loading
  gotEnd : Option Word
  registers : Registers

def entryRegisters (h : BfltHeader) (header allocation : Word) : Registers where
  programCounter :=
    if h.gotpic then header + h.entryPoint else allocation + h.entryPoint - headerSize
  stackPointer := allocation + bfltAllocationSize h
  gotPointer := if h.gotpic then some (segments h header allocation).dataStart else none

def bfltLoad (order : ByteOrder) (fuel : Nat) (header allocation : Word) (m : Ram) :
    Option Loaded :=
  let h := headerAt order m header
  let g := segments h header allocation
  let s := clearBss h g (copySegments h g header ⟨m, []⟩)
  let s := relocations order h g h.numRelocations.toNat (header + h.relocationsStart) s
  if h.gotpic then
    (fixUpGot order h g fuel g.dataStart s).map fun (s, gotEnd) =>
      ⟨s, some gotEnd, entryRegisters h header allocation⟩
  else some ⟨s, none, entryRegisters h header allocation⟩

end Cenix.Bflt
