import Cenix.Kernel.State

namespace Cenix

/-! The kernel's heap: blocks with their headers in memory, and `heap_alloc`. -/

/-- `size_t` has 32 bits. -/
def wrap (n : Nat) : Nat :=
  n % 2 ^ 32

def subSize (a b : Nat) : Nat :=
  (a + (2 ^ 32 - b % 2 ^ 32)) % 2 ^ 32

theorem wrap_of_lt (h : n < 2 ^ 32) : wrap n = n :=
  Nat.mod_eq_of_lt h

theorem subSize_of_le (hab : b ≤ a) (ha : a < 2 ^ 32) : subSize a b = a - b := by
  unfold subSize
  omega

theorem subSize_use (t u r s : Nat) :
    subSize (subSize t (wrap (u + s))) r = subSize (subSize t u) (r + s) := by
  unfold subSize wrap
  omega

theorem subSize_unuse (t u r s : Nat) :
    subSize (subSize t (subSize u s)) (r + s) = subSize (subSize t u) r := by
  unfold subSize
  omega

theorem subSize_lt : subSize a b < 2 ^ 32 :=
  Nat.mod_lt _ (by omega)

/-- `sizeof(struct heap_header)`, with the members at even offsets. -/
def sizeofHeapHeader : Nat :=
  26

theorem sizeofHeapHeader_pos : 0 < sizeofHeapHeader := by
  decide

/-- `update_ref`, and which of its members the flag bits say is in force. -/
inductive Heap.UpdateRef
  | absolute (pointer : Option Nat)
  | function (function : Nat)
  | capability (address : AbsoluteCapabilityAddress)
  deriving DecidableEq, Repr

/-- The kinds are the two bit fields of `flags`. -/
structure HeapHeader where
  size : Nat
  kind : Kind
  oldKind : Kind
  updateRef : Heap.UpdateRef
  next : Option Nat
  prev : Option Nat
  deriving DecidableEq, Repr

/-- The contents of a block are copied, and its `update_ref` is told of it. -/
structure Relocation where
  srcPtr : Nat
  destPtr : Nat
  updateRef : Heap.UpdateRef
  deriving DecidableEq, Repr

/-- `struct heap` with the memory it manages. `headers` holds the headers that
can be read from memory and `bytes` what is not part of a header that has been
written; whatever is written over a header destroys it. -/
@[ext] structure Heap where
  heapBase : Option Nat
  totalMemory : Nat
  usedMemory : Nat
  headers : Nat → Option HeapHeader
  bytes : Nat → Option UInt8
  relocations : List Relocation

namespace Heap

def writeHeader (h : Heap) (header : Nat) (contents : HeapHeader) : Heap :=
  { h with
    headers := fun x =>
      if x = header then
        some contents
      else if x < header + sizeofHeapHeader ∧ header < x + sizeofHeapHeader then
        none
      else
        h.headers x
    bytes := fun x =>
      if header ≤ x ∧ x < header + sizeofHeapHeader then none else h.bytes x }

def modifyHeader (h : Heap) (header : Nat) (f : HeapHeader → HeapHeader) : Option Heap :=
  (h.headers header).map fun contents => h.writeHeader header (f contents)

def memcpy (h : Heap) (dest src size : Nat) : Heap :=
  { h with
    headers := fun x =>
      if 0 < size ∧ x < dest + size ∧ dest < x + sizeofHeapHeader then none
      else h.headers x
    bytes := fun x =>
      if dest ≤ x ∧ x < dest + size then h.bytes (src + (x - dest)) else h.bytes x }

def availableMemory (h : Heap) : Nat :=
  subSize h.totalMemory h.usedMemory

/-- `heap->used_memory += size` -/
def use (h : Heap) (size : Nat) : Heap :=
  { h with usedMemory := wrap (h.usedMemory + size) }

/-- `heap->used_memory -= size` -/
def unuse (h : Heap) (size : Nat) : Heap :=
  { h with usedMemory := subSize h.usedMemory size }

/-- `if (next != NULL) next->prev = prev` -/
def setPrev (h : Heap) (next : Option Nat) (prev : Nat) : Option Heap :=
  match next with
  | none => some h
  | some next => h.modifyHeader next fun contents => { contents with prev := some prev }

/-- The result says whether the header was split. The `update_ref` of the new
header is not written, and nobody reads it before it is. -/
def splitHeader (h : Heap) (header pos : Nat) : Option (Heap × Bool) := do
  let contents ← h.headers header
  if subSize contents.size sizeofHeapHeader ≤ pos then
    some (h, false)
  else if pos ≤ sizeofHeapHeader then
    some (h, false)
  else
    let newHeader := header + pos
    let h := h.writeHeader newHeader
      { size := contents.size - pos, kind := .available, oldKind := .available,
        updateRef := .absolute none, next := contents.next, prev := some header }
    let h ← h.setPrev contents.next newHeader
    let h ← h.modifyHeader header fun contents =>
      { contents with size := pos, next := some newHeader }
    some (h, true)

def heapUnlock (h : Heap) (ptr : Nat) : Option Heap :=
  h.modifyHeader (ptr - sizeofHeapHeader) fun contents => { contents with kind := .movable }

/-- `heap_set_update_absolute`, `heap_set_update_function` and
`heap_set_update_capability` -/
def heapSetUpdate (h : Heap) (ptr : Nat) (ref : UpdateRef) : Option Heap :=
  h.modifyHeader (ptr - sizeofHeapHeader) fun contents => { contents with updateRef := ref }

/-- `for (header = ...;; header = header->next)`, left after `last` or when the
body says so. -/
def forHeaders (body : Nat → Heap → Option (Heap × Bool)) (last : Nat) :
    Nat → Nat → Heap → Option (Heap × Bool)
  | 0, _, _ => none
  | fuel + 1, header, h => do
      let (h, goesOn) ← body header h
      if goesOn = false ∨ header = last then
        some (h, goesOn)
      else
        let contents ← h.headers header
        let next ← contents.next
        forHeaders body last fuel next h

/-- The variables of the search loop of `heap_alloc`. -/
structure Search where
  startHeader : Nat
  endHeader : Nat
  totalSize : Nat
  toMove : Nat
  availableMemory : Nat
  deriving DecidableEq, Repr

/-- The search started (over) at a header of the given size. -/
def searchFrom (h : Heap) (header size : Nat) : Search :=
  ⟨header, header, size, 0, h.availableMemory⟩

/-- One round of the search loop goes on, has found a run of blocks, or gives up. -/
inductive Progress
  | goesOn (s : Search)
  | found (s : Search)
  | gaveUp
  deriving DecidableEq, Repr

def countBlock (s : Search) (contents : HeapHeader) : Search :=
  match contents.kind with
  | .available =>
      { s with availableMemory := subSize s.availableMemory contents.size }
  | .movable => { s with toMove := wrap (s.toMove + contents.size) }
  | .immovable => s

def searchRound (h : Heap) (size : Nat) (s : Search) : Option Progress := do
  let contents ← h.headers s.endHeader
  if contents.kind = .immovable then
    match contents.next with
    | none => some .gaveUp
    | some next => do
        let following ← h.headers next
        some (.goesOn (h.searchFrom next following.size))
  else
    let s := countBlock s contents
    if size ≤ s.totalSize then
      if s.toMove ≤ s.availableMemory then
        some (.found s)
      else
        some (.goesOn (h.searchFrom s.endHeader contents.size))
    else
      match contents.next with
      | none => some .gaveUp
      | some next => do
          let following ← h.headers next
          some (.goesOn { s with
            endHeader := next
            totalSize := wrap (s.totalSize + following.size) })

/-- The run of blocks the search loop is left with, if any. -/
def search (h : Heap) (size : Nat) : Nat → Search → Option (Option Search)
  | 0, _ => none
  | fuel + 1, s =>
      (h.searchRound size s).bind fun
        | .goesOn s => search h size fuel s
        | .found s => some (some s)
        | .gaveUp => some none

def splitEnd (h : Heap) (size : Nat) (s : Search) : Option Heap := do
  let contents ← h.headers s.endHeader
  let splitPos := subSize size (subSize s.totalSize contents.size)
  let splitPos := if contents.size ≤ splitPos then 0 else splitPos
  if contents.kind = .available then
    let (h, _) ← h.splitHeader s.endHeader splitPos
    some h
  else
    some h

/-- Keeps the old kind and marks the header as immovable. -/
def pin (header : Nat) (h : Heap) : Option (Heap × Bool) := do
  let contents ← h.headers header
  let h := h.writeHeader header { contents with oldKind := contents.kind, kind := .immovable }
  some (if contents.kind = .available then h.use contents.size else h, true)

def revert (header : Nat) (h : Heap) : Option (Heap × Bool) := do
  let contents ← h.headers header
  let h := h.writeHeader header { contents with kind := contents.oldKind }
  some (if contents.oldKind = .available then h.unuse contents.size else h, true)

/-- What is done to a header for which a new place has been allocated: its
contents are copied and its `update_ref` is told of and passed to the new place,
if there is one. -/
def moveTo (h : Heap) (header destPtr allocSize : Nat) : Option Heap := do
  let srcPtr := header + sizeofHeapHeader
  let h := h.memcpy destPtr srcPtr allocSize
  let h ← h.modifyHeader header fun contents => { contents with oldKind := .available }
  let contents ← h.headers header
  let relocation : Relocation := ⟨srcPtr, destPtr, contents.updateRef⟩
  let h := { h with relocations := h.relocations ++ [relocation] }
  let h ←
    if contents.updateRef = .absolute none then some h
    else h.heapSetUpdate destPtr contents.updateRef
  h.heapUnlock destPtr

/-- The body of the loop that moves headers away; it is left when no place can be
allocated. -/
def relocate (heapAlloc : Heap → Nat → Option (Heap × Option Nat)) (header : Nat)
    (h : Heap) : Option (Heap × Bool) := do
  let contents ← h.headers header
  if contents.oldKind ≠ .movable then
    some (h, true)
  else
    let allocSize := subSize contents.size sizeofHeapHeader
    match ← heapAlloc h allocSize with
    | (h, none) => some (h, false)
    | (h, some destPtr) => do
        let h ← h.moveTo header destPtr allocSize
        some (h, true)

/-- The headers from `start_header` to `end_header` become the new allocation. -/
def occupy (h : Heap) (size : Nat) (s : Search) : Option (Heap × Option Nat) := do
  let endContents ← h.headers s.endHeader
  let startSize := subSize (s.endHeader + endContents.size) s.startHeader
  let h ← h.modifyHeader s.startHeader fun contents =>
    { contents with
      size := startSize
      kind := .immovable
      oldKind := .available
      updateRef := .absolute none
      next := endContents.next }
  let h ← h.setPrev endContents.next s.startHeader
  let h := if s.toMove = 0 then h.use startSize else h
  let (h, excess) ← h.splitHeader s.startHeader size
  let h ←
    if excess then do
      let contents ← h.headers (s.startHeader + size)
      some (h.unuse contents.size)
    else
      some h
  some (h, some (s.startHeader + sizeofHeapHeader))

/-- `((actual_size + sizeof(struct heap_header)) + 3) & ~3` -/
def roundSize (actualSize : Nat) : Nat :=
  wrap (actualSize + sizeofHeapHeader + 3) / 4 * 4

/-- The part of `heap_alloc` behind the search loop. -/
def takeRun (heapAlloc : Heap → Nat → Option (Heap × Option Nat)) (fuel : Nat) (h : Heap)
    (size : Nat) (s : Search) : Option (Heap × Option Nat) := do
  let h ← h.splitEnd size s
  if 0 < s.toMove then
    let (h, _) ← forHeaders pin s.endHeader fuel s.startHeader h
    let (h, moved) ← forHeaders (relocate heapAlloc) s.endHeader fuel s.startHeader h
    if moved then
      h.occupy size s
    else
      let (h, _) ← forHeaders revert s.endHeader fuel s.startHeader h
      some (h, none)
  else
    h.occupy size s

/-- `none` for a call that has not returned within `fuel` rounds of a loop and
nested calls, or that reads a header where there is none. -/
def heapAlloc : Nat → Heap → Nat → Option (Heap × Option Nat)
  | 0, _, _ => none
  | fuel + 1, h, actualSize => do
      let size := roundSize actualSize
      let base ← h.heapBase
      let contents ← h.headers base
      if h.availableMemory < size then
        some (h, none)
      else
        match ← h.search size fuel (h.searchFrom base contents.size) with
        | none => some (h, none)
        | some s => takeRun (heapAlloc fuel) fuel h size s

end Heap

end Cenix
