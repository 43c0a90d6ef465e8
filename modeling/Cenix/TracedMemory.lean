import Cenix.WordMemory

namespace Cenix

/-! Memory that remembers where it was read and written, with the sizes of the
accesses. -/

structure Access (w : Nat) where
  address : BitVec w
  size : Nat
  deriving DecidableEq, Repr

namespace Access

variable {w : Nat}

/-- The address is a multiple of the size, as the processor wants it. -/
def Aligned (a : Access w) : Prop :=
  a.address.toNat % a.size = 0

/-- All bytes of the access are among the `count` bytes from `start` on. -/
def Inside (a : Access w) (start : BitVec w) (count : Nat) : Prop :=
  ∀ i < a.size, WordMemory.Within start count (a.address + BitVec.ofNat w i)

theorem aligned_byte (address : BitVec w) : (Access.mk address 1).Aligned :=
  Nat.mod_one _

theorem inside_offset {start : BitVec w} {p size count : Nat} (h : p + size ≤ count) :
    (Access.mk (start + BitVec.ofNat w p) size).Inside start count := by
  intro i hi
  exact ⟨p + i, Nat.lt_of_lt_of_le (Nat.add_lt_add_left hi p) h,
    WordMemory.add_ofNat_add start p i⟩

/-- An access that a copy or a fill of a region may make. -/
structure Sound (start : BitVec w) (count : Nat) (a : Access w) : Prop where
  aligned : a.Aligned
  inside : a.Inside start count

end Access

structure TracedMemory (w : Nat) where
  memory : WordMemory w
  loads : List (Access w)
  stores : List (Access w)

namespace TracedMemory

variable {w : Nat}

def untouched (m : WordMemory w) : TracedMemory w where
  memory := m
  loads := []
  stores := []

def load (t : TracedMemory w) (address : BitVec w) (size : Nat) :
    List (BitVec 8) × TracedMemory w :=
  (t.memory.bytesAt address size, { t with loads := t.loads ++ [⟨address, size⟩] })

def store (t : TracedMemory w) (address : BitVec w) (bytes : List (BitVec 8)) :
    TracedMemory w :=
  { t with
    memory := t.memory.set address bytes
    stores := t.stores ++ [⟨address, bytes.length⟩] }

/-- Stores at one address what is loaded from another. -/
def transfer (t : TracedMemory w) (dst src : BitVec w) (size : Nat) : TracedMemory w :=
  let (bytes, t) := t.load src size
  t.store dst bytes

@[simp] theorem store_memory (t : TracedMemory w) (address : BitVec w)
    (bytes : List (BitVec 8)) : (t.store address bytes).memory = t.memory.set address bytes :=
  rfl

@[simp] theorem transfer_memory (t : TracedMemory w) (dst src : BitVec w) (size : Nat) :
    (t.transfer dst src size).memory = t.memory.set dst (t.memory.bytesAt src size) := rfl

@[simp] theorem transfer_loads (t : TracedMemory w) (dst src : BitVec w) (size : Nat) :
    (t.transfer dst src size).loads = t.loads ++ [⟨src, size⟩] := rfl

@[simp] theorem transfer_stores (t : TracedMemory w) (dst src : BitVec w) (size : Nat) :
    (t.transfer dst src size).stores = t.stores ++ [⟨dst, size⟩] := by
  simp [transfer, load, store]

/-- Every load is sound for one region and every store for another. -/
structure Sound (t : TracedMemory w) (dst src : BitVec w) (count : Nat) : Prop where
  loads : ∀ a ∈ t.loads, a.Sound src count
  stores : ∀ a ∈ t.stores, a.Sound dst count

variable {t : TracedMemory w} {dst src : BitVec w} {count : Nat}

theorem sound_untouched (m : WordMemory w) : (untouched m).Sound dst src count where
  loads a ha := by cases ha
  stores a ha := by cases ha

theorem Sound.transfer (h : t.Sound dst src count) {p q : BitVec w} {size : Nat}
    (hload : (Access.mk q size).Sound src count) (hstore : (Access.mk p size).Sound dst count) :
    (t.transfer p q size).Sound dst src count where
  loads a ha := by
    rw [transfer_loads, List.mem_append, List.mem_singleton] at ha
    cases ha with
    | inl ha => exact h.loads a ha
    | inr ha => exact ha ▸ hload
  stores a ha := by
    rw [transfer_stores, List.mem_append, List.mem_singleton] at ha
    cases ha with
    | inl ha => exact h.stores a ha
    | inr ha => exact ha ▸ hstore

theorem Sound.store (h : t.Sound dst src count) {p : BitVec w} {bytes : List (BitVec 8)}
    (hstore : (Access.mk p bytes.length).Sound dst count) :
    (t.store p bytes).Sound dst src count where
  loads := h.loads
  stores a ha := by
    rw [TracedMemory.store, List.mem_append, List.mem_singleton] at ha
    cases ha with
    | inl ha => exact h.stores a ha
    | inr ha => exact ha ▸ hstore

end TracedMemory

end Cenix
