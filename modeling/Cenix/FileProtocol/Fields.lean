import Mathlib.Data.Vector.Basic

namespace Cenix.Fields

/-! Numbers and byte strings at offsets of a buffer of fixed size. -/

inductive ByteOrder where
  | little
  | big
  deriving DecidableEq, Repr

namespace ByteOrder

/-- Turns least significant bytes first into the byte order, and back. -/
def arrange (order : ByteOrder) (bytes : List (BitVec 8)) : List (BitVec 8) :=
  match order with
  | .little => bytes
  | .big => bytes.reverse

@[simp] theorem arrange_arrange (order : ByteOrder) (bytes : List (BitVec 8)) :
    order.arrange (order.arrange bytes) = bytes := by
  cases order with
  | little => rfl
  | big => exact bytes.reverse_reverse

@[simp] theorem length_arrange (order : ByteOrder) (bytes : List (BitVec 8)) :
    (order.arrange bytes).length = bytes.length := by
  cases order with
  | little => rfl
  | big => exact bytes.length_reverse

end ByteOrder

/-- The low `count` bytes of a number, the least significant first. -/
def lowBytes : (count value : Nat) → List (BitVec 8)
  | 0, _ => []
  | count + 1, value => BitVec.ofNat 8 value :: lowBytes count (value / 2 ^ 8)

def ofLowBytes : List (BitVec 8) → Nat
  | [] => 0
  | byte :: bytes => byte.toNat + 2 ^ 8 * ofLowBytes bytes

@[simp] theorem length_lowBytes (count value : Nat) : (lowBytes count value).length = count := by
  induction count generalizing value with
  | zero => rfl
  | succ count ih => simp [lowBytes, ih]

theorem ofLowBytes_lowBytes {count value : Nat} (h : value < 2 ^ (8 * count)) :
    ofLowBytes (lowBytes count value) = value := by
  induction count generalizing value with
  | zero =>
      have hzero : value = 0 := by simpa using h
      simp [lowBytes, ofLowBytes, hzero]
  | succ count ih =>
      have hsplit : 2 ^ (8 * (count + 1)) = 2 ^ (8 * count) * 2 ^ 8 := by
        rw [← Nat.pow_add, Nat.mul_add]
      have hrest : value / 2 ^ 8 < 2 ^ (8 * count) := by
        apply Nat.div_lt_of_lt_mul
        rwa [hsplit, Nat.mul_comm] at h
      rw [lowBytes, ofLowBytes, ih hrest, BitVec.toNat_ofNat]
      exact Nat.mod_add_div value (2 ^ 8)

/-- The bytes of a number in memory. -/
def numberBytes (order : ByteOrder) (count value : Nat) : List (BitVec 8) :=
  order.arrange (lowBytes count value)

def ofNumberBytes (order : ByteOrder) (bytes : List (BitVec 8)) : Nat :=
  ofLowBytes (order.arrange bytes)

@[simp] theorem length_numberBytes (order : ByteOrder) (count value : Nat) :
    (numberBytes order count value).length = count := by
  simp [numberBytes]

theorem ofNumberBytes_numberBytes (order : ByteOrder) {count value : Nat}
    (h : value < 2 ^ (8 * count)) :
    ofNumberBytes order (numberBytes order count value) = value := by
  simp [ofNumberBytes, numberBytes, ofLowBytes_lowBytes h]

section Buffers

variable {size : Nat} (buffer : Vector (BitVec 8) size)

def byteAt (i : Nat) : BitVec 8 :=
  buffer.toList.getD i 0

def bytesAt (offset count : Nat) : List (BitVec 8) :=
  (List.range count).map fun i => byteAt buffer (offset + i)

def setBytes (offset : Nat) (bytes : List (BitVec 8)) : Vector (BitVec 8) size :=
  Vector.ofFn fun i =>
    if offset ≤ i ∧ i < offset + bytes.length then bytes.getD (i - offset) 0 else buffer[i]

theorem byteAt_ofFn {f : Fin size → BitVec 8} {i : Nat} (h : i < size) :
    byteAt (Vector.ofFn f) i = f ⟨i, h⟩ := by
  simp [byteAt, h]

theorem byteAt_of_lt {i : Nat} (h : i < size) : byteAt buffer i = buffer[i] := by
  simp [byteAt, h]

theorem byteAt_setBytes {offset i : Nat} (bytes : List (BitVec 8)) (h : i < size) :
    byteAt (setBytes buffer offset bytes) i =
      if offset ≤ i ∧ i < offset + bytes.length then bytes.getD (i - offset) 0
      else byteAt buffer i := by
  rw [setBytes, byteAt_ofFn h, byteAt_of_lt buffer h]
  rfl

@[simp] theorem length_bytesAt (offset count : Nat) :
    (bytesAt buffer offset count).length = count := by
  simp [bytesAt]

theorem bytesAt_take {offset count more : Nat} (h : count ≤ more) :
    (bytesAt buffer offset more).take count = bytesAt buffer offset count := by
  rw [bytesAt, bytesAt, ← List.map_take, List.take_range, Nat.min_eq_left h]

theorem bytesAt_setBytes (offset : Nat) {bytes : List (BitVec 8)}
    (h : offset + bytes.length ≤ size) :
    bytesAt (setBytes buffer offset bytes) offset bytes.length = bytes := by
  apply List.ext_getElem (by simp)
  intro i hi hbytes
  have hsize : offset + i < size := by omega
  simp [bytesAt, byteAt_setBytes buffer bytes hsize, hbytes]

/-- Bytes before or behind the written ones stay. -/
theorem byteAt_setBytes_of_apart {offset i : Nat} {bytes : List (BitVec 8)} (h : i < size)
    (hapart : i < offset ∨ offset + bytes.length ≤ i) :
    byteAt (setBytes buffer offset bytes) i = byteAt buffer i := by
  rw [byteAt_setBytes buffer bytes h, if_neg]
  omega

theorem bytesAt_setBytes_of_apart {offset start count : Nat} {bytes : List (BitVec 8)}
    (h : start + count ≤ size)
    (hapart : start + count ≤ offset ∨ offset + bytes.length ≤ start) :
    bytesAt (setBytes buffer offset bytes) start count = bytesAt buffer start count := by
  apply List.map_congr_left
  intro i hi
  have hlt := List.mem_range.mp hi
  exact byteAt_setBytes_of_apart buffer (by omega) (by omega)

variable (order : ByteOrder)

def numberAt (offset count : Nat) : Nat :=
  ofNumberBytes order (bytesAt buffer offset count)

def setNumber (offset count value : Nat) : Vector (BitVec 8) size :=
  setBytes buffer offset (numberBytes order count value)

theorem numberAt_setNumber {offset count value : Nat} (h : offset + count ≤ size)
    (hvalue : value < 2 ^ (8 * count)) :
    numberAt (setNumber buffer order offset count value) order offset count = value := by
  have hlength : offset + (numberBytes order count value).length ≤ size := by
    rwa [length_numberBytes]
  have hbytes := bytesAt_setBytes buffer offset hlength
  rw [length_numberBytes] at hbytes
  rw [numberAt, setNumber, hbytes, ofNumberBytes_numberBytes order hvalue]

theorem ofNat_numberAt_setNumber {offset count width : Nat} (value : BitVec width)
    (h : offset + count ≤ size) (hwidth : width = 8 * count) :
    BitVec.ofNat width
      (numberAt (setNumber buffer order offset count value.toNat) order offset count) =
        value := by
  rw [numberAt_setNumber buffer order h (hwidth ▸ value.isLt), BitVec.ofNat_toNat,
    BitVec.setWidth_eq]

theorem numberAt_setBytes_of_apart {offset start count : Nat} {bytes : List (BitVec 8)}
    (h : start + count ≤ size)
    (hapart : start + count ≤ offset ∨ offset + bytes.length ≤ start) :
    numberAt (setBytes buffer offset bytes) order start count =
      numberAt buffer order start count := by
  rw [numberAt, bytesAt_setBytes_of_apart buffer h hapart]
  rfl

theorem numberAt_setNumber_of_apart {offset start count width value : Nat}
    (h : start + count ≤ size) (hapart : start + count ≤ offset ∨ offset + width ≤ start) :
    numberAt (setNumber buffer order offset width value) order start count =
      numberAt buffer order start count :=
  numberAt_setBytes_of_apart buffer order h (by simpa using hapart)

end Buffers

end Cenix.Fields
