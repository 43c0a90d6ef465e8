import Cenix.Kernel.State

namespace Cenix

/-! Bytes in memory and the byte order of an archive. -/

abbrev Byte := BitVec 8

abbrev Memory := Nat → Byte

namespace Memory

variable (m : Memory)

def bytesAt (start count : Nat) : List Byte :=
  (List.range count).map fun i => m (start + i)

def Stored (start : Nat) (bytes : List Byte) : Prop :=
  m.bytesAt start bytes.length = bytes

instance (start : Nat) (bytes : List Byte) : Decidable (m.Stored start bytes) :=
  inferInstanceAs (Decidable (_ = _))

@[simp] theorem bytesAt_zero (start : Nat) : m.bytesAt start 0 = [] := rfl

@[simp] theorem length_bytesAt (start count : Nat) :
    (m.bytesAt start count).length = count := by
  simp [bytesAt]

theorem bytesAt_succ (start count : Nat) :
    m.bytesAt start (count + 1) = m start :: m.bytesAt (start + 1) count := by
  simp [bytesAt, List.range_succ_eq_map, Nat.add_assoc, Nat.add_comm 1]

@[simp] theorem stored_nil (start : Nat) : m.Stored start [] := rfl

@[simp] theorem stored_cons (start : Nat) (byte : Byte) (bytes : List Byte) :
    m.Stored start (byte :: bytes) ↔ m start = byte ∧ m.Stored (start + 1) bytes := by
  simp [Stored, bytesAt_succ]

@[simp] theorem stored_append (start : Nat) (front back : List Byte) :
    m.Stored start (front ++ back) ↔
      m.Stored start front ∧ m.Stored (start + front.length) back := by
  induction front generalizing start with
  | nil => simp
  | cons byte front ih =>
      simp [ih, and_assoc, Nat.add_assoc, Nat.add_comm 1]

variable {m} in
theorem getElem_of_stored {start : Nat} {bytes : List Byte} (h : m.Stored start bytes) {i : Nat}
    (hi : i < bytes.length) : m (start + i) = bytes[i] := by
  have hget := congrArg (fun bytes => bytes[i]?) h
  simpa [bytesAt, hi] using hget

variable {m} in
theorem stored_iff_getElem {start : Nat} {bytes : List Byte} :
    m.Stored start bytes ↔ ∀ i, (hi : i < bytes.length) → m (start + i) = bytes[i] := by
  constructor
  · exact fun h i hi => getElem_of_stored h hi
  · intro h
    apply List.ext_getElem (by simp)
    intro i _ hi
    simpa [bytesAt] using h i hi

end Memory

/-- A memory that holds `bytes` from `start` on. -/
def memoryWith (start : Nat) (bytes : List Byte) : Memory :=
  fun address => bytes.getD (address - start) 0

theorem memoryWith_stored (start : Nat) (bytes : List Byte) :
    (memoryWith start bytes).Stored start bytes := by
  apply List.ext_getElem (by simp)
  intro i hlt hbound
  simp [Memory.bytesAt, memoryWith, hbound]

/-! Little-endian numbers. -/

def u16ToLe (number : BitVec 16) : List Byte :=
  [number.setWidth 8, (number >>> 8).setWidth 8]

def i64ToLe (number : BitVec 64) : List Byte :=
  (List.range 8).map fun i => (number.sshiftRight (i * 8)).setWidth 8

def u16ToNe (m : Memory) (address : Nat) : BitVec 16 :=
  (m address).setWidth 16 ||| ((m (address + 1)).setWidth 16 <<< 8)

def i64ToNe (m : Memory) (address : Nat) : BitVec 64 :=
  (List.range 8).foldl
    (fun result i => result ||| ((m (address + i)).setWidth 64 <<< (i * 8))) 0

@[simp] theorem length_u16ToLe (number : BitVec 16) : (u16ToLe number).length = 2 := rfl

@[simp] theorem length_i64ToLe (number : BitVec 64) : (i64ToLe number).length = 8 := rfl

theorem u16ToNe_of_stored {m : Memory} {address : Nat} {number : BitVec 16}
    (h : m.Stored address (u16ToLe number)) : u16ToNe m address = number := by
  simp only [u16ToLe, Memory.stored_cons] at h
  rw [u16ToNe, h.1, h.2.1]
  apply BitVec.eq_of_getLsbD_eq
  intro i hi
  simp only [BitVec.getLsbD_or, BitVec.getLsbD_setWidth, BitVec.getLsbD_shiftLeft,
    BitVec.getLsbD_ushiftRight, hi]
  cases Nat.lt_or_ge i 8 with
  | inl hlow => simp [hlow]
  | inr hhigh =>
      have hbyte : i - 8 < 16 := by omega
      have hsum : 8 + (i - 8) = i := by omega
      have hlow : ¬ i < 8 := by omega
      have htop : i - 8 < 8 := by omega
      simp [hlow, hbyte, hsum, htop]

/-- Bit `i` of the number that `count` bytes have been added to. -/
theorem getLsbD_foldl_bytes (byte : Nat → Byte) (number : BitVec 64) {count : Nat}
    (hcount : count ≤ 8)
    (hbyte : ∀ j, j < count → byte j = (number.sshiftRight (j * 8)).setWidth 8)
    {i : Nat} (hi : i < 64) :
    ((List.range count).foldl
      (fun result j => result ||| ((byte j).setWidth 64 <<< (j * 8))) 0 :
        BitVec 64).getLsbD i = (decide (i < count * 8) && number.getLsbD i) := by
  induction count with
  | zero => simp
  | succ count ih =>
      rw [List.range_succ, List.foldl_append, List.foldl_cons, List.foldl_nil,
        BitVec.getLsbD_or, ih (by omega) (fun j hj => hbyte j (by omega)),
        hbyte count (by omega)]
      simp only [BitVec.getLsbD_shiftLeft, BitVec.getLsbD_setWidth,
        BitVec.getLsbD_sshiftRight, hi, decide_true, Bool.true_and]
      cases Nat.lt_or_ge i (count * 8) with
      | inl hbefore =>
          have hafter : i < (count + 1) * 8 := by omega
          simp [hbefore, hafter]
      | inr hfrom =>
          have hnot : ¬ i < count * 8 := by omega
          have hsum : count * 8 + (i - count * 8) = i := by omega
          have hwidth : i - count * 8 < 64 := by omega
          cases Nat.lt_or_ge i ((count + 1) * 8) with
          | inl hin =>
              have hbit : i - count * 8 < 8 := by omega
              have hneg : ¬ 64 ≤ i - count * 8 := by omega
              simp [hnot, hsum, hwidth, hin, hbit, hi, hneg]
          | inr hout =>
              have hbit : ¬ i - count * 8 < 8 := by omega
              have hnin : ¬ i < (count + 1) * 8 := by omega
              simp [hnot, hnin, hbit]

theorem i64ToNe_of_stored {m : Memory} {address : Nat} {number : BitVec 64}
    (h : m.Stored address (i64ToLe number)) : i64ToNe m address = number := by
  have hbyte : ∀ j, j < 8 →
      m (address + j) = (number.sshiftRight (j * 8)).setWidth 8 := by
    intro j hj
    have hget := congrArg (fun bytes => bytes[j]?) h
    simpa [Memory.bytesAt, i64ToLe, hj] using hget
  apply BitVec.eq_of_getLsbD_eq
  intro i hi
  rw [i64ToNe, getLsbD_foldl_bytes (fun j => m (address + j)) number (Nat.le_refl 8) hbyte hi]
  simp [hi]

end Cenix
