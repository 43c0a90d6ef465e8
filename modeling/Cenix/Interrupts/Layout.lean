import Cenix.FileProtocol.Fields
import Cenix.Kernel.State

namespace Cenix

open Fields

/-! `struct thread_registers` in memory, with the members at even offsets. -/

namespace Fields

theorem lowBytes_ofLowBytes (bytes : List (BitVec 8)) :
    lowBytes bytes.length (ofLowBytes bytes) = bytes := by
  induction bytes with
  | nil => rfl
  | cons byte bytes ih =>
      have hbyte : byte.toNat < 2 ^ 8 := byte.isLt
      have hrest : (byte.toNat + 2 ^ 8 * ofLowBytes bytes) / 2 ^ 8 = ofLowBytes bytes := by
        omega
      rw [List.length_cons, ofLowBytes, lowBytes, hrest, ih, BitVec.ofNat_add, BitVec.ofNat_mul]
      simp

theorem numberBytes_ofNumberBytes (order : ByteOrder) {bytes : List (BitVec 8)} {count : Nat}
    (h : bytes.length = count) : numberBytes order count (ofNumberBytes order bytes) = bytes := by
  have harranged := lowBytes_ofLowBytes (order.arrange bytes)
  rw [ByteOrder.length_arrange, h] at harranged
  rw [numberBytes, ofNumberBytes, harranged, ByteOrder.arrange_arrange]

theorem ofLowBytes_lt (bytes : List (BitVec 8)) : ofLowBytes bytes < 2 ^ (8 * bytes.length) := by
  induction bytes with
  | nil => simp [ofLowBytes]
  | cons byte bytes ih =>
      have hbyte : byte.toNat < 2 ^ 8 := byte.isLt
      have hsplit : 2 ^ (8 * (bytes.length + 1)) = 2 ^ 8 * 2 ^ (8 * bytes.length) := by
        rw [← Nat.pow_add]
        congr 1
        omega
      rw [ofLowBytes, List.length_cons, hsplit]
      omega

theorem ofNumberBytes_lt (order : ByteOrder) (bytes : List (BitVec 8)) :
    ofNumberBytes order bytes < 2 ^ (8 * bytes.length) := by
  have hlt := ofLowBytes_lt (order.arrange bytes)
  rwa [ByteOrder.length_arrange] at hlt

variable {w n : Nat} (order : ByteOrder)

/-- A value of a fixed width at the front of a list of bytes. -/
def valueOf (w : Nat) (bytes : List (BitVec 8)) : BitVec w :=
  BitVec.ofNat w (ofNumberBytes order (bytes.take (w / 8)))

def valueBytes (value : BitVec w) : List (BitVec 8) :=
  numberBytes order (w / 8) value.toNat

@[simp] theorem length_valueBytes (value : BitVec w) :
    (valueBytes order value).length = w / 8 :=
  length_numberBytes ..

theorem valueOf_valueBytes (hw : w = 8 * n) (value : BitVec w) (rest : List (BitVec 8)) :
    valueOf order w (valueBytes order value ++ rest) = value := by
  have hdiv : w / 8 = n := by omega
  have hlt : value.toNat < 2 ^ (8 * n) := hw ▸ value.isLt
  rw [valueOf, List.take_left' (length_valueBytes order value), valueBytes, hdiv,
    ofNumberBytes_numberBytes order hlt, BitVec.ofNat_toNat, BitVec.setWidth_eq]

theorem valueBytes_valueOf (hw : w = 8 * n) (bytes : List (BitVec 8)) (h : n ≤ bytes.length) :
    valueBytes order (valueOf order w bytes) = bytes.take n := by
  have hdiv : w / 8 = n := by omega
  have hlength : (bytes.take n).length = n := by
    rw [List.length_take]
    omega
  have hlt : ofNumberBytes order (bytes.take n) < 2 ^ w := by
    have hbound := ofNumberBytes_lt order (bytes.take n)
    rwa [hlength, ← hw] at hbound
  rw [valueBytes, valueOf, hdiv, BitVec.toNat_ofNat, Nat.mod_eq_of_lt hlt,
    numberBytes_ofNumberBytes order hlength]

/-! Values of one width, one after the other. -/

def arrayBytes (values : List (BitVec w)) : List (BitVec 8) :=
  values.flatMap (valueBytes order)

@[simp] theorem length_arrayBytes (values : List (BitVec w)) :
    (arrayBytes order values).length = w / 8 * values.length := by
  simp [arrayBytes, List.length_flatMap, Nat.mul_comm]

theorem drop_arrayBytes (values : List (BitVec w)) (i : Nat) :
    (arrayBytes order values).drop (w / 8 * i) = arrayBytes order (values.drop i) := by
  induction i generalizing values with
  | zero => rfl
  | succ i ih =>
      cases values with
      | nil => simp [arrayBytes]
      | cons value values =>
          rw [List.drop_succ_cons, ← ih, arrayBytes, List.flatMap_cons, Nat.mul_succ,
            Nat.add_comm, ← List.drop_drop, List.drop_left' (length_valueBytes order value)]
          rfl

theorem valueOf_arrayBytes (hw : w = 8 * n) (values : List (BitVec w)) {i : Nat}
    (hi : i < values.length) (rest : List (BitVec 8)) :
    valueOf order w ((arrayBytes order values ++ rest).drop (n * i)) = values[i] := by
  have hdiv : w / 8 = n := by omega
  have hle : n * i ≤ (arrayBytes order values).length := by
    rw [length_arrayBytes, hdiv]
    exact Nat.mul_le_mul_left n hi.le
  have hdrop := drop_arrayBytes order values i
  rw [hdiv] at hdrop
  rw [List.drop_append_of_le_length hle, hdrop, List.drop_eq_getElem_cons hi, arrayBytes,
    List.flatMap_cons, List.append_assoc, valueOf_valueBytes order hw]

theorem arrayBytes_valueOf (hw : w = 8 * n) (bytes : List (BitVec 8)) {count : Nat}
    (h : n * count ≤ bytes.length) :
    arrayBytes order ((List.range count).map fun i => valueOf order w (bytes.drop (n * i))) =
      bytes.take (n * count) := by
  induction count with
  | zero => simp [arrayBytes]
  | succ count ih =>
      have hle : n * count ≤ bytes.length :=
        (Nat.mul_le_mul_left n (Nat.le_succ count)).trans h
      have hlast : n ≤ (bytes.drop (n * count)).length := by
        rw [List.length_drop]
        rw [Nat.mul_succ] at h
        omega
      rw [List.range_succ, List.map_append, arrayBytes, List.flatMap_append]
      rw [arrayBytes] at ih
      rw [ih hle, Nat.mul_succ, List.take_add]
      simp [valueBytes_valueOf order hw _ hlast]

end Fields

namespace ThreadRegisters

/-- `sizeof(struct thread_registers)` -/
def size : Nat := 70

def words (r : ThreadRegisters) : List (BitVec 32) :=
  r.stackPointer :: (r.data.toList ++ r.address.toList)

def bytes (r : ThreadRegisters) : List (BitVec 8) :=
  arrayBytes .big r.words ++
    (valueBytes .big r.statusRegister ++ valueBytes .big r.programCounter)

def ofBytes (bytes : List (BitVec 8)) : ThreadRegisters where
  stackPointer := valueOf .big 32 bytes
  data := Vector.ofFn fun i => valueOf .big 32 (bytes.drop (4 * (1 + i)))
  address := Vector.ofFn fun i => valueOf .big 32 (bytes.drop (4 * (9 + i)))
  statusRegister := valueOf .big 16 (bytes.drop 64)
  programCounter := valueOf .big 32 (bytes.drop 66)

@[simp] theorem length_words (r : ThreadRegisters) : r.words.length = 16 := by
  simp [words]

@[simp] theorem length_bytes (r : ThreadRegisters) : r.bytes.length = size := by
  simp [bytes, size]

theorem valueOf_bytes (r : ThreadRegisters) {i : Nat} (hi : i < r.words.length) :
    valueOf .big 32 (r.bytes.drop (4 * i)) = r.words[i] :=
  valueOf_arrayBytes .big (n := 4) rfl r.words hi _

theorem drop_bytes (r : ThreadRegisters) :
    r.bytes.drop 64 = valueBytes .big r.statusRegister ++ valueBytes .big r.programCounter :=
  List.drop_left' (by simp)

/-- What is in memory says what the registers are. -/
theorem ofBytes_bytes (r : ThreadRegisters) : ofBytes r.bytes = r := by
  have hlast : r.bytes.drop 66 = valueBytes .big r.programCounter ++ [] := by
    rw [show 66 = 64 + 2 from rfl, ← List.drop_drop, r.drop_bytes, List.append_nil]
    exact List.drop_left' (by simp)
  have hstack : (ofBytes r.bytes).stackPointer = r.stackPointer :=
    r.valueOf_bytes (i := 0) (by simp)
  have hdata : (ofBytes r.bytes).data = r.data := by
    apply Vector.ext
    intro i hi
    have hword := r.valueOf_bytes (i := 1 + i) (by simp; omega)
    simpa [ofBytes, words, Nat.add_comm 1 i, List.getElem_append, hi] using hword
  have haddress : (ofBytes r.bytes).address = r.address := by
    apply Vector.ext
    intro i hi
    have hword := r.valueOf_bytes (i := 9 + i) (by simp; omega)
    simpa [ofBytes, words, Nat.add_comm 9 i, List.getElem_append] using hword
  have hstatus : (ofBytes r.bytes).statusRegister = r.statusRegister := by
    simp only [ofBytes, r.drop_bytes, valueOf_valueBytes .big (n := 2) rfl]
  have hcounter : (ofBytes r.bytes).programCounter = r.programCounter := by
    simp only [ofBytes, hlast, valueOf_valueBytes .big (n := 4) rfl]
  calc ofBytes r.bytes = ⟨(ofBytes r.bytes).stackPointer, (ofBytes r.bytes).data,
        (ofBytes r.bytes).address, (ofBytes r.bytes).statusRegister,
        (ofBytes r.bytes).programCounter⟩ := rfl
    _ = r := by rw [hstack, hdata, haddress, hstatus, hcounter]

theorem words_ofBytes (bytes : List (BitVec 8)) :
    (ofBytes bytes).words =
      (List.range 16).map fun i => valueOf .big 32 (bytes.drop (4 * i)) := by
  apply List.ext_getElem (by simp)
  intro i hi _
  rw [List.getElem_map, List.getElem_range]
  by_cases hstack : i = 0
  · subst hstack
    rfl
  · obtain ⟨j, rfl⟩ : ∃ j, i = 1 + j := ⟨i - 1, by omega⟩
    rw [length_words] at hi
    by_cases hdata : j < 8
    · simp [words, ofBytes, Nat.add_comm 1 j, hdata]
    · have hsum : 9 + (j - 8) = j + 1 := by omega
      simp [words, ofBytes, Nat.add_comm 1 j, List.getElem_append, hdata, hsum]

/-- Any bytes of the right number are registers. -/
theorem bytes_ofBytes {bytes : List (BitVec 8)} (h : bytes.length = size) :
    (ofBytes bytes).bytes = bytes := by
  have hsize : bytes.length = 70 := h
  have hwords := arrayBytes_valueOf .big (w := 32) (n := 4) rfl bytes
    (show 4 * 16 ≤ bytes.length by omega)
  have hstatus := valueBytes_valueOf .big (w := 16) (n := 2) rfl (bytes.drop 64)
    (by simp; omega)
  have hcounter := valueBytes_valueOf .big (w := 32) (n := 4) rfl (bytes.drop 66)
    (by simp; omega)
  have hend : (bytes.drop 66).take 4 = bytes.drop 66 := List.take_of_length_le (by simp; omega)
  rw [ThreadRegisters.bytes, words_ofBytes, hwords]
  simp only [ofBytes, hstatus, hcounter, hend]
  rw [show 66 = 64 + 2 from rfl, ← List.drop_drop, List.take_append_drop]
  exact List.take_append_drop 64 bytes

end ThreadRegisters

end Cenix
