import Cenix.Jax.Archive

namespace Cenix.Jax

/-! Archives whose files may have descriptions, which the jax tool never writes. -/

structure DescribedRecord extends Record where
  description : List Byte
  descriptionBound : description.length < 2 ^ 16

theorem DescribedRecord.eq_iff (r r' : DescribedRecord) :
    r.toRecord = r'.toRecord ∧ r.description = r'.description ↔ r = r' := by
  cases r
  cases r'
  simp

instance : DecidableEq DescribedRecord := fun r r' =>
  decidable_of_iff _ (DescribedRecord.eq_iff r r')

/-- The file that starts at `start`, whatever there is. -/
def fileAt (m : Memory) (start : Nat) : JaxFile :=
  let nameLength := u16ToNe m (start + 1)
  let description := start + (nameLength.toNat + 3)
  let fields := description + ((u16ToNe m description).toNat + 2)
  { type := m start
    nameLength := nameLength
    name := start + 3
    descriptionLength := u16ToNe m description
    description := description + 2
    timestamp := i64ToNe m fields
    mode := u16ToNe m (fields + 8)
    owner := u16ToNe m (fields + 10)
    group := u16ToNe m (fields + 12)
    size := i64ToNe m (fields + 14)
    data := fields + 22 }

variable {m : Memory} {start stop : Nat}

/-- The fields of a file are read if a byte follows them. -/
theorem jaxNextFile_of_lt (file : JaxFile) (h : (fileAt m start).data < stop) :
    jaxNextFile m ⟨start, stop⟩ file =
      let next := offsetPointer ((fileAt m start).data - 22) ((fileAt m start).size + 22)
      (decide (next ≤ stop), ⟨next, stop⟩, fileAt m start) := by
  simp only [fileAt] at h
  have hname : ¬ (start ≥ stop ∨ start + 3 ≥ stop) := by omega
  have hdescription : ¬ (start + ((u16ToNe m (start + 1)).toNat + 3) ≥ stop ∨
      start + ((u16ToNe m (start + 1)).toNat + 3) + 2 ≥ stop) := by omega
  generalize hfields : start + ((u16ToNe m (start + 1)).toNat + 3) +
    ((u16ToNe m (start + ((u16ToNe m (start + 1)).toNat + 3))).toNat + 2) = fields at h
  have hdata : ¬ (fields ≥ stop ∨ fields + 22 ≥ stop) := by omega
  simp only [jaxNextFile, hname, hdescription, if_false, hfields, hdata, fileAt,
    Nat.add_sub_cancel]

theorem jaxNextFile_of_le (file : JaxFile) (h : stop ≤ (fileAt m start).data) :
    (jaxNextFile m ⟨start, stop⟩ file).1 = false := by
  simp only [fileAt] at h
  generalize hfields : start + ((u16ToNe m (start + 1)).toNat + 3) +
    ((u16ToNe m (start + ((u16ToNe m (start + 1)).toNat + 3))).toNat + 2) = fields at h
  have hdata : fields ≥ stop ∨ fields + 22 ≥ stop := by omega
  simp only [jaxNextFile, hfields, hdata, if_true]
  split
  · rfl
  · split
    · rfl
    · rfl

namespace DescribedRecord

variable (r : DescribedRecord)

def bytes : List Byte :=
  [r.type] ++ u16ToLe (BitVec.ofNat 16 r.name.length) ++ r.name ++
    u16ToLe (BitVec.ofNat 16 r.description.length) ++ r.description ++ r.otherFields ++ r.data

theorem length_bytes :
    r.bytes.length = 27 + r.name.length + r.description.length + r.data.length := by
  simp [bytes, Record.otherFields]
  omega

/-- The file that a record at `start` is read as. -/
def file (start : Nat) : JaxFile where
  type := r.type
  nameLength := BitVec.ofNat 16 r.name.length
  name := start + 3
  descriptionLength := BitVec.ofNat 16 r.description.length
  description := start + (r.name.length + 3) + 2
  timestamp := r.timestamp
  mode := r.mode
  owner := r.owner
  group := r.group
  size := BitVec.ofNat 64 r.data.length
  data := start + (r.name.length + 3) + (r.description.length + 2) + 22

@[simp] theorem toNat_nameLength (start : Nat) :
    (r.file start).nameLength.toNat = r.name.length :=
  Nat.mod_eq_of_lt r.nameBound

/-- A record in memory is read back. -/
theorem fileAt_eq {m : Memory} {start : Nat} (h : m.Stored start r.bytes) :
    fileAt m start = r.file start ∧ m.Stored (start + 3) r.name ∧
      m (start + 3 + r.name.length) = BitVec.ofNat 8 r.description.length := by
  simp only [bytes, Record.otherFields, Memory.stored_append, Memory.stored_cons,
    Memory.stored_nil, and_true, List.length_append, List.length_cons, List.length_nil,
    length_u16ToLe, length_i64ToLe] at h
  obtain ⟨⟨⟨⟨⟨⟨htype, hnameLength⟩, hname⟩, hdescription⟩, _⟩,
    ⟨⟨⟨⟨htimestamp, hmode⟩, howner⟩, hgroup⟩, hsize⟩⟩, _⟩ := h
  have hpast : start + (0 + 1 + 2 + r.name.length) = start + (r.name.length + 3) := by omega
  have hfields : start + (0 + 1 + 2 + r.name.length + 2 + r.description.length) =
      start + (r.name.length + 3) + (r.description.length + 2) := by omega
  rw [hpast] at hdescription
  rw [hfields] at htimestamp hmode howner hgroup hsize
  have hlength : (BitVec.ofNat 16 r.name.length).toNat = r.name.length :=
    Nat.mod_eq_of_lt r.nameBound
  have hlow : (BitVec.ofNat 16 r.description.length).setWidth 8 =
      BitVec.ofNat 8 r.description.length := by
    apply BitVec.eq_of_toNat_eq
    simp only [BitVec.toNat_setWidth, BitVec.toNat_ofNat]
    omega
  refine ⟨?_, hname, ?_⟩
  · simp only [fileAt, file, htype, u16ToNe_of_stored hnameLength, hlength,
      u16ToNe_of_stored hdescription, BitVec.toNat_ofNat, Nat.mod_eq_of_lt r.descriptionBound,
      i64ToNe_of_stored htimestamp, u16ToNe_of_stored hmode, u16ToNe_of_stored howner,
      u16ToNe_of_stored hgroup, i64ToNe_of_stored hsize]
  · have hbyte : start + 3 + r.name.length = start + (r.name.length + 3) := by omega
    simp only [u16ToLe, Memory.stored_cons] at hdescription
    rw [hbyte, hdescription.1, hlow]

/-- A record is found unless nothing follows its fields. -/
theorem next {m : Memory} {start stop : Nat} {old : JaxFile} (h : m.Stored start r.bytes)
    (hstop : start + r.bytes.length ≤ stop) (hmemory : stop < 2 ^ ptrBits)
    (hmore : start + r.name.length + r.description.length + 27 < stop) :
    jaxNextFile m ⟨start, stop⟩ old =
      (true, ⟨start + r.bytes.length, stop⟩, r.file start) := by
  have hfile := (r.fileAt_eq h).1
  rw [jaxNextFile_of_lt old, hfile]
  · have hsize : (BitVec.ofNat 64 r.data.length + 22).toNat = r.data.length + 22 := by
      have hbound := r.dataBound
      have hfields : (22 : BitVec 64).toNat = 22 := rfl
      rw [BitVec.toNat_add, BitVec.toNat_ofNat, hfields,
        Nat.mod_eq_of_lt (show r.data.length < 2 ^ 64 by omega)]
      exact Nat.mod_eq_of_lt (by omega)
    have hend : offsetPointer ((r.file start).data - 22) ((r.file start).size + 22) =
        start + r.bytes.length := by
      rw [r.length_bytes] at hstop ⊢
      simp only [offsetPointer, file, hsize]
      rw [Nat.mod_eq_of_lt (by omega)]
      omega
    simp only [hend, hstop, decide_true]
  · rw [hfile]
    simp only [file]
    omega

theorem next_none {m : Memory} {start stop : Nat} (old : JaxFile)
    (h : m.Stored start r.bytes)
    (hstop : stop ≤ start + r.name.length + r.description.length + 27) :
    (jaxNextFile m ⟨start, stop⟩ old).1 = false := by
  apply jaxNextFile_of_le
  rw [(r.fileAt_eq h).1]
  simp only [file]
  omega

end DescribedRecord

end Cenix.Jax
