import Cenix.Jax.Iterator

namespace Cenix.Jax

/-! Archives in the format of the jax tool and what the parser finds in them. -/

structure Record where
  type : Byte
  name : List Byte
  timestamp : BitVec 64
  mode : BitVec 16
  owner : BitVec 16
  group : BitVec 16
  data : List Byte
  nameBound : name.length < 2 ^ 16
  dataBound : data.length < 2 ^ 63
  deriving DecidableEq

namespace Record

variable (r : Record)

/-- `other_fields` -/
def otherFields : List Byte :=
  i64ToLe r.timestamp ++ u16ToLe r.mode ++ u16ToLe r.owner ++ u16ToLe r.group ++
    i64ToLe (BitVec.ofNat 64 r.data.length)

/-- What `nftw_visit` writes for a file. -/
def bytes : List Byte :=
  [r.type] ++ u16ToLe (BitVec.ofNat 16 r.name.length) ++ r.name ++ u16ToLe 0 ++
    r.otherFields ++ r.data

theorem length_bytes : r.bytes.length = 27 + r.name.length + r.data.length := by
  simp [bytes, otherFields]
  omega

end Record

def archive (records : List Record) : List Byte :=
  magic ++ records.flatMap Record.bytes

theorem length_archive (records : List Record) :
    (archive records).length = 4 + (records.flatMap Record.bytes).length :=
  List.length_append

/-- The file has the contents of the record. -/
structure Shows (m : Memory) (file : JaxFile) (r : Record) : Prop where
  type : file.type = r.type
  name : m.bytesAt file.name file.nameLength.toNat = r.name
  descriptionLength : file.descriptionLength = 0
  timestamp : file.timestamp = r.timestamp
  mode : file.mode = r.mode
  owner : file.owner = r.owner
  group : file.group = r.group
  size : file.size.toInt = r.data.length
  data : m.bytesAt file.data r.data.length = r.data

/-- The file that a record at `start` is read as. -/
def Record.file (r : Record) (start : Nat) : JaxFile where
  type := r.type
  nameLength := BitVec.ofNat 16 r.name.length
  name := start + 3
  descriptionLength := 0
  description := start + (r.name.length + 3) + 2
  timestamp := r.timestamp
  mode := r.mode
  owner := r.owner
  group := r.group
  size := BitVec.ofNat 64 r.data.length
  data := start + (r.name.length + 3) + (0 + 2) + 22

/-- The parts of a record in memory. -/
structure RecordAt (m : Memory) (start : Nat) (r : Record) : Prop where
  type : m start = r.type
  nameLength : u16ToNe m (start + 1) = BitVec.ofNat 16 r.name.length
  name : m.Stored (start + 3) r.name
  descriptionLength : u16ToNe m (start + (r.name.length + 3)) = 0
  timestamp : i64ToNe m (start + (r.name.length + 3) + (0 + 2)) = r.timestamp
  mode : u16ToNe m (start + (r.name.length + 3) + (0 + 2) + 8) = r.mode
  owner : u16ToNe m (start + (r.name.length + 3) + (0 + 2) + 10) = r.owner
  group : u16ToNe m (start + (r.name.length + 3) + (0 + 2) + 12) = r.group
  size : i64ToNe m (start + (r.name.length + 3) + (0 + 2) + 14) =
    BitVec.ofNat 64 r.data.length
  data : m.Stored (start + (r.name.length + 3) + (0 + 2) + 22) r.data

theorem RecordAt.of_stored {m : Memory} {start : Nat} {r : Record}
    (h : m.Stored start r.bytes) : RecordAt m start r := by
  simp only [Record.bytes, Record.otherFields, Memory.stored_append, Memory.stored_cons,
    Memory.stored_nil, and_true, List.length_append, List.length_cons, List.length_nil,
    length_u16ToLe, length_i64ToLe] at h
  obtain ⟨⟨⟨⟨⟨htype, hnameLength⟩, hname⟩, hdescription⟩,
    ⟨⟨⟨⟨htimestamp, hmode⟩, howner⟩, hgroup⟩, hsize⟩⟩, hdata⟩ := h
  have hpast : start + (0 + 1 + 2 + r.name.length) = start + (r.name.length + 3) := by omega
  have hfields : start + (0 + 1 + 2 + r.name.length + 2) =
      start + (r.name.length + 3) + (0 + 2) := by omega
  rw [hpast] at hdescription
  rw [hfields] at htimestamp hmode howner hgroup hsize
  constructor
  · exact htype
  · exact u16ToNe_of_stored hnameLength
  · exact hname
  · exact u16ToNe_of_stored hdescription
  · exact i64ToNe_of_stored htimestamp
  · exact u16ToNe_of_stored hmode
  · exact u16ToNe_of_stored howner
  · exact u16ToNe_of_stored hgroup
  · exact i64ToNe_of_stored hsize
  · convert hdata using 1
    omega

theorem RecordAt.shows {m : Memory} {start : Nat} {r : Record} (h : RecordAt m start r) :
    Shows m (r.file start) r where
  type := rfl
  name := by
    have hlength : (BitVec.ofNat 16 r.name.length).toNat = r.name.length :=
      Nat.mod_eq_of_lt r.nameBound
    have hname : m.bytesAt (start + 3) r.name.length = r.name := h.name
    exact (congrArg (m.bytesAt (start + 3)) hlength).trans hname
  descriptionLength := rfl
  timestamp := rfl
  mode := rfl
  owner := rfl
  group := rfl
  size := by
    have hbound := r.dataBound
    simp only [Record.file]
    rw [BitVec.toInt_eq_toNat_of_lt] <;> rw [BitVec.toNat_ofNat, Nat.mod_eq_of_lt] <;> omega
  data := h.data

/-- A record is found unless nothing follows its fields. -/
theorem RecordAt.next {m : Memory} {start stop : Nat} {r : Record} {file : JaxFile}
    (h : RecordAt m start r) (hstop : start + r.bytes.length ≤ stop)
    (hmemory : stop < 2 ^ ptrBits) (hmore : start + r.name.length + 27 < stop) :
    jaxNextFile m ⟨start, stop⟩ file =
      (true, ⟨start + r.bytes.length, stop⟩, r.file start) := by
  rw [r.length_bytes] at hstop
  have hlength : (BitVec.ofNat 16 r.name.length).toNat = r.name.length :=
    Nat.mod_eq_of_lt r.nameBound
  have hzero : (0 : BitVec 16).toNat = 0 := rfl
  have hsize : (BitVec.ofNat 64 r.data.length + 22).toNat = r.data.length + 22 := by
    have hbound := r.dataBound
    have hfields : (22 : BitVec 64).toNat = 22 := rfl
    rw [BitVec.toNat_add, BitVec.toNat_ofNat, hfields,
      Nat.mod_eq_of_lt (show r.data.length < 2 ^ 64 by omega)]
    exact Nat.mod_eq_of_lt (by omega)
  have hname : ¬ (start ≥ stop ∨ start + 3 ≥ stop) := by omega
  have hdescription : ¬ (start + (r.name.length + 3) ≥ stop ∨
      start + (r.name.length + 3) + 2 ≥ stop) := by omega
  have hfields : ¬ (start + (r.name.length + 3) + (0 + 2) ≥ stop ∨
      start + (r.name.length + 3) + (0 + 2) + 22 ≥ stop) := by omega
  have hend : offsetPointer (start + (r.name.length + 3) + (0 + 2))
      (BitVec.ofNat 64 r.data.length + 22) = start + r.bytes.length := by
    rw [offsetPointer, hsize, r.length_bytes, Nat.mod_eq_of_lt (by omega)]
    omega
  have hle : start + r.bytes.length ≤ stop := by rw [r.length_bytes]; exact hstop
  simp only [jaxNextFile, hname, if_false, h.type, h.nameLength, hlength, hdescription,
    h.descriptionLength, hzero, hfields, h.timestamp, h.mode, h.owner, h.group, h.size, hend,
    hle, decide_true, Record.file]

/-- The look past the fields of a last record without data. -/
theorem RecordAt.next_none {m : Memory} {start : Nat} {r : Record}
    (h : RecordAt m start r) (file : JaxFile) :
    (jaxNextFile m ⟨start, start + r.name.length + 27⟩ file).1 = false := by
  have hlength : (BitVec.ofNat 16 r.name.length).toNat = r.name.length :=
    Nat.mod_eq_of_lt r.nameBound
  have hzero : (0 : BitVec 16).toNat = 0 := rfl
  have hname : ¬ (start ≥ start + r.name.length + 27 ∨
      start + 3 ≥ start + r.name.length + 27) := by omega
  have hdescription : ¬ (start + (r.name.length + 3) ≥ start + r.name.length + 27 ∨
      start + (r.name.length + 3) + 2 ≥ start + r.name.length + 27) := by omega
  have hfields : start + (r.name.length + 3) + (0 + 2) ≥ start + r.name.length + 27 ∨
      start + (r.name.length + 3) + (0 + 2) + 22 ≥ start + r.name.length + 27 := by omega
  simp only [jaxNextFile, hname, if_false, h.nameLength, hlength, hdescription,
    h.descriptionLength, hzero, hfields, if_true]

/-! Whole archives. -/

/-- The last record, if any, has data. -/
def EndsInData (records : List Record) : Prop :=
  ∀ r ∈ records.getLast?, r.data ≠ []

theorem EndsInData.tail {r : Record} {records : List Record}
    (h : EndsInData (r :: records)) : EndsInData records := by
  intro last hlast
  apply h
  cases records with
  | nil => simp at hlast
  | cons next records => rwa [List.getLast?_cons_cons]

/-- The records at the front are found one after the other if more bytes follow, or the
last of them has data. -/
theorem files_front {m : Memory} {start stop : Nat} {records : List Record}
    (file : JaxFile) (h : m.Stored start (records.flatMap Record.bytes))
    (hstop : start + (records.flatMap Record.bytes).length ≤ stop)
    (hmemory : stop < 2 ^ ptrBits)
    (hmore : start + (records.flatMap Record.bytes).length < stop ∨ EndsInData records) :
    ∃ front file', List.Forall₂ (Shows m) front records ∧
      ∀ fuel, files m (fuel + records.length) ⟨start, stop⟩ file =
        (files m fuel ⟨start + (records.flatMap Record.bytes).length, stop⟩ file').map
          (front ++ ·) := by
  induction records generalizing start file with
  | nil => exact ⟨[], file, .nil, by simp⟩
  | cons r records ih =>
      rw [List.flatMap_cons, Memory.stored_append] at h
      rw [List.flatMap_cons, List.length_append] at hstop hmore ⊢
      have hrecord := RecordAt.of_stored h.1
      have hlength := r.length_bytes
      have hfound : start + r.name.length + 27 < stop := by
        cases hmore with
        | inl hlt => omega
        | inr hends =>
            cases records with
            | nil =>
                have hdata : r.data ≠ [] := hends r (by simp)
                have hpos := List.length_pos_iff.mpr hdata
                omega
            | cons next records =>
                have hnext := next.length_bytes
                rw [List.flatMap_cons, List.length_append] at hstop
                omega
      have hnext : jaxNextFile m ⟨start, stop⟩ file =
          (true, ⟨start + r.bytes.length, stop⟩, r.file start) :=
        hrecord.next (by omega) hmemory hfound
      obtain ⟨front, file', hshows, hfront⟩ :=
        ih (r.file start) h.2 (by omega) (hmore.imp (by omega) EndsInData.tail)
      refine ⟨r.file start :: front, file', .cons hrecord.shows hshows, fun fuel => ?_⟩
      have hstep : files m (fuel + (r :: records).length) ⟨start, stop⟩ file =
          (files m (fuel + records.length) ⟨start + r.bytes.length, stop⟩
            (r.file start)).map (r.file start :: ·) := by
        rw [List.length_cons, ← Nat.add_assoc, files]
        simp [hnext]
      rw [hstep, hfront, Option.map_map, Nat.add_assoc]
      rfl

theorem openJax_archive {m : Memory} {start : Nat} {records : List Record}
    (h : m.Stored start (archive records)) :
    openJax m start (start + (archive records).length) =
      some ⟨start + 4, start + (archive records).length⟩ := by
  simp only [archive, magic, Memory.stored_append, Memory.stored_cons] at h
  obtain ⟨⟨h0, h1, h2, h3, _⟩, _⟩ := h
  have hlength := length_archive records
  have hlong : ¬ start + 4 > start + (archive records).length := by omega
  simp only [Nat.add_assoc] at h2 h3
  simp [openJax, h0, h1, h2, h3, hlong]

/-- The archive is accepted and exactly its records are found in it. -/
def RoundTrips (m : Memory) (start : Nat) (records : List Record) : Prop :=
  ∃ iter, openJax m start (start + (archive records).length) = some iter ∧
    ∀ fuel file, records.length < fuel →
      ∃ found, files m fuel iter file = some found ∧ List.Forall₂ (Shows m) found records

theorem files_of_endsInData {m : Memory} {start : Nat} {records : List Record}
    (file : JaxFile) (h : m.Stored start (records.flatMap Record.bytes))
    (hmemory : start + (records.flatMap Record.bytes).length < 2 ^ ptrBits)
    (hends : EndsInData records) {fuel : Nat} (hfuel : records.length < fuel) :
    ∃ found, files m fuel ⟨start, start + (records.flatMap Record.bytes).length⟩ file =
      some found ∧ List.Forall₂ (Shows m) found records := by
  obtain ⟨front, file', hshows, hfront⟩ :=
    files_front file h (Nat.le_refl _) hmemory (.inr hends)
  obtain ⟨fuel, rfl⟩ := Nat.exists_eq_add_of_lt hfuel
  refine ⟨front, ?_, hshows⟩
  have hcomm : records.length + fuel + 1 = fuel + 1 + records.length := by omega
  rw [hcomm, hfront, files]
  simp [jaxNextFile]

/-- A last record without data is dropped. -/
theorem files_of_no_data {m : Memory} {start : Nat} {records : List Record} {last : Record}
    (file : JaxFile) (h : m.Stored start ((records ++ [last]).flatMap Record.bytes))
    (hmemory : start + ((records ++ [last]).flatMap Record.bytes).length < 2 ^ ptrBits)
    (hdata : last.data = []) {fuel : Nat} (hfuel : records.length < fuel) :
    ∃ found, files m fuel
        ⟨start, start + ((records ++ [last]).flatMap Record.bytes).length⟩ file =
      some found ∧ List.Forall₂ (Shows m) found records := by
  have hlast := last.length_bytes
  simp only [List.flatMap_append, List.flatMap_singleton, Memory.stored_append,
    List.length_append] at h hmemory ⊢
  obtain ⟨front, file', hshows, hfront⟩ :=
    files_front file h.1 (Nat.add_le_add_left (Nat.le_add_right _ last.bytes.length) start)
      hmemory (.inl (by omega))
  obtain ⟨fuel, rfl⟩ := Nat.exists_eq_add_of_lt hfuel
  refine ⟨front, ?_, hshows⟩
  have hnone := (RecordAt.of_stored h.2).next_none file'
  have hstop : start + ((records.flatMap Record.bytes).length + last.bytes.length) =
      start + (records.flatMap Record.bytes).length + last.name.length + 27 := by
    rw [hdata, List.length_nil] at hlast
    omega
  have hcomm : records.length + fuel + 1 = fuel + 1 + records.length := by omega
  rw [← hstop] at hnone
  rw [hcomm, hfront, files]
  simp [hnone, -List.length_flatMap]

def emptyFile : Record where
  type := 0x72
  name := [0x61]
  timestamp := 0
  mode := 0
  owner := 0
  group := 0
  data := []
  nameBound := by decide
  dataBound := by decide

end Cenix.Jax
