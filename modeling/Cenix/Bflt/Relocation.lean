import Cenix.Bflt.Bounds

namespace Cenix.Bflt

open Fields FileProtocol WordMemory

/-! Where the offsets in a binary point to after it has been loaded. -/

section

variable (order : ByteOrder) (h : BfltHeader) (file : List (BitVec 8)) (entries : Nat)

/-- A memory that holds a file from address 0 on. -/
def fileMemory : Ram :=
  fun address => file.getD address.toNat 0

def headerOf : BfltHeader :=
  headerAt order (fileMemory file) 0

/-- The number of bytes behind the header, with those that are not in the file. -/
def imageSize : Nat :=
  h.bssEnd.toNat - headerSize.toNat

/-- The bytes behind the header, as the file describes them. -/
def image : Ram :=
  fun offset =>
    if offset.toNat + headerSize.toNat < h.dataEnd.toNat then
      file.getD (offset.toNat + headerSize.toNat) 0
    else 0

def relocationOffsets : List Word :=
  (List.range h.numRelocations.toNat).map fun i =>
    word order (fileMemory file) (h.relocationsStart + BitVec.ofNat ptrBits (4 * i))

/-- The offsets of the words that are changed: those that are relocated, unless they stay in
the file, and the entries of the global offset table. -/
def fixedOffsets : List Word :=
  (relocationOffsets order h file).filter (fun offset => h.inPlace ≤ offset) ++
    if h.gotpic then gotWords h.inPlace 0 entries else []

/-- A global offset table with that many entries, apart from the relocated words. -/
structure HasGot : Prop where
  bound : h.inPlace.toNat + 4 * entries + 4 ≤ imageSize h
  used : ∀ i < entries,
    word order (image h file) (gotWord h.inPlace i) ≠ BitVec.allOnes ptrBits
  terminator : word order (image h file) (gotWord h.inPlace entries) = BitVec.allOnes ptrBits
  apart : ∀ offset ∈ relocationOffsets order h file, h.inPlace ≤ offset →
    h.inPlace.toNat + 4 * entries + 4 ≤ offset.toNat

/-- The segments are in order and in the file, and so is the relocation table.  The relocated
words are in the image, aligned, and not the same. -/
structure Consistent : Prop where
  text : headerSize ≤ h.dataStart
  data : h.dataStart ≤ h.dataEnd
  bss : h.dataEnd ≤ h.bssEnd
  size : h.bssEnd.toNat - h.copyStart.toNat + h.stackSize.toNat < 2 ^ ptrBits
  length : file.length < 2 ^ ptrBits
  contents : h.dataEnd.toNat ≤ file.length
  table : h.relocationsStart.toNat + 4 * h.numRelocations.toNat ≤ file.length
  aligned : ∀ offset ∈ relocationOffsets order h file, 4 ∣ offset.toNat
  inRange : ∀ offset ∈ relocationOffsets order h file, offset.toNat + 4 ≤ imageSize h
  distinct : (relocationOffsets order h file).Nodup
  got : h.gotpic = true → HasGot order h file entries

/-- The word at the offset is in the part of the image that is in the allocation. -/
def InAllocation (offset : Word) : Prop :=
  h.inPlace.toNat ≤ offset.toNat ∧ offset.toNat + 4 ≤ imageSize h

/-- The words at the offsets do not overlap. -/
def ApartFrom (offset other : Word) : Prop :=
  offset.toNat + 4 ≤ other.toNat ∨ other.toNat + 4 ≤ offset.toNat

variable (header allocation : Word) (m : Ram)

/-- The file is in memory and an allocation of the right size is apart from it. -/
structure Loadable : Prop where
  stored : m.Holds header file
  apart : ∀ i < file.length,
    ¬ Within allocation (bfltAllocationSize h).toNat (header + BitVec.ofNat ptrBits i)
  nonnull : allocation ≠ 0
  bound : allocation.toNat + (bfltAllocationSize h).toNat ≤ 2 ^ ptrBits

end

section

variable {order : ByteOrder} {h : BfltHeader} {file : List (BitVec 8)} {entries : Nat}
  {header allocation : Word} {m : Ram}

theorem fileMemory_holds (hlength : file.length < 2 ^ ptrBits) :
    (fileMemory file).Holds 0 file := by
  apply List.ext_getElem (by simp)
  intro i hbytes hi
  have hmod : i % 2 ^ ptrBits = i := Nat.mod_eq_of_lt (by omega)
  simp [WordMemory.bytesAt, fileMemory, hmod, hi]

/-- Words of the same file in two memories. -/
theorem word_of_holds {m' : Ram} {header' : Word} (hm : m.Holds header file)
    (hm' : m'.Holds header' file) {x : Nat} (hx : x + 4 ≤ file.length) :
    word order m (header + BitVec.ofNat ptrBits x) =
      word order m' (header' + BitVec.ofNat ptrBits x) := by
  apply wordAt_congr
  intro i hi
  have hbytes : wordBytes = 4 := rfl
  rw [add_ofNat_add, add_ofNat_add, hm.byte (by omega), hm'.byte (by omega)]

theorem headerAt_eq (hm : m.Holds header file) (hlength : file.length < 2 ^ ptrBits)
    (hheader : headerSize.toNat ≤ file.length) :
    headerAt order m header = headerOf order file := by
  have hsize : headerSize.toNat = 64 := rfl
  have hfile := fileMemory_holds hlength
  have hword : ∀ x, x + 4 ≤ 64 → word order m (header + BitVec.ofNat ptrBits x) =
      word order (fileMemory file) (0 + BitVec.ofNat ptrBits x) := fun x hx =>
    word_of_holds hm hfile (by omega)
  have hmagic : m.bytesAt header 4 = (fileMemory file).bytesAt 0 4 := by
    apply bytesAt_congr
    intro i hi
    rw [hm.byte (by omega), hfile.byte (by omega)]
  rw [headerOf, headerAt, headerAt, hmagic]
  congr 1
  · exact hword 4 (by decide)
  · exact hword 8 (by decide)
  · exact hword 12 (by decide)
  · exact hword 16 (by decide)
  · exact hword 20 (by decide)
  · exact hword 24 (by decide)
  · exact hword 28 (by decide)
  · exact hword 32 (by decide)
  · exact hword 36 (by decide)

theorem headerSize_toNat : headerSize.toNat = 64 := rfl

theorem placeOf_of_lt {offset : Word} (h' : offset < h.inPlace) :
    placeOf h header allocation offset =
      header + BitVec.ofNat ptrBits (64 + offset.toNat) := by
  rw [placeOf, if_pos h', add_eq_offset]
  exact add_ofNat_add header 64 offset.toNat

/-- Bytes that are not left in the file are placed in the allocation, one after another. -/
theorem placeOf_of_not_lt {offset : Word} (h' : ¬ offset < h.inPlace) :
    placeOf h header allocation offset =
      allocation + BitVec.ofNat ptrBits (offset.toNat - h.inPlace.toNat) := by
  rw [placeOf, if_neg h', add_eq_offset, BitVec.toNat_sub_of_le (BitVec.not_lt.mp h')]

namespace Consistent

variable (hfile : Consistent order h file entries)

include hfile

theorem copyStart_bounds : 64 ≤ h.copyStart.toNat ∧ h.copyStart.toNat ≤ h.dataEnd.toNat := by
  have htext := BitVec.le_def.mp hfile.text
  have hdata := BitVec.le_def.mp hfile.data
  rw [headerSize_toNat] at htext
  cases hmode : h.gotpic with
  | true =>
      rw [copyStart_of_gotpic h hmode]
      exact ⟨htext, hdata⟩
  | false =>
      rw [copyStart_of_copied h hmode, headerSize_toNat]
      omega

theorem inPlace_toNat : h.inPlace.toNat = h.copyStart.toNat - 64 := by
  have hbounds := hfile.copyStart_bounds
  have hle : headerSize ≤ h.copyStart := BitVec.le_def.mpr hbounds.1
  rw [BfltHeader.inPlace, BitVec.toNat_sub_of_le hle, headerSize_toNat]

theorem allocationSize_toNat : (bfltAllocationSize h).toNat =
    h.bssEnd.toNat - h.copyStart.toNat + h.stackSize.toNat := by
  have hbounds := hfile.copyStart_bounds
  have hbss := BitVec.le_def.mp hfile.bss
  have hle : h.copyStart ≤ h.bssEnd := BitVec.le_def.mpr (by omega)
  rw [bfltAllocationSize_eq, BitVec.toNat_add, BitVec.toNat_sub_of_le hle,
    Nat.mod_eq_of_lt hfile.size]

/-- The sizes of the parts of the image in the allocation. -/
theorem sizes : h.copyStart.toNat ≤ h.dataEnd.toNat ∧ h.dataEnd.toNat ≤ h.bssEnd.toNat ∧
    (h.dataEnd - h.copyStart).toNat = h.dataEnd.toNat - h.copyStart.toNat ∧
    (h.bssEnd - h.dataEnd).toNat = h.bssEnd.toNat - h.dataEnd.toNat := by
  have hbounds := hfile.copyStart_bounds
  exact ⟨hbounds.2, BitVec.le_def.mp hfile.bss,
    BitVec.toNat_sub_of_le (BitVec.le_def.mpr hbounds.2), BitVec.toNat_sub_of_le hfile.bss⟩

/-- Nothing but the image is written when it is placed. -/
theorem placed_of_not_within {address : Word}
    (h' : ¬ Within allocation (h.bssEnd.toNat - h.copyStart.toNat) address) :
    placed h header allocation m address = m address := by
  obtain ⟨hcopy, hbss, hcopied, hzeroed⟩ := hfile.sizes
  have hlimit := h.bssEnd.isLt
  rw [placed, set_of_not_within, set_of_not_within]
  · rw [WordMemory.length_bytesAt]
    omega
  · rw [WordMemory.length_bytesAt]
    exact fun hin => h' (hin.mono (by omega))
  · rw [List.length_replicate]
    omega
  · rw [List.length_replicate, bssStart, add_eq_offset]
    exact fun hin => h' (hin.behind (by omega))

theorem imageSize_eq :
    imageSize h = h.inPlace.toNat + (h.bssEnd.toNat - h.copyStart.toNat) := by
  have hbounds := hfile.copyStart_bounds
  have hbss := BitVec.le_def.mp hfile.bss
  rw [imageSize, hfile.inPlace_toNat, headerSize_toNat]
  omega

theorem placed_copied (hload : m.Holds header file) {p : Nat}
    (hp : p < h.dataEnd.toNat - h.copyStart.toNat) :
    placed h header allocation m (allocation + BitVec.ofNat ptrBits p) =
      file.getD (h.copyStart.toNat + p) 0 := by
  obtain ⟨hcopy, hbss, hcopied, hzeroed⟩ := hfile.sizes
  have hcontents := hfile.contents
  have hlimit := h.bssEnd.isLt
  rw [placed, set_of_not_within, set_add]
  · simp only [WordMemory.bytesAt, List.getElem_map, List.getElem_range]
    rw [add_eq_offset header, add_ofNat_add, hload.byte (by omega),
      List.getD_eq_getElem?_getD, List.getElem?_eq_getElem (by omega), Option.getD_some]
  · rw [WordMemory.length_bytesAt]
    omega
  · rw [WordMemory.length_bytesAt]
    omega
  · rw [List.length_replicate]
    omega
  · rw [List.length_replicate, bssStart, add_eq_offset, within_offset (by omega) (by omega)]
    omega

theorem placed_zeroed {p : Nat} (hp : h.dataEnd.toNat - h.copyStart.toNat ≤ p)
    (hbound : p < h.bssEnd.toNat - h.copyStart.toNat) :
    placed h header allocation m (allocation + BitVec.ofNat ptrBits p) = 0 := by
  obtain ⟨hcopy, hbss, hcopied, hzeroed⟩ := hfile.sizes
  have hlimit := h.bssEnd.isLt
  have hbehind : allocation + BitVec.ofNat ptrBits p = bssStart h allocation +
      BitVec.ofNat ptrBits (p - (h.dataEnd - h.copyStart).toNat) := by
    rw [bssStart, add_eq_offset allocation (h.dataEnd - h.copyStart), add_ofNat_add, hcopied,
      Nat.add_sub_cancel' hp]
  rw [placed, hbehind, set_add]
  · exact List.getElem_replicate _
  · rw [List.length_replicate]
    omega
  · rw [List.length_replicate]
    omega

variable (hload : Loadable h file header allocation m)

include hload

/-- The file is not touched by what happens in the image. -/
theorem not_within_image {i : Nat} (hi : i < file.length) :
    ¬ Within allocation (h.bssEnd.toNat - h.copyStart.toNat)
      (header + BitVec.ofNat ptrBits i) := by
  have hsize := hfile.allocationSize_toNat
  exact fun hin => hload.apart i hi (hin.mono (by omega))

/-- Every byte of the image is placed at its place. -/
theorem placed_placeOf {offset : Word} (hoffset : offset.toNat < imageSize h) :
    placed h header allocation m (placeOf h header allocation offset) = image h file offset := by
  have hbounds := hfile.copyStart_bounds
  have hinPlace := hfile.inPlace_toNat
  have hcontents := hfile.contents
  rw [hfile.imageSize_eq] at hoffset
  rw [image, headerSize_toNat]
  cases hlt : decide (offset < h.inPlace) with
  | true =>
      have hbefore := BitVec.lt_def.mp (of_decide_eq_true hlt)
      rw [if_pos (by omega), placeOf_of_lt (of_decide_eq_true hlt),
        hfile.placed_of_not_within (hfile.not_within_image hload (by omega)),
        hload.stored.byte (by omega), List.getD_eq_getElem?_getD,
        List.getElem?_eq_getElem (by omega), Option.getD_some]
      congr 1
      omega
  | false =>
      have hnot := of_decide_eq_false hlt
      have hbehind := BitVec.not_lt.mp hnot
      rw [BitVec.le_def] at hbehind
      rw [placeOf_of_not_lt hnot]
      split
      · rw [hfile.placed_copied hload.stored (by omega)]
        congr 1
        omega
      · exact hfile.placed_zeroed (by omega) (by omega)

end Consistent

theorem InAllocation.not_lt {offset : Word} (h' : InAllocation h offset) :
    ¬ offset < h.inPlace :=
  BitVec.not_lt.mpr (BitVec.le_def.mpr h'.1)

theorem imageSize_lt : imageSize h < 2 ^ ptrBits :=
  Nat.lt_of_le_of_lt (Nat.sub_le _ _) h.bssEnd.isLt

theorem InAllocation.toNat_add {offset : Word} (h' : InAllocation h offset) {i : Nat}
    (hi : i < 4) : (offset + BitVec.ofNat ptrBits i).toNat = offset.toNat + i := by
  have hlimit := @imageSize_lt h
  obtain ⟨-, hbound⟩ := h'
  have hmod : i % 2 ^ ptrBits = i := Nat.mod_eq_of_lt (by omega)
  rw [BitVec.toNat_add, BitVec.toNat_ofNat, hmod, Nat.mod_eq_of_lt (by omega)]

/-- The bytes of a word in the allocation are placed one after another. -/
theorem InAllocation.placeOf_add {offset : Word} (h' : InAllocation h offset) {i : Nat}
    (hi : i < 4) :
    placeOf h header allocation offset + BitVec.ofNat ptrBits i =
      placeOf h header allocation (offset + BitVec.ofNat ptrBits i) := by
  have hsum := h'.toNat_add hi
  have hle := h'.1
  have hnot : ¬ offset + BitVec.ofNat ptrBits i < h.inPlace := by
    rw [BitVec.lt_def, hsum]
    omega
  rw [placeOf_of_not_lt h'.not_lt, placeOf_of_not_lt hnot, add_ofNat_add, hsum]
  congr 2
  omega

theorem InAllocation.apart {offset other : Word} (ho : InAllocation h offset)
    (ho' : InAllocation h other) (hapart : ApartFrom offset other) :
    Apart wordBytes (placeOf h header allocation offset)
      (placeOf h header allocation other) := by
  have hlimit := @imageSize_lt h
  have hbytes : wordBytes = 4 := rfl
  obtain ⟨hle, hbound⟩ := ho
  obtain ⟨hle', hbound'⟩ := ho'
  rw [placeOf_of_not_lt (InAllocation.not_lt ⟨hle, hbound⟩),
    placeOf_of_not_lt (InAllocation.not_lt ⟨hle', hbound'⟩)]
  rw [ApartFrom] at hapart
  exact apart_offset (by omega) (by omega) (by omega)

namespace Consistent

variable (hfile : Consistent order h file entries)

include hfile

/-- Words in the allocation are in the image. -/
theorem within_image {offset address : Word} (h' : InAllocation h offset)
    (hin : Within (placeOf h header allocation offset) wordBytes address) :
    Within allocation (h.bssEnd.toNat - h.copyStart.toNat) address := by
  have hsize := hfile.imageSize_eq
  have hbytes : wordBytes = 4 := rfl
  obtain ⟨hle, hbound⟩ := h'
  rw [placeOf_of_not_lt (InAllocation.not_lt ⟨hle, hbound⟩)] at hin
  exact hin.behind (by omega)

/-- Words that are fixed up in the allocation change nothing outside the image. -/
theorem fixups_of_not_within_image {offsets : List Word} {m' : Ram} {address : Word}
    (hoffsets : ∀ offset ∈ offsets, InAllocation h offset)
    (h' : ¬ Within allocation (h.bssEnd.toNat - h.copyStart.toNat) address) :
    fixups order wordBytes (placeOf h header allocation) m'
      (offsets.map (placeOf h header allocation)) address = m' address := by
  apply fixups_of_not_within ptrBits_eq
  rw [List.forall_mem_map]
  exact fun offset ho hin => h' (hfile.within_image (hoffsets offset ho) hin)

/-- The entries of the relocation table in a memory where the file still is. -/
theorem relocationAt_eq {m' : Ram} (hm : m'.Holds header file) {i : Nat}
    (hi : i < (relocationOffsets order h file).length) :
    relocationAt order h header m' i = (relocationOffsets order h file)[i] := by
  have hcount : i < h.numRelocations.toNat := by simpa [relocationOffsets] using hi
  have htable := hfile.table
  have hbound : h.relocationsStart.toNat + 4 * i + 4 ≤ file.length := by omega
  have hword := @word_of_holds order file header m' _ 0 hm (fileMemory_holds hfile.length)
    _ hbound
  rw [← add_ofNat_add, ← add_ofNat_add, ← add_eq_offset, ← add_eq_offset] at hword
  simpa [relocationAt, relocationOffsets] using hword

variable (hload : Loadable h file header allocation m)

include hload

theorem relocatable_eq_placeOf {offset : Word} (h' : InAllocation h offset) :
    relocatable h allocation offset = some (placeOf h header allocation offset) := by
  have hsize := hfile.allocationSize_toNat
  have himage := hfile.imageSize_eq
  have hbound := hload.bound
  have hnonnull := hload.nonnull
  obtain ⟨hle, hin⟩ := h'
  have hnot := InAllocation.not_lt ⟨hle, hin⟩
  rw [relocatable_eq_some]
  refine ⟨hnot, by rw [placeOf, if_neg hnot], ?_⟩
  have hpositive : allocation.toNat ≠ 0 := fun hzero => hnonnull (BitVec.eq_of_toNat_eq hzero)
  have hoffset := BitVec.toNat_sub_of_le (BitVec.not_lt.mp hnot)
  rw [placeOf, if_neg hnot]
  intro hzero
  have hvalue := congrArg BitVec.toNat hzero
  rw [BitVec.toNat_add, hoffset, Nat.mod_eq_of_lt (by omega)] at hvalue
  have hnil : (0 : Word).toNat = 0 := rfl
  omega

/-- A word of the placed image is one of the image that the file describes. -/
theorem word_placed {offset : Word} (h' : InAllocation h offset) :
    word order (placed h header allocation m) (placeOf h header allocation offset) =
      word order (image h file) offset := by
  apply wordAt_congr
  intro i hi
  have hbytes : wordBytes = 4 := rfl
  have hsum := h'.toNat_add (by omega : i < 4)
  have hbound := h'.2
  rw [h'.placeOf_add (by omega), hfile.placed_placeOf hload]
  omega

/-- The file stays in memory when words of the image are fixed up. -/
theorem holds_fixups {offsets : List Word}
    (hoffsets : ∀ offset ∈ offsets, InAllocation h offset) :
    (fixups order wordBytes (placeOf h header allocation) (placed h header allocation m)
      (offsets.map (placeOf h header allocation))).Holds header file := by
  apply hload.stored.congr
  intro i hi
  have hapart := hfile.not_within_image hload hi
  rw [hfile.fixups_of_not_within_image hoffsets hapart, hfile.placed_of_not_within hapart]

omit hload in
theorem inAllocation_of_mem {offset : Word} (h' : offset ∈ (relocationOffsets order h file).filter
    fun offset => h.inPlace ≤ offset) : InAllocation h offset := by
  obtain ⟨hmem, hle⟩ := List.mem_filter.mp h'
  exact ⟨BitVec.le_def.mp (of_decide_eq_true hle), hfile.inRange offset hmem⟩

/-- The first relocations fix up the words at the first offsets, unless they are left in the
file. -/
theorem relocated_eq {i : Nat} (hi : i ≤ (relocationOffsets order h file).length) :
    relocated order h header allocation m i =
      fixups order wordBytes (placeOf h header allocation) (placed h header allocation m)
        ((((relocationOffsets order h file).take i).filter
          fun offset => h.inPlace ≤ offset).map (placeOf h header allocation)) := by
  induction i with
  | zero => rfl
  | succ i ih =>
      have hbefore : ∀ offset ∈ ((relocationOffsets order h file).take i).filter
          (fun offset => h.inPlace ≤ offset), InAllocation h offset := by
        intro offset hmem
        have hsub := ((relocationOffsets order h file).take_sublist i).filter
          fun offset => h.inPlace ≤ offset
        exact hfile.inAllocation_of_mem (hsub.subset hmem)
      rw [relocated, relocatedWord, ih (by omega),
        hfile.relocationAt_eq (hfile.holds_fixups hload hbefore) hi,
        List.take_succ_eq_append_getElem hi, List.filter_append, List.map_append, fixups_append]
      generalize hoffset : (relocationOffsets order h file)[i] = offset
      have hmem : offset ∈ relocationOffsets order h file := hoffset ▸ List.getElem_mem hi
      cases hlt : decide (offset < h.inPlace) with
      | true =>
          have hskip := of_decide_eq_true hlt
          have hnot : ¬ h.inPlace ≤ offset := by rwa [← BitVec.not_lt, not_not]
          simp [relocatable, hskip, hnot]
      | false =>
          have hle := BitVec.not_lt.mp (of_decide_eq_false hlt)
          have hin : InAllocation h offset := ⟨BitVec.le_def.mp hle, hfile.inRange offset hmem⟩
          rw [hfile.relocatable_eq_placeOf hload hin]
          simp [hle, fixedUp]

end Consistent

namespace HasGot

variable (hgot : HasGot order h file entries)

include hgot

theorem gotWord_toNat {i : Nat} (hi : i ≤ entries) :
    (gotWord h.inPlace i).toNat = h.inPlace.toNat + 4 * i := by
  have hbound := hgot.bound
  have hlimit := @imageSize_lt h
  have hmod : 4 * i % 2 ^ ptrBits = 4 * i := Nat.mod_eq_of_lt (by omega)
  rw [gotWord, BitVec.toNat_add, BitVec.toNat_ofNat, hmod, Nat.mod_eq_of_lt (by omega)]

theorem inAllocation {i : Nat} (hi : i ≤ entries) : InAllocation h (gotWord h.inPlace i) := by
  have hbound := hgot.bound
  rw [InAllocation, hgot.gotWord_toNat hi]
  omega

/-- The global offset table is placed where the loader looks for it. -/
theorem placeOf_gotWord {i : Nat} (hi : i ≤ entries) :
    placeOf h header allocation (gotWord h.inPlace i) = gotWord allocation i := by
  rw [placeOf_of_not_lt (hgot.inAllocation hi).not_lt, hgot.gotWord_toNat hi,
    Nat.add_sub_cancel_left, gotWord]

theorem map_gotWords :
    (gotWords h.inPlace 0 entries).map (placeOf h header allocation) =
      gotWords allocation 0 entries := by
  rw [gotWords, gotWords, List.map_map]
  apply List.map_congr_left
  intro i hi
  rw [List.mem_range'_1] at hi
  exact hgot.placeOf_gotWord (by omega)

end HasGot

namespace Consistent

variable (hfile : Consistent order h file entries)

include hfile

theorem fixedOffsets_inAllocation :
    ∀ offset ∈ fixedOffsets order h file entries, InAllocation h offset := by
  rw [fixedOffsets, List.forall_mem_append]
  refine ⟨fun offset => hfile.inAllocation_of_mem, ?_⟩
  split
  · rename_i hmode
    rw [gotWords, List.forall_mem_map]
    intro i hi
    rw [List.mem_range'_1] at hi
    exact (hfile.got hmode).inAllocation (by omega)
  · exact List.forall_mem_nil _

theorem fixedOffsets_pairwise : (fixedOffsets order h file entries).Pairwise ApartFrom := by
  have hoffsets : ((relocationOffsets order h file).filter
      fun offset => h.inPlace ≤ offset).Pairwise ApartFrom := by
    apply List.Pairwise.filter
    apply List.Pairwise.imp_of_mem _ hfile.distinct
    intro offset other ho ho' hne
    obtain ⟨a, ha⟩ := hfile.aligned offset ho
    obtain ⟨b, hb⟩ := hfile.aligned other ho'
    have hvalues : offset.toNat ≠ other.toNat := fun heq => hne (BitVec.eq_of_toNat_eq heq)
    rw [ApartFrom]
    omega
  rw [fixedOffsets]
  cases hmode : h.gotpic with
  | false => simpa using hoffsets
  | true =>
      have hgot := hfile.got hmode
      rw [if_pos rfl, List.pairwise_append]
      refine ⟨hoffsets, ?_, ?_⟩
      · rw [gotWords, List.pairwise_map]
        have hdistinct : (List.range' 0 entries).Nodup := List.nodup_range'
        apply List.Pairwise.imp_of_mem _ hdistinct
        intro i j hi hj hne
        rw [List.mem_range'_1] at hi hj
        rw [ApartFrom, hgot.gotWord_toNat (by omega), hgot.gotWord_toNat (by omega)]
        omega
      · intro offset hoffset entry hentry
        obtain ⟨i, hi, rfl⟩ := List.mem_map.mp hentry
        obtain ⟨hmem, hle⟩ := List.mem_filter.mp hoffset
        have hbehind := hgot.apart offset hmem (of_decide_eq_true hle)
        rw [List.mem_range'_1] at hi
        rw [ApartFrom, hgot.gotWord_toNat (by omega)]
        omega

variable (hload : Loadable h file header allocation m)

include hload

theorem relocated_numRelocations :
    relocated order h header allocation m h.numRelocations.toNat =
      fixups order wordBytes (placeOf h header allocation) (placed h header allocation m)
        (((relocationOffsets order h file).filter
          fun offset => h.inPlace ≤ offset).map (placeOf h header allocation)) := by
  have hcount : (relocationOffsets order h file).length = h.numRelocations.toNat := by
    simp [relocationOffsets]
  rw [← hcount, hfile.relocated_eq hload (Nat.le_refl _), List.take_length]

/-- The relocations leave the global offset table as it is in the file. -/
theorem word_gotWord (hgot : HasGot order h file entries) {i : Nat} (hi : i ≤ entries) :
    word order (relocated order h header allocation m h.numRelocations.toNat)
        (gotWord allocation i) =
      word order (image h file) (gotWord h.inPlace i) := by
  rw [hfile.relocated_numRelocations hload, ← hgot.placeOf_gotWord hi,
    ← hfile.word_placed hload (hgot.inAllocation hi)]
  apply wordAt_fixups_of_apart ptrBits_eq
  rw [List.forall_mem_map]
  intro offset hoffset
  obtain ⟨hmem, hle⟩ := List.mem_filter.mp hoffset
  have hbehind := hgot.apart offset hmem (of_decide_eq_true hle)
  apply (hfile.inAllocation_of_mem hoffset).apart (hgot.inAllocation hi)
  rw [ApartFrom, hgot.gotWord_toNat hi]
  omega

/-- All changed words are fixed up, in the relocations and in the global offset table. -/
theorem load (hheader : headerAt order m header = h) :
    ∃ loaded, bfltLoad order (entries + 1) header allocation m = some loaded ∧
      loaded.loading.memory =
        fixups order wordBytes (placeOf h header allocation) (placed h header allocation m)
          ((fixedOffsets order h file entries).map (placeOf h header allocation)) := by
  rw [bfltLoad_eq, hheader, fixedOffsets, List.map_append, fixups_append,
    ← hfile.relocated_numRelocations hload]
  cases hmode : h.gotpic with
  | false => exact ⟨_, rfl, rfl⟩
  | true =>
      have hgot := hfile.got hmode
      have hbound := hgot.bound
      have hlimit := @imageSize_lt h
      have hloop := @fixUpGot_eq order h header allocation entries 0
        (beforeGot order h header allocation m) (by omega)
        (fun i _ hi => by
          rw [beforeGot, hfile.word_gotWord hload hgot (by omega)]
          exact hgot.used i (by omega))
        (by
          rw [beforeGot, Nat.zero_add, hfile.word_gotWord hload hgot (Nat.le_refl _)]
          exact hgot.terminator)
      rw [if_pos rfl, hloop, if_pos rfl, hgot.map_gotWords]
      exact ⟨_, rfl, rfl⟩

end Consistent

end

section

variable (order : ByteOrder) (h : BfltHeader) (file : List (BitVec 8)) (entries : Nat)

/-- The image is in memory at its place, with the places of the offsets in the changed words,
and nothing else has changed. -/
structure RelocatesTo (header allocation : Word) (m memory : Ram) : Prop where
  placed : ∀ offset, offset.toNat < imageSize h →
    (clearBss h (segments h header allocation)
      (copySegments h (segments h header allocation) header ⟨m, []⟩)).memory
        (placeOf h header allocation offset) = image h file offset
  words : ∀ offset ∈ fixedOffsets order h file entries,
    word order memory (placeOf h header allocation offset) =
      placeOf h header allocation (word order (image h file) offset)
  bytes : ∀ offset, offset.toNat < imageSize h →
    (∀ changed ∈ fixedOffsets order h file entries, ¬ Within changed wordBytes offset) →
    memory (placeOf h header allocation offset) = image h file offset
  outside : ∀ address,
    ¬ Within allocation (h.bssEnd.toNat - h.copyStart.toNat) address →
    memory address = m address

/-- How far the segment of an image byte is shifted from one load to another. -/
def segmentShift (header allocation header' allocation' offset : Word) : Word :=
  if offset < h.dataStart - headerSize then
    (segments h header' allocation').textStart - (segments h header allocation).textStart
  else (segments h header' allocation').dataStart - (segments h header allocation).dataStart

/-- Two loads differ in the changed words only, and there by the shift. -/
structure DifferByShift (header allocation header' allocation' : Word) (memory memory' : Ram) :
    Prop where
  words : ∀ offset ∈ fixedOffsets order h file entries,
    word order memory' (placeOf h header' allocation' offset) =
      word order memory (placeOf h header allocation offset) +
        segmentShift h header allocation header' allocation' (word order (image h file) offset)
  bytes : ∀ offset, offset.toNat < imageSize h →
    (∀ changed ∈ fixedOffsets order h file entries, ¬ Within changed wordBytes offset) →
    memory' (placeOf h header' allocation' offset) =
      memory (placeOf h header allocation offset)

end

section

variable {order : ByteOrder} {h : BfltHeader} {file : List (BitVec 8)} {entries : Nat}
  {header allocation header' allocation' : Word} {m m' memory memory' : Ram}

theorem placeOf_shift (offset : Word) :
    placeOf h header' allocation' offset =
      placeOf h header allocation offset +
        segmentShift h header allocation header' allocation' offset := by
  rw [← addressOf_eq, ← addressOf_eq, addressOf, addressOf, offsetToAddress, offsetToAddress,
    segmentShift]
  split
  · simp only [noFlags]
    grind
  · grind

theorem RelocatesTo.differByShift
    (hloaded : RelocatesTo order h file entries header allocation m memory)
    (hloaded' : RelocatesTo order h file entries header' allocation' m' memory') :
    DifferByShift order h file entries header allocation header' allocation' memory memory' := by
  constructor
  · intro offset hoffset
    rw [hloaded.words offset hoffset, hloaded'.words offset hoffset, placeOf_shift]
  · intro offset hsize hoffset
    rw [hloaded.bytes offset hsize hoffset, hloaded'.bytes offset hsize hoffset]

/-- A byte in a changed word in memory is a byte of that word in the image. -/
theorem within_of_placeOf {changed offset : Word} (hchanged : InAllocation h changed)
    (hoffset : ¬ offset < h.inPlace)
    (hin : Within (placeOf h header allocation changed) wordBytes
      (placeOf h header allocation offset)) :
    Within changed wordBytes offset := by
  have hbytes : wordBytes = 4 := rfl
  obtain ⟨i, hi, hsame⟩ := hin
  have hsum := hchanged.toNat_add (by omega : i < 4)
  have hle := hchanged.1
  have hnot : ¬ changed + BitVec.ofNat ptrBits i < h.inPlace := by
    rw [BitVec.lt_def, hsum]
    omega
  rw [hchanged.placeOf_add (by omega), placeOf, placeOf, if_neg hnot, if_neg hoffset,
    BitVec.add_right_inj] at hsame
  have hcancel := congrArg (fun x => x + h.inPlace) hsame
  simp only [BitVec.sub_add_cancel] at hcancel
  exact ⟨i, hi, hcancel⟩

theorem Consistent.relocatesTo (hfile : Consistent order h file entries)
    (hload : Loadable h file header allocation m) :
    RelocatesTo order h file entries header allocation m
      (fixups order wordBytes (placeOf h header allocation) (placed h header allocation m)
        ((fixedOffsets order h file entries).map (placeOf h header allocation))) := by
  have hall := hfile.fixedOffsets_inAllocation
  constructor
  · intro offset hsize
    rw [clearBss_copySegments]
    exact hfile.placed_placeOf hload hsize
  · intro offset hoffset
    rw [← hfile.word_placed hload (hall offset hoffset)]
    apply wordAt_fixups ptrBits_eq
    · rw [List.pairwise_map]
      exact hfile.fixedOffsets_pairwise.imp_of_mem fun ho ho' hapart =>
        (hall _ ho).apart (hall _ ho') hapart
    · exact List.mem_map_of_mem hoffset
  · intro offset hsize hoffset
    rw [← hfile.placed_placeOf hload hsize]
    cases hlt : decide (offset < h.inPlace) with
    | true =>
        -- the byte is in the file, which is apart from the allocation
        have hbounds := hfile.copyStart_bounds
        have hcontents := hfile.contents
        have hinPlace := hfile.inPlace_toNat
        have hbefore := BitVec.lt_def.mp (of_decide_eq_true hlt)
        rw [placeOf_of_lt (of_decide_eq_true hlt)]
        exact hfile.fixups_of_not_within_image hall (hfile.not_within_image hload (by omega))
    | false =>
        apply fixups_of_not_within ptrBits_eq
        rw [List.forall_mem_map]
        exact fun changed hchanged hin => hoffset changed hchanged
          (within_of_placeOf (hall changed hchanged) (of_decide_eq_false hlt) hin)
  · intro address haddress
    rw [hfile.fixups_of_not_within_image hall haddress, hfile.placed_of_not_within haddress]

theorem Consistent.bfltLoad_relocates
    (hfile : Consistent order (headerOf order file) file entries)
    (hload : Loadable (headerOf order file) file header allocation m) :
    ∃ loaded, bfltLoad order (entries + 1) header allocation m = some loaded ∧
      RelocatesTo order (headerOf order file) file entries header allocation m
        loaded.loading.memory := by
  have hbounds := hfile.copyStart_bounds
  have hcontents := hfile.contents
  have hsize : headerSize.toNat ≤ file.length := by
    rw [headerSize_toNat]
    omega
  obtain ⟨loaded, hloaded, hmemory⟩ :=
    hfile.load hload (headerAt_eq hload.stored hfile.length hsize)
  exact ⟨loaded, hloaded, hmemory ▸ hfile.relocatesTo hload⟩

/-- A consistent binary is relocated to where it is placed, at any two addresses, and the two
loads differ by the shift of the segments. -/
theorem relocation_agrees_with_placement
    (hfile : Consistent order (headerOf order file) file entries)
    (hload : Loadable (headerOf order file) file header allocation m)
    (hload' : Loadable (headerOf order file) file header' allocation' m') :
    ∃ fuel loaded loaded', bfltLoad order fuel header allocation m = some loaded ∧
      bfltLoad order fuel header' allocation' m' = some loaded' ∧
      RelocatesTo order (headerOf order file) file entries header allocation m
        loaded.loading.memory ∧
      RelocatesTo order (headerOf order file) file entries header' allocation' m'
        loaded'.loading.memory ∧
      DifferByShift order (headerOf order file) file entries header allocation header'
        allocation' loaded.loading.memory loaded'.loading.memory := by
  obtain ⟨loaded, hloaded, hrelocates⟩ := hfile.bfltLoad_relocates hload
  obtain ⟨loaded', hloaded', hrelocates'⟩ := hfile.bfltLoad_relocates hload'
  exact ⟨_, loaded, loaded', hloaded, hloaded', hrelocates, hrelocates',
    hrelocates.differByShift hrelocates'⟩

end

/-- A position-independent binary: 8 bytes of text, a global offset table with an entry for
text and one for data, a word that is relocated, and 8 bytes that are zeroed. -/
def gotBinary : List (BitVec 8) :=
  [0x62, 0x46, 0x4c, 0x54] ++
    [4, 64, 72, 88, 96, 16, 88, 1, 2, 0, 0, 0, 0, 0, 0].flatMap (numberBytes .big wordBytes) ++
    [0x4e, 0x71, 0x4e, 0x71, 0x4e, 0x71, 0x4e, 0x75] ++
    [4, 20, 0xffffffff, 28, 20].flatMap (numberBytes .big wordBytes)

def gotBinaryMemory : Ram :=
  WordMemory.set (fun _ => 0) 0x2000 gotBinary

def gotBinaryHeader : BfltHeader where
  magic := [0x62, 0x46, 0x4c, 0x54]
  version := 4
  entryPoint := 64
  dataStart := 72
  dataEnd := 88
  bssEnd := 96
  stackSize := 16
  relocationsStart := 88
  numRelocations := 1
  flags := 2

theorem headerOf_gotBinary : headerOf .big gotBinary = gotBinaryHeader := by decide +kernel

theorem relocationOffsets_gotBinary :
    relocationOffsets .big gotBinaryHeader gotBinary = [20] := by decide +kernel

theorem gotBinary_consistent : Consistent .big (headerOf .big gotBinary) gotBinary 2 := by
  rw [headerOf_gotBinary]
  constructor
  case got =>
    refine fun _ => ⟨by decide +kernel, by decide +kernel, by decide +kernel, ?_⟩
    rw [relocationOffsets_gotBinary, List.forall_mem_singleton]
    decide +kernel
  case aligned | inRange =>
    rw [relocationOffsets_gotBinary, List.forall_mem_singleton]
    decide +kernel
  case distinct =>
    rw [relocationOffsets_gotBinary]
    decide +kernel
  all_goals decide +kernel

theorem gotBinary_loadable {allocation : Word} (h : allocation = 0x1000 ∨ allocation = 0x3000) :
    Loadable (headerOf .big gotBinary) gotBinary 0x2000 allocation gotBinaryMemory := by
  rw [headerOf_gotBinary]
  constructor
  case stored => exact bytesAt_set (by decide +kernel)
  all_goals
    rcases h with rfl | rfl
    · decide +kernel
    · decide +kernel

theorem relocation_agrees_with_placement_gotBinary :
    ∃ fuel loaded loaded', bfltLoad .big fuel 0x2000 0x1000 gotBinaryMemory = some loaded ∧
      bfltLoad .big fuel 0x2000 0x3000 gotBinaryMemory = some loaded' ∧
      RelocatesTo .big (headerOf .big gotBinary) gotBinary 2 0x2000 0x1000 gotBinaryMemory
        loaded.loading.memory ∧
      RelocatesTo .big (headerOf .big gotBinary) gotBinary 2 0x2000 0x3000 gotBinaryMemory
        loaded'.loading.memory ∧
      DifferByShift .big (headerOf .big gotBinary) gotBinary 2 0x2000 0x1000 0x2000 0x3000
        loaded.loading.memory loaded'.loading.memory :=
  relocation_agrees_with_placement gotBinary_consistent (gotBinary_loadable (.inl rfl))
    (gotBinary_loadable (.inr rfl))

end Cenix.Bflt
