import Cenix.Bflt.Loader

namespace Cenix.Bflt

open Fields FileProtocol WordMemory

/-! Where a binary is placed, in terms that are the same for both ways of loading. -/

namespace BfltHeader

variable (h : BfltHeader)

/-- The offset in the file from which on it is copied. -/
def copyStart : Word :=
  if h.gotpic then h.dataStart else headerSize

/-- The number of bytes behind the header that stay in the file. -/
def inPlace : Word :=
  h.copyStart - headerSize

end BfltHeader

/-- The address of byte `offset` behind the header. -/
def placeOf (h : BfltHeader) (header allocation offset : Word) : Word :=
  if offset < h.inPlace then header + headerSize + offset
  else allocation + (offset - h.inPlace)

/-- The word at `offset` behind the header, if the loader relocates it. -/
def relocatable (h : BfltHeader) (allocation offset : Word) : Option Word :=
  if offset < h.inPlace ∨ allocation + (offset - h.inPlace) = 0 then none
  else some (allocation + (offset - h.inPlace))

section

variable (h : BfltHeader) (header allocation offset : Word)

theorem copyStart_of_gotpic (hmode : h.gotpic = true) : h.copyStart = h.dataStart :=
  if_pos hmode

theorem copyStart_of_copied (hmode : h.gotpic = false) : h.copyStart = headerSize :=
  if_neg (by simp [hmode])

theorem inPlace_of_copied (hmode : h.gotpic = false) : h.inPlace = 0 := by
  rw [BfltHeader.inPlace, copyStart_of_copied h hmode, BitVec.sub_self]
  rfl

theorem not_lt_inPlace (hmode : h.gotpic = false) : ¬ offset < h.inPlace := by
  rw [inPlace_of_copied h hmode]
  exact BitVec.not_lt_zero

theorem bfltAllocationSize_eq :
    bfltAllocationSize h = h.bssEnd - h.copyStart + h.stackSize := by
  rw [bfltAllocationSize, BfltHeader.copyStart]
  split <;> rfl

theorem segments_dataEnd :
    (segments h header allocation).dataEnd = allocation + (h.dataEnd - h.copyStart) := by
  rw [segments, BfltHeader.copyStart]
  split <;> grind

theorem copySegments_eq (s : Loading) :
    copySegments h (segments h header allocation) header s =
      s.memcpy allocation (header + h.copyStart) (h.dataEnd - h.copyStart) := by
  rw [copySegments, segments, BfltHeader.copyStart]
  split <;> rfl

theorem addressOf_eq :
    addressOf h (segments h header allocation) offset = placeOf h header allocation offset := by
  rw [addressOf, offsetToAddress, placeOf]
  cases hmode : h.gotpic with
  | true =>
      rw [BfltHeader.inPlace, copyStart_of_gotpic h hmode]
      simp only [segments, hmode, if_true, noFlags]
      split
      · simp
      · grind
  | false =>
      rw [if_neg (not_lt_inPlace h offset hmode), inPlace_of_copied h hmode]
      simp only [segments, hmode, Bool.false_eq_true, if_false, noFlags]
      split
      · simp
      · grind

theorem addressToRelocate_eq :
    addressToRelocate h (segments h header allocation) offset =
      (relocatable h allocation offset).getD 0 := by
  have hlt := not_lt_inPlace h offset
  cases hmode : h.gotpic with
  | true =>
      rw [addressToRelocate, offsetToAddress, relocatable, BfltHeader.inPlace,
        copyStart_of_gotpic h hmode]
      simp only [segments, hmode, if_true, flagDenyTextReallocations]
      grind
  | false =>
      have hflags : addressToRelocate h (segments h header allocation) offset =
          addressOf h (segments h header allocation) offset := by
        simp [addressToRelocate, addressOf, segments, hmode]
      rw [hflags, addressOf_eq, placeOf, if_neg (hlt hmode), relocatable]
      simp only [hlt hmode, false_or]
      split
      · assumption
      · rfl

end

theorem relocatable_eq_some {h : BfltHeader} {allocation offset address : Word} :
    relocatable h allocation offset = some address ↔
      ¬ offset < h.inPlace ∧ address = allocation + (offset - h.inPlace) ∧ address ≠ 0 := by
  rw [relocatable]
  grind

/-! The image in memory: placed, and with the first relocations applied. -/

section

variable (order : ByteOrder) (h : BfltHeader) (header allocation : Word) (m : Ram)

def bssStart : Word :=
  allocation + (h.dataEnd - h.copyStart)

def placed : Ram :=
  (m.set allocation (m.bytesAt (header + h.copyStart) (h.dataEnd - h.copyStart).toNat)).set
    (bssStart h allocation) (List.replicate (h.bssEnd - h.dataEnd).toNat 0)

/-- The offset in entry `i` of the relocation table. -/
def relocationAt (image : Ram) (i : Nat) : Word :=
  word order image (header + h.relocationsStart + BitVec.ofNat ptrBits (4 * i))

/-- The word that relocation `i` changes in an image. -/
def relocatedWord (image : Ram) (i : Nat) : Option Word :=
  relocatable h allocation (relocationAt order h header image i)

def fixedUp (image : Ram) (address : Word) : Ram :=
  fixup order wordBytes (placeOf h header allocation) image address

def relocated : Nat → Ram
  | 0 => placed h header allocation m
  | i + 1 =>
      match relocatedWord order h header allocation (relocated i) i with
      | none => relocated i
      | some address => fixedUp order h header allocation (relocated i) address

/-- The words that relocations `i` up to `i + count` change. -/
def relocatedWords (i count : Nat) : List Word :=
  (List.range' i count).filterMap fun j =>
    relocatedWord order h header allocation (relocated order h header allocation m j) j

theorem clearBss_copySegments :
    clearBss h (segments h header allocation)
        (copySegments h (segments h header allocation) header ⟨m, []⟩) =
      ⟨placed h header allocation m,
        [(allocation, (h.dataEnd - h.copyStart).toNat),
          (bssStart h allocation, (h.bssEnd - h.dataEnd).toNat)]⟩ := by
  rw [copySegments_eq, clearBss, segments_dataEnd]
  simp [Loading.memset, Loading.memcpy, Loading.store, placed, bssStart]

theorem fixUp_eq (address : Word) (s : Loading) :
    fixUp order h (segments h header allocation) address s =
      ⟨fixedUp order h header allocation s.memory address,
        s.written ++ [(address, wordBytes)]⟩ := by
  rw [fixUp, addressOf_eq, Loading.storeWord, Loading.store, length_numberBytes]
  rfl

theorem relocate_eq (offset : Word) (s : Loading) :
    relocate order h (segments h header allocation) offset s =
      match relocatable h allocation offset with
      | none => s
      | some address =>
          ⟨fixedUp order h header allocation s.memory address,
            s.written ++ [(address, wordBytes)]⟩ := by
  rw [relocate, addressToRelocate_eq]
  cases hword : relocatable h allocation offset with
  | none => exact if_pos rfl
  | some address =>
      rw [Option.getD_some, if_neg (relocatable_eq_some.mp hword).2.2, fixUp_eq]

variable {order h header allocation m}

/-- The relocations from `i` on, from the image that the ones before have left. -/
theorem relocations_eq (count : Nat) {i : Nat} {s : Loading}
    (hmemory : s.memory = relocated order h header allocation m i) :
    relocations order h (segments h header allocation) count
        (header + h.relocationsStart + BitVec.ofNat ptrBits (4 * i)) s =
      ⟨relocated order h header allocation m (i + count),
        s.written ++
          (relocatedWords order h header allocation m i count).map fun address =>
            (address, wordBytes)⟩ := by
  induction count generalizing i s with
  | zero =>
      rw [relocations, relocatedWords, List.range'_zero, List.filterMap_nil, List.map_nil,
        List.append_nil, Nat.add_zero, ← hmemory]
  | succ count ih =>
      have hnext : header + h.relocationsStart + BitVec.ofNat ptrBits (4 * i) + 4 =
          header + h.relocationsStart + BitVec.ofNat ptrBits (4 * (i + 1)) :=
        add_ofNat_add _ (4 * i) 4
      have hoffset : word order s.memory
          (header + h.relocationsStart + BitVec.ofNat ptrBits (4 * i)) =
            relocationAt order h header (relocated order h header allocation m i) i := by
        rw [hmemory]
        rfl
      have hcount : i + (count + 1) = i + 1 + count := by omega
      rw [relocations, hnext, hoffset, relocate_eq, relocatedWords, List.range'_succ,
        List.filterMap_cons, hcount]
      cases hword : relocatedWord order h header allocation
          (relocated order h header allocation m i) i with
      | none =>
          rw [relocatedWord] at hword
          rw [hword]
          have hstep : s.memory = relocated order h header allocation m (i + 1) := by
            rw [relocated, relocatedWord, hword]
            exact hmemory
          exact ih hstep
      | some address =>
          rw [relocatedWord] at hword
          rw [hword]
          have hstep : fixedUp order h header allocation s.memory address =
              relocated order h header allocation m (i + 1) := by
            rw [relocated, relocatedWord, hword, hmemory]
          rw [ih hstep]
          simp [relocatedWords]

end

/-! The global offset table. -/

section

variable (order : ByteOrder) (h : BfltHeader) (header allocation : Word)

def gotWord (k : Nat) : Word :=
  allocation + BitVec.ofNat ptrBits (4 * k)

def gotWords (k count : Nat) : List Word :=
  (List.range' k count).map (gotWord allocation)

theorem gotWord_add (k : Nat) : gotWord allocation k + 4 = gotWord allocation (k + 1) :=
  add_ofNat_add allocation (4 * k) 4

theorem gotWord_apart {i j : Nat} (hi : 4 * i + 4 ≤ 2 ^ ptrBits) (hj : 4 * j + 4 ≤ 2 ^ ptrBits)
    (hne : i ≠ j) : Apart wordBytes (gotWord allocation i) (gotWord allocation j) := by
  apply apart_offset
  · exact hi
  · exact hj
  · have hbytes : wordBytes = 4 := rfl
    omega

theorem ptrBits_eq : ptrBits = 8 * wordBytes := rfl

variable {order h header allocation}

/-- A fixed up entry leaves the other ones as they are. -/
theorem word_fixedUp_gotWord {image : Ram} {i j : Nat} (hi : 4 * i + 4 ≤ 2 ^ ptrBits)
    (hj : 4 * j + 4 ≤ 2 ^ ptrBits) (hne : i ≠ j) :
    word order (fixedUp order h header allocation image (gotWord allocation i))
      (gotWord allocation j) = word order image (gotWord allocation j) :=
  wordAt_fixup_of_apart ptrBits_eq (gotWord_apart allocation hi hj hne)

/-- The entries from `k` on are fixed up until the first one that ends the table. -/
theorem fixUpGot_eq (count : Nat) {k : Nat} {s : Loading}
    (hbound : 4 * (k + count) + 4 ≤ 2 ^ ptrBits)
    (hbefore : ∀ i, k ≤ i → i < k + count →
      word order s.memory (gotWord allocation i) ≠ BitVec.allOnes ptrBits)
    (hend : word order s.memory (gotWord allocation (k + count)) = BitVec.allOnes ptrBits) :
    fixUpGot order h (segments h header allocation) (count + 1) (gotWord allocation k) s =
      some (⟨fixups order wordBytes (placeOf h header allocation) s.memory
          (gotWords allocation k count),
        s.written ++ (gotWords allocation k count).map fun address => (address, wordBytes)⟩,
        gotWord allocation (k + count)) := by
  induction count generalizing k s with
  | zero =>
      rw [Nat.add_zero] at hend ⊢
      rw [fixUpGot, if_pos hend]
      simp [gotWords]
  | succ count ih =>
      have hcount : k + (count + 1) = k + 1 + count := by omega
      rw [hcount] at hbound hbefore hend ⊢
      have hsame : ∀ i, k + 1 ≤ i → i ≤ k + 1 + count →
          word order (fixedUp order h header allocation s.memory (gotWord allocation k))
            (gotWord allocation i) = word order s.memory (gotWord allocation i) := by
        intro i hle hlt
        exact word_fixedUp_gotWord (by omega) (by omega) (by omega)
      rw [fixUpGot, if_neg (hbefore k (by omega) (by omega)), gotWord_add, fixUp_eq, ih hbound]
      · simp [gotWords, List.range'_succ, fixedUp]
      · intro i hle hlt
        rw [hsame i hle (by omega)]
        exact hbefore i (by omega) hlt
      · rw [hsame _ (by omega) (by omega)]
        exact hend

end

/-! The whole load. -/

section

variable (order : ByteOrder) (h : BfltHeader) (header allocation : Word) (m : Ram)

/-- What the loader has done before it fixes up the global offset table. -/
def beforeGot : Loading where
  memory := relocated order h header allocation m h.numRelocations.toNat
  written :=
    (allocation, (h.dataEnd - h.copyStart).toNat) ::
      (bssStart h allocation, (h.bssEnd - h.dataEnd).toNat) ::
        (relocatedWords order h header allocation m 0 h.numRelocations.toNat).map fun address =>
          (address, wordBytes)

theorem gotWord_zero : gotWord allocation 0 = allocation := by
  simp [gotWord]

theorem relocations_clearBss :
    relocations order h (segments h header allocation) h.numRelocations.toNat
        (header + h.relocationsStart)
        (clearBss h (segments h header allocation)
          (copySegments h (segments h header allocation) header ⟨m, []⟩)) =
      beforeGot order h header allocation m := by
  rw [clearBss_copySegments]
  have hloop := @relocations_eq order h header allocation m h.numRelocations.toNat 0
    ⟨placed h header allocation m,
      [(allocation, (h.dataEnd - h.copyStart).toNat),
        (bssStart h allocation, (h.bssEnd - h.dataEnd).toNat)]⟩ rfl
  simpa [beforeGot] using hloop

theorem bfltLoad_eq (fuel : Nat) :
    bfltLoad order fuel header allocation m =
      if (headerAt order m header).gotpic then
        (fixUpGot order (headerAt order m header)
          (segments (headerAt order m header) header allocation) fuel (gotWord allocation 0)
          (beforeGot order (headerAt order m header) header allocation m)).map
            fun (s, gotEnd) =>
              ⟨s, some gotEnd, entryRegisters (headerAt order m header) header allocation⟩
      else
        some ⟨beforeGot order (headerAt order m header) header allocation m, none,
          entryRegisters (headerAt order m header) header allocation⟩ := by
  rw [bfltLoad, gotWord_zero]
  generalize headerAt order m header = h
  simp only [relocations_clearBss]
  cases hmode : h.gotpic with
  | true => simp only [segments, hmode, if_true]
  | false => rfl

end

end Cenix.Bflt
