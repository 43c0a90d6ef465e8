import Cenix.Bflt.Placement
import Mathlib.Data.Nat.Find

namespace Cenix.Bflt

open Fields FileProtocol WordMemory

/-! Which binaries are loaded into the memory that is allocated for them. -/

/-- All bytes of a region are in the allocation. -/
def Inside (allocation : Word) (size : Nat) (region : Word × Nat) : Prop :=
  ∀ i < region.2, Within allocation size (region.1 + BitVec.ofNat ptrBits i)

section

variable (order : ByteOrder) (header allocation : Word) (m : Ram)

/-- The size is the sum and difference of the numbers in the header, everything that is
written is in the allocation, and so is the entry that ends the global offset table. -/
structure LoadsInside : Prop where
  size : ((bfltAllocationSize (headerAt order m header)).toNat : Int) =
    (headerAt order m header).bssEnd.toNat - (headerAt order m header).copyStart.toNat +
      (headerAt order m header).stackSize.toNat
  load : ∃ fuel loaded, bfltLoad order fuel header allocation m = some loaded ∧
    (∀ region ∈ loaded.loading.written,
      Inside allocation (bfltAllocationSize (headerAt order m header)).toNat region) ∧
    ∀ gotEnd ∈ loaded.gotEnd,
      Inside allocation (bfltAllocationSize (headerAt order m header)).toNat
        (gotEnd, wordBytes)

/-- A relocation that is skipped, or whose word is in the allocation. -/
def RelocationFits (h : BfltHeader) (allocation offset : Word) : Prop :=
  offset < h.inPlace ∨ allocation + (offset - h.inPlace) = 0 ∨
    (offset - h.inPlace).toNat + wordBytes ≤ (bfltAllocationSize h).toNat

/-- The segments are in order and small enough, the relocations fit, and the global offset
table has an end. -/
structure FitsAllocation (h : BfltHeader) : Prop where
  data : h.copyStart ≤ h.dataEnd
  bss : h.dataEnd ≤ h.bssEnd
  size : h.bssEnd.toNat - h.copyStart.toNat + h.stackSize.toNat < 2 ^ ptrBits
  relocations : ∀ i < h.numRelocations.toNat, RelocationFits h allocation
    (relocationAt order h header (relocated order h header allocation m i) i)
  got : h.gotpic = true → ∃ k, 4 * k + 4 ≤ (bfltAllocationSize h).toNat ∧
    word order (relocated order h header allocation m h.numRelocations.toNat)
      (gotWord allocation k) = BitVec.allOnes ptrBits

end

section

variable {allocation size : Word} {h : BfltHeader}

theorem inside_iff (start : Word) (count : Nat) :
    Inside allocation size.toNat (allocation + start, count) ↔
      count = 0 ∨ start.toNat + count ≤ size.toNat := by
  rw [add_eq_offset]
  exact forall_within_iff start.isLt size.isLt

theorem inside_start_iff (count : Nat) :
    Inside allocation size.toNat (allocation, count) ↔ count ≤ size.toNat := by
  have hfirst := @inside_iff allocation size (BitVec.ofNat ptrBits 0) count
  rw [BitVec.add_zero, BitVec.toNat_zero, Nat.zero_add] at hfirst
  rw [hfirst]
  omega

/-- The copied and the zeroed bytes are in the allocation, and its size is right. -/
theorem segments_inside_iff (h : BfltHeader) :
    ((bfltAllocationSize h).toNat : Int) =
        h.bssEnd.toNat - h.copyStart.toNat + h.stackSize.toNat ∧
      Inside allocation (bfltAllocationSize h).toNat
        (allocation, (h.dataEnd - h.copyStart).toNat) ∧
      Inside allocation (bfltAllocationSize h).toNat
        (bssStart h allocation, (h.bssEnd - h.dataEnd).toNat) ↔
    h.copyStart ≤ h.dataEnd ∧ h.dataEnd ≤ h.bssEnd ∧
      h.bssEnd.toNat - h.copyStart.toNat + h.stackSize.toNat < 2 ^ ptrBits := by
  rw [inside_start_iff, bssStart, inside_iff, bfltAllocationSize_eq]
  generalize h.copyStart = copyStart
  have hcopy := copyStart.isLt
  have hdata := h.dataEnd.isLt
  have hbss := h.bssEnd.isLt
  have hstack := h.stackSize.isLt
  have hmodulus : 2 ^ ptrBits = 4294967296 := rfl
  simp only [BitVec.le_def, BitVec.toNat_add, BitVec.toNat_sub, hmodulus] at *
  omega

theorem relocationFits_iff {offset : Word} :
    RelocationFits h allocation offset ↔ ∀ address ∈ relocatable h allocation offset,
      Inside allocation (bfltAllocationSize h).toNat (address, wordBytes) := by
  rw [RelocationFits, relocatable]
  split
  · rename_i hskipped
    simp only [Option.not_mem_none, false_implies, implies_true, iff_true]
    tauto
  · rename_i happlies
    rw [not_or] at happlies
    simp only [Option.mem_some_iff, forall_eq', inside_iff]
    have hbytes : wordBytes ≠ 0 := by decide
    tauto

end

section

variable {order : ByteOrder} {h : BfltHeader} {header allocation : Word} {m : Ram}

theorem relocatedWords_inside_iff (count : Nat) :
    (∀ address ∈ relocatedWords order h header allocation m 0 count,
        Inside allocation (bfltAllocationSize h).toNat (address, wordBytes)) ↔
      ∀ i < count, RelocationFits h allocation
        (relocationAt order h header (relocated order h header allocation m i) i) := by
  simp only [relocationFits_iff, relocatedWords, List.mem_filterMap, List.mem_range'_1,
    Nat.zero_add, Nat.zero_le, true_and, relocatedWord]
  constructor
  · intro hall i hi address haddress
    exact hall address ⟨i, hi, haddress⟩
  · rintro hall address ⟨i, hi, haddress⟩
    exact hall i hi address haddress

theorem fixUpGot_written {g : Segments} {fuel : Nat} {got gotEnd : Word} {s s' : Loading}
    (hload : fixUpGot order h g fuel got s = some (s', gotEnd)) : s.written ⊆ s'.written := by
  induction fuel generalizing got s with
  | zero => cases hload
  | succ fuel ih =>
      rw [fixUpGot] at hload
      split at hload
      · cases hload
        exact List.Subset.refl _
      · exact List.Subset.trans (List.subset_append_left _ _) (ih hload)

/-- A loop over the entries from `k` on that stays in the allocation ends there, at an entry
that has been in the image all along. -/
theorem terminator_of_fixUpGot {size : Word} {fuel k : Nat} {gotEnd : Word} {s s' : Loading}
    (hk : 4 * k ≤ size.toNat)
    (hload : fixUpGot order h (segments h header allocation) fuel (gotWord allocation k) s =
      some (s', gotEnd))
    (hwritten : ∀ region ∈ s'.written, Inside allocation size.toNat region)
    (hend : Inside allocation size.toNat (gotEnd, wordBytes)) :
    ∃ j, k ≤ j ∧ 4 * j + 4 ≤ size.toNat ∧
      word order s.memory (gotWord allocation j) = BitVec.allOnes ptrBits := by
  induction fuel generalizing k s with
  | zero => cases hload
  | succ fuel ih =>
      have hsize := size.isLt
      have hentry : Inside allocation size.toNat (gotWord allocation k, wordBytes) →
          4 * k + 4 ≤ size.toNat := by
        intro hinside
        have hbound := (forall_within_iff (by omega) hsize).mp hinside
        have hbytes : wordBytes = 4 := rfl
        omega
      rw [fixUpGot] at hload
      split at hload
      · rename_i hterminator
        cases hload
        exact ⟨k, Nat.le_refl k, hentry hend, hterminator⟩
      · rw [fixUp_eq, gotWord_add] at hload
        have hbound := hentry (hwritten _ (fixUpGot_written hload (by simp)))
        obtain ⟨j, hle, hj, hterminator⟩ := ih (by omega) hload
        refine ⟨j, by omega, hj, ?_⟩
        rwa [word_fixedUp_gotWord (by omega) (by omega) (by omega)] at hterminator

theorem beforeGot_inside_iff :
    (((bfltAllocationSize h).toNat : Int) =
        h.bssEnd.toNat - h.copyStart.toNat + h.stackSize.toNat ∧
      ∀ region ∈ (beforeGot order h header allocation m).written,
        Inside allocation (bfltAllocationSize h).toNat region) ↔
    (h.copyStart ≤ h.dataEnd ∧ h.dataEnd ≤ h.bssEnd ∧
        h.bssEnd.toNat - h.copyStart.toNat + h.stackSize.toNat < 2 ^ ptrBits) ∧
      ∀ i < h.numRelocations.toNat, RelocationFits h allocation
        (relocationAt order h header (relocated order h header allocation m i) i) := by
  rw [← @segments_inside_iff allocation h, ← relocatedWords_inside_iff, beforeGot]
  simp only [List.forall_mem_cons, List.forall_mem_map]
  tauto

/-- The words of the table are in the allocation up to one that ends it. -/
theorem gotWords_inside {size : Word} {count : Nat} (hcount : 4 * count ≤ size.toNat) :
    ∀ region ∈ (gotWords allocation 0 count).map fun address => (address, wordBytes),
      Inside allocation size.toNat region := by
  simp only [gotWords, List.forall_mem_map, List.mem_range'_1, Nat.zero_add]
  intro i hi
  have hsize := size.isLt
  have hbytes : wordBytes = 4 := rfl
  exact (forall_within_iff (by omega) hsize).mpr (.inr (by omega))

/-- The loop over the global offset table stays in the allocation exactly if that has an entry
that ends the table. -/
theorem fixUpGot_inside_iff {size : Word} {s : Loading}
    (hwritten : ∀ region ∈ s.written, Inside allocation size.toNat region) :
    (∃ fuel s' gotEnd,
        fixUpGot order h (segments h header allocation) fuel (gotWord allocation 0) s =
          some (s', gotEnd) ∧
        (∀ region ∈ s'.written, Inside allocation size.toNat region) ∧
        Inside allocation size.toNat (gotEnd, wordBytes)) ↔
      ∃ k, 4 * k + 4 ≤ size.toNat ∧
        word order s.memory (gotWord allocation k) = BitVec.allOnes ptrBits := by
  have hsize := size.isLt
  constructor
  · rintro ⟨fuel, s', gotEnd, hload, hinside, hend⟩
    obtain ⟨k, -, hk⟩ := terminator_of_fixUpGot (Nat.zero_le _) hload hinside hend
    exact ⟨k, hk⟩
  · intro hexists
    -- the loop ends at the first such entry
    obtain ⟨hbound, hend⟩ := Nat.find_spec hexists
    have hfirst := fun i => @Nat.find_min _ _ hexists i
    generalize Nat.find hexists = k at hbound hend hfirst
    have hload := @fixUpGot_eq order h header allocation k 0 s (by omega)
      (fun i _ hi hterminator => hfirst i (by omega) ⟨by omega, hterminator⟩)
      (by rwa [Nat.zero_add])
    refine ⟨k + 1, _, _, hload, ?_, ?_⟩
    · rw [List.forall_mem_append]
      exact ⟨hwritten, gotWords_inside (by omega)⟩
    · have hbytes : wordBytes = 4 := rfl
      exact (forall_within_iff (by omega) hsize).mpr (.inr (by omega))

theorem LoadsInside.fits (h : LoadsInside order header allocation m) :
    FitsAllocation order header allocation m (headerAt order m header) := by
  obtain ⟨hsize, fuel, loaded, hload, hwritten, hgot⟩ := h
  rw [bfltLoad_eq] at hload
  generalize headerAt order m header = h at *
  cases hmode : h.gotpic with
  | false =>
      rw [hmode, if_neg Bool.false_ne_true] at hload
      cases hload
      obtain ⟨⟨hdata, hbss, hfits⟩, hrelocations⟩ := beforeGot_inside_iff.mp ⟨hsize, hwritten⟩
      exact ⟨hdata, hbss, hfits, hrelocations, by simp [hmode]⟩
  | true =>
      rw [hmode, if_pos rfl, Option.map_eq_some_iff] at hload
      obtain ⟨⟨s, gotEnd⟩, hloop, rfl⟩ := hload
      have hbefore := fun region hregion => hwritten region (fixUpGot_written hloop hregion)
      obtain ⟨⟨hdata, hbss, hfits⟩, hrelocations⟩ := beforeGot_inside_iff.mp ⟨hsize, hbefore⟩
      have hterminator := (fixUpGot_inside_iff hbefore).mp
        ⟨fuel, s, gotEnd, hloop, hwritten, hgot gotEnd rfl⟩
      exact ⟨hdata, hbss, hfits, hrelocations, fun _ => hterminator⟩

theorem FitsAllocation.loadsInside
    (h : FitsAllocation order header allocation m (headerAt order m header)) :
    LoadsInside order header allocation m := by
  obtain ⟨hdata, hbss, hfits, hrelocations, hgot⟩ := h
  obtain ⟨hsize, hbefore⟩ := beforeGot_inside_iff.mpr ⟨⟨hdata, hbss, hfits⟩, hrelocations⟩
  refine ⟨hsize, ?_⟩
  simp only [bfltLoad_eq]
  generalize headerAt order m header = h at *
  cases hmode : h.gotpic with
  | false => exact ⟨0, _, rfl, hbefore, nofun⟩
  | true =>
      obtain ⟨fuel, s, gotEnd, hloop, hwritten, hend⟩ :=
        (fixUpGot_inside_iff hbefore).mpr (hgot hmode)
      refine ⟨fuel, ⟨s, some gotEnd, entryRegisters h header allocation⟩, ?_, hwritten, ?_⟩
      · rw [if_pos rfl, hloop]
        rfl
      · rintro _ ⟨⟩
        exact hend

end

/-- A binary is loaded into its allocation exactly if it fits. -/
theorem loadsInside_iff (order : ByteOrder) (header allocation : Word) (m : Ram) :
    LoadsInside order header allocation m ↔
      FitsAllocation order header allocation m (headerAt order m header) :=
  ⟨LoadsInside.fits, FitsAllocation.loadsInside⟩

/-- A binary without text and data, whose relocation is not in its 16 bytes of stack. -/
def strayRelocation : List (BitVec 8) :=
  [0x62, 0x46, 0x4c, 0x54] ++
    [4, 64, 64, 64, 64, 16, 64, 1, 1, 0, 0, 0, 0, 0, 0, 0x100].flatMap
      (numberBytes .big wordBytes)

def strayMemory : Ram :=
  WordMemory.set (fun _ => 0) 0x2000 strayRelocation

theorem not_loadsInside_strayRelocation :
    ¬ ∀ order header allocation m, bfltVerify (headerAt order m header) = true →
      LoadsInside order header allocation m := by
  intro hall
  have hload := hall .big 0x2000 0x1000 strayMemory (by decide +kernel)
  have hstray : ¬ RelocationFits (headerAt .big strayMemory 0x2000) 0x1000
      (relocationAt .big (headerAt .big strayMemory 0x2000) 0x2000
        (relocated .big (headerAt .big strayMemory 0x2000) 0x2000 0x1000 strayMemory 0) 0) := by
    unfold RelocationFits
    decide +kernel
  exact hstray (hload.fits.relocations 0 (by decide +kernel))

end Cenix.Bflt
