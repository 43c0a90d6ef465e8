import Cenix.FileProtocol.Fields

namespace Cenix

open Fields

/-! Memory whose addresses wrap around, with regions and words in it. -/

abbrev WordMemory (w : Nat) := BitVec w → BitVec 8

namespace WordMemory

variable {w : Nat}

section Regions

/-- One of the `count` bytes from `start` on. -/
def Within (start : BitVec w) (count : Nat) (address : BitVec w) : Prop :=
  ∃ i < count, address = start + BitVec.ofNat w i

instance (start : BitVec w) (count : Nat) (address : BitVec w) :
    Decidable (Within start count address) :=
  inferInstanceAs (Decidable (∃ i < count, address = start + BitVec.ofNat w i))

variable {base start address : BitVec w} {p q count size : Nat}

theorem ofNat_inj_of_lt (hp : p < 2 ^ w) (hq : q < 2 ^ w)
    (h : BitVec.ofNat w p = BitVec.ofNat w q) : p = q := by
  have hvalues := congrArg BitVec.toNat h
  rwa [BitVec.toNat_ofNat, BitVec.toNat_ofNat, Nat.mod_eq_of_lt hp, Nat.mod_eq_of_lt hq]
    at hvalues

theorem add_ofNat_add (base : BitVec w) (p q : Nat) :
    base + BitVec.ofNat w p + BitVec.ofNat w q = base + BitVec.ofNat w (p + q) := by
  rw [BitVec.add_assoc, ← BitVec.ofNat_add]

theorem toNat_add_ofNat (h : start.toNat + p < 2 ^ w) :
    (start + BitVec.ofNat w p).toNat = start.toNat + p := by
  rw [BitVec.toNat_add, BitVec.toNat_ofNat, Nat.mod_eq_of_lt (show p < 2 ^ w by omega),
    Nat.mod_eq_of_lt h]

theorem within_iff_sub (h : count ≤ 2 ^ w) :
    Within start count address ↔ (address - start).toNat < count := by
  constructor
  · rintro ⟨i, hi, rfl⟩
    rw [BitVec.add_comm, BitVec.add_sub_cancel, BitVec.toNat_ofNat,
      Nat.mod_eq_of_lt (Nat.lt_of_lt_of_le hi h)]
    exact hi
  · intro hlt
    refine ⟨(address - start).toNat, hlt, ?_⟩
    rw [BitVec.ofNat_toNat, BitVec.setWidth_eq, BitVec.add_comm, BitVec.sub_add_cancel]

/-- Regions at offsets from one base that do not reach around the memory. -/
theorem within_offset (hp : p < 2 ^ w) (hq : q + count ≤ 2 ^ w) :
    Within (base + BitVec.ofNat w q) count (base + BitVec.ofNat w p) ↔
      q ≤ p ∧ p < q + count := by
  constructor
  · rintro ⟨i, hi, h⟩
    rw [add_ofNat_add, BitVec.add_right_inj] at h
    have hsum := ofNat_inj_of_lt hp (Nat.lt_of_lt_of_le (Nat.add_lt_add_left hi q) hq) h
    omega
  · rintro ⟨hle, hlt⟩
    refine ⟨p - q, by omega, ?_⟩
    rw [add_ofNat_add, Nat.add_sub_cancel' hle]

theorem Within.mono {more : Nat} (h : Within start count address) (hle : count ≤ more) :
    Within start more address := by
  obtain ⟨i, hi, hsame⟩ := h
  exact ⟨i, Nat.lt_of_lt_of_le hi hle, hsame⟩

theorem Within.behind {more : Nat} (h : Within (start + BitVec.ofNat w q) count address)
    (hle : q + count ≤ more) : Within start more address := by
  obtain ⟨i, hi, rfl⟩ := h
  exact ⟨q + i, by omega, add_ofNat_add start q i⟩

theorem within_base (hp : p < 2 ^ w) (h : count ≤ 2 ^ w) :
    Within base count (base + BitVec.ofNat w p) ↔ p < count := by
  have hoffset := @within_offset w base p 0 count hp (by omega)
  simpa using hoffset

theorem add_eq_offset (base offset : BitVec w) :
    base + offset = base + BitVec.ofNat w offset.toNat := by
  rw [BitVec.ofNat_toNat, BitVec.setWidth_eq]

/-- A region inside another one starts and ends inside it. -/
theorem forall_within_iff (hq : q < 2 ^ w) (hsize : size < 2 ^ w) :
    (∀ i < count, Within base size (base + BitVec.ofNat w q + BitVec.ofNat w i)) ↔
      count = 0 ∨ q + count ≤ size := by
  constructor
  · intro h
    have hbyte : ∀ i < count, q + i < size := by
      intro i
      induction i with
      | zero =>
          intro hi
          have hfirst := h 0 hi
          rw [add_ofNat_add] at hfirst
          exact (within_base hq hsize.le).mp hfirst
      | succ i ih =>
          intro hi
          have hbefore := ih (by omega)
          have hnext := h (i + 1) hi
          rw [add_ofNat_add] at hnext
          exact (within_base (by omega) hsize.le).mp hnext
    rcases Nat.eq_zero_or_pos count with hzero | hpos
    · exact .inl hzero
    · have hlast := hbyte (count - 1) (by omega)
      exact .inr (by omega)
  · intro h i hi
    rw [add_ofNat_add, within_base (by omega) hsize.le]
    omega

end Regions

section Bytes

variable (m : WordMemory w)

def bytesAt (start : BitVec w) (count : Nat) : List (BitVec 8) :=
  (List.range count).map fun i => m (start + BitVec.ofNat w i)

def set (start : BitVec w) (bytes : List (BitVec 8)) : WordMemory w :=
  fun address => bytes.getD (address - start).toNat (m address)

@[simp] theorem length_bytesAt (start : BitVec w) (count : Nat) :
    (m.bytesAt start count).length = count := by
  simp [bytesAt]

variable {m} {start address : BitVec w} {bytes : List (BitVec 8)}

theorem set_of_not_within (hlength : bytes.length ≤ 2 ^ w)
    (h : ¬ Within start bytes.length address) : m.set start bytes address = m address := by
  rw [within_iff_sub hlength] at h
  rw [set, List.getD_eq_getElem?_getD, List.getElem?_eq_none (by omega), Option.getD_none]

theorem set_add (hlength : bytes.length ≤ 2 ^ w) {i : Nat} (hi : i < bytes.length) :
    m.set start bytes (start + BitVec.ofNat w i) = bytes[i] := by
  rw [set, BitVec.add_comm, BitVec.add_sub_cancel, BitVec.toNat_ofNat,
    Nat.mod_eq_of_lt (Nat.lt_of_lt_of_le hi hlength)]
  rw [List.getD_eq_getElem?_getD, List.getElem?_eq_getElem hi, Option.getD_some]

theorem bytesAt_set (hlength : bytes.length ≤ 2 ^ w) :
    (m.set start bytes).bytesAt start bytes.length = bytes := by
  apply List.ext_getElem (by simp)
  intro i _ hi
  simp [bytesAt, set_add hlength hi]

theorem set_bytesAt_self {count : Nat} (hcount : count ≤ 2 ^ w) :
    m.set start (m.bytesAt start count) = m := by
  funext a
  by_cases hwithin : Within start count a
  · obtain ⟨i, hi, rfl⟩ := hwithin
    rw [set_add (by simpa using hcount) (by simpa using hi)]
    simp [bytesAt]
  · exact set_of_not_within (by simpa using hcount) (by simpa using hwithin)

theorem bytesAt_congr {m' : WordMemory w} {start' : BitVec w} {count : Nat}
    (h : ∀ i < count, m' (start' + BitVec.ofNat w i) = m (start + BitVec.ofNat w i)) :
    m'.bytesAt start' count = m.bytesAt start count := by
  apply List.map_congr_left
  intro i hi
  exact h i (List.mem_range.mp hi)

theorem bytesAt_add (start : BitVec w) (count more : Nat) :
    m.bytesAt start (count + more) =
      m.bytesAt start count ++ m.bytesAt (start + BitVec.ofNat w count) more := by
  simp only [bytesAt, List.range_add, List.map_append, List.map_map]
  congr 1
  apply List.map_congr_left
  intro i _
  rw [Function.comp_apply, add_ofNat_add]

theorem bytesAt_set_of_apart (hlength : bytes.length ≤ 2 ^ w) {other : BitVec w} {count : Nat}
    (h : ∀ i < count, ¬ Within start bytes.length (other + BitVec.ofNat w i)) :
    (m.set start bytes).bytesAt other count = m.bytesAt other count :=
  bytesAt_congr fun i hi => set_of_not_within hlength (h i hi)

/-- A part of what has been stored. -/
theorem bytesAt_set_drop (hlength : bytes.length ≤ 2 ^ w) {offset count : Nat}
    (h : offset + count ≤ bytes.length) :
    (m.set start bytes).bytesAt (start + BitVec.ofNat w offset) count =
      (bytes.drop offset).take count := by
  obtain ⟨rest, hrest⟩ := Nat.exists_eq_add_of_le h
  have hbytes : (m.set start bytes).bytesAt start bytes.length = bytes := bytesAt_set hlength
  rw [hrest, Nat.add_assoc, bytesAt_add, bytesAt_add] at hbytes
  conv_rhs => rw [← hbytes]
  rw [List.drop_left' (length_bytesAt ..), List.take_left' (length_bytesAt ..)]

section Append

variable {more : List (BitVec 8)}

/-- The two parts are stored in either order. -/
theorem set_append (hlength : (bytes ++ more).length ≤ 2 ^ w) :
    (m.set start bytes).set (start + BitVec.ofNat w bytes.length) more =
      m.set start (bytes ++ more) := by
  have hsum : bytes.length + more.length ≤ 2 ^ w := by rwa [List.length_append] at hlength
  funext a
  by_cases hwithin : Within start (bytes ++ more).length a
  · obtain ⟨i, hi, rfl⟩ := hwithin
    have hilt : i < 2 ^ w := Nat.lt_of_lt_of_le hi hlength
    have hi' : i < bytes.length + more.length := by rwa [List.length_append] at hi
    rw [set_add hlength hi]
    by_cases hlt : i < bytes.length
    · rw [List.getElem_append_left hlt, set_of_not_within (by omega), set_add (by omega) hlt]
      rw [within_offset hilt hsum]
      omega
    · rw [List.getElem_append_right (Nat.le_of_not_lt hlt)]
      have hoffset : start + BitVec.ofNat w i = start + BitVec.ofNat w bytes.length +
          BitVec.ofNat w (i - bytes.length) := by
        rw [add_ofNat_add]
        congr 2
        omega
      rw [hoffset, set_add (by omega) (by omega)]
  · rw [set_of_not_within hlength hwithin, set_of_not_within (by omega),
      set_of_not_within (by omega)]
    · intro hfirst
      exact hwithin (hfirst.mono (by rw [List.length_append]; omega))
    · intro hsecond
      exact hwithin (hsecond.behind (by rw [List.length_append]))

theorem set_prepend (hlength : (bytes ++ more).length ≤ 2 ^ w) :
    (m.set (start + BitVec.ofNat w bytes.length) more).set start bytes =
      m.set start (bytes ++ more) := by
  have hsum : bytes.length + more.length ≤ 2 ^ w := by rwa [List.length_append] at hlength
  rw [← set_append hlength]
  funext a
  by_cases hfirst : Within start bytes.length a
  · obtain ⟨i, hi, rfl⟩ := hfirst
    rw [set_add (by omega) hi, set_of_not_within (by omega), set_add (by omega) hi]
    rw [within_offset (by omega) hsum]
    omega
  · rw [set_of_not_within (by omega) hfirst]
    by_cases hsecond : Within (start + BitVec.ofNat w bytes.length) more.length a
    · obtain ⟨j, hj, rfl⟩ := hsecond
      rw [set_add (by omega) hj, set_add (by omega) hj]
    · rw [set_of_not_within (by omega) hsecond, set_of_not_within (by omega) hsecond,
        set_of_not_within (by omega) hfirst]

end Append

/-- The bytes are in memory from `start` on. -/
def Holds (m : WordMemory w) (start : BitVec w) (bytes : List (BitVec 8)) : Prop :=
  m.bytesAt start bytes.length = bytes

theorem Holds.congr {m' : WordMemory w} (h : m.Holds start bytes)
    (hsame : ∀ i < bytes.length,
      m' (start + BitVec.ofNat w i) = m (start + BitVec.ofNat w i)) : m'.Holds start bytes :=
  (bytesAt_congr hsame).trans h

theorem Holds.byte (h : m.Holds start bytes) {i : Nat} (hi : i < bytes.length) :
    m (start + BitVec.ofNat w i) = bytes[i] := by
  have hget := congrArg (fun bytes => bytes[i]?) h
  simpa [bytesAt, hi] using hget

end Bytes

section Words

variable (m : WordMemory w) (order : ByteOrder) (n : Nat)

/-- The word of `n` bytes at an address. -/
def wordAt (address : BitVec w) : BitVec w :=
  BitVec.ofNat w (ofNumberBytes order (m.bytesAt address n))

def setWord (address value : BitVec w) : WordMemory w :=
  m.set address (numberBytes order n value.toNat)

variable {m order n} {address value : BitVec w}

theorem le_of_width (hw : w = 8 * n) : n ≤ 2 ^ w := by
  have hlt : w < 2 ^ w := Nat.lt_two_pow_self
  omega

theorem wordAt_congr {m' : WordMemory w} {address' : BitVec w}
    (h : ∀ i < n, m' (address' + BitVec.ofNat w i) = m (address + BitVec.ofNat w i)) :
    m'.wordAt order n address' = m.wordAt order n address := by
  rw [wordAt, bytesAt_congr h, wordAt]

theorem wordAt_setWord (hw : w = 8 * n) :
    (m.setWord order n address value).wordAt order n address = value := by
  have hlength : (numberBytes order n value.toNat).length ≤ 2 ^ w := by
    rw [length_numberBytes]
    exact le_of_width hw
  have hbytes := @bytesAt_set w m address (numberBytes order n value.toNat) hlength
  rw [length_numberBytes] at hbytes
  have hvalue : value.toNat < 2 ^ (8 * n) := hw ▸ value.isLt
  rw [wordAt, setWord, hbytes, ofNumberBytes_numberBytes order hvalue, BitVec.ofNat_toNat,
    BitVec.setWidth_eq]

theorem setWord_of_not_within (hw : w = 8 * n) {other : BitVec w}
    (h : ¬ Within address n other) : m.setWord order n address value other = m other := by
  apply set_of_not_within
  · rw [length_numberBytes]
    exact le_of_width hw
  · rwa [length_numberBytes]

end Words

section Apart

/-- No byte of the second word is one of the first. -/
def Apart (n : Nat) (address other : BitVec w) : Prop :=
  ∀ i < n, ¬ Within address n (other + BitVec.ofNat w i)

variable {n : Nat} {base address other : BitVec w} {p q : Nat}

theorem Apart.symm (h : Apart n address other) : Apart n other address := by
  rintro i hi ⟨j, hj, hsame⟩
  exact h j hj ⟨i, hi, hsame.symm⟩

theorem apart_offset (hp : p + n ≤ 2 ^ w) (hq : q + n ≤ 2 ^ w) (h : p + n ≤ q ∨ q + n ≤ p) :
    Apart n (base + BitVec.ofNat w p) (base + BitVec.ofNat w q) := by
  intro i hi
  rw [add_ofNat_add, within_offset (by omega) hp]
  omega

end Apart

section Fixups

variable (order : ByteOrder) (n : Nat) (place : BitVec w → BitVec w)

/-- Replaces a word by its place. -/
def fixup (m : WordMemory w) (address : BitVec w) : WordMemory w :=
  m.setWord order n address (place (m.wordAt order n address))

def fixups (m : WordMemory w) (addresses : List (BitVec w)) : WordMemory w :=
  addresses.foldl (fixup order n place) m

variable {order n place} {m : WordMemory w} {addresses : List (BitVec w)}
  {address other : BitVec w}

@[simp] theorem fixups_nil : fixups order n place m [] = m := rfl

@[simp] theorem fixups_cons :
    fixups order n place m (address :: addresses) =
      fixups order n place (fixup order n place m address) addresses := rfl

theorem fixups_append (more : List (BitVec w)) :
    fixups order n place m (addresses ++ more) =
      fixups order n place (fixups order n place m addresses) more :=
  List.foldl_append

theorem wordAt_fixup (hw : w = 8 * n) :
    (fixup order n place m address).wordAt order n address =
      place (m.wordAt order n address) :=
  wordAt_setWord hw

/-- Bytes outside the words stay. -/
theorem fixups_of_not_within (hw : w = 8 * n)
    (h : ∀ address ∈ addresses, ¬ Within address n other) :
    fixups order n place m addresses other = m other := by
  induction addresses generalizing m with
  | nil => rfl
  | cons address addresses ih =>
      rw [fixups_cons, ih fun a ha => h a (List.mem_cons_of_mem _ ha)]
      exact setWord_of_not_within hw (h address List.mem_cons_self)

theorem wordAt_fixups_of_apart (hw : w = 8 * n)
    (h : ∀ address ∈ addresses, Apart n address other) :
    (fixups order n place m addresses).wordAt order n other = m.wordAt order n other :=
  wordAt_congr fun i hi => fixups_of_not_within hw fun address ha => h address ha i hi

theorem wordAt_fixup_of_apart (hw : w = 8 * n) (h : Apart n address other) :
    (fixup order n place m address).wordAt order n other = m.wordAt order n other :=
  wordAt_congr fun i hi => setWord_of_not_within hw (h i hi)

/-- Words that are apart are all replaced by the places of what they held. -/
theorem wordAt_fixups (hw : w = 8 * n) (hapart : addresses.Pairwise (Apart n))
    (h : address ∈ addresses) :
    (fixups order n place m addresses).wordAt order n address =
      place (m.wordAt order n address) := by
  induction addresses generalizing m with
  | nil => cases h
  | cons first addresses ih =>
      rw [List.pairwise_cons] at hapart
      rw [fixups_cons]
      cases h with
      | head =>
          rw [wordAt_fixups_of_apart hw fun other ho => (hapart.1 other ho).symm,
            wordAt_fixup hw]
      | tail _ h =>
          rw [ih hapart.2 h, wordAt_fixup_of_apart hw (hapart.1 address h)]

end Fixups

end WordMemory

end Cenix
