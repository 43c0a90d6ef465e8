import Cenix.Common.Copying
import Mathlib.Tactic.IntervalCases

namespace Cenix.Common

open WordMemory Fields

/-! Blocks of memory are filled from both ends, and with words between them. -/

variable {w : Nat}

section Memset

variable (order : ByteOrder)

/-- The value `c` in all four bytes of a `uint32_t`. -/
def memsetWord (c : BitVec 32) : BitVec 32 :=
  let wc := c &&& 0xFF
  wc ||| ((wc <<< 8) ||| (wc <<< 16) ||| (wc <<< 24))

/-- `for (; n; n--, ws++) { *ws = wc; }` -/
def memsetWords (wc : BitVec 32) : (n : Nat) → (ws : BitVec w) → TracedMemory w → TracedMemory w
  | 0, _, t => t
  | n + 1, ws, t =>
      memsetWords wc n (ws + 4) (t.store ws (numberBytes order 4 wc.toNat))

def memset (m : WordMemory w) (dest : BitVec w) (c : BitVec 32) (n : BitVec w) :
    TracedMemory w :=
  let s := dest
  let byte := c.setWidth 8
  let t := TracedMemory.untouched m
  if n = 0 then t
  else
    let t := (t.store s [byte]).store (s + (n - 1)) [byte]
    if n ≤ 2 then t
    else
      let t := (t.store (s + 1) [byte]).store (s + 2) [byte]
      let t := (t.store (s + (n - 2)) [byte]).store (s + (n - 3)) [byte]
      if n ≤ 6 then t
      else
        let t := (t.store (s + 3) [byte]).store (s + (n - 4)) [byte]
        if n ≤ 8 then t
        else
          let k := (-s) &&& 3
          let s := s + k
          let n := ((n - k) &&& -4) / 4
          memsetWords order (memsetWord c) n.toNat s t

end Memset

/-! The word is the byte four times, in either byte order. -/

section MemsetWord

variable {c : BitVec 32}

theorem getLsbD_memsetWord {j : Nat} (h : j < 32) :
    (memsetWord c).getLsbD j = c.getLsbD (j % 8) := by
  unfold memsetWord
  interval_cases j <;> simp

theorem memsetWord_byte {k : Nat} (h : k < 4) :
    BitVec.ofNat 8 ((memsetWord c).toNat / 2 ^ (8 * k)) = c.setWidth 8 := by
  apply BitVec.eq_of_getLsbD_eq
  intro i hi
  have hsum : (i + 8 * k) % 8 = i := by omega
  have hbit := @getLsbD_memsetWord c (i + 8 * k) (by omega)
  rw [hsum] at hbit
  rw [BitVec.getLsbD_ofNat, Nat.testBit_div_two_pow, BitVec.testBit_toNat, hbit,
    BitVec.getLsbD_setWidth]

theorem numberBytes_memsetWord (order : ByteOrder) (c : BitVec 32) :
    numberBytes order 4 (memsetWord c).toNat = List.replicate 4 (c.setWidth 8) := by
  have hlow : lowBytes 4 (memsetWord c).toNat = List.replicate 4 (c.setWidth 8) := by
    have hbyte : ∀ k < 4, ∀ value, value = (memsetWord c).toNat / 2 ^ (8 * k) →
        BitVec.ofNat 8 value = c.setWidth 8 := by
      rintro k hk value rfl
      exact memsetWord_byte hk
    simp only [lowBytes, Nat.div_div_eq_div_mul]
    rw [hbyte 0 (by decide) _ (Nat.div_one _).symm, hbyte 1 (by decide) _ rfl,
      hbyte 2 (by decide) (_ / (2 ^ 8 * 2 ^ 8)) rfl,
      hbyte 3 (by decide) (_ / (2 ^ 8 * 2 ^ 8 * 2 ^ 8)) rfl]
    rfl
  cases order with
  | little => exact hlow
  | big =>
      rw [numberBytes, hlow, ByteOrder.arrange, List.reverse_replicate]

end MemsetWord

/-! A fill as the set of offsets that have the byte. -/

section Filled

variable {m : WordMemory w} {dest : BitVec w} {byte : BitVec 8} {n : Nat}
  {covered : Nat → Prop} {t : TracedMemory w}

structure Filled (m : WordMemory w) (dest : BitVec w) (byte : BitVec 8) (n : Nat)
    (covered : Nat → Prop) (t : TracedMemory w) : Prop where
  inside : ∀ i < n, covered i → t.memory (dest + BitVec.ofNat w i) = byte
  outside : ∀ a, (∀ i < n, covered i → a ≠ dest + BitVec.ofNat w i) → t.memory a = m a
  sound : t.Sound dest dest n
  silent : t.loads = []

theorem Filled.start (m : WordMemory w) (dest : BitVec w) (byte : BitVec 8) (n : Nat) :
    Filled m dest byte n (fun _ => False) (.untouched m) where
  inside _ _ h := h.elim
  outside _ _ := rfl
  sound := TracedMemory.sound_untouched m
  silent := rfl

/-- A store of `size` bytes at offset `p`. -/
theorem Filled.store (h : Filled m dest byte n covered t) {p size : Nat} (hn : n ≤ 2 ^ w)
    (hle : p + size ≤ n) (haligned : (Access.mk (dest + BitVec.ofNat w p) size).Aligned) :
    Filled m dest byte n (fun i => covered i ∨ p ≤ i ∧ i < p + size)
      (t.store (dest + BitVec.ofNat w p) (List.replicate size byte)) where
  inside i hi hcovered := by
    have hlength : (List.replicate size byte).length ≤ 2 ^ w := by
      rw [List.length_replicate]
      omega
    have hwithin := @within_offset w dest i p size (by omega) (by omega)
    rw [TracedMemory.store_memory]
    by_cases hnew : p ≤ i ∧ i < p + size
    · have hoffset : dest + BitVec.ofNat w i =
          dest + BitVec.ofNat w p + BitVec.ofNat w (i - p) := by
        rw [add_ofNat_add, Nat.add_sub_cancel' hnew.1]
      rw [hoffset, set_add hlength (by rw [List.length_replicate]; omega),
        List.getElem_replicate]
    · rw [set_of_not_within hlength (by rwa [List.length_replicate, hwithin])]
      exact h.inside i hi (hcovered.resolve_right hnew)
  outside a ha := by
    have hlength : (List.replicate size byte).length ≤ 2 ^ w := by
      rw [List.length_replicate]
      omega
    rw [TracedMemory.store_memory, set_of_not_within hlength]
    · exact h.outside a fun i hi hcovered => ha i hi (.inl hcovered)
    · rintro ⟨i, hi, rfl⟩
      rw [List.length_replicate] at hi
      exact ha (p + i) (by omega) (.inr ⟨by omega, by omega⟩) (add_ofNat_add dest p i)
  sound := by
    apply h.sound.store
    rw [List.length_replicate]
    exact ⟨haligned, Access.inside_offset hle⟩
  silent := h.silent

theorem Filled.congr {same : Nat → Prop} (h : Filled m dest byte n covered t)
    (hsame : ∀ i < n, covered i ↔ same i) : Filled m dest byte n same t where
  inside i hi hi' := h.inside i hi ((hsame i hi).mpr hi')
  outside a ha := h.outside a fun i hi hi' => ha i hi ((hsame i hi).mp hi')
  sound := h.sound
  silent := h.silent

/-- A store of one byte, which is aligned anywhere. -/
theorem Filled.storeByte (h : Filled m dest byte n covered t) (hn : n ≤ 2 ^ w) (p : Nat)
    (hlt : p < n) {address : BitVec w} (haddress : address = dest + BitVec.ofNat w p) :
    Filled m dest byte n (fun i => covered i ∨ i = p) (t.store address [byte]) := by
  have hstore := h.store hn hlt (Access.aligned_byte _)
  rw [haddress]
  apply hstore.congr
  intro i _
  rw [Nat.lt_succ_iff, and_comm, ← Nat.le_antisymm_iff]

theorem Filled.words (h : Filled m dest byte n covered t) (hw : 2 < w) (hn : n ≤ 2 ^ w)
    {order : ByteOrder} {wc : BitVec 32}
    (hword : numberBytes order 4 wc.toNat = List.replicate 4 byte) {count p : Nat}
    (hle : p + 4 * count ≤ n) (haligned : (dest + BitVec.ofNat w p).toNat % 4 = 0) :
    Filled m dest byte n (fun i => covered i ∨ p ≤ i ∧ i < p + 4 * count)
      (memsetWords order wc count (dest + BitVec.ofNat w p) t) := by
  induction count generalizing p covered t with
  | zero =>
      apply h.congr
      intro i _
      exact (or_iff_left (by omega)).symm
  | succ count ih =>
      have hnext : dest + BitVec.ofNat w p + 4 = dest + BitVec.ofNat w (p + 4) :=
        add_ofNat_add dest p 4
      have hstored := h.store hn (by omega) haligned
      rw [← hword] at hstored
      rw [memsetWords, hnext]
      apply (ih hstored (by omega) _).congr
      · intro i _
        rw [or_assoc]
        exact or_congr_right (by omega)
      · have hfour : (4 : BitVec w).toNat = 4 := toNat_wsize hw
        rw [← hnext, toNat_add_mod hw, Nat.add_mod, haligned, hfour]

theorem Filled.complete (h : Filled m dest byte n covered t) (hall : ∀ i < n, covered i) :
    Filled m dest byte n (fun _ => True) t :=
  h.congr fun i hi => iff_true_intro (hall i hi)

theorem Filled.all (h : Filled m dest byte n covered t) (hn : n ≤ 2 ^ w)
    (hall : ∀ i < n, covered i) : t.memory = m.set dest (List.replicate n byte) := by
  have hlength : (List.replicate n byte).length ≤ 2 ^ w := by rwa [List.length_replicate]
  funext a
  by_cases hwithin : Within dest n a
  · obtain ⟨i, hi, rfl⟩ := hwithin
    rw [h.inside i hi (hall i hi), set_add hlength (by rwa [List.length_replicate]),
      List.getElem_replicate]
  · rw [set_of_not_within hlength (by rwa [List.length_replicate])]
    apply h.outside
    rintro i hi _ rfl
    exact hwithin ⟨i, hi, rfl⟩

end Filled

/-! The stores at both ends leave whole words between them. -/

section Exact

variable {dest n : BitVec w}

theorem toNat_small (hw : 3 < w) {k : Nat} (hk : k < 16) : (BitVec.ofNat w k).toNat = k := by
  have hpow : 2 ^ 4 ≤ 2 ^ w := Nat.pow_le_pow_right (by decide) hw
  rw [BitVec.toNat_ofNat, Nat.mod_eq_of_lt (by omega)]

/-- `s[n - k]` -/
theorem add_sub_small (hw : 3 < w) {k : Nat} (hk : k < 16) (hle : k ≤ n.toNat) :
    dest + (n - BitVec.ofNat w k) = dest + BitVec.ofNat w (n.toNat - k) := by
  congr 1
  apply BitVec.eq_of_toNat_eq
  rw [BitVec.toNat_sub_of_le (by rwa [BitVec.le_def, toNat_small hw hk]), toNat_small hw hk,
    BitVec.toNat_ofNat, Nat.mod_eq_of_lt (by omega)]

theorem neg_four (hw : 3 < w) : (-4 : BitVec w) = ~~~(3 : BitVec w) := by
  have hfour := @toNat_small w hw 4 (by decide)
  have hone := @toNat_small w hw 1 (by decide)
  apply BitVec.not_eq_comm.mp
  apply BitVec.eq_of_toNat_eq
  rw [BitVec.not_neg, BitVec.ofNat_eq_ofNat, BitVec.toNat_sub_of_le, hfour, hone]
  · exact (toNat_small hw (by decide)).symm
  · rw [BitVec.le_def, hfour, hone]
    decide

/-- `n &= (size_t) -4; n /= 4` -/
theorem toNat_and_neg_four (hw : 3 < w) (x : BitVec w) : (x &&& -4).toNat / 4 = x.toNat / 4 := by
  apply Nat.eq_of_testBit_eq
  intro i
  have hthree : (3 : BitVec w).getLsbD (i + 2) = false := by
    rw [← BitVec.testBit_toNat, BitVec.ofNat_eq_ofNat, toNat_small hw (by decide)]
    exact Nat.testBit_lt_two_pow (Nat.lt_of_lt_of_le (by decide)
      (Nat.pow_le_pow_right (by decide) (Nat.le_add_left 2 i)))
  rw [show (4 : Nat) = 2 ^ 2 from rfl, Nat.testBit_div_two_pow, Nat.testBit_div_two_pow,
    BitVec.testBit_toNat, BitVec.testBit_toNat, BitVec.getLsbD_and, neg_four hw,
    BitVec.getLsbD_not, hthree]
  by_cases hi : i + 2 < w
  · simp [hi]
  · simp [BitVec.getLsbD_of_ge x (i + 2) (by omega)]

theorem toNat_wordCount (hw : 3 < w) (x : BitVec w) : ((x &&& -4) / 4).toNat = x.toNat / 4 := by
  have hfour : (4 : BitVec w).toNat = 4 := toNat_small hw (by decide)
  rw [BitVec.toNat_udiv, hfour, toNat_and_neg_four hw]

/-- `k = -(uintptr_t) s & 3` is what is missing to the next word. -/
theorem toNat_alignment (hw : 3 < w) (dest : BitVec w) :
    (-dest &&& 3).toNat = (4 - dest.toNat % 4) % 4 := by
  have hthree : (3 : BitVec w) = wmask := by
    apply BitVec.eq_of_toNat_eq
    rw [toNat_wmask (by omega), BitVec.ofNat_eq_ofNat, toNat_small hw (by decide)]
  have hzero := toNat_add_mod (by omega) dest (-dest)
  rw [BitVec.add_right_neg] at hzero
  rw [hthree, toNat_and_wmask (by omega)]
  rw [BitVec.toNat_zero] at hzero
  omega

theorem memset_filled (order : ByteOrder) (hw : 3 < w) (m : WordMemory w) (dest : BitVec w)
    (c : BitVec 32) (n : BitVec w) :
    Filled m dest (c.setWidth 8) n.toNat (fun _ => True) (memset order m dest c n) := by
  have hn : n.toNat ≤ 2 ^ w := Nat.le_of_lt n.isLt
  have hle : ∀ k < 16, (n ≤ BitVec.ofNat w k ↔ n.toNat ≤ k) := by
    intro k hk
    rw [BitVec.le_def, toNat_small hw hk]
  have hempty := Filled.start m dest (c.setWidth 8) n.toNat
  unfold memset
  simp only [BitVec.ofNat_eq_ofNat, hle 2 (by decide), hle 6 (by decide), hle 8 (by decide)]
  split
  · rename_i hzero
    exact hempty.congr fun i hi => by simp [hzero] at hi
  rename_i hne
  have hpos : 0 < n.toNat :=
    Nat.pos_of_ne_zero fun hzero => hne (BitVec.eq_of_toNat_eq (by simpa using hzero))
  have hends := (hempty.storeByte hn 0 hpos (BitVec.add_zero dest).symm).storeByte hn
    (n.toNat - 1) (by omega) (add_sub_small hw (by decide) hpos)
  split
  · exact hends.complete fun i hi => by omega
  have hfront := (hends.storeByte hn 1 (by omega) rfl).storeByte hn 2 (by omega) rfl
  have hthree := (hfront.storeByte hn (n.toNat - 2) (by omega)
    (add_sub_small hw (by decide) (by omega))).storeByte hn (n.toNat - 3) (by omega)
    (add_sub_small hw (by decide) (by omega))
  split
  · exact hthree.complete fun i hi => by omega
  have hfour := (hthree.storeByte hn 3 (by omega) rfl).storeByte hn (n.toNat - 4) (by omega)
    (add_sub_small hw (by decide) (by omega))
  split
  · exact hfour.complete fun i hi => by omega
  -- the words between reach from the first aligned address to the last three bytes
  have hk := toNat_alignment hw dest
  have hcount : ((n - (-dest &&& 3) &&& -4) / 4).toNat = (n.toNat - (-dest &&& 3).toNat) / 4 := by
    rw [toNat_wordCount hw, BitVec.toNat_sub_of_le (by rw [BitVec.le_def]; omega)]
  have haligned : (dest + BitVec.ofNat w (-dest &&& 3).toNat).toNat % 4 = 0 := by
    rw [← add_eq_offset, toNat_add_mod (by omega), hk]
    omega
  have hwords := hfour.words (by omega) hn (numberBytes_memsetWord order c)
    (show (-dest &&& 3).toNat + 4 * ((n.toNat - (-dest &&& 3).toNat) / 4) ≤ n.toNat by omega)
    haligned
  rw [← add_eq_offset, ← hcount] at hwords
  apply hwords.complete
  intro i hi
  rw [hcount]
  omega

theorem memset_fills (order : ByteOrder) (hw : 3 < w) (m : WordMemory w) (dest : BitVec w)
    (c : BitVec 32) (n : BitVec w) :
    (memset order m dest c n).memory = m.set dest (List.replicate n.toNat (c.setWidth 8)) :=
  (memset_filled order hw m dest c n).all (Nat.le_of_lt n.isLt) fun _ _ => trivial

/-- The region has the byte everywhere and nothing else changes.  Nothing is
read, and every store lies in the region and at a multiple of its size. -/
theorem memset_exact (order : ByteOrder) (hw : 3 < w) (m : WordMemory w) (dest : BitVec w)
    (c : BitVec 32) (n : BitVec w) :
    (∀ i < n.toNat,
        (memset order m dest c n).memory (dest + BitVec.ofNat w i) = c.setWidth 8) ∧
      (∀ a, ¬ Within dest n.toNat a → (memset order m dest c n).memory a = m a) ∧
      (memset order m dest c n).loads = [] ∧
      (∀ a ∈ (memset order m dest c n).stores, a.Aligned ∧ a.Inside dest n.toNat) := by
  have hfilled := memset_filled order hw m dest c n
  refine ⟨fun i hi => hfilled.inside i hi trivial, ?_, hfilled.silent, ?_⟩
  · intro a ha
    apply hfilled.outside
    rintro i hi _ rfl
    exact ha ⟨i, hi, rfl⟩
  · intro a ha
    exact ⟨(hfilled.sound.stores a ha).aligned, (hfilled.sound.stores a ha).inside⟩

theorem memset_exact_words :
    (∀ i < (13 : BitVec 32).toNat, (memset .big ramp 0x1003 0x1FF 13).memory
        (0x1003 + BitVec.ofNat 32 i) = 0xFF) ∧
      (∀ a, ¬ Within 0x1003 (13 : BitVec 32).toNat a →
        (memset .big ramp 0x1003 0x1FF 13).memory a = ramp a) ∧
      (memset .big ramp 0x1003 0x1FF 13).loads = [] ∧
      (∀ a ∈ (memset .big ramp 0x1003 0x1FF 13).stores,
        a.Aligned ∧ a.Inside 0x1003 (13 : BitVec 32).toNat) :=
  memset_exact .big (by decide) ramp 0x1003 0x1FF 13

end Exact

end Cenix.Common
