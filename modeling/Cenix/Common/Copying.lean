import Cenix.TracedMemory

namespace Cenix.Common

open WordMemory

/-! Blocks of memory are copied word by word where the pointers allow it. -/

/-- `sizeof(word)`, a `word` being an `int`. -/
def wsize : Nat := 4

variable {w : Nat}

def wmask : BitVec w :=
  BitVec.ofNat w wsize - 1

section Loops

variable {α : Type}

/-- `do { s; } while (--t)`, which goes around the numbers when `t` is 0. -/
def tLoop1 (s : α → α) (t : BitVec w) (x : α) : α :=
  s^[if t = 0 then 2 ^ w else t.toNat] x

/-- `if (t) do { s; } while (--t)` -/
def tLoop (s : α → α) (t : BitVec w) (x : α) : α :=
  if t = 0 then x else tLoop1 s t x

theorem tLoop1_eq (s : α → α) {t : BitVec w} (h : 0 < t.toNat) (x : α) :
    tLoop1 s t x = s^[t.toNat] x := by
  rw [tLoop1, if_neg]
  rintro rfl
  simp at h

theorem tLoop_eq (s : α → α) (t : BitVec w) (x : α) : tLoop s t x = s^[t.toNat] x := by
  unfold tLoop
  split
  · rename_i hzero
    simp [hzero]
  · rename_i hne
    apply tLoop1_eq
    exact Nat.pos_of_ne_zero fun hzero => hne (BitVec.eq_of_toNat_eq (by simpa using hzero))

end Loops

/-- The memory and the two pointers of a copy that is under way. -/
structure Copying (w : Nat) where
  traced : TracedMemory w
  dst : BitVec w
  src : BitVec w

namespace Copying

/-- `*dst++ = *src++`, for pointers to elements of `size` bytes. -/
def forward (size : Nat) (c : Copying w) : Copying w where
  traced := c.traced.transfer c.dst c.src size
  dst := c.dst + BitVec.ofNat w size
  src := c.src + BitVec.ofNat w size

/-- `*--dst = *--src` -/
def backward (size : Nat) (c : Copying w) : Copying w :=
  let dst := c.dst - BitVec.ofNat w size
  let src := c.src - BitVec.ofNat w size
  { traced := c.traced.transfer dst src size, dst := dst, src := src }

end Copying

/-- How many bytes are copied one by one before the words of a forward copy. -/
def headForward (dst src length : BitVec w) : BitVec w :=
  if (src ^^^ dst) &&& wmask ≠ 0 ∨ length < BitVec.ofNat w wsize then length
  else BitVec.ofNat w wsize - (src &&& wmask)

/-- The same for a backward copy, with the pointers behind the blocks. -/
def headBackward (dst src length : BitVec w) : BitVec w :=
  if (src ^^^ dst) &&& wmask ≠ 0 ∨ length ≤ BitVec.ofNat w wsize then length
  else src &&& wmask

/-- Aligns the pointers, then copies words and then the bytes that are left. -/
def copyLoops (move : Nat → Copying w → Copying w)
    (head : BitVec w → BitVec w → BitVec w → BitVec w) (c : Copying w) (length : BitVec w) :
    Copying w :=
  let t := head c.dst c.src length
  let (c, length) :=
    if (c.src ||| c.dst) &&& wmask = 0 then (c, length)
    else (tLoop1 (move 1) t c, length - t)
  let c := tLoop (move wsize) (length / BitVec.ofNat w wsize) c
  tLoop (move 1) (length &&& wmask) c

def memcpy (m : WordMemory w) (dst src length : BitVec w) : TracedMemory w :=
  if length = 0 ∨ dst = src then
    TracedMemory.untouched m
  else if dst < src then
    (copyLoops Copying.forward headForward ⟨.untouched m, dst, src⟩ length).traced
  else
    (copyLoops Copying.backward headBackward
      ⟨.untouched m, dst + length, src + length⟩ length).traced

def memmove (m : WordMemory w) (s1 s2 n : BitVec w) : TracedMemory w :=
  memcpy m s1 s2 n

/-! The low bits of pointers. -/

section LowBits

variable {x y : BitVec w}

theorem toNat_wsize (hw : 2 < w) : (BitVec.ofNat w wsize).toNat = 4 := by
  have hpow : 2 ^ 3 ≤ 2 ^ w := Nat.pow_le_pow_right (by decide) hw
  rw [BitVec.toNat_ofNat, wsize, Nat.mod_eq_of_lt (by omega)]

theorem toNat_wmask (hw : 2 < w) : (wmask : BitVec w).toNat = 3 := by
  have hone : (1 : BitVec w).toNat = 1 := by
    have hpow : 2 ^ 3 ≤ 2 ^ w := Nat.pow_le_pow_right (by decide) hw
    simp only [BitVec.ofNat_eq_ofNat, BitVec.toNat_ofNat]
    exact Nat.mod_eq_of_lt (by omega)
  have hwsize := toNat_wsize hw
  rw [wmask, BitVec.toNat_sub_of_le (by rw [BitVec.le_def]; omega), hwsize, hone]

theorem toNat_and_wmask (hw : 2 < w) : (x &&& wmask).toNat = x.toNat % 4 := by
  rw [BitVec.toNat_and, toNat_wmask hw]
  exact Nat.and_two_pow_sub_one_eq_mod x.toNat 2

theorem or_and_wmask_eq_zero (hw : 2 < w) :
    (x ||| y) &&& wmask = 0 ↔ x.toNat % 4 = 0 ∧ y.toNat % 4 = 0 := by
  rw [← BitVec.toNat_inj, toNat_and_wmask hw, BitVec.toNat_or]
  rw [show (4 : Nat) = 2 ^ 2 from rfl, Nat.or_mod_two_pow]
  simp

theorem xor_and_wmask_eq_zero (hw : 2 < w) :
    (x ^^^ y) &&& wmask = 0 ↔ x.toNat % 4 = y.toNat % 4 := by
  have hdistrib : (x ^^^ y) &&& wmask = (x &&& wmask) ^^^ (y &&& wmask) := by
    ext i hi
    simp only [BitVec.getElem_and, BitVec.getElem_xor]
    exact Bool.and_xor_distrib_right _ _ _
  rw [hdistrib, BitVec.ofNat_eq_ofNat, BitVec.xor_eq_zero_iff, ← BitVec.toNat_inj,
    toNat_and_wmask hw, toNat_and_wmask hw]

end LowBits

/-! A copy as a number of bytes that are done. -/

section Progress

/-- What holds of a copy of `n` bytes once `i` of them are done, and the
positions where both pointers are aligned. -/
structure Progress (move : Nat → Copying w → Copying w) (n : Nat)
    (done : Nat → Copying w → Prop) (aligned : Nat → Prop) : Prop where
  byte : ∀ {i c}, done i c → i + 1 ≤ n → done (i + 1) (move 1 c)
  word : ∀ {i c}, done i c → aligned i → i + wsize ≤ n → done (i + wsize) (move wsize c)
  next : ∀ {i}, aligned i → i + wsize ≤ n → aligned (i + wsize)

variable {move : Nat → Copying w → Copying w} {n : Nat} {done : Nat → Copying w → Prop}
  {aligned : Nat → Prop} {c : Copying w} {i : Nat}

theorem Progress.bytes (h : Progress move n done aligned) (count : Nat) (hdone : done i c)
    (hle : i + count ≤ n) : done (i + count) ((move 1)^[count] c) := by
  induction count with
  | zero => exact hdone
  | succ count ih =>
      rw [Function.iterate_succ_apply']
      exact h.byte (ih (by omega)) (by omega)

theorem Progress.words (h : Progress move n done aligned) (count : Nat) (hdone : done i c)
    (haligned : aligned i) (hle : i + wsize * count ≤ n) :
    done (i + wsize * count) ((move wsize)^[count] c) ∧ aligned (i + wsize * count) := by
  induction count with
  | zero => exact ⟨hdone, haligned⟩
  | succ count ih =>
      rw [Nat.mul_succ, ← Nat.add_assoc] at hle ⊢
      have hbefore := ih (by omega)
      rw [Function.iterate_succ_apply']
      exact ⟨h.word hbefore.1 hbefore.2 hle, h.next hbefore.2 hle⟩

/-- The loops do all the bytes, if the bytes before the words align the pointers
or are all that there are. -/
theorem Progress.copyLoops (h : Progress move n done aligned) (hw : 2 < w)
    {head : BitVec w → BitVec w → BitVec w → BitVec w} {length : BitVec w}
    (hlength : length.toNat = n) (hstart : done 0 c)
    (halready : c.src.toNat % 4 = 0 → c.dst.toNat % 4 = 0 → aligned 0)
    (hpos : ¬ (c.src.toNat % 4 = 0 ∧ c.dst.toNat % 4 = 0) →
      0 < (head c.dst c.src length).toNat)
    (hle : (head c.dst c.src length).toNat ≤ n)
    (hhead : ¬ (c.src.toNat % 4 = 0 ∧ c.dst.toNat % 4 = 0) →
      (head c.dst c.src length).toNat = n ∨ aligned (head c.dst c.src length).toNat) :
    done n (copyLoops move head c length) := by
  -- what is left after the head, as words and the bytes behind them
  have hrest : ∀ {i : Nat} {c : Copying w} {left : BitVec w}, done i c →
      left.toNat = n - i → i ≤ n → (i = n ∨ aligned i) →
      done n (tLoop (move 1) (left &&& wmask)
        (tLoop (move wsize) (left / BitVec.ofNat w wsize) c)) := by
    intro i c left hdone hleft hi hor
    rw [tLoop_eq, tLoop_eq, BitVec.toNat_udiv, toNat_wsize hw, toNat_and_wmask hw, hleft]
    cases hor with
    | inl hall =>
        rw [hall]
        simpa [hall] using hdone
    | inr haligned =>
        have hwords := h.words ((n - i) / 4) hdone haligned
          (by rw [wsize]; omega)
        have hbytes := h.bytes ((n - i) % 4) hwords.1 (by rw [wsize]; omega)
        rwa [show i + wsize * ((n - i) / 4) + (n - i) % 4 = n by rw [wsize]; omega] at hbytes
  unfold Common.copyLoops
  by_cases hlow : (c.src ||| c.dst) &&& wmask = 0
  · simp only [hlow, if_true]
    have hboth := (or_and_wmask_eq_zero hw).mp hlow
    exact hrest hstart (by simpa using hlength) (Nat.zero_le n)
      (.inr (halready hboth.1 hboth.2))
  · simp only [hlow, if_false]
    rw [or_and_wmask_eq_zero hw] at hlow
    have hhead' := h.bytes (head c.dst c.src length).toNat hstart (by omega)
    rw [Nat.zero_add] at hhead'
    rw [tLoop1_eq _ (hpos hlow)]
    refine hrest hhead' ?_ hle (hhead hlow)
    rw [BitVec.toNat_sub_of_le (by rw [BitVec.le_def]; omega), hlength]

end Progress

/-! The two directions. -/

section Directions

variable {m : WordMemory w} {dst src : BitVec w} {n i : Nat} {c : Copying w}

/-- Both pointers at offset `i` are aligned. -/
def AlignedAt (dst src : BitVec w) (size i : Nat) : Prop :=
  (dst.toNat + i) % size = 0 ∧ (src.toNat + i) % size = 0

theorem sound_access {start : BitVec w} {size : Nat} (hpos : 0 < size)
    (haligned : (start.toNat + i) % size = 0) (hle : i + size ≤ n)
    (hfits : start.toNat + n ≤ 2 ^ w) :
    (Access.mk (start + BitVec.ofNat w i) size).Sound start n where
  aligned := by rwa [Access.Aligned, toNat_add_ofNat (by omega)]
  inside := Access.inside_offset hle

/-- The first `i` bytes are copied. -/
structure Forward (m : WordMemory w) (dst src : BitVec w) (n i : Nat) (c : Copying w) :
    Prop where
  dst_eq : c.dst = dst + BitVec.ofNat w i
  src_eq : c.src = src + BitVec.ofNat w i
  memory : c.traced.memory = m.set dst (m.bytesAt src i)
  sound : c.traced.Sound dst src n

theorem Forward.start (m : WordMemory w) (dst src : BitVec w) (n : Nat) :
    Forward m dst src n 0 ⟨.untouched m, dst, src⟩ where
  dst_eq := by simp
  src_eq := by simp
  memory := by
    funext a
    simp [TracedMemory.untouched, bytesAt, WordMemory.set]
  sound := TracedMemory.sound_untouched m

/-- Bytes that are still to be copied lie above those that were written. -/
theorem Forward.move (h : Forward m dst src n i c) (hbefore : dst.toNat < src.toNat)
    (hfits : src.toNat + n ≤ 2 ^ w) {size : Nat} (hpos : 0 < size) (hle : i + size ≤ n)
    (haligned : AlignedAt dst src size i) :
    Forward m dst src n (i + size) (c.forward size) where
  dst_eq := by rw [Copying.forward, h.dst_eq, add_ofNat_add]
  src_eq := by rw [Copying.forward, h.src_eq, add_ofNat_add]
  memory := by
    have hunread : ∀ j < size, ¬ Within dst (m.bytesAt src i).length
        (src + BitVec.ofNat w i + BitVec.ofNat w j) := by
      rintro j hj ⟨k, hk, heq⟩
      rw [length_bytesAt] at hk
      rw [add_ofNat_add, ← BitVec.toNat_inj, toNat_add_ofNat (by omega),
        toNat_add_ofNat (by omega)] at heq
      omega
    have hlength : (m.bytesAt src i).length ≤ 2 ^ w := by
      rw [length_bytesAt]
      omega
    rw [Copying.forward, TracedMemory.transfer_memory, h.memory, h.dst_eq, h.src_eq,
      bytesAt_set_of_apart hlength hunread, bytesAt_add, ← set_append, length_bytesAt]
    rw [List.length_append, length_bytesAt, length_bytesAt]
    omega
  sound := by
    rw [Copying.forward, h.dst_eq, h.src_eq]
    exact h.sound.transfer (sound_access hpos haligned.2 hle hfits)
      (sound_access hpos haligned.1 hle (by omega))

theorem forward_progress (hbefore : dst.toNat < src.toNat) (hfits : src.toNat + n ≤ 2 ^ w) :
    Progress Copying.forward n (Forward m dst src n) (AlignedAt dst src wsize) where
  byte h hle := h.move hbefore hfits Nat.one_pos hle ⟨Nat.mod_one _, Nat.mod_one _⟩
  word h haligned hle := h.move hbefore hfits (by decide) hle haligned
  next h _ := by
    rw [AlignedAt, ← Nat.add_assoc, ← Nat.add_assoc, Nat.add_mod_right, Nat.add_mod_right]
    exact h

/-- The last `i` bytes are copied. -/
structure Backward (m : WordMemory w) (dst src : BitVec w) (n i : Nat) (c : Copying w) :
    Prop where
  dst_eq : c.dst = dst + BitVec.ofNat w (n - i)
  src_eq : c.src = src + BitVec.ofNat w (n - i)
  memory : c.traced.memory =
    m.set (dst + BitVec.ofNat w (n - i)) (m.bytesAt (src + BitVec.ofNat w (n - i)) i)
  sound : c.traced.Sound dst src n

theorem Backward.start (m : WordMemory w) (dst src length : BitVec w) :
    Backward m dst src length.toNat 0 ⟨.untouched m, dst + length, src + length⟩ where
  dst_eq := by simp
  src_eq := by simp
  memory := by
    funext a
    simp [TracedMemory.untouched, bytesAt, WordMemory.set]
  sound := TracedMemory.sound_untouched m

theorem sub_ofNat {start : BitVec w} {size : Nat} (hle : size ≤ i) :
    start + BitVec.ofNat w i - BitVec.ofNat w size = start + BitVec.ofNat w (i - size) := by
  have hsplit : BitVec.ofNat w i = BitVec.ofNat w (i - size) + BitVec.ofNat w size := by
    rw [← BitVec.ofNat_add, Nat.sub_add_cancel hle]
  rw [hsplit, ← BitVec.add_assoc, BitVec.add_sub_cancel]

theorem Backward.move (h : Backward m dst src n i c) (hafter : src.toNat < dst.toNat)
    (hfits : dst.toNat + n ≤ 2 ^ w) {size : Nat} (hpos : 0 < size) (hle : i + size ≤ n)
    (haligned : AlignedAt dst src size (n - (i + size))) :
    Backward m dst src n (i + size) (c.backward size) := by
  have hoffset : n - i - size = n - (i + size) := Nat.sub_sub n i size
  have hdst : c.dst - BitVec.ofNat w size = dst + BitVec.ofNat w (n - (i + size)) := by
    rw [h.dst_eq, sub_ofNat (by omega), hoffset]
  have hsrc : c.src - BitVec.ofNat w size = src + BitVec.ofNat w (n - (i + size)) := by
    rw [h.src_eq, sub_ofNat (by omega), hoffset]
  have hnext : ∀ start : BitVec w, start + BitVec.ofNat w (n - i) =
      start + BitVec.ofNat w (n - (i + size)) + BitVec.ofNat w size := by
    intro start
    rw [add_ofNat_add]
    congr 2
    omega
  constructor
  · exact hdst
  · exact hsrc
  · have hunread : ∀ j < size, ¬ Within (dst + BitVec.ofNat w (n - i))
        (m.bytesAt (src + BitVec.ofNat w (n - i)) i).length
        (src + BitVec.ofNat w (n - (i + size)) + BitVec.ofNat w j) := by
      rintro j hj ⟨k, hk, heq⟩
      rw [length_bytesAt] at hk
      rw [add_ofNat_add, add_ofNat_add, ← BitVec.toNat_inj, toNat_add_ofNat (by omega),
        toNat_add_ofNat (by omega)] at heq
      omega
    have hlength : (m.bytesAt (src + BitVec.ofNat w (n - i)) i).length ≤ 2 ^ w := by
      rw [length_bytesAt]
      omega
    unfold Copying.backward
    rw [TracedMemory.transfer_memory, h.memory, hdst, hsrc,
      bytesAt_set_of_apart hlength hunread, Nat.add_comm i size, bytesAt_add,
      Nat.add_comm size i, ← hnext src, ← set_prepend, length_bytesAt, ← hnext dst]
    rw [List.length_append, length_bytesAt, length_bytesAt]
    omega
  · unfold Copying.backward
    rw [hdst, hsrc]
    exact h.sound.transfer (sound_access hpos haligned.2 (by omega) (by omega))
      (sound_access hpos haligned.1 (by omega) hfits)

theorem alignedAt_back (h : AlignedAt dst src wsize (n - i)) (hle : i + wsize ≤ n) :
    AlignedAt dst src wsize (n - (i + wsize)) := by
  unfold AlignedAt wsize at h ⊢
  rw [wsize] at hle
  omega

theorem backward_progress (hafter : src.toNat < dst.toNat) (hfits : dst.toNat + n ≤ 2 ^ w) :
    Progress Copying.backward n (Backward m dst src n)
      (fun i => AlignedAt dst src wsize (n - i)) where
  byte h hle := h.move hafter hfits Nat.one_pos hle ⟨Nat.mod_one _, Nat.mod_one _⟩
  word h haligned hle := h.move hafter hfits (by decide) hle (alignedAt_back haligned hle)
  next := alignedAt_back

end Directions

/-! Both directions copy the block as it was, and only with aligned accesses. -/

section Memcpy

variable {m : WordMemory w} {dst src length : BitVec w}

/-- The low bits do not notice that addresses go around. -/
theorem toNat_add_mod (hw : 2 < w) (x y : BitVec w) :
    (x + y).toNat % 4 = (x.toNat + y.toNat) % 4 := by
  have hdvd : 4 ∣ 2 ^ w := Nat.pow_dvd_pow 2 (Nat.le_of_lt hw)
  rw [BitVec.toNat_add, Nat.mod_mod_of_dvd _ hdvd]

theorem headForward_cases (hw : 2 < w) (dst src length : BitVec w) :
    headForward dst src length = length ∨
      src.toNat % 4 = dst.toNat % 4 ∧ 4 ≤ length.toNat ∧
        (headForward dst src length).toNat = 4 - src.toNat % 4 := by
  unfold headForward
  split
  · exact .inl rfl
  · rename_i hcond
    rw [not_or, not_not, xor_and_wmask_eq_zero hw, BitVec.lt_def, toNat_wsize hw] at hcond
    refine .inr ⟨hcond.1, by omega, ?_⟩
    rw [BitVec.toNat_sub_of_le, toNat_wsize hw, toNat_and_wmask hw]
    rw [BitVec.le_def, toNat_wsize hw, toNat_and_wmask hw]
    omega

theorem headBackward_cases (hw : 2 < w) (dst src length : BitVec w) :
    headBackward dst src length = length ∨
      src.toNat % 4 = dst.toNat % 4 ∧ 4 < length.toNat ∧
        (headBackward dst src length).toNat = src.toNat % 4 := by
  unfold headBackward
  split
  · exact .inl rfl
  · rename_i hcond
    rw [not_or, not_not, xor_and_wmask_eq_zero hw, BitVec.le_def, toNat_wsize hw] at hcond
    exact .inr ⟨hcond.1, by omega, toNat_and_wmask hw⟩

theorem copyLoops_forward (hw : 2 < w) (hpos : 0 < length.toNat)
    (hbefore : dst.toNat < src.toNat) (hfits : src.toNat + length.toNat ≤ 2 ^ w) :
    Forward m dst src length.toNat length.toNat
      (copyLoops Copying.forward headForward ⟨.untouched m, dst, src⟩ length) := by
  have hcases := headForward_cases hw dst src length
  apply (forward_progress hbefore hfits).copyLoops hw rfl (Forward.start m dst src _)
  · intro hsrc hdst
    exact ⟨hdst, hsrc⟩
  · intro _
    rcases hcases with hall | ⟨_, _, hhead⟩
    · rwa [hall]
    · rw [hhead]
      omega
  · rcases hcases with hall | ⟨_, _, hhead⟩
    · rw [hall]
    · rw [hhead]
      omega
  · intro _
    rcases hcases with hall | ⟨hsame, _, hhead⟩
    · exact .inl (congrArg BitVec.toNat hall)
    · refine .inr ?_
      rw [hhead]
      constructor <;> unfold wsize <;> omega

theorem copyLoops_backward (hw : 2 < w) (hpos : 0 < length.toNat)
    (hafter : src.toNat < dst.toNat) (hfits : dst.toNat + length.toNat ≤ 2 ^ w) :
    Backward m dst src length.toNat length.toNat
      (copyLoops Copying.backward headBackward
        ⟨.untouched m, dst + length, src + length⟩ length) := by
  have hcases := headBackward_cases hw (dst + length) (src + length) length
  have hsrc := toNat_add_mod hw src length
  have hdst := toNat_add_mod hw dst length
  apply (backward_progress hafter hfits).copyLoops hw rfl (Backward.start m dst src length)
  · intro hs hd
    exact ⟨hdst.symm.trans hd, hsrc.symm.trans hs⟩
  · intro hlow
    rcases hcases with hall | ⟨hsame, _, hhead⟩
    · rwa [hall]
    · simp only at hlow
      rw [hhead]
      omega
  · rcases hcases with hall | ⟨_, _, hhead⟩
    · rw [hall]
    · rw [hhead]
      omega
  · intro _
    rcases hcases with hall | ⟨hsame, _, hhead⟩
    · exact .inl (congrArg BitVec.toNat hall)
    · refine .inr ?_
      rw [hhead]
      constructor <;> unfold wsize <;> omega

theorem memcpy_moves (hw : 2 < w) (m : WordMemory w) (dst src length : BitVec w)
    (hdst : dst.toNat + length.toNat ≤ 2 ^ w) (hsrc : src.toNat + length.toNat ≤ 2 ^ w) :
    (memcpy m dst src length).memory = m.set dst (m.bytesAt src length.toNat) ∧
      (memcpy m dst src length).Sound dst src length.toNat := by
  unfold memcpy
  split
  · rename_i hnothing
    refine ⟨?_, TracedMemory.sound_untouched m⟩
    rcases hnothing with hzero | rfl
    · rw [hzero]
      exact (set_bytesAt_self (Nat.zero_le _)).symm
    · exact (set_bytesAt_self (by omega)).symm
  · rename_i hsomething
    rw [not_or] at hsomething
    have hpos : 0 < length.toNat :=
      Nat.pos_of_ne_zero fun hzero => hsomething.1 (BitVec.eq_of_toNat_eq (by simpa using hzero))
    split
    · rename_i hbefore
      have hdone := @copyLoops_forward w m dst src length hw hpos (BitVec.lt_def.mp hbefore) hsrc
      exact ⟨hdone.memory, hdone.sound⟩
    · rename_i hafter
      have hne : src.toNat ≠ dst.toNat := fun heq =>
        hsomething.2 (BitVec.eq_of_toNat_eq heq.symm)
      rw [BitVec.lt_def] at hafter
      have hdone := @copyLoops_backward w m dst src length hw hpos (by omega) hdst
      refine ⟨?_, hdone.sound⟩
      simpa using hdone.memory

/-- A block is copied as it was before, however the two places overlap, and no
other byte changes.  The loops read only the source and write only the
destination, and every access is at a multiple of its size. -/
theorem memcpy_exact (hw : 2 < w) (m : WordMemory w) (dst src length : BitVec w)
    (hdst : dst.toNat + length.toNat ≤ 2 ^ w) (hsrc : src.toNat + length.toNat ≤ 2 ^ w) :
    (∀ i < length.toNat, (memcpy m dst src length).memory (dst + BitVec.ofNat w i) =
        m (src + BitVec.ofNat w i)) ∧
      (∀ a, ¬ Within dst length.toNat a → (memcpy m dst src length).memory a = m a) ∧
      (∀ a ∈ (memcpy m dst src length).loads, a.Aligned ∧ a.Inside src length.toNat) ∧
      (∀ a ∈ (memcpy m dst src length).stores, a.Aligned ∧ a.Inside dst length.toNat) := by
  obtain ⟨hmemory, hsound⟩ := memcpy_moves hw m dst src length hdst hsrc
  have hlength : (m.bytesAt src length.toNat).length ≤ 2 ^ w := by
    rw [length_bytesAt]
    omega
  refine ⟨?_, ?_, ?_, ?_⟩
  · intro i hi
    rw [hmemory, set_add hlength (by rwa [length_bytesAt])]
    simp [bytesAt]
  · intro a ha
    rw [hmemory, set_of_not_within hlength (by rwa [length_bytesAt])]
  · intro a ha
    exact ⟨(hsound.loads a ha).aligned, (hsound.loads a ha).inside⟩
  · intro a ha
    exact ⟨(hsound.stores a ha).aligned, (hsound.stores a ha).inside⟩

/-- Memory in which neighbouring bytes differ. -/
def ramp : WordMemory 32 :=
  fun a => a.setWidth 8

theorem memcpy_exact_overlapping :
    (∀ i < (9 : BitVec 32).toNat, (memcpy ramp 0x1005 0x1001 9).memory
        (0x1005 + BitVec.ofNat 32 i) = ramp (0x1001 + BitVec.ofNat 32 i)) ∧
      (∀ a, ¬ Within 0x1005 (9 : BitVec 32).toNat a →
        (memcpy ramp 0x1005 0x1001 9).memory a = ramp a) ∧
      (∀ a ∈ (memcpy ramp 0x1005 0x1001 9).loads,
        a.Aligned ∧ a.Inside 0x1001 (9 : BitVec 32).toNat) ∧
      (∀ a ∈ (memcpy ramp 0x1005 0x1001 9).stores,
        a.Aligned ∧ a.Inside 0x1005 (9 : BitVec 32).toNat) :=
  memcpy_exact (by decide) ramp 0x1005 0x1001 9 (by decide) (by decide)

end Memcpy

end Cenix.Common
