import Cenix.Console.Video
import Mathlib.Tactic.IntervalCases

namespace Cenix.Console

open WordMemory Fields Common

/-! Characters as the bits that they change. -/

variable {w : Nat}

/-- Bit `i` of the memory from `base` on, the most significant bit of a byte first. -/
def bitAt (m : WordMemory w) (base : BitVec w) (i : Nat) : Bool :=
  (m (base + BitVec.ofNat w (i / 8))).getMsbD (i % 8)

/-- The pixels of one row of a character, `depth` bits each, are drawn from bit
`start` on, and no other bit of memory changes. -/
def DrawsRow (base : BitVec w) (depth start : Nat) (data : BitVec 8) (m m' : WordMemory w) :
    Prop :=
  ∀ i < 8 * 2 ^ w, bitAt m' base i =
    if start ≤ i ∧ i < start + fontWidth * depth then !data.getMsbD ((i - start) / depth)
    else bitAt m base i

section Bytes

variable {base : BitVec w} {m m' : WordMemory w} {p q : Nat} {byte : BitVec 8}

theorem setByte_offset (hp : p < 2 ^ w) (hq : q < 2 ^ w) :
    setByte m (base + BitVec.ofNat w p) byte (base + BitVec.ofNat w q) =
      if q = p then byte else m (base + BitVec.ofNat w q) := by
  rw [setByte, Function.update_apply]
  apply if_congr _ rfl rfl
  rw [BitVec.add_right_inj]
  exact ⟨ofNat_inj_of_lt hq hp, congrArg (BitVec.ofNat w)⟩

/-- What the bits of the bytes from `p` on become, those of a row starting `first`
bits behind `p`. -/
theorem DrawsRow.of_bytes {depth first : Nat} {data : BitVec 8}
    (hbytes : ∀ d, 8 * d < first + fontWidth * depth → ∀ k < 8,
      (m' (base + BitVec.ofNat w (p + d))).getMsbD k =
        if first ≤ 8 * d + k ∧ 8 * d + k < first + fontWidth * depth then
          !data.getMsbD ((8 * d + k - first) / depth)
        else (m (base + BitVec.ofNat w (p + d))).getMsbD k)
    (hframe : ∀ q < 2 ^ w, (∀ d, 8 * d < first + fontWidth * depth → q ≠ p + d) →
      m' (base + BitVec.ofNat w q) = m (base + BitVec.ofNat w q)) :
    DrawsRow base depth (8 * p + first) data m m' := by
  intro i hi
  unfold bitAt
  by_cases hwithin : p ≤ i / 8 ∧ 8 * (i / 8 - p) < first + fontWidth * depth
  · have hbyte := hbytes (i / 8 - p) hwithin.2 (i % 8) (Nat.mod_lt i (by decide))
    rw [Nat.add_sub_cancel' hwithin.1] at hbyte
    have hbit : 8 * (i / 8 - p) + i % 8 = i - 8 * p := by omega
    rw [hbyte, hbit]
    have hrest : i - 8 * p - first = i - (8 * p + first) := Nat.sub_sub i _ _
    rw [hrest]
    apply if_congr _ rfl rfl
    omega
  · rw [hframe (i / 8) (by omega) (fun d hd heq => by omega), if_neg (by omega)]

end Bytes

/-! Depths at which characters share bytes. -/

section SharedBytes

variable {base : BitVec w} {m : WordMemory w} {p : Nat}

theorem setByte_behind {m : WordMemory w} {d e : Nat} (hd : p + d < 2 ^ w)
    (he : p + e < 2 ^ w) (byte : BitVec 8) :
    setByte m (base + BitVec.ofNat w (p + d)) byte (base + BitVec.ofNat w (p + e)) =
      if e = d then byte else m (base + BitVec.ofNat w (p + e)) := by
  rw [setByte_offset hd he]
  exact if_congr (by omega) rfl rfl

theorem setByte_frame {m : WordMemory w} {q d : Nat} {byte : BitVec 8} (hd : p + d < 2 ^ w)
    (hq : q < 2 ^ w) (hne : q ≠ p + d) :
    setByte m (base + BitVec.ofNat w (p + d)) byte (base + BitVec.ofNat w q) =
      m (base + BitVec.ofNat w q) := by
  rw [setByte_offset hd hq, if_neg hne]

theorem ofNat_behind (base : BitVec w) (p : Nat) :
    base + BitVec.ofNat w p = base + BitVec.ofNat w (p + 0) ∧
      base + BitVec.ofNat w p + 1 = base + BitVec.ofNat w (p + 1) ∧
      base + BitVec.ofNat w p + 2 = base + BitVec.ofNat w (p + 2) :=
  ⟨rfl, add_ofNat_add base p 1, add_ofNat_add base p 2⟩

theorem monoRow_draws {r : Nat} (hr : r < 4) (hp : 8 * p + 6 * r + 6 ≤ 8 * 2 ^ w)
    (data : BitVec 8) :
    DrawsRow base 1 (8 * p + 6 * r) data m (monoRow r m (base + BitVec.ofNat w p) data) := by
  obtain ⟨hzero, hone, htwo⟩ := ofNat_behind base p
  unfold monoRow
  rw [hone, htwo, hzero]
  apply DrawsRow.of_bytes
  · -- by the bytes of a group of four characters, then by the bits of a byte
    intro d hd k hk
    rw [fontWidth] at hd ⊢
    have hbytes : d < 3 := by omega
    interval_cases r <;> interval_cases d <;>
      simp (disch := omega) only [setByte_behind, ↓reduceIte] <;>
      interval_cases k <;> simp [BitVec.getMsbD_eq_getLsbD, shl, shr]
  · intro q hq hne
    rw [fontWidth] at hne
    interval_cases r <;>
      simp (disch := first | omega | exact hne _ (by omega)) only [setByte_frame]

theorem colorRow2bpp_draws {r : Nat} (hr : r < 2) (hp : 8 * p + 12 * r + 12 ≤ 8 * 2 ^ w)
    (data : BitVec 8) :
    DrawsRow base 2 (8 * p + 12 * r) data m
      (colorRow2bpp r m (base + BitVec.ofNat w p) data) := by
  obtain ⟨hzero, hone, htwo⟩ := ofNat_behind base p
  unfold colorRow2bpp
  rw [hone, htwo, hzero]
  apply DrawsRow.of_bytes
  · intro d hd k hk
    rw [fontWidth] at hd ⊢
    have hbytes : d < 3 := by omega
    interval_cases r <;> interval_cases d <;>
      simp (disch := omega) only [setByte_behind, ↓reduceIte] <;>
      interval_cases k <;> simp [BitVec.getMsbD_eq_getLsbD, shl, shr]
  · intro q hq hne
    rw [fontWidth] at hne
    interval_cases r <;>
      simp (disch := first | omega | exact hne _ (by omega)) only [setByte_frame]

/-- Two pixels in one byte. -/
theorem getMsbD_nibbles (high low : Bool) {k : Nat} (hk : k < 8) :
    ((if high then (0x00 : BitVec 8) else 0xf0) ||| (if low then 0x00 else 0x0f)).getMsbD k =
      !(if k < 4 then high else low) := by
  interval_cases k <;> cases high <;> cases low <;> rfl

theorem colorRow4bpp_draws (hp : 8 * p + 24 ≤ 8 * 2 ^ w) (data : BitVec 8) :
    DrawsRow base 4 (8 * p + 0) data m (colorRow4bpp m (base + BitVec.ofNat w p) data) := by
  have hrange : List.range 3 = [0, 1, 2] := rfl
  unfold colorRow4bpp
  simp only [hrange, List.foldl_cons, List.foldl_nil, add_ofNat_add]
  apply DrawsRow.of_bytes
  · intro d hd k hk
    rw [fontWidth] at hd ⊢
    have hbytes : d < 3 := by omega
    rw [if_pos (show 0 ≤ 8 * d + k ∧ 8 * d + k < 0 + 6 * 4 by omega)]
    interval_cases d <;>
      simp (disch := omega) only [setByte_behind, Nat.reduceEqDiff, ↓reduceIte,
        getMsbD_nibbles _ _ hk] <;>
      interval_cases k <;> simp [BitVec.getMsbD_eq_getLsbD]
  · intro q hq hne
    rw [fontWidth] at hne
    simp (disch := first | omega | exact hne _ (by omega)) only [setByte_frame]

end SharedBytes

/-! Depths at which a pixel is a number of bytes. -/

section WholeBytes

variable {base : BitVec w} {m : WordMemory w} {p size : Nat} {blocks : Nat → List (BitVec 8)}

def setBlocks (m : WordMemory w) (dest : BitVec w) (size : Nat) (blocks : Nat → List (BitVec 8))
    (n : Nat) : WordMemory w :=
  (List.range n).foldl (fun m i => m.set (dest + BitVec.ofNat w (i * size)) (blocks i)) m

theorem setBlocks_succ (n : Nat) (dest : BitVec w) :
    setBlocks m dest size blocks (n + 1) =
      (setBlocks m dest size blocks n).set (dest + BitVec.ofNat w (n * size)) (blocks n) := by
  rw [setBlocks, List.range_succ, List.foldl_append]
  rfl

theorem setBlocks_byte (hlength : ∀ i, (blocks i).length = size) {n d : Nat}
    (hfits : p + n * size ≤ 2 ^ w) (hd : d < n * size) :
    setBlocks m (base + BitVec.ofNat w p) size blocks n (base + BitVec.ofNat w (p + d)) =
      (blocks (d / size)).getD (d % size) 0 := by
  induction n with
  | zero => omega
  | succ n ih =>
      rw [Nat.succ_mul] at hfits hd
      have hwidth : (blocks n).length ≤ 2 ^ w := by
        rw [hlength]
        omega
      rw [setBlocks_succ, add_ofNat_add]
      by_cases hlast : n * size ≤ d
      · have hoffset : base + BitVec.ofNat w (p + d) =
            base + BitVec.ofNat w (p + n * size) + BitVec.ofNat w (d - n * size) := by
          rw [add_ofNat_add]
          congr 2
          omega
        have hrest : d - n * size < size := by omega
        obtain ⟨hdiv, hmod⟩ : d / size = n ∧ d % size = d - n * size := by
          rw [Nat.div_mod_unique (by omega), Nat.mul_comm size n]
          omega
        rw [hoffset, set_add hwidth (by rwa [hlength]), hdiv, hmod,
          List.getD_eq_getElem?_getD, List.getElem?_eq_getElem (by rwa [hlength]),
          Option.getD_some]
      · rw [set_of_not_within hwidth, ih (by omega) (by omega)]
        rw [hlength, within_offset (by omega) (by omega)]
        omega

theorem setBlocks_frame (hlength : ∀ i, (blocks i).length = size) {n q : Nat}
    (hfits : p + n * size ≤ 2 ^ w) (hq : q < 2 ^ w) (hne : ∀ d < n * size, q ≠ p + d) :
    setBlocks m (base + BitVec.ofNat w p) size blocks n (base + BitVec.ofNat w q) =
      m (base + BitVec.ofNat w q) := by
  induction n with
  | zero => rfl
  | succ n ih =>
      rw [Nat.succ_mul] at hfits hne
      have hwidth : (blocks n).length ≤ 2 ^ w := by
        rw [hlength]
        omega
      rw [setBlocks_succ, add_ofNat_add, set_of_not_within hwidth,
        ih (by omega) fun d hd => hne d (by omega)]
      rw [hlength, within_offset hq (by omega)]
      rintro ⟨hle, hlt⟩
      exact hne (q - p) (by omega) (by omega)

variable {order : ByteOrder} {white : Nat}

theorem colorRow_draws (hpos : 0 < size)
    (hwhite : numberBytes order size white = List.replicate size 0xFF)
    (hblack : numberBytes order size 0 = List.replicate size 0)
    (hp : p + 6 * size ≤ 2 ^ w) (data : BitVec 8) :
    DrawsRow base (8 * size) (8 * p + 0) data m
      (colorRow order size white m (base + BitVec.ofNat w p) data) := by
  let blocks : Nat → List (BitVec 8) := fun i =>
    numberBytes order size (if data.getLsbD (7 - i) then 0 else white)
  have hblocks : colorRow order size white m (base + BitVec.ofNat w p) data =
      setBlocks m (base + BitVec.ofNat w p) size blocks 6 := rfl
  have hlength : ∀ i, (blocks i).length = size := fun i => length_numberBytes _ _ _
  rw [hblocks]
  apply DrawsRow.of_bytes
  · intro d hd k hk
    rw [fontWidth] at hd
    have hd' : d < 6 * size := by omega
    have hpixel : (8 * d + k) / (8 * size) = d / size := by
      rw [← Nat.div_div_eq_div_mul, Nat.mul_add_div (by decide), Nat.div_eq_of_lt hk,
        Nat.add_zero]
    have hcolumn : d / size < 6 := Nat.div_lt_of_lt_mul (by rwa [Nat.mul_comm])
    rw [setBlocks_byte hlength hp hd', if_pos ⟨Nat.zero_le _, by rw [fontWidth]; omega⟩,
      Nat.sub_zero, hpixel]
    have hmod := Nat.mod_lt d hpos
    have hbit : data.getMsbD (d / size) = data.getLsbD (7 - d / size) := by
      rw [BitVec.getMsbD_eq_getLsbD, decide_eq_true (by omega), Bool.true_and]
    simp only [blocks, hbit]
    cases data.getLsbD (7 - d / size) with
    | true => simp [hblack, hmod]
    | false =>
        simp only [Bool.false_eq_true, if_false, hwhite, List.getD_eq_getElem?_getD,
          List.getElem?_replicate, if_pos hmod, Option.getD_some]
        interval_cases k <;> rfl
  · intro q hq hne
    rw [fontWidth] at hne
    exact setBlocks_frame hlength hp hq fun d hd => hne d (by omega)

end WholeBytes

/-! Whole characters, by lines of pixels and the bits of a line. -/

section Characters

variable {base : BitVec w} {font : Font} {c : BitVec 8} {m m' m'' : WordMemory w}
  {rowBytes depth x y count : Nat}

/-- The first `count` rows of a character are drawn in the cell at `x` and `y`, and
no other bit of memory changes. -/
def DrawsChar (base : BitVec w) (font : Font) (c : BitVec 8) (rowBytes depth x y count : Nat)
    (m m' : WordMemory w) : Prop :=
  ∀ i < 8 * 2 ^ w, bitAt m' base i =
    if fontHeight * y ≤ i / (8 * rowBytes) ∧ i / (8 * rowBytes) < fontHeight * y + count ∧
        fontWidth * depth * x ≤ i % (8 * rowBytes) ∧
        i % (8 * rowBytes) < fontWidth * depth * x + fontWidth * depth then
      !(font (charData c + (i / (8 * rowBytes) - fontHeight * y : Nat))).getMsbD
        ((i % (8 * rowBytes) - fontWidth * depth * x) / depth)
    else bitAt m base i

/-- Bits of one line. -/
theorem within_line {i width line first count : Nat} (hfits : first + count ≤ width) :
    width * line + first ≤ i ∧ i < width * line + first + count ↔
      i / width = line ∧ first ≤ i % width ∧ i % width < first + count := by
  have hsplit := Nat.div_add_mod i width
  constructor
  · rintro ⟨hle, hlt⟩
    have hline : i / width = line := by
      rw [Nat.div_eq_iff (by omega), Nat.mul_comm line width]
      omega
    rw [hline] at hsplit
    omega
  · rintro ⟨rfl, hle, hlt⟩
    omega

theorem DrawsChar.start (base : BitVec w) (font : Font) (c : BitVec 8) (m : WordMemory w) :
    DrawsChar base font c rowBytes depth x y 0 m m := by
  intro i _
  rw [if_neg (by omega)]

theorem DrawsChar.row (h : DrawsChar base font c rowBytes depth x y count m m')
    (hwide : fontWidth * depth * x + fontWidth * depth ≤ 8 * rowBytes)
    (hrow : DrawsRow base depth
      (8 * rowBytes * (fontHeight * y + count) + fontWidth * depth * x)
      (font (charData c + count)) m' m'') :
    DrawsChar base font c rowBytes depth x y (count + 1) m m'' := by
  intro i hi
  have hsplit := Nat.div_add_mod i (8 * rowBytes)
  have hline := @within_line i (8 * rowBytes) (fontHeight * y + count) _ _ hwide
  rw [hrow i hi, h i hi]
  by_cases hnew : i / (8 * rowBytes) = fontHeight * y + count ∧
      fontWidth * depth * x ≤ i % (8 * rowBytes) ∧
      i % (8 * rowBytes) < fontWidth * depth * x + fontWidth * depth
  · rw [if_pos (hline.mpr hnew), if_pos ⟨by omega, by omega, hnew.2⟩]
    have hfirst : i - (8 * rowBytes * (fontHeight * y + count) + fontWidth * depth * x) =
        i % (8 * rowBytes) - fontWidth * depth * x := by
      rw [← hnew.1]
      omega
    rw [hfirst, hnew.1, Nat.add_sub_cancel_left]
  · rw [if_neg (hline.not.mpr hnew)]
    apply if_congr _ rfl rfl
    omega

theorem drawRows_draws {drawRow : WordMemory w → BitVec w → BitVec 8 → WordMemory w}
    {dest : BitVec w} {stride : Nat}
    (hwide : fontWidth * depth * x + fontWidth * depth ≤ 8 * rowBytes)
    (hrow : ∀ n < fontHeight, ∀ m data, DrawsRow base depth
      (8 * rowBytes * (fontHeight * y + n) + fontWidth * depth * x) data m
      (drawRow m (dest + BitVec.ofNat w (n * stride)) data)) :
    DrawsChar base font c rowBytes depth x y fontHeight m
      (drawRows font c stride drawRow m dest) := by
  have hrows : ∀ count ≤ fontHeight, DrawsChar base font c rowBytes depth x y count m
      ((List.range count).foldl (fun m row =>
        drawRow m (dest + BitVec.ofNat w (row * stride)) (font (charData c + row))) m) := by
    intro count hcount
    induction count with
    | zero => exact DrawsChar.start base font c m
    | succ count ih =>
        rw [List.range_succ, List.foldl_append]
        exact (ih (by omega)).row hwide (hrow count hcount _ _)
  exact hrows fontHeight le_rfl

end Characters

end Cenix.Console
