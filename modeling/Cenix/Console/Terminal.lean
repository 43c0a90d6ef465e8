import Cenix.Console.Drawing
import Mathlib.Tactic.Ring

namespace Cenix.Console

open WordMemory Fields Common

/-! What the console shows, as the characters of a terminal. -/

variable {w : Nat}

namespace Screen

variable (screen : Screen w)

def columns : Nat :=
  screen.screenWidth / fontWidth

def rows : Nat :=
  screen.consoleHeight / fontHeight

/-- A screen that holds a character, in one of the depths that have a function. -/
structure Usable : Prop where
  depth : screen.bitsPerPixel ∈ [1, 2, 4, 8, 16, 32]
  elements : screen.bitsPerPixel ∣ 8 * screen.rowBytes
  width : screen.bitsPerPixel * screen.screenWidth ≤ 8 * screen.rowBytes
  columns_pos : 0 < screen.columns
  rows_pos : 0 < screen.rows
  consoleHeight_le : fontHeight * screen.rows ≤ screen.screenHeight
  length_eq : screen.videoMemoryLength = screen.rowBytes * screen.screenHeight
  fits : screen.base.toNat + screen.videoMemoryLength < 2 ^ w

variable {screen}

namespace Usable

variable (h : screen.Usable)

include h

theorem depth_pos : 0 < screen.bitsPerPixel := by
  have hdepth := h.depth
  simp only [List.mem_cons, List.not_mem_nil, or_false] at hdepth
  omega

theorem cells_width :
    fontWidth * screen.bitsPerPixel * screen.columns ≤ 8 * screen.rowBytes := by
  have hcolumns := Nat.div_mul_le_self screen.screenWidth fontWidth
  calc fontWidth * screen.bitsPerPixel * screen.columns
      = screen.bitsPerPixel * (screen.screenWidth / fontWidth * fontWidth) := by
        rw [columns]
        ring
    _ ≤ screen.bitsPerPixel * screen.screenWidth := Nat.mul_le_mul_left _ hcolumns
    _ ≤ 8 * screen.rowBytes := h.width

theorem cell_width {x : Nat} (hx : x < screen.columns) :
    fontWidth * screen.bitsPerPixel * x + fontWidth * screen.bitsPerPixel ≤
      8 * screen.rowBytes := by
  have hnext := Nat.mul_le_mul_left (fontWidth * screen.bitsPerPixel) hx
  rw [Nat.mul_succ] at hnext
  exact hnext.trans h.cells_width

theorem rowBytes_pos : 0 < screen.rowBytes := by
  have hcell := h.cell_width h.columns_pos
  have hdepth := h.depth_pos
  rw [fontWidth] at hcell
  omega

/-- The lines of pixels of a row of text are in video memory. -/
theorem line_fits {y n : Nat} (hy : y < screen.rows) (hn : n < fontHeight) :
    screen.rowBytes * (fontHeight * y + n) + screen.rowBytes ≤ 2 ^ w := by
  have hline : fontHeight * y + n + 1 ≤ screen.screenHeight := by
    have hrows := h.consoleHeight_le
    have hnext := Nat.mul_le_mul_left fontHeight hy
    rw [Nat.mul_succ] at hnext
    omega
  have hbytes := Nat.mul_le_mul_left screen.rowBytes hline
  have hfits := h.fits
  rw [h.length_eq] at hfits
  rw [Nat.mul_add, Nat.mul_one] at hbytes
  omega

theorem cell_fits {x y n : Nat} (hx : x < screen.columns) (hy : y < screen.rows)
    (hn : n < fontHeight) :
    8 * screen.rowBytes * (fontHeight * y + n) + fontWidth * screen.bitsPerPixel * x +
      fontWidth * screen.bitsPerPixel ≤ 8 * 2 ^ w := by
  have hline := h.line_fits hy hn
  have hcell := h.cell_width hx
  rw [Nat.mul_assoc]
  omega

/-- Bits behind the video memory belong to no line of the screen. -/
theorem line_of_outside {i : Nat} (hi : 8 * screen.videoMemoryLength ≤ i) :
    screen.screenHeight ≤ i / (8 * screen.rowBytes) := by
  rw [Nat.le_div_iff_mul_le (Nat.mul_pos (by decide) h.rowBytes_pos)]
  rw [h.length_eq] at hi
  calc screen.screenHeight * (8 * screen.rowBytes)
      = 8 * (screen.rowBytes * screen.screenHeight) := by ring
    _ ≤ i := hi

end Usable

end Screen

section PutcharFn

variable {order : ByteOrder} {font : Font} {screen : Screen w} {s : State w} {c : BitVec 8}

/-- The row function draws `first` bits behind the bytes that it is given. -/
def DrawsBehind (base : BitVec w) (depth first : Nat)
    (drawRow : WordMemory w → BitVec w → BitVec 8 → WordMemory w) : Prop :=
  ∀ p m data, 8 * p + first + fontWidth * depth ≤ 8 * 2 ^ w →
    DrawsRow base depth (8 * p + first) data m (drawRow m (base + BitVec.ofNat w p) data)

section

variable (h : screen.Usable) (hx : s.consoleX < screen.columns) (hy : s.consoleY < screen.rows)

include h hx hy

theorem draws_of_behind {drawRow : WordMemory w → BitVec w → BitVec 8 → WordMemory w}
    {first column : Nat} (hrow : DrawsBehind screen.base screen.bitsPerPixel first drawRow)
    (hcolumn : 8 * column + first = fontWidth * screen.bitsPerPixel * s.consoleX) :
    DrawsChar screen.base font c screen.rowBytes screen.bitsPerPixel s.consoleX s.consoleY
      fontHeight s.memory
      (drawRows font c screen.rowBytes drawRow s.memory (destination screen s column)) := by
  apply drawRows_draws (h.cell_width hx)
  intro n hn m data
  have hfits := h.cell_fits hx hy hn
  have hplace : 8 * (s.consoleY * fontHeight * screen.rowBytes + column +
      n * screen.rowBytes) + first = 8 * screen.rowBytes * (fontHeight * s.consoleY + n) +
        fontWidth * screen.bitsPerPixel * s.consoleX := by
    rw [← hcolumn]
    ring
  rw [← hplace] at hfits ⊢
  rw [destination, add_ofNat_add]
  exact hrow _ m data hfits

theorem monoPutchar_draws (hdepth : screen.bitsPerPixel = 1) :
    DrawsChar screen.base font c screen.rowBytes screen.bitsPerPixel s.consoleX s.consoleY
      fontHeight s.memory (monoPutchar font screen s c) := by
  apply draws_of_behind h hx hy
  · intro p m data hp
    rw [hdepth] at hp ⊢
    exact monoRow_draws (Nat.mod_lt _ (by decide)) hp data
  · rw [hdepth, fontWidth]
    omega

theorem colorPutchar2bpp_draws (hdepth : screen.bitsPerPixel = 2) :
    DrawsChar screen.base font c screen.rowBytes screen.bitsPerPixel s.consoleX s.consoleY
      fontHeight s.memory (colorPutchar2bpp font screen s c) := by
  apply draws_of_behind h hx hy
  · intro p m data hp
    rw [hdepth] at hp ⊢
    exact colorRow2bpp_draws (Nat.mod_lt _ (by decide)) hp data
  · rw [hdepth, fontWidth]
    omega

theorem colorPutchar4bpp_draws (hdepth : screen.bitsPerPixel = 4) :
    DrawsChar screen.base font c screen.rowBytes screen.bitsPerPixel s.consoleX s.consoleY
      fontHeight s.memory (colorPutchar4bpp font screen s c) := by
  apply draws_of_behind h hx hy
  · intro p m data hp
    rw [hdepth] at hp ⊢
    exact colorRow4bpp_draws hp data
  · rw [hdepth, fontWidth]
    omega

/-- The functions for pixels of `size` bytes. -/
theorem colorPutchar_draws {size white : Nat} (hpos : 0 < size)
    (hwhite : numberBytes order size white = List.replicate size 0xFF)
    (hblack : numberBytes order size 0 = List.replicate size 0)
    (hdepth : screen.bitsPerPixel = 8 * size) {stride column : Nat}
    (hstride : stride = screen.rowBytes) (hcolumn : column = s.consoleX * fontWidth * size) :
    DrawsChar screen.base font c screen.rowBytes screen.bitsPerPixel s.consoleX s.consoleY
      fontHeight s.memory
      (drawRows font c stride (colorRow order size white) s.memory
        (destination screen s column)) := by
  rw [hstride]
  apply draws_of_behind h hx hy
  · intro p m data hp
    rw [hdepth] at hp ⊢
    exact colorRow_draws hpos hwhite hblack (by rw [fontWidth] at hp; omega) data
  · rw [hdepth, hcolumn]
    ring

/-- The function for the depth of the screen draws the pixels of the character's
cell and changes no other bit of memory. -/
theorem putcharFn_draws (order : ByteOrder) (font : Font) (c : BitVec 8) :
    DrawsChar screen.base font c screen.rowBytes screen.bitsPerPixel s.consoleX s.consoleY
      fontHeight s.memory (putcharFn order font screen s c) := by
  have hdepth := h.depth
  have helements := h.elements
  simp only [List.mem_cons, List.not_mem_nil, or_false] at hdepth
  unfold putcharFn
  rcases hdepth with hdepth | hdepth | hdepth | hdepth | hdepth | hdepth
  · simpa only [hdepth] using monoPutchar_draws h hx hy hdepth
  · simpa only [hdepth] using colorPutchar2bpp_draws h hx hy hdepth
  · simpa only [hdepth] using colorPutchar4bpp_draws h hx hy hdepth
  · have hdraws := @colorPutchar_draws w order font screen s c h hx hy 1 0xff (by decide)
      (by cases order <;> rfl) (by cases order <;> rfl) hdepth _ _ rfl (Nat.mul_one _).symm
    simpa only [hdepth, colorPutchar8bpp] using hdraws
  · have hstride : screen.rowBytes / 2 * 2 = screen.rowBytes := by
      rw [hdepth] at helements
      omega
    have hdraws := @colorPutchar_draws w order font screen s c h hx hy 2 0xffff (by decide)
      (by cases order <;> rfl) (by cases order <;> rfl) hdepth _ _ hstride rfl
    simpa only [hdepth, colorPutchar16bpp] using hdraws
  · have hstride : screen.rowBytes / 4 * 4 = screen.rowBytes := by
      rw [hdepth] at helements
      omega
    have hdraws := @colorPutchar_draws w order font screen s c h hx hy 4 0xffffffff (by decide)
      (by cases order <;> rfl) (by cases order <;> rfl) hdepth _ _ hstride rfl
    simpa only [hdepth, colorPutchar32bpp] using hdraws

end

end PutcharFn

/-! Scrolling. -/

section Scroll

variable {order : ByteOrder} {screen : Screen w} {m : WordMemory w}

theorem bitAt_set {base : BitVec w} {p : Nat} {bytes : List (BitVec 8)}
    (hfits : p + bytes.length ≤ 2 ^ w) {i : Nat} (hi : i < 8 * 2 ^ w) :
    bitAt (m.set (base + BitVec.ofNat w p) bytes) base i =
      if p ≤ i / 8 ∧ i / 8 < p + bytes.length then
        (bytes.getD (i / 8 - p) 0).getMsbD (i % 8)
      else bitAt m base i := by
  have hwithin := @within_offset w base (i / 8) p bytes.length (by omega) hfits
  unfold bitAt
  split
  · rename_i hin
    have hoffset : base + BitVec.ofNat w (i / 8) =
        base + BitVec.ofNat w p + BitVec.ofNat w (i / 8 - p) := by
      rw [add_ofNat_add, Nat.add_sub_cancel' hin.1]
    rw [hoffset, set_add (by omega) (by omega), List.getD_eq_getElem?_getD,
      List.getElem?_eq_getElem (by omega), Option.getD_some]
  · rename_i hout
    rw [set_of_not_within (by omega) (by rwa [hwithin])]

/-- Every line moves up by a line of text, and those behind the last become white. -/
theorem scroll_bitAt (h : screen.Usable) (hw : 3 < w) {i : Nat} (hi : i < 8 * 2 ^ w) :
    bitAt (scroll order screen m) screen.base i =
      if i < 8 * screen.videoMemoryLength then
        if i + 8 * (screen.rowBytes * fontHeight) < 8 * screen.videoMemoryLength then
          bitAt m screen.base (i + 8 * (screen.rowBytes * fontHeight))
        else true
      else bitAt m screen.base i := by
  have hfits := h.fits
  have hheight : fontHeight ≤ screen.screenHeight :=
    (Nat.le_mul_of_pos_right fontHeight h.rows_pos).trans h.consoleHeight_le
  have hmove : screen.rowBytes * fontHeight ≤ screen.videoMemoryLength := by
    rw [h.length_eq]
    exact Nat.mul_le_mul_left _ hheight
  let moved := screen.rowBytes * fontHeight
  let rest := screen.videoMemoryLength - moved
  have hmoved : (BitVec.ofNat w moved).toNat = moved := by
    rw [BitVec.toNat_ofNat, Nat.mod_eq_of_lt (by omega)]
  have hrest : (BitVec.ofNat w rest).toNat = rest := by
    rw [BitVec.toNat_ofNat, Nat.mod_eq_of_lt (by omega)]
  have hsource : (screen.base + BitVec.ofNat w moved).toNat = screen.base.toNat + moved :=
    toNat_add_ofNat (by omega)
  have hcopy := (memcpy_moves (by omega) m screen.base (screen.base + BitVec.ofNat w moved)
    (BitVec.ofNat w rest) (by omega) (by omega)).1
  have hscroll : scroll order screen m =
      (m.set (screen.base + BitVec.ofNat w 0)
        (m.bytesAt (screen.base + BitVec.ofNat w moved) rest)).set
        (screen.base + BitVec.ofNat w rest) (List.replicate moved 0xFF) := by
    simp only [scroll, memmove]
    rw [memset_fills order hw, hmoved, hcopy, hrest, BitVec.add_zero]
    rfl
  rw [hscroll, bitAt_set (by rw [List.length_replicate]; omega) hi,
    bitAt_set (by rw [WordMemory.length_bytesAt]; omega) hi, List.length_replicate, WordMemory.length_bytesAt]
  have hmod := Nat.mod_lt i (show 0 < 8 by decide)
  by_cases hbottom : rest ≤ i / 8 ∧ i / 8 < rest + moved
  · rw [if_pos hbottom, if_pos (by omega), if_neg (by omega), List.getD_eq_getElem?_getD,
      List.getElem?_replicate, if_pos (by omega), Option.getD_some]
    interval_cases i % 8 <;> rfl
  · rw [if_neg hbottom]
    by_cases htop : i / 8 < rest
    · have hbyte : (i + 8 * moved) / 8 = moved + i / 8 := by omega
      have hbit : (i + 8 * moved) % 8 = i % 8 := by omega
      rw [if_pos (by omega), if_pos (by omega), if_pos (by omega), bitAt, hbyte, hbit,
        ← add_ofNat_add]
      simp [WordMemory.bytesAt, htop]
    · rw [if_neg (by omega), if_neg (by omega)]

end Scroll

/-! An abstract terminal. -/

/-- A cursor inside the cells, of which some hold a character. -/
structure Terminal (columns rows : Nat) where
  x : Nat
  y : Nat
  cells : Nat → Nat → Option (BitVec 8)
  x_lt : x < columns
  y_lt : y < rows

namespace Terminal

variable {columns rows : Nat}

def blank (hcolumns : 0 < columns) (hrows : 0 < rows) : Terminal columns rows where
  x := 0
  y := 0
  cells := fun _ _ => none
  x_lt := hcolumns
  y_lt := hrows

/-- The first line of text disappears. -/
def scrolled (t : Terminal columns rows) : Terminal columns rows where
  x := 0
  y := rows - 1
  cells := fun r column => if r + 1 < rows then t.cells (r + 1) column else none
  x_lt := Nat.zero_lt_of_lt t.x_lt
  y_lt := Nat.sub_one_lt_of_lt t.y_lt

def newline (t : Terminal columns rows) : Terminal columns rows :=
  if h : t.y + 1 < rows then
    { t with x := 0, y := t.y + 1, x_lt := Nat.zero_lt_of_lt t.x_lt, y_lt := h }
  else t.scrolled

/-- Puts a character under the cursor. -/
def place (t : Terminal columns rows) (c : BitVec 8) : Terminal columns rows :=
  { t with cells := fun r column =>
      if r = t.y ∧ column = t.x then some c else t.cells r column }

def putChar (t : Terminal columns rows) (c : BitVec 8) : Terminal columns rows :=
  if c = 0x0A then t.newline
  else if h : t.x + 1 < columns then { t.place c with x := t.x + 1, x_lt := h }
  else (t.place c).newline

/-- Bit `j` of a line of pixels, where `1` is white. -/
def bit (t : Terminal columns rows) (font : Font) (depth line j : Nat) : Bool :=
  if line < fontHeight * rows ∧ j < fontWidth * depth * columns then
    match t.cells (line / fontHeight) (j / (fontWidth * depth)) with
    | none => true
    | some c => !(font (charData c + (line % fontHeight : Nat))).getMsbD
        (j % (fontWidth * depth) / depth)
  else true

end Terminal

/-- Video memory shows the terminal, and other memory is what it was in `m`. -/
structure Pictures (font : Font) (screen : Screen w) (m memory : WordMemory w)
    (t : Terminal screen.columns screen.rows) : Prop where
  bits : ∀ i < 8 * screen.videoMemoryLength, bitAt memory screen.base i =
    t.bit font screen.bitsPerPixel (i / (8 * screen.rowBytes)) (i % (8 * screen.rowBytes))
  outside : ∀ i < 8 * 2 ^ w, 8 * screen.videoMemoryLength ≤ i →
    bitAt memory screen.base i = bitAt m screen.base i

structure Shows (font : Font) (screen : Screen w) (m : WordMemory w) (s : State w)
    (t : Terminal screen.columns screen.rows) : Prop where
  x_eq : s.consoleX = t.x
  y_eq : s.consoleY = t.y
  pictures : Pictures font screen m s.memory t

section Steps

variable {order : ByteOrder} {font : Font} {screen : Screen w} {m : WordMemory w} {s : State w}
  {t : Terminal screen.columns screen.rows} {c : BitVec 8}

/-- The part of a line that belongs to a cell. -/
theorem cell_iff {i size n : Nat} (hpos : 0 < size) :
    size * n ≤ i ∧ i < size * n + size ↔ i / size = n := by
  rw [Nat.div_eq_iff hpos, Nat.mul_comm n size]
  omega

theorem Terminal.bit_place (hdepth : 0 < screen.bitsPerPixel) (line j : Nat) :
    (t.place c).bit font screen.bitsPerPixel line j =
      if fontHeight * t.y ≤ line ∧ line < fontHeight * t.y + fontHeight ∧
          fontWidth * screen.bitsPerPixel * t.x ≤ j ∧
          j < fontWidth * screen.bitsPerPixel * t.x + fontWidth * screen.bitsPerPixel then
        !(font (charData c + (line - fontHeight * t.y : Nat))).getMsbD
          ((j - fontWidth * screen.bitsPerPixel * t.x) / screen.bitsPerPixel)
      else t.bit font screen.bitsPerPixel line j := by
  have hsize : 0 < fontWidth * screen.bitsPerPixel := Nat.mul_pos (by decide) hdepth
  have hrow := @cell_iff line fontHeight t.y (by decide)
  have hcolumn := @cell_iff j (fontWidth * screen.bitsPerPixel) t.x hsize
  by_cases hcell : line / fontHeight = t.y ∧ j / (fontWidth * screen.bitsPerPixel) = t.x
  · have hy := hrow.mpr hcell.1
    have hx := hcolumn.mpr hcell.2
    have hgrid : line < fontHeight * screen.rows ∧
        j < fontWidth * screen.bitsPerPixel * screen.columns := by
      have hrows := Nat.mul_le_mul_left fontHeight t.y_lt
      have hcolumns := Nat.mul_le_mul_left (fontWidth * screen.bitsPerPixel) t.x_lt
      rw [Nat.mul_succ] at hrows hcolumns
      omega
    have hline := Nat.div_add_mod line fontHeight
    have hj := Nat.div_add_mod j (fontWidth * screen.bitsPerPixel)
    rw [hcell.1] at hline
    rw [hcell.2] at hj
    rw [if_pos ⟨hy.1, hy.2, hx⟩, Terminal.bit, if_pos hgrid]
    simp only [Terminal.place, hcell, and_self, if_true]
    rw [show line - fontHeight * t.y = line % fontHeight by omega,
      show j - fontWidth * screen.bitsPerPixel * t.x =
        j % (fontWidth * screen.bitsPerPixel) by omega]
  · rw [if_neg, Terminal.bit, Terminal.bit]
    · simp only [Terminal.place, if_neg hcell]
    · rintro ⟨hle, hlt, hx⟩
      exact hcell ⟨hrow.mp ⟨hle, hlt⟩, hcolumn.mp hx⟩

theorem Shows.place (h : Shows font screen m s t) (husable : screen.Usable)
    (order : ByteOrder) (c : BitVec 8) :
    Pictures font screen m (putcharFn order font screen s c) (t.place c) where
  bits i hi := by
    have hfits := husable.fits
    have hdraws := putcharFn_draws husable (h.x_eq ▸ t.x_lt) (h.y_eq ▸ t.y_lt) order font c i
      (by omega)
    rw [hdraws, h.pictures.bits i hi, Terminal.bit_place husable.depth_pos, h.x_eq, h.y_eq]
  outside i hi hle := by
    have hdraws := putcharFn_draws husable (h.x_eq ▸ t.x_lt) (h.y_eq ▸ t.y_lt) order font c i hi
    have hline := husable.line_of_outside hle
    have hheight := husable.consoleHeight_le
    have hrows := Nat.mul_le_mul_left fontHeight t.y_lt
    rw [Nat.mul_succ, ← h.y_eq] at hrows
    rw [hdraws, if_neg (by omega), h.pictures.outside i hi hle]

/-- Below the last row of text it is white, and so is the row that comes up. -/
theorem Terminal.bit_scrolled (line j : Nat) :
    t.scrolled.bit font screen.bitsPerPixel line j =
      t.bit font screen.bitsPerPixel (line + fontHeight) j := by
  have hrow : (line + fontHeight) / fontHeight = line / fontHeight + 1 :=
    Nat.add_div_right line (by decide)
  have hline : (line + fontHeight) % fontHeight = line % fontHeight :=
    Nat.add_mod_right line fontHeight
  unfold Terminal.bit
  rw [hrow, hline]
  by_cases hnext : line / fontHeight + 1 < screen.rows
  · simp only [Terminal.scrolled, hnext, if_true]
    apply if_congr _ rfl rfl
    rw [fontHeight] at hnext ⊢
    omega
  · have hbelow : ¬ line + fontHeight < fontHeight * screen.rows := by
      rw [fontHeight] at hnext ⊢
      omega
    simp only [Terminal.scrolled, hnext, if_false, hbelow, false_and, ite_self]

theorem Pictures.scroll (h : Pictures font screen m s.memory t) (husable : screen.Usable)
    (hw : 3 < w) (order : ByteOrder) :
    Pictures font screen m (scroll order screen s.memory) t.scrolled where
  bits i hi := by
    have hfits := husable.fits
    have hwidth : 0 < 8 * screen.rowBytes := Nat.mul_pos (by decide) husable.rowBytes_pos
    have hmove : 8 * (screen.rowBytes * fontHeight) = 8 * screen.rowBytes * fontHeight :=
      (Nat.mul_assoc 8 screen.rowBytes fontHeight).symm
    rw [scroll_bitAt husable hw (by omega), if_pos hi, Terminal.bit_scrolled]
    split
    · rename_i hin
      rw [h.bits _ hin, hmove, Nat.add_mul_div_left _ _ hwidth, Nat.add_mul_mod_self_left]
    · rename_i hout
      have hline := husable.line_of_outside (Nat.not_lt.mp hout)
      have hheight := husable.consoleHeight_le
      rw [hmove, Nat.add_mul_div_left _ _ hwidth] at hline
      rw [Terminal.bit, if_neg]
      rintro ⟨hgrid, _⟩
      omega
  outside i hi hle := by
    rw [scroll_bitAt husable hw hi, if_neg (by omega), h.outside i hi hle]

theorem Pictures.newline (h : Pictures font screen m s.memory t) (husable : screen.Usable)
    (hw : 3 < w) (order : ByteOrder) (hy : s.consoleY = t.y) :
    Shows font screen m (Console.newline order screen s) t.newline := by
  by_cases hnext : t.y + 1 < screen.rows
  · have hstate : Console.newline order screen s =
        { s with consoleX := 0, consoleY := s.consoleY + 1 } := by
      rw [Console.newline, if_neg]
      rw [hy]
      exact Nat.not_le.mpr hnext
    have hterminal : t.newline = { t with
        x := 0
        y := t.y + 1
        x_lt := Nat.zero_lt_of_lt t.x_lt
        y_lt := hnext } := dif_pos hnext
    rw [hstate, hterminal]
    exact ⟨rfl, congrArg (· + 1) hy, h.bits, h.outside⟩
  · have hstate : Console.newline order screen s =
        { memory := Console.scroll order screen s.memory
          consoleX := 0
          consoleY := screen.rows - 1 } := by
      rw [Console.newline, if_pos]
      · rfl
      · rw [hy]
        exact Nat.not_lt.mp hnext
    have hterminal : t.newline = t.scrolled := dif_neg hnext
    rw [hstate, hterminal]
    exact ⟨rfl, rfl, h.scroll husable hw order⟩

theorem Shows.putchar (h : Shows font screen m s t) (husable : screen.Usable) (hw : 3 < w)
    (order : ByteOrder) (c : BitVec 8) :
    Shows font screen m (putchar order font screen s c) (t.putChar c) := by
  have hplace := h.place husable order c
  unfold Console.putchar Terminal.putChar
  split
  · exact h.pictures.newline husable hw order h.y_eq
  · by_cases hnext : t.x + 1 < screen.columns
    · rw [dif_pos hnext, if_neg]
      · exact ⟨congrArg (· + 1) h.x_eq, h.y_eq, hplace.bits, hplace.outside⟩
      · rw [h.x_eq]
        exact Nat.not_le.mpr hnext
    · rw [dif_neg hnext, if_pos]
      · exact Pictures.newline hplace husable hw order h.y_eq
      · rw [h.x_eq]
        exact Nat.not_lt.mp hnext

theorem Shows.puts (h : Shows font screen m s t) (husable : screen.Usable) (hw : 3 < w)
    (order : ByteOrder) (text : List (BitVec 8)) :
    Shows font screen m (puts order font screen s text) (text.foldl Terminal.putChar t) := by
  induction text generalizing s t with
  | nil => exact h
  | cons c text ih => exact ih (h.putchar husable hw order c)

end Steps

/-! Text on a white screen. -/

section Text

variable {scrnBase : BitVec w} {screenRow screenWidth screenHeight : BitVec 16}

/-- What the boot loader and the hardware promise of the screen. -/
structure Suits (screen : Screen w) : Prop where
  depth : screen.bitsPerPixel ∈ [1, 2, 4, 8, 16, 32]
  elements : screen.bitsPerPixel ∣ 8 * screen.rowBytes
  width : fontWidth ≤ screen.screenWidth
  height : fontHeight ≤ screen.screenHeight
  fits : screen.base.toNat + screen.videoMemoryLength < 2 ^ w

theorem Suits.usable (h : Suits (initConsole scrnBase screenRow screenWidth screenHeight)) :
    (initConsole scrnBase screenRow screenWidth screenHeight).Usable where
  depth := h.depth
  elements := h.elements
  width := by
    have hmod := Nat.mod_le ((initConsole scrnBase screenRow screenWidth screenHeight).rowBytes *
      8 / screenWidth.toNat) (2 ^ 16)
    have hmul := Nat.mul_le_mul_right screenWidth.toNat hmod
    rw [Nat.mul_comm 8]
    exact hmul.trans (Nat.div_mul_le_self _ _)
  columns_pos := Nat.div_pos h.width (by decide)
  rows_pos := by
    rw [Screen.rows, initConsole, Nat.mul_div_cancel _ (by decide)]
    exact Nat.div_pos h.height (by decide)
  consoleHeight_le := by
    rw [Screen.rows, initConsole, Nat.mul_div_cancel _ (by decide), Nat.mul_comm]
    exact Nat.div_mul_le_self _ _
  length_eq := rfl
  fits := h.fits

theorem shows_blank {screen : Screen w} (husable : screen.Usable) (font : Font)
    {m : WordMemory w}
    (hwhite : ∀ o < screen.videoMemoryLength, m (screen.base + BitVec.ofNat w o) = 0xFF) :
    Shows font screen m ⟨m, 0, 0⟩ (.blank husable.columns_pos husable.rows_pos) where
  x_eq := rfl
  y_eq := rfl
  pictures := by
    refine ⟨?_, fun _ _ _ => rfl⟩
    intro i hi
    have hmod := Nat.mod_lt i (show 0 < 8 by decide)
    simp only [bitAt, hwhite (i / 8) (by omega), Terminal.bit, Terminal.blank, ite_self]
    interval_cases i % 8 <;> rfl

/-- Bytes with the same bits. -/
theorem Pictures.memory_eq {font : Font} {screen : Screen w} {m memory : WordMemory w}
    {t : Terminal screen.columns screen.rows} (h : Pictures font screen m memory t)
    (husable : screen.Usable) {a : BitVec w}
    (ha : ¬ Within screen.base screen.videoMemoryLength a) : memory a = m a := by
  have hfits := husable.fits
  have hbehind : screen.videoMemoryLength ≤ (a - screen.base).toNat := by
    rwa [within_iff_sub (by omega), Nat.not_lt] at ha
  have hlt := (a - screen.base).isLt
  have haddress : screen.base + BitVec.ofNat w (a - screen.base).toNat = a := by
    rw [BitVec.ofNat_toNat, BitVec.setWidth_eq, BitVec.add_comm, BitVec.sub_add_cancel]
  apply BitVec.eq_of_getMsbD_eq
  intro k hk
  have hbit := h.outside (8 * (a - screen.base).toNat + k) (by omega) (by omega)
  have hdiv : (8 * (a - screen.base).toNat + k) / 8 = (a - screen.base).toNat := by omega
  have hmod : (8 * (a - screen.base).toNat + k) % 8 = k := by omega
  rwa [bitAt, bitAt, hdiv, hmod, haddress] at hbit

/-- After any text the cursor is where it is on the terminal, the screen shows the
characters of the terminal on white, and no byte outside of video memory has changed. -/
theorem console_exact (hw : 3 < w) (order : ByteOrder) (font : Font)
    (h : Suits (initConsole scrnBase screenRow screenWidth screenHeight)) (m : WordMemory w)
    (hwhite : ∀ o < (initConsole scrnBase screenRow screenWidth screenHeight).videoMemoryLength,
      m (scrnBase + BitVec.ofNat w o) = 0xFF)
    (text : List (BitVec 8)) :
    let screen := initConsole scrnBase screenRow screenWidth screenHeight
    let s := puts order font screen ⟨m, 0, 0⟩ text
    let t := text.foldl Terminal.putChar
      (Terminal.blank h.usable.columns_pos h.usable.rows_pos)
    s.consoleX = t.x ∧ s.consoleY = t.y ∧
      (∀ i < 8 * screen.videoMemoryLength, bitAt s.memory screen.base i =
        t.bit font screen.bitsPerPixel (i / (8 * screen.rowBytes))
          (i % (8 * screen.rowBytes))) ∧
      ∀ a, ¬ Within screen.base screen.videoMemoryLength a → s.memory a = m a := by
  have hshows := (shows_blank h.usable font hwhite).puts h.usable hw order text
  exact ⟨hshows.x_eq, hshows.y_eq, hshows.pictures.bits, fun a ha =>
    hshows.pictures.memory_eq h.usable ha⟩

/-- A screen of 512 by 342 pixels in one bit each, at the top of 4 MiB. -/
def compact : Screen 32 :=
  initConsole 0x3FA700 64 512 342

theorem compact_suits : Suits compact := by
  constructor <;> decide

theorem console_exact_compact :
    let s := puts .big (fun i => BitVec.ofInt 8 i) compact ⟨fun _ => 0xFF, 0, 0⟩ [0x48, 0x69, 0x0A]
    s.consoleX = 0 ∧ s.consoleY = 1 := by
  have hexact := console_exact (by decide) .big (fun i => BitVec.ofInt 8 i) compact_suits
    (fun _ => 0xFF) (fun _ _ => rfl) [0x48, 0x69, 0x0A]
  exact ⟨hexact.1, hexact.2.1⟩

end Text

end Cenix.Console
