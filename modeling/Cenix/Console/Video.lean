import Cenix.Common.Filling

namespace Cenix.Console

open WordMemory Fields Common

/-! The console of the mac-68000 platform. -/

def fontWidth : Nat := 6

def fontHeight : Nat := 11

/-- The bytes of the font, by their offset from its start. -/
abbrev Font := Int → BitVec 8

/-- Where the rows of a character start in the font.  A `char` is signed. -/
def charData (c : BitVec 8) : Int :=
  (c.toInt - 32) * fontHeight

variable {w : Nat}

/-- What `init_console` finds out about the screen. -/
structure Screen (w : Nat) where
  base : BitVec w
  screenWidth : Nat
  screenHeight : Nat
  consoleHeight : Nat
  rowBytes : Nat
  videoMemoryLength : Nat
  bitsPerPixel : Nat
  deriving DecidableEq, Repr

/-- `scrnBase` and `screenRow` are the low memory globals. -/
def initConsole (scrnBase : BitVec w) (screenRow screenWidth screenHeight : BitVec 16) :
    Screen w :=
  let rowBytes := if screenRow = 0xFFFF then screenWidth.toNat / 8 else screenRow.toNat
  { base := scrnBase
    screenWidth := screenWidth.toNat
    screenHeight := screenHeight.toNat
    consoleHeight := screenHeight.toNat / fontHeight * fontHeight
    rowBytes := rowBytes
    videoMemoryLength := rowBytes * screenHeight.toNat
    bitsPerPixel := rowBytes * 8 / screenWidth.toNat % 2 ^ 16 }

structure State (w : Nat) where
  memory : WordMemory w
  consoleX : Nat
  consoleY : Nat

def setByte (m : WordMemory w) (address : BitVec w) (byte : BitVec 8) : WordMemory w :=
  Function.update m address byte

section PutChar

def shl (data : BitVec 8) (n : Nat) : BitVec 8 :=
  data <<< n

def shr (data : BitVec 8) (n : Nat) : BitVec 8 :=
  data >>> n

/-- Draws the rows of a character below each other, `stride` bytes apart. -/
def drawRows (font : Font) (c : BitVec 8) (stride : Nat)
    (drawRow : WordMemory w → BitVec w → BitVec 8 → WordMemory w)
    (m : WordMemory w) (dest : BitVec w) : WordMemory w :=
  (List.range fontHeight).foldl
    (fun m row => drawRow m (dest + BitVec.ofNat w (row * stride)) (font (charData c + row))) m

variable (order : ByteOrder) (font : Font) (screen : Screen w) (s : State w)

/-- `SCRN_BASE + console_y * FONT_HEIGHT * row_bytes + column` -/
def destination (column : Nat) : BitVec w :=
  screen.base + BitVec.ofNat w (s.consoleY * fontHeight * screen.rowBytes + column)

def monoRow (columnOffset : Nat) (m : WordMemory w) (dest : BitVec w) (charData : BitVec 8) :
    WordMemory w :=
  let data := ~~~charData
  match columnOffset with
  | 0 => setByte m dest ((m dest &&& 0b00000011) ||| (data &&& 0b11111100))
  | 1 =>
      let m := setByte m dest ((m dest &&& 0b11111100) ||| shr data 6)
      setByte m (dest + 1) ((m (dest + 1) &&& 0b00001111) ||| (shl data 2 &&& 0b11110000))
  | 2 =>
      let m := setByte m (dest + 1) ((m (dest + 1) &&& 0b11110000) ||| shr data 4)
      setByte m (dest + 2) ((m (dest + 2) &&& 0b00111111) ||| (shl data 4 &&& 0b11000000))
  | 3 => setByte m (dest + 2) ((m (dest + 2) &&& 0b11000000) ||| shr data 2)
  | _ => m

def monoPutchar (c : BitVec 8) : WordMemory w :=
  let columnOffset := s.consoleX % 4
  drawRows font c screen.rowBytes (monoRow columnOffset) s.memory
    (destination screen s (s.consoleX / 4 * 3))

def colorRow2bpp (columnOffset : Nat) (m : WordMemory w) (dest : BitVec w)
    (charData : BitVec 8) : WordMemory w :=
  let data := ~~~charData
  match columnOffset with
  | 0 =>
      let m := setByte m dest
        ((data &&& 0b10000000) ||| (shr data 1 &&& 0b01000000)
          ||| (shr data 1 &&& 0b00100000) ||| (shr data 2 &&& 0b00010000)
          ||| (shr data 2 &&& 0b00001000) ||| (shr data 3 &&& 0b00000100)
          ||| (shr data 3 &&& 0b00000010) ||| (shr data 4 &&& 0b00000001))
      setByte m (dest + 1)
        ((m (dest + 1) &&& 0x0f)
          ||| (shl data 4 &&& 0b10000000) ||| (shl data 3 &&& 0b01000000)
          ||| (shl data 3 &&& 0b00100000) ||| (shl data 2 &&& 0b00010000))
  | 1 =>
      let m := setByte m (dest + 1)
        ((m (dest + 1) &&& 0xf0)
          ||| (shr data 4 &&& 0b00001000) ||| (shr data 5 &&& 0b00000100)
          ||| (shr data 5 &&& 0b00000010) ||| (shr data 6 &&& 0b00000001))
      setByte m (dest + 2)
        ((shl data 2 &&& 0b10000000) ||| (shl data 1 &&& 0b01000000)
          ||| (shl data 1 &&& 0b00100000) ||| (data &&& 0b00010000)
          ||| (data &&& 0b00001000) ||| (shr data 1 &&& 0b00000100)
          ||| (shr data 1 &&& 0b00000010) ||| (shr data 2 &&& 0b00000001))
  | _ => m

def colorPutchar2bpp (c : BitVec 8) : WordMemory w :=
  let columnOffset := s.consoleX % 2
  drawRows font c screen.rowBytes (colorRow2bpp columnOffset) s.memory
    (destination screen s (s.consoleX / 2 * 3))

/-- `for (int col = 7; col >= 2; col -= 2, pixel ++)` -/
def colorRow4bpp (m : WordMemory w) (dest : BitVec w) (data : BitVec 8) : WordMemory w :=
  (List.range 3).foldl
    (fun m i =>
      let col := 7 - 2 * i
      setByte m (dest + BitVec.ofNat w i)
        ((if data.getLsbD col then 0x00 else 0xf0)
          ||| (if data.getLsbD (col - 1) then 0x00 else 0x0f))) m

def colorPutchar4bpp (c : BitVec 8) : WordMemory w :=
  drawRows font c screen.rowBytes colorRow4bpp s.memory
    (destination screen s (s.consoleX * fontWidth / 2))

/-- `for (int col = 7; col >= 2; col --, pixel ++)`, with pixels of `size` bytes. -/
def colorRow (size white : Nat) (m : WordMemory w) (dest : BitVec w) (data : BitVec 8) :
    WordMemory w :=
  (List.range 6).foldl
    (fun m i =>
      let col := 7 - i
      m.set (dest + BitVec.ofNat w (i * size))
        (numberBytes order size (if data.getLsbD col then 0 else white))) m

def colorPutchar8bpp (c : BitVec 8) : WordMemory w :=
  drawRows font c screen.rowBytes (colorRow order 1 0xff) s.memory
    (destination screen s (s.consoleX * fontWidth))

/-- The rows are `row_bytes / 2` elements apart. -/
def colorPutchar16bpp (c : BitVec 8) : WordMemory w :=
  drawRows font c (screen.rowBytes / 2 * 2) (colorRow order 2 0xffff) s.memory
    (destination screen s (s.consoleX * fontWidth * 2))

def colorPutchar32bpp (c : BitVec 8) : WordMemory w :=
  drawRows font c (screen.rowBytes / 4 * 4) (colorRow order 4 0xffffffff) s.memory
    (destination screen s (s.consoleX * fontWidth * 4))

/-- `putchar_fn`, which stays `NULL` for other depths. -/
def putcharFn (c : BitVec 8) : WordMemory w :=
  match screen.bitsPerPixel with
  | 1 => monoPutchar font screen s c
  | 2 => colorPutchar2bpp font screen s c
  | 4 => colorPutchar4bpp font screen s c
  | 8 => colorPutchar8bpp order font screen s c
  | 16 => colorPutchar16bpp order font screen s c
  | 32 => colorPutchar32bpp order font screen s c
  | _ => s.memory

/-- Moves the screen up by a line of text. -/
def scroll (m : WordMemory w) : WordMemory w :=
  let moveDistance := screen.rowBytes * fontHeight
  let rest := BitVec.ofNat w (screen.videoMemoryLength - moveDistance)
  let m := (memmove m screen.base (screen.base + BitVec.ofNat w moveDistance) rest).memory
  (memset order m (screen.base + rest) 0xff (BitVec.ofNat w moveDistance)).memory

def newline : State w :=
  let s := { s with consoleX := 0, consoleY := s.consoleY + 1 }
  if screen.consoleHeight / fontHeight ≤ s.consoleY then
    { s with
      memory := scroll order screen s.memory
      consoleY := screen.consoleHeight / fontHeight - 1 }
  else
    s

/-- `_putchar` -/
def putchar (c : BitVec 8) : State w :=
  if c = 0x0A then
    newline order screen s
  else
    let s := { s with
      memory := putcharFn order font screen s c
      consoleX := s.consoleX + 1 }
    if screen.screenWidth / fontWidth ≤ s.consoleX then newline order screen s else s

/-- The loop of `puts`. -/
def puts (text : List (BitVec 8)) : State w :=
  text.foldl (putchar order font screen) s

end PutChar

end Cenix.Console
