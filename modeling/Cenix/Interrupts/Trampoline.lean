import Cenix.Interrupts.Layout
import Cenix.WordMemory
import Mathlib

namespace Cenix

open Fields

/-! The way into the kernel and back, by `interrupt_trampoline.S`. -/

/-- The processor.  `ssp` is the stack pointer of the supervisor, who runs all the code
here. -/
structure Cpu where
  data : Vector (BitVec 32) 8
  address : Vector (BitVec 32) 7
  usp : BitVec 32
  ssp : BitVec 32
  statusRegister : BitVec 16
  programCounter : BitVec 32
  memory : WordMemory 32

/-- A value in memory. -/
def valueAt (memory : WordMemory 32) (w : Nat) (address : BitVec 32) : BitVec w :=
  valueOf .big w (memory.bytesAt address (w / 8))

namespace Cpu

variable (c : Cpu)

/-- The registers of the code that was interrupted. -/
def registers : ThreadRegisters :=
  ⟨c.usp, c.data, c.address, c.statusRegister, c.programCounter⟩

/-- A value of 16 or 32 bits. -/
def push {w : Nat} (value : BitVec w) : Cpu :=
  let ssp := c.ssp - BitVec.ofNat 32 (w / 8)
  { c with ssp := ssp, memory := c.memory.set ssp (valueBytes .big value) }

def pop (w : Nat) : BitVec w × Cpu :=
  (valueAt c.memory w c.ssp, { c with ssp := c.ssp + BitVec.ofNat 32 (w / 8) })

/-- `moveml registers, -(%sp)`, which starts with the last one -/
def pushAll (values : List (BitVec 32)) : Cpu :=
  values.foldr (fun value c => c.push value) c

/-- `moveml (%sp)+, registers` -/
def popAll : (count : Nat) → Cpu → List (BitVec 32) × Cpu
  | 0, c => ([], c)
  | count + 1, c =>
      let (value, c) := c.pop 32
      let (values, c) := popAll count c
      (value :: values, c)

/-- What the processor does before the first instruction of the handler of a trap. -/
def takeException (entry : BitVec 32) : Cpu :=
  let pushed := (c.push c.programCounter).push c.statusRegister
  { pushed with
    statusRegister := c.statusRegister &&& 0x7fff ||| 0x2000
    programCounter := entry }

/-- There is a register `a0`. -/
theorem a0_lt : 0 < 7 := by decide

def saveRegisters : Cpu :=
  let c := c.pushAll (c.data.toList ++ c.address.toList)
  let c := { c with address := c.address.set 0 c.usp a0_lt }
  c.push (c.address.get ⟨0, a0_lt⟩)

def loadRegisters : Cpu :=
  let (usp, c) := c.pop 32
  let c := { c with address := c.address.set 0 usp a0_lt, usp := usp }
  let (values, c) := popAll 15 c
  { c with
    data := Vector.ofFn fun i => values.getD i 0
    address := Vector.ofFn fun i => values.getD (8 + i) 0 }

def rte : Cpu :=
  let (statusRegister, c) := c.pop 16
  let (programCounter, c) := c.pop 32
  { c with statusRegister := statusRegister, programCounter := programCounter }

/-- `handler` gets a pointer to the registers on the stack.  It may change memory and all
the registers but the stack pointers, and returns to `back`. -/
def trampoline (handler : BitVec 32 → Cpu → Cpu) (back : BitVec 32) : Cpu :=
  let c := c.saveRegisters
  let c := (c.push c.ssp).push back
  let argument := valueAt c.memory 32 (c.ssp + 4)
  let c := { handler argument c with usp := c.usp, ssp := c.ssp }
  let (_, c) := c.pop 32
  let c := { c with ssp := c.ssp + 4 }
  c.loadRegisters.rte

/-! Pushing. -/

/-- The bytes have been pushed. -/
def stack (bytes : List (BitVec 8)) : Cpu :=
  { c with
    ssp := c.ssp - BitVec.ofNat 32 bytes.length
    memory := c.memory.set (c.ssp - BitVec.ofNat 32 bytes.length) bytes }

theorem stack_nil : c.stack [] = c := by
  have hmemory : c.memory.set c.ssp [] = c.memory := by
    funext x
    rfl
  simp [stack, hmemory]

theorem stack_push {w : Nat} (value : BitVec w) (bytes : List (BitVec 8))
    (h : w / 8 + bytes.length ≤ 2 ^ 32) :
    (c.stack bytes).push value = c.stack (valueBytes .big value ++ bytes) := by
  have hssp : c.ssp - BitVec.ofNat 32 bytes.length - BitVec.ofNat 32 (w / 8) =
      c.ssp - BitVec.ofNat 32 (valueBytes .big value ++ bytes).length := by
    rw [List.length_append, length_valueBytes, BitVec.ofNat_add, BitVec.sub_sub,
      BitVec.add_comm]
  have hfirst : c.ssp - BitVec.ofNat 32 bytes.length =
      c.ssp - BitVec.ofNat 32 (valueBytes .big value ++ bytes).length +
        BitVec.ofNat 32 (valueBytes .big value).length := by
    rw [← hssp, length_valueBytes, BitVec.sub_add_cancel]
  have hmemory := @WordMemory.set_prepend 32 c.memory
    (c.ssp - BitVec.ofNat 32 (valueBytes .big value ++ bytes).length)
    (valueBytes .big value) bytes (by simpa using h)
  rw [← hfirst] at hmemory
  simp only [push, stack, hssp, hmemory]

theorem stack_pushAll (values : List (BitVec 32)) {bytes : List (BitVec 8)}
    (h : 4 * values.length + bytes.length ≤ 2 ^ 32) :
    (c.stack bytes).pushAll values = c.stack (arrayBytes .big values ++ bytes) := by
  induction values with
  | nil => rfl
  | cons value values ih =>
      rw [List.length_cons] at h
      have hrest : (arrayBytes .big values ++ bytes).length = 4 * values.length + bytes.length := by
        simp
      rw [pushAll, List.foldr_cons]
      rw [pushAll] at ih
      rw [ih (by omega), stack_push _ _ _ (by rw [hrest]; omega), arrayBytes, arrayBytes,
        List.flatMap_cons, List.append_assoc]

/-- What the handler is called with. -/
def entered (entry : BitVec 32) : Cpu :=
  { c with
    address := c.address.set 0 c.usp a0_lt
    statusRegister := c.statusRegister &&& 0x7fff ||| 0x2000
    programCounter := entry }

theorem takeException_eq (entry : BitVec 32) :
    c.takeException entry =
      { c.entered entry with address := c.address }.stack
        (valueBytes .big c.statusRegister ++ valueBytes .big c.programCounter) := by
  have hcounter : c.push c.programCounter = c.stack (valueBytes .big c.programCounter) := by
    have hpush := c.stack_push c.programCounter [] (by simp)
    rwa [stack_nil, List.append_nil] at hpush
  have hpushed := c.stack_push c.statusRegister (valueBytes .big c.programCounter) (by simp)
  rw [takeException, hcounter, hpushed]
  rfl

/-- The registers of the code that was interrupted are on the stack. -/
theorem saveRegisters_eq (entry : BitVec 32) :
    (c.takeException entry).saveRegisters = (c.entered entry).stack c.registers.bytes := by
  let rest := valueBytes .big c.statusRegister ++ valueBytes .big c.programCounter
  let before : Cpu := { c.entered entry with address := c.address }
  have hall : (before.stack rest).pushAll (c.data.toList ++ c.address.toList) =
      before.stack (arrayBytes .big (c.data.toList ++ c.address.toList) ++ rest) :=
    before.stack_pushAll _ (by simp [rest])
  have hframe : c.registers.bytes = valueBytes .big c.usp ++
      (arrayBytes .big (c.data.toList ++ c.address.toList) ++ rest) := by
    rw [ThreadRegisters.bytes, ThreadRegisters.words, arrayBytes, List.flatMap_cons,
      List.append_assoc]
    rfl
  have husp := (c.entered entry).stack_push c.usp
    (arrayBytes .big (c.data.toList ++ c.address.toList) ++ rest) (by simp [rest])
  rw [takeException_eq, hframe, ← husp]
  unfold saveRegisters
  have hdata : (before.stack rest).data = c.data := rfl
  have haddress : (before.stack rest).address = c.address := rfl
  simp only [rest, before] at hall hdata haddress
  simp only [hdata, haddress, hall, Vector.get_eq_getElem, Vector.getElem_set_self]
  rfl

/-! Popping. -/

theorem popAll_eq (count : Nat) :
    popAll count c =
      ((List.range count).map fun i => valueAt c.memory 32 (c.ssp + BitVec.ofNat 32 (4 * i)),
        { c with ssp := c.ssp + BitVec.ofNat 32 (4 * count) }) := by
  induction count generalizing c with
  | zero => simp [popAll]
  | succ count ih =>
      have hbehind : ∀ i, c.ssp + BitVec.ofNat 32 4 + BitVec.ofNat 32 (4 * i) =
          c.ssp + BitVec.ofNat 32 (4 * (i + 1)) := by
        intro i
        rw [WordMemory.add_ofNat_add, Nat.mul_succ, Nat.add_comm 4]
      have hfirst : c.ssp + BitVec.ofNat 32 (4 * 0) = c.ssp := by simp
      rw [popAll, pop]
      simp only [ih, List.range_succ_eq_map, List.map_cons, List.map_map, hfirst]
      rw [hbehind]
      simp only [hbehind]
      rfl

/-- The registers in memory. -/
def framePointedTo (memory : WordMemory 32) (pointer : BitVec 32) : ThreadRegisters :=
  ThreadRegisters.ofBytes (memory.bytesAt pointer ThreadRegisters.size)

theorem valueAt_frame (memory : WordMemory 32) (pointer : BitVec 32) {w n offset : Nat}
    (hw : w = 8 * n) (h : offset + n ≤ ThreadRegisters.size) :
    valueAt memory w (pointer + BitVec.ofNat 32 offset) =
      valueOf .big w ((memory.bytesAt pointer ThreadRegisters.size).drop offset) := by
  have hdiv : w / 8 = n := by omega
  obtain ⟨rest, hrest⟩ := Nat.exists_eq_add_of_le h
  rw [valueAt, hdiv, hrest, Nat.add_assoc, WordMemory.bytesAt_add,
    List.drop_left' (WordMemory.length_bytesAt ..), WordMemory.bytesAt_add, valueOf, valueOf,
    hdiv, List.take_left' (WordMemory.length_bytesAt ..),
    List.take_of_length_le (by simp)]

theorem loadRegisters_eq :
    c.loadRegisters =
      { c with
        data := (framePointedTo c.memory c.ssp).data
        address := (framePointedTo c.memory c.ssp).address
        usp := (framePointedTo c.memory c.ssp).stackPointer
        ssp := c.ssp + BitVec.ofNat 32 64 } := by
  have hstack := valueAt_frame c.memory c.ssp (n := 4) (w := 32) rfl
    (show 0 + 4 ≤ ThreadRegisters.size by decide)
  have hvalues : ∀ i < 15, ((List.range 15).map fun i =>
      valueAt c.memory 32 (c.ssp + BitVec.ofNat 32 4 + BitVec.ofNat 32 (4 * i))).getD i 0 =
        valueOf .big 32 ((c.memory.bytesAt c.ssp ThreadRegisters.size).drop (4 * (1 + i))) := by
    intro i hi
    rw [← valueAt_frame c.memory c.ssp (n := 4) rfl (by simp [ThreadRegisters.size]; omega),
      List.getD_eq_getElem?_getD, List.getElem?_map, List.getElem?_range hi, Option.map_some,
      Option.getD_some, WordMemory.add_ofNat_add, Nat.mul_add, Nat.mul_one]
  have hdata : (Vector.ofFn fun i : Fin 8 => ((List.range 15).map fun i =>
      valueAt c.memory 32 (c.ssp + BitVec.ofNat 32 4 + BitVec.ofNat 32 (4 * i))).getD i 0) =
        (framePointedTo c.memory c.ssp).data := by
    apply congrArg Vector.ofFn
    funext i
    exact hvalues i (by omega)
  have haddress : (Vector.ofFn fun i : Fin 7 => ((List.range 15).map fun i =>
      valueAt c.memory 32 (c.ssp + BitVec.ofNat 32 4 + BitVec.ofNat 32 (4 * i))).getD (8 + i) 0) =
        (framePointedTo c.memory c.ssp).address := by
    apply congrArg Vector.ofFn
    funext i
    rw [hvalues (8 + i) (by omega), ← Nat.add_assoc]
  rw [BitVec.add_zero] at hstack
  unfold loadRegisters
  simp only [pop, popAll_eq, WordMemory.add_ofNat_add] at hdata haddress ⊢
  rw [hdata, haddress, hstack]
  rfl

/-- The code goes on with the registers on the stack. -/
theorem loadRegisters_rte :
    c.loadRegisters.rte.registers = framePointedTo c.memory c.ssp ∧
      c.loadRegisters.rte.ssp = c.ssp + BitVec.ofNat 32 ThreadRegisters.size ∧
      c.loadRegisters.rte.memory = c.memory := by
  have hstatus := valueAt_frame c.memory c.ssp (n := 2) (w := 16) rfl
    (show 64 + 2 ≤ ThreadRegisters.size by decide)
  have hcounter := valueAt_frame c.memory c.ssp (n := 4) (w := 32) rfl
    (show 66 + 4 ≤ ThreadRegisters.size by decide)
  rw [loadRegisters_eq]
  unfold rte
  simp only [pop, WordMemory.add_ofNat_add]
  rw [hstatus, hcounter]
  exact ⟨rfl, rfl, trivial⟩

/-! The way there and back. -/

/-- The processor when the handler is called. -/
def called (entry back : BitVec 32) : Cpu :=
  (c.entered entry).stack (valueBytes .big back ++
    (valueBytes .big (c.ssp - BitVec.ofNat 32 ThreadRegisters.size) ++ c.registers.bytes))

variable (entry back : BitVec 32)

theorem called_ssp : (c.called entry back).ssp = c.ssp - BitVec.ofNat 32 78 := by
  simp [called, stack, entered, ThreadRegisters.size]

theorem saveRegisters_ssp :
    ((c.takeException entry).saveRegisters).ssp =
      c.ssp - BitVec.ofNat 32 ThreadRegisters.size := by
  rw [saveRegisters_eq, stack, ThreadRegisters.length_bytes]
  rfl

theorem called_eq :
    ((c.takeException entry).saveRegisters.push (c.takeException entry).saveRegisters.ssp).push
      back = c.called entry back := by
  rw [saveRegisters_ssp, saveRegisters_eq, stack_push _ _ _ (by simp [ThreadRegisters.size]),
    stack_push _ _ _ (by simp [ThreadRegisters.size])]
  rfl

theorem called_bytes (offset count : Nat) (h : offset + count ≤ 78) :
    (c.called entry back).memory.bytesAt ((c.called entry back).ssp + BitVec.ofNat 32 offset)
      count =
        ((valueBytes .big back ++
          (valueBytes .big (c.ssp - BitVec.ofNat 32 ThreadRegisters.size) ++
            c.registers.bytes)).drop offset).take count := by
  exact WordMemory.bytesAt_set_drop (by simp [ThreadRegisters.size])
    (by simpa [ThreadRegisters.size] using h)

/-- The handler is given a pointer to the registers of the code that was interrupted. -/
theorem called_argument :
    valueAt (c.called entry back).memory 32 ((c.called entry back).ssp + 4) =
      c.ssp - BitVec.ofNat 32 ThreadRegisters.size := by
  have hbytes := c.called_bytes entry back 4 4 (by decide)
  rw [List.drop_left' (by simp), List.take_left' (by simp)] at hbytes
  have hvalue := valueOf_valueBytes .big (n := 4) rfl
    (c.ssp - BitVec.ofNat 32 ThreadRegisters.size) []
  rw [List.append_nil, ← hbytes] at hvalue
  exact hvalue

theorem called_frame :
    framePointedTo (c.called entry back).memory (c.ssp - BitVec.ofNat 32 ThreadRegisters.size) =
      c.registers := by
  have hbytes := c.called_bytes entry back 8 ThreadRegisters.size (by decide)
  have hpointer : (c.called entry back).ssp + BitVec.ofNat 32 8 =
      c.ssp - BitVec.ofNat 32 ThreadRegisters.size := by
    rw [called_ssp, ThreadRegisters.size, show 78 = 70 + 8 from rfl, BitVec.ofNat_add,
      ← BitVec.sub_sub, BitVec.sub_add_cancel]
  rw [hpointer, ← List.append_assoc, List.drop_left' (by simp),
    List.take_of_length_le (by simp)] at hbytes
  rw [framePointedTo, hbytes, ThreadRegisters.ofBytes_bytes]

theorem called_memory {x : BitVec 32}
    (hx : ¬ WordMemory.Within (c.ssp - BitVec.ofNat 32 78) 78 x) :
    (c.called entry back).memory x = c.memory x := by
  have hlength : (valueBytes .big back ++
      (valueBytes .big (c.ssp - BitVec.ofNat 32 ThreadRegisters.size) ++
        c.registers.bytes)).length = 78 := by
    simp [ThreadRegisters.size]
  unfold called stack
  rw [hlength]
  exact WordMemory.set_of_not_within (by simp [hlength]) (by rwa [hlength])

/-- The trampoline behind the return of the handler. -/
theorem trampoline_eq (handler : BitVec 32 → Cpu → Cpu) :
    (c.takeException entry).trampoline handler back =
      Cpu.rte (Cpu.loadRegisters
        { handler (c.ssp - BitVec.ofNat 32 ThreadRegisters.size) (c.called entry back) with
          usp := (c.called entry back).usp
          ssp := c.ssp - BitVec.ofNat 32 ThreadRegisters.size }) := by
  have hssp : (c.called entry back).ssp + BitVec.ofNat 32 (32 / 8) + 4 =
      c.ssp - BitVec.ofNat 32 ThreadRegisters.size := by
    rw [called_ssp, ThreadRegisters.size, show 78 = 70 + 4 + 4 from rfl, BitVec.ofNat_add,
      BitVec.ofNat_add, ← BitVec.sub_sub, ← BitVec.sub_sub]
    simp
  unfold trampoline
  simp only [called_eq, called_argument, pop, hssp]

end Cpu

end Cenix
