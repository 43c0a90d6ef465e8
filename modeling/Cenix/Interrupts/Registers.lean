import Cenix.Interrupts.Layout
import Cenix.Kernel.Boot
import Cenix.Kernel.Threads
import Cenix.Scheduler.Runqueues
import Cenix.WordMemory

namespace Cenix

open Fields

/-! `THREAD_READ_REGISTERS` and `THREAD_WRITE_REGISTERS`. -/

/-- The most significant byte and the bits that only the supervisor may set. -/
def sanitizeRegisters (r : ThreadRegisters) : ThreadRegisters :=
  { r with statusRegister := r.statusRegister &&& 0x001f }

/-- `struct read_write_register_args` -/
structure ReadWriteRegisterArgs where
  address : BitVec 32
  size : Nat

/-- How many bytes are copied. -/
def ReadWriteRegisterArgs.count (args : ReadWriteRegisterArgs) : Nat :=
  if args.size > ThreadRegisters.size then ThreadRegisters.size else args.size

/-- The registers with the first bytes of them replaced. -/
def ThreadRegisters.overwrite (r : ThreadRegisters) (bytes : List (BitVec 8)) :
    ThreadRegisters :=
  ofBytes (bytes ++ r.bytes.drop bytes.length)

namespace Kernel

/-- `memory` holds what the user program passes and gets, apart from the threads. -/
def readRegisters (k : Kernel) (memory : WordMemory 32) (slot : SlotPtr)
    (args : ReadWriteRegisterArgs) : Nat × WordMemory 32 × Kernel :=
  let thread := (k.space.slots slot).resource
  let (shouldUnlock, kinds) := heapLock k.kinds thread
  let memory := memory.set args.address ((k.threads thread).registers.bytes.take args.count)
  (0, memory, { k with kinds := unlockIf shouldUnlock kinds thread })

def writeRegisters (k : Kernel) (memory : WordMemory 32) (slot : SlotPtr)
    (args : ReadWriteRegisterArgs) : Nat × Kernel :=
  let thread := (k.space.slots slot).resource
  let (shouldUnlock, kinds) := heapLock k.kinds thread
  let k := { k with kinds := kinds }.modifyThread thread fun t =>
    { t with registers :=
        sanitizeRegisters (t.registers.overwrite (memory.bytesAt args.address args.count)) }
  (0, { k with kinds := unlockIf shouldUnlock k.kinds thread })

end Kernel

/-! What is read after a write. -/

/-- The bytes of registers without the bits that only the supervisor may set. -/
def sanitizeBytes (bytes : List (BitVec 8)) : List (BitVec 8) :=
  (bytes.set 64 0).set 65 (bytes.getD 65 0 &&& 0x1f)

theorem ReadWriteRegisterArgs.count_le (args : ReadWriteRegisterArgs) :
    args.count ≤ ThreadRegisters.size := by
  unfold count
  split <;> omega

/-- The status register has its upper byte first. -/
theorem valueBytes_statusRegister (statusRegister : BitVec 16) :
    ∃ upper lower, valueBytes .big statusRegister = [upper, lower] ∧
      valueBytes .big (statusRegister &&& 0x001f) = [0, lower &&& 0x1f] := by
  refine ⟨BitVec.ofNat 8 (statusRegister.toNat / 2 ^ 8), BitVec.ofNat 8 statusRegister.toNat,
    rfl, ?_⟩
  have hsmall : (statusRegister &&& 0x001f).toNat < 32 := by
    rw [BitVec.toNat_and]
    exact Nat.lt_of_le_of_lt Nat.and_le_right (by decide)
  have hupper : (statusRegister &&& 0x001f).toNat / 2 ^ 8 = 0 :=
    Nat.div_eq_of_lt (Nat.lt_trans hsmall (by decide))
  have hlower : BitVec.ofNat 8 (statusRegister &&& 0x001f).toNat =
      BitVec.ofNat 8 statusRegister.toNat &&& 0x1f := by
    rw [BitVec.toNat_and, BitVec.ofNat_and]
    rfl
  rw [← hlower]
  simp only [valueBytes, numberBytes, ByteOrder.arrange, lowBytes, hupper]
  rfl

namespace ThreadRegisters

variable (r : ThreadRegisters)

theorem bytes_sanitizeRegisters : (sanitizeRegisters r).bytes = sanitizeBytes r.bytes := by
  obtain ⟨upper, lower, hvalue, hsanitized⟩ := valueBytes_statusRegister r.statusRegister
  have hlength : (arrayBytes .big r.words).length = 64 := by simp
  have hlower : r.bytes.getD 65 0 = lower := by
    rw [bytes, List.getD_eq_getElem?_getD, List.getElem?_append_right (by omega), hlength, hvalue]
    rfl
  have hwords : (sanitizeRegisters r).words = r.words := rfl
  rw [sanitizeBytes, hlower, bytes, bytes, hwords, hvalue]
  simp only [sanitizeRegisters, hsanitized]
  rw [List.set_append_right _ _ (by omega), hlength, List.set_append_right _ _ (by omega),
    hlength]
  rfl

theorem bytes_overwrite {bytes : List (BitVec 8)} (h : bytes.length ≤ size) :
    (r.overwrite bytes).bytes = bytes ++ r.bytes.drop bytes.length :=
  bytes_ofBytes (by simp [Nat.add_sub_cancel' h])

theorem overwrite_bytes (r' : ThreadRegisters) : r'.overwrite r.bytes = r := by
  rw [overwrite, length_bytes, List.drop_of_length_le (by simp), List.append_nil, ofBytes_bytes]

end ThreadRegisters

namespace Kernel

/-- The lock of a resource is left as it was. -/
theorem unlockIf_heapLock (kinds : Addr → Kind) (ptr : Addr) :
    unlockIf (heapLock kinds ptr).1 (heapLock kinds ptr).2 ptr = kinds := by
  unfold heapLock unlockIf
  split
  · rename_i hmovable
    rw [if_pos rfl, heapUnlock, Function.update_idem, ← hmovable, Function.update_eq_self]
  · rfl

variable (k : Kernel) (memory memory' : WordMemory 32) (slot slot' : SlotPtr)
  (args args' : ReadWriteRegisterArgs)

theorem readRegisters_eq :
    k.readRegisters memory slot args =
      (0, memory.set args.address
        ((k.threads (k.space.slots slot).resource).registers.bytes.take args.count), k) := by
  unfold readRegisters
  simp only [unlockIf_heapLock]

theorem writeRegisters_eq :
    k.writeRegisters memory slot args =
      (0, k.modifyThread (k.space.slots slot).resource fun t =>
        { t with registers :=
            sanitizeRegisters (t.registers.overwrite (memory.bytesAt args.address args.count)) }) := by
  unfold writeRegisters modifyThread
  simp only [unlockIf_heapLock]

theorem writeRegisters_registers :
    ((k.writeRegisters memory slot args).2.threads (k.space.slots slot).resource).registers =
      sanitizeRegisters ((k.threads (k.space.slots slot).resource).registers.overwrite
        (memory.bytesAt args.address args.count)) := by
  rw [writeRegisters_eq]
  simp only [modifyThread_self]

theorem writeRegisters_bytes :
    ((k.writeRegisters memory slot args).2.threads
      (k.space.slots slot).resource).registers.bytes =
        sanitizeBytes (memory.bytesAt args.address args.count ++
          (k.threads (k.space.slots slot).resource).registers.bytes.drop args.count) := by
  have hlength : (memory.bytesAt args.address args.count).length ≤ ThreadRegisters.size := by
    simpa using args.count_le
  rw [writeRegisters_registers, ThreadRegisters.bytes_sanitizeRegisters,
    ThreadRegisters.bytes_overwrite _ hlength, WordMemory.length_bytesAt]

theorem writeRegisters_of_ne {t : Addr} (ht : t ≠ (k.space.slots slot).resource) :
    (k.writeRegisters memory slot args).2.threads t = k.threads t := by
  rw [writeRegisters_eq]
  simp only [modifyThread_of_ne _ _ _ _ ht]

/-- All the registers of a thread, where they have been read to. -/
theorem bytesAt_readRegisters (hsize : ThreadRegisters.size ≤ args.size) :
    (k.readRegisters memory slot args).2.1.bytesAt args.address args.count =
      (k.threads (k.space.slots slot).resource).registers.bytes := by
  have hcount : args.count = ThreadRegisters.size := by
    unfold ReadWriteRegisterArgs.count
    split <;> omega
  have htake : ∀ frame : ThreadRegisters, frame.bytes.take args.count = frame.bytes :=
    fun frame => List.take_of_length_le (by simp [hcount])
  have hbytes := @WordMemory.bytesAt_set 32 memory args.address
    (k.threads (k.space.slots slot).resource).registers.bytes (by simp [ThreadRegisters.size])
  rw [ThreadRegisters.length_bytes, ← hcount] at hbytes
  rw [readRegisters_eq, htake]
  exact hbytes

/-- Whatever is written and however much is read back, it is what was there with the first
bytes replaced and without the bits of the supervisor.  Registers that are read from one
thread and written to another one are copied. -/
theorem registers_roundTrip :
    (k.writeRegisters memory slot args).2.readRegisters memory' slot args' =
      (0, memory'.set args'.address ((sanitizeBytes (memory.bytesAt args.address args.count ++
        (k.threads (k.space.slots slot).resource).registers.bytes.drop args.count)).take
          args'.count), (k.writeRegisters memory slot args).2) ∧
    (∀ t ≠ (k.space.slots slot).resource,
      (k.writeRegisters memory slot args).2.threads t = k.threads t) ∧
    (ThreadRegisters.size ≤ args.size →
      ((k.writeRegisters (k.readRegisters memory slot' args).2.1 slot args).2.threads
        (k.space.slots slot).resource).registers =
          sanitizeRegisters (k.threads (k.space.slots slot').resource).registers) := by
  refine ⟨?_, fun t ht => k.writeRegisters_of_ne memory slot args ht, fun hsize => ?_⟩
  · have hspace : (k.writeRegisters memory slot args).2.space = k.space := by
      rw [writeRegisters_eq]
      rfl
    rw [readRegisters_eq, hspace, writeRegisters_bytes]
  · rw [writeRegisters_registers, bytesAt_readRegisters _ _ _ _ hsize,
      ThreadRegisters.overwrite_bytes]

/-- A thread that copies its own registers. -/
theorem registers_roundTrip_copied :
    ((zero.writeRegisters (zero.readRegisters (fun _ => 7) (.root 1) ⟨100, 70⟩).2.1 (.root 1)
      ⟨100, 70⟩).2.threads 0).registers = sanitizeRegisters (zero.threads 0).registers :=
  (registers_roundTrip zero (fun _ => 7) (fun _ => 7) (.root 1) (.root 1) ⟨100, 70⟩
    ⟨200, 10⟩).2.2 (by decide)

end Kernel

end Cenix
