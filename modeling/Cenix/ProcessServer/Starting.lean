import Cenix.Interrupts.SystemCalls
import Cenix.ProcessServer.Execution

namespace Cenix.ProcessServer

open Bflt Fields FileProtocol InitrdFs Jax Programs WordMemory
open Vfs (pidBits eNoEnt)

/-! What a program from the archive finds when it runs for the first time. -/

/-- The stack pointer of a program whose stack ends there, with the arguments that it is
passed. -/
def stackTop (stackEnd : Word) : Option (List Word) → Word
  | none => stackEnd
  | some arguments => belowArguments stackEnd arguments

/-- The image of the file is in memory, its arguments are on the stack, and the processor is
at its entry point, outside of supervisor mode. -/
structure Finds (order : ByteOrder) (file : List (BitVec 8)) (entries : Nat)
    (header allocation : Word) (arguments : Option (List Word)) (registers : ThreadRegisters)
    (memory : Ram) : Prop where
  words : ∀ offset ∈ fixedOffsets order (headerOf order file) file entries,
    word order memory (placeOf (headerOf order file) header allocation offset) =
      placeOf (headerOf order file) header allocation
        (word order (image (headerOf order file) file) offset)
  bytes : ∀ offset, offset.toNat < imageSize (headerOf order file) →
    (∀ changed ∈ fixedOffsets order (headerOf order file) file entries,
      ¬ Within changed wordBytes offset) →
    memory (placeOf (headerOf order file) header allocation offset) =
      image (headerOf order file) file offset
  passed : ∀ i (hi : i < (arguments.getD []).length),
    argumentAt order registers memory i = (arguments.getD [])[i]
  stackPointer : stackPointerOf registers =
    stackTop (allocation + bfltAllocationSize (headerOf order file)) arguments
  entry : headerSize ≤ (headerOf order file).entryPoint →
    (headerOf order file).entryPoint < (headerOf order file).dataStart →
    registers.programCounter = placeOf (headerOf order file) header allocation
      ((headerOf order file).entryPoint - headerSize)
  got : (headerOf order file).gotpic = true → registers.address.toList[5]? = some allocation
  userMode : registers.UserMode

/-! Loading. -/

section

variable {order : ByteOrder} {h : BfltHeader} {header allocation : Word} {m : Ram}

theorem fixUpGot_more {g : Segments} {fuel : Nat} (more : Nat) {got gotEnd : Word}
    {s s' : Loading} (hload : fixUpGot order h g fuel got s = some (s', gotEnd)) :
    fixUpGot order h g (fuel + more) got s = some (s', gotEnd) := by
  induction fuel generalizing got s with
  | zero => cases hload
  | succ fuel ih =>
      rw [Nat.add_right_comm]
      rw [fixUpGot] at hload ⊢
      split
      · rename_i hterminator
        rwa [if_pos hterminator] at hload
      · rename_i hused
        rw [if_neg hused] at hload
        exact ih hload

theorem bfltLoad_more {fuel : Nat} (more : Nat) {loaded : Loaded}
    (hload : bfltLoad order fuel header allocation m = some loaded) :
    bfltLoad order (fuel + more) header allocation m = some loaded := by
  unfold bfltLoad at hload ⊢
  simp only at hload ⊢
  split
  · rename_i hmode
    rw [if_pos hmode, Option.map_eq_some_iff] at hload
    obtain ⟨⟨s, gotEnd⟩, hgot, heq⟩ := hload
    rw [fixUpGot_more more hgot]
    exact congrArg some heq
  · rename_i hmode
    rwa [if_neg hmode] at hload

theorem bfltLoad_registers {fuel : Nat} {loaded : Loaded}
    (hload : bfltLoad order fuel header allocation m = some loaded) :
    loaded.registers = entryRegisters (headerAt order m header) header allocation := by
  unfold bfltLoad at hload
  simp only at hload
  split at hload
  · rw [Option.map_eq_some_iff] at hload
    obtain ⟨⟨s, gotEnd⟩, -, rfl⟩ := hload
    rfl
  · cases hload
    rfl

/-- The entry point is in the text of the binary. -/
theorem programCounter_entryRegisters (hle : headerSize ≤ h.entryPoint)
    (hlt : h.entryPoint < h.dataStart) :
    (entryRegisters h header allocation).programCounter =
      placeOf h header allocation (h.entryPoint - headerSize) := by
  have hoffset : (h.entryPoint - headerSize).toNat = h.entryPoint.toNat - headerSize.toNat :=
    BitVec.toNat_sub_of_le hle
  have hentry := BitVec.le_def.mp hle
  have hdata := BitVec.lt_def.mp hlt
  unfold entryRegisters
  cases hmode : h.gotpic with
  | true =>
      have hinPlace : h.entryPoint - headerSize < h.inPlace := by
        have hstart : h.inPlace.toNat = h.dataStart.toNat - headerSize.toNat := by
          rw [BfltHeader.inPlace, copyStart_of_gotpic h hmode]
          exact BitVec.toNat_sub_of_le (BitVec.le_def.mpr (by omega))
        rw [BitVec.lt_def, hoffset, hstart]
        omega
      rw [placeOf, if_pos hinPlace, BitVec.add_assoc, BitVec.add_comm headerSize,
        BitVec.sub_add_cancel]
      rfl
  | false =>
      have hzero : h.entryPoint - headerSize - 0 = h.entryPoint - headerSize :=
        BitVec.sub_zero _
      have hassoc : allocation + h.entryPoint - headerSize =
          allocation + (h.entryPoint - headerSize) := by
        rw [BitVec.sub_eq_add_neg, BitVec.sub_eq_add_neg, BitVec.add_assoc]
      rw [placeOf, if_neg (not_lt_inPlace h _ hmode), inPlace_of_copied h hmode, hzero, ← hassoc]
      rfl

theorem gotPointer_entryRegisters (hmode : h.gotpic = true) :
    (entryRegisters h header allocation).gotPointer = some allocation := by
  simp [entryRegisters, segments, hmode]

end

/-! The registers. -/

section

variable (loaded : Bflt.Registers) (registers : ThreadRegisters)

theorem stackPointerOf_setRegisters :
    stackPointerOf (setRegisters loaded registers) = loaded.stackPointer := by
  unfold setRegisters
  cases loaded.gotPointer <;> rfl

theorem programCounter_setRegisters :
    (setRegisters loaded registers).programCounter = loaded.programCounter := by
  unfold setRegisters
  cases loaded.gotPointer <;> rfl

theorem address_setRegisters {got : Word} (hgot : loaded.gotPointer = some got) :
    (setRegisters loaded registers).address.toList[5]? = some got := by
  have hset : ∀ (v : Vector (BitVec 32) 7) (got : BitVec 32),
      (v.setIfInBounds 5 got).toList[5]? = some got := by
    intro v got
    simp
  unfold setRegisters
  rw [hgot]
  exact hset _ got

/-- The callback passes the arguments below the end of the stack. -/
theorem callbackResult_passArguments {order : ByteOrder} {m : Ram}
    {arguments : Option (List Word)} (hlength : 4 * (arguments.getD []).length ≤ 2 ^ ptrBits) :
    callbackResult (arguments.map (passArguments order)) registers m =
      (0, setStackPointer registers (stackTop (stackPointerOf registers) arguments),
        m.set (stackTop (stackPointerOf registers) arguments + 4)
          (arrayBytes order (arguments.getD []))) := by
  cases arguments with
  | none =>
      have hsame : m.set (stackPointerOf registers + 4) [] = m := by
        funext x
        simp [WordMemory.set]
      exact congrArg (fun m => (0, registers, m)) hsame.symm
  | some arguments => exact passArguments_eq registers hlength

end

/-! The image and the arguments. -/

section

variable {order : ByteOrder} {file : List (BitVec 8)} {entries : Nat}
  {header allocation : Word} {m : Ram}

/-- The arguments are on the stack of the program. -/
theorem set_arguments (hfile : Consistent order (headerOf order file) file entries)
    (hload : Loadable (headerOf order file) file header allocation m)
    {arguments : Option (List Word)}
    (hroom : 4 * (arguments.getD []).length ≤ (headerOf order file).stackSize.toNat)
    {offset : Word} (hoffset : offset.toNat < imageSize (headerOf order file)) (memory : Ram) :
    memory.set (stackTop (allocation + bfltAllocationSize (headerOf order file)) arguments + 4)
      (arrayBytes order (arguments.getD []))
        (placeOf (headerOf order file) header allocation offset) =
      memory (placeOf (headerOf order file) header allocation offset) := by
  have hsize := hfile.allocationSize_toNat
  have himage := hfile.imageSize_eq
  have hbound := hload.bound
  have hlimit := (headerOf order file).stackSize.isLt
  have hlength : (arrayBytes order (arguments.getD [])).length = 4 * (arguments.getD []).length :=
    length_arrayBytes ..
  -- the arguments end where the allocation ends
  have hstart : 0 < (arguments.getD []).length →
      stackTop (allocation + bfltAllocationSize (headerOf order file)) arguments + 4 =
        allocation + BitVec.ofNat ptrBits ((bfltAllocationSize (headerOf order file)).toNat -
          4 * (arguments.getD []).length) := by
    intro hpos
    cases arguments with
    | none => cases hpos
    | some arguments =>
        rw [Option.getD_some] at hroom hpos ⊢
        apply BitVec.eq_of_toNat_eq
        have hfour : (4 : Word).toNat = 4 := rfl
        simp only [stackTop, belowArguments, BitVec.toNat_add, BitVec.toNat_sub,
          BitVec.toNat_ofNat, hfour]
        simp only [ptrBits] at *
        omega
  apply set_of_not_within (by omega)
  intro hwithin
  rw [hlength] at hwithin
  have hpos : 0 < (arguments.getD []).length := by
    obtain ⟨i, hi, -⟩ := hwithin
    omega
  rw [hstart hpos] at hwithin
  by_cases hlt : offset < (headerOf order file).inPlace
  · have hbounds := hfile.copyStart_bounds
    have hcontents := hfile.contents
    have hinPlace := hfile.inPlace_toNat
    have hbefore := BitVec.lt_def.mp hlt
    rw [placeOf_of_lt hlt] at hwithin
    exact hload.apart (64 + offset.toNat) (by omega) (hwithin.behind (by omega))
  · have hbehind := BitVec.le_def.mp (BitVec.not_lt.mp hlt)
    rw [placeOf_of_not_lt hlt, within_offset (by omega) (by omega)] at hwithin
    omega

/-- A consistent binary that has been loaded into a proper allocation is what the program
finds. -/
theorem finds_of_bfltLoad (hfile : Consistent order (headerOf order file) file entries)
    (hload : Loadable (headerOf order file) file header allocation m)
    {arguments : Option (List Word)}
    (hroom : 4 * (arguments.getD []).length ≤ (headerOf order file).stackSize.toNat)
    (uninitialized : ThreadRegisters) {fuel : Nat} (hfuel : entries < fuel) :
    ∃ loaded, bfltLoad order fuel header allocation m = some loaded ∧
      ∃ registers memory, callbackResult (arguments.map (passArguments order))
        (setRegisters loaded.registers uninitialized) loaded.loading.memory =
          (0, registers, memory) ∧
        Finds order file entries header allocation arguments (sanitizeRegisters registers)
          memory := by
  obtain ⟨loaded, hloaded, hrelocates⟩ := hfile.bfltLoad_relocates hload
  obtain ⟨more, rfl⟩ := Nat.exists_eq_add_of_le (Nat.succ_le_of_lt hfuel)
  have hbounds := hfile.copyStart_bounds
  have hcontents := hfile.contents
  have hsize : headerSize.toNat ≤ file.length := by
    rw [headerSize_toNat]
    omega
  have hregisters := bfltLoad_registers hloaded
  rw [headerAt_eq hload.stored hfile.length hsize] at hregisters
  have hstack : stackPointerOf (setRegisters loaded.registers uninitialized) =
      allocation + bfltAllocationSize (headerOf order file) := by
    rw [stackPointerOf_setRegisters, hregisters]
    rfl
  have hlimit := (headerOf order file).stackSize.isLt
  have hlength : 4 * (arguments.getD []).length ≤ 2 ^ ptrBits := by omega
  have hcallback := @callbackResult_passArguments
    (setRegisters loaded.registers uninitialized) order loaded.loading.memory arguments hlength
  rw [hstack] at hcallback
  refine ⟨loaded, bfltLoad_more more hloaded, _, _, hcallback, ?_⟩
  have hsame := fun (offset : Word) (hoffset : offset.toNat < imageSize (headerOf order file)) =>
    set_arguments hfile hload hroom hoffset loaded.loading.memory
  have hall := hfile.fixedOffsets_inAllocation
  constructor
  · intro offset hoffset
    rw [← hrelocates.words offset hoffset]
    apply wordAt_congr
    intro i hi
    rw [(hall offset hoffset).placeOf_add hi]
    apply hsame
    rw [(hall offset hoffset).toNat_add hi]
    have hbound := (hall offset hoffset).2
    have hbytes : wordBytes = 4 := rfl
    omega
  · intro offset hoffset hapart
    rw [hsame offset hoffset]
    exact hrelocates.bytes offset hoffset hapart
  · intro i hi
    cases arguments with
    | none => cases hi
    | some arguments => exact argumentAt_passArguments hlength rfl hi
  · rfl
  · intro hle hlt
    have hentry : (setRegisters loaded.registers uninitialized).programCounter =
        (entryRegisters (headerOf order file) header allocation).programCounter := by
      rw [programCounter_setRegisters, hregisters]
    exact hentry.trans (programCounter_entryRegisters hle hlt)
  · intro hmode
    exact address_setRegisters _ _ (hregisters ▸ gotPointer_entryRegisters hmode)
  · exact ThreadRegisters.userMode_sanitizeRegisters _

end

/-! The outcomes of `exec_from_initrd`. -/

section

variable {κ : Type}

/-- The regular file with that path. -/
def wanted (iter : JaxIterator) (records : List DescribedRecord) (path : List Byte) :
    Option (Nat × DescribedRecord) :=
  (located iter.start records).find? fun child =>
    decide (IsWanted JaxTool.typeRegular (withoutSlash path) child.2)

/-- The address of the contents of a file. -/
def headerAddress (child : Nat × DescribedRecord) : Word :=
  BitVec.ofNat ptrBits (dataOf child).1

/-- The archive and the path are in memory, and no other file has a name that starts with
the path in front of the one that is looked for. -/
structure InArchive (w : World κ) (iter : JaxIterator) (records : List DescribedRecord)
    (filename : Nat) (path : List Byte) : Prop where
  ahead : Ahead (World.numbered w.memory) iter records
  stored : (World.numbered w.memory).Stored filename (path ++ [0])
  terminated : 0 ∉ path
  first : FirstIsExact iter records JaxTool.typeRegular (withoutSlash path)

/-- The file is a consistent binary with room for the arguments, and memory for it that the
kernel locks is apart from the archive. -/
structure Suited (order : ByteOrder) (w : World κ) (pid : Nat) (child : Nat × DescribedRecord)
    (entries : Nat) (arguments : Option (List Word)) : Prop where
  binary : Consistent order (headerOf order child.2.data) child.2.data entries
  room : 4 * (arguments.getD []).length ≤ (headerOf order child.2.data).stackSize.toNat
  memory : (w.locked pid).pointer ≠ 0 → Loadable (headerOf order child.2.data) child.2.data
    (headerAddress child) (w.locked pid).pointer (w.locked pid).memory

/-- What `exec_from_initrd` returns and when, and what it has changed then. -/
inductive ExecOutcome (order : ByteOrder) (w : World κ) (pid nodeAddress entries : Nat)
    (arguments : Option (List Word)) (file : Option (Nat × DescribedRecord)) :
    Nat → World κ → Prop where
  | missing {w' : World κ} (hfile : file = none) (huntouched : Untouched w w') :
      ExecOutcome order w pid nodeAddress entries arguments file eNoEnt w'
  | noBinary {w' : World κ} (child : Nat × DescribedRecord) (hfile : file = some child)
      (hverify : bfltVerify (headerAt order w.memory (headerAddress child)) = false)
      (huntouched : Untouched w w') :
      ExecOutcome order w pid nodeAddress entries arguments file eNoExec w'
  | refused {w' : World κ} (child : Nat × DescribedRecord) (hfile : file = some child)
      (hverify : bfltVerify (headerAt order w.memory (headerAddress child)) = true)
      (hgranted : ¬ Granted w pid) (huntouched : Untouched w w') :
      ExecOutcome order w pid nodeAddress entries arguments file eNoMem w'
  | started (child : Nat × DescribedRecord) (hfile : file = some child)
      (hverify : bfltVerify (headerAt order w.memory (headerAddress child)) = true)
      (hgranted : Granted w pid) (registers : ThreadRegisters) (memory : Ram)
      (hfinds : Finds order child.2.data entries (headerAddress child) (w.locked pid).pointer
        arguments (sanitizeRegisters registers) memory) :
      ExecOutcome order w pid nodeAddress entries arguments file 0
        ((w.prepared pid (bfltAllocationSize (headerOf order child.2.data))).launched pid
          nodeAddress registers memory)

variable {order : ByteOrder} {w : World κ} {pid nodeAddress fuel entries filename : Nat}
  {iter : JaxIterator} {records : List DescribedRecord} {path : List Byte}
  {arguments : Option (List Word)}

/-- The contents of a file are where its header is looked for. -/
theorem holds_of_wanted (hahead : Ahead (World.numbered w.memory) iter records)
    {child : Nat × DescribedRecord} (hwanted : wanted iter records path = some child) :
    w.memory.Holds (headerAddress child) child.2.data := by
  have hstored := stored_of_mem_located hahead.stored (List.mem_of_find?_eq_some hwanted)
  rw [DescribedRecord.bytes, Memory.stored_append] at hstored
  have hdata := hstored.2
  have hstart : child.1 + ([child.2.type] ++ u16ToLe (BitVec.ofNat 16 child.2.name.length) ++
      child.2.name ++ u16ToLe (BitVec.ofNat 16 child.2.description.length) ++
        child.2.description ++ child.2.otherFields).length = (dataOf child).1 := by
    simp [dataOf, DescribedRecord.file, Record.otherFields]
    omega
  rw [hstart] at hdata
  refine Eq.trans (List.map_congr_left fun i _ => ?_) hdata
  rw [World.numbered, headerAddress, BitVec.ofNat_add]

theorem jaxFind_wanted (harchive : InArchive w iter records filename path)
    (hfuel : records.length < fuel) :
    jaxFind (World.numbered w.memory) fuel iter filename JaxTool.typeRegular =
      some ((wanted iter records path).map dataOf) :=
  (jaxFind_exact_iff JaxTool.typeRegular harchive.ahead harchive.stored
    harchive.terminated).mpr harchive.first fuel hfuel

section

variable {child : Nat × DescribedRecord}

theorem execFromInitrd_found (harchive : InArchive w iter records filename path)
    (hfuel : records.length < fuel) (hwanted : wanted iter records path = some child)
    (callback : Option RegistersCallback) :
    execFromInitrd order fuel pid iter filename nodeAddress callback w =
      (if !bfltVerify (headerAt order w.memory (headerAddress child)) then
        (return eNoExec : Server κ Nat)
      else
        execHeader order fuel pid (headerAddress child)
          (bfltAllocationSize (headerAt order w.memory (headerAddress child))) nodeAddress
          callback) w := by
  have hget : (get : Server κ (World κ)) w = some (w, w) := rfl
  rw [execFromInitrd, bind_of hget, jaxFind_wanted harchive hfuel, hwanted]
  rfl

theorem headerAt_wanted (harchive : InArchive w iter records filename path)
    (hwanted : wanted iter records path = some child)
    (hbinary : Consistent order (headerOf order child.2.data) child.2.data entries) :
    headerAt order w.memory (headerAddress child) = headerOf order child.2.data := by
  have hbounds := hbinary.copyStart_bounds
  have hcontents := hbinary.contents
  have hsize : headerSize.toNat ≤ child.2.data.length := by
    rw [headerSize_toNat]
    omega
  exact headerAt_eq (holds_of_wanted harchive.ahead hwanted) hbinary.length hsize

/-- What is granted is enough for the program to be started. -/
theorem execFromInitrd_started (hpid : pid < 2 ^ pidBits) (hobliging : Obliging w)
    (harchive : InArchive w iter records filename path)
    (hwanted : wanted iter records path = some child)
    (hverify : bfltVerify (headerAt order w.memory (headerAddress child)) = true)
    (hsuits : Suited order w pid child entries arguments) (hgranted : Granted w pid)
    (hfuel : records.length < fuel) (hentries : entries < fuel) :
    ∃ registers memory,
      execFromInitrd order fuel pid iter filename nodeAddress
        (arguments.map (passArguments order)) w =
        some (0, (w.prepared pid (bfltAllocationSize (headerOf order child.2.data))).launched
          pid nodeAddress registers memory) ∧
      Finds order child.2.data entries (headerAddress child) (w.locked pid).pointer arguments
        (sanitizeRegisters registers) memory := by
  obtain ⟨loaded, hloaded, registers, memory, hcallback, hfinds⟩ :=
    finds_of_bfltLoad hsuits.binary (hsuits.memory hgranted.locked) hsuits.room
      w.uninitialized hentries
  let prepared := w.prepared pid (bfltAllocationSize (headerOf order child.2.data))
  have hlaunched : launch order fuel pid (headerAddress child) (w.locked pid).pointer
      nodeAddress (arguments.map (passArguments order)) prepared =
      some (0, prepared.launched pid nodeAddress registers memory) :=
    launch_resumed hpid (hobliging.of_answers rfl) (Function.update_self ..) hloaded hcallback
  refine ⟨registers, memory, ?_, hfinds⟩
  rw [execFromInitrd_found harchive hfuel hwanted, hverify,
    headerAt_wanted harchive hwanted hsuits.binary]
  exact (execHeader_granted hpid hgranted).trans hlaunched

theorem execFromInitrd_refused (hpid : pid < 2 ^ pidBits) (hobliging : Obliging w)
    (harchive : InArchive w iter records filename path)
    (hwanted : wanted iter records path = some child)
    (hverify : bfltVerify (headerAt order w.memory (headerAddress child)) = true)
    (hgranted : ¬ Granted w pid) (hfuel : records.length < fuel)
    (callback : Option RegistersCallback) :
    ∃ w', execFromInitrd order fuel pid iter filename nodeAddress callback w =
      some (eNoMem, w') ∧ Untouched w w' := by
  rw [execFromInitrd_found harchive hfuel hwanted, hverify]
  exact execHeader_refused hpid hobliging hgranted

end

end

/-- The regular file `"a"` with a small binary. -/
def binaryRecord : DescribedRecord where
  type := JaxTool.typeRegular
  name := [0x61]
  timestamp := 0
  mode := 0
  owner := 0
  group := 0
  data := gotBinary
  description := []
  nameBound := emptyFile.nameBound
  dataBound := by decide
  descriptionBound := directoryD.descriptionBound

/-- The record in front of `0x2000`, where its binary starts, and the path `"/a"`. -/
def binaryMemory : Ram :=
  WordMemory.set (WordMemory.set (fun _ => 0) 0x1fe4 binaryRecord.bytes) 0x100 [0x2f, 0x61, 0]

/-- A process server whose kernel has memory at `0x1000`. -/
def binaryWorld : World Unit where
  answers _ _ := ⟨0, 0x1000, binaryMemory, none, 0⟩
  time := 0
  memory := binaryMemory
  uninitialized := .zero
  pids := initProcessTable
  slots _ := none
  nodes _ := none
  data _ := none
  threads _ := none
  sent := []

theorem binaryRecord_inArchive {κ : Type} {w : World κ}
    (hrecord : (World.numbered w.memory).Stored 0x1fe4
      ([binaryRecord].flatMap DescribedRecord.bytes))
    (hpath : (World.numbered w.memory).Stored 0x100 ([0x2f, 0x61] ++ [0])) :
    InArchive w ⟨0x1fe4, 0x205c⟩ [binaryRecord] 0x100 [0x2f, 0x61] := by
  constructor
  · refine ⟨hrecord, ?_, ?_⟩
    · decide +kernel
    · decide
  · exact hpath
  · decide
  · intro child hmem
    obtain rfl : child = (0x1fe4, binaryRecord) :=
      List.mem_singleton.mp (List.mem_of_find?_eq_some hmem)
    decide

end Cenix.ProcessServer
