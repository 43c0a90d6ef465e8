import Cenix.Kernel.LookUp
import Cenix.Runs
import Cenix.Vfs.Layout

namespace Cenix.ProcessServer

open Vfs (nodeAddress initNodeDepth pidBits processDataNodeSlot)

/-! The set of used pids of the process server and the nodes that pids index. -/

def pidThreadNodeSlot : Nat := 3
def pidDataNodeSlot : Nat := 5

def pidMax : Nat := 1024

def wordBits : Nat := 32

/-- The memory behind `PID_SET_SLOT` as 32-bit words. -/
abbrev PidSet := Nat → BitVec wordBits

/-- `init_process_table` leaves pids 0 and 1 reserved. -/
def initProcessTable : PidSet :=
  Function.update (fun _ => 0) 0 3

/-- The search for the first clear bit of a word with `remaining` bits to go. -/
def bitIndex (value : BitVec wordBits) : (remaining bit : Nat) → Nat
  | 0, bit => bit
  | remaining + 1, bit =>
      if value &&& BitVec.twoPow wordBits bit ≠ 0 then bitIndex value remaining (bit + 1)
      else bit

/-- The loop over the words from `i` on with `remaining` words to go. -/
def allocateFrom (set : PidSet) : (remaining i : Nat) → Nat × PidSet
  | 0, _ => (0, set)
  | remaining + 1, i =>
      let value := set i
      if value = BitVec.allOnes wordBits then
        allocateFrom set remaining (i + 1)
      else
        let bit := bitIndex value wordBits 0
        (i * wordBits + bit,
          Function.update set i (set i ||| BitVec.twoPow wordBits bit))

/-- `locked` says whether the set could be locked. -/
def allocatePid (locked : Bool) (set : PidSet) : Nat × PidSet :=
  if locked then allocateFrom set (pidMax / wordBits) 0 else (0, set)

def releasePid (locked : Bool) (set : PidSet) (pid : Nat) : Option PidSet :=
  if locked then
    let i := pid / wordBits
    some (Function.update set i (set i &&& ~~~ BitVec.twoPow wordBits (pid % wordBits)))
  else
    -- a write through the null pointer
    none

/-! The set as a predicate. -/

def Used (set : PidSet) (pid : Nat) : Prop :=
  (set (pid / wordBits)).getLsbD (pid % wordBits) = true

theorem used_initProcessTable {pid : Nat} : Used initProcessTable pid ↔ pid < 2 := by
  have hword : ∀ bit, bit < wordBits →
      ((3 : BitVec wordBits).getLsbD bit = true ↔ bit < 2) := by
    decide
  have hsplit := Nat.div_add_mod pid wordBits
  have hmod : pid % wordBits < wordBits := Nat.mod_lt _ (by decide)
  cases hword' : pid / wordBits with
  | zero =>
      simp only [Used, initProcessTable, hword', Function.update_self]
      rw [hword _ hmod]
      rw [hword'] at hsplit
      omega
  | succ i =>
      have hlarge : ¬ pid < 2 := by
        rw [hword'] at hsplit
        simp only [wordBits] at hsplit
        omega
      simp [Used, initProcessTable, hword', hlarge]

theorem and_twoPow_ne_zero (value : BitVec wordBits) {bit : Nat} (hbit : bit < wordBits) :
    value &&& BitVec.twoPow wordBits bit ≠ 0 ↔ value.getLsbD bit = true := by
  have hne : BitVec.twoPow wordBits bit ≠ BitVec.ofNat wordBits 0 := by
    intro hzero
    have hget := congrArg (fun value => value.getLsbD bit) hzero
    simp [hbit] at hget
  rw [BitVec.and_twoPow]
  cases hset : value.getLsbD bit with
  | true => simpa using hne
  | false => simp

theorem bitIndex_first (value : BitVec wordBits) {remaining bit : Nat}
    (hwidth : bit + remaining = wordBits)
    (hset : ∀ i, i < bit → value.getLsbD i = true) :
    (∀ i, i < bitIndex value remaining bit → value.getLsbD i = true) ∧
      (bitIndex value remaining bit < wordBits →
        value.getLsbD (bitIndex value remaining bit) = false) := by
  induction remaining generalizing bit with
  | zero =>
      refine ⟨hset, fun hlt => ?_⟩
      simp only [bitIndex] at hlt
      omega
  | succ remaining ih =>
      rw [bitIndex]
      split
      · rename_i hbit
        rw [and_twoPow_ne_zero value (by omega)] at hbit
        apply ih (by omega)
        intro i hi
        cases Nat.lt_succ_iff_lt_or_eq.mp hi with
        | inl hlt => exact hset i hlt
        | inr heq => rwa [heq]
      · rename_i hbit
        rw [and_twoPow_ne_zero value (by omega)] at hbit
        exact ⟨hset, fun _ => by simpa using hbit⟩

theorem bitIndex_lt {value : BitVec wordBits} (hfree : value ≠ BitVec.allOnes wordBits) :
    bitIndex value wordBits 0 < wordBits := by
  apply Nat.lt_of_not_le
  intro hle
  apply hfree
  apply BitVec.eq_of_getLsbD_eq
  intro i hi
  have hfirst := bitIndex_first value (Nat.zero_add wordBits) (by simp)
  rw [hfirst.1 i (by omega), BitVec.getLsbD_allOnes, decide_eq_true hi]

theorem div_mod_inj {pid i bit : Nat} (hbit : bit < wordBits) :
    pid / wordBits = i ∧ pid % wordBits = bit ↔ pid = i * wordBits + bit := by
  simp only [wordBits] at *
  omega

theorem used_setBit (set : PidSet) {i bit pid : Nat} (hbit : bit < wordBits) :
    Used (Function.update set i (set i ||| BitVec.twoPow wordBits bit)) pid ↔
      Used set pid ∨ pid = i * wordBits + bit := by
  rw [← div_mod_inj hbit]
  simp only [Used, Function.update_apply]
  have hmod : pid % wordBits < wordBits := Nat.mod_lt _ (by decide)
  split
  · rename_i hi
    rw [BitVec.getLsbD_or, BitVec.getLsbD_twoPow]
    simp [hi, hbit, @eq_comm _ bit]
  · rename_i hi
    simp [hi]

theorem used_clearBit (set : PidSet) {i bit pid : Nat} (hbit : bit < wordBits) :
    Used (Function.update set i (set i &&& ~~~ BitVec.twoPow wordBits bit)) pid ↔
      Used set pid ∧ pid ≠ i * wordBits + bit := by
  rw [Ne, ← div_mod_inj hbit]
  simp only [Used, Function.update_apply]
  have hmod : pid % wordBits < wordBits := Nat.mod_lt _ (by decide)
  split
  · rename_i hi
    rw [BitVec.getLsbD_and, BitVec.getLsbD_not, BitVec.getLsbD_twoPow]
    simp [hi, hbit, hmod, @eq_comm _ bit]
  · rename_i hi
    simp [hi]

/-- The loop ends at the least unused pid, or at 0 without one. -/
theorem allocateFrom_first (set : PidSet) (remaining i : Nat) :
    ((∀ pid, i * wordBits ≤ pid → pid < (i + remaining) * wordBits → Used set pid) ∧
        allocateFrom set remaining i = (0, set)) ∨
      ∃ pid set', allocateFrom set remaining i = (pid, set') ∧
        i * wordBits ≤ pid ∧ pid < (i + remaining) * wordBits ∧ ¬ Used set pid ∧
        (∀ q, i * wordBits ≤ q → q < pid → Used set q) ∧
        ∀ q, Used set' q ↔ Used set q ∨ q = pid := by
  induction remaining generalizing i with
  | zero =>
      refine .inl ⟨fun pid hfrom hto => ?_, rfl⟩
      simp only [Nat.add_zero] at hto
      omega
  | succ remaining ih =>
      rw [allocateFrom]
      split
      · rename_i hfull
        have hword : ∀ q, i * wordBits ≤ q → q < (i + 1) * wordBits → Used set q := by
          intro q hfrom hto
          have hdiv : q / wordBits = i := by
            rw [Nat.div_eq_of_lt_le hfrom hto]
          simp [Used, hdiv, hfull, Nat.mod_lt q (show 0 < wordBits by decide)]
        have hend : i + 1 + remaining = i + (remaining + 1) := by omega
        have hnext : (i + 1) * wordBits ≤ (i + (remaining + 1)) * wordBits :=
          Nat.mul_le_mul_right _ (by omega)
        have hstart : i * wordBits ≤ (i + 1) * wordBits := Nat.mul_le_mul_right _ (by omega)
        cases ih (i + 1) with
        | inl hnone =>
            refine .inl ⟨fun q hfrom hto => ?_, hnone.2⟩
            cases Nat.lt_or_ge q ((i + 1) * wordBits) with
            | inl hlt => exact hword q hfrom hlt
            | inr hge => exact hnone.1 q hge (by rwa [hend])
        | inr hsome =>
            obtain ⟨pid, set', hrun, hfrom, hto, hfree, hleast, hset⟩ := hsome
            refine .inr ⟨pid, set', hrun, by omega, by rwa [hend] at hto, hfree, ?_, hset⟩
            intro q hq hlt
            cases Nat.lt_or_ge q ((i + 1) * wordBits) with
            | inl hin => exact hword q hq hin
            | inr hout => exact hleast q hout hlt
      · rename_i hfree
        have hbit := bitIndex_lt hfree
        obtain ⟨hlower, hclear⟩ :=
          bitIndex_first (set i) (Nat.zero_add wordBits) (by simp)
        refine .inr ⟨_, _, rfl, Nat.le_add_right _ _, ?_, ?_, ?_, fun q => used_setBit set hbit⟩
        · rw [Nat.add_mul, Nat.succ_mul]
          omega
        · have hsplit := (div_mod_inj hbit).mpr (rfl : i * wordBits + _ = _)
          simp [Used, hsplit.1, hsplit.2, hclear hbit]
        · intro q hfrom hlt
          have hsplit : q / wordBits = i ∧ q % wordBits = q - i * wordBits :=
            (div_mod_inj (by omega)).mpr (by omega)
          rw [Used, hsplit.1, hsplit.2]
          exact hlower _ (by omega)

/-! Runs of the allocator. -/

structure Processes where
  set : PidSet
  live : List Nat

inductive Call where
  | allocate
  | release (pid : Nat)

/-- One call whose lock succeeds; only live pids are released. -/
def step (s : Processes) : Call → Option Processes
  | .allocate =>
      let (pid, set) := allocatePid true s.set
      some ⟨set, if pid = 0 then s.live else pid :: s.live⟩
  | .release pid =>
      if pid ∈ s.live then
        (releasePid true s.set pid).map fun set => ⟨set, s.live.erase pid⟩
      else
        none

def Initial (s : Processes) : Prop :=
  s = ⟨initProcessTable, []⟩

structure Agrees (s : Processes) : Prop where
  distinct : s.live.Nodup
  bounds : ∀ pid ∈ s.live, 2 ≤ pid ∧ pid < pidMax
  used : ∀ pid, pid < pidMax → (Used s.set pid ↔ pid < 2 ∨ pid ∈ s.live)

theorem Agrees.initial : Agrees ⟨initProcessTable, []⟩ where
  distinct := List.nodup_nil
  bounds := by simp
  used := by simp [used_initProcessTable]

/-- The least pid that is not live, or none. -/
theorem Agrees.allocate {s : Processes} (h : Agrees s) :
    ((∀ pid, 2 ≤ pid → pid < pidMax → pid ∈ s.live) ∧
        allocatePid true s.set = (0, s.set)) ∨
      ∃ pid set, allocatePid true s.set = (pid, set) ∧ 2 ≤ pid ∧ pid < pidMax ∧
        pid ∉ s.live ∧ (∀ q, 2 ≤ q → q < pid → q ∈ s.live) ∧
        ∀ q, Used set q ↔ Used s.set q ∨ q = pid := by
  have hbound : (0 + pidMax / wordBits) * wordBits = pidMax := by decide
  have hrun : allocatePid true s.set = allocateFrom s.set (pidMax / wordBits) 0 := rfl
  rw [hrun]
  cases allocateFrom_first s.set (pidMax / wordBits) 0 with
  | inl hnone =>
      refine .inl ⟨fun pid hfrom hto => ?_, hnone.2⟩
      have hused := hnone.1 pid (by omega) (by rwa [hbound])
      exact ((h.used pid hto).mp hused).resolve_left (by omega)
  | inr hsome =>
      obtain ⟨pid, set, hpid, _, hto, hfree, hleast, hset⟩ := hsome
      rw [hbound] at hto
      rw [h.used pid hto, not_or] at hfree
      refine .inr ⟨pid, set, hpid, by omega, hto, hfree.2, ?_, hset⟩
      intro q hfrom hlt
      have hused := hleast q (by omega) hlt
      exact ((h.used q (by omega)).mp hused).resolve_left (by omega)

theorem Agrees.step {s s' : Processes} {call : Call} (h : Agrees s)
    (hstep : step s call = some s') : Agrees s' := by
  cases call with
  | allocate =>
      cases h.allocate with
      | inl hnone =>
          simp only [ProcessServer.step, hnone.2, if_true] at hstep
          cases hstep
          exact h
      | inr hsome =>
          obtain ⟨pid, set, hrun, hfrom, hto, hfree, _, hset⟩ := hsome
          have hne : pid ≠ 0 := by omega
          simp only [ProcessServer.step, hrun, hne, if_false] at hstep
          cases hstep
          constructor
          · exact List.nodup_cons.mpr ⟨hfree, h.distinct⟩
          · intro q hq
            cases List.mem_cons.mp hq with
            | inl heq => exact heq ▸ ⟨hfrom, hto⟩
            | inr hmem => exact h.bounds q hmem
          · intro q hq
            rw [hset, h.used q hq, List.mem_cons, or_assoc, @or_comm (q = pid)]
  | release pid =>
      simp only [ProcessServer.step, releasePid, if_true, Option.map_some] at hstep
      split at hstep
      · rename_i hlive
        cases hstep
        have hmod : pid % wordBits < wordBits := Nat.mod_lt _ (by decide)
        have hsplit : pid / wordBits * wordBits + pid % wordBits = pid :=
          Nat.div_add_mod' pid wordBits
        constructor
        · exact h.distinct.erase pid
        · intro q hq
          exact h.bounds q (List.mem_of_mem_erase hq)
        · intro q hq
          rw [used_clearBit _ hmod, hsplit, h.used q hq, h.distinct.mem_erase_iff]
          have hreserved := (h.bounds pid hlive).1
          constructor
          · rintro ⟨hlt | hmem, hne⟩
            · exact .inl hlt
            · exact .inr ⟨hne, hmem⟩
          · rintro (hlt | ⟨hne, hmem⟩)
            · exact ⟨.inl hlt, by omega⟩
            · exact ⟨.inr hmem, hne⟩
      · cases hstep

/-! The slots that pids denote. -/

/-- The block of the node in `slot` of the root node. -/
def nodeBlock (s : Space) (root : SlotPtr) (slot : Nat) : Addr :=
  (s.slots (.node (s.slots root).resource slot)).resource

/-- `slot` of the root node holds a node that pids index, none of whose slots leads to a
further node. -/
structure PidNode (s : Space) (root : SlotPtr) (slot : Nat) : Prop where
  rootNode : (s.slots root).handlers = some .node
  rootBits : (s.nodes (s.slots root).resource).slotBits = initNodeDepth
  node : (s.slots (.node (s.slots root).resource slot)).handlers = some .node
  nodeBits : (s.nodes (nodeBlock s root slot)).slotBits = pidBits
  leaves : ∀ i, (s.slots (.node (nodeBlock s root slot) i)).handlers ≠ some .node

theorem PidNode.resolve {s : Space} {root : SlotPtr} {slot : Nat}
    (h : PidNode s root slot) (hslot : slot < 2 ^ initNodeDepth) (fuel pid : Nat) :
    s.resolve (fuel + 2) root (nodeAddress slot pid) sizeMax =
      some (some (.node (nodeBlock s root slot) (pid % 2 ^ pidBits),
        initNodeDepth + pidBits)) := by
  have hroot : maskAddress (nodeAddress slot pid) initNodeDepth = slot :=
    Vfs.nodeAddress_mod pid hslot
  have hpid : maskAddress (nodeAddress slot pid / 2 ^ initNodeDepth) pidBits =
      pid % 2 ^ pidBits := by
    rw [Vfs.nodeAddress_div pid hslot]
    rfl
  have hdeep : ¬ sizeMax = initNodeDepth := by decide
  have hdeeper : ¬ sizeMax < initNodeDepth := by decide
  have hnodeBits := h.nodeBits
  have hleaves := h.leaves
  simp only [nodeBlock] at hnodeBits hleaves ⊢
  simp [Space.resolve, Space.resolveFrom, h.rootNode, h.rootBits, hroot, h.node, hnodeBits,
    hpid, hleaves, hdeep, hdeeper]

def DistinctSlots (slot p q : Nat) : Prop :=
  ∀ (s : Space) (root : SlotPtr), PidNode s root slot → ∀ fuel, 2 ≤ fuel →
    s.resolve fuel root (nodeAddress slot p) sizeMax ≠
      s.resolve fuel root (nodeAddress slot q) sizeMax

theorem distinctSlots_of_mod {slot p q : Nat} (hslot : slot < 2 ^ initNodeDepth)
    (h : p % 2 ^ pidBits ≠ q % 2 ^ pidBits) : DistinctSlots slot p q := by
  intro s root hnode fuel hfuel
  obtain ⟨fuel, rfl⟩ := Nat.exists_eq_add_of_le' hfuel
  rw [hnode.resolve hslot, hnode.resolve hslot]
  simpa using h

/-- What the pids of live processes are for. -/
structure Sound (s : Processes) : Prop where
  distinct : s.live.Nodup
  unreserved : ∀ pid ∈ s.live, 2 ≤ pid
  exhausted : (allocatePid true s.set).1 = 0 →
    ∀ pid, 2 ≤ pid → pid < pidMax → pid ∈ s.live
  slots : ∀ p ∈ s.live, ∀ q ∈ s.live, p ≠ q →
    ∀ slot ∈ [pidThreadNodeSlot, pidDataNodeSlot, processDataNodeSlot],
      DistinctSlots slot p q

/-- A pid below `2 ^ PID_BITS + 2` is left for the call. -/
def PidLeft (s : Processes) : Call → Prop
  | .allocate => ∃ pid, 2 ≤ pid ∧ pid < 2 ^ pidBits + 2 ∧ pid ∉ s.live
  | .release _ => True

theorem live_lt_of_pidLeft {s s' : Processes} {call : Call} (h : Agrees s)
    (hlive : ∀ pid ∈ s.live, pid < 2 ^ pidBits + 2) (hleft : PidLeft s call)
    (hstep : step s call = some s') : ∀ pid ∈ s'.live, pid < 2 ^ pidBits + 2 := by
  cases call with
  | allocate =>
      cases h.allocate with
      | inl hnone =>
          simp only [step, hnone.2, if_true] at hstep
          cases hstep
          exact hlive
      | inr hsome =>
          obtain ⟨pid, set, hrun, hfrom, _, _, hleast, _⟩ := hsome
          have hne : pid ≠ 0 := by omega
          simp only [step, hrun, hne, if_false] at hstep
          cases hstep
          obtain ⟨free, hfree, hbound, hunused⟩ := hleft
          have hle : pid ≤ free := by
            apply Nat.le_of_not_lt
            exact fun hlt => hunused (hleast free hfree hlt)
          intro q hq
          cases List.mem_cons.mp hq with
          | inl heq => omega
          | inr hmem => exact hlive q hmem
  | release pid =>
      simp only [step, releasePid, if_true, Option.map_some] at hstep
      split at hstep
      · cases hstep
        exact fun q hq => hlive q (List.mem_of_mem_erase hq)
      · cases hstep

theorem Agrees.sound {s : Processes} (h : Agrees s)
    (hlive : ∀ pid ∈ s.live, pid < 2 ^ pidBits + 2) : Sound s where
  distinct := h.distinct
  unreserved := fun pid hpid => (h.bounds pid hpid).1
  exhausted := by
    intro hzero
    cases h.allocate with
    | inl hnone => exact hnone.1
    | inr hsome =>
        obtain ⟨pid, set, hrun, hfrom, _⟩ := hsome
        rw [hrun] at hzero
        simp only at hzero
        omega
  slots := by
    intro p hp q hq hne slot hslot
    have hsmall : slot < 2 ^ initNodeDepth := by
      simp only [List.mem_cons, List.not_mem_nil, or_false] at hslot
      obtain rfl | rfl | rfl := hslot <;> decide
    apply distinctSlots_of_mod hsmall
    have hpBounds := h.bounds p hp
    have hqBounds := h.bounds q hq
    have hpLive := hlive p hp
    have hqLive := hlive q hq
    simp only [pidBits] at *
    omega

/-- Allocations alone hand out the pids in order. -/
theorem reaches_first_pids {n : Nat} (hn : n + 2 ≤ pidMax) :
    ∃ s, Reaches step (fun _ _ => True) Initial s ∧ Agrees s ∧
      ∀ pid, pid ∈ s.live ↔ 2 ≤ pid ∧ pid < n + 2 := by
  induction n with
  | zero =>
      refine ⟨_, .initial rfl, Agrees.initial, fun pid => ?_⟩
      simp only [List.not_mem_nil, false_iff]
      omega
  | succ n ih =>
      obtain ⟨s, hreaches, hagrees, hlive⟩ := ih (by omega)
      cases hagrees.allocate with
      | inl hnone =>
          have hmem := hnone.1 (n + 2) (by omega) (by omega)
          rw [hlive] at hmem
          omega
      | inr hsome =>
          obtain ⟨pid, set, hrun, hfrom, hto, hfree, hleast, _⟩ := hsome
          have hpid : pid = n + 2 := by
            rw [hlive] at hfree
            apply Nat.le_antisymm _ (by omega)
            apply Nat.le_of_not_lt
            intro hlt
            have hmem := (hlive _).mp (hleast (n + 2) (by omega) hlt)
            omega
          have hstep : step s .allocate = some ⟨set, pid :: s.live⟩ := by
            have hne : pid ≠ 0 := by omega
            simp [step, hrun, hne]
          refine ⟨_, hreaches.step trivial hstep, hagrees.step hstep, fun q => ?_⟩
          rw [List.mem_cons, hlive, hpid]
          omega

/-- A root node with a thread node in it, every other slot empty. -/
def threadNodeSpace : Space where
  slots
    | .root _ => { Capability.zero with handlers := some .node, resource := 1 }
    | .node 1 _ => { Capability.zero with handlers := some .node, resource := 2 }
    | .node _ _ => .zero
  nodes block := ⟨if block = 1 then initNodeDepth else pidBits, 0⟩
  updateRefs _ := .nothing
  objects _ := none

theorem threadNodeSpace_pidNode (slot : Nat) : PidNode threadNodeSpace (.root 0) slot where
  rootNode := rfl
  rootBits := rfl
  node := rfl
  nodeBits := rfl
  leaves _ := nofun

end Cenix.ProcessServer
