import Cenix.InitrdFs.Listing

namespace Cenix.InitrdFs

open Fields FileProtocol Jax Vfs

/-! When a listing is exact. -/

/-! What is seen of an archive. -/

theorem seen_eq (records : List DescribedRecord) :
    seen records = records ∨
      ∃ front last, records = front ++ [last] ∧ last.data = [] ∧ seen records = front := by
  induction records with
  | nil => exact .inl rfl
  | cons r records ih =>
      cases records with
      | nil =>
          rw [seen]
          split
          · rename_i hdata
            exact .inr ⟨[], r, rfl, hdata, rfl⟩
          · exact .inl rfl
      | cons next records =>
          rw [seen]
          rcases ih with heq | ⟨front, last, hrecords, hdata, heq⟩
          · exact .inl (congrArg _ heq)
          · exact .inr ⟨r :: front, last, congrArg _ hrecords, hdata, congrArg _ heq⟩

theorem seen_sublist (records : List DescribedRecord) : seen records <+: records := by
  rcases seen_eq records with heq | ⟨front, last, hrecords, _, heq⟩
  · exact heq.symm ▸ List.prefix_rfl
  · rw [heq, hrecords]
    exact List.prefix_append front [last]

/-- All files of a directory are seen unless the last record is one without data. -/
theorem filter_seen_iff (records : List DescribedRecord) (dir : List Byte) :
    ((seen records).filter fun r => decide (IsChild dir r.name)).length =
        (records.filter fun r => decide (IsChild dir r.name)).length ↔
      ∀ r ∈ records.getLast?, IsChild dir r.name → r.data ≠ [] := by
  rcases seen_eq records with heq | ⟨front, last, rfl, hdata, heq⟩
  · refine iff_of_true (by rw [heq]) fun r hlast hchild hdata => ?_
    obtain ⟨front, rfl⟩ := List.getLast?_eq_some_iff.mp hlast
    have hshorter : (seen (front ++ [r])).length = front.length := by
      clear hlast hchild heq
      induction front with
      | nil => simp [seen, hdata]
      | cons first front ih =>
          cases front with
          | nil => simp [seen, hdata]
          | cons next front =>
              rw [List.cons_append, List.cons_append, seen, List.length_cons]
              exact congrArg (· + 1) ih
    rw [heq, List.length_append, List.length_singleton] at hshorter
    omega
  · rw [heq, List.filter_append, List.length_append, List.getLast?_concat]
    constructor
    · intro hlength r hr hchild
      cases hr
      rw [List.filter_singleton, decide_eq_true hchild] at hlength
      simp at hlength
    · intro hlast
      have hnot : ¬ IsChild dir last.name := fun hchild => hlast last rfl hchild hdata
      rw [List.filter_singleton, decide_eq_false hnot]
      simp

theorem filter_seen {records : List DescribedRecord} {dir : List Byte}
    (h : ∀ r ∈ records.getLast?, IsChild dir r.name → r.data ≠ []) :
    ((seen records).filter fun r => decide (IsChild dir r.name)) =
      records.filter fun r => decide (IsChild dir r.name) :=
  ((seen_sublist records).sublist.filter _).eq_of_length ((filter_seen_iff records dir).mpr h)

/-! Addresses and names of the files of a directory. -/

theorem le_of_mem_children {dir : List Byte} {start : Nat} {records : List DescribedRecord}
    {child : Nat × DescribedRecord} (h : child ∈ children dir start records) :
    start ≤ child.1 := by
  induction records generalizing start with
  | nil => cases h
  | cons r records ih =>
      rw [children] at h
      split at h
      · rcases List.mem_cons.mp h with rfl | hlater
        · exact Nat.le_refl _
        · exact Nat.le_trans (Nat.le_add_right _ _) (ih hlater)
      · exact Nat.le_trans (Nat.le_add_right _ _) (ih h)

theorem children_pairwise (dir : List Byte) (start : Nat) (records : List DescribedRecord) :
    (children dir start records).Pairwise (fun child later => child.1 < later.1) := by
  induction records generalizing start with
  | nil => exact .nil
  | cons r records ih =>
      rw [children]
      split
      · refine .cons (fun later hlater => ?_) (ih _)
        have hbytes := r.length_bytes
        have hle := le_of_mem_children hlater
        show start < later.1
        omega
      · exact ih _

/-- Files at one address are the same file. -/
theorem eq_of_address {dir : List Byte} {start : Nat} {records : List DescribedRecord}
    {child child' : Nat × DescribedRecord} (h : child ∈ children dir start records)
    (h' : child' ∈ children dir start records) (heq : child.1 = child'.1) : child = child' := by
  have hnodup : ((children dir start records).map Prod.fst).Nodup :=
    List.pairwise_map.mpr ((children_pairwise dir start records).imp Nat.ne_of_lt)
  exact List.inj_on_of_nodup_map hnodup h h' heq

theorem eq_of_name {dir : List Byte} {start : Nat} {records : List DescribedRecord}
    (hdistinct : (records.map fun r => r.name).Nodup) {child child' : Nat × DescribedRecord}
    (h : child ∈ children dir start records) (h' : child' ∈ children dir start records)
    (heq : child.2.name = child'.2.name) : child = child' := by
  have hnames : ((children dir start records).map fun child => child.2.name) =
      (records.filter fun r => decide (IsChild dir r.name)).map fun r => r.name := by
    rw [← map_children dir start, List.map_map]
    rfl
  have hnodup : ((children dir start records).map fun child => child.2.name).Nodup := by
    rw [hnames]
    exact hdistinct.sublist (List.filter_sublist.map _)
  exact List.inj_on_of_nodup_map hnodup h h' heq

/-- Every file that is seen is shown in memory as the parser needs it. -/
theorem Chain.of_mem {m : Memory} {stop : Nat} {dir : List Byte} {start : Nat}
    {records : List DescribedRecord} (h : Chain m stop start records)
    {child : Nat × DescribedRecord} (hmem : child ∈ children dir start records) :
    child.1 + child.2.bytes.length ≤ stop ∧ m.Stored (child.1 + 3) child.2.name ∧
      m (child.1 + 3 + child.2.name.length) = BitVec.ofNat 8 child.2.description.length ∧
      child.2 ∈ records ∧ IsChild dir child.2.name := by
  induction h with
  | nil hnext => cases hmem
  | cons hnext hname hpast hstop h ih =>
      rename_i start r records
      rw [children] at hmem
      split at hmem
      · rename_i hchild
        rcases List.mem_cons.mp hmem with rfl | hlater
        · exact ⟨hstop, hname, hpast, List.mem_cons_self, hchild⟩
        · obtain ⟨hle, hstored, hbyte, hmem, hchild⟩ := ih hlater
          exact ⟨hle, hstored, hbyte, List.mem_cons_of_mem _ hmem, hchild⟩
      · obtain ⟨hle, hstored, hbyte, hmem, hchild⟩ := ih hmem
        exact ⟨hle, hstored, hbyte, List.mem_cons_of_mem _ hmem, hchild⟩

namespace Call.Serves

variable {s : State} {c : Call} {records : List DescribedRecord}

theorem iterator (h : c.Serves s records) : s.iterator = ⟨s.initrdStart + 4, s.initrdEnd⟩ := by
  have hopened := h.opened
  rw [openJax] at hopened
  split at hopened
  · cases hopened
  · exact (Option.some.inj hopened).symm

theorem chain (h : c.Serves s records) :
    Chain c.environment.memory s.initrdEnd s.iterator.start (seen records) := by
  have hstored := (Memory.stored_append _ _ _ _).mp h.stored
  have hmagic : magic.length = 4 := rfl
  have hstop := h.stop
  have hbound := h.bound
  rw [List.length_append, ← Nat.add_assoc] at hstop
  rw [hstop] at hbound
  rw [h.iterator, hstop]
  exact chain_of_stored hstored.2 hbound

end Call.Serves

/-! The root is listed. -/

section

variable {order : ByteOrder} {s : State} {c : Call} {records : List DescribedRecord}

theorem low_byte_iff (n : Nat) : BitVec.ofNat 8 n = 0 ↔ n % 256 = 0 := by
  rw [← BitVec.toNat_inj, BitVec.toNat_ofNat]
  rfl

/-- A file of the root is found by its name exactly if nothing of its description's length
shows behind the name. -/
theorem matches_iff (h : c.Serves s records) (hw : WellFormed records)
    {flags mode : BitVec 8} {child child' : Nat × DescribedRecord}
    (hnames : c.Names child.2.name flags mode)
    (hchild : child ∈ children [] s.iterator.start (seen records))
    (hchild' : child' ∈ children [] s.iterator.start (seen records))
    (hlow : child'.2.description.length % 256 = 0 ∨ child' = child) :
    nameMatches c.environment rootFile (child'.2.file child'.1)
        (c.environment.lock ⟨c.attached, sizeMax⟩) = true ↔
      child' = child ∧ child'.2.description.length % 256 = 0 := by
  have hsub := (seen_sublist records).subset
  obtain ⟨_, hstored, hpast, hmem, _⟩ := h.chain.of_mem hchild'
  have hmem' := (h.chain.of_mem hchild).2.2.2.1
  have hbyte : c.environment.memory ((child'.2.file child'.1).name + child'.2.name.length) = 0 ↔
      child'.2.description.length % 256 = 0 := by
    rw [← low_byte_iff, ← hpast]
    rfl
  have hdistinct : ((seen records).map fun r => r.name).Nodup :=
    hw.distinct.sublist ((seen_sublist records).sublist.map _)
  have hname : child'.2.name = child.2.name ↔ child' = child :=
    ⟨eq_of_name hdistinct hchild' hchild, fun heq => by rw [heq]⟩
  rw [nameMatches_iff (named_file hstored) hnames.stored (hw.noNul _ (hsub hmem))
    (hw.noNul _ (hsub hmem')), hbyte, hname]
  rw [hbyte, hname]
  exact hlow

theorem findFile_root (h : c.Serves s records) (filename : Nat) :
    findFile c.environment s rootFile filename c.fuel s.iterator.start =
      some (((children [] s.iterator.start (seen records)).find? fun child =>
        nameMatches c.environment rootFile (child.2.file child.1) filename).map Prod.fst) := by
  have hlength := length_seen records
  have hfuel := h.fuel
  apply findFile_chain (named_rootFile _) h.chain
  · rw [h.iterator]
    exact Nat.le_add_right _ 4
  · omega

/-- A file of the root is opened by its name. -/
theorem opened_child (h : c.Serves s records) (hw : WellFormed records)
    (hlow : ∀ r ∈ records, IsChild [] r.name → r.description.length % 256 = 0)
    {flags mode : BitVec 8} {child : Nat × DescribedRecord}
    (hnames : c.Names child.2.name flags mode)
    (hchild : child ∈ children [] s.iterator.start (seen records)) :
    c.Opened order s 0 flags mode child.1 := by
  have hsub := (seen_sublist records).subset
  have hzero : ∀ child ∈ children [] s.iterator.start (seen records),
      child.2.description.length % 256 = 0 := by
    intro child hmem
    obtain ⟨_, _, _, hmem, hchild⟩ := h.chain.of_mem hmem
    exact hlow _ (hsub hmem) hchild
  rw [opened_iff hnames (findFile_root h _)]
  cases hfind : (children [] s.iterator.start (seen records)).find? fun child =>
      nameMatches c.environment rootFile (child.2.file child.1)
        (c.environment.lock ⟨c.attached, sizeMax⟩) with
  | none =>
      have hnot := List.find?_eq_none.mp hfind child hchild
      exact absurd ((matches_iff h hw hnames hchild hchild (.inr rfl)).mpr
        ⟨rfl, hzero child hchild⟩) hnot
  | some child' =>
      have hmem := List.mem_of_find?_eq_some hfind
      have hmatches := List.find?_some hfind
      have heq := ((matches_iff h hw hnames hchild hmem (.inl (hzero child' hmem))).mp
        hmatches).1
      rw [heq]
      rfl

theorem address_bounds (h : c.Serves s records) {child : Nat × DescribedRecord}
    (hchild : child ∈ children [] s.iterator.start (seen records)) :
    child.1 ≠ 0 ∧ child.1 < 2 ^ ptrBits := by
  have hle := le_of_mem_children hchild
  have hstop := (h.chain.of_mem hchild).1
  have hbytes := child.2.length_bytes
  have hbound := h.bound
  rw [h.iterator] at hle
  simp only at hle
  omega

theorem forall₂_entriesOf {P : List Byte → VfsDirectoryEntry → Prop}
    {list : List (Nat × DescribedRecord)}
    (h : ∀ child ∈ list, ∀ next, P child.2.name
      ⟨child.1, next, child.2.name.length, child.2.name⟩) :
    List.Forall₂ P (list.map fun child => child.2.name) (entriesOf list) := by
  induction list with
  | nil => exact .nil
  | cons child list ih =>
      rw [List.map_cons, entriesOf]
      exact .cons (h child List.mem_cons_self _)
        (ih fun child hmem => h child (List.mem_cons_of_mem _ hmem))

theorem childNames_root (start : Nat) :
    childNames records [] =
      (children [] start records).map fun child => child.2.name := by
  rw [childNames, ← map_children [] start, List.map_map]
  rfl

theorem childNames_seen (start : Nat)
    (hlast : ∀ r ∈ records.getLast?, IsChild [] r.name → r.data ≠ []) :
    childNames records [] =
      (children [] start (seen records)).map fun child => child.2.name := by
  rw [← childNames_root, childNames, childNames, filter_seen hlast]

theorem listsExactly_root (hw : WellFormed records) (hsome : childNames records [] ≠ [])
    (hlow : ∀ r ∈ records, IsChild [] r.name → r.description.length % 256 = 0)
    (hlast : ∀ r ∈ records.getLast?, IsChild [] r.name → r.data ≠ []) :
    ListsExactly order s records 0 [] := by
  intro c size h hread hsize rounds hrounds
  have hnames := childNames_seen s.iterator.start hlast
  have hlength := length_seen records
  have hfuel := h.fuel
  rw [hnames] at hsome hsize ⊢
  cases hchildren : children [] s.iterator.start (seen records) with
  | nil =>
      rw [hchildren] at hsome
      exact absurd rfl hsome
  | cons child others =>
      refine ⟨entriesOf (child :: others), ?_, forall₂_entriesOf fun child hmem next =>
        ⟨rfl, rfl, fun c flags mode h hnames => ?_⟩⟩
      · apply list_root hread h.bound h.chain (by omega) rfl (Nat.le_refl _) _ hchildren
        · intro child hmem
          exact hsize _ (List.mem_map_of_mem hmem)
        · have hcount : (children [] s.iterator.start (seen records)).length ≤
              (seen records).length := by
            rw [← List.length_map Prod.snd, map_children]
            exact List.length_filter_le _ _
          rw [hchildren, List.length_cons] at hcount
          omega
        · rw [h.iterator]
          exact Nat.le_add_right _ 4
      · rw [← hchildren] at hmem
        obtain ⟨hne, hlt⟩ := address_bounds h hmem
        exact ⟨child.1, opened_child h hw hlow hnames hmem, statInode hne hlt⟩

end

/-! Calls of a client that sees a listing that is not exact. -/

/-- A call whose system calls all succeed. -/
def callAt (m : Memory) (locked fuel : Nat) : Call where
  environment :=
    { memory := m
      lock := fun _ => locked
      untypedSizeof := fun _ => sizeMax
      copyResult := 0
      sendResult := 0
      taken := fun _ => true
      uninitialized := .zero }
  fuel := fuel
  replyEndpoint := 0
  attached := 0
  fast := false

/-- A memory in which bytes have been added from `stop` on. -/
def withBytesAt (m : Memory) (stop : Nat) (bytes : List Byte) : Memory :=
  fun address => if address < stop then m address else bytes.getD (address - stop) 0

theorem stored_withBytesAt_before {m : Memory} {start stop : Nat} {front : List Byte}
    (bytes : List Byte) (h : m.Stored start front) (hstop : start + front.length ≤ stop) :
    (withBytesAt m stop bytes).Stored start front := by
  rw [Memory.Stored, Memory.bytesAt] at h ⊢
  conv_rhs => rw [← h]
  apply List.map_congr_left
  intro i hi
  have hlt := List.mem_range.mp hi
  exact if_pos (by omega)

theorem stored_withBytesAt (m : Memory) (stop : Nat) (bytes : List Byte) :
    (withBytesAt m stop bytes).Stored stop bytes := by
  apply List.ext_getElem (by simp)
  intro i hi hbytes
  have hnot : ¬ stop + i < stop := by omega
  simp [Memory.bytesAt, withBytesAt, hbytes]

section

variable {order : ByteOrder} {s : State} {c : Call} {records : List DescribedRecord}

theorem openJax_magic {m : Memory} {start stop : Nat} (h : m.Stored start magic)
    (hstop : start + 4 ≤ stop) : openJax m start stop = some ⟨start + 4, stop⟩ := by
  simp only [magic, Memory.stored_cons, Nat.add_assoc] at h
  obtain ⟨h0, h1, h2, h3, _⟩ := h
  have hlong : ¬ start + 4 > stop := by omega
  simp [openJax, h0, h1, h2, h3, hlong]

/-- The archive may be read with other memory behind it. -/
theorem serves_callAt (h : c.Serves s records) (bytes : List Byte) (locked : Nat) :
    (callAt (withBytesAt c.environment.memory s.initrdEnd bytes) locked
      (records.length + 1)).Serves s records := by
  have hstored := stored_withBytesAt_before bytes h.stored (Nat.le_of_eq h.stop.symm)
  refine ⟨hstored, h.stop, h.bound, ?_, Nat.lt_succ_self _⟩
  have hstop := h.stop
  have hmagic : magic.length = 4 := rfl
  rw [List.length_append, hmagic] at hstop
  rw [h.iterator]
  exact openJax_magic ((Memory.stored_append _ _ _ _).mp hstored).1 (by omega)

theorem names_callAt (h : c.Serves s records) (name : List Byte) :
    (callAt (withBytesAt c.environment.memory s.initrdEnd (name ++ [0])) s.initrdEnd
      (records.length + 1)).Names name 0 0 where
  lock := by
    have hstop := h.stop
    have hmagic : magic.length = 4 := rfl
    rw [List.length_append, hmagic] at hstop
    show s.initrdEnd ≠ 0
    omega
  stored := stored_withBytesAt _ _ _
  copy := rfl
  flags := rfl
  mode := rfl

theorem Call.StatInode.unique {fd inode inode' : Nat} (h : c.StatInode order s fd inode)
    (h' : c.StatInode order s fd inode') : inode = inode' := by
  obtain ⟨handled, hhandled, _, hinode⟩ := h
  obtain ⟨handled', hhandled', _, hinode'⟩ := h'
  rw [hhandled] at hhandled'
  cases hhandled'
  rw [← hinode, ← hinode']

/-- A large buffer for reading. -/
def largest : Word := BitVec.ofNat _ sizeMax

theorem toNat_largest : largest.toNat = sizeMax := by decide

theorem canRead_callAt (m : Memory) (fuel : Nat) : (callAt m 1 fuel).CanRead largest := by
  rw [Call.CanRead, if_neg (show ¬ (callAt m 1 fuel).fast = true from Bool.false_ne_true)]
  exact ⟨Nat.one_ne_zero, Nat.le_of_eq toNat_largest⟩

theorem length_childName {dir name : List Byte} (h : name ∈ childNames records dir) :
    vfsDirectoryEntrySize + name.length + 2 ≤ sizeMax := by
  rw [childNames, List.mem_map] at h
  obtain ⟨r, _, rfl⟩ := h
  have hbound := r.nameBound
  have hdrop : (baseName dir r.name).length ≤ r.name.length := by
    rw [baseName, List.length_drop]
    exact Nat.sub_le _ _
  have hlarge : vfsDirectoryEntrySize + 2 ^ 16 + 2 ≤ sizeMax := by decide
  omega

/-- What a client with a large buffer gets from an exact listing. -/
theorem ListsExactly.large {badge : Nat} {dir : List Byte}
    (hlists : ListsExactly order s records badge dir) (h : c.Serves s records) :
    ∃ (c : Call) (entries : List VfsDirectoryEntry), c.Serves s records ∧ c.CanRead largest ∧
      c.list order s badge largest (records.length + 1) 0 = some (some entries) ∧
      List.Forall₂ (Describes order s records badge) (childNames records dir) entries := by
  have hserves := serves_callAt h [] 1
  have hread := canRead_callAt (withBytesAt c.environment.memory s.initrdEnd [])
    (records.length + 1)
  obtain ⟨entries, hlist, hall⟩ := hlists _ largest hserves hread (fun name hname => by
    have hlarge := length_childName hname
    rw [toNat_largest]
    omega) _ (Nat.lt_succ_self _)
  exact ⟨_, entries, hserves, hread, hlist, hall⟩

theorem of_forall₂_entriesOf {P : List Byte → VfsDirectoryEntry → Prop}
    {list : List (Nat × DescribedRecord)}
    (h : List.Forall₂ P (list.map fun child => child.2.name) (entriesOf list))
    {child : Nat × DescribedRecord} (hmem : child ∈ list) :
    ∃ next, P child.2.name ⟨child.1, next, child.2.name.length, child.2.name⟩ := by
  induction list with
  | nil => cases hmem
  | cons first list ih =>
      rw [List.map_cons, entriesOf] at h
      obtain ⟨hfirst, hlist⟩ := List.forall₂_cons.mp h
      rcases List.mem_cons.mp hmem with rfl | hlater
      · exact ⟨_, hfirst⟩
      · exact ih hlist hlater

theorem length_entriesOf (list : List (Nat × DescribedRecord)) :
    (entriesOf list).length = list.length := by
  induction list with
  | nil => rfl
  | cons child list ih => rw [entriesOf, List.length_cons, List.length_cons, ih]

/-- The listing of a directory in which nothing is seen is an error. -/
theorem list_empty {badge badge' next address rounds : Nat} {file : JaxFile} {dir : List Byte}
    {seen : List DescribedRecord} {size position : Word} (hread : c.CanRead size)
    (htarget : target c.environment s badge = (badge', file, next))
    (htype : file.type = typeDirectory) (hdir : Named c.environment.memory file dir)
    (h : Chain c.environment.memory s.initrdEnd address seen) (hfuel : seen.length < c.fuel)
    (hposition : (if position.toNat = 0 then badge' else position.toNat) = address)
    (hchildren : children dir address seen = []) :
    c.list order s badge size (rounds + 1) position = some none := by
  have hempty := readDirectory_empty order s badge' position.toNat size.toNat hdir h hfuel
    hposition hchildren
  rw [Call.list, Call.readEntry_eq hread htarget htype hempty rfl (Nat.zero_le _) (by decide)]
  rfl

theorem root_of_listsExactly (h : c.Serves s records) (hw : WellFormed records)
    (hlists : ListsExactly order s records 0 []) :
    (∀ r ∈ records, IsChild [] r.name → r.description.length % 256 = 0) ∧
      ∀ r ∈ records.getLast?, IsChild [] r.name → r.data ≠ [] := by
  obtain ⟨c', entries, h', hread, hlist, hall⟩ := hlists.large h
  have hfuel' := h'.fuel
  have hlength := length_seen records
  have hstart : s.initrdStart ≤ s.iterator.start := by
    rw [h.iterator]
    exact Nat.le_add_right _ 4
  have hlarge : ∀ child ∈ children [] s.iterator.start (seen records),
      vfsDirectoryEntrySize + child.2.name.length ≤ largest.toNat := by
    intro child _
    have hbound := child.2.nameBound
    have hsize : vfsDirectoryEntrySize + 2 ^ 16 ≤ sizeMax := by decide
    rw [toNat_largest]
    omega
  have hentries : entries = entriesOf (children [] s.iterator.start (seen records)) := by
    cases hchildren : children [] s.iterator.start (seen records) with
    | nil =>
        rw [list_empty hread rfl rfl (named_rootFile _) h'.chain (by omega) rfl
          hchildren] at hlist
        cases hlist
    | cons child others =>
        have hcount : (children [] s.iterator.start (seen records)).length ≤
            (seen records).length := by
          rw [← List.length_map Prod.snd, map_children]
          exact List.length_filter_le _ _
        rw [hchildren, List.length_cons] at hcount
        rw [list_root hread h.bound h'.chain (by omega) rfl (Nat.le_refl _)
          hstart hchildren hlarge (by omega)] at hlist
        exact (Option.some.inj (Option.some.inj hlist)).symm
  subst hentries
  have hlast : ∀ r ∈ records.getLast?, IsChild [] r.name → r.data ≠ [] := by
    apply (filter_seen_iff records []).mp
    have hcount := hall.length_eq
    rw [childNames, List.length_map, length_entriesOf, ← List.length_map Prod.snd,
      map_children] at hcount
    exact hcount.symm
  refine ⟨fun r hr hchild => ?_, hlast⟩
  rw [childNames_seen s.iterator.start hlast] at hall
  have hmem : r ∈ (children [] s.iterator.start (seen records)).map Prod.snd := by
    rw [map_children, filter_seen hlast, List.mem_filter]
    exact ⟨hr, decide_eq_true hchild⟩
  obtain ⟨child, hin, rfl⟩ := List.mem_map.mp hmem
  obtain ⟨next, hdescribes⟩ := of_forall₂_entriesOf hall hin
  have hserves := serves_callAt h (child.2.name ++ [0]) s.initrdEnd
  have hnames := names_callAt h child.2.name
  obtain ⟨fd, hopened, hstat⟩ := hdescribes.inode _ 0 0 hserves hnames
  rw [opened_iff hnames (findFile_root hserves _)] at hopened
  obtain ⟨child', hfind, rfl⟩ := Option.map_eq_some_iff.mp hopened
  have hmem' := List.mem_of_find?_eq_some hfind
  obtain ⟨hne, hlt⟩ := address_bounds hserves hmem'
  have heq := eq_of_address hmem' hin ((statInode hne hlt).unique hstat)
  have hmatches := List.find?_some hfind
  rw [heq] at hmatches
  exact ((matches_iff hserves hw hnames hin hin (.inr rfl)).mp hmatches).2

end

/-! Other directories are never listed exactly. -/

section

variable {order : ByteOrder} {s : State} {c : Call} {records : List DescribedRecord}

theorem located_split {start : Nat} {records : List DescribedRecord} {address : Nat}
    {r : DescribedRecord} (h : (address, r) ∈ located start records) :
    ∃ before after, records = before ++ r :: after ∧
      address = start + (before.flatMap DescribedRecord.bytes).length := by
  induction records generalizing start with
  | nil => cases h
  | cons first records ih =>
      rcases List.mem_cons.mp h with heq | hlater
      · cases heq
        exact ⟨[], records, rfl, rfl⟩
      · obtain ⟨before, after, rfl, haddress⟩ := ih hlater
        refine ⟨first :: before, after, rfl, ?_⟩
        rw [haddress, List.flatMap_cons, List.length_append]
        omega

theorem not_isChild_self {dir : List Byte} (h : dir ≠ []) : ¬ IsChild dir dir := by
  intro hchild
  have hle := (hchild.1.resolve_left h).length_le
  rw [List.length_append, List.length_singleton] at hle
  omega

/-- What is in a directory comes after it. -/
theorem childNames_after {before after : List DescribedRecord} {r : DescribedRecord}
    (hw : WellFormed (before ++ r :: after)) (htype : r.type = typeDirectory) :
    childNames (before ++ r :: after) r.name = childNames after r.name := by
  have hname := hw.nonempty r (by simp)
  have hbefore : ∀ earlier ∈ before, ¬ IsChild r.name earlier.name := by
    intro earlier hmem hchild
    obtain ⟨_, _, hprecedes⟩ := List.pairwise_append.mp hw.precedes
    exact hprecedes earlier hmem r List.mem_cons_self htype (hchild.1.resolve_left hname)
  have hnone : before.filter (fun earlier => decide (IsChild r.name earlier.name)) = [] := by
    apply List.filter_eq_nil_iff.mpr
    intro earlier hmem
    simpa using hbefore earlier hmem
  rw [childNames, childNames, List.filter_append, hnone, List.filter_cons,
    if_neg (by simpa using not_isChild_self hname), List.nil_append]

theorem seen_cons {r : DescribedRecord} {records : List DescribedRecord} (h : records ≠ []) :
    seen (r :: records) = r :: seen records := by
  cases records with
  | nil => exact absurd rfl h
  | cons next records => rfl

theorem seen_append (front : List DescribedRecord) {records : List DescribedRecord}
    (h : records ≠ []) : seen (front ++ records) = front ++ seen records := by
  induction front with
  | nil => rfl
  | cons r front ih =>
      have hne : front ++ records ≠ [] := List.append_ne_nil_of_right_ne_nil front h
      rw [List.cons_append, seen_cons hne, ih, List.cons_append]

theorem Chain.drop {m : Memory} {stop start : Nat} {front records : List DescribedRecord}
    (h : Chain m stop start (front ++ records)) :
    Chain m stop (start + (front.flatMap DescribedRecord.bytes).length) records := by
  induction front generalizing start with
  | nil => exact h
  | cons r front ih =>
      cases h with
      | cons hnext hname hpast hstop h =>
          rw [List.flatMap_cons, List.length_append, ← Nat.add_assoc]
          exact ih h

theorem length_name_directoryEntry (e : Environment) (dirFile : JaxFile) (found : Found)
    (next readSize : Nat) :
    (directoryEntry e dirFile found next readSize).name.length =
      (directoryEntry e dirFile found next readSize).nameLength := by
  simp only [directoryEntry, Memory.length_bytesAt]

/-- The first name that is seen is the first one that there is. -/
theorem childNames_head {dir : List Byte} {start : Nat} {child : Nat × DescribedRecord}
    {others : List (Nat × DescribedRecord)}
    (h : children dir start (seen records) = child :: others) :
    ∃ names, childNames records dir = baseName dir child.2.name :: names := by
  have hmap := map_children dir start (seen records)
  obtain ⟨unseen, hrecords⟩ := seen_sublist records
  rw [h, List.map_cons] at hmap
  rw [childNames, ← hrecords, List.filter_append, ← hmap, List.cons_append, List.map_cons]
  exact ⟨_, rfl⟩

theorem not_listsExactly_nested (h : c.Serves s records) (hw : WellFormed records)
    {address : Nat} {r : DescribedRecord}
    (hmem : (address, r) ∈ located (s.initrdStart + magic.length) records)
    (htype : r.type = typeDirectory) (hsome : childNames records r.name ≠ []) :
    ¬ ListsExactly order s records address r.name := by
  intro hlists
  obtain ⟨c', entries, h', hread, hlist, hall⟩ := hlists.large h
  have hfuel' := h'.fuel
  obtain ⟨before, after, rfl, haddress⟩ := located_split hmem
  have hname := hw.nonempty r (by simp)
  rw [childNames_after hw htype] at hsome hall
  have hafter : after ≠ [] := by
    rintro rfl
    exact hsome rfl
  have hchain := h'.chain
  rw [seen_append before (List.cons_ne_nil _ _), seen_cons hafter] at hchain
  have hmagic : magic.length = 4 := rfl
  have hiterator : s.iterator.start = s.initrdStart + magic.length := by rw [h.iterator, hmagic]
  have htail := hchain.drop
  rw [hiterator, ← haddress] at htail
  have hdir : Named c'.environment.memory (r.file address) r.name := by
    cases htail with
    | cons hnext hname hpast hstop htail => exact named_file hname
  have htarget : target c'.environment s address =
      (address, r.file address, address + r.bytes.length) := by
    have hne : address ≠ 0 := by omega
    cases htail with
    | cons hnext hname hpast hstop htail =>
        rw [target, if_neg hne, hnext]
        rfl
  have hfuel : (r :: seen after).length < c'.fuel := by
    have hlength := length_seen after
    simp only [List.length_append, List.length_cons] at hfuel' ⊢
    omega
  have hchildren : children r.name address (r :: seen after) =
      children r.name (address + r.bytes.length) (seen after) := by
    rw [children, if_neg (not_isChild_self hname)]
  cases hlisted : children r.name (address + r.bytes.length) (seen after) with
  | nil =>
      rw [list_empty hread htarget htype hdir htail hfuel rfl (hchildren.trans hlisted)] at hlist
      cases hlist
  | cons child others =>
      obtain ⟨rest, _, _, _, hle, hstop, _, _, hchild⟩ := htail.behind (hchildren.trans hlisted)
      obtain ⟨names, hnames⟩ := childNames_head hlisted
      have hbound := h.bound
      have hsize : vfsDirectoryEntrySize + (baseName r.name child.2.name).length + 2 ≤
          largest.toNat := by
        rw [toNat_largest]
        have hfirst : baseName r.name child.2.name ∈ childNames after r.name := by
          rw [hnames]
          exact List.mem_cons_self
        exact length_childName hfirst
      have hlength := nameLength_directoryEntry (e := c'.environment) largest.toNat
        (if others = [] then 0 else child.1 + child.2.bytes.length) hdir.nameLength hname
        hchild hsize
      have hdirectory := readDirectory_chain order s address 0 largest.toNat hdir htail hfuel rfl
        (by omega) (by omega) (by omega) (hchildren.trans hlisted)
      have hbytes := length_name_directoryEntry c'.environment (r.file address) (foundOf child)
        (if others = [] then 0 else child.1 + child.2.bytes.length) largest.toNat
      have hinode : (directoryEntry c'.environment (r.file address) (foundOf child)
          (if others = [] then 0 else child.1 + child.2.bytes.length) largest.toNat).inode =
            child.1 := rfl
      have hnext : (directoryEntry c'.environment (r.file address) (foundOf child)
          (if others = [] then 0 else child.1 + child.2.bytes.length)
            largest.toNat).nextEntryPosition =
              if others = [] then 0 else child.1 + child.2.bytes.length := rfl
      generalize directoryEntry c'.environment (r.file address) (foundOf child)
        (if others = [] then 0 else child.1 + child.2.bytes.length) largest.toNat = entry
          at hlength hdirectory hbytes hinode hnext
      have hdecoded : Call.entryOf order (entry.bytes order) = entry := by
        apply entryOf_bytes order _ _ _ hbytes
        · rw [hinode]
          omega
        · rw [hnext]
          split
          · exact Nat.two_pow_pos ptrBits
          · omega
        · have hstarts := (hchild.1.resolve_left hname).length_le
          have hpos := List.length_pos_iff.mpr hname
          have hlong := child.2.nameBound
          rw [List.length_append, List.length_singleton] at hstarts
          rw [hlength, baseName, if_neg hname, List.length_drop]
          omega
      have hentry : c'.readEntry order s address largest 0 = some (some entry) := by
        rw [Call.readEntry_eq hread htarget htype hdirectory, if_pos rfl, hdecoded]
        · rw [VfsDirectoryEntry.length_bytes, hbytes, Nat.add_comm]
        · show entry.nameLength + vfsDirectoryEntrySize ≤ largest.toNat
          omega
        · exact Nat.two_pow_pos ptrBits
      have hfirst : ∃ others, entries = entry :: others := by
        rw [Call.list, hentry, Option.bind_some] at hlist
        simp only at hlist
        split at hlist
        · exact ⟨[], (Option.some.inj (Option.some.inj hlist)).symm⟩
        · obtain ⟨listed, _, hsome⟩ := Option.map_eq_some_iff.mp hlist
          obtain ⟨others, _, rfl⟩ := Option.map_eq_some_iff.mp hsome
          exact ⟨others, rfl⟩
      obtain ⟨others, rfl⟩ := hfirst
      rw [hnames] at hall
      have hdescribes := (List.forall₂_cons.mp hall).1
      have hwrong := hlength.symm.trans hdescribes.nameLength
      omega

end

/-- An archive with a directory `d` and a file `d/a`. -/
def directoryD : DescribedRecord where
  type := typeDirectory
  name := [0x64]
  timestamp := 0
  mode := 0
  owner := 0
  group := 0
  data := []
  nameBound := by decide
  dataBound := emptyFile.dataBound
  description := []
  descriptionBound := by decide

def fileInD : DescribedRecord :=
  { directoryD with
    type := 0x72
    name := [0x64, 0x2f, 0x61]
    data := [0x62]
    nameBound := by decide
    dataBound := fileA.dataBound }

def archiveOfD : List Byte := magic ++ [directoryD, fileInD].flatMap DescribedRecord.bytes

def stateOfD : State where
  initrdStart := 0
  initrdEnd := archiveOfD.length
  iterator := ⟨4, archiveOfD.length⟩

theorem serves_stateOfD :
    (callAt (memoryWith 0 archiveOfD) 1 3).Serves stateOfD [directoryD, fileInD] where
  stored := memoryWith_stored 0 archiveOfD
  stop := (Nat.zero_add _).symm
  bound := by decide
  opened := openJax_magic ((Memory.stored_append _ _ _ _).mp (memoryWith_stored 0 archiveOfD)).1
    (by decide)
  fuel := by decide

theorem wellFormed_stateOfD : WellFormed [directoryD, fileInD] where
  distinct := by decide
  nonempty := by decide
  noNul := by decide
  precedes := by decide

end Cenix.InitrdFs
