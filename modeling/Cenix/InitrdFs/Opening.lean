import Cenix.Jax.Finding

namespace Cenix.InitrdFs

open Fields FileProtocol Jax Vfs

/-! Opening a file of a directory by its name. -/

/-! What is read of the name. -/

section

variable (e : Environment) (s : State) (dirFile : JaxFile) (filename : Nat)

/-- The index in the name at which the comparison with a file ends; nothing behind it is
read. -/
def comparisonEnd (file : JaxFile) : Nat :=
  let start := baseNameStart dirFile
  scan (fun i => e.memory (file.name + i) == e.memory (filename + (i - start)))
    (file.nameLength.toNat - start) start - start

/-- The ends of all comparisons of the loop of `handle_open`. -/
def comparisonEnds : (fuel : Nat) → (next : Nat) → List Nat
  | 0, _ => []
  | fuel + 1, next =>
      match nextFileInDir e.memory s (fuel + 1) dirFile next with
      | some (some found) =>
          comparisonEnd e dirFile filename found.file ::
            if nameMatches e dirFile found.file filename then []
            else comparisonEnds fuel found.next
      | _ => []

end

section

variable {e : Environment} {dirFile file : JaxFile} {dir name : List Byte} {filename : Nat}

/-- The bytes that a file is compared as: its name in the directory and the byte behind it. -/
def comparedName (dir : List Byte) (r : DescribedRecord) : List Byte :=
  baseName dir r.name ++ [BitVec.ofNat 8 r.description.length]

theorem baseNameStart_eq (hdir : Named e.memory dirFile dir) :
    baseNameStart dirFile = if dir = [] then 0 else dir.length + 1 := by
  rw [baseNameStart, hdir.nameLength]
  exact if_congr List.length_eq_zero_iff rfl rfl

theorem scan_shift (go : Nat → Bool) (start rounds i : Nat) :
    scan go rounds (start + i) = start + scan (fun k => go (start + k)) rounds i := by
  induction rounds generalizing i with
  | zero => rfl
  | succ rounds ih =>
      rw [scan, scan, Nat.add_assoc, ih]
      split
      · rfl
      · rfl

theorem length_baseName {child : List Byte} (hchild : IsChild dir child) :
    (if dir = [] then 0 else dir.length + 1) + (baseName dir child).length = child.length := by
  rw [baseName, List.length_drop]
  split
  · omega
  · rename_i hroot
    have hle := (hchild.1.resolve_left hroot).length_le
    rw [List.length_append, List.length_singleton] at hle
    omega

/-- The comparison with the part of the name behind that of the directory. -/
theorem comparisonEnd_eq {child : List Byte} (hdir : Named e.memory dirFile dir)
    (hfile : Named e.memory file child) (hchild : IsChild dir child) :
    comparisonEnd e dirFile filename file =
      scan (fun k => e.memory (file.name + baseNameStart dirFile + k) == e.memory (filename + k))
        (baseName dir child).length 0 := by
  have hlength := length_baseName hchild
  rw [← baseNameStart_eq hdir] at hlength
  have hshift := scan_shift
    (fun i => e.memory (file.name + i) == e.memory (filename + (i - baseNameStart dirFile)))
    (baseNameStart dirFile) (baseName dir child).length 0
  simp only [Nat.add_zero, Nat.add_sub_cancel_left, ← Nat.add_assoc] at hshift
  rw [comparisonEnd, hfile.nameLength, ← hlength, Nat.add_sub_cancel_left, hshift,
    Nat.add_sub_cancel_left]

theorem nameMatches_eq :
    nameMatches e dirFile file filename =
      (e.memory (file.name + baseNameStart dirFile + comparisonEnd e dirFile filename file) ==
        e.memory (filename + comparisonEnd e dirFile filename file)) := by
  have hle := le_scan
    (fun i => e.memory (file.name + i) == e.memory (filename + (i - baseNameStart dirFile)))
    (file.nameLength.toNat - baseNameStart dirFile) (baseNameStart dirFile)
  rw [nameMatches, comparisonEnd, Nat.add_assoc, Nat.add_sub_cancel' hle]

theorem getElem_baseName {child : List Byte} (hdir : Named e.memory dirFile dir)
    (hfile : Named e.memory file child) {k : Nat} (hk : k < (baseName dir child).length) :
    e.memory (file.name + baseNameStart dirFile + k) = (baseName dir child)[k] := by
  simp only [baseName, ← baseNameStart_eq hdir, List.length_drop, List.getElem_drop] at hk ⊢
  rw [Nat.add_assoc, hfile.getElem (by omega)]

/-- A file matches what its name and the byte behind that are the start of. -/
theorem nameMatches_iff_stored {child : List Byte} (hdir : Named e.memory dirFile dir)
    (hfile : Named e.memory file child) (hchild : IsChild dir child) :
    nameMatches e dirFile file filename = true ↔
      e.memory.Stored filename
        (baseName dir child ++ [e.memory (file.name + child.length)]) := by
  have hlength := length_baseName hchild
  rw [← baseNameStart_eq hdir] at hlength
  have hbytes : ∀ k, (hk : k < (baseName dir child).length) →
      e.memory (file.name + baseNameStart dirFile + k) = (baseName dir child)[k] :=
    fun k hk => getElem_baseName hdir hfile hk
  rw [nameMatches_eq, comparisonEnd_eq hdir hfile hchild, beq_iff_eq,
    ← hlength, Memory.stored_append, Memory.stored_cons, ← Nat.add_assoc]
  generalize hgo : (fun k => e.memory (file.name + baseNameStart dirFile + k) ==
    e.memory (filename + k)) = go
  have hle := scan_le go (baseName dir child).length 0
  constructor
  · intro hsame
    have hall : scan go (baseName dir child).length 0 = (baseName dir child).length := by
      by_contra hearlier
      have hstop := scan_stops go (baseName dir child).length 0 (by omega)
      subst hgo
      exact beq_eq_false_iff_ne.mp hstop hsame
    refine ⟨Memory.stored_iff_getElem.mpr fun k hk => ?_, ?_, Memory.stored_nil _ _⟩
    · have hpass := scan_passes go _ 0 (Nat.zero_le k) (hall.symm ▸ hk)
      subst hgo
      rw [← hbytes k hk]
      exact (beq_iff_eq.mp hpass).symm
    · rw [hall] at hsame
      exact hsame.symm
  · rintro ⟨hstored, hlast, _⟩
    have hall : scan go (baseName dir child).length 0 = (baseName dir child).length := by
      by_contra hearlier
      have hlt : scan go (baseName dir child).length 0 < (baseName dir child).length := by omega
      have hstop := scan_stops go (baseName dir child).length 0 (by omega)
      subst hgo
      refine beq_eq_false_iff_ne.mp hstop ?_
      rw [hbytes _ hlt, Memory.getElem_of_stored hstored hlt]
    rw [hall, hlast]

/-- The name is read past its end exactly if that of the file goes on behind a zero there. -/
theorem comparisonEnd_le_iff {child : List Byte} (hdir : Named e.memory dirFile dir)
    (hfile : Named e.memory file child) (hchild : IsChild dir child)
    (hname : e.memory.Stored filename (name ++ [0])) :
    comparisonEnd e dirFile filename file ≤ name.length ↔
      ¬ name ++ [0] <+: baseName dir child := by
  have hbytes : ∀ k, (hk : k < (baseName dir child).length) →
      e.memory (file.name + baseNameStart dirFile + k) = (baseName dir child)[k] :=
    fun k hk => getElem_baseName hdir hfile hk
  rw [comparisonEnd_eq hdir hfile hchild]
  generalize hgo : (fun k => e.memory (file.name + baseNameStart dirFile + k) ==
    e.memory (filename + k)) = go
  have hle := scan_le go (baseName dir child).length 0
  rw [← Nat.not_lt, not_iff_not, List.prefix_iff_getElem]
  constructor
  · intro hlt
    refine ⟨by rw [List.length_append, List.length_singleton]; omega, fun k hk => ?_⟩
    have hin : k < name.length + 1 := by rwa [List.length_append] at hk
    have hpass : go k = true :=
      scan_passes go (baseName dir child).length 0 (Nat.zero_le k) (by omega)
    subst hgo
    rw [← Memory.getElem_of_stored hname hk, ← hbytes k (by omega)]
    exact (beq_iff_eq.mp hpass).symm
  · rintro ⟨hlength, hsame⟩
    rw [List.length_append, List.length_singleton] at hlength
    by_contra hearlier
    have hstop := scan_stops go (baseName dir child).length 0 (by omega)
    have hlt : scan go (baseName dir child).length 0 < (name ++ [0]).length := by
      rw [List.length_append, List.length_singleton]
      omega
    subst hgo
    refine beq_eq_false_iff_ne.mp hstop ?_
    rw [hbytes _ (by omega), Memory.getElem_of_stored hname hlt, hsame _ hlt]

end

/-! The loop. -/

theorem children_eq_filter (dir : List Byte) (start : Nat) (records : List DescribedRecord) :
    children dir start records =
      (located start records).filter fun child => decide (IsChild dir child.2.name) := by
  induction records generalizing start with
  | nil => rfl
  | cons r records ih =>
      rw [children, located, List.filter_cons, ih]
      simp only [decide_eq_true_eq]

theorem find?_children_seen {dir : List Byte} {start stop : Nat} {records : List DescribedRecord}
    (p : Nat × DescribedRecord → Bool)
    (hstop : stop = start + (records.flatMap DescribedRecord.bytes).length) :
    (children dir start (seen records)).find? p =
      (children dir start records).find? fun child =>
        p child && decide ((child.2.file child.1).data < stop) := by
  rw [children_eq_filter, children_eq_filter, List.find?_filter, List.find?_filter,
    find?_seen _ hstop]
  simp [Bool.and_assoc]

/-- The handler looks for files from `next` on; a null pointer is in front of all of them. -/
inductive StartsAt (m : Memory) (s : State) : Nat → List DescribedRecord → Prop where
  | record {next : Nat} {records : List DescribedRecord} (hstart : s.initrdStart ≤ next)
      (h : Ahead m ⟨next, s.initrdEnd⟩ records) : StartsAt m s next records
  | null (hstart : 0 < s.initrdStart) : StartsAt m s 0 []

section

variable {e : Environment} {s : State} {dirFile : JaxFile} {dir : List Byte} {filename : Nat}

theorem comparisonEnds_chain (hdir : Named e.memory dirFile dir) {address : Nat}
    {records : List DescribedRecord} (h : Chain e.memory s.initrdEnd address records)
    (hstart : s.initrdStart ≤ address) {fuel : Nat} (hfuel : records.length < fuel) :
    comparisonEnds e s dirFile filename fuel address =
      (upTo (fun child => nameMatches e dirFile (child.2.file child.1) filename)
        (children dir address records)).map fun child =>
          comparisonEnd e dirFile filename (child.2.file child.1) := by
  induction fuel generalizing address records with
  | zero => exact absurd hfuel (Nat.not_lt_zero _)
  | succ fuel ih =>
      have hbefore : ¬ address < s.initrdStart := Nat.not_lt.mpr hstart
      rw [comparisonEnds, nextFileInDir, if_neg hbefore, nextFileLoop_chain hdir h hfuel]
      cases hchildren : children dir address records with
      | nil => rfl
      | cons child others =>
          obtain ⟨rest, hrest, hothers, hlength, hle, _⟩ := h.behind hchildren
          simp only [List.head?_cons, Option.map_some, foundOf, upTo, List.map_cons]
          rw [ih hrest (by omega) (by omega), hothers]
          split
          · rfl
          · rfl

theorem StartsAt.search {next : Nat} {records : List DescribedRecord}
    (h : StartsAt e.memory s next records) (hdir : Named e.memory dirFile dir) (filename : Nat)
    {fuel : Nat} (hfuel : records.length < fuel) :
    findFile e s dirFile filename fuel next =
        some (((children dir next (seen records)).find? fun child =>
          nameMatches e dirFile (child.2.file child.1) filename).map Prod.fst) ∧
      comparisonEnds e s dirFile filename fuel next =
        (upTo (fun child => nameMatches e dirFile (child.2.file child.1) filename)
          (children dir next (seen records))).map fun child =>
            comparisonEnd e dirFile filename (child.2.file child.1) := by
  cases h with
  | record hstart h =>
      have hfuel' := Nat.lt_of_le_of_lt (length_seen records) hfuel
      exact ⟨findFile_chain hdir h.chain hstart hfuel',
        comparisonEnds_chain hdir h.chain hstart hfuel'⟩
  | null hstart =>
      obtain ⟨fuel, rfl⟩ := Nat.exists_eq_add_one_of_ne_zero (Nat.ne_of_gt hfuel)
      simp [findFile, comparisonEnds, nextFileInDir, hstart, seen, children, upTo]

end

/-! What opening a name is supposed to do. -/

section

variable (order : ByteOrder) (e : Environment) (slots : Slots) (received reply : IpcMessage)

/-- What `handle_open` does once it has found a file or none. -/
def openReply : Option Nat → IpcMessage × Slots
  | none =>
      let result := if fdOpenFlags received &&& openCreate ≠ 0 then eRoFs else eNoEnt
      (setReturn order reply result, slots)
  | some address =>
      let (result, slots) := copyEndpoint e slots address
      let reply := setReturn order reply result
      if result = 0 then
        (setReturn order (setReplyFd reply ⟨slotAddress temporarySlot, sizeMax⟩) 0, slots)
      else
        (reply, slots)

/-- The message asks for a file for reading, and its name is at `filename`. -/
structure AsksFor (filename : Nat) : Prop where
  lock : e.lock (fdOpenNameAddress received) = filename
  flags : fdOpenFlags received &&& openExclusive = 0
  mode : fdOpenMode received &&& (modeWrite ||| modeAppend) = 0

end

theorem handleOpen_eq {order : ByteOrder} {e : Environment} {s : State} {fuel : Nat}
    {slots : Slots} {received reply : IpcMessage} {file : JaxFile} {next filename : Nat}
    (hdir : file.type = typeDirectory) (hname : filename ≠ 0)
    (h : AsksFor e received filename) :
    handleOpen order e s fuel slots received reply file next =
      (findFile e s file filename fuel next).map (openReply order e slots received reply) := by
  have hok : openName e received file = .ok filename := by
    simp [openName, hdir, h.lock, h.flags, h.mode, hname]
  rw [handleOpen, hok]
  rfl

section

variable (m : Memory) (s : State) (dirFile : JaxFile) (dir : List Byte) (next : Nat)
  (records : List DescribedRecord) (filename : Nat) (name : List Byte)

/-- Any message for the name opens the first file of the directory that has it, and the name
is not read past the zero behind it. -/
def OpensExactly : Prop :=
  ∀ order e slots received reply fuel, e.memory = m → AsksFor e received filename →
    records.length < fuel →
      handleOpen order e s fuel slots received reply dirFile next =
          some (openReply order e slots received reply
            (((children dir next records).find? fun child =>
              decide (baseName dir child.2.name = name)).map Prod.fst)) ∧
        ∀ k ∈ comparisonEnds e s dirFile filename fuel next, k ≤ name.length

/-- With the byte behind it, the name of the file is the start of the name to be opened, or it
goes on behind the zero at the end of that. -/
def Confusable (r : DescribedRecord) : Prop :=
  comparedName dir r <+: name ++ [0] ∨ name ++ [0] <+: baseName dir r.name

instance (r : DescribedRecord) : Decidable (Confusable dir name r) :=
  inferInstanceAs (Decidable (_ ∨ _))

/-- The first file of the directory that has the name, or is seen and taken for it, is seen,
has the name and a description of a length whose lowest byte is zero. -/
def FirstNamedIsExact : Prop :=
  ∀ child ∈ (children dir next records).find? (fun child =>
      decide (Confusable dir name child.2) &&
          decide ((child.2.file child.1).data < s.initrdEnd) ||
        decide (baseName dir child.2.name = name)),
    baseName dir child.2.name = name ∧ child.2.description.length % 256 = 0 ∧
      (child.2.file child.1).data < s.initrdEnd

end

/-! When it does. -/

section

variable {m : Memory} {s : State} {dirFile : JaxFile} {dir : List Byte} {next : Nat}
  {records : List DescribedRecord} {filename : Nat} {name : List Byte}

theorem StartsAt.stored (h : StartsAt m s next records) :
    m.Stored next (records.flatMap DescribedRecord.bytes) := by
  cases h with
  | record hstart h => exact h.stored
  | null hstart => rfl

theorem StartsAt.seen_eq (h : StartsAt m s next records) (p : Nat × DescribedRecord → Bool) :
    (children dir next (seen records)).find? p =
      (children dir next records).find? fun child =>
        p child && decide ((child.2.file child.1).data < s.initrdEnd) := by
  cases h with
  | record hstart h => exact find?_children_seen p h.stop
  | null hstart => rfl

/-- The files of the directory as the comparison sees them. -/
structure Shown (m : Memory) (dir : List Byte) (child : Nat × DescribedRecord) : Prop where
  named : Named m (child.2.file child.1) child.2.name
  past : m ((child.2.file child.1).name + child.2.name.length) =
    BitVec.ofNat 8 child.2.description.length
  isChild : IsChild dir child.2.name

theorem shown_of_mem (h : m.Stored next (records.flatMap DescribedRecord.bytes))
    {child : Nat × DescribedRecord} (hmem : child ∈ children dir next records) :
    Shown m dir child := by
  rw [children_eq_filter, List.mem_filter, decide_eq_true_eq] at hmem
  have hfile := child.2.fileAt_eq (stored_of_mem_located h hmem.1)
  exact ⟨named_file hfile.2.1, hfile.2.2, hmem.2⟩

variable {child : Nat × DescribedRecord}

theorem Shown.matches_iff {e : Environment} (h : Shown e.memory dir child)
    (hdir : Named e.memory dirFile dir) :
    nameMatches e dirFile (child.2.file child.1) filename = true ↔
      e.memory.Stored filename (comparedName dir child.2) := by
  rw [nameMatches_iff_stored hdir h.named h.isChild, h.past, comparedName]

/-- What is stored at one place is the start of one another. -/
theorem starts_or_starts {start : Nat} {front back : List Byte} (h : m.Stored start front)
    (h' : m.Stored start back) : front <+: back ∨ back <+: front := by
  rcases Nat.le_total front.length back.length with hle | hle
  · left
    rw [List.prefix_iff_getElem]
    refine ⟨hle, fun i hi => ?_⟩
    rw [← Memory.getElem_of_stored h hi, ← Memory.getElem_of_stored h']
  · right
    rw [List.prefix_iff_getElem]
    refine ⟨hle, fun i hi => ?_⟩
    rw [← Memory.getElem_of_stored h' hi, ← Memory.getElem_of_stored h]

theorem stored_of_starts {start : Nat} {front bytes : List Byte} (h : m.Stored start bytes)
    (hstarts : front <+: bytes) : m.Stored start front := by
  obtain ⟨back, rfl⟩ := hstarts
  exact ((Memory.stored_append m start front back).mp h).1

/-- A file that matches or has the name read past its end is one that can be taken for it. -/
theorem confusable_iff (hname : m.Stored filename (name ++ [0])) (r : DescribedRecord) :
    m.Stored filename (comparedName dir r) ∨ name ++ [0] <+: baseName dir r.name ↔
      Confusable dir name r := by
  constructor
  · rintro (hmatches | hpast)
    · rcases starts_or_starts hmatches hname with hstarts | hlonger
      · exact .inl hstarts
      · rw [comparedName, List.prefix_concat_iff] at hlonger
        rcases hlonger with heq | hpast
        · left
          rw [heq]
          exact List.prefix_rfl
        · exact .inr hpast
    · exact .inr hpast
  · exact Or.imp_left (stored_of_starts hname)

/-- A file with the name matches it exactly if nothing of its description's length shows. -/
theorem stored_comparedName_iff (hname : m.Stored filename (name ++ [0]))
    {r : DescribedRecord} (hsame : baseName dir r.name = name) :
    m.Stored filename (comparedName dir r) ↔ r.description.length % 256 = 0 := by
  rw [Memory.stored_append, Memory.stored_cons] at hname
  rw [comparedName, hsame, Memory.stored_append, Memory.stored_cons, hname.2.1,
    ← low_byte_iff]
  exact ⟨fun h => h.2.1.symm, fun h => ⟨hname.1, h.symm, Memory.stored_nil _ _⟩⟩

theorem nodup_children (dir : List Byte) (start : Nat) (records : List DescribedRecord) :
    ((children dir start records).map Prod.fst).Nodup :=
  List.pairwise_map.mpr ((children_pairwise dir start records).imp Nat.ne_of_lt)

/-- The file is taken for the name by the comparison, or has the name read past its end. -/
theorem Shown.confusable_iff {e : Environment} (h : Shown e.memory dir child)
    (hdir : Named e.memory dirFile dir) (hname : e.memory.Stored filename (name ++ [0])) :
    nameMatches e dirFile (child.2.file child.1) filename = true ∨
        name.length < comparisonEnd e dirFile filename (child.2.file child.1) ↔
      Confusable dir name child.2 := by
  have hend := comparisonEnd_le_iff hdir h.named h.isChild hname
  rw [h.matches_iff hdir, ← Nat.not_le, hend, not_not, InitrdFs.confusable_iff hname]

theorem Shown.exact_iff {e : Environment} (h : Shown e.memory dir child)
    (hdir : Named e.memory dirFile dir) (hname : e.memory.Stored filename (name ++ [0]))
    (hsame : baseName dir child.2.name = name) :
    nameMatches e dirFile (child.2.file child.1) filename = true ∧
        comparisonEnd e dirFile filename (child.2.file child.1) ≤ name.length ↔
      child.2.description.length % 256 = 0 := by
  have hend := comparisonEnd_le_iff hdir h.named h.isChild hname
  have hnot : ¬ name ++ [0] <+: baseName dir child.2.name := by
    intro hstarts
    have hle := hstarts.length_le
    rw [hsame, List.length_append, List.length_singleton] at hle
    omega
  rw [h.matches_iff hdir, stored_comparedName_iff hname hsame, hend]
  exact and_iff_left hnot

/-- The search and its reads are as they should be for one environment. -/
theorem search_exact_iff {e : Environment} (h : StartsAt e.memory s next records)
    (hdir : Named e.memory dirFile dir) (hname : e.memory.Stored filename (name ++ [0]))
    {fuel : Nat} (hfuel : records.length < fuel) :
    (findFile e s dirFile filename fuel next =
          some (((children dir next records).find? fun child =>
            decide (baseName dir child.2.name = name)).map Prod.fst) ∧
        ∀ k ∈ comparisonEnds e s dirFile filename fuel next, k ≤ name.length) ↔
      FirstNamedIsExact s dir next records name := by
  obtain ⟨hfind, hends⟩ := h.search hdir filename hfuel
  let matching : Nat × DescribedRecord → Bool := fun child =>
    nameMatches e dirFile (child.2.file child.1) filename
  let past : Nat × DescribedRecord → Bool := fun child =>
    decide (name.length < comparisonEnd e dirFile filename (child.2.file child.1))
  let visible : Nat × DescribedRecord → Bool := fun child =>
    decide ((child.2.file child.1).data < s.initrdEnd)
  have hshown : ∀ child ∈ children dir next records, Shown e.memory dir child :=
    fun child hmem => shown_of_mem h.stored hmem
  have hreads : (∀ k ∈ comparisonEnds e s dirFile filename fuel next, k ≤ name.length) ↔
      ∀ child ∈ (children dir next records).find? (fun child =>
          matching child && visible child || past child && visible child),
        (past child && visible child) = false := by
    have hall := upTo_iff (l := children dir next (seen records)) matching past
    rw [h.seen_eq] at hall
    simp only [hends, List.forall_mem_map, ← Bool.and_or_distrib_right]
    refine Iff.trans (forall₂_congr fun child _ => ?_)
      (hall.trans (forall₂_congr fun child hmem => ?_))
    · simp [past]
    · have hfound := List.find?_some hmem
      simp only [Bool.and_eq_true] at hfound
      have hvisible : visible child = true := hfound.2
      rw [hvisible, Bool.and_true]
  rw [hfind, Option.some.injEq, h.seen_eq, hreads,
    find?_map_eq_and_iff _ _ _ (nodup_children dir next records), FirstNamedIsExact]
  have hsearch : ((children dir next records).find? fun child =>
        matching child && visible child || past child && visible child ||
          decide (baseName dir child.2.name = name)) =
      (children dir next records).find? fun child =>
        decide (Confusable dir name child.2) && visible child ||
          decide (baseName dir child.2.name = name) := by
    apply find?_congr
    intro child hmem
    rw [← Bool.and_or_distrib_right]
    congr 2
    rw [Bool.eq_iff_iff, decide_eq_true_iff, ← (hshown child hmem).confusable_iff hdir hname,
      Bool.or_eq_true, decide_eq_true_iff]
  rw [hsearch]
  refine forall₂_congr fun child hmem => ?_
  have hexact := (hshown child (List.mem_of_find?_eq_some hmem)).exact_iff hdir hname
  simp only [visible, past, Bool.and_eq_true, Bool.and_eq_false_iff, decide_eq_true_eq,
    decide_eq_false_iff_not, Nat.not_lt]
  constructor
  · rintro ⟨⟨hmatching, hvisible⟩, hsame, hle⟩
    have hend := hle.resolve_right (Nat.not_le.mpr hvisible)
    exact ⟨hsame, (hexact hsame).mp ⟨hmatching, hend⟩, hvisible⟩
  · rintro ⟨hsame, hlow, hvisible⟩
    obtain ⟨hmatching, hle⟩ := (hexact hsame).mpr hlow
    exact ⟨⟨hmatching, hvisible⟩, hsame, .inl hle⟩

/-- The descriptor in the slot of the node is badged with the file that has been found. -/
theorem openReply_slot {order : ByteOrder} {e : Environment} {slots : Slots}
    {received reply : IpcMessage} (hcopy : e.copyResult = 0) (hslot : slots temporarySlot = none)
    (found : Option Nat) :
    (openReply order e slots received reply found).2 temporarySlot = found.map Fd.endpoint := by
  cases found with
  | none => exact hslot
  | some address => simp [openReply, copyEndpoint, hcopy, hslot]

/-- An environment whose system calls succeed. -/
def succeeding (m : Memory) (locked : Nat) : Environment where
  memory := m
  lock := fun _ => locked
  untypedSizeof := fun _ => sizeMax
  copyResult := 0
  sendResult := 0
  taken := fun _ => true
  uninitialized := .zero

end

/-! A file with a description. -/

def fileWithDescription : DescribedRecord :=
  { fileAb with description := [0x2a], descriptionBound := by decide }

/-- The archive of that file, and behind it the name `"ab"`. -/
def memoryWithDescription : Memory :=
  memoryWith 4 ([fileWithDescription].flatMap DescribedRecord.bytes ++ ([0x61, 0x62] ++ [0]))

def stateWithDescription : State where
  initrdStart := 0
  initrdEnd := 35
  iterator := ⟨4, 35⟩

theorem startsAt_withDescription :
    StartsAt memoryWithDescription stateWithDescription 4 [fileWithDescription] :=
  .record (Nat.zero_le 4) {
    stored := ((Memory.stored_append _ _ _ _).mp (memoryWith_stored 4 _)).1
    stop := by decide
    bound := by decide }

theorem stored_withDescription : memoryWithDescription.Stored 35 ([0x61, 0x62] ++ [0]) :=
  ((Memory.stored_append _ _ _ _).mp (memoryWith_stored 4
    ([fileWithDescription].flatMap DescribedRecord.bytes ++ ([0x61, 0x62] ++ [0])))).2

end Cenix.InitrdFs
