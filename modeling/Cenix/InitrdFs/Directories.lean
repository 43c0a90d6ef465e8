import Cenix.InitrdFs.Messages
import Cenix.Jax.Descriptions

namespace Cenix.InitrdFs

open Jax

/-! What the scans over an archive find: the files of a directory. -/

theorem scan_lt_iff (go : Nat → Bool) (rounds i : Nat) :
    scan go rounds i < i + rounds ↔ ∃ k, i ≤ k ∧ k < i + rounds ∧ go k = false := by
  induction rounds generalizing i with
  | zero =>
      simp only [scan]
      constructor
      · omega
      · rintro ⟨k, _, _, _⟩
        omega
  | succ rounds ih =>
      rw [scan]
      cases hgo : go i with
      | false =>
          rw [if_neg Bool.false_ne_true]
          exact ⟨fun hlt => ⟨i, Nat.le_refl i, hlt, hgo⟩, fun _ => by omega⟩
      | true =>
          have hsum : i + (rounds + 1) = i + 1 + rounds := by omega
          rw [if_pos rfl, hsum, ih]
          constructor
          · rintro ⟨k, hle, hlt, hk⟩
            exact ⟨k, by omega, hlt, hk⟩
          · rintro ⟨k, hle, hlt, hk⟩
            have hne : k ≠ i := by
              rintro rfl
              rw [hgo] at hk
              cases hk
            exact ⟨k, by omega, hlt, hk⟩

theorem scan_stops (go : Nat → Bool) (rounds i : Nat) (h : scan go rounds i < i + rounds) :
    go (scan go rounds i) = false := by
  induction rounds generalizing i with
  | zero =>
      simp only [scan] at h
      omega
  | succ rounds ih =>
      rw [scan] at h ⊢
      cases hgo : go i with
      | false => simpa using hgo
      | true =>
          rw [hgo, if_pos rfl] at h
          rw [if_pos rfl]
          exact ih (i + 1) (by omega)

theorem le_scan (go : Nat → Bool) (rounds i : Nat) : i ≤ scan go rounds i := by
  induction rounds generalizing i with
  | zero => exact Nat.le_refl i
  | succ rounds ih =>
      rw [scan]
      split
      · exact Nat.le_of_succ_le (ih (i + 1))
      · exact Nat.le_refl i

theorem scan_le (go : Nat → Bool) (rounds i : Nat) : scan go rounds i ≤ i + rounds := by
  induction rounds generalizing i with
  | zero => exact Nat.le_refl i
  | succ rounds ih =>
      have hrest := ih (i + 1)
      rw [scan]
      split
      · omega
      · omega

theorem scan_passes (go : Nat → Bool) (rounds i : Nat) {k : Nat} (hle : i ≤ k)
    (hlt : k < scan go rounds i) : go k = true := by
  induction rounds generalizing i with
  | zero =>
      simp only [scan] at hlt
      omega
  | succ rounds ih =>
      rw [scan] at hlt
      cases hgo : go i with
      | false =>
          rw [hgo, if_neg Bool.false_ne_true] at hlt
          omega
      | true =>
          rw [hgo, if_pos rfl] at hlt
          rcases Nat.eq_or_lt_of_le hle with rfl | hlater
          · exact hgo
          · exact ih (i + 1) hlater hlt

/-! Names. -/

/-- The part of a name behind the name of its directory. -/
def baseName (dir name : List Byte) : List Byte :=
  name.drop (if dir = [] then 0 else dir.length + 1)

/-- The file is directly in the directory; the name of the root is empty. -/
def IsChild (dir name : List Byte) : Prop :=
  (dir = [] ∨ dir ++ [separator] <+: name) ∧ separator ∉ baseName dir name

instance (dir name : List Byte) : Decidable (IsChild dir name) :=
  inferInstanceAs (Decidable (_ ∧ _))

/-- The file has that name. -/
structure Named (m : Memory) (file : JaxFile) (name : List Byte) : Prop where
  nameLength : file.nameLength.toNat = name.length
  stored : m.Stored file.name name

theorem Named.getElem {m : Memory} {file : JaxFile} {name : List Byte} (h : Named m file name)
    {i : Nat} (hi : i < name.length) : m (file.name + i) = name[i] := by
  have hget := congrArg (fun bytes => bytes[i]?) h.stored
  simpa [Memory.bytesAt, hi] using hget

theorem named_rootFile (m : Memory) : Named m rootFile [] :=
  ⟨rfl, m.stored_nil _⟩

theorem separatorFrom_iff {m : Memory} {file : JaxFile} {name : List Byte}
    (h : Named m file name) (i : Nat) :
    separatorFrom m file i = true ↔ separator ∈ name.drop i := by
  simp only [separatorFrom, h.nameLength]
  generalize hgo : (fun i => m (file.name + i) != separator) = go
  have hmem : separator ∈ name.drop i ↔
      ∃ k, i ≤ k ∧ k < i + (name.length - i) ∧ go k = false := by
    rw [List.mem_iff_getElem]
    subst hgo
    constructor
    · rintro ⟨k, hk, hname⟩
      rw [List.length_drop] at hk
      rw [List.getElem_drop] at hname
      exact ⟨i + k, by omega, by omega, by simp [h.getElem (show i + k < _ by omega), hname]⟩
    · rintro ⟨k, hle, hlt, hname⟩
      have hk : k < name.length := by omega
      have hsum : i + (k - i) = k := by omega
      refine ⟨k - i, by rw [List.length_drop]; omega, ?_⟩
      rw [List.getElem_drop]
      simpa [h.getElem hk, hsum] using hname
  rw [hmem, ← scan_lt_iff]
  constructor
  · intro hfound
    have hlt := of_decide_eq_true (Bool.and_eq_true_iff.mp hfound).1
    have hle := le_scan go (name.length - i) i
    omega
  · intro hlt
    have hstop := scan_stops go _ i hlt
    have hle := le_scan go (name.length - i) i
    have hbefore : scan go (name.length - i) i < name.length := by omega
    subst hgo
    simpa [hbefore] using hstop

/-- The comparison with the name of the directory has found a difference. -/
theorem prefix_iff {m : Memory} {dirFile file : JaxFile} {dir name : List Byte}
    (hdir : Named m dirFile dir) (hfile : Named m file name)
    (hlength : dir.length + 1 ≤ name.length) :
    (let i := scan (fun i => m (dirFile.name + i) == m (file.name + i)) dir.length 0;
      ((decide (i < dir.length) && m (dirFile.name + i) != m (file.name + i)) ||
        m (file.name + dir.length) != separator) = true) ↔
      ¬ dir ++ [separator] <+: name := by
  generalize hgo : (fun i => m (dirFile.name + i) == m (file.name + i)) = go
  have hiff := scan_lt_iff go dir.length 0
  have hstarts : dir ++ [separator] <+: name ↔
      (∀ k, k < dir.length → go k = true) ∧ m (file.name + dir.length) = separator := by
    rw [List.prefix_iff_getElem]
    subst hgo
    constructor
    · rintro ⟨hle, hall⟩
      constructor
      · intro k hk
        have hget := hall k (by simp; omega)
        rw [List.getElem_append_left hk] at hget
        simp [hdir.getElem hk, hfile.getElem (show k < name.length by omega), hget]
      · have hget := hall dir.length (by simp)
        rw [hfile.getElem (by omega), ← hget]
        simp
    · rintro ⟨hall, hlast⟩
      refine ⟨by simpa using hlength, fun k hk => ?_⟩
      rw [List.length_append, List.length_singleton] at hk
      rcases Nat.lt_succ_iff_lt_or_eq.mp hk with hbefore | rfl
      · have hget := hall k hbefore
        rw [List.getElem_append_left hbefore]
        simpa [hdir.getElem hbefore, hfile.getElem (show k < name.length by omega)] using hget
      · rw [hfile.getElem (by omega)] at hlast
        simp [hlast]
  simp only [Nat.zero_add] at hiff
  rw [hstarts, Bool.or_eq_true, Bool.and_eq_true, decide_eq_true_iff, not_and_or]
  have hstops := scan_stops go dir.length 0
  simp only [Nat.zero_add] at hstops
  constructor
  · rintro (⟨hlt, _⟩ | hlast)
    · left
      intro hall
      obtain ⟨k, _, hk, hdiffers⟩ := hiff.mp hlt
      rw [hall k hk] at hdiffers
      cases hdiffers
    · right
      simpa using hlast
  · rintro (hsome | hlast)
    · left
      have hlt : scan go dir.length 0 < dir.length := by
        apply hiff.mpr
        push Not at hsome
        obtain ⟨k, hk, hdiffers⟩ := hsome
        exact ⟨k, Nat.zero_le k, hk, by simpa using hdiffers⟩
      have hgo' := hstops hlt
      subst hgo
      exact ⟨hlt, by simpa using hgo'⟩
    · right
      simpa using hlast

/-- A file of another directory than the root. -/
theorem isChild_cons (byte : Byte) (dir name : List Byte) :
    IsChild (byte :: dir) name ↔ (byte :: dir) ++ [separator] <+: name ∧
      separator ∉ name.drop ((byte :: dir).length + 1) := by
  rw [IsChild, baseName, if_neg (List.cons_ne_nil _ _)]
  constructor
  · rintro ⟨hroot | hstarts, hbase⟩
    · cases hroot
    · exact ⟨hstarts, hbase⟩
  · rintro ⟨hstarts, hbase⟩
    exact ⟨.inr hstarts, hbase⟩

theorem skips_iff {m : Memory} {dirFile file : JaxFile} {dir name : List Byte}
    (hdir : Named m dirFile dir) (hfile : Named m file name) :
    skips m dirFile file = true ↔ ¬ IsChild dir name := by
  simp only [skips, hdir.nameLength, hfile.nameLength]
  cases dir with
  | nil =>
      rw [List.length_nil, if_pos rfl, separatorFrom_iff hfile]
      simp [IsChild, baseName]
  | cons byte dir =>
      have hpositive : (byte :: dir).length ≠ 0 := by simp
      rw [if_neg hpositive, isChild_cons]
      split
      · rename_i hshort
        refine iff_of_true rfl fun hchild => ?_
        have hle := hchild.1.length_le
        rw [List.length_append, List.length_singleton] at hle
        omega
      · rename_i hlong
        have hstarts := prefix_iff hdir hfile (by omega)
        split
        · rename_i hdiffers
          exact iff_of_true rfl fun hchild => hstarts.mp hdiffers hchild.1
        · rename_i hsame
          have hyes := not_not.mp (mt hstarts.mpr hsame)
          rw [separatorFrom_iff hfile, not_and_not_right, imp_iff_right hyes]

/-! The files that are found. -/

/-- The last record is not found if it has no data. -/
def seen : List DescribedRecord → List DescribedRecord
  | [] => []
  | [r] => if r.data = [] then [] else [r]
  | r :: next :: records => r :: seen (next :: records)

theorem length_seen (records : List DescribedRecord) :
    (seen records).length ≤ records.length := by
  induction records with
  | nil => exact Nat.le_refl _
  | cons r records ih =>
      cases records with
      | nil =>
          rw [seen]
          split
          · exact Nat.zero_le _
          · exact Nat.le_refl _
      | cons next records => exact Nat.succ_le_succ ih

/-- Exactly these records are found from `start` on. -/
inductive Chain (m : Memory) (stop : Nat) : Nat → List DescribedRecord → Prop where
  | nil {start : Nat} (hnext : ∀ old, (nextFile m start stop old).1 = none) :
      Chain m stop start []
  | cons {start : Nat} {r : DescribedRecord} {records : List DescribedRecord}
      (hnext : ∀ old, nextFile m start stop old =
        (some (start + r.bytes.length), r.file start))
      (hname : m.Stored (start + 3) r.name)
      (hpast : m (start + 3 + r.name.length) = BitVec.ofNat 8 r.description.length)
      (hstop : start + r.bytes.length ≤ stop)
      (h : Chain m stop (start + r.bytes.length) records) : Chain m stop start (r :: records)

theorem named_file {m : Memory} {start : Nat} {r : DescribedRecord}
    (h : m.Stored (start + 3) r.name) : Named m (r.file start) r.name :=
  ⟨r.toNat_nameLength start, h⟩

theorem nextFile_found {m : Memory} {start stop : Nat} {r : DescribedRecord}
    (h : m.Stored start r.bytes) (hstop : start + r.bytes.length ≤ stop)
    (hmemory : stop < 2 ^ ptrBits)
    (hmore : start + r.name.length + r.description.length + 27 < stop) (old : JaxFile) :
    nextFile m start stop old = (some (start + r.bytes.length), r.file start) := by
  rw [nextFile, r.next h hstop hmemory hmore]
  rfl

theorem chain_of_stored {m : Memory} {start : Nat} {records : List DescribedRecord}
    (h : m.Stored start (records.flatMap DescribedRecord.bytes))
    (hmemory : start + (records.flatMap DescribedRecord.bytes).length < 2 ^ ptrBits) :
    Chain m (start + (records.flatMap DescribedRecord.bytes).length) start (seen records) := by
  induction records generalizing start with
  | nil =>
      apply Chain.nil
      intro old
      simp [nextFile, jaxNextFile]
  | cons r records ih =>
      rw [List.flatMap_cons, Memory.stored_append] at h
      rw [List.flatMap_cons, List.length_append] at hmemory ⊢
      have hfile := r.fileAt_eq h.1
      have hlength := r.length_bytes
      cases records with
      | nil =>
          rw [seen]
          split
          · rename_i hdata
            rw [hdata, List.length_nil] at hlength
            apply Chain.nil
            intro old
            have hnone : (jaxNextFile m ⟨start, start + (r.bytes.length + 0)⟩ old).1 = false :=
              r.next_none old h.1 (by omega)
            simp only [nextFile, List.flatMap_nil, List.length_nil, hnone]
            rfl
          · rename_i hdata
            have hpos := List.length_pos_iff.mpr hdata
            apply Chain.cons _ hfile.2.1 hfile.2.2 (by omega)
            · rw [← Nat.add_assoc]
              exact ih h.2 (by omega)
            · apply nextFile_found h.1 (by omega) hmemory
              simp only [List.flatMap_nil, List.length_nil]
              omega
      | cons next records =>
          have hnext := next.length_bytes
          have hrest := ih h.2 (by omega)
          apply Chain.cons _ hfile.2.1 hfile.2.2 (by omega)
          · rw [← Nat.add_assoc]
            exact hrest
          · apply nextFile_found h.1 (by omega) hmemory
            rw [List.flatMap_cons, List.length_append]
            omega

/-- The records of a directory with their addresses. -/
def children (dir : List Byte) : Nat → List DescribedRecord → List (Nat × DescribedRecord)
  | _, [] => []
  | start, r :: records =>
      if IsChild dir r.name then
        (start, r) :: children dir (start + r.bytes.length) records
      else
        children dir (start + r.bytes.length) records

theorem map_children (dir : List Byte) (start : Nat) (records : List DescribedRecord) :
    (children dir start records).map Prod.snd =
      records.filter (fun r => decide (IsChild dir r.name)) := by
  induction records generalizing start with
  | nil => rfl
  | cons r records ih =>
      rw [children, List.filter_cons]
      split
      · rename_i hchild
        simp [hchild, ih]
      · rename_i hchild
        simp [hchild, ih]

def foundOf (child : Nat × DescribedRecord) : Found :=
  ⟨child.1 + child.2.bytes.length, child.2.file child.1, child.1⟩

theorem nextFileLoop_chain {m : Memory} {stop : Nat} {dirFile : JaxFile} {dir : List Byte}
    (hdir : Named m dirFile dir) {start : Nat} {records : List DescribedRecord}
    (h : Chain m stop start records) {fuel : Nat} (hfuel : records.length < fuel)
    (old : JaxFile) :
    nextFileLoop m dirFile stop fuel start old =
      some ((children dir start records).head?.map foundOf) := by
  induction h generalizing fuel old with
  | nil hnext =>
      obtain ⟨fuel, rfl⟩ := Nat.exists_eq_add_one_of_ne_zero (Nat.ne_of_gt hfuel)
      have hnone := hnext old
      rw [nextFileLoop]
      split
      · rfl
      · rename_i heq
        rw [heq] at hnone
        cases hnone
  | cons hnext hname hpast hstop h ih =>
      rename_i start r records
      obtain ⟨fuel, rfl⟩ := Nat.exists_eq_add_one_of_ne_zero (Nat.ne_of_gt (Nat.zero_lt_of_lt hfuel))
      have hskips := skips_iff hdir (named_file hname)
      rw [nextFileLoop, hnext old, children]
      split
      · rename_i heq
        cases heq
      · rename_i heq
        cases heq
        split
        · rename_i hskip
          rw [if_neg (hskips.mp hskip)]
          exact ih (Nat.lt_of_succ_lt_succ hfuel) _
        · rename_i hskip
          rw [if_pos (not_not.mp (mt hskips.mpr hskip))]
          rfl

/-- Behind the first file of a directory there are the others. -/
theorem Chain.behind {m : Memory} {stop : Nat} {dir : List Byte} {start : Nat}
    {records : List DescribedRecord} (h : Chain m stop start records)
    {child : Nat × DescribedRecord} {others : List (Nat × DescribedRecord)}
    (hchildren : children dir start records = child :: others) :
    ∃ rest, Chain m stop (child.1 + child.2.bytes.length) rest ∧
      children dir (child.1 + child.2.bytes.length) rest = others ∧
      rest.length < records.length ∧ start ≤ child.1 ∧
      child.1 + child.2.bytes.length ≤ stop ∧ m.Stored (child.1 + 3) child.2.name ∧
      m (child.1 + 3 + child.2.name.length) = BitVec.ofNat 8 child.2.description.length ∧
      IsChild dir child.2.name := by
  induction h with
  | nil hnext => cases hchildren
  | cons hnext hname hpast hstop h ih =>
      rename_i start r records
      rw [children] at hchildren
      split at hchildren
      · rename_i hchild
        obtain ⟨rfl, rfl⟩ := List.cons.inj hchildren
        exact ⟨records, h, rfl, Nat.lt_succ_self _, Nat.le_refl _, hstop, hname, hpast, hchild⟩
      · obtain ⟨rest, hrest, hothers, hlength, hle, hshown⟩ := ih hchildren
        exact ⟨rest, hrest, hothers, Nat.lt_succ_of_lt hlength, by omega, hshown⟩

/-! Looking for a name in the root. -/

/-- The comparison does not go past the end of either name. -/
theorem scan_name {m : Memory} {file : JaxFile} {c b : List Byte} {filename : Nat}
    (hfile : Named m file c) (hname : m.Stored filename (b ++ [0])) (hnul : 0 ∉ c) {j : Nat}
    (hj : j = scan (fun i => m (file.name + i) == m (filename + i)) c.length 0) :
    j ≤ c.length ∧ j ≤ b.length ∧ c.take j = b.take j := by
  have hle : j ≤ c.length := by
    have hscan := scan_le (fun i => m (file.name + i) == m (filename + i)) c.length 0
    rwa [← hj, Nat.zero_add] at hscan
  have hpasses : ∀ k, k < j → m (file.name + k) = m (filename + k) := by
    intro k hk
    rw [hj] at hk
    simpa using scan_passes _ c.length 0 (Nat.zero_le k) hk
  rw [Memory.stored_append, Memory.stored_cons] at hname
  have hb : ∀ k, (hk : k < b.length) → m (filename + k) = b[k] := by
    intro k hk
    have hget := congrArg (fun bytes => bytes[k]?) hname.1
    simpa [Memory.bytesAt, hk] using hget
  have hleb : j ≤ b.length := by
    by_contra hlonger
    have hlt : b.length < j := Nat.lt_of_not_le hlonger
    have hsame := hpasses b.length hlt
    have hin : b.length < c.length := Nat.lt_of_lt_of_le hlt hle
    rw [hfile.getElem hin, hname.2.1] at hsame
    exact hnul (hsame ▸ List.getElem_mem hin)
  refine ⟨hle, hleb, ?_⟩
  apply List.ext_getElem
  · rw [List.length_take, List.length_take, Nat.min_eq_left hle, Nat.min_eq_left hleb]
  · intro k hk hk'
    have hkj : k < j := by
      rw [List.length_take] at hk
      omega
    have hsame := hpasses k hkj
    rw [hfile.getElem (Nat.lt_of_lt_of_le hkj hle), hb k (Nat.lt_of_lt_of_le hkj hleb)] at hsame
    simpa using hsame

/-- A file of the root matches its own name, if the byte behind that is zero. -/
theorem nameMatches_iff {e : Environment} {file : JaxFile} {c b : List Byte} {filename : Nat}
    (hfile : Named e.memory file c) (hname : e.memory.Stored filename (b ++ [0]))
    (hnulc : 0 ∉ c) (hnulb : 0 ∉ b)
    (h : e.memory (file.name + c.length) = 0 ∨ c = b) :
    nameMatches e rootFile file filename = true ↔
      c = b ∧ e.memory (file.name + c.length) = 0 := by
  have hroot : baseNameStart rootFile = 0 := rfl
  simp only [nameMatches, hroot, Nat.sub_zero, hfile.nameLength, beq_iff_eq]
  generalize hj : scan (fun i => e.memory (file.name + i) == e.memory (filename + i))
    c.length 0 = j
  obtain ⟨hle, hleb, htake⟩ := scan_name hfile hname hnulc hj.symm
  rw [Memory.stored_append, Memory.stored_cons] at hname
  rcases Nat.eq_or_lt_of_le hle with rfl | hlt
  · rw [List.take_length] at htake
    rcases Nat.eq_or_lt_of_le hleb with hlength | hshorter
    · rw [hlength, List.take_length] at htake
      rw [hlength, hname.2.1]
      exact ⟨fun hzero => ⟨htake, hzero⟩, fun hzero => hzero.2⟩
    · have hne : c ≠ b := fun heq => Nat.ne_of_lt hshorter (congrArg List.length heq)
      have hget := congrArg (fun bytes => bytes[c.length]?) hname.1
      have hbyte : e.memory (filename + c.length) = b[c.length] := by
        simpa [Memory.bytesAt, hshorter] using hget
      rw [h.resolve_right hne, hbyte]
      refine iff_of_false (fun hzero => ?_) (fun hsame => hne hsame.1)
      exact hnulb (hzero ▸ List.getElem_mem hshorter)
  · have hstop := scan_stops (fun i => e.memory (file.name + i) == e.memory (filename + i))
      c.length 0 (by rw [hj, Nat.zero_add]; exact hlt)
    rw [hj] at hstop
    have hdiffers : e.memory (file.name + j) ≠ e.memory (filename + j) := by simpa using hstop
    refine iff_of_false hdiffers (fun hsame => hdiffers ?_)
    obtain ⟨rfl, _⟩ := hsame
    have hget := congrArg (fun bytes => bytes[j]?) hname.1
    rw [hfile.getElem hlt]
    simpa [Memory.bytesAt, hlt] using hget.symm

theorem findFile_chain {e : Environment} {s : State} {dirFile : JaxFile} {dir : List Byte}
    {filename : Nat} (hdir : Named e.memory dirFile dir) {address : Nat}
    {records : List DescribedRecord} (h : Chain e.memory s.initrdEnd address records)
    (hstart : s.initrdStart ≤ address) {fuel : Nat} (hfuel : records.length < fuel) :
    findFile e s dirFile filename fuel address =
      some (((children dir address records).find? fun child =>
        nameMatches e dirFile (child.2.file child.1) filename).map Prod.fst) := by
  induction fuel generalizing address records with
  | zero => exact absurd hfuel (Nat.not_lt_zero _)
  | succ fuel ih =>
      have hbefore : ¬ address < s.initrdStart := Nat.not_lt.mpr hstart
      rw [findFile, nextFileInDir, if_neg hbefore, nextFileLoop_chain hdir h hfuel]
      cases hchildren : children dir address records with
      | nil => rfl
      | cons child others =>
          obtain ⟨rest, hrest, hothers, hlength, hle, _⟩ := h.behind hchildren
          simp only [List.head?_cons, Option.map_some, Option.bind_some, foundOf]
          rw [List.find?_cons]
          split
          · rename_i hmatches
            rw [hmatches]
            rfl
          · rename_i hmatches
            rw [Bool.not_eq_true] at hmatches
            rw [ih hrest (by omega) (by omega), hothers, hmatches]

end Cenix.InitrdFs
