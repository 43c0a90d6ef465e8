import Cenix.InitrdFs.ExactListing
import Cenix.InitrdFs.UntrustedArchives
import Cenix.Searches

namespace Cenix.Jax

open InitrdFs

/-! Looking for a file by its path. -/

/-- The path without the slash in front. -/
def withoutSlash : List Byte → List Byte
  | [] => []
  | byte :: path => if byte = separator then path else byte :: path

/-- The records that the iterator has not passed yet are in memory. -/
structure Ahead (m : Memory) (iter : JaxIterator) (records : List DescribedRecord) : Prop where
  stored : m.Stored iter.start (records.flatMap DescribedRecord.bytes)
  stop : iter.stop = iter.start + (records.flatMap DescribedRecord.bytes).length
  bound : iter.stop < 2 ^ ptrBits

section

variable (type : Byte) (path : List Byte)

/-- The record is of the type that is asked for; 0 stands for any. -/
def OfType (r : DescribedRecord) : Prop :=
  type = 0 ∨ r.type = type

instance (r : DescribedRecord) : Decidable (OfType type r) :=
  inferInstanceAs (Decidable (_ ∨ _))

/-- The record is one that the caller asks for. -/
def IsWanted (r : DescribedRecord) : Prop :=
  OfType type r ∧ r.name = path

instance (r : DescribedRecord) : Decidable (IsWanted type path r) :=
  inferInstanceAs (Decidable (_ ∧ _))

/-- The record is of the type, has a name that starts with the path, and a byte of the
archive follows its fields. -/
def IsTaken (stop : Nat) (child : Nat × DescribedRecord) : Prop :=
  OfType type child.2 ∧ path <+: child.2.name ∧ (child.2.file child.1).data < stop

instance (stop : Nat) (child : Nat × DescribedRecord) : Decidable (IsTaken type path stop child) :=
  inferInstanceAs (Decidable (_ ∧ _ ∧ _))

end

/-- The data pointer and the size of a record. -/
def dataOf (child : Nat × DescribedRecord) : Nat × Nat :=
  ((child.2.file child.1).data, child.2.data.length)

/-- The result is the data of the first record of the type and that name. -/
def FindsExactly (m : Memory) (iter : JaxIterator) (records : List DescribedRecord)
    (toFind : Nat) (type : Byte) (path : List Byte) : Prop :=
  ∀ fuel, records.length < fuel → jaxFind m fuel iter toFind type =
    some (((located iter.start records).find? fun child =>
      decide (IsWanted type path child.2)).map dataOf)

/-! The records of an archive one after the other. -/

section

variable {start stop : Nat} {records : List DescribedRecord}

theorem le_of_mem_located {child : Nat × DescribedRecord} (h : child ∈ located start records) :
    start ≤ child.1 := by
  induction records generalizing start with
  | nil => cases h
  | cons r records ih =>
      rcases List.mem_cons.mp h with rfl | hlater
      · exact Nat.le_refl _
      · exact Nat.le_trans (Nat.le_add_right _ _) (ih hlater)

theorem stored_of_mem_located {m : Memory} {child : Nat × DescribedRecord}
    (h : m.Stored start (records.flatMap DescribedRecord.bytes))
    (hmem : child ∈ located start records) : m.Stored child.1 child.2.bytes := by
  induction records generalizing start with
  | nil => cases hmem
  | cons r records ih =>
      rw [List.flatMap_cons, Memory.stored_append] at h
      rcases List.mem_cons.mp hmem with rfl | hlater
      · exact h.1
      · exact ih h.2 hlater

/-- The data of a record are in front of the next one. -/
theorem located_pairwise (start : Nat) (records : List DescribedRecord) :
    (located start records).Pairwise
      (fun child later => (child.2.file child.1).data ≤ later.1) := by
  induction records generalizing start with
  | nil => exact .nil
  | cons r records ih =>
      refine .cons (fun later hlater => ?_) (ih _)
      have hbytes := r.length_bytes
      have hle := le_of_mem_located hlater
      simp only [DescribedRecord.file]
      omega

theorem nodup_dataOf (start : Nat) (records : List DescribedRecord) :
    ((located start records).map dataOf).Nodup := by
  rw [List.Nodup, List.pairwise_map]
  refine (located_pairwise start records).imp fun {child later} hle heq => ?_
  have hdata : (child.2.file child.1).data = (later.2.file later.1).data :=
    congrArg Prod.fst heq
  simp only [DescribedRecord.file] at hle hdata
  omega

/-- Looking through what is seen is looking for what a byte follows. -/
theorem find?_seen (p : Nat × DescribedRecord → Bool)
    (hstop : stop = start + (records.flatMap DescribedRecord.bytes).length) :
    (located start (seen records)).find? p =
      (located start records).find? fun child =>
        p child && decide ((child.2.file child.1).data < stop) := by
  induction records generalizing start with
  | nil => rfl
  | cons r records ih =>
      have hbytes := r.length_bytes
      rw [List.flatMap_cons, List.length_append] at hstop
      cases records with
      | nil =>
          have hend : stop = start + r.bytes.length := hstop
          rw [seen]
          split
          · rename_i hdata
            rw [hdata, List.length_nil] at hbytes
            have hlast : ¬ (r.file start).data < stop := by
              simp only [DescribedRecord.file]
              omega
            simp [located, hlast]
          · rename_i hdata
            have hpos := List.length_pos_iff.mpr hdata
            have hmore : (r.file start).data < stop := by
              simp only [DescribedRecord.file]
              omega
            simp [located, hmore]
      | cons next records =>
          have hnext := next.length_bytes
          have hmore : (r.file start).data < stop := by
            rw [List.flatMap_cons, List.length_append] at hstop
            simp only [DescribedRecord.file]
            omega
          have hrest := @ih (start + r.bytes.length) (by omega)
          rw [seen, located, located, List.find?_cons, List.find?_cons]
          simp only [hmore, decide_true, Bool.and_true, hrest]

end

/-! The comparison of a path with a name. -/

/-- The comparison ends at the end of the path exactly if the name starts with it. -/
theorem matched_iff {m : Memory} {file : JaxFile} {name path : List Byte} {toFind : Nat}
    (hfile : Named m file name) (hpath : m.Stored toFind (path ++ [0])) (hnul : 0 ∉ path) :
    m (toFind + matched m file toFind) = 0 ↔ path <+: name := by
  rw [matched, hfile.nameLength]
  generalize hgo : (fun i => m (file.name + i) == m (toFind + i) && m (toFind + i) != 0) = go
  rw [Memory.stored_append, Memory.stored_cons] at hpath
  obtain ⟨hstored, hend, _⟩ := hpath
  have hne : ∀ k, k < path.length → m (toFind + k) ≠ 0 := by
    intro k hk hzero
    rw [Memory.getElem_of_stored hstored hk] at hzero
    exact hnul (hzero ▸ List.getElem_mem hk)
  have hgo_end : go path.length = false := by
    subst hgo
    simp [hend]
  have hle := scan_le go name.length 0
  -- the loop does not pass the zero behind the path
  have hbefore : scan go name.length 0 ≤ path.length := by
    by_contra hlonger
    have hpass := scan_passes go name.length 0 (Nat.zero_le path.length) (by omega)
    rw [hgo_end] at hpass
    cases hpass
  rw [List.prefix_iff_getElem]
  constructor
  · intro hzero
    have hat : scan go name.length 0 = path.length := by
      rcases Nat.eq_or_lt_of_le hbefore with heq | hlt
      · exact heq
      · exact absurd hzero (hne _ hlt)
    refine ⟨by omega, fun k hk => ?_⟩
    have hpass := scan_passes go name.length 0 (Nat.zero_le k) (by omega)
    subst hgo
    simp only [Bool.and_eq_true, beq_iff_eq] at hpass
    rw [← hfile.getElem (by omega), ← Memory.getElem_of_stored hstored hk, hpass.1]
  · rintro ⟨hlength, hsame⟩
    have hat : scan go name.length 0 = path.length := by
      by_contra hearlier
      have hlt : scan go name.length 0 < path.length := by omega
      have hstop := scan_stops go name.length 0 (by omega)
      subst hgo
      simp only [Bool.and_eq_false_iff, beq_eq_false_iff_ne, bne_eq_false_iff_eq] at hstop
      rcases hstop with hdiffers | hzero
      · rw [hfile.getElem (by omega), Memory.getElem_of_stored hstored hlt] at hdiffers
        exact hdiffers (hsame _ hlt).symm
      · exact hne _ hlt hzero
    rw [hat, hend]

/-! The search. -/

section

variable {m : Memory} {type : Byte} {path : List Byte} {toFind : Nat}

theorem stop_jaxNextFile (iter : JaxIterator) (file : JaxFile) :
    (jaxNextFile m iter file).2.1.stop = iter.stop := by
  simp only [jaxNextFile]
  split
  · rfl
  · split
    · rfl
    · split
      · rfl
      · rfl

theorem jaxNextFile_of_nextFile {start stop next : Nat} {old file : JaxFile}
    (h : nextFile m start stop old = (some next, file)) :
    jaxNextFile m ⟨start, stop⟩ old = (true, ⟨next, stop⟩, file) := by
  have hstop := stop_jaxNextFile (m := m) ⟨start, stop⟩ old
  rw [nextFile] at h
  rcases hcall : jaxNextFile m ⟨start, stop⟩ old with ⟨found, iter, file'⟩
  rw [hcall] at h hstop
  cases found with
  | false => cases h
  | true =>
      cases h
      cases hstop
      rfl

theorem found_of_nextFile {start stop : Nat} {old : JaxFile}
    (h : (nextFile m start stop old).1 = none) :
    (jaxNextFile m ⟨start, stop⟩ old).1 = false := by
  rw [nextFile] at h
  rcases hcall : jaxNextFile m ⟨start, stop⟩ old with ⟨found, iter, file'⟩
  rw [hcall] at h
  cases found with
  | false => rfl
  | true => cases h

/-- The loop takes the first record that is seen whose name starts with the path. -/
theorem jaxFindLoop_chain (hpath : m.Stored toFind (path ++ [0])) (hnul : 0 ∉ path)
    {start stop : Nat} {records : List DescribedRecord} (h : Chain m stop start records)
    (hbound : stop < 2 ^ ptrBits) {fuel : Nat} (hfuel : records.length < fuel)
    (old : JaxFile) :
    jaxFindLoop m toFind type fuel ⟨start, stop⟩ old =
      some (((located start records).find? fun child =>
        decide (OfType type child.2 ∧ path <+: child.2.name)).map dataOf) := by
  induction h generalizing fuel old with
  | nil hnext =>
      obtain ⟨fuel, rfl⟩ := Nat.exists_eq_add_one_of_ne_zero (Nat.ne_of_gt hfuel)
      have hnone := found_of_nextFile (hnext old)
      simp only [jaxFindLoop, hnone, if_true]
      rfl
  | cons hnext hname hpast hstop h ih =>
      rename_i start r records
      obtain ⟨fuel, rfl⟩ :=
        Nat.exists_eq_add_one_of_ne_zero (Nat.ne_of_gt (Nat.zero_lt_of_lt hfuel))
      have hrest := ih (Nat.lt_of_succ_lt_succ hfuel) (r.file start)
      have hmatched := matched_iff (named_file hname) hpath hnul
      have hbytes := r.length_bytes
      have hsize : (r.file start).size.toNat % 2 ^ ptrBits = r.data.length := by
        have hdata : r.data.length < 2 ^ ptrBits := by omega
        have hwide : 2 ^ ptrBits < 2 ^ 64 := by decide
        have hnat : (r.file start).size.toNat = r.data.length :=
          Nat.mod_eq_of_lt (Nat.lt_trans hdata hwide)
        rw [hnat, Nat.mod_eq_of_lt hdata]
      have htype : (r.file start).type = r.type := rfl
      simp only [jaxFindLoop, jaxNextFile_of_nextFile (hnext old), Bool.true_eq_false, if_false,
        htype, located, List.find?_cons, hrest, hsize]
      by_cases hof : OfType type r
      · have hsame : ¬ (type ≠ 0 ∧ r.type ≠ type) := by
          rintro ⟨hany, hother⟩
          exact hof.elim hany hother
        by_cases hstarts : path <+: r.name
        · rw [if_neg hsame, if_neg (not_not.mpr (hmatched.mpr hstarts)),
            decide_eq_true ⟨hof, hstarts⟩]
          rfl
        · rw [if_neg hsame, if_pos (mt hmatched.mp hstarts),
            decide_eq_false fun htaken => hstarts htaken.2]
      · rw [if_pos (not_or.mp hof), decide_eq_false fun htaken => hof htaken.1]

end

/-! When the first record that is taken is the one that is wanted. -/

theorem Ahead.chain {m : Memory} {iter : JaxIterator} {records : List DescribedRecord}
    (h : Ahead m iter records) : Chain m iter.stop iter.start (seen records) := by
  have hbound := h.bound
  rw [h.stop] at hbound ⊢
  exact chain_of_stored h.stored hbound

/-- Where the path that is compared starts. -/
theorem stored_withoutSlash {m : Memory} {toFind : Nat} {path : List Byte}
    (h : m.Stored toFind (path ++ [0])) (hnul : 0 ∉ path) :
    m.Stored (if m toFind = separator then toFind + 1 else toFind) (withoutSlash path ++ [0]) ∧
      0 ∉ withoutSlash path := by
  cases path with
  | nil =>
      have hzero : m toFind = 0 := (Memory.stored_cons m toFind 0 []).mp h |>.1
      rw [hzero, if_neg (by decide)]
      exact ⟨h, hnul⟩
  | cons byte path =>
      rw [List.cons_append, Memory.stored_cons] at h
      rw [h.1, withoutSlash]
      split
      · exact ⟨h.2, fun hmem => hnul (List.mem_cons_of_mem _ hmem)⟩
      · rw [List.cons_append, Memory.stored_cons]
        exact ⟨h, hnul⟩

theorem jaxFind_eq {m : Memory} {iter : JaxIterator} {records : List DescribedRecord}
    {toFind : Nat} {type : Byte} {path : List Byte} (h : Ahead m iter records)
    (hpath : m.Stored toFind (path ++ [0])) (hnul : 0 ∉ path) {fuel : Nat}
    (hfuel : records.length < fuel) :
    jaxFind m fuel iter toFind type =
      some (((located iter.start records).find? fun child =>
        decide (IsTaken type (withoutSlash path) iter.stop child)).map dataOf) := by
  obtain ⟨hstored, hnone⟩ := stored_withoutSlash hpath hnul
  have hfuel' := Nat.lt_of_le_of_lt (length_seen records) hfuel
  rw [jaxFind, jaxFindLoop_chain hstored hnone h.chain h.bound hfuel', find?_seen _ h.stop]
  simp only [IsTaken, ← and_assoc, Bool.decide_and]

/-- The first record that the search takes or should take has the name and is seen. -/
def FirstIsExact (iter : JaxIterator) (records : List DescribedRecord) (type : Byte)
    (path : List Byte) : Prop :=
  ∀ child ∈ (located iter.start records).find? (fun child =>
      decide (IsTaken type path iter.stop child) || decide (IsWanted type path child.2)),
    child.2.name = path ∧ (child.2.file child.1).data < iter.stop

theorem jaxFind_exact_iff {m : Memory} {iter : JaxIterator} {records : List DescribedRecord}
    {toFind : Nat} (type : Byte) {path : List Byte} (h : Ahead m iter records)
    (hpath : m.Stored toFind (path ++ [0])) (hnul : 0 ∉ path) :
    FindsExactly m iter records toFind type (withoutSlash path) ↔
      FirstIsExact iter records type (withoutSlash path) := by
  have hagree := find?_map_eq_iff
    (fun child => decide (IsTaken type (withoutSlash path) iter.stop child))
    (fun child => decide (IsWanted type (withoutSlash path) child.2))
    (nodup_dataOf iter.start records)
  constructor
  · intro hexact child hmem
    have hwanted := hexact _ (Nat.lt_succ_self _)
    rw [jaxFind_eq h hpath hnul (Nat.lt_succ_self _)] at hwanted
    have hboth := hagree.mp (Option.some.inj hwanted) child hmem
    simp only [decide_eq_true_eq] at hboth
    exact ⟨hboth.2.2, hboth.1.2.2⟩
  · intro hall fuel hfuel
    rw [jaxFind_eq h hpath hnul hfuel]
    refine congrArg some (hagree.mpr fun child hmem => ?_)
    obtain ⟨hname, hmore⟩ := hall child hmem
    have heither := List.find?_some hmem
    simp only [Bool.or_eq_true, decide_eq_true_eq] at heither ⊢
    have htype : OfType type child.2 := heither.elim (fun h => h.1) (fun h => h.1)
    exact ⟨⟨htype, hname ▸ List.prefix_rfl, hmore⟩, htype, hname⟩

/-- A file with the name `"ab"`. -/
def fileAb : DescribedRecord where
  type := 0x72
  name := [0x61, 0x62]
  timestamp := 0
  mode := 0
  owner := 0
  group := 0
  data := [0x78]
  description := []
  nameBound := by decide
  dataBound := by decide
  descriptionBound := directoryD.descriptionBound

/-- The archive of that file, and behind it the path. -/
def memoryOfAb (path : List Byte) : Memory :=
  memoryWith 4 ([fileAb].flatMap DescribedRecord.bytes ++ (path ++ [0]))

theorem ahead_fileAb (path : List Byte) : Ahead (memoryOfAb path) ⟨4, 34⟩ [fileAb] where
  stored := ((Memory.stored_append _ _ _ _).mp (memoryWith_stored 4 _)).1
  stop := by decide
  bound := by decide

theorem stored_path_fileAb (path : List Byte) : (memoryOfAb path).Stored 34 (path ++ [0]) :=
  ((Memory.stored_append _ _ _ _).mp (memoryWith_stored 4
    ([fileAb].flatMap DescribedRecord.bytes ++ (path ++ [0])))).2

theorem jaxFind_exact_iff_fileAb :
    FindsExactly (memoryOfAb [0x2f, 0x61, 0x62]) ⟨4, 34⟩ [fileAb] 34 0x72 [0x61, 0x62] ↔
      FirstIsExact ⟨4, 34⟩ [fileAb] 0x72 [0x61, 0x62] :=
  @jaxFind_exact_iff _ _ _ _ 0x72 [0x2f, 0x61, 0x62] (ahead_fileAb _) (stored_path_fileAb _)
    (by decide)

/-- The path `"a"` finds the file `"ab"`. -/
theorem not_findsExactly_fileAb :
    ¬ FindsExactly (memoryOfAb [0x61]) ⟨4, 34⟩ [fileAb] 34 0x72 [0x61] := by
  intro hexact
  have hfound : jaxFind (memoryOfAb [0x61]) 2 ⟨4, 34⟩ 34 0x72 = some (some (33, 1)) := by
    decide +kernel
  have hwanted := hexact 2 (by decide)
  rw [hfound] at hwanted
  exact absurd hwanted (by decide)

end Cenix.Jax
