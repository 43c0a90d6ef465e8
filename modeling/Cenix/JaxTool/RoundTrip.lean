import Cenix.JaxTool.Host

namespace Cenix.JaxTool

open Fields Jax

/-! What the tool packs and what it reads back. -/

variable {host : Host}

/-! Loops. -/

theorem fread_append {item : List Byte} (h : item ≠ []) (stream : List Byte) :
    fread item.length (item ++ stream) = some (item, stream) := by
  have hpos := List.length_pos_iff.mpr h
  have hnot : ¬ (item.length = 0 ∨ (item ++ stream).length < item.length) := by
    rw [List.length_append]
    omega
  rw [fread, if_neg hnot, List.take_left, List.drop_left]

theorem fwrite_of_ne {item : List Byte} (h : item ≠ []) (file : List Byte) :
    fwrite item file = some (file ++ item) :=
  if_neg h

/-- A file whose size is a multiple of the buffer's ends with an item of no bytes. -/
theorem copyLoop_eq (source destination : List Byte) (n : Nat) :
    copyLoop host source destination n =
      if n % host.bufsiz = 0 ∨ source.length < n then none
      else some (source.drop n, destination ++ source.take n) := by
  have hbuffer := host.bufsizBound
  induction n using Nat.strong_induction_on generalizing source destination with
  | h n ih =>
      have hnonneg : ¬ (n : Int) < 0 := by omega
      rw [copyLoop, if_neg hnonneg]
      rcases Nat.lt_or_ge n host.bufsiz with hless | hmore
      · have hsize : (if (n : Int) > host.bufsiz then host.bufsiz else (n : Int).toNat) = n := by
          rw [if_neg (by omega), Int.toNat_natCast]
        have hmod : n % host.bufsiz = n := Nat.mod_eq_of_lt hless
        have hend : (n : Int) - host.bufsiz < 0 := by omega
        simp only [hsize, hmod, fread]
        split
        · rfl
        · rename_i hread
          have hitem : source.take n ≠ [] := by
            rw [← List.length_pos_iff, List.length_take]
            omega
          simp only [Option.bind_some, fwrite_of_ne hitem]
          rw [copyLoop, if_pos hend]
      · have hsize : (if (n : Int) > host.bufsiz then host.bufsiz else (n : Int).toNat) =
            host.bufsiz := by
          split
          · rfl
          · omega
        have hmod : (n - host.bufsiz) % host.bufsiz = n % host.bufsiz := by
          rw [← Nat.mod_eq_sub_mod hmore]
        have hrest : (n : Int) - host.bufsiz = ((n - host.bufsiz : Nat) : Int) := by omega
        simp only [hsize, fread]
        split
        · rename_i hshort
          rw [if_pos (by omega)]
          rfl
        · rename_i hread
          have hitem : source.take host.bufsiz ≠ [] := by
            rw [← List.length_pos_iff, List.length_take]
            omega
          simp only [Option.bind_some, fwrite_of_ne hitem]
          rw [hrest, ih _ (by omega), hmod, List.length_drop, List.drop_drop,
            Nat.add_sub_cancel' hmore]
          have hshort : (source.length - host.bufsiz < n - host.bufsiz) ↔ source.length < n := by
            omega
          have htake : source.take host.bufsiz ++ (source.drop host.bufsiz).take
              (n - host.bufsiz) = source.take n := by
            rw [← List.take_add, Nat.add_sub_cancel' hmore]
          simp only [hshort, List.append_assoc, htake]

theorem skipLoop_eq (stream : List Byte) (n : Nat) : skipLoop stream n = stream.drop n := by
  induction n using Nat.strong_induction_on generalizing stream with
  | h n ih =>
      have hnonneg : ¬ (n : Int) < 0 := by omega
      have hmax : 0 < longMax := by decide
      rw [skipLoop, if_neg hnonneg]
      rcases Nat.lt_or_ge n longMax with hless | hmore
      · have hend : (n : Int) - longMax < 0 := by omega
        rw [if_neg (by omega), skipLoop, if_pos hend, Int.toNat_natCast]
      · have hsize : (if (n : Int) > longMax then longMax else (n : Int).toNat) = longMax := by
          split
          · rfl
          · omega
        have hrest : (n : Int) - longMax = ((n - longMax : Nat) : Int) := by omega
        rw [hsize, hrest, ih _ (by omega), List.drop_drop, Nat.add_sub_cancel' hmore]

/-! Numbers. -/

theorem u16ToNe_u16ToLe (number : BitVec 16) : u16ToNe (u16ToLe number) = number :=
  Cenix.u16ToNe_of_stored (memoryWith_stored 0 (u16ToLe number))

theorem getD_i64ToLe (number : BitVec 64) {i : Nat} (h : i < 8) :
    (i64ToLe number).getD i 0 = (number.sshiftRight (i * 8)).setWidth 8 := by
  simp [i64ToLe, h]

/-- A byte of a number as the `int` that is shifted. -/
def byteInt (number : BitVec 64) (i : Nat) : BitVec 32 :=
  ((number.sshiftRight (i * 8)).setWidth 8).setWidth 32

/-- The bits that come from the bytes that are shifted past the width of an `int`. -/
def Host.past (host : Host) (number : BitVec 64) : BitVec 32 :=
  host.shift (byteInt number 4) 32 ||| host.shift (byteInt number 5) 40 |||
    host.shift (byteInt number 6) 48 ||| host.shift (byteInt number 7) 56

theorem low_bytes (number : BitVec 64) :
    byteInt number 0 <<< 0 ||| byteInt number 1 <<< 8 ||| byteInt number 2 <<< 16 |||
      byteInt number 3 <<< 24 = number.setWidth 32 := by
  apply BitVec.eq_of_getLsbD_eq
  intro i hi
  have hsign : ∀ k, ¬ 64 ≤ i - k := fun k => by omega
  have hwidth : ∀ k, i - k < 32 := fun k => by omega
  simp only [byteInt, BitVec.getLsbD_or, BitVec.getLsbD_shiftLeft, BitVec.getLsbD_setWidth,
    BitVec.getLsbD_sshiftRight, hi, hsign, hwidth, decide_true, decide_false, Bool.true_and,
    Bool.not_false]
  rcases Nat.lt_or_ge i 8 with h8 | h8
  · have hbits : i < 16 ∧ i < 24 ∧ i < 64 := by omega
    simp [h8, hbits]
  · rcases Nat.lt_or_ge i 16 with h16 | h16
    · have hbits : ¬ i < 8 ∧ i < 24 ∧ i - 8 < 8 ∧ 8 + (i - 8) = i ∧ i < 64 := by omega
      simp [h16, hbits]
    · rcases Nat.lt_or_ge i 24 with h24 | h24
      · have hbits : ¬ i < 8 ∧ ¬ i < 16 ∧ ¬ i - 8 < 8 ∧ i - 16 < 8 ∧ 16 + (i - 16) = i ∧
            i < 64 := by omega
        simp [h24, hbits]
      · have hbits : ¬ i < 8 ∧ ¬ i < 16 ∧ ¬ i < 24 ∧ ¬ i - 8 < 8 ∧ ¬ i - 16 < 8 ∧
            i - 24 < 8 ∧ 24 + (i - 24) = i ∧ i < 64 := by omega
        simp [hbits]

/-- What is read is the sign extension of 32 bits. -/
theorem i64ToNe_i64ToLe (number : BitVec 64) :
    host.i64ToNe (i64ToLe number) =
      (number.setWidth 32 ||| host.past number).signExtend 64 := by
  have hbyte : ∀ i, i < 8 →
      ((i64ToLe number).getD i 0).setWidth 32 = byteInt number i :=
    fun i hi => congrArg _ (getD_i64ToLe number hi)
  have hrange : List.range 8 = [0, 1, 2, 3, 4, 5, 6, 7] := rfl
  simp (disch := decide) only [Host.i64ToNe, hrange, List.foldl_cons, List.foldl_nil, hbyte]
  have hzero : ∀ bits : BitVec 64, 0 ||| bits = bits := fun _ => BitVec.zero_or
  rw [← low_bytes, Host.past]
  simp only [Host.shiftInt, ← BitVec.signExtend_or, hzero, BitVec.or_assoc]
  rfl

theorem signExtend_eq_iff (low : BitVec 32) (number : BitVec 64) :
    low.signExtend 64 = number ↔
      (-2 ^ 31 ≤ number.toInt ∧ number.toInt < 2 ^ 31) ∧ low = number.setWidth 32 := by
  constructor
  · rintro rfl
    rw [BitVec.toInt_signExtend_of_le (by decide)]
    have hlt := low.toInt_lt
    have hle := low.le_toInt
    refine ⟨by omega, ?_⟩
    apply BitVec.eq_of_getLsbD_eq
    intro i hi
    simp only [BitVec.getLsbD_setWidth, BitVec.getLsbD_signExtend, hi, decide_true,
      Bool.true_and, if_true]
    simp [Nat.lt_trans hi (show 32 < 64 by decide)]
  · rintro ⟨⟨hle, hlt⟩, rfl⟩
    apply BitVec.eq_of_toInt_eq
    rw [BitVec.toInt_signExtend_of_le (by decide)]
    rw [BitVec.toInt_eq_toNat_cond] at hle hlt ⊢
    rw [BitVec.toInt_eq_toNat_cond, BitVec.toNat_setWidth]
    have hbound := number.isLt
    split at hle <;> split at hlt <;> split <;> omega

/-- The numbers that are read back as they are: those of 32 bits, and of the negative ones
those that have all the bits that the bytes of the sign leave. -/
def Host.Fits (host : Host) (number : BitVec 64) : Prop :=
  (-2 ^ 31 ≤ number.toInt ∧ number.toInt < 2 ^ 31) ∧
    (number.toInt < 0 → ∀ i, 4 ≤ i → i < 8 →
      host.shift 0xff (i * 8) ||| number.setWidth 32 = number.setWidth 32)

theorem sshiftRight_of_small {number : BitVec 64} (hle : -2 ^ 31 ≤ number.toInt)
    (hlt : number.toInt < 2 ^ 31) {i : Nat} (hi : 4 ≤ i) (hi' : i < 8) :
    byteInt number i = if number.toInt < 0 then 0xff else 0 := by
  have hshift : (number.sshiftRight (i * 8)).toInt = if number.toInt < 0 then -1 else 0 := by
    rw [BitVec.toInt_sshiftRight, Int.shiftRight_eq_div_pow]
    have hpow : ((2 ^ 32 : Nat) : Int) ≤ ((2 ^ (i * 8) : Nat) : Int) := by
      exact_mod_cast Nat.pow_le_pow_right (by decide) (show 32 ≤ i * 8 by omega)
    split
    · rename_i hneg
      apply Int.ediv_eq_neg_one_of_neg_of_le hneg
      omega
    · exact Int.ediv_eq_zero_of_lt (by omega) (by omega)
  have hnumber : number.sshiftRight (i * 8) = if number.toInt < 0 then -1 else 0 := by
    apply BitVec.eq_of_toInt_eq
    rw [hshift]
    split
    · rfl
    · rfl
  rw [byteInt, hnumber]
  split
  · rfl
  · rfl

theorem or_eq_left_iff {w : Nat} (low bits : BitVec w) :
    low ||| bits = low ↔ ∀ i, bits.getLsbD i = true → low.getLsbD i = true := by
  constructor
  · intro heq i hbit
    rw [← heq, BitVec.getLsbD_or, hbit, Bool.or_true]
  · intro hall
    apply BitVec.eq_of_getLsbD_eq
    intro i _
    rw [BitVec.getLsbD_or]
    cases hbit : bits.getLsbD i with
    | false => rw [Bool.or_false]
    | true => rw [hall i hbit, Bool.or_true]

theorem or_or_eq_left_iff {w : Nat} (low bits more : BitVec w) :
    low ||| (bits ||| more) = low ↔ low ||| bits = low ∧ low ||| more = low := by
  simp only [or_eq_left_iff, BitVec.getLsbD_or, Bool.or_eq_true, or_imp, forall_and]

theorem i64ToNe_eq_iff (number : BitVec 64) :
    host.i64ToNe (i64ToLe number) = number ↔ host.Fits number := by
  rw [i64ToNe_i64ToLe, signExtend_eq_iff, Host.Fits]
  refine and_congr_right fun ⟨hle, hlt⟩ => ?_
  have hbyte : ∀ i, 4 ≤ i → i < 8 →
      byteInt number i = if number.toInt < 0 then 0xff else 0 :=
    fun i => sshiftRight_of_small hle hlt
  simp (disch := decide) only [Host.past, hbyte]
  split
  · rename_i hneg
    simp only [or_or_eq_left_iff]
    constructor
    · rintro ⟨⟨⟨h4, h5⟩, h6⟩, h7⟩ _ i hi hi'
      rw [BitVec.or_comm]
      have hcases : i = 4 ∨ i = 5 ∨ i = 6 ∨ i = 7 := by omega
      rcases hcases with rfl | rfl | rfl | rfl
      · exact h4
      · exact h5
      · exact h6
      · exact h7
    · intro hall
      have hbits : ∀ i, 4 ≤ i → i < 8 →
          number.setWidth 32 ||| host.shift 0xff (i * 8) = number.setWidth 32 := by
        intro i hi hi'
        rw [BitVec.or_comm]
        exact hall hneg i hi hi'
      exact ⟨⟨⟨hbits 4 (by decide) (by decide), hbits 5 (by decide) (by decide)⟩,
        hbits 6 (by decide) (by decide)⟩, hbits 7 (by decide) (by decide)⟩
  · rename_i hnonneg
    refine iff_of_true ?_ (fun hneg => absurd hneg hnonneg)
    simp only [host.shiftZero]
    simp

/-! Packing. -/

/-- A regular file, directory or link that does not change while it is packed. -/
structure Visit.Stable (v : Visit) : Prop where
  visited : v.type = .file ∨ v.type = .directory ∨ v.type = .link
  name : v.name ≠ []
  nameBound : v.name.length < 2 ^ 16
  mode : v.mode.toNat < 2 ^ 16
  uid : v.uid.toNat < 2 ^ 16
  gid : v.gid.toNat < 2 ^ 16
  size : v.type ≠ .directory → v.size.toInt = v.contents.length
  contents : v.type = .directory → v.contents = []

/-- The size that is written into the archive. -/
def Visit.recordedSize (v : Visit) : BitVec 64 :=
  if v.type = .directory then 0 else v.size

def Visit.bytes (v : Visit) : List Byte :=
  [v.recordType] ++ (u16ToLe (BitVec.ofNat 16 v.name.length) ++ (v.name ++
    (u16ToLe 0 ++ (v.otherFields ++ v.contents))))

/-- The contents are copied without an item of no bytes. -/
def Visit.Copied (host : Host) (v : Visit) : Prop :=
  (v.type = .file → v.contents.length % host.bufsiz ≠ 0) ∧ (v.type = .link → v.contents ≠ [])

instance (v : Visit) : Decidable (v.Copied host) :=
  inferInstanceAs (Decidable (_ ∧ _))

theorem length_otherFields (v : Visit) : v.otherFields.length = 22 := by
  rw [Visit.otherFields]
  split
  · rfl
  · rfl

theorem otherFields_ne_nil (v : Visit) : v.otherFields ≠ [] := by
  rw [← List.length_pos_iff, length_otherFields]
  decide

theorem toNat_size {v : Visit} (h : v.Stable) (htype : v.type ≠ .directory) :
    v.size.toNat = v.contents.length := by
  have hsize := h.size htype
  rw [BitVec.toInt_eq_toNat_cond] at hsize
  split at hsize
  · omega
  · have hbound := v.size.isLt
    omega

/-- A file is packed as its record, or not at all. -/
theorem nftwVisit_eq {v : Visit} (h : v.Stable) (archive : List Byte) :
    nftwVisit host archive v = if v.Copied host then some (archive ++ v.bytes) else none := by
  have hlength : (BitVec.ofNat 16 v.name.length).toNat = v.name.length :=
    Nat.mod_eq_of_lt h.nameBound
  have hname : v.name.take (BitVec.ofNat 16 v.name.length).toNat = v.name := by
    rw [hlength, List.take_length]
  have hfields := otherFields_ne_nil v
  have hshort : ∀ number, u16ToLe number ≠ [] := fun _ => List.cons_ne_nil _ _
  have hvisited : ¬ (v.type = .unreadable ∨ v.type = .noStat) := by
    rcases h.visited with htype | htype | htype
    · simp [htype]
    · simp [htype]
    · simp [htype]
  rw [nftwVisit, if_neg hvisited, fwrite_of_ne (List.cons_ne_nil _ _), Option.bind_eq_bind,
    Option.bind_some]
  simp only [hname, fwrite_of_ne (hshort _), fwrite_of_ne h.name, fwrite_of_ne hfields,
    Option.bind_some, List.append_assoc]
  rcases h.visited with htype | htype | htype
  · have hsize := h.size (by simp [htype])
    simp only [htype, hsize, copyLoop_eq, Nat.lt_irrefl, or_false, Visit.Copied, Visit.bytes]
    split
    · rename_i hmod
      rw [if_neg (by simp [hmod])]
      rfl
    · rename_i hmod
      rw [if_pos (by simp [hmod])]
      simp [List.append_assoc]
  · have hcopied : v.Copied host := by simp [Visit.Copied, htype]
    simp only [htype, hcopied, if_true, Visit.bytes, h.contents htype, List.append_nil]
  · have hsize := toNat_size h (by simp [htype])
    have hnonneg : ¬ v.size.toInt < 0 := by
      rw [h.size (by simp [htype])]
      omega
    simp only [htype, writeLink, hnonneg, if_false, hsize, List.take_length, ne_eq,
      not_true_eq_false, Visit.Copied, Visit.bytes, fwrite]
    split
    · rename_i hempty
      rw [if_neg (by simp [hempty])]
    · rename_i hcontents
      rw [if_pos (by simp [hcontents])]
      simp [List.append_assoc]

theorem foldlM_nftwVisit {visits : List Visit} (h : ∀ v ∈ visits, v.Stable)
    (archive : List Byte) :
    visits.foldlM (nftwVisit host) archive =
      if ∀ v ∈ visits, v.Copied host then some (archive ++ visits.flatMap Visit.bytes)
      else none := by
  induction visits generalizing archive with
  | nil => simp
  | cons v visits ih =>
      rw [List.foldlM_cons, nftwVisit_eq (h v List.mem_cons_self)]
      simp only [List.forall_mem_cons]
      split
      · rename_i hcopied
        rw [Option.bind_eq_bind, Option.bind_some,
          ih fun v hmem => h v (List.mem_cons_of_mem _ hmem)]
        simp only [hcopied, true_and, List.flatMap_cons, List.append_assoc]
      · rename_i hnot
        simp only [hnot, false_and, if_false]
        rfl

theorem create_eq {visits : List Visit} (h : ∀ v ∈ visits, v.Stable) :
    create host visits =
      if ∀ v ∈ visits, v.Copied host then some (magic ++ visits.flatMap Visit.bytes)
      else none :=
  foldlM_nftwVisit h magic

/-! Reading records. -/

/-- The record of a file as it is read. -/
def Visit.decoded (host : Host) (v : Visit) : Decoded where
  type := v.recordType
  name := v.name
  timestamp := host.i64ToNe (i64ToLe v.mtime)
  mode := v.mode.setWidth 16
  owner := v.uid.setWidth 16
  group := v.gid.setWidth 16
  size := host.i64ToNe (i64ToLe v.recordedSize)

theorem otherFields_eq (v : Visit) :
    v.otherFields = i64ToLe v.mtime ++ (u16ToLe (v.mode.setWidth 16) ++
      (u16ToLe (v.uid.setWidth 16) ++ (u16ToLe (v.gid.setWidth 16) ++
        i64ToLe v.recordedSize))) := by
  rw [Visit.otherFields, Visit.recordedSize]
  split
  · simp only [List.append_assoc]
  · simp only [List.append_assoc]

theorem readOtherFields_eq (v : Visit) (name stream : List Byte) :
    readOtherFields host v.recordType name (v.otherFields ++ stream) =
      some ({ v.decoded host with name := name }, stream) := by
  have hread := fread_append (otherFields_ne_nil v) stream
  rw [length_otherFields] at hread
  rw [readOtherFields, hread, Option.map_some]
  have htimestamp : v.otherFields.take 8 = i64ToLe v.mtime := by
    rw [otherFields_eq]
    rfl
  have hmode : (v.otherFields.drop 8).take 2 = u16ToLe (v.mode.setWidth 16) := by
    rw [otherFields_eq]
    rfl
  have howner : (v.otherFields.drop 10).take 2 = u16ToLe (v.uid.setWidth 16) := by
    rw [otherFields_eq]
    rfl
  have hgroup : (v.otherFields.drop 12).take 2 = u16ToLe (v.gid.setWidth 16) := by
    rw [otherFields_eq]
    rfl
  have hsize : (v.otherFields.drop 14).take 8 = i64ToLe v.recordedSize := by
    rw [otherFields_eq]
    rfl
  simp only [htimestamp, hmode, howner, hgroup, hsize, u16ToNe_u16ToLe, Visit.decoded]

/-- The length of a name and the name. -/
theorem toNat_nameLength {v : Visit} (h : v.Stable) :
    (u16ToNe (u16ToLe (BitVec.ofNat 16 v.name.length))).toNat = v.name.length := by
  rw [u16ToNe_u16ToLe]
  exact Nat.mod_eq_of_lt h.nameBound

theorem fread_u16ToLe (number : BitVec 16) (stream : List Byte) :
    fread 2 (u16ToLe number ++ stream) = some (u16ToLe number, stream) :=
  fread_append (show u16ToLe number ≠ [] from List.cons_ne_nil _ _) stream

theorem listRecord_eq {v : Visit} (h : v.Stable) (stream : List Byte) :
    listRecord host v.recordType (u16ToLe (BitVec.ofNat 16 v.name.length) ++ (v.name ++
      (u16ToLe 0 ++ (v.otherFields ++ stream)))) =
        some (v.decoded host, skipLoop stream (v.decoded host).size.toInt) := by
  have hname : copyName v.name.length (v.name ++ (u16ToLe 0 ++ (v.otherFields ++ stream))) =
      some v.name := by
    rw [copyName, if_neg (by rw [List.length_append]; omega), List.take_left]
  have hdescription : (u16ToNe (u16ToLe 0)).toNat = 0 := rfl
  simp only [listRecord, fread_u16ToLe, Option.bind_eq_bind, Option.bind_some,
    toNat_nameLength h, List.drop_left, hdescription, List.drop_zero, readOtherFields_eq, hname]
  rfl

/-- What a list shows of a file is what it has been. -/
structure Decodes (v : Visit) (decoded : Decoded) : Prop where
  type : decoded.type = v.recordType
  name : decoded.name = v.name
  timestamp : decoded.timestamp = v.mtime
  mode : decoded.mode.toNat = v.mode.toNat
  owner : decoded.owner.toNat = v.uid.toNat
  group : decoded.group.toNat = v.gid.toNat
  size : decoded.size.toInt = v.contents.length

theorem toInt_recordedSize {v : Visit} (h : v.Stable) :
    v.recordedSize.toInt = v.contents.length := by
  rw [Visit.recordedSize]
  split
  · rename_i htype
    rw [h.contents htype]
    rfl
  · rename_i htype
    exact h.size htype

theorem fits_recordedSize (host : Host) {v : Visit} (h : v.Stable) :
    host.Fits v.recordedSize ↔ v.contents.length < 2 ^ 31 := by
  have hsize := toInt_recordedSize h
  rw [Host.Fits, hsize]
  constructor
  · rintro ⟨⟨_, hlt⟩, _⟩
    omega
  · intro hlt
    exact ⟨by omega, fun hneg => by omega⟩

theorem decodes_iff {v : Visit} (h : v.Stable) :
    Decodes v (v.decoded host) ↔ v.contents.length < 2 ^ 31 ∧ host.Fits v.mtime := by
  have hsize := toInt_recordedSize h
  rw [← fits_recordedSize host h, ← i64ToNe_eq_iff, ← i64ToNe_eq_iff]
  constructor
  · intro hdecodes
    refine ⟨BitVec.eq_of_toInt_eq ?_, hdecodes.timestamp⟩
    rw [hsize]
    exact hdecodes.size
  · rintro ⟨hsize', htimestamp⟩
    have hwidth : ∀ number : BitVec 32, number.toNat < 2 ^ 16 →
        (number.setWidth 16).toNat = number.toNat := by
      intro number hnumber
      rw [BitVec.toNat_setWidth, Nat.mod_eq_of_lt hnumber]
    exact ⟨rfl, rfl, htimestamp, hwidth _ h.mode, hwidth _ h.uid, hwidth _ h.gid,
      (congrArg BitVec.toInt hsize').trans hsize⟩

/-! Lists. -/

theorem fread_type (v : Visit) (stream : List Byte) :
    fread 1 (v.bytes ++ stream) = some ([v.recordType],
      u16ToLe (BitVec.ofNat 16 v.name.length) ++ (v.name ++
        (u16ToLe 0 ++ (v.otherFields ++ (v.contents ++ stream))))) := by
  simp only [Visit.bytes, List.append_assoc]
  exact fread_append (List.cons_ne_nil v.recordType []) _

theorem listLoop_succ {v : Visit} (h : v.Stable) (fuel : Nat) (stream : List Byte) :
    listLoop host (fuel + 1) (v.bytes ++ stream) =
      (listLoop host fuel (skipLoop (v.contents ++ stream) (v.decoded host).size.toInt)).map
        (v.decoded host :: ·) := by
  rw [listLoop, fread_type]
  simp only [List.getD_cons_zero, listRecord_eq h, Option.bind_some]

theorem length_bytes (v : Visit) :
    v.bytes.length = 27 + v.name.length + v.contents.length := by
  rw [Visit.bytes]
  simp only [List.length_append, List.length_singleton, length_u16ToLe, length_otherFields]
  omega

theorem listLoop_eq {visits : List Visit} (h : ∀ v ∈ visits, v.Stable)
    (hdecodes : ∀ v ∈ visits, Decodes v (v.decoded host)) {fuel : Nat}
    (hfuel : (visits.flatMap Visit.bytes).length ≤ fuel) :
    listLoop host fuel (visits.flatMap Visit.bytes) = some (visits.map (Visit.decoded host)) := by
  induction visits generalizing fuel with
  | nil =>
      cases fuel with
      | zero => rfl
      | succ fuel => rfl
  | cons v visits ih =>
      have hlength := length_bytes v
      rw [List.flatMap_cons] at hfuel ⊢
      rw [List.length_append] at hfuel
      obtain ⟨fuel, rfl⟩ := Nat.exists_eq_add_one_of_ne_zero (show fuel ≠ 0 by omega)
      rw [listLoop_succ (h v List.mem_cons_self), (hdecodes v List.mem_cons_self).size,
        skipLoop_eq, List.drop_left,
        ih (fun v hmem => h v (List.mem_cons_of_mem _ hmem))
          (fun v hmem => hdecodes v (List.mem_cons_of_mem _ hmem)) (by omega)]
      rfl

/-- If a list is right, every file in it is read as what it has been: the first one that is
not spoils the list. -/
theorem decodes_of_listLoop {visits : List Visit} (h : ∀ v ∈ visits, v.Stable)
    {fuel : Nat} {lines : List Decoded}
    (hlines : listLoop host fuel (visits.flatMap Visit.bytes) = some lines)
    (hall : List.Forall₂ Decodes visits lines) :
    ∀ v ∈ visits, Decodes v (v.decoded host) := by
  induction visits generalizing fuel lines with
  | nil => exact fun v hmem => absurd hmem List.not_mem_nil
  | cons v visits ih =>
      cases fuel with
      | zero =>
          cases hlines
          cases hall
      | succ fuel =>
          rw [List.flatMap_cons, listLoop_succ (h v List.mem_cons_self)] at hlines
          obtain ⟨lines, hrest, rfl⟩ := Option.map_eq_some_iff.mp hlines
          obtain ⟨hfirst, hall⟩ := List.forall₂_cons.mp hall
          rw [hfirst.size, skipLoop_eq, List.drop_left] at hrest
          exact List.forall_mem_cons.mpr
            ⟨hfirst, ih (fun v hmem => h v (List.mem_cons_of_mem _ hmem)) hrest hall⟩

/-! Extraction. -/

theorem extractRecord_eq {v : Visit} (h : v.Stable) (hdecodes : Decodes v (v.decoded host))
    (hcopied : v.Copied host) (stream : List Byte) :
    extractRecord host [] v.recordType (u16ToLe (BitVec.ofNat 16 v.name.length) ++ (v.name ++
      (u16ToLe 0 ++ (v.otherFields ++ (v.contents ++ stream))))) =
        some (some ⟨v.decoded host, v.contents⟩, stream) := by
  have hdescription : (u16ToNe (u16ToLe 0)).toNat = 0 := rfl
  have hsize := hdecodes.size
  have hnonneg : ¬ (v.decoded host).size.toInt < 0 := by omega
  have hcontents : extractContents host (v.decoded host) (v.contents ++ stream) =
      some (v.contents, stream) := by
    rw [extractContents, hsize]
    rcases h.visited with htype | htype | htype
    · have hregular : (v.decoded host).type = typeRegular := by
        simp [Visit.decoded, Visit.recordType, htype]
      have hread : ¬ (v.contents.length % host.bufsiz = 0 ∨
          (v.contents ++ stream).length < v.contents.length) := by
        rw [List.length_append]
        have hmod := hcopied.1 htype
        omega
      rw [if_pos hregular, copyLoop_eq, if_neg hread, List.drop_left, List.take_left]
      rfl
    · have hdirectory : (v.decoded host).type = typeDirectory := by
        simp [Visit.decoded, Visit.recordType, htype]
      rw [hdirectory, if_neg (by decide), if_neg (by decide), if_pos rfl, skipLoop_eq,
        List.drop_left, h.contents htype]
    · have hlink : (v.decoded host).type = typeLink := by
        simp [Visit.decoded, Visit.recordType, htype]
      have htoNat : (v.decoded host).size.toNat = v.contents.length := by
        rw [BitVec.toInt_eq_toNat_cond] at hsize
        have hbound := (v.decoded host).size.isLt
        split at hsize
        · omega
        · omega
      rw [hlink, if_neg (by decide), if_pos rfl, htoNat, fread_append (hcopied.2 htype)]
  have hname := fread_append h.name (u16ToLe 0 ++ (v.otherFields ++ (v.contents ++ stream)))
  simp only [extractRecord, fread_u16ToLe, Option.bind_eq_bind, Option.bind_some,
    toNat_nameLength h, hname, hdescription, List.drop_zero, ne_eq, not_true_eq_false,
    false_and, if_false, readOtherFields_eq]
  have hsame : ({ v.decoded host with
      name := v.name
      size := if (v.decoded host).size.toInt < 0 then 0 else (v.decoded host).size } : Decoded) =
        v.decoded host := by
    rw [if_neg hnonneg]
    rfl
  rw [hsame, hcontents]
  rfl

theorem extractLoop_eq {visits : List Visit} (h : ∀ v ∈ visits, v.Stable)
    (hdecodes : ∀ v ∈ visits, Decodes v (v.decoded host))
    (hcopied : ∀ v ∈ visits, v.Copied host) {fuel : Nat}
    (hfuel : (visits.flatMap Visit.bytes).length ≤ fuel) :
    extractLoop host [] fuel (visits.flatMap Visit.bytes) =
      some (visits.map fun v => ⟨v.decoded host, v.contents⟩) := by
  induction visits generalizing fuel with
  | nil =>
      cases fuel with
      | zero => rfl
      | succ fuel => rfl
  | cons v visits ih =>
      have hlength := length_bytes v
      rw [List.flatMap_cons] at hfuel ⊢
      rw [List.length_append] at hfuel
      obtain ⟨fuel, rfl⟩ := Nat.exists_eq_add_one_of_ne_zero (show fuel ≠ 0 by omega)
      rw [extractLoop, fread_type]
      simp only [List.getD_cons_zero, extractRecord_eq (h v List.mem_cons_self)
        (hdecodes v List.mem_cons_self) (hcopied v List.mem_cons_self), Option.bind_some]
      rw [ih (fun v hmem => h v (List.mem_cons_of_mem _ hmem))
        (fun v hmem => hdecodes v (List.mem_cons_of_mem _ hmem))
        (fun v hmem => hcopied v (List.mem_cons_of_mem _ hmem)) (by omega)]
      rfl

/-! Round trips. -/

/-- The files are packed, and both ways of reading the archive give them back. -/
def RoundTrips (host : Host) (visits : List Visit) : Prop :=
  ∃ archive, create host visits = some archive ∧
    (∃ extracted, extract host [] archive = some extracted ∧
      List.Forall₂ (fun v (extracted : Extracted) =>
        Decodes v extracted.toDecoded ∧ extracted.contents = v.contents) visits extracted) ∧
    ∃ lines, listVerbose host archive = some lines ∧ List.Forall₂ Decodes visits lines

theorem readMagic_append (stream : List Byte) : readMagic (magic ++ stream) = some stream := by
  have hread : fread 4 (magic ++ stream) = some (magic, stream) :=
    fread_append (show magic ≠ [] from List.cons_ne_nil _ _) stream
  rw [readMagic, hread, Option.bind_some]
  exact if_pos rfl

theorem forall₂_map {visits : List Visit} {R : Visit → Decoded → Prop}
    (h : ∀ v ∈ visits, R v (v.decoded host)) :
    List.Forall₂ R visits (visits.map (Visit.decoded host)) := by
  rw [List.forall₂_map_right_iff, List.forall₂_same]
  exact h

theorem visits_roundTrip_iff {visits : List Visit} (h : ∀ v ∈ visits, v.Stable) :
    RoundTrips host visits ↔
      ∀ v ∈ visits, (v.type = .file → v.contents.length % host.bufsiz ≠ 0) ∧
        (v.type = .link → v.contents ≠ []) ∧ v.contents.length < 2 ^ 31 ∧
        host.Fits v.mtime := by
  rw [RoundTrips, create_eq h]
  constructor
  · rintro ⟨archive, harchive, _, lines, hlines, hall⟩ v hmem
    split at harchive
    · rename_i hcopied
      cases harchive
      rw [listVerbose, readMagic_append, Option.bind_some] at hlines
      have hdecodes := decodes_of_listLoop h hlines hall v hmem
      obtain ⟨hsize, htimestamp⟩ := (decodes_iff (h v hmem)).mp hdecodes
      exact ⟨(hcopied v hmem).1, (hcopied v hmem).2, hsize, htimestamp⟩
    · cases harchive
  · intro hfits
    have hcopied : ∀ v ∈ visits, v.Copied host :=
      fun v hmem => ⟨(hfits v hmem).1, (hfits v hmem).2.1⟩
    have hdecodes : ∀ v ∈ visits, Decodes v (v.decoded host) :=
      fun v hmem => (decodes_iff (h v hmem)).mpr (hfits v hmem).2.2
    refine ⟨_, if_pos hcopied, ⟨visits.map fun v => ⟨v.decoded host, v.contents⟩, ?_, ?_⟩,
      visits.map (Visit.decoded host), ?_, forall₂_map hdecodes⟩
    · rw [extract, readMagic_append, Option.bind_some,
        extractLoop_eq h hdecodes hcopied (Nat.le_refl _)]
    · rw [List.forall₂_map_right_iff, List.forall₂_same]
      exact fun v hmem => ⟨hdecodes v hmem, rfl⟩
    · rw [listVerbose, readMagic_append, Option.bind_some,
        listLoop_eq h hdecodes (Nat.le_refl _)]

/-- A host whose processor takes shift counts modulo the width. -/
def maskingHost : Host where
  bufsiz := 8192
  order := .little
  shift := fun number count => number <<< (count % 32)
  bufsizBound := by decide
  shiftZero := fun count => BitVec.zero_shiftLeft _

/-- A regular file `a` with those contents. -/
def visitA (contents : List Byte) : Visit where
  type := .file
  name := [0x61]
  mtime := 0
  mode := 0o100644
  uid := 0
  gid := 0
  size := BitVec.ofNat 64 contents.length
  contents := contents

theorem visits_roundTrip_iff_visitA :
    RoundTrips maskingHost [visitA [0x62]] ↔
      ∀ v ∈ [visitA [0x62]],
        (v.type = .file → v.contents.length % maskingHost.bufsiz ≠ 0) ∧
        (v.type = .link → v.contents ≠ []) ∧ v.contents.length < 2 ^ 31 ∧
        maskingHost.Fits v.mtime := by
  apply visits_roundTrip_iff
  intro v hmem
  rw [List.mem_singleton.mp hmem]
  exact ⟨.inl rfl, List.cons_ne_nil _ _, by decide, by decide, by decide, by decide,
    fun _ => by decide, fun htype => by cases htype⟩

/-- An empty file cannot be packed. -/
theorem not_roundTrips_visitA : ¬ RoundTrips maskingHost [visitA []] := by
  rintro ⟨archive, harchive, _⟩
  rw [create_eq (fun v hmem => by
    rw [List.mem_singleton.mp hmem]
    exact ⟨.inl rfl, List.cons_ne_nil _ _, by decide, by decide, by decide, by decide,
      fun _ => by decide, fun htype => by cases htype⟩), if_neg (by decide)] at harchive
  cases harchive

end Cenix.JaxTool
