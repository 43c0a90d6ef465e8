import Cenix.Vfs.Structures
import Mathlib.Data.Nat.Find

namespace Cenix.Vfs

/-! The sets of ids in words of memory. -/

/-- Memory in words. -/
abbrev Words := Nat → BitVec ptrBits

/-- The loop over the bits of a word: the index at which it ends. -/
def bitIndexFrom (value : BitVec ptrBits) : (rounds bitIndex : Nat) → Nat
  | 0, bitIndex => bitIndex
  | rounds + 1, bitIndex =>
      if value &&& BitVec.ofNat ptrBits 1 <<< bitIndex ≠ 0 then
        bitIndexFrom value rounds (bitIndex + 1)
      else
        bitIndex

/-- `pointer[index] &= ~((size_t) 1 << bit)` -/
def clearBitAt (words : Words) (index bit : Nat) : Words :=
  Function.update words index (words index &&& ~~~(BitVec.ofNat ptrBits 1 <<< bit))

/-- The variables of `find_slot_for`, with the words it has read or written. -/
structure SlotSearch where
  pointer : Nat
  id : Nat
  words : Words
  touched : List Nat

/-- The loop over the words, with `rounds` rounds to go. -/
def searchWords : (rounds i : Nat) → SlotSearch → SlotSearch
  | 0, _, search => search
  | rounds + 1, i, search =>
      let value := search.words search.pointer
      let touched := search.touched ++ [search.pointer]
      if value = BitVec.allOnes ptrBits then
        searchWords rounds (i + 1)
          { search with pointer := search.pointer + 1, touched := touched }
      else
        let bitIndex := bitIndexFrom value ptrBits 0
        { search with
          id := i * ptrBits + bitIndex
          words := Function.update search.words search.pointer
            (value ||| BitVec.ofNat ptrBits 1 <<< bitIndex)
          touched := touched }

/-- What a call of `find_slot_for` does: its result, the memory afterwards, each call of the
callback with the memory at that time, and the words that are read or written. -/
structure SlotOutcome where
  result : Nat
  words : Words
  called : List (Nat × Words)
  touched : List Nat

/-- `find_slot_for` where `UNTYPED_LOCK` has returned `locked`, in words. -/
def findSlotForWords (locked : Option Nat) (words : Words) (maxItems : Nat)
    (fn : Nat → Words → Nat) : SlotOutcome :=
  match locked with
  | none => ⟨sizeMax, words, [], []⟩
  | some pointer =>
      let search := searchWords (maxItems / ptrBits) 0 ⟨pointer, 0, words, []⟩
      let result := fn search.id search.words
      let called := [(search.id, search.words)]
      if result = sizeMax then
        let index := search.pointer + search.id / ptrBits
        ⟨result, clearBitAt search.words index (search.id % ptrBits), called,
          search.touched ++ [index]⟩
      else
        ⟨result, search.words, called, search.touched⟩

/-! Bits. -/

/-- The bit of a set that starts at `base`. -/
def bitAt (words : Words) (base id : Nat) : Bool :=
  (words (base + id / ptrBits)).getLsbD (id % ptrBits)

def setBitAt (words : Words) (base id : Nat) : Words :=
  Function.update words (base + id / ptrBits)
    (words (base + id / ptrBits) ||| BitVec.ofNat ptrBits 1 <<< (id % ptrBits))

theorem ptrBits_pos : 0 < ptrBits := by decide

theorem mask_ne_zero_iff (value : BitVec ptrBits) {i : Nat} (hi : i < ptrBits) :
    value &&& BitVec.ofNat ptrBits 1 <<< i ≠ 0 ↔ value.getLsbD i = true := by
  rw [← BitVec.twoPow_eq, BitVec.and_twoPow]
  cases value.getLsbD i with
  | false => simp
  | true =>
      have hpower := BitVec.toNat_twoPow_of_lt hi
      simp only [if_true, iff_true]
      intro hzero
      rw [hzero] at hpower
      exact absurd hpower (Nat.ne_of_lt (Nat.two_pow_pos i))

theorem bitIndexFrom_spec (value : BitVec ptrBits) {rounds i : Nat}
    (hend : i + rounds = ptrBits) (hclear : ∃ j, i ≤ j ∧ j < ptrBits ∧ value.getLsbD j = false) :
    bitIndexFrom value rounds i < ptrBits ∧
      value.getLsbD (bitIndexFrom value rounds i) = false ∧
      ∀ j, i ≤ j → j < bitIndexFrom value rounds i → value.getLsbD j = true := by
  induction rounds generalizing i with
  | zero =>
      obtain ⟨j, hle, hlt, -⟩ := hclear
      omega
  | succ rounds ih =>
      rw [bitIndexFrom]
      have hi : i < ptrBits := by omega
      cases hbit : value.getLsbD i with
      | false =>
          rw [if_neg (by rw [mask_ne_zero_iff value hi, hbit]; exact Bool.false_ne_true)]
          exact ⟨hi, hbit, fun j hle hlt => absurd hlt (by omega)⟩
      | true =>
          rw [if_pos ((mask_ne_zero_iff value hi).mpr hbit)]
          obtain ⟨j, hle, hlt, hj⟩ := hclear
          have hne : i ≠ j := by
            rintro rfl
            rw [hbit] at hj
            cases hj
          have hrest : i + 1 + rounds = ptrBits := by omega
          obtain ⟨hbound, hfree, hbefore⟩ := ih hrest ⟨j, by omega, hlt, hj⟩
          refine ⟨hbound, hfree, fun k hk hlt => ?_⟩
          rcases Nat.eq_or_lt_of_le hk with rfl | hlater
          · exact hbit
          · exact hbefore k hlater hlt

theorem exists_clear_of_ne_allOnes {value : BitVec ptrBits}
    (h : value ≠ BitVec.allOnes ptrBits) : ∃ j, j < ptrBits ∧ value.getLsbD j = false := by
  by_contra hfull
  push Not at hfull
  apply h
  apply BitVec.eq_of_getLsbD_eq
  intro i hi
  rw [BitVec.getLsbD_allOnes, decide_eq_true hi]
  simpa using hfull i hi

variable {words : Words} {base maxItems : Nat}

/-- Bit `b` of word `q`. -/
theorem bitAt_word (words : Words) (base q : Nat) {b : Nat} (hb : b < ptrBits) :
    bitAt words base (q * ptrBits + b) = (words (base + q)).getLsbD b := by
  have hdiv : (q * ptrBits + b) / ptrBits = q := by
    rw [Nat.mul_comm, Nat.mul_add_div ptrBits_pos, Nat.div_eq_of_lt hb, Nat.add_zero]
  have hmod : (q * ptrBits + b) % ptrBits = b := by
    rw [Nat.mul_comm, Nat.mul_add_mod, Nat.mod_eq_of_lt hb]
  rw [bitAt, hdiv, hmod]

/-- The first bit of a set that is clear. -/
structure IsFirstClear (words : Words) (base maxItems id : Nat) : Prop where
  below : id < maxItems
  clear : bitAt words base id = false
  before : ∀ j, j < id → bitAt words base j = true

theorem exists_firstClear (h : ∃ id, id < maxItems ∧ bitAt words base id = false) :
    ∃ id, IsFirstClear words base maxItems id := by
  refine ⟨Nat.find h, (Nat.find_spec h).1, (Nat.find_spec h).2, fun j hj => ?_⟩
  by_contra hclear
  exact Nat.find_min h hj ⟨Nat.lt_trans hj (Nat.find_spec h).1, by simpa using hclear⟩

/-- The loop stops at the word of the first clear bit. -/
theorem searchWords_found {id : Nat} (hfirst : IsFirstClear words base maxItems id)
    {rounds i : Nat} (hstart : i ≤ id / ptrBits) (hend : id / ptrBits < i + rounds)
    (touched : List Nat) :
    searchWords rounds i ⟨base + i, 0, words, touched⟩ =
      ⟨base + id / ptrBits, id, setBitAt words base id,
        touched ++ List.range' (base + i) (id / ptrBits + 1 - i)⟩ := by
  induction rounds generalizing i touched with
  | zero => omega
  | succ rounds ih =>
      have hmod : id % ptrBits < ptrBits := Nat.mod_lt id ptrBits_pos
      have hsum : id / ptrBits * ptrBits + id % ptrBits = id := Nat.div_add_mod' id ptrBits
      rw [searchWords]
      dsimp only
      by_cases hfull : words (base + i) = BitVec.allOnes ptrBits
      · have hne : i ≠ id / ptrBits := by
          rintro rfl
          have hclear := hfirst.clear
          rw [bitAt, hfull, BitVec.getLsbD_allOnes, decide_eq_true hmod] at hclear
          cases hclear
        have hlater : i + 1 ≤ id / ptrBits := by omega
        have hcount : id / ptrBits + 1 - i = (id / ptrBits + 1 - (i + 1)) + 1 := by omega
        rw [if_pos hfull, Nat.add_assoc base i 1, ih hlater (by omega), hcount,
          List.range'_succ, List.append_assoc]
        rfl
      · obtain ⟨j, hj, hclear⟩ := exists_clear_of_ne_allOnes hfull
        have hword : id / ptrBits = i := by
          by_contra hne
          have hlater : i * ptrBits + j < id := by
            have hle : (i + 1) * ptrBits ≤ id / ptrBits * ptrBits :=
              Nat.mul_le_mul_right ptrBits (by omega)
            rw [Nat.add_mul] at hle
            omega
          have hset := hfirst.before _ hlater
          rw [bitAt_word words base i hj, hclear] at hset
          cases hset
        obtain ⟨hbound, hfree, hbefore⟩ := bitIndexFrom_spec (words (base + i))
          (Nat.zero_add ptrBits) ⟨j, Nat.zero_le j, hj, hclear⟩
        have hindex : bitIndexFrom (words (base + i)) ptrBits 0 = id % ptrBits := by
          rcases Nat.lt_trichotomy (bitIndexFrom (words (base + i)) ptrBits 0) (id % ptrBits)
            with hlt | heq | hgt
          · have hset := hfirst.before (i * ptrBits + bitIndexFrom (words (base + i)) ptrBits 0)
              (by rw [hword] at hsum; omega)
            rw [bitAt_word words base i hbound, hfree] at hset
            cases hset
          · exact heq
          · have hset := hbefore (id % ptrBits) (Nat.zero_le _) hgt
            have hclear := hfirst.clear
            rw [bitAt, hword, hset] at hclear
            cases hclear
        have hcount : id / ptrBits + 1 - i = 1 := by omega
        rw [if_neg hfull, hindex, hcount, setBitAt, hword]
        rw [hword] at hsum
        rw [hsum]
        rfl

/-- Where every bit is set the loop passes all words. -/
theorem searchWords_full {rounds i : Nat}
    (hfull : ∀ q, i ≤ q → q < i + rounds → words (base + q) = BitVec.allOnes ptrBits)
    (touched : List Nat) :
    searchWords rounds i ⟨base + i, 0, words, touched⟩ =
      ⟨base + i + rounds, 0, words, touched ++ List.range' (base + i) rounds⟩ := by
  induction rounds generalizing i touched with
  | zero => simp [searchWords]
  | succ rounds ih =>
      have hrest : ∀ q, i + 1 ≤ q → q < i + 1 + rounds →
          words (base + q) = BitVec.allOnes ptrBits := fun q hle hlt =>
        hfull q (by omega) (by omega)
      rw [searchWords]
      dsimp only
      rw [if_pos (hfull i (Nat.le_refl i) (by omega)), Nat.add_assoc base i 1, ih hrest,
        List.range'_succ, List.append_assoc]
      congr 1
      omega

/-! Bits that are set and cleared. -/

theorem getLsbD_setBit (value : BitVec ptrBits) {b : Nat} (hb : b < ptrBits) (j : Nat) :
    (value ||| BitVec.ofNat ptrBits 1 <<< b).getLsbD j = (decide (j = b) || value.getLsbD j) := by
  rw [BitVec.getLsbD_or, ← BitVec.twoPow_eq, BitVec.getLsbD_twoPow, decide_eq_true hb,
    Bool.true_and, Bool.or_comm]
  simp only [eq_comm]

theorem getLsbD_clearBit (value : BitVec ptrBits) {b : Nat} (hb : b < ptrBits) (j : Nat) :
    (value &&& ~~~(BitVec.ofNat ptrBits 1 <<< b)).getLsbD j =
      (!decide (j = b) && value.getLsbD j) := by
  rw [BitVec.getLsbD_and, BitVec.getLsbD_not, ← BitVec.twoPow_eq, BitVec.getLsbD_twoPow,
    decide_eq_true hb, Bool.true_and, Bool.and_comm]
  by_cases hj : j < ptrBits
  · simp [hj, eq_comm]
  · have hnone : value.getLsbD j = false := BitVec.getLsbD_of_ge value j (Nat.le_of_not_lt hj)
    simp [hnone]

/-- A position in a set is its word and its bit. -/
theorem word_bit_eq_iff (j id : Nat) :
    j / ptrBits = id / ptrBits ∧ j % ptrBits = id % ptrBits ↔ j = id := by
  constructor
  · rintro ⟨hdiv, hmod⟩
    rw [← Nat.div_add_mod j ptrBits, ← Nat.div_add_mod id ptrBits, hdiv, hmod]
  · rintro rfl
    exact ⟨rfl, rfl⟩

theorem bitAt_setBitAt (words : Words) (base id j : Nat) :
    bitAt (setBitAt words base id) base j = (decide (j = id) || bitAt words base j) := by
  have hid : id % ptrBits < ptrBits := Nat.mod_lt id ptrBits_pos
  by_cases hword : j / ptrBits = id / ptrBits
  · have hsame := word_bit_eq_iff j id
    rw [bitAt, setBitAt, hword, Function.update_self, getLsbD_setBit _ hid, bitAt, hword]
    by_cases hmod : j % ptrBits = id % ptrBits
    · rw [decide_eq_true hmod, decide_eq_true (hsame.mp ⟨hword, hmod⟩)]
    · rw [decide_eq_false hmod, decide_eq_false fun heq => hmod (hsame.mpr heq).2]
  · have hne : base + j / ptrBits ≠ base + id / ptrBits := by omega
    have hdiffer : j ≠ id := fun heq => hword (by rw [heq])
    rw [bitAt, setBitAt, Function.update_of_ne hne, decide_eq_false hdiffer, Bool.false_or, bitAt]

theorem bitAt_clearBitAt (words : Words) (base word id j : Nat) :
    bitAt (clearBitAt words (base + word + id / ptrBits) (id % ptrBits)) base j =
      (!decide (j = clearedBit word id) && bitAt words base j) := by
  have hid : id % ptrBits < ptrBits := Nat.mod_lt id ptrBits_pos
  have hdiv : clearedBit word id / ptrBits = word + id / ptrBits := by
    rw [clearedBit, Nat.mul_comm, Nat.mul_add_div ptrBits_pos, Nat.div_eq_of_lt hid, Nat.add_zero]
  have hmod : clearedBit word id % ptrBits = id % ptrBits := by
    rw [clearedBit, Nat.mul_comm, Nat.mul_add_mod, Nat.mod_mod]
  have hsame := word_bit_eq_iff j (clearedBit word id)
  rw [hdiv, hmod] at hsame
  by_cases hword : j / ptrBits = word + id / ptrBits
  · rw [bitAt, clearBitAt, hword, ← Nat.add_assoc, Function.update_self, getLsbD_clearBit _ hid,
      bitAt, hword, ← Nat.add_assoc]
    by_cases hbit : j % ptrBits = id % ptrBits
    · rw [decide_eq_true hbit, decide_eq_true (hsame.mp ⟨hword, hbit⟩)]
    · rw [decide_eq_false hbit, decide_eq_false fun heq => hbit (hsame.mpr heq).2]
  · have hne : base + j / ptrBits ≠ base + word + id / ptrBits := by omega
    have hdiffer : j ≠ clearedBit word id := fun heq => hword (hsame.mpr heq).1
    rw [bitAt, clearBitAt, Function.update_of_ne hne, decide_eq_false hdiffer, Bool.not_false,
      Bool.true_and, bitAt]

/-! The set as a set of ids. -/

/-- The words hold the set. -/
def Holds (words : Words) (base : Nat) (s : Server) (ids : Ids) : Prop :=
  ∀ id, s.used ids id = bitAt words base id

theorem firstFree_of_firstClear {s : Server} {ids : Ids} (hholds : Holds words base s ids)
    {id : Nat} (hfirst : IsFirstClear words base maxItems id) :
    firstFree s ids maxItems = some id := by
  rw [firstFree, List.find?_range_eq_some]
  refine ⟨by simpa using (hholds id).trans hfirst.clear,
    List.mem_range.mpr hfirst.below, fun j hj => ?_⟩
  simpa using (hholds j).trans (hfirst.before j hj)

theorem firstFree_of_full {s : Server} {ids : Ids} (hholds : Holds words base s ids)
    (hfull : ∀ id, id < maxItems → bitAt words base id = true) :
    firstFree s ids maxItems = none := by
  rw [firstFree, List.find?_eq_none]
  intro id hid
  simpa using (hholds id).trans (hfull id (List.mem_range.mp hid))

/-- The search over a set that is all set. -/
theorem searchWords_of_full (hitems : ptrBits ∣ maxItems)
    (hfull : ∀ id, id < maxItems → bitAt words base id = true) :
    searchWords (maxItems / ptrBits) 0 ⟨base, 0, words, []⟩ =
      ⟨base + maxItems / ptrBits, 0, words, List.range' base (maxItems / ptrBits)⟩ := by
  have hwords : ∀ q, 0 ≤ q → q < 0 + maxItems / ptrBits →
      words (base + q) = BitVec.allOnes ptrBits := by
    intro q _ hq
    by_contra hclear
    obtain ⟨b, hb, hbit⟩ := exists_clear_of_ne_allOnes hclear
    have hbelow : q * ptrBits + b < maxItems := by
      have hle : (q + 1) * ptrBits ≤ maxItems / ptrBits * ptrBits :=
        Nat.mul_le_mul_right ptrBits (by omega)
      rw [Nat.div_mul_cancel hitems, Nat.add_mul] at hle
      omega
    have hset := hfull _ hbelow
    rw [bitAt_word words base q hb, hbit] at hset
    cases hset
  have hsearch := searchWords_full hwords []
  simpa using hsearch

/-- The search over a set with a clear bit. -/
theorem searchWords_of_firstClear {id : Nat} (hitems : ptrBits ∣ maxItems)
    (hfirst : IsFirstClear words base maxItems id) :
    searchWords (maxItems / ptrBits) 0 ⟨base, 0, words, []⟩ =
      ⟨base + id / ptrBits, id, setBitAt words base id,
        List.range' base (id / ptrBits + 1)⟩ := by
  have hword : id / ptrBits < 0 + maxItems / ptrBits := by
    rw [Nat.zero_add, Nat.div_lt_iff_lt_mul ptrBits_pos, Nat.div_mul_cancel hitems]
    exact hfirst.below
  have hsearch := searchWords_found hfirst (Nat.zero_le _) hword []
  simpa using hsearch

/-- The loop over words does what the search for an id does. -/
theorem searchWords_searchEnd {s : Server} {ids : Ids} (hitems : ptrBits ∣ maxItems)
    (hholds : Holds words base s ids) :
    let search := searchWords (maxItems / ptrBits) 0 ⟨base, 0, words, []⟩
    let free := firstFree s ids maxItems
    let s' := if free.isSome then s.setUsed ids search.id true else s
    (search.pointer, search.id) =
        (base + (searchEnd maxItems free).1, (searchEnd maxItems free).2) ∧
      Holds search.words base s' ids := by
  by_cases hclear : ∃ id, id < maxItems ∧ bitAt words base id = false
  · obtain ⟨id, hfirst⟩ := exists_firstClear hclear
    rw [searchWords_of_firstClear hitems hfirst, firstFree_of_firstClear hholds hfirst]
    refine ⟨rfl, fun j => ?_⟩
    rw [bitAt_setBitAt, ← hholds j]
    by_cases hj : j = id
    · simp [Server.setUsed, hj]
    · simp [Server.setUsed, hj]
  · push Not at hclear
    have hfull : ∀ id, id < maxItems → bitAt words base id = true := fun id hid => by
      simpa using hclear id hid
    rw [searchWords_of_full hitems hfull, firstFree_of_full hholds hfull]
    exact ⟨rfl, hholds⟩

/-- A failed callback clears the bit that the model of ids clears. -/
theorem clearBitAt_holds {s : Server} {ids : Ids} (hholds : Holds words base s ids)
    (word id : Nat) :
    Holds (clearBitAt words (base + word + id / ptrBits) (id % ptrBits)) base
      (s.setUsed ids (clearedBit word id) false) ids := by
  intro j
  rw [bitAt_clearBitAt, ← hholds j]
  by_cases hj : j = clearedBit word id
  · simp [Server.setUsed, hj]
  · simp [Server.setUsed, hj]

/-! What `find_slot_for` promises, and when it keeps it. -/

/-- What a call should do to a set that starts at `base`. -/
structure AsDescribed (base : Nat) (words : Words) (maxItems : Nat) (fn : Nat → Words → Nat)
    (outcome : SlotOutcome) : Prop where
  found : (∃ id, id < maxItems ∧ bitAt words base id = false) →
    ∃ id during, id < maxItems ∧ bitAt words base id = false ∧
      outcome.called = [(id, during)] ∧ bitAt during base id = true ∧
      outcome.result = fn id during ∧
      outcome.words = if outcome.result = sizeMax then words else setBitAt words base id
  full : (∀ id, id < maxItems → bitAt words base id = true) →
    outcome.called = [] ∧ outcome.result = sizeMax ∧ outcome.words = words
  inside : ∀ address ∈ outcome.touched, base ≤ address ∧ address < base + maxItems / ptrBits

/-- A bit is clear, and the callback does not fail for the first one unless that is in the
first word. -/
def SlotSafe (base : Nat) (words : Words) (maxItems : Nat) (fn : Nat → Words → Nat) : Prop :=
  ∃ id, IsFirstClear words base maxItems id ∧
    (fn id (setBitAt words base id) = sizeMax → id < ptrBits)

theorem clearBitAt_setBitAt {id : Nat} (hclear : bitAt words base id = false) :
    clearBitAt (setBitAt words base id) (base + id / ptrBits) (id % ptrBits) = words := by
  have hid : id % ptrBits < ptrBits := Nat.mod_lt id ptrBits_pos
  rw [clearBitAt, setBitAt, Function.update_self, Function.update_idem]
  rw [Function.update_eq_self_iff]
  apply BitVec.eq_of_getLsbD_eq
  intro j _
  rw [getLsbD_clearBit _ hid, getLsbD_setBit _ hid]
  by_cases hj : j = id % ptrBits
  · rw [hj, ← bitAt, hclear]
    simp
  · simp [hj]

theorem findSlotForWords_of_firstClear {id : Nat} (hitems : ptrBits ∣ maxItems)
    (fn : Nat → Words → Nat) (hfirst : IsFirstClear words base maxItems id) :
    findSlotForWords (some base) words maxItems fn =
      if fn id (setBitAt words base id) = sizeMax then
        ⟨fn id (setBitAt words base id),
          clearBitAt (setBitAt words base id) (base + id / ptrBits + id / ptrBits)
            (id % ptrBits),
          [(id, setBitAt words base id)],
          List.range' base (id / ptrBits + 1) ++ [base + id / ptrBits + id / ptrBits]⟩
      else
        ⟨fn id (setBitAt words base id), setBitAt words base id,
          [(id, setBitAt words base id)], List.range' base (id / ptrBits + 1)⟩ := by
  rw [findSlotForWords, searchWords_of_firstClear hitems hfirst]

/-- The words up to that of a bit of the set are in the set. -/
theorem range_inside {id : Nat} (hitems : ptrBits ∣ maxItems) (hid : id < maxItems) :
    ∀ address ∈ List.range' base (id / ptrBits + 1),
      base ≤ address ∧ address < base + maxItems / ptrBits := by
  intro address haddress
  have hword : id / ptrBits < maxItems / ptrBits := by
    rw [Nat.div_lt_iff_lt_mul ptrBits_pos, Nat.div_mul_cancel hitems]
    exact hid
  rw [List.mem_range'_1] at haddress
  omega

theorem SlotSafe.asDescribed {fn : Nat → Words → Nat} (hitems : ptrBits ∣ maxItems)
    (hsafe : SlotSafe base words maxItems fn) :
    AsDescribed base words maxItems fn (findSlotForWords (some base) words maxItems fn) := by
  obtain ⟨id, hfirst, hword⟩ := hsafe
  have hset : bitAt (setBitAt words base id) base id = true := by simp [bitAt_setBitAt]
  have hinside : ∀ address ∈ List.range' base (id / ptrBits + 1), _ :=
    range_inside hitems hfirst.below
  have hnotFull : ¬ ∀ j, j < maxItems → bitAt words base j = true := by
    intro hfull
    have hbit := hfull id hfirst.below
    rw [hfirst.clear] at hbit
    cases hbit
  rw [findSlotForWords_of_firstClear hitems fn hfirst]
  by_cases hfails : fn id (setBitAt words base id) = sizeMax
  · have hzero : id / ptrBits = 0 := Nat.div_eq_of_lt (hword hfails)
    have hindex : base + id / ptrBits + id / ptrBits = base + id / ptrBits := by omega
    have hrestored := clearBitAt_setBitAt hfirst.clear
    rw [if_pos hfails]
    constructor
    · intro _
      refine ⟨id, setBitAt words base id, hfirst.below, hfirst.clear, rfl, hset, rfl, ?_⟩
      dsimp only
      rw [if_pos hfails, hindex, hrestored]
    · exact fun hfull => absurd hfull hnotFull
    · intro address haddress
      rw [List.mem_append, List.mem_singleton] at haddress
      rcases haddress with hrange | rfl
      · exact hinside address hrange
      · apply hinside
        rw [hzero]
        simp
  · rw [if_neg hfails]
    constructor
    · intro _
      refine ⟨id, setBitAt words base id, hfirst.below, hfirst.clear, rfl, hset, rfl, ?_⟩
      dsimp only
      rw [if_neg hfails]
    · exact fun hfull => absurd hfull hnotFull
    · exact hinside

theorem AsDescribed.slotSafe {fn : Nat → Words → Nat} (hitems : ptrBits ∣ maxItems)
    (h : AsDescribed base words maxItems fn (findSlotForWords (some base) words maxItems fn)) :
    SlotSafe base words maxItems fn := by
  by_cases hclear : ∃ id, id < maxItems ∧ bitAt words base id = false
  · obtain ⟨id, hfirst⟩ := exists_firstClear hclear
    refine ⟨id, hfirst, fun hfails => ?_⟩
    by_contra hlater
    obtain ⟨id', during, -, -, hcalled, -, -, hwords⟩ := h.found hclear
    rw [findSlotForWords_of_firstClear hitems fn hfirst, if_pos hfails] at hcalled hwords
    dsimp only at hcalled hwords
    rw [if_pos hfails] at hwords
    have hword : 0 < id / ptrBits := Nat.div_pos (Nat.le_of_not_lt hlater) ptrBits_pos
    have hne : base + id / ptrBits ≠ base + id / ptrBits + id / ptrBits := by omega
    have hbit : bitAt words base id = bitAt (setBitAt words base id) base id := by
      conv_lhs => rw [← hwords]
      rw [bitAt, clearBitAt, Function.update_of_ne hne, bitAt]
    rw [hfirst.clear, bitAt_setBitAt] at hbit
    simp at hbit
  · push Not at hclear
    have hfull : ∀ id, id < maxItems → bitAt words base id = true := fun id hid => by
      simpa using hclear id hid
    have hcalled := (h.full hfull).1
    rw [findSlotForWords, searchWords_of_full hitems hfull] at hcalled
    dsimp only at hcalled
    split at hcalled
    · cases hcalled
    · cases hcalled

/-- A call does what it should exactly if a bit is clear and the callback does not fail for a
first clear bit behind the first word. -/
theorem findSlotFor_iff (base : Nat) (words : Words) {maxItems : Nat}
    (hitems : ptrBits ∣ maxItems) (fn : Nat → Words → Nat) :
    AsDescribed base words maxItems fn (findSlotForWords (some base) words maxItems fn) ↔
      SlotSafe base words maxItems fn :=
  ⟨fun h => h.slotSafe hitems, fun h => h.asDescribed hitems⟩

/-- Two words, the first of which is full. -/
def firstWordFull : Words :=
  fun address => if address = 0 then BitVec.allOnes ptrBits else 0

theorem findSlotFor_iff_firstWordFull :
    AsDescribed 0 firstWordFull 64 (fun id _ => id)
        (findSlotForWords (some 0) firstWordFull 64 fun id _ => id) ↔
      SlotSafe 0 firstWordFull 64 fun id _ => id :=
  findSlotFor_iff 0 firstWordFull (by decide) _

/-- The bit of the second word stays set, and a full set has its callback called. -/
theorem findSlotFor_leaks :
    ¬ (∀ base words maxItems fn, 0 < maxItems → ptrBits ∣ maxItems →
        AsDescribed base words maxItems fn (findSlotForWords (some base) words maxItems fn)) ∧
      bitAt firstWordFull 0 32 = false ∧
      bitAt (findSlotForWords (some 0) firstWordFull 64 fun _ _ => sizeMax).words 0 32 = true ∧
      (findSlotForWords (some 0) (fun _ => BitVec.allOnes ptrBits) 64 fun id _ => id).called.length
        = 1 := by
  have hclear : bitAt firstWordFull 0 32 = false := by decide
  have hset : bitAt (findSlotForWords (some 0) firstWordFull 64 fun _ _ => sizeMax).words 0 32 =
      true := by decide +kernel
  refine ⟨?_, hclear, hset, by decide +kernel⟩
  intro hall
  have hdescribed := hall 0 firstWordFull 64 (fun _ _ => sizeMax) (by decide) (by decide)
  obtain ⟨id, during, -, -, -, -, hresult, hwords⟩ :=
    hdescribed.found ⟨32, by decide, hclear⟩
  rw [hresult, if_pos rfl] at hwords
  rw [hwords, hclear] at hset
  cases hset

end Cenix.Vfs
