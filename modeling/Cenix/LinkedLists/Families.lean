import Cenix.LinkedLists.NoContainer

namespace Cenix.LinkedLists

/-! Elements partitioned by a key into container-less lists. -/

variable {P K : Type} [DecidableEq P]

/-- The live elements with one key form one well-formed list. -/
def Families (m : P → Links P) (live : P → Prop) (key : P → K) : Prop :=
  ∀ p, live p → ∃ xs, DList m xs ∧ ∀ q, q ∈ xs ↔ live q ∧ key q = key p

namespace Families

variable {m m' m₀ : P → Links P} {live live' : P → Prop} {key key' : P → K}

omit [DecidableEq P] in
theorem congr (h : Families m live key) (hm : ∀ p, live p → m' p = m p)
    (hlive : ∀ p, live' p ↔ live p) (hkey : ∀ p, live p → key' p = key p) :
    Families m' live' key' := by
  intro p hp
  have hp' := (hlive p).mp hp
  obtain ⟨xs, hxs, hmem⟩ := h p hp'
  refine ⟨xs, hxs.congr fun q hq => hm q ((hmem q).mp hq).1, fun q => ?_⟩
  rw [hmem, hlive]
  refine and_congr_right fun hq => ?_
  rw [hkey q hq, hkey p hp']

omit [DecidableEq P] in
/-- A list that shares an element with a family is that family. -/
theorem eq_of_mem {xs ys : List P} {p q x : P}
    (hxs : ∀ z, z ∈ xs ↔ live z ∧ key z = key p)
    (hys : ∀ z, z ∈ ys ↔ live z ∧ key z = key q) (hx : x ∈ xs) (hy : x ∈ ys) :
    key p = key q :=
  ((hxs x).mp hx).2.symm.trans ((hys x).mp hy).2

theorem delete {d : P} {fuel : Nat} (h : Families m live key) (hd : live d)
    (hdelete : listDeleteNoContainer fuel m d = some m')
    (hlive : ∀ q, live' q ↔ live q ∧ q ≠ d)
    (hkey : ∀ q, live' q → key' q = key q) : Families m' live' key' := by
  obtain ⟨xs, hxs, hmem⟩ := h d hd
  obtain ⟨front, back, rfl⟩ := List.append_of_mem ((hmem d).mpr ⟨hd, rfl⟩)
  have hdNot : d ∉ front ++ back := by
    have hnodup := hxs.nodup
    rw [List.nodup_middle] at hnodup
    exact (List.nodup_cons.mp hnodup).1
  intro p hp
  have hp' := (hlive p).mp hp
  by_cases hpd : key p = key d
  · refine ⟨front ++ back, hxs.delete hdelete, fun q => ?_⟩
    have hq : q ∈ front ++ d :: back ↔ q = d ∨ q ∈ front ++ back := by simp; tauto
    rw [hlive]
    constructor
    · intro hqmem
      have hqd : q ≠ d := fun heq => hdNot (heq ▸ hqmem)
      have hqlive := (hmem q).mp (hq.mpr (.inr hqmem))
      refine ⟨⟨hqlive.1, hqd⟩, ?_⟩
      rw [hkey q ((hlive q).mpr ⟨hqlive.1, hqd⟩), hkey p hp, hqlive.2, hpd]
    · rintro ⟨hqlive, hqkey⟩
      rw [hkey q ((hlive q).mpr hqlive), hkey p hp, hpd] at hqkey
      exact (hq.mp ((hmem q).mpr ⟨hqlive.1, hqkey⟩)).resolve_left hqlive.2
  · obtain ⟨ys, hys, hymem⟩ := h p hp'.1
    have hdisjoint : ∀ q ∈ ys, q ∉ front ++ back := by
      intro q hqy hqx
      have hqx' : q ∈ front ++ d :: back := by
        rw [List.mem_append] at hqx ⊢
        exact hqx.imp_right (List.mem_cons_of_mem d)
      exact hpd (eq_of_mem hymem hmem hqy hqx')
    refine ⟨ys, hys.congr fun q hq =>
      listDeleteNoContainer_frame hxs hdelete (hdisjoint q hq), fun q => ?_⟩
    rw [hymem, hlive]
    constructor
    · rintro ⟨hqlive, hqkey⟩
      have hqd : q ≠ d := by
        rintro rfl
        exact hpd hqkey.symm
      refine ⟨⟨hqlive, hqd⟩, ?_⟩
      rw [hkey q ((hlive q).mpr ⟨hqlive, hqd⟩), hkey p hp, hqkey]
    · rintro ⟨hqlive, hqkey⟩
      rw [hkey q ((hlive q).mpr hqlive), hkey p hp] at hqkey
      exact ⟨hqlive.1, hqkey⟩

/-- A deletion writes to the family of the deleted element only. -/
theorem delete_other {d q : P} {fuel : Nat} (h : Families m live key) (hd : live d)
    (hdelete : listDeleteNoContainer fuel m d = some m')
    (hq : live q → key q = key d → q = d) : m' q = m q := by
  obtain ⟨xs, hxs, hmem⟩ := h d hd
  obtain ⟨front, back, rfl⟩ := List.append_of_mem ((hmem d).mpr ⟨hd, rfl⟩)
  apply listDeleteNoContainer_frame hxs hdelete
  intro hin
  have hqmem : q ∈ front ++ d :: back := by
    rw [List.mem_append] at hin ⊢
    exact hin.imp_right (List.mem_cons_of_mem d)
  have hqlive := (hmem q).mp hqmem
  have hnodup := hxs.nodup
  rw [hq hqlive.1 hqlive.2] at hin
  rw [List.nodup_middle] at hnodup
  exact (List.nodup_cons.mp hnodup).1 hin

omit [DecidableEq P] in
/-- An element that is the only one of its family goes. -/
theorem drop_alone {d : P} (h : Families m live key)
    (halone : ∀ q, live q → key q = key d → q = d)
    (hlive : ∀ q, live' q ↔ live q ∧ q ≠ d) : Families m live' key := by
  intro p hp
  obtain ⟨hp, hpd⟩ := (hlive p).mp hp
  obtain ⟨xs, hxs, hmem⟩ := h p hp
  refine ⟨xs, hxs, fun q => ?_⟩
  rw [hmem, hlive]
  constructor
  · intro hq
    refine ⟨⟨hq.1, fun hqd => ?_⟩, hq.2⟩
    exact hpd (halone p hp (hqd ▸ hq.2.symm))
  · exact fun hq => ⟨hq.1.1, hq.2⟩

theorem move {old item : P} {fuel : Nat} (h : Families m₀ live key)
    (hold : live old) (hitem : ¬ live item)
    (hself : m item = m₀ old) (hother : ∀ q, q ≠ item → m q = m₀ q)
    (hupdate : listUpdateAddressNoContainer fuel m item = some m')
    (hlive : ∀ q, live' q ↔ (live q ∧ q ≠ old) ∨ q = item)
    (hkeyItem : key' item = key old)
    (hkey : ∀ q, live q → q ≠ old → key' q = key q) : Families m' live' key' := by
  obtain ⟨xs, hxs, hmem⟩ := h old hold
  obtain ⟨front, back, rfl⟩ := List.append_of_mem ((hmem old).mpr ⟨hold, rfl⟩)
  have holdNot : old ∉ front ++ back := by
    have hnodup := hxs.nodup
    rw [List.nodup_middle] at hnodup
    exact (List.nodup_cons.mp hnodup).1
  have hne : ∀ q, live q → q ≠ item := by
    rintro q hq rfl
    exact hitem hq
  have hmemLive : ∀ q ∈ front ++ back, live q ∧ key q = key old := by
    intro q hq
    rw [List.mem_append] at hq
    exact (hmem q).mp (by
      rw [List.mem_append]
      exact hq.imp_right (List.mem_cons_of_mem old))
  have hitemNot : item ∉ front ++ back := fun hi => hitem (hmemLive item hi).1
  have hotherList : ∀ q ∈ front ++ back, m q = m₀ q :=
    fun q hq => hother q (hne q (hmemLive q hq).1)
  -- the key of every element that stays live, whichever slot it is in now
  have hcases : ∀ q, live' q → (q = item ∧ key' q = key old) ∨
      (live q ∧ q ≠ old ∧ q ≠ item ∧ key' q = key q) := by
    intro q hq
    rcases (hlive q).mp hq with hq | rfl
    · exact .inr ⟨hq.1, hq.2, hne q hq.1, hkey q hq.1 hq.2⟩
    · exact .inl ⟨rfl, hkeyItem⟩
  intro p hp
  by_cases hpKey : key' p = key old
  · refine ⟨front ++ item :: back,
      hxs.updateAddress hitemNot hself hotherList hupdate, fun q => ?_⟩
    rw [hpKey]
    constructor
    · intro hq
      have hq' : q = item ∨ q ∈ front ++ back := by simpa [or_left_comm] using hq
      rcases hq' with rfl | hq'
      · exact ⟨(hlive q).mpr (.inr rfl), hkeyItem⟩
      · have hqlive := hmemLive q hq'
        have hqold : q ≠ old := fun heq => holdNot (heq ▸ hq')
        exact ⟨(hlive q).mpr (.inl ⟨hqlive.1, hqold⟩),
          (hkey q hqlive.1 hqold).trans hqlive.2⟩
    · rintro ⟨hqlive, hqkey⟩
      rcases hcases q hqlive with ⟨rfl, -⟩ | ⟨hq, hqold, -, hkq⟩
      · simp
      · have hqmem := (hmem q).mpr ⟨hq, hkq.symm.trans hqkey⟩
        simp only [List.mem_append, List.mem_cons] at hqmem ⊢
        tauto
  · obtain ⟨hpItem, hkp⟩ | ⟨hplive, hpold, hpitem, hkp⟩ := hcases p hp
    · exact absurd hkp hpKey
    · obtain ⟨ys, hys, hymem⟩ := h p hplive
      have hpd : key p ≠ key old := fun heq => hpKey (hkp.trans heq)
      have hdisjoint : ∀ q ∈ ys, q ∉ front ++ item :: back := by
        intro q hqy hqx
        have hqx' : q = item ∨ q ∈ front ++ back := by simpa [or_left_comm] using hqx
        rcases hqx' with rfl | hqx'
        · exact hitem ((hymem q).mp hqy).1
        · exact hpd (((hymem q).mp hqy).2.symm.trans (hmemLive q hqx').2)
      refine ⟨ys, hys.congr fun q hq => ?_, fun q => ?_⟩
      · rw [listUpdateAddressNoContainer_frame hxs hitemNot hself hotherList hupdate
          (hdisjoint q hq)]
        exact hother q (hne q ((hymem q).mp hq).1)
      · rw [hymem, hkp]
        constructor
        · rintro ⟨hqlive, hqkey⟩
          have hqold : q ≠ old := by
            rintro rfl
            exact hpd hqkey.symm
          exact ⟨(hlive q).mpr (.inl ⟨hqlive, hqold⟩),
            (hkey q hqlive hqold).trans hqkey⟩
        · rintro ⟨hqlive, hqkey⟩
          rcases hcases q hqlive with ⟨rfl, hkq⟩ | ⟨hq, -, -, hkq⟩
          · exact absurd (hqkey.symm.trans hkq) hpd
          · exact ⟨hq, hkq.symm.trans hqkey⟩

/-- A move writes to the family of the moved element only. -/
theorem move_other {old item q : P} {fuel : Nat} (h : Families m₀ live key)
    (hold : live old) (hitem : ¬ live item)
    (hself : m item = m₀ old) (hother : ∀ q, q ≠ item → m q = m₀ q)
    (hupdate : listUpdateAddressNoContainer fuel m item = some m')
    (hq : live q → key q = key old → q = old) (hqi : q ≠ item) : m' q = m₀ q := by
  obtain ⟨xs, hxs, hmem⟩ := h old hold
  obtain ⟨front, back, rfl⟩ := List.append_of_mem ((hmem old).mpr ⟨hold, rfl⟩)
  have hlist : ∀ x ∈ front ++ back, x ∈ front ++ old :: back := by
    intro x hx
    rw [List.mem_append] at hx ⊢
    exact hx.imp_right (List.mem_cons_of_mem old)
  have hne : ∀ x ∈ front ++ back, x ≠ item := by
    intro x hx heq
    exact hitem (heq ▸ ((hmem x).mp (hlist x hx)).1)
  have hitemNot : item ∉ front ++ back := fun hi => hne item hi rfl
  rw [listUpdateAddressNoContainer_frame hxs hitemNot hself
    (fun x hx => hother x (hne x hx)) hupdate, hother q hqi]
  intro hin
  have hin : q ∈ front ++ back := by
    simp only [List.mem_append, List.mem_cons] at hin ⊢
    tauto
  have hqlive := (hmem q).mp (hlist q hin)
  have hnodup := hxs.nodup
  rw [hq hqlive.1 hqlive.2] at hin
  rw [List.nodup_middle] at hnodup
  exact (List.nodup_cons.mp hnodup).1 hin

omit [DecidableEq P] in
private theorem eq_singleton {xs : List P} {p : P} (hnodup : xs.Nodup) (hp : p ∈ xs)
    (hall : ∀ q ∈ xs, q = p) : xs = [p] := by
  match xs, hnodup, hp, hall with
  | [x], _, _, hall => rw [hall x (by simp)]
  | x :: y :: ys, hnodup, _, hall =>
      have hxy : x = y := (hall x (by simp)).trans (hall y (by simp)).symm
      exact absurd (by simp [hxy]) (List.nodup_cons.mp hnodup).1

omit [DecidableEq P] in
theorem start_eq_last_iff (h : Families m live key) {p : P} (hp : live p) :
    (m p).start = (m p).last ↔ ∀ q, live q → key q = key p → q = p := by
  obtain ⟨xs, hxs, hmem⟩ := h p hp
  have hpmem := (hmem p).mpr ⟨hp, rfl⟩
  rw [hxs.start_eq_last_iff hpmem]
  constructor
  · rintro rfl q hq hkey
    exact List.mem_singleton.mp ((hmem q).mpr ⟨hq, hkey⟩)
  · intro halone
    exact eq_singleton hxs.nodup hpmem fun q hq =>
      halone q ((hmem q).mp hq).1 ((hmem q).mp hq).2

omit [DecidableEq P] in
theorem dlist_of_alone (h : Families m live key) {p : P} (hp : live p)
    (halone : ∀ q, live q → key q = key p → q = p) : DList m [p] := by
  obtain ⟨xs, hxs, hmem⟩ := h p hp
  rw [← eq_singleton hxs.nodup ((hmem p).mpr ⟨hp, rfl⟩) fun q hq =>
    halone q ((hmem q).mp hq).1 ((hmem q).mp hq).2]
  exact hxs

omit [DecidableEq P] in
/-- The element without neighbours is the only one of its family. -/
theorem alone_iff (h : Families m live key) {p : P} (hp : live p) :
    (m p).prev = none ∧ (m p).next = none ↔ ∀ q, live q → key q = key p → q = p := by
  obtain ⟨xs, hxs, hmem⟩ := h p hp
  obtain ⟨front, back, rfl⟩ := List.append_of_mem ((hmem p).mpr ⟨hp, rfl⟩)
  rw [hxs.prev_eq, hxs.next_eq]
  constructor
  · rintro ⟨hfront, hback⟩ q hq hkey
    have hqmem := (hmem q).mpr ⟨hq, hkey⟩
    rw [List.getLast?_eq_none_iff.mp hfront, List.head?_eq_none_iff.mp hback] at hqmem
    simpa using hqmem
  · intro halone
    have hsingle := eq_singleton hxs.nodup (by simp) fun q hq =>
      halone q ((hmem q).mp hq).1 ((hmem q).mp hq).2
    have hlength := congrArg List.length hsingle
    simp only [List.length_append, List.length_cons, List.length_nil] at hlength
    have hfront : front = [] := List.length_eq_zero_iff.mp (by omega)
    have hback : back = [] := List.length_eq_zero_iff.mp (by omega)
    simp [hfront, hback]

omit [DecidableEq P] in
/-- A new element with a key of its own. -/
theorem init {item : P} (h : Families m₀ live key) (hitem : ¬ live item)
    (hself : m item = ⟨some item, some item, none, none⟩)
    (hother : ∀ q, live q → m q = m₀ q)
    (hfresh : ∀ q, live q → key' q ≠ key' item)
    (hlive : ∀ q, live' q ↔ live q ∨ q = item)
    (hkey : ∀ q, live q → key' q = key q) : Families m live' key' := by
  intro p hp
  rcases (hlive p).mp hp with hp | rfl
  · obtain ⟨xs, hxs, hmem⟩ := h p hp
    refine ⟨xs, hxs.congr fun q hq => hother q ((hmem q).mp hq).1, fun q => ?_⟩
    rw [hmem, hlive, hkey p hp]
    constructor
    · rintro ⟨hq, hqp⟩
      exact ⟨.inl hq, (hkey q hq).trans hqp⟩
    · rintro ⟨hq | rfl, hqp⟩
      · exact ⟨hq, (hkey q hq).symm.trans hqp⟩
      · exact absurd ((hkey p hp).trans hqp.symm) (hfresh p hp)
  · refine ⟨[p], dlist_singleton.mpr hself, fun q => ?_⟩
    rw [List.mem_singleton, hlive]
    constructor
    · rintro rfl
      exact ⟨.inr rfl, rfl⟩
    · rintro ⟨hq | rfl, hqp⟩
      · exact absurd hqp (hfresh q hq)
      · rfl

/-- Adding an element to a family of one. -/
theorem insert_single {container item : P} (h : Families m₀ live key)
    (hcontainer : live container) (hitem : ¬ live item)
    (halone : ∀ q, live q → key q = key container → q = container)
    (hother : ∀ q, q ≠ item → m q = m₀ q)
    (hinsert : listInsertNoContainer m container item = some m')
    (hlive : ∀ q, live' q ↔ live q ∨ q = item)
    (hkeyItem : key' item = key container)
    (hkey : ∀ q, live q → key' q = key q) : Families m' live' key' := by
  have hsingle := h.dlist_of_alone hcontainer halone
  have hne : item ≠ container := by
    rintro rfl
    exact hitem hcontainer
  have hlinks := listInsertNoContainer_single
    ((hother container hne.symm).trans (dlist_singleton.mp hsingle)) hne hinsert
  intro p hp
  by_cases hpKey : key' p = key container
  · refine ⟨[container, item], hsingle.insert_single hne hother hinsert, fun q => ?_⟩
    rw [hpKey, hlive]
    constructor
    · intro hq
      rcases List.mem_pair.mp hq with rfl | rfl
      · exact ⟨.inl hcontainer, hkey _ hcontainer⟩
      · exact ⟨.inr rfl, hkeyItem⟩
    · rintro ⟨hq | rfl, hqKey⟩
      · rw [halone q hq ((hkey q hq).symm.trans hqKey)]
        simp
      · simp
  · rcases (hlive p).mp hp with hp | rfl
    · obtain ⟨xs, hxs, hmem⟩ := h p hp
      have hpc : key p ≠ key container := fun heq => hpKey ((hkey p hp).trans heq)
      refine ⟨xs, hxs.congr fun q hq => ?_, fun q => ?_⟩
      · have hqlive := (hmem q).mp hq
        have hqc : q ≠ container := by
          rintro rfl
          exact hpc hqlive.2.symm
        have hqi : q ≠ item := by
          rintro rfl
          exact hitem hqlive.1
        rw [hlinks, if_neg hqc, if_neg hqi, hother q hqi]
      · rw [hmem, hlive, hkey p hp]
        constructor
        · rintro ⟨hq, hqp⟩
          exact ⟨.inl hq, (hkey q hq).trans hqp⟩
        · rintro ⟨hq | rfl, hqp⟩
          · exact ⟨hq, (hkey q hq).symm.trans hqp⟩
          · exact absurd (hqp.symm.trans hkeyItem) hpc
    · exact absurd hkeyItem hpKey

end Families

end Cenix.LinkedLists
