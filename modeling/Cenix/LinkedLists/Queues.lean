import Cenix.LinkedLists.Container

namespace Cenix.LinkedLists

/-! Elements distributed over queues by a key. -/

variable {P K : Type} [DecidableEq P] [DecidableEq K]

/-- Every queue holds exactly the elements whose key names it. -/
def Queues (containers : K → Container P) (m : P → Link P) (key : P → Option K) : Prop :=
  ∀ k, ∃ xs, IsQueue (containers k) m xs ∧ ∀ p, p ∈ xs ↔ key p = some k

omit [DecidableEq P] in
theorem IsQueue.unique {c : Container P} {m : P → Link P} {xs ys : List P}
    (hx : IsQueue c m xs) (hy : IsQueue c m ys) : xs = ys := by
  apply Seg.unique hx.forward hy.forward
  rw [← hx.start_eq, hy.start_eq]

namespace Queues

variable {containers containers' : K → Container P} {m m' m₀ : P → Link P}
  {key key' : P → Option K} {c' : Container P} {k : K} {item : P}

omit [DecidableEq P] [DecidableEq K] in
theorem congr (h : Queues containers m key) (hcontainers : containers' = containers)
    (hm : ∀ p, key p ≠ none → m' p = m p) (hkey : ∀ p, key' p = key p) :
    Queues containers' m' key' := by
  intro k
  obtain ⟨xs, hxs, hmem⟩ := h k
  refine ⟨xs, ?_, fun p => by rw [hkey, hmem]⟩
  rw [hcontainers]
  apply hxs.congr
  intro p hp
  apply hm
  rw [(hmem p).mp hp]
  exact Option.some_ne_none k

omit [DecidableEq P] [DecidableEq K] in
theorem start_none (h : Queues containers m key) (hstart : (containers k).start = none)
    (p : P) : key p ≠ some k := by
  obtain ⟨xs, hxs, hmem⟩ := h k
  rw [Ne, ← hmem, hxs.nil_iff.mpr hstart]
  exact List.not_mem_nil

omit [DecidableEq P] [DecidableEq K] in
theorem start_some (h : Queues containers m key) {p : P}
    (hstart : (containers k).start = some p) : key p = some k := by
  obtain ⟨xs, hxs, hmem⟩ := h k
  rw [hxs.start_eq] at hstart
  exact (hmem p).mp (List.mem_of_head? hstart)

omit [DecidableEq P] [DecidableEq K] in
private theorem ne_of_key {p : P} (hitem : key item = none) (hp : key p = some k) :
    p ≠ item := by
  intro heq
  rw [heq, hitem] at hp
  cases hp

/-- A change of one queue that leaves the links of the others alone. -/
private theorem change (h : Queues containers m key) {ys : List P} {item : P}
    (hys : IsQueue c' m' ys)
    (hframe : ∀ p, key p ≠ some k → p ≠ item → m' p = m p)
    (hitem : ∀ j, j ≠ k → key item ≠ some j)
    (hcontainers : containers' = Function.update containers k c')
    (hmem : ∀ p, p ∈ ys ↔ key' p = some k)
    (hkey : ∀ p, p ≠ item → key' p = key p)
    (hitem' : ∀ j, j ≠ k → key' item ≠ some j) :
    Queues containers' m' key' := by
  intro j
  cases decEq j k with
  | isTrue hjk =>
      subst hjk
      exact ⟨ys, by simpa [hcontainers] using hys, hmem⟩
  | isFalse hjk =>
      obtain ⟨xs, hxs, hxmem⟩ := h j
      have hne : ∀ p, key p = some j → p ≠ item := by
        intro p hp heq
        subst heq
        exact hitem j hjk hp
      refine ⟨xs, ?_, ?_⟩
      · rw [hcontainers, Function.update_of_ne hjk]
        apply hxs.congr
        intro p hp
        have hp := (hxmem p).mp hp
        apply hframe p
        · rw [hp]
          intro heq
          exact hjk (Option.some.inj heq)
        · exact hne p hp
      · intro p
        rw [hxmem]
        cases decEq p item with
        | isTrue hpi =>
            subst hpi
            exact iff_of_false (hitem j hjk) (hitem' j hjk)
        | isFalse hpi => rw [hkey p hpi]

theorem append (h : Queues containers m key) (hitem : key item = none)
    (happend : listAppend (containers k) m item = (c', m'))
    (hcontainers : containers' = Function.update containers k c')
    (hkeyItem : key' item = some k) (hkey : ∀ p, p ≠ item → key' p = key p) :
    Queues containers' m' key' := by
  obtain ⟨xs, hxs, hmem⟩ := h k
  have hnot : item ∉ xs := by
    intro hin
    exact ne_of_key hitem ((hmem item).mp hin) rfl
  apply h.change (hxs.append hnot happend) _ _ hcontainers _ hkey
  · intro j hj heq
    rw [hkeyItem, Option.some.injEq] at heq
    exact hj heq.symm
  · intro p hp hpi
    have hlast : xs.getLast? ≠ some p := by
      intro heq
      exact hp ((hmem p).mp (List.mem_of_getLast? heq))
    rw [listAppend_links hxs.last_eq hnot happend, if_neg hpi, if_neg hlast]
  · intro j hj
    rw [hitem]
    simp
  · intro p
    rw [List.mem_append, List.mem_singleton, hmem]
    cases decEq p item with
    | isTrue hpi => simp [hpi, hkeyItem]
    | isFalse hpi => simp [hpi, hkey p hpi]

theorem remove (h : Queues containers m key) (hitem : key item = some k)
    (hremove : listRemove (containers k) m item = (c', m'))
    (hcontainers : containers' = Function.update containers k c')
    (hkeyItem : key' item = none) (hkey : ∀ p, p ≠ item → key' p = key p) :
    Queues containers' m' key' := by
  obtain ⟨xs, hxs, hmem⟩ := h k
  obtain ⟨front, back, rfl⟩ := List.append_of_mem ((hmem item).mpr hitem)
  have hnot : item ∉ front ++ back := by
    have hnodup := hxs.nodup
    rw [List.nodup_middle] at hnodup
    exact (List.nodup_cons.mp hnodup).1
  apply h.change (hxs.remove hremove) _ _ hcontainers _ hkey
  · intro j hj heq
    rw [hkeyItem] at heq
    cases heq
  · intro p hp hpi
    have hin : p ∉ front ++ item :: back := by
      rw [hmem]
      exact hp
    have hlast : front.getLast? ≠ some p := by
      intro heq
      exact hin (by simp [List.mem_of_getLast? heq])
    have hhead : back.head? ≠ some p := by
      intro heq
      exact hin (by simp [List.mem_of_head? heq])
    rw [hxs.remove_links hremove, if_neg hlast, if_neg hhead]
  · intro j hj
    rw [hitem]
    intro heq
    exact hj (Option.some.inj heq).symm
  · intro p
    cases decEq p item with
    | isTrue hpi =>
        subst hpi
        simp [hnot, hkeyItem]
    | isFalse hpi =>
        rw [hkey p hpi, ← hmem]
        simp [hpi]

/-- A pop that empties the queue. -/
theorem pop_single (h : Queues containers m key)
    (hstart : (containers k).start = some item) (hlast : (containers k).last = some item)
    (hpop : listPopFromStart (containers k) m = (some item, c', m'))
    (hcontainers : containers' = Function.update containers k c')
    (hkeyItem : key' item = none) (hkey : ∀ p, p ≠ item → key' p = key p) :
    Queues containers' m' key' := by
  obtain ⟨xs, hxs, hmem⟩ := h k
  have hsingle : xs = [item] := by
    rw [hxs.start_eq] at hstart
    rw [hxs.last_eq] at hlast
    cases xs with
    | nil => cases hstart
    | cons x xs =>
        have hx : x = item := by simpa using hstart
        subst hx
        cases xs with
        | nil => rfl
        | cons y ys =>
            have hin : x ∈ y :: ys := by
              rw [List.getLast?_cons_cons] at hlast
              exact List.mem_of_getLast? hlast
            exact absurd hin (List.nodup_cons.mp hxs.nodup).1
  subst hsingle
  rw [hxs.pop_eq] at hpop
  simp only [Prod.mk.injEq, true_and] at hpop
  have hempty : IsQueue c' m' [] := by
    rw [← hpop.1]
    constructor <;> simp
  apply h.change hempty _ _ hcontainers _ hkey
  · intro j hj heq
    rw [hkeyItem] at heq
    cases heq
  · intro p hp hpi
    rw [← hpop.2, Function.update_of_ne hpi]
  · intro j hj
    rw [(hmem item).mp (by simp)]
    intro heq
    exact hj (Option.some.inj heq).symm
  · intro p
    cases decEq p item with
    | isTrue hpi => simp [hpi, hkeyItem]
    | isFalse hpi =>
        rw [hkey p hpi, ← hmem]
        simp [hpi]

/-- An element of a queue that now lies at `item`. -/
theorem relocate {old : P} (h : Queues containers m₀ key) (hold : key old = some k)
    (hitem : key item = none) (hself : m item = m₀ old)
    (hother : ∀ p, p ≠ item → m p = m₀ p)
    (hupdate : listUpdateAddress (containers k) m item = (c', m'))
    (hcontainers : containers' = Function.update containers k c')
    (hkeyItem : key' item = some k) (hkeyOld : key' old = none)
    (hkey : ∀ p, p ≠ item → p ≠ old → key' p = key p) :
    Queues containers' m' key' := by
  have hne : old ≠ item := ne_of_key hitem hold
  obtain ⟨xs, hxs, hmem⟩ := h k
  obtain ⟨front, back, rfl⟩ := List.append_of_mem ((hmem old).mpr hold)
  have hold' : old ∉ front ++ back := by
    have hnodup := hxs.nodup
    rw [List.nodup_middle] at hnodup
    exact (List.nodup_cons.mp hnodup).1
  have hnot : item ∉ front ++ back := by
    intro hin
    apply ne_of_key hitem _ rfl
    · exact k
    · rw [← hmem]
      rw [List.mem_append] at hin ⊢
      exact hin.imp_right (List.mem_cons_of_mem old)
  have hrest : ∀ p, p ∈ front ++ back → p ≠ item := by
    intro p hp heq
    exact hnot (heq ▸ hp)
  have hmoved : IsQueue c' m' (front ++ item :: back) :=
    hxs.updateAddress hnot hself (fun p hp => hother p (hrest p hp)) hupdate
  intro j
  cases decEq j k with
  | isTrue hjk =>
      subst hjk
      refine ⟨front ++ item :: back, by simpa [hcontainers] using hmoved, ?_⟩
      intro p
      cases decEq p item with
      | isTrue hpi => simp [hpi, hkeyItem]
      | isFalse hpi =>
          cases decEq p old with
          | isTrue hpo =>
              subst hpo
              rw [hkeyOld]
              simpa [hpi] using hold'
          | isFalse hpo =>
              rw [hkey p hpi hpo, ← hmem]
              simp [hpi, hpo]
  | isFalse hjk =>
      obtain ⟨ys, hys, hymem⟩ := h j
      have hapart : ∀ p, p ∈ ys → p ≠ item ∧ p ∉ front ++ old :: back := by
        intro p hp
        have hp := (hymem p).mp hp
        refine ⟨ne_of_key hitem hp, ?_⟩
        rw [hmem, hp]
        intro heq
        exact hjk (Option.some.inj heq)
      refine ⟨ys, ?_, ?_⟩
      · rw [hcontainers, Function.update_of_ne hjk]
        apply hys.congr
        intro p hp
        obtain ⟨hpi, hp⟩ := hapart p hp
        have hlast : front.getLast? ≠ some p := by
          intro heq
          exact hp (by simp [List.mem_of_getLast? heq])
        have hhead : back.head? ≠ some p := by
          intro heq
          exact hp (by simp [List.mem_of_head? heq])
        rw [hxs.updateAddress_links hnot hself hupdate, if_neg hlast, if_neg hhead]
        exact hother p hpi
      · intro p
        rw [hymem]
        cases decEq p item with
        | isTrue hpi =>
            subst hpi
            rw [hitem, hkeyItem]
            simp [Ne.symm hjk]
        | isFalse hpi =>
            cases decEq p old with
            | isTrue hpo =>
                subst hpo
                rw [hold, hkeyOld]
                simp [Ne.symm hjk]
            | isFalse hpo => rw [hkey p hpi hpo]

end Queues

end Cenix.LinkedLists
