import Cenix.LinkedLists.Renaming
import Cenix.LinkedLists.StaleLinks

namespace Cenix.LinkedLists

/-! Well-formed lists, seen as links that are in order. -/

variable {P : Type} [DecidableEq P] {m : P → Links P} {known : P → Prop} {xs : List P}
  {p q e : P}

omit [DecidableEq P] in
theorem Seg.reaches {f : P → Option P} (h : Seg f xs none) (hp : xs.head? = some p)
    (hq : q ∈ xs) : Reaches f p q := by
  induction xs generalizing p with
  | nil => cases hq
  | cons x xs ih =>
      obtain rfl : x = p := by simpa using hp
      rw [List.mem_cons] at hq
      rcases hq with rfl | hq
      · exact Reaches.refl f q
      · cases xs with
        | nil => cases hq
        | cons y xs =>
            refine reaches_iff.mpr (.inr ⟨y, ?_, ih h.2 rfl hq⟩)
            simpa using h.1

omit [DecidableEq P] in
theorem DList.next_of_prev (h : DList m xs) (hp : p ∈ xs) (hprev : (m p).prev = some q) :
    q ∈ xs ∧ (m q).next = some p := by
  obtain ⟨front, back, rfl⟩ := List.append_of_mem hp
  rw [h.prev_eq] at hprev
  obtain ⟨front, rfl⟩ := List.getLast?_eq_some_iff.mp hprev
  refine ⟨by simp, ?_⟩
  have hsplit : DList m (front ++ q :: p :: back) := by simpa using h
  rw [hsplit.next_eq]
  rfl

/-- How far into its list an element is, and how much of the list it heads. -/
theorem DList.next_rank (h : DList m xs) (hp : p ∈ xs) (hnext : (m p).next = some q) :
    xs.idxOf q = xs.idxOf p + 1 ∧ xs.idxOf q < xs.length := by
  obtain ⟨front, back, rfl⟩ := List.append_of_mem hp
  have hnodup := h.nodup
  rw [h.next_eq] at hnext
  obtain ⟨back, rfl⟩ := List.head?_eq_some_iff.mp hnext
  have hpFront : p ∉ front := by
    rw [List.nodup_middle] at hnodup
    exact fun hmem => (List.nodup_cons.mp hnodup).1 (List.mem_append_left _ hmem)
  have hqFront : q ∉ front ++ [p] := by
    have hsplit : (front ++ [p] ++ q :: back).Nodup := by simpa using hnodup
    rw [List.nodup_middle] at hsplit
    exact fun hmem => (List.nodup_cons.mp hsplit).1 (List.mem_append_left _ hmem)
  have hp : (front ++ p :: q :: back).idxOf p = front.length := by
    rw [List.idxOf_append_of_notMem hpFront, List.idxOf_cons_self, Nat.add_zero]
  have hq : (front ++ p :: q :: back).idxOf q = front.length + 1 := by
    have hsplit : front ++ p :: q :: back = front ++ [p] ++ q :: back := by simp
    rw [hsplit, List.idxOf_append_of_notMem hqFront, List.idxOf_cons_self]
    simp
  rw [hp, hq]
  refine ⟨rfl, ?_⟩
  simp

theorem Listed.ordered (h : ∀ p, known p → Listed m known p) :
    ∃ ahead behind, Ordered m known ahead behind := by
  have hlists : ∃ list : P → List P, ∀ p, known p → m p = .empty ∨
      DList m (list p) ∧ p ∈ list p ∧ ∀ q ∈ list p, known q := by
    classical
    refine ⟨fun p => if hp : ∃ xs, DList m xs ∧ p ∈ xs ∧ ∀ q ∈ xs, known q then hp.choose else [],
      fun p hp => (h p hp).imp_right fun hlist => ?_⟩
    simp only [dif_pos hlist]
    exact hlist.choose_spec
  obtain ⟨list, hlists⟩ := hlists
  have hsame : ∀ p q xs, known p → DList m xs → p ∈ xs → q ∈ xs → known q → list p = list q := by
    intro p q xs hp hxs hpxs hqxs hq
    have hpList := (hlists p hp).resolve_left (hxs.links_ne_empty hpxs)
    have hqList := (hlists q hq).resolve_left (hxs.links_ne_empty hqxs)
    rw [hpList.1.unique hxs hpList.2.1 hpxs, hqList.1.unique hxs hqList.2.1 hqxs]
  refine ⟨fun p => (list p).length - (list p).idxOf p, fun p => (list p).idxOf p, ?_⟩
  have hsplits : ∀ p, known p → m p = .empty ∨ ∃ front back, DList m (front ++ p :: back) ∧
      list p = front ++ p :: back ∧ ∀ q ∈ front ++ p :: back, known q := by
    intro p hp
    refine (hlists p hp).imp_right fun ⟨hxs, hmem, hknown⟩ => ?_
    obtain ⟨front, back, hsplit⟩ := List.append_of_mem hmem
    rw [hsplit] at hxs hknown
    exact ⟨front, back, hxs, hsplit, hknown⟩
  constructor
  · intro p q hp hnext
    have hpList := (hlists p hp).resolve_left fun hempty => by
      rw [hempty] at hnext
      cases hnext
    obtain ⟨hmem, hprev⟩ := hpList.1.prev_of_next hpList.2.1 hnext
    have hq := hpList.2.2 q hmem
    obtain ⟨hrank, hlt⟩ := hpList.1.next_rank hpList.2.1 hnext
    rw [← hsame p q (list p) hp hpList.1 hpList.2.1 hmem hq, hprev]
    exact ⟨hq, by omega, by omega, by simp⟩
  · intro p q hp hprev
    have hpList := (hlists p hp).resolve_left fun hempty => by
      rw [hempty] at hprev
      cases hprev
    obtain ⟨hmem, hnext⟩ := hpList.1.next_of_prev hpList.2.1 hprev
    have hq := hpList.2.2 q hmem
    obtain ⟨hrank, hlt⟩ := hpList.1.next_rank hmem hnext
    rw [← hsame p q (list p) hp hpList.1 hpList.2.1 hmem hq, hnext]
    exact ⟨hq, by omega, by omega, by simp⟩
  · intro p q hp hstart
    obtain ⟨hxs, hmem, hknown⟩ := (hlists p hp).resolve_left fun hempty => by
      rw [hempty] at hstart
      cases hstart
    rw [hxs.start_eq p hmem] at hstart
    refine ⟨hknown q (List.mem_of_head? hstart), ?_⟩
    obtain ⟨rest, hrest⟩ := List.head?_eq_some_iff.mp hstart
    rw [hrest] at hxs
    exact DList.prev_eq (show DList m ([] ++ q :: rest) from hxs)
  · intro p q hp hlast
    obtain ⟨hxs, hmem, hknown⟩ := (hlists p hp).resolve_left fun hempty => by
      rw [hempty] at hlast
      cases hlast
    rw [hxs.last_eq p hmem] at hlast
    refine ⟨hknown q (List.mem_of_getLast? hlast), ?_⟩
    obtain ⟨front, hfront⟩ := List.getLast?_eq_some_iff.mp hlast
    rw [hfront] at hxs hmem
    rcases List.eq_nil_or_concat' front with rfl | ⟨front, r, rfl⟩
    · have hpq : p = q := by simpa using hmem
      exact .inl hpq.symm
    · refine .inr ?_
      rw [hxs.prev_eq]
      simp
  · intro p hp hlast
    obtain ⟨hxs, hmem, -⟩ := (hlists p hp).resolve_left fun hempty => by
      rw [hempty] at hlast
      cases hlast
    rw [hxs.last_eq p hmem] at hlast
    obtain ⟨front, hfront⟩ := List.getLast?_eq_some_iff.mp hlast
    rw [hfront] at hxs
    exact hxs.next_eq
  · intro p hp hprev
    rcases hsplits p hp with hempty | ⟨front, back, hxs, -, -⟩
    · rw [hempty]
      exact .inr ⟨rfl, by simp [Links.empty]⟩
    · rw [hxs.prev_eq, List.getLast?_eq_none_iff] at hprev
      subst hprev
      exact .inl (hxs.start_eq p (by simp))
  · intro p hp hlast
    refine (hlists p hp).resolve_right fun ⟨hxs, hmem, _⟩ => ?_
    rw [hxs.last_eq p hmem, List.getLast?_eq_none_iff] at hlast
    rw [hlast] at hmem
    cases hmem

omit [DecidableEq P] in
theorem Listed.mutual (h : ∀ p, known p → Listed m known p) : Mutual m known := by
  have hlist : ∀ p, known p → m p ≠ .empty → ∃ xs, DList m xs ∧ p ∈ xs :=
    fun p hp hne => ((h p hp).resolve_left hne).imp fun xs hxs => ⟨hxs.1, hxs.2.1⟩
  constructor
  · intro p q hp hnext
    obtain ⟨xs, hxs, hmem⟩ := hlist p hp fun hempty => by
      rw [hempty] at hnext
      cases hnext
    exact (hxs.prev_of_next hmem hnext).2
  · intro p q hp hprev
    obtain ⟨xs, hxs, hmem⟩ := hlist p hp fun hempty => by
      rw [hempty] at hprev
      cases hprev
    exact (hxs.next_of_prev hmem hprev).2
  · intro p e hp hlast
    obtain ⟨xs, hxs, hmem⟩ := hlist p hp fun hempty => by
      rw [hempty] at hlast
      cases hlast
    have hends := hlast
    rw [hxs.last_eq p hmem] at hlast
    have he := List.mem_of_getLast? hlast
    refine ⟨?_, ?_, ?_⟩
    · obtain ⟨front, hfront⟩ := List.getLast?_eq_some_iff.mp hlast
      rw [hfront] at hxs
      exact hxs.next_eq
    · rw [hxs.start_eq e he, hxs.start_eq p hmem]
    · rw [hxs.last_eq e he, hlast]
  · intro p hp hends
    by_cases hempty : m p = .empty
    · rw [hempty]
      exact ⟨rfl, .inr rfl⟩
    · obtain ⟨xs, hxs, hmem⟩ := hlist p hp hempty
      obtain rfl := (hxs.start_eq_last_iff hmem).mp hends
      refine ⟨DList.next_eq (show DList m ([] ++ p :: []) from hxs), .inl ?_⟩
      exact hxs.last_eq p hmem
  · intro p e hp hprev hlast
    obtain ⟨xs, hxs, hmem⟩ := hlist p hp fun hempty => by
      rw [hempty] at hlast
      cases hlast
    rw [hxs.last_eq p hmem] at hlast
    refine hxs.backward.reaches ?_ (List.mem_reverse.mpr hmem)
    rw [List.head?_reverse, hlast]

end Cenix.LinkedLists
