import Cenix.LinkedLists.Fifo

namespace Cenix.LinkedLists

/-! Queues whose first element may link back to one that was popped before it.
Everything but that element can be removed. -/

variable {P : Type} [DecidableEq P]

/-- Only the back link of the first element is left open. -/
structure IsLine (c : Container P) (m : P → Link P) (xs : List P) : Prop where
  fifo : IsFifo c m xs
  backward : Seg (fun p => (m p).prev) xs.tail.reverse xs.head?

namespace IsLine

variable {c c' : Container P} {m m' : P → Link P} {xs front back : List P} {item first : P}

omit [DecidableEq P] in
theorem empty : IsLine (Container.empty) m [] :=
  ⟨IsFifo.empty, trivial⟩

omit [DecidableEq P] in
theorem congr (h : IsLine c m xs) (hm : ∀ p ∈ xs, m' p = m p) : IsLine c m' xs where
  fifo := h.fifo.congr hm
  backward := h.backward.congr fun p hp => by
    rw [hm p (List.mem_of_mem_tail (List.mem_reverse.mp hp))]

omit [DecidableEq P] in
theorem ofQueue (h : IsQueue c m xs) : IsLine c m xs where
  fifo := ⟨h.nodup, h.start_eq, h.last_eq, h.forward⟩
  backward := by
    cases xs with
    | nil => trivial
    | cons x xs =>
        have hback := h.backward
        rw [List.reverse_cons, seg_append] at hback
        exact hback.1

/-- Without the open link it is a queue. -/
theorem queue_iff :
    IsQueue c (setPrev m first none) (first :: xs) ↔ IsLine c m (first :: xs) := by
  have hnext : ∀ p, (setPrev m first none p).next = (m p).next := by
    intro p
    by_cases hp : p = first
    · simp [setPrev, hp]
    · simp [setPrev, hp]
  have hprev : ∀ p, p ≠ first → (setPrev m first none p).prev = (m p).prev := by
    intro p hp
    simp [setPrev, hp]
  have hne : (first :: xs).Nodup → ∀ p ∈ xs.reverse, p ≠ first := by
    rintro hnodup p hp rfl
    exact (List.nodup_cons.mp hnodup).1 (List.mem_reverse.mp hp)
  constructor
  · intro h
    have hline := ofQueue h
    constructor
    · refine ⟨h.nodup, h.start_eq, h.last_eq, ?_⟩
      exact h.forward.congr fun p _ => (hnext p).symm
    · exact hline.backward.congr fun p hp => (hprev p (hne h.nodup p hp)).symm
  · intro h
    refine ⟨h.fifo.nodup, h.fifo.start_eq, h.fifo.last_eq, ?_, ?_⟩
    · exact h.fifo.forward.congr fun p _ => hnext p
    · rw [List.reverse_cons, seg_append]
      refine ⟨h.backward.congr fun p hp => hprev p (hne h.fifo.nodup p hp), ?_⟩
      simp [setPrev]

/-- The first element has no back link. -/
theorem toQueue (h : IsLine c m (first :: xs)) (hfirst : (m first).prev = none) :
    IsQueue c m (first :: xs) := by
  have hsame : setPrev m first none = m := by
    rw [setPrev, ← hfirst, Function.update_eq_self]
  have hqueue := queue_iff.mpr h
  rwa [hsame] at hqueue

theorem append (h : IsLine c m xs) (hitem : item ∉ xs)
    (happend : listAppend c m item = (c', m')) : IsLine c' m' (xs ++ [item]) := by
  have hlinks := listAppend_links h.fifo.last_eq hitem happend
  refine ⟨h.fifo.append hitem happend, ?_⟩
  cases xs with
  | nil => trivial
  | cons x xs =>
      simp only [List.cons_append, List.tail_cons, List.reverse_append, List.reverse_cons,
        List.reverse_nil, List.nil_append, List.head?_cons, seg_cons]
      refine ⟨?_, h.backward.congr fun p hp => ?_⟩
      · rw [hlinks, if_pos rfl, List.getLast?_cons, List.head?_reverse]
        cases xs.getLast? <;> rfl
      · have hne : p ≠ item := by
          rintro rfl
          exact hitem (List.mem_cons_of_mem x (List.mem_reverse.mp hp))
        rw [hlinks, if_neg hne]

theorem pop (h : IsLine c m (item :: xs)) :
    IsLine ⟨xs.head?, xs.getLast?⟩ (Function.update m item Link.empty) xs := by
  have hnodup := List.nodup_cons.mp h.fifo.nodup
  refine ⟨h.fifo.pop, ?_⟩
  cases xs with
  | nil => trivial
  | cons x xs =>
      have hback := h.backward
      simp only [List.tail_cons, List.reverse_cons] at hback
      rw [seg_append] at hback
      apply hback.1.congr
      rintro p hp
      have hne : p ≠ item := by
        rintro rfl
        exact hnodup.1 (List.mem_cons_of_mem x (List.mem_reverse.mp hp))
      simp only [Function.update_of_ne hne]

/-- A removal touches the open link of the first element only when that is the one
to be removed, or the one behind it. -/
theorem remove_setPrev (hfirst : item ≠ first) (hnext : (m item).next ≠ some first)
    (hremove : listRemove c m item = (c', m')) :
    listRemove c (setPrev m first none) item = (c', setPrev m' first none) := by
  have hcomm : ∀ (m : P → Link P) p n,
      setNext (setPrev m first none) p n = setPrev (setNext m p n) first none := by
    intro m p n
    funext q
    by_cases hp : p = first
    · subst hp
      by_cases hq : q = p
      · subst hq
        simp [setNext, setPrev]
      · simp [setNext, setPrev, hq]
    · by_cases hq : q = p
      · subst hq
        simp [setNext, setPrev, hp]
      · by_cases hqf : q = first
        · subst hqf
          simp [setNext, setPrev, hq]
        · simp [setNext, setPrev, hq, hqf]
  have hcommPrev : ∀ (m : P → Link P) p n, p ≠ first →
      setPrev (setPrev m first none) p n = setPrev (setPrev m p n) first none := by
    intro m p n hp
    funext q
    by_cases hq : q = p
    · subst hq
      simp [setPrev, hp]
    · by_cases hqf : q = first
      · subst hqf
        simp [setPrev, hq]
      · simp [setPrev, hq, hqf]
  have hself : ∀ m : P → Link P, setPrev m first none item = m item := by
    intro m
    simp [setPrev, hfirst]
  unfold listRemove at hremove ⊢
  rw [hself]
  cases hprev : (m item).prev with
  | none =>
      simp only [hprev, hself] at hremove ⊢
      cases hn : (m item).next with
      | none =>
          simp only [hn, Prod.mk.injEq] at hremove ⊢
          exact ⟨hremove.1, by rw [hremove.2]⟩
      | some n =>
          have hnf : n ≠ first := by
            rintro rfl
            exact hnext hn
          simp only [hn, Prod.mk.injEq] at hremove ⊢
          exact ⟨hremove.1, by rw [hcommPrev m n none hnf, hremove.2]⟩
  | some p =>
      simp only [hprev, hcomm, hself] at hremove ⊢
      have hn' : (setNext m p (m item).next item).next = (m item).next := by
        by_cases hp : item = p
        · subst hp
          simp [setNext]
        · simp [setNext, hp]
      rw [hn'] at hremove ⊢
      cases hn : (m item).next with
      | none =>
          simp only [hn, Prod.mk.injEq] at hremove ⊢
          exact ⟨hremove.1, by rw [hremove.2]⟩
      | some n =>
          have hnf : n ≠ first := by
            rintro rfl
            exact hnext hn
          simp only [hn, Prod.mk.injEq] at hremove ⊢
          exact ⟨hremove.1, by rw [hcommPrev _ n _ hnf, hremove.2]⟩

/-- An element leaves that is not the first one, or does not link back. -/
theorem remove (h : IsLine c m (front ++ item :: back))
    (hright : c.start = some item → (m item).prev = none)
    (hremove : listRemove c m item = (c', m')) : IsLine c' m' (front ++ back) := by
  cases front with
  | nil =>
      have hqueue := toQueue h (hright h.fifo.start_eq)
      exact ofQueue (@IsQueue.remove P _ c c' m m' [] back item hqueue hremove)
  | cons first front =>
      have hnodup := h.fifo.nodup
      simp only [List.cons_append, List.nodup_cons, List.mem_append, List.mem_cons,
        not_or] at hnodup
      have hfirst : item ≠ first := Ne.symm hnodup.1.2.1
      have hnext : (m item).next ≠ some first := by
        rw [h.fifo.forward.of_split]
        intro hhead
        exact hnodup.1.2.2 (List.mem_of_head? hhead)
      have hqueue : IsQueue c (setPrev m first none) ((first :: front) ++ item :: back) :=
        queue_iff.mpr h
      exact queue_iff.mp (hqueue.remove (remove_setPrev hfirst hnext hremove))

end IsLine

end Cenix.LinkedLists
