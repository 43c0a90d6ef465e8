import Cenix.LinkedLists.Queues

namespace Cenix.LinkedLists

/-! Queues of which only the forward links are used: elements are appended at
one end and popped at the other. -/

variable {P K : Type} [DecidableEq P] [DecidableEq K]

structure IsFifo (c : Container P) (m : P → Link P) (xs : List P) : Prop where
  nodup : xs.Nodup
  start_eq : c.start = xs.head?
  last_eq : c.last = xs.getLast?
  forward : Seg (fun p => (m p).next) xs none

namespace IsFifo

variable {c c' : Container P} {m m' : P → Link P} {xs : List P} {item : P}

omit [DecidableEq P] in
theorem empty : IsFifo (Container.empty) m [] := by
  constructor <;> simp [Container.empty]

omit [DecidableEq P] in
theorem congr (h : IsFifo c m xs) (hm : ∀ p ∈ xs, m' p = m p) : IsFifo c m' xs where
  nodup := h.nodup
  start_eq := h.start_eq
  last_eq := h.last_eq
  forward := h.forward.congr fun p hp => by rw [hm p hp]

omit [DecidableEq P] in
theorem unique {ys : List P} (hx : IsFifo c m xs) (hy : IsFifo c m ys) : xs = ys := by
  apply hx.forward.unique hy.forward
  rw [← hx.start_eq, hy.start_eq]

theorem append (h : IsFifo c m xs) (hitem : item ∉ xs)
    (happend : listAppend c m item = (c', m')) : IsFifo c' m' (xs ++ [item]) := by
  have hlinks := listAppend_links h.last_eq hitem happend
  have hcontainer := listAppend_container h.start_eq h.last_eq happend
  have hne : ∀ q ∈ xs, q ≠ item := by
    intro q hq heq
    exact hitem (heq ▸ hq)
  constructor
  · rw [List.nodup_append]
    refine ⟨h.nodup, by simp, ?_⟩
    intro q hq r hr
    rw [List.mem_singleton.mp hr]
    exact hne q hq
  · rw [hcontainer]
  · simp [hcontainer]
  · apply h.forward.snoc h.nodup
    · simp [hlinks]
    · intro x hx
      simp [hlinks, hne x (List.mem_of_getLast? hx), hx]
    · intro x hx hxne
      simp [hlinks, hne x hx, hxne]

theorem pop_eq (h : IsFifo c m (item :: xs)) :
    listPopFromStart c m =
      (some item, ⟨xs.head?, xs.getLast?⟩, Function.update m item Link.empty) := by
  have hstart := h.start_eq
  have hlast := h.last_eq
  have hnext : (m item).next = xs.head? := by simpa using h.forward.1
  unfold listPopFromStart
  simp only [hstart, List.head?_cons, hnext, hlast]
  cases xs with
  | nil => simp
  | cons x xs => simp

theorem pop (h : IsFifo c m (item :: xs)) :
    IsFifo ⟨xs.head?, xs.getLast?⟩ (Function.update m item Link.empty) xs := by
  have hnodup := List.nodup_cons.mp h.nodup
  refine ⟨hnodup.2, rfl, rfl, ?_⟩
  apply h.forward.2.congr
  intro x hx
  rw [Function.update_of_ne]
  intro heq
  exact hnodup.1 (heq ▸ hx)

end IsFifo

/-- Every queue holds the elements listed for it, and no two hold a common one. -/
structure Fifos (containers : K → Container P) (m : P → Link P) (contents : K → List P) :
    Prop where
  fifo : ∀ k, IsFifo (containers k) m (contents k)
  disjoint : ∀ j k p, p ∈ contents j → p ∈ contents k → j = k

namespace Fifos

variable {containers containers' : K → Container P} {m m' : P → Link P}
  {contents contents' : K → List P} {c' : Container P} {k : K} {item : P} {xs : List P}

omit [DecidableEq P] [DecidableEq K] in
theorem congr (h : Fifos containers m contents) (hcontainers : ∀ k, containers' k = containers k)
    (hm : ∀ p, m' p = m p) : Fifos containers' m' contents where
  fifo k := by
    rw [hcontainers]
    exact (h.fifo k).congr fun p _ => hm p
  disjoint := h.disjoint

omit [DecidableEq P] in
/-- A change of one queue that leaves the links of the others alone. -/
private theorem change (h : Fifos containers m contents) (hxs : IsFifo c' m' xs)
    (hframe : ∀ j p, j ≠ k → p ∈ contents j → m' p = m p)
    (hcontainers : ∀ j, containers' j = if j = k then c' else containers j)
    (hcontents : ∀ j, contents' j = if j = k then xs else contents j)
    (hapart : ∀ j p, j ≠ k → p ∈ contents j → p ∉ xs) : Fifos containers' m' contents' where
  fifo j := by
    rw [hcontainers, hcontents]
    split
    · exact hxs
    · rename_i hjk
      exact (h.fifo j).congr fun p hp => hframe j p hjk hp
  disjoint i j p hi hj := by
    rw [hcontents] at hi hj
    split at hi
    · rename_i hik
      split at hj
      · rename_i hjk
        rw [hik, hjk]
      · rename_i hjk
        exact absurd hi (hapart j p hjk hj)
    · rename_i hik
      split at hj
      · exact absurd hj (hapart i p hik hi)
      · exact h.disjoint i j p hi hj

theorem append (h : Fifos containers m contents) (hitem : ∀ j, item ∉ contents j)
    (happend : listAppend (containers k) m item = (c', m'))
    (hcontainers : ∀ j, containers' j = if j = k then c' else containers j)
    (hcontents : ∀ j, contents' j = if j = k then contents k ++ [item] else contents j) :
    Fifos containers' m' contents' := by
  have hne : ∀ j p, p ∈ contents j → p ≠ item := by
    intro j p hp heq
    exact hitem j (heq ▸ hp)
  have hapart : ∀ j p, j ≠ k → p ∈ contents j → p ∉ contents k := by
    intro j p hjk hp hk
    exact hjk (h.disjoint j k p hp hk)
  apply h.change ((h.fifo k).append (hitem k) happend) _ hcontainers hcontents
  · intro j p hjk hp hin
    rw [List.mem_append, List.mem_singleton] at hin
    cases hin with
    | inl hin => exact hapart j p hjk hp hin
    | inr heq => exact hne j p hp heq
  · intro j p hjk hp
    have hlast : (contents k).getLast? ≠ some p := by
      intro heq
      exact hapart j p hjk hp (List.mem_of_getLast? heq)
    rw [listAppend_links (h.fifo k).last_eq (hitem k) happend, if_neg (hne j p hp),
      if_neg hlast]

theorem pop (h : Fifos containers m contents) (hhead : contents k = item :: xs)
    (hcontainers : ∀ j, containers' j =
      if j = k then ⟨xs.head?, xs.getLast?⟩ else containers j)
    (hcontents : ∀ j, contents' j = if j = k then xs else contents j) :
    Fifos containers' (Function.update m item Link.empty) contents' := by
  have hk : IsFifo (containers k) m (item :: xs) := hhead ▸ h.fifo k
  apply h.change hk.pop _ hcontainers hcontents
  · intro j p hjk hp hin
    apply hjk
    apply h.disjoint j k p hp
    rw [hhead]
    exact List.mem_cons_of_mem item hin
  · intro j p hjk hp
    rw [Function.update_of_ne]
    intro heq
    apply hjk
    apply h.disjoint j k p hp
    rw [hhead, heq]
    exact List.mem_cons_self

end Fifos

end Cenix.LinkedLists
