import Cenix.LinkedLists.Segment

namespace Cenix.LinkedLists

/-! Linked lists with a container separate from the elements. -/

structure Link (P : Type) where
  prev : Option P
  next : Option P
  deriving DecidableEq, Repr

/-- `last` is the field the source calls `end`. -/
structure Container (P : Type) where
  start : Option P
  last : Option P
  deriving DecidableEq, Repr

def Link.empty : Link P := ⟨none, none⟩

def Container.empty : Container P := ⟨none, none⟩

variable {P : Type} [DecidableEq P]

def setPrev (m : P → Link P) (p : P) (prev : Option P) : P → Link P :=
  Function.update m p { m p with prev := prev }

def setNext (m : P → Link P) (p : P) (next : Option P) : P → Link P :=
  Function.update m p { m p with next := next }

def listAppend (c : Container P) (m : P → Link P) (item : P) :
    Container P × (P → Link P) :=
  match c.last with
  | none => (⟨some item, some item⟩, Function.update m item Link.empty)
  | some last =>
      let m := setNext m last (some item)
      let m := setPrev m item (some last)
      ({ c with last := some item }, setNext m item none)

def listUpdateAddress (c : Container P) (m : P → Link P) (item : P) :
    Container P × (P → Link P) :=
  let (c, m) := match (m item).next with
    | none => ({ c with last := some item }, m)
    | some next => (c, setPrev m next (some item))
  match (m item).prev with
  | none => ({ c with start := some item }, m)
  | some prev => (c, setNext m prev (some item))

/-- The popped element, if there is one, and the container and links after it. -/
def listPopFromStart (c : Container P) (m : P → Link P) :
    Option P × Container P × (P → Link P) :=
  match c.start with
  | none => (none, c, m)
  | some item =>
      let start := (m item).next
      let last := if start = none then none else c.last
      (some item, ⟨start, last⟩, Function.update m item Link.empty)

def listCanPop (c : Container P) : Bool :=
  c.start.isSome

def listRemove (c : Container P) (m : P → Link P) (item : P) :
    Container P × (P → Link P) :=
  let (c, m) := match (m item).prev with
    | none => ({ c with start := (m item).next }, m)
    | some prev => (c, setNext m prev (m item).next)
  match (m item).next with
  | none => ({ c with last := (m item).prev }, m)
  | some next => (c, setPrev m next (m item).prev)

theorem listPopFromStart_start {c c' : Container P} {m m' : P → Link P} {item : P}
    (h : listPopFromStart c m = (some item, c', m')) : c.start = some item := by
  unfold listPopFromStart at h
  split at h
  · cases h
  · rename_i first hfirst
    simp only [Prod.mk.injEq, Option.some.injEq] at h
    rw [hfirst, h.1]

/-! What appending an element does. -/

theorem listAppend_links {c c' : Container P} {m m' : P → Link P} {xs : List P} {item : P}
    (hlast : c.last = xs.getLast?) (hitem : item ∉ xs)
    (happend : listAppend c m item = (c', m')) (q : P) :
    m' q =
      if q = item then ⟨xs.getLast?, none⟩
      else { m q with
        next := if xs.getLast? = some q then some item else (m q).next } := by
  unfold listAppend at happend
  cases hx : xs.getLast? with
  | none =>
      simp only [hlast, hx, Prod.mk.injEq] at happend
      rw [← happend.2]
      by_cases hq : q = item
      · simp [hq, Link.empty]
      · simp [hq]
  | some last =>
      have hne : item ≠ last := by
        rintro rfl
        exact hitem (List.mem_of_getLast? hx)
      simp only [hlast, hx, Prod.mk.injEq] at happend
      rw [← happend.2]
      by_cases hq : q = item
      · subst hq
        simp [setNext, setPrev]
      · by_cases hql : q = last
        · subst hql
          simp [setNext, setPrev, hq]
        · simp [setNext, setPrev, hq, hql, Ne.symm hql]

theorem listAppend_container {c c' : Container P} {m m' : P → Link P} {xs : List P}
    {item : P} (hstart : c.start = xs.head?) (hlast : c.last = xs.getLast?)
    (happend : listAppend c m item = (c', m')) :
    c' = ⟨(xs ++ [item]).head?, some item⟩ := by
  unfold listAppend at happend
  cases hx : xs.getLast? with
  | none =>
      simp only [hlast, hx, Prod.mk.injEq] at happend
      rw [← happend.1, List.getLast?_eq_none_iff.mp hx]
      rfl
  | some last =>
      simp only [hlast, hx, Prod.mk.injEq] at happend
      rw [← happend.1, hstart]
      cases xs with
      | nil => simp at hx
      | cons x xs => rfl

/-! Well-formed queues. -/

structure IsQueue (c : Container P) (m : P → Link P) (xs : List P) : Prop where
  nodup : xs.Nodup
  start_eq : c.start = xs.head?
  last_eq : c.last = xs.getLast?
  forward : Seg (fun p => (m p).next) xs none
  backward : Seg (fun p => (m p).prev) xs.reverse none

namespace IsQueue

variable {c c' : Container P} {m m' m₀ : P → Link P} {xs front back : List P}

omit [DecidableEq P] in
theorem congr (h : IsQueue c m xs) (hm : ∀ p ∈ xs, m' p = m p) : IsQueue c m' xs where
  nodup := h.nodup
  start_eq := h.start_eq
  last_eq := h.last_eq
  forward := h.forward.congr fun p hp => by rw [hm p hp]
  backward := h.backward.congr fun p hp => by rw [hm p (List.mem_reverse.mp hp)]

omit [DecidableEq P] in
theorem next_eq {d : P} (h : IsQueue c m (front ++ d :: back)) :
    (m d).next = back.head? :=
  h.forward.of_split

omit [DecidableEq P] in
private theorem reverse_split (front back : List P) (d : P) :
    (front ++ d :: back).reverse = back.reverse ++ d :: front.reverse := by
  simp

omit [DecidableEq P] in
theorem prev_eq {d : P} (h : IsQueue c m (front ++ d :: back)) :
    (m d).prev = front.getLast? := by
  have hback := h.backward
  rw [reverse_split] at hback
  simpa using Seg.of_split hback

omit [DecidableEq P] in
theorem nil_iff (h : IsQueue c m xs) : xs = [] ↔ c.start = none := by
  rw [h.start_eq, List.head?_eq_none_iff]

theorem append {item : P} (h : IsQueue c m xs) (hitem : item ∉ xs)
    (happend : listAppend c m item = (c', m')) : IsQueue c' m' (xs ++ [item]) := by
  have hlinks := listAppend_links h.last_eq hitem happend
  have hcontainer := listAppend_container h.start_eq h.last_eq happend
  have hne : ∀ q ∈ xs, q ≠ item := by
    rintro q hq rfl
    exact hitem hq
  constructor
  · rw [List.nodup_append]
    refine ⟨h.nodup, by simp, ?_⟩
    intro q hq r hr
    rw [List.mem_singleton.mp hr]
    exact hne q hq
  · rw [hcontainer]
  · simp [hcontainer]
  · refine h.forward.snoc h.nodup ?_ ?_ ?_
    · simp [hlinks]
    · intro x hx
      simp [hlinks, hne x (List.mem_of_getLast? hx), hx]
    · intro x hx hxne
      simp [hlinks, hne x hx, hxne]
  · rw [List.reverse_append]
    refine ⟨by simp [hlinks], h.backward.congr fun x hx => ?_⟩
    simp [hlinks, hne x (List.mem_reverse.mp hx)]

theorem remove_links {d : P} (h : IsQueue c m (front ++ d :: back))
    (hremove : listRemove c m d = (c', m')) (q : P) :
    m' q =
      { prev := if back.head? = some q then front.getLast? else (m q).prev
        next := if front.getLast? = some q then back.head? else (m q).next } := by
  have hprev := h.prev_eq
  have hnext := h.next_eq
  have hnodup := h.nodup
  rw [List.nodup_middle] at hnodup
  have hd : d ∉ front ++ back := (List.nodup_cons.mp hnodup).1
  have hdisjoint : ∀ x ∈ front, x ∉ back := fun x hx hxb =>
    (List.nodup_append.mp (List.nodup_cons.mp hnodup).2).2.2 x hx x hxb rfl
  unfold listRemove at hremove
  cases hf : front.getLast? with
  | none =>
      cases hb : back.head? with
      | none =>
          simp only [hprev, hnext, hf, hb, Prod.mk.injEq] at hremove
          rw [← hremove.2]
          simp
      | some n =>
          simp only [hprev, hnext, hf, hb, Prod.mk.injEq] at hremove
          rw [← hremove.2]
          by_cases hq : q = n
          · subst hq
            simp [setPrev]
          · simp [setPrev, hq, Ne.symm hq]
  | some p =>
      have hdp : d ≠ p := by
        rintro rfl
        exact hd (by simp [List.mem_of_getLast? hf])
      have hdprev : (setNext m p back.head? d).prev = some p := by
        simp [setNext, hdp, hprev, hf]
      have hdnext : (setNext m p back.head? d).next = back.head? := by
        simp [setNext, hdp, hnext]
      simp only [hprev, hf, hnext] at hremove
      cases hb : back.head? with
      | none =>
          rw [hb] at hremove hdprev hdnext
          simp only [hdnext, Prod.mk.injEq] at hremove
          rw [← hremove.2]
          by_cases hq : q = p
          · subst hq
            simp [setNext]
          · simp [setNext, hq, Ne.symm hq]
      | some n =>
          rw [hb] at hremove hdprev hdnext
          simp only [hdnext, hdprev, Prod.mk.injEq] at hremove
          rw [← hremove.2]
          have hpn : p ≠ n := by
            rintro rfl
            exact hdisjoint p (List.mem_of_getLast? hf) (List.mem_of_head? hb)
          by_cases hqn : q = n
          · subst hqn
            simp [setNext, setPrev, hpn, hpn.symm]
          · by_cases hqp : q = p
            · subst hqp
              simp [setNext, setPrev, hqn, Ne.symm hqn]
            · simp [setNext, setPrev, hqn, hqp, Ne.symm hqn, Ne.symm hqp]

theorem remove {d : P} (h : IsQueue c m (front ++ d :: back))
    (hremove : listRemove c m d = (c', m')) : IsQueue c' m' (front ++ back) := by
  have hlinks := h.remove_links hremove
  have hprev := h.prev_eq
  have hnext := h.next_eq
  have hnodup := h.nodup
  rw [List.nodup_middle] at hnodup
  have hd : d ∉ front ++ back := (List.nodup_cons.mp hnodup).1
  have hcontainer : c' = ⟨(front ++ back).head?, (front ++ back).getLast?⟩ := by
    have hstart := h.start_eq
    have hlast := h.last_eq
    unfold listRemove at hremove
    rcases List.eq_nil_or_concat' front with rfl | ⟨front, p, rfl⟩
    · cases back with
      | nil =>
          simp only [hprev, hnext, List.getLast?_nil, List.head?_nil,
            Prod.mk.injEq] at hremove
          exact hremove.1.symm
      | cons n back =>
          simp only [hprev, hnext, List.getLast?_nil, List.head?_cons,
            Prod.mk.injEq] at hremove
          rw [← hremove.1, hlast]
          simp
    · have hdp : d ≠ p := by
        rintro rfl
        exact hd (by simp)
      have hdnext : (setNext m p back.head? d).next = back.head? := by
        simp [setNext, hdp, hnext]
      have hdprev : (setNext m p back.head? d).prev = some p := by
        simp [setNext, hdp, hprev]
      simp only [hprev, hnext, List.getLast?_concat] at hremove
      cases back with
      | nil =>
          rw [List.head?_nil] at hremove hdnext hdprev
          simp only [hdnext, hdprev, Prod.mk.injEq] at hremove
          rw [← hremove.1, hstart]
          cases front <;> simp [List.getLast?_cons]
      | cons n back =>
          rw [List.head?_cons] at hremove hdnext hdprev
          simp only [hdnext, Prod.mk.injEq] at hremove
          rw [← hremove.1]
          have hc : c = ⟨c.start, c.last⟩ := rfl
          rw [hc, hstart, hlast]
          cases front <;> simp [List.getLast?_cons]
  constructor
  · exact (List.nodup_cons.mp hnodup).2
  · rw [hcontainer]
  · rw [hcontainer]
  · refine h.forward.erase h.nodup ?_ ?_
    · intro x hx
      simp [hlinks, hx]
    · intro x _ hx
      simp [hlinks, hx]
  · have hback := h.backward
    rw [reverse_split] at hback
    rw [List.reverse_append]
    refine hback.erase ?_ ?_ ?_
    · rw [← reverse_split]
      exact List.nodup_reverse.mpr h.nodup
    · intro x hx
      rw [List.getLast?_reverse] at hx
      simp [hlinks, hx]
    · intro x _ hx
      rw [List.getLast?_reverse] at hx
      simp [hlinks, hx]

omit [DecidableEq P] in
/-- A pop takes the first element and leaves `prev` of the next one alone. -/
theorem pop_eq [DecidableEq P] {d : P} (h : IsQueue c m (d :: back)) :
    listPopFromStart c m =
      (some d, ⟨back.head?, back.getLast?⟩, Function.update m d Link.empty) := by
  have hnext := @IsQueue.next_eq P c m [] back d h
  have hstart := h.start_eq
  have hlast := h.last_eq
  unfold listPopFromStart
  simp only [hstart, List.head?_cons, hnext, hlast]
  cases back with
  | nil => simp
  | cons b back => simp

/-- The element that becomes the first one keeps linking back to the popped
one. -/
theorem pop_stale {d b : P} (h : IsQueue c m (d :: b :: back))
    (hpop : listPopFromStart c m = (some d, c', m')) :
    c'.start = some b ∧ (m' b).prev = some d := by
  rw [h.pop_eq] at hpop
  simp only [Prod.mk.injEq, true_and] at hpop
  have hprev := @IsQueue.prev_eq P c m [d] back b h
  have hbd : b ≠ d := by
    rintro rfl
    have hnodup := h.nodup
    simp at hnodup
  rw [← hpop.1, ← hpop.2]
  simpa [hbd] using hprev

theorem updateAddress_links {old item : P} (h : IsQueue c m₀ (front ++ old :: back))
    (hitem : item ∉ front ++ back) (hself : m item = m₀ old)
    (hupdate : listUpdateAddress c m item = (c', m')) (q : P) :
    m' q =
      { prev := if back.head? = some q then some item else (m q).prev
        next := if front.getLast? = some q then some item else (m q).next } := by
  have hnext : (m item).next = back.head? := by rw [hself, h.next_eq]
  have hprev : (m item).prev = front.getLast? := by rw [hself, h.prev_eq]
  have hnodup := h.nodup
  rw [List.nodup_middle] at hnodup
  have hdisjoint : ∀ x ∈ front, x ∉ back := fun x hx hxb =>
    (List.nodup_append.mp (List.nodup_cons.mp hnodup).2).2.2 x hx x hxb rfl
  unfold listUpdateAddress at hupdate
  cases hb : back.head? with
  | none =>
      cases hf : front.getLast? with
      | none =>
          simp only [hnext, hprev, hf, hb, Prod.mk.injEq] at hupdate
          rw [← hupdate.2]
          simp
      | some p =>
          simp only [hnext, hprev, hf, hb, Prod.mk.injEq] at hupdate
          rw [← hupdate.2]
          by_cases hq : q = p
          · subst hq
            simp [setNext]
          · simp [setNext, hq, Ne.symm hq]
  | some n =>
      have hne : item ≠ n := by
        rintro rfl
        exact hitem (by simp [List.mem_of_head? hb])
      have hprev' : (setPrev m n (some item) item).prev = front.getLast? := by
        simp [setPrev, hne, hprev]
      simp only [hnext, hb, hprev'] at hupdate
      cases hf : front.getLast? with
      | none =>
          simp only [hf, Prod.mk.injEq] at hupdate
          rw [← hupdate.2]
          by_cases hq : q = n
          · subst hq
            simp [setPrev]
          · simp [setPrev, hq, Ne.symm hq]
      | some p =>
          simp only [hf, Prod.mk.injEq] at hupdate
          rw [← hupdate.2]
          have hpn : p ≠ n := by
            rintro rfl
            exact hdisjoint p (List.mem_of_getLast? hf) (List.mem_of_head? hb)
          by_cases hqn : q = n
          · subst hqn
            simp [setNext, setPrev, hpn, hpn.symm]
          · by_cases hqp : q = p
            · subst hqp
              simp [setNext, setPrev, hqn, Ne.symm hqn]
            · simp [setNext, setPrev, hqn, hqp, Ne.symm hqn, Ne.symm hqp]

theorem updateAddress {old item : P} (h : IsQueue c m₀ (front ++ old :: back))
    (hitem : item ∉ front ++ back) (hself : m item = m₀ old)
    (hother : ∀ x ∈ front ++ back, m x = m₀ x)
    (hupdate : listUpdateAddress c m item = (c', m')) :
    IsQueue c' m' (front ++ item :: back) := by
  have hlinks := h.updateAddress_links hitem hself hupdate
  have hnext : (m item).next = back.head? := by rw [hself, h.next_eq]
  have hprev : (m item).prev = front.getLast? := by rw [hself, h.prev_eq]
  have hlastNe : front.getLast? ≠ some item :=
    fun heq => hitem (by simp [List.mem_of_getLast? heq])
  have hheadNe : back.head? ≠ some item :=
    fun heq => hitem (by simp [List.mem_of_head? heq])
  have hcontainer : c' =
      ⟨(front ++ item :: back).head?, (front ++ item :: back).getLast?⟩ := by
    have hstart := h.start_eq
    have hlast := h.last_eq
    unfold listUpdateAddress at hupdate
    cases back with
    | nil =>
        simp only [hnext, hprev, List.head?_nil] at hupdate
        cases front with
        | nil =>
            simp only [List.getLast?_nil, Prod.mk.injEq] at hupdate
            exact hupdate.1.symm
        | cons f front =>
            rw [List.getLast?_cons] at hupdate
            simp only [Prod.mk.injEq] at hupdate
            rw [← hupdate.1, hstart]
            simp [List.getLast?_cons]
    | cons n back =>
        have hne : item ≠ n := by
          rintro rfl
          exact hheadNe rfl
        have hprev' : (setPrev m n (some item) item).prev = front.getLast? := by
          simp [setPrev, hne, hprev]
        simp only [hnext, List.head?_cons, hprev'] at hupdate
        have hc : c = ⟨c.start, c.last⟩ := rfl
        cases front with
        | nil =>
            simp only [List.getLast?_nil, Prod.mk.injEq] at hupdate
            rw [← hupdate.1, hlast]
            simp
        | cons f front =>
            rw [List.getLast?_cons] at hupdate
            simp only [Prod.mk.injEq] at hupdate
            rw [← hupdate.1, hc, hstart, hlast]
            simp [List.getLast?_cons]
  constructor
  · have hnodup := h.nodup
    rw [List.nodup_middle] at hnodup ⊢
    exact List.nodup_cons.mpr ⟨hitem, (List.nodup_cons.mp hnodup).2⟩
  · rw [hcontainer]
  · rw [hcontainer]
  · refine h.forward.replace h.nodup ?_ ?_ ?_
    · simp [hlinks, hlastNe, hself]
    · intro x hx
      simp [hlinks, hx]
    · intro x hx hxne
      simp [hlinks, hxne, hother x hx]
  · have hback := h.backward
    rw [reverse_split] at hback ⊢
    refine Seg.replace hback ?_ ?_ ?_ ?_
    · rw [← reverse_split]
      exact List.nodup_reverse.mpr h.nodup
    · simp [hlinks, hheadNe, hself]
    · intro x hx
      rw [List.getLast?_reverse] at hx
      simp [hlinks, hx]
    · intro x hx hxne
      rw [List.getLast?_reverse] at hxne
      simp [hlinks, hxne, hother x (by simpa [or_comm] using hx)]

end IsQueue

end Cenix.LinkedLists
