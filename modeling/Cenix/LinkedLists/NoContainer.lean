import Cenix.LinkedLists.Segment

namespace Cenix.LinkedLists

/-! Linked lists whose container is stored in every element. -/

/-- The links one element of a container-less list stores.  `last` is the field
the source calls `end`. -/
structure Links (P : Type) where
  start : Option P
  last : Option P
  prev : Option P
  next : Option P
  deriving DecidableEq, Repr

def Links.empty : Links P := ⟨none, none, none, none⟩

variable {P : Type} [DecidableEq P]

/-- Writes to the links of one element. -/
def modify (m : P → Links P) (p : P) (change : Links P → Links P) : P → Links P :=
  Function.update m p (change (m p))

@[simp] theorem modify_self (m : P → Links P) (p : P) (change : Links P → Links P) :
    modify m p change p = change (m p) := by
  simp [modify]

@[simp] theorem modify_of_ne (m : P → Links P) {p q : P}
    (change : Links P → Links P) (h : q ≠ p) : modify m p change q = m q := by
  simp [modify, h]

/-- The loops of the list macros: visit every element from `link` on along
`step` and change its links.  `none` when more than `fuel` elements follow. -/
def updateAlong (step : Links P → Option P) (change : Links P → Links P) :
    Nat → (P → Links P) → Option P → Option (P → Links P)
  | _, m, none => some m
  | 0, _, some _ => none
  | fuel + 1, m, some link =>
      let m := modify m link change
      updateAlong step change fuel m (step (m link))

def setStarts (fuel : Nat) (start : P) (m : P → Links P) (link : Option P) :
    Option (P → Links P) :=
  updateAlong (·.next) (fun l => { l with start := some start }) fuel m link

def setLasts (fuel : Nat) (last : P) (m : P → Links P) (link : Option P) :
    Option (P → Links P) :=
  updateAlong (·.prev) (fun l => { l with last := some last }) fuel m link

def listInitNoContainer (m : P → Links P) (container : P) : P → Links P :=
  modify m container fun _ => ⟨some container, some container, none, none⟩

/-- `none` when the macro would follow a null pointer. -/
def listInsertNoContainer (m : P → Links P) (container item : P) :
    Option (P → Links P) :=
  if (m container).start = (m container).last then
    let m := modify m container fun l => { l with last := some item }
    let m := modify m item fun l =>
      { l with start := some container, last := some item }
    let m := modify m container fun l => { l with next := some item }
    some (modify m item fun l => { l with prev := some container, next := none })
  else do
    let m := modify m item fun l =>
      { l with start := (m container).start, last := (m container).last }
    let last ← (m container).last
    let prev ← (m last).prev
    let m := modify m prev fun l => { l with next := some item }
    let m := modify m item fun l => { l with prev := some prev }
    some (modify m item fun l => { l with next := (m container).last })

/-- The first half of the address update: the neighbours of `item` link to it. -/
def relinkNeighbours (m : P → Links P) (item : P) : P → Links P :=
  let m := match (m item).prev with
    | some prev => modify m prev fun l => { l with next := some item }
    | none => m
  match (m item).next with
  | some next => modify m next fun l => { l with prev := some item }
  | none => m

/-- Its second half: an `item` at an end of the list becomes that end in every
element. -/
def relinkEnds (fuel : Nat) (m : P → Links P) (item : P) : Option (P → Links P) :=
  (if (m item).prev = none then setStarts fuel item m (some item) else some m).bind
    fun m =>
      if (m item).next = none then setLasts fuel item m (some item) else some m

def listUpdateAddressNoContainer (fuel : Nat) (m : P → Links P) (item : P) :
    Option (P → Links P) :=
  relinkEnds fuel (relinkNeighbours m item) item

def listDeleteNoContainer (fuel : Nat) (m : P → Links P) (item : P) :
    Option (P → Links P) :=
  match (m item).prev, (m item).next with
  | some prev, some next =>
      let m := modify m prev fun l => { l with next := some next }
      some (modify m next fun l => { l with prev := some prev })
  | none, some start =>
      let m := modify m start fun l => { l with prev := none }
      setStarts fuel start m (some start)
  | some last, none =>
      let m := modify m last fun l => { l with next := none }
      setLasts fuel last m (some last)
  | none, none => some m

/-! Well-formed lists. -/

omit [DecidableEq P] in
private theorem reverse_split (front back : List P) (d : P) :
    (front ++ d :: back).reverse = back.reverse ++ d :: front.reverse := by
  simp

/-- `xs` is a doubly linked list of which every element knows both ends. -/
structure DList (m : P → Links P) (xs : List P) : Prop where
  nodup : xs.Nodup
  forward : Seg (fun p => (m p).next) xs none
  backward : Seg (fun p => (m p).prev) xs.reverse none
  start_eq : ∀ p ∈ xs, (m p).start = xs.head?
  last_eq : ∀ p ∈ xs, (m p).last = xs.getLast?

omit [DecidableEq P] in
theorem DList.congr {m m' : P → Links P} {xs : List P} (h : DList m xs)
    (hm : ∀ p ∈ xs, m' p = m p) : DList m' xs where
  nodup := h.nodup
  forward := h.forward.congr fun p hp => by rw [hm p hp]
  backward := h.backward.congr fun p hp => by rw [hm p (List.mem_reverse.mp hp)]
  start_eq p hp := by rw [hm p hp, h.start_eq p hp]
  last_eq p hp := by rw [hm p hp, h.last_eq p hp]

omit [DecidableEq P] in
theorem DList.next_eq {m : P → Links P} {front back : List P} {d : P}
    (h : DList m (front ++ d :: back)) : (m d).next = back.head? :=
  h.forward.of_split

omit [DecidableEq P] in
theorem DList.prev_eq {m : P → Links P} {front back : List P} {d : P}
    (h : DList m (front ++ d :: back)) : (m d).prev = front.getLast? := by
  have hback := h.backward
  rw [reverse_split] at hback
  simpa using Seg.of_split hback

omit [DecidableEq P] in
theorem dlist_singleton {m : P → Links P} {p : P} :
    DList m [p] ↔ m p = ⟨some p, some p, none, none⟩ := by
  constructor
  · intro h
    have hstart := h.start_eq p (by simp)
    have hlast := h.last_eq p (by simp)
    have hprev := @DList.prev_eq P m [] [] p h
    have hnext := @DList.next_eq P m [] [] p h
    cases hm : m p
    simp_all
  · intro h
    constructor <;> simp [h]

/-- What a loop over a well-formed run does: it changes exactly its elements. -/
theorem updateAlong_eq {step : Links P → Option P} {change : Links P → Links P}
    (hstep : ∀ l, step (change l) = step l) {xs : List P} {m : P → Links P}
    (hseg : Seg (fun p => step (m p)) xs none) (hnodup : xs.Nodup) (fuel : Nat) :
    updateAlong step change fuel m xs.head? =
      if xs.length ≤ fuel then
        some fun q => if q ∈ xs then change (m q) else m q
      else
        none := by
  induction xs generalizing m fuel with
  | nil => simp [updateAlong]
  | cons x xs ih =>
      obtain ⟨hx, hnodup⟩ := List.nodup_cons.mp hnodup
      cases fuel with
      | zero => simp [updateAlong]
      | succ fuel =>
          have hnext : step (modify m x change x) = xs.head? := by
            simpa [hstep] using hseg.1
          have hrest : Seg (fun p => step (modify m x change p)) xs none := by
            refine hseg.2.congr fun p hp => ?_
            rw [modify_of_ne]
            exact fun heq => hx (heq ▸ hp)
          simp only [updateAlong, List.head?_cons, hnext, ih hrest hnodup fuel,
            List.length_cons, Nat.add_le_add_iff_right]
          refine if_congr Iff.rfl (congrArg some ?_) rfl
          funext q
          by_cases hq : q = x
          · subst hq
            simp [hx]
          · simp [hq]

theorem updateAlong_some {step : Links P → Option P} {change : Links P → Links P}
    (hstep : ∀ l, step (change l) = step l) {xs : List P} {m m' : P → Links P}
    (hseg : Seg (fun p => step (m p)) xs none) (hnodup : xs.Nodup) {fuel : Nat}
    {p : Option P} (hp : xs.head? = p)
    (h : updateAlong step change fuel m p = some m') (q : P) :
    m' q = if q ∈ xs then change (m q) else m q := by
  rw [← hp, updateAlong_eq hstep hseg hnodup] at h
  split at h
  · cases h
    rfl
  · contradiction

theorem updateAlong_returns {step : Links P → Option P} {change : Links P → Links P}
    (hstep : ∀ l, step (change l) = step l) {xs : List P} {m : P → Links P}
    (hseg : Seg (fun p => step (m p)) xs none) (hnodup : xs.Nodup) {fuel : Nat}
    {p : Option P} (hp : xs.head? = p) (hfuel : xs.length ≤ fuel) :
    ∃ m', updateAlong step change fuel m p = some m' := by
  rw [← hp]
  exact ⟨_, (updateAlong_eq hstep hseg hnodup fuel).trans (if_pos hfuel)⟩

theorem setStarts_some {m m' : P → Links P} {xs : List P} {start : P} {fuel : Nat}
    {p : Option P} (hseg : Seg (fun p => (m p).next) xs none) (hnodup : xs.Nodup)
    (hp : xs.head? = p) (h : setStarts fuel start m p = some m') (q : P) :
    m' q = if q ∈ xs then { m q with start := some start } else m q := by
  unfold setStarts at h
  refine updateAlong_some ?_ hseg hnodup hp h q
  intro l
  rfl

theorem setLasts_some {m m' : P → Links P} {xs : List P} {last : P} {fuel : Nat}
    {p : Option P} (hseg : Seg (fun p => (m p).prev) xs none) (hnodup : xs.Nodup)
    (hp : xs.head? = p) (h : setLasts fuel last m p = some m') (q : P) :
    m' q = if q ∈ xs then { m q with last := some last } else m q := by
  unfold setLasts at h
  refine updateAlong_some ?_ hseg hnodup hp h q
  intro l
  rfl

/-- A deletion rewrites the links around the deleted element, and the end
stored in the others when the element was at that end. -/
theorem listDeleteNoContainer_some {m m' : P → Links P} {front back : List P}
    {d : P} {fuel : Nat} (h : DList m (front ++ d :: back))
    (hdelete : listDeleteNoContainer fuel m d = some m') (q : P) :
    m' q =
      { start := if front = [] ∧ q ∈ back then back.head? else (m q).start
        last := if back = [] ∧ q ∈ front then front.getLast? else (m q).last
        prev := if back.head? = some q then front.getLast? else (m q).prev
        next := if front.getLast? = some q then back.head? else (m q).next } := by
  have hnext := h.next_eq
  have hprev := h.prev_eq
  have hnodup := h.nodup
  have hforward := ((seg_append _ _ _ _).mp h.forward).2.2
  have hbackward : Seg (fun p => (m p).prev) front.reverse none := by
    have hback := h.backward
    rw [reverse_split] at hback
    exact ((seg_append _ _ _ _).mp hback).2.2
  rcases List.eq_nil_or_concat' front with rfl | ⟨front, p, rfl⟩
  · cases back with
    | nil =>
        simp only [listDeleteNoContainer, hprev, hnext, List.getLast?_nil,
          List.head?_nil, Option.some.injEq] at hdelete
        subst hdelete
        simp
    | cons n back =>
        simp only [listDeleteNoContainer, hprev, hnext, List.getLast?_nil,
          List.head?_cons] at hdelete
        have hback : (n :: back).Nodup := by simpa using (List.nodup_cons.mp hnodup).2
        have hseg : Seg (fun p => (modify m n (fun l => { l with prev := none }) p).next)
            (n :: back) none := by
          refine hforward.congr fun x _ => ?_
          by_cases hx : x = n
          · subst hx
            simp
          · simp [hx]
        rw [setStarts_some hseg hback rfl hdelete q]
        by_cases hq : q = n
        · subst hq
          simp
        · by_cases hmem : q ∈ back
          · simp [hq, hmem, Ne.symm hq]
          · simp [hq, hmem, Ne.symm hq]
  · cases back with
    | nil =>
        simp only [listDeleteNoContainer, hprev, hnext, List.getLast?_concat,
          List.head?_nil] at hdelete
        have hfront : (front ++ [p]).reverse.Nodup :=
          List.nodup_reverse.mpr hnodup.of_append_left
        have hseg : Seg (fun q => (modify m p (fun l => { l with next := none }) q).prev)
            (front ++ [p]).reverse none := by
          refine hbackward.congr fun x _ => ?_
          by_cases hx : x = p
          · subst hx
            simp
          · simp [hx]
        rw [setLasts_some hseg hfront (by simp) hdelete q]
        by_cases hq : q = p
        · subst hq
          simp
        · by_cases hmem : q ∈ front
          · simp [hq, hmem, Ne.symm hq]
          · simp [hq, hmem, Ne.symm hq]
    | cons n back =>
        simp only [listDeleteNoContainer, hprev, hnext, List.getLast?_concat,
          List.head?_cons, Option.some.injEq] at hdelete
        subst hdelete
        have hpn : p ≠ n := by
          rintro rfl
          simp [List.nodup_append] at hnodup
        by_cases hqn : q = n
        · subst hqn
          simp [hpn, Ne.symm hpn]
        · by_cases hqp : q = p
          · subst hqp
            simp [hqn, Ne.symm hqn]
          · simp [hqn, hqp, Ne.symm hqn, Ne.symm hqp]

theorem DList.delete {m m' : P → Links P} {front back : List P} {d : P} {fuel : Nat}
    (h : DList m (front ++ d :: back))
    (hdelete : listDeleteNoContainer fuel m d = some m') : DList m' (front ++ back) where
  nodup := h.nodup.sublist (by simp)
  forward := by
    refine h.forward.erase h.nodup ?_ ?_
    · intro x hx
      simp [listDeleteNoContainer_some h hdelete x, hx]
    · intro x _ hx
      simp [listDeleteNoContainer_some h hdelete x, hx]
  backward := by
    have hback := h.backward
    rw [reverse_split] at hback
    rw [List.reverse_append]
    refine hback.erase ?_ ?_ ?_
    · rw [← reverse_split]
      exact List.nodup_reverse.mpr h.nodup
    · intro x hx
      rw [List.getLast?_reverse] at hx
      simp [listDeleteNoContainer_some h hdelete x, hx]
    · intro x _ hx
      rw [List.getLast?_reverse] at hx
      simp [listDeleteNoContainer_some h hdelete x, hx]
  start_eq p hp := by
    rw [listDeleteNoContainer_some h hdelete p]
    cases front with
    | nil =>
        have hback : p ∈ back := by simpa using hp
        simp [hback]
    | cons f front =>
        have hmem : p ∈ f :: front ++ d :: back := by
          rw [List.mem_append] at hp ⊢
          exact hp.imp_right (List.mem_cons_of_mem d)
        simp [h.start_eq p hmem]
  last_eq p hp := by
    rw [listDeleteNoContainer_some h hdelete p]
    cases back with
    | nil =>
        have hfront : p ∈ front := by simpa using hp
        simp [hfront]
    | cons b back =>
        have hmem : p ∈ front ++ d :: b :: back := by
          rw [List.mem_append] at hp ⊢
          exact hp.imp_right (List.mem_cons_of_mem d)
        simp [h.last_eq p hmem, List.getLast?_append]

/-- A deletion ends when its loop can visit the rest of the list. -/
theorem listDeleteNoContainer_returns {m : P → Links P} {front back : List P} {d : P}
    {fuel : Nat} (h : DList m (front ++ d :: back))
    (hfuel : front.length + back.length ≤ fuel) :
    ∃ m', listDeleteNoContainer fuel m d = some m' := by
  have hforward := ((seg_append _ _ _ _).mp h.forward).2.2
  have hbackward : Seg (fun p => (m p).prev) front.reverse none := by
    have hback := h.backward
    rw [reverse_split] at hback
    exact ((seg_append _ _ _ _).mp hback).2.2
  have hnodup := (List.nodup_cons.mp (List.nodup_middle.mp h.nodup)).2
  unfold listDeleteNoContainer
  rw [h.prev_eq, h.next_eq]
  rcases List.eq_nil_or_concat' front with rfl | ⟨front, p, rfl⟩
  · cases back with
    | nil => simp
    | cons n back =>
        have hseg : Seg (fun p => (modify m n (fun l => { l with prev := none }) p).next)
            (n :: back) none := by
          refine hforward.congr fun x _ => ?_
          by_cases hx : x = n
          · subst hx
            simp
          · simp [hx]
        refine updateAlong_returns ?_ hseg (by simpa using hnodup) rfl (by simpa using hfuel)
        intro l
        rfl
  · cases back with
    | nil =>
        have hseg : Seg (fun q => (modify m p (fun l => { l with next := none }) q).prev)
            (front ++ [p]).reverse none := by
          refine hbackward.congr fun x _ => ?_
          by_cases hx : x = p
          · subst hx
            simp
          · simp [hx]
        simp only [List.getLast?_concat, List.head?_nil]
        refine updateAlong_returns ?_ hseg (List.nodup_reverse.mpr (by simpa using hnodup))
          (by simp) (by simpa using hfuel)
        intro l
        rfl
    | cons n back => simp

/-- A deletion leaves every element outside the list alone, the deleted one
included. -/
theorem listDeleteNoContainer_frame {m m' : P → Links P} {front back : List P}
    {d q : P} {fuel : Nat} (h : DList m (front ++ d :: back))
    (hdelete : listDeleteNoContainer fuel m d = some m') (hq : q ∉ front ++ back) :
    m' q = m q := by
  have hfront : q ∉ front := fun hmem => hq (by simp [hmem])
  have hback : q ∉ back := fun hmem => hq (by simp [hmem])
  have hlast : front.getLast? ≠ some q := fun heq => hfront (List.mem_of_getLast? heq)
  have hhead : back.head? ≠ some q := fun heq => hback (List.mem_of_head? heq)
  simp [listDeleteNoContainer_some h hdelete q, hfront, hback, hlast, hhead]

theorem relinkNeighbours_eq (m : P → Links P) {item : P}
    (hprev : (m item).prev ≠ some item) (q : P) :
    relinkNeighbours m item q =
      { m q with
        prev := if (m item).next = some q then some item else (m q).prev
        next := if (m item).prev = some q then some item else (m q).next } := by
  unfold relinkNeighbours
  cases hp : (m item).prev with
  | none =>
      cases hn : (m item).next with
      | none => simp
      | some n =>
          by_cases hq : q = n
          · subst hq
            simp
          · simp [hq, Ne.symm hq]
  | some p =>
      have hip : item ≠ p := by
        rintro rfl
        exact hprev hp
      cases hn : (m item).next with
      | none =>
          by_cases hq : q = p
          · subst hq
            simp [hn, hip]
          · simp [hn, hip, hq, Ne.symm hq]
      | some n =>
          by_cases hqn : q = n
          · subst hqn
            by_cases hqp : q = p
            · subst hqp
              simp [hn, hip]
            · simp [hn, hip, hqp, Ne.symm hqp]
          · by_cases hqp : q = p
            · subst hqp
              simp [hn, hip, hqn, Ne.symm hqn]
            · simp [hn, hip, hqn, hqp, Ne.symm hqn, Ne.symm hqp]

/-- The runs from the copy `item` of `old` once its neighbours link to it. -/
theorem relinkNeighbours_segs {m m₀ : P → Links P} {front back : List P} {old item : P}
    (h : DList m₀ (front ++ old :: back)) (hitem : item ∉ front ++ back)
    (hself : m item = m₀ old) (hother : ∀ x ∈ front ++ back, m x = m₀ x) :
    Seg (fun p => (relinkNeighbours m item p).next) (item :: back) none ∧
      Seg (fun p => (relinkNeighbours m item p).prev) (item :: front.reverse) none := by
  have hnext : (m item).next = back.head? := by rw [hself, h.next_eq]
  have hprev : (m item).prev = front.getLast? := by rw [hself, h.prev_eq]
  have hdisjoint : ∀ x ∈ front, x ∉ back := by
    intro x hx hxb
    exact (List.nodup_append.mp h.nodup).2.2 x hx x (by simp [hxb]) rfl
  have hlastNe : front.getLast? ≠ some item :=
    fun heq => hitem (List.mem_append_left _ (List.mem_of_getLast? heq))
  have hheadNe : back.head? ≠ some item :=
    fun heq => hitem (List.mem_append_right _ (List.mem_of_head? heq))
  have hrelink := relinkNeighbours_eq m (by rw [hprev]; exact hlastNe)
  rw [hnext, hprev] at hrelink
  constructor
  · refine ⟨by simp [hrelink, hlastNe, hnext], ?_⟩
    refine ((seg_append _ _ _ _).mp h.forward).2.2.congr fun x hx => ?_
    have hxne : front.getLast? ≠ some x :=
      fun heq => hdisjoint x (List.mem_of_getLast? heq) hx
    simp [hrelink, hxne, hother x (by simp [hx])]
  · refine ⟨by simp [hrelink, hheadNe, hprev], ?_⟩
    have hold := h.backward
    rw [reverse_split] at hold
    refine ((seg_append _ _ _ _).mp hold).2.2.congr fun x hx => ?_
    have hxf : x ∈ front := List.mem_reverse.mp hx
    have hxne : back.head? ≠ some x :=
      fun heq => hdisjoint x hxf (List.mem_of_head? heq)
    simp [hrelink, hxne, hother x (by simp [hxf])]

/-- An address update makes the neighbours and the ends of the list point to the
copy `item` of the element `old`. -/
theorem listUpdateAddressNoContainer_some {m m₀ m' : P → Links P}
    {front back : List P} {old item : P} {fuel : Nat}
    (h : DList m₀ (front ++ old :: back)) (hitem : item ∉ front ++ back)
    (hself : m item = m₀ old) (hother : ∀ x ∈ front ++ back, m x = m₀ x)
    (hupdate : listUpdateAddressNoContainer fuel m item = some m') (q : P) :
    m' q =
      { start := if front = [] ∧ q ∈ item :: back then some item else (m q).start
        last := if back = [] ∧ q ∈ item :: front then some item else (m q).last
        prev := if back.head? = some q then some item else (m q).prev
        next := if front.getLast? = some q then some item else (m q).next } := by
  have hnext : (m item).next = back.head? := by rw [hself, h.next_eq]
  have hprev : (m item).prev = front.getLast? := by rw [hself, h.prev_eq]
  have hitemFront : item ∉ front := fun hmem => hitem (by simp [hmem])
  have hitemBack : item ∉ back := fun hmem => hitem (by simp [hmem])
  have hfront : front.Nodup := h.nodup.of_append_left
  have hback : back.Nodup := (List.nodup_cons.mp h.nodup.of_append_right).2
  have hdisjoint : ∀ x ∈ front, x ∉ back := by
    intro x hx hxb
    exact (List.nodup_append.mp h.nodup).2.2 x hx x (by simp [hxb]) rfl
  have hlastNe : front.getLast? ≠ some item :=
    fun heq => hitemFront (List.mem_of_getLast? heq)
  have hheadNe : back.head? ≠ some item :=
    fun heq => hitemBack (List.mem_of_head? heq)
  have hlink : (m item).prev ≠ some item := by
    rw [hprev]
    exact hlastNe
  have hrelink := relinkNeighbours_eq m hlink
  rw [hnext, hprev] at hrelink
  generalize hm₁ : relinkNeighbours m item = m₁ at hrelink
  -- the second loop runs backwards through `front`, whatever the first one did
  obtain ⟨hforward, hbackward⟩ := relinkNeighbours_segs h hitem hself hother
  rw [hm₁] at hforward hbackward
  rw [listUpdateAddressNoContainer, relinkEnds, hm₁, Option.bind_eq_some_iff] at hupdate
  obtain ⟨m₂, hstarts, hlasts⟩ := hupdate
  have hm₂ : ∀ x, m₂ x =
      { m₁ x with
        start := if front = [] ∧ x ∈ item :: back then some item else (m₁ x).start } := by
    intro x
    have hitemPrev : (m₁ item).prev = front.getLast? := by simp [hrelink, hheadNe, hprev]
    by_cases hf : front = []
    · rw [hitemPrev, if_pos (by simp [hf])] at hstarts
      rw [setStarts_some hforward (List.nodup_cons.mpr ⟨hitemBack, hback⟩) rfl hstarts x]
      by_cases hx : x ∈ item :: back <;> simp [hf, hx]
    · rw [hitemPrev, if_neg (by simp [hf])] at hstarts
      cases hstarts
      simp [hf]
  have hbackward₂ : Seg (fun p => (m₂ p).prev) (item :: front.reverse) none :=
    hbackward.congr fun x _ => by simp [hm₂]
  have hitemNext : (m₂ item).next = back.head? := by
    simp [hm₂, hrelink, hlastNe, hnext]
  have hnodup : (item :: front.reverse).Nodup := by simp [hitemFront, hfront]
  by_cases hb : back = []
  · rw [hitemNext, if_pos (by simp [hb])] at hlasts
    rw [setLasts_some hbackward₂ hnodup rfl hlasts q]
    by_cases hq : q ∈ item :: front
    · have hq' : q ∈ item :: front.reverse := by simpa using hq
      simp [hq, hq', hm₂, hrelink, hb]
    · have hq' : q ∉ item :: front.reverse := by simpa using hq
      simp [hq, hq', hm₂, hrelink, hb]
  · rw [hitemNext, if_neg (by simp [hb])] at hlasts
    cases hlasts
    simp [hm₂, hrelink, hb]

theorem DList.updateAddress {m m₀ m' : P → Links P} {front back : List P}
    {old item : P} {fuel : Nat}
    (h : DList m₀ (front ++ old :: back)) (hitem : item ∉ front ++ back)
    (hself : m item = m₀ old) (hother : ∀ x ∈ front ++ back, m x = m₀ x)
    (hupdate : listUpdateAddressNoContainer fuel m item = some m') :
    DList m' (front ++ item :: back) := by
  have hlinks := listUpdateAddressNoContainer_some h hitem hself hother hupdate
  have hlastNe : front.getLast? ≠ some item :=
    fun heq => hitem (by simp [List.mem_of_getLast? heq])
  have hheadNe : back.head? ≠ some item :=
    fun heq => hitem (by simp [List.mem_of_head? heq])
  constructor
  · have hnodup := h.nodup
    rw [List.nodup_middle] at hnodup ⊢
    exact List.nodup_cons.mpr ⟨hitem, (List.nodup_cons.mp hnodup).2⟩
  · refine h.forward.replace h.nodup ?_ ?_ ?_
    · simp [hlinks, hlastNe, hself]
    · intro x hx
      simp [hlinks, hx]
    · intro x hx hxne
      simp [hlinks, hxne, hother x hx]
  · have hback := h.backward
    rw [reverse_split] at hback ⊢
    refine Seg.replace hback ?_ ?_ ?_ ?_
    · rw [← reverse_split]
      exact List.nodup_reverse.mpr h.nodup
    · simp [hlinks, hheadNe, hself]
    · intro x hx
      rw [List.getLast?_reverse] at hx
      simp [hlinks, hx]
    · intro x hx hxne
      rw [List.getLast?_reverse] at hxne
      simp [hlinks, hxne, hother x (by simpa [or_comm] using hx)]
  · intro x hx
    rw [hlinks x]
    by_cases hf : front = []
    · have hx' : x ∈ item :: back := by simpa [hf] using hx
      simp [hf, hx']
    · have hold : (m x).start = (front ++ old :: back).head? := by
        by_cases hxi : x = item
        · rw [hxi, hself]
          exact h.start_eq old (by simp)
        · have hmem : x ∈ front ++ back := by
            simpa [hxi] using hx
          rw [hother x hmem]
          exact h.start_eq x (by
            rw [List.mem_append] at hmem ⊢
            exact hmem.imp_right (List.mem_cons_of_mem old))
      cases front with
      | nil => exact absurd rfl hf
      | cons f front => simpa using hold
  · intro x hx
    rw [hlinks x]
    by_cases hb : back = []
    · have hx' : x ∈ item :: front := by
        simpa [hb, or_comm] using hx
      simp [hb, hx']
    · have hold : (m x).last = (front ++ old :: back).getLast? := by
        by_cases hxi : x = item
        · rw [hxi, hself]
          exact h.last_eq old (by simp)
        · have hmem : x ∈ front ++ back := by
            simpa [hxi] using hx
          rw [hother x hmem]
          exact h.last_eq x (by
            rw [List.mem_append] at hmem ⊢
            exact hmem.imp_right (List.mem_cons_of_mem old))
      cases back with
      | nil => exact absurd rfl hb
      | cons b back => simpa [List.getLast?_append] using hold

theorem listUpdateAddressNoContainer_frame {m m₀ m' : P → Links P}
    {front back : List P} {old item q : P} {fuel : Nat}
    (h : DList m₀ (front ++ old :: back)) (hitem : item ∉ front ++ back)
    (hself : m item = m₀ old) (hother : ∀ x ∈ front ++ back, m x = m₀ x)
    (hupdate : listUpdateAddressNoContainer fuel m item = some m')
    (hq : q ∉ front ++ item :: back) : m' q = m q := by
  have hqItem : q ≠ item := fun heq => hq (by simp [heq])
  have hqFront : q ∉ front := fun hmem => hq (by simp [hmem])
  have hqBack : q ∉ back := fun hmem => hq (by simp [hmem])
  have hlast : front.getLast? ≠ some q := fun heq => hqFront (List.mem_of_getLast? heq)
  have hhead : back.head? ≠ some q := fun heq => hqBack (List.mem_of_head? heq)
  rw [listUpdateAddressNoContainer_some h hitem hself hother hupdate q]
  simp [hqItem, hqFront, hqBack, hlast, hhead]

omit [DecidableEq P] in
/-- In a well-formed list `prev` undoes `next`. -/
theorem DList.prev_of_next {m : P → Links P} {xs : List P} (h : DList m xs)
    {p q : P} (hp : p ∈ xs) (hnext : (m p).next = some q) :
    q ∈ xs ∧ (m q).prev = some p := by
  obtain ⟨front, back, rfl⟩ := List.append_of_mem hp
  rw [h.next_eq] at hnext
  obtain ⟨back, rfl⟩ := List.head?_eq_some_iff.mp hnext
  refine ⟨by simp, ?_⟩
  rw [List.append_cons] at h
  rw [h.prev_eq, List.getLast?_concat]

omit [DecidableEq P] in
theorem DList.start_eq_last_iff {m : P → Links P} {xs : List P} (h : DList m xs)
    {p : P} (hp : p ∈ xs) : (m p).start = (m p).last ↔ xs = [p] := by
  rw [h.start_eq p hp, h.last_eq p hp]
  constructor
  · intro hends
    match xs, h.nodup, hp, hends with
    | [x], _, hp, _ => simpa using (List.mem_singleton.mp hp).symm
    | x :: y :: ys, hnodup, _, hends =>
        rw [List.head?_cons, List.getLast?_cons_cons] at hends
        exact absurd (List.mem_of_getLast? hends.symm) (List.nodup_cons.mp hnodup).1
  · rintro rfl
    rfl

/-- The single-element branch of the insertion. -/
theorem listInsertNoContainer_single {m m' : P → Links P} {container item : P}
    (hcontainer : m container = ⟨some container, some container, none, none⟩)
    (hne : item ≠ container)
    (hinsert : listInsertNoContainer m container item = some m') (q : P) :
    m' q =
      if q = container then ⟨some container, some item, none, some item⟩
      else if q = item then ⟨some container, some item, some container, none⟩
      else m q := by
  rw [listInsertNoContainer, if_pos (by simp [hcontainer]), Option.some.injEq] at hinsert
  subst hinsert
  by_cases hqc : q = container
  · subst hqc
    simp [hcontainer, Ne.symm hne]
  · by_cases hqi : q = item
    · subst hqi
      simp [hqc]
    · simp [hqc, hqi]

theorem DList.insert_single {m m₀ m' : P → Links P} {container item : P}
    (h : DList m₀ [container]) (hne : item ≠ container)
    (hother : ∀ x, x ≠ item → m x = m₀ x)
    (hinsert : listInsertNoContainer m container item = some m') :
    DList m' [container, item] := by
  have hcontainer : m container = ⟨some container, some container, none, none⟩ := by
    rw [hother container hne.symm]
    exact dlist_singleton.mp h
  have hlinks := listInsertNoContainer_single hcontainer hne hinsert
  constructor <;> simp [hlinks, hne, hne.symm]

/-- The other branch leaves `prev` of the last element as it was, so that the
new element's successor does not link back to it. -/
theorem listInsertNoContainer_multi {m m₀ m' : P → Links P} {front : List P}
    {container item prev last : P} (h : DList m₀ (front ++ [prev, last]))
    (hcontainer : container ∈ front ++ [prev, last])
    (hitem : item ∉ front ++ [prev, last])
    (hother : ∀ x, x ≠ item → m x = m₀ x)
    (hinsert : listInsertNoContainer m container item = some m') :
    (m' item).next = some last ∧ (m' last).prev = some prev ∧ prev ≠ item := by
  have hsingle : front ++ [prev, last] ≠ [container] := by
    intro heq
    have hlength := congrArg List.length heq
    simp at hlength
  have hne : ∀ x ∈ front ++ [prev, last], x ≠ item := by
    rintro x hx rfl
    exact hitem hx
  have hstart : (m container).start ≠ (m container).last := by
    rw [hother _ (hne _ hcontainer)]
    exact fun heq => hsingle ((h.start_eq_last_iff hcontainer).mp heq)
  have hlast : (m container).last = some last := by
    rw [hother _ (hne _ hcontainer), h.last_eq _ hcontainer]
    simp
  have hprev : (m last).prev = some prev := by
    rw [hother last (hne last (by simp))]
    have hsplit : DList m₀ ((front ++ [prev]) ++ last :: []) := by simpa using h
    rw [hsplit.prev_eq, List.getLast?_concat]
  have hcontainerNe : container ≠ item := hne _ hcontainer
  have hlastNe : last ≠ item := hne last (by simp)
  have hprevNe : prev ≠ item := hne prev (by simp)
  have hprevLast : prev ≠ last := by
    have hnodup := h.nodup.of_append_right
    simp at hnodup
    exact hnodup
  rw [listInsertNoContainer, if_neg hstart] at hinsert
  simp only [Option.bind_eq_bind, modify_of_ne _ _ hcontainerNe, hlast,
    Option.bind_some, modify_of_ne _ _ hlastNe, hprev, Option.some.injEq] at hinsert
  subst hinsert
  refine ⟨?_, ?_, hprevNe⟩
  · by_cases hcp : container = prev
    · subst hcp
      simp [hcontainerNe, hlast]
    · simp [hcontainerNe, hcp, hlast]
  · simp [hlastNe, hprevLast.symm, hprev]

/-- Hence it never leaves a well-formed list behind. -/
theorem listInsertNoContainer_multi_broken {m m₀ m' : P → Links P} {xs ys : List P}
    {container item : P} (h : DList m₀ xs) (hcontainer : container ∈ xs)
    (hmany : xs ≠ [container]) (hitem : item ∉ xs)
    (hother : ∀ x, x ≠ item → m x = m₀ x)
    (hinsert : listInsertNoContainer m container item = some m')
    (hys : item ∈ ys) : ¬ DList m' ys := by
  obtain ⟨front, prev, last, rfl⟩ : ∃ front prev last, xs = front ++ [prev, last] := by
    rcases List.eq_nil_or_concat' xs with rfl | ⟨xs, last, rfl⟩
    · simp at hcontainer
    · rcases List.eq_nil_or_concat' xs with rfl | ⟨front, prev, rfl⟩
      · have heq : container = last := by simpa using hcontainer
        exact absurd (by simp [heq]) hmany
      · exact ⟨front, prev, last, by simp⟩
  intro hbad
  obtain ⟨hnext, hprev, hne⟩ :=
    listInsertNoContainer_multi h hcontainer hitem hother hinsert
  have hback := (hbad.prev_of_next hys hnext).2
  rw [hprev, Option.some.injEq] at hback
  exact hne hback

end Cenix.LinkedLists
