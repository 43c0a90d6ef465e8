import Cenix.LinkedLists.Families

namespace Cenix.LinkedLists

/-! Lists whose elements get other names. -/

variable {P : Type}

/-- Runs of a successor function between the new names. -/
theorem Seg.map {f g : P → Option P} {ρ : P → P} {xs : List P} {e : Option P}
    (h : Seg f xs e) (hg : ∀ p ∈ xs, g (ρ p) = (f p).map ρ) :
    Seg g (xs.map ρ) (e.map ρ) := by
  induction xs with
  | nil => trivial
  | cons x xs ih =>
      refine ⟨?_, ih h.2 fun p hp => hg p (List.mem_cons_of_mem x hp)⟩
      rw [hg x List.mem_cons_self, h.1, List.head?_map]
      cases xs.head? with
      | none => simp
      | some y => simp

def Links.map (ρ : P → P) (l : Links P) : Links P where
  start := l.start.map ρ
  last := l.last.map ρ
  prev := l.prev.map ρ
  next := l.next.map ρ

variable {m m' m₀ : P → Links P} {xs ys front back : List P} {ρ : P → P} {p q old item : P}

theorem DList.map (h : DList m xs) (hinj : ∀ p ∈ xs, ∀ q ∈ xs, ρ p = ρ q → p = q)
    (hm : ∀ p ∈ xs, m' (ρ p) = (m p).map ρ) : DList m' (xs.map ρ) := by
  constructor
  · exact h.nodup.map_on hinj
  · exact h.forward.map fun p hp => by rw [hm p hp]; rfl
  · rw [← List.map_reverse]
    exact h.backward.map fun p hp => by rw [hm p (List.mem_reverse.mp hp)]; rfl
  · intro q hq
    obtain ⟨p, hp, rfl⟩ := List.mem_map.mp hq
    rw [hm p hp, List.head?_map, ← h.start_eq p hp]
    rfl
  · intro q hq
    obtain ⟨p, hp, rfl⟩ := List.mem_map.mp hq
    rw [hm p hp, List.getLast?_map, ← h.last_eq p hp]
    rfl

/-- The links of an element name elements of its list. -/
theorem DList.links_mem (h : DList m xs) (hp : p ∈ xs)
    (hq : (m p).start = some q ∨ (m p).last = some q ∨ (m p).prev = some q ∨
      (m p).next = some q) : q ∈ xs := by
  obtain ⟨front, back, rfl⟩ := List.append_of_mem hp
  rw [h.start_eq p hp, h.last_eq p hp, h.prev_eq, h.next_eq] at hq
  rcases hq with hq | hq | hq | hq
  · exact List.mem_of_head? hq
  · exact List.mem_of_getLast? hq
  · exact List.mem_append_left _ (List.mem_of_getLast? hq)
  · exact List.mem_append_right _ (List.mem_cons_of_mem _ (List.mem_of_head? hq))

/-- A list is determined by any of its elements. -/
theorem DList.unique (hxs : DList m xs) (hys : DList m ys) (hx : p ∈ xs) (hy : p ∈ ys) :
    xs = ys :=
  hxs.forward.unique hys.forward ((hxs.start_eq p hx).symm.trans (hys.start_eq p hy))

theorem Families.map {K : Type} {live live' : P → Prop} {key key' : P → K}
    (h : Families m live key) (hinj : ∀ p q, live p → live q → ρ p = ρ q → p = q)
    (hm : ∀ p, live p → m' (ρ p) = (m p).map ρ)
    (hlive : ∀ q, live' q ↔ ∃ p, live p ∧ ρ p = q)
    (hkey : ∀ p, live p → key' (ρ p) = key p) : Families m' live' key' := by
  intro q hq
  obtain ⟨p, hp, rfl⟩ := (hlive q).mp hq
  obtain ⟨xs, hxs, hmem⟩ := h p hp
  have hlives : ∀ x ∈ xs, live x := fun x hx => ((hmem x).mp hx).1
  refine ⟨xs.map ρ, hxs.map (fun x hx y hy => hinj x y (hlives x hx) (hlives y hy))
    fun x hx => hm x (hlives x hx), fun r => ?_⟩
  rw [List.mem_map, hlive, hkey p hp]
  constructor
  · rintro ⟨x, hx, rfl⟩
    exact ⟨⟨x, hlives x hx, rfl⟩, (hkey x (hlives x hx)).trans ((hmem x).mp hx).2⟩
  · rintro ⟨⟨x, hx, rfl⟩, hr⟩
    exact ⟨x, (hmem x).mpr ⟨hx, (hkey x hx).symm.trans hr⟩, rfl⟩

variable [DecidableEq P]

/-- The element `old` is called `item` from now on. -/
def rename (old item p : P) : P :=
  if p = old then item else p

theorem rename_self (old item : P) : rename old item old = item :=
  if_pos rfl

theorem rename_of_ne (h : p ≠ old) : rename old item p = p :=
  if_neg h

theorem rename_injective (hp : p ≠ item) (hq : q ≠ item)
    (h : rename old item p = rename old item q) : p = q := by
  by_cases hpold : p = old
  · by_cases hqold : q = old
    · rw [hpold, hqold]
    · rw [hpold, rename_self, rename_of_ne hqold] at h
      exact absurd h.symm hq
  · by_cases hqold : q = old
    · rw [hqold, rename_self, rename_of_ne hpold] at h
      exact absurd h hp
    · rwa [rename_of_ne hpold, rename_of_ne hqold] at h

theorem map_rename_of_ne {x : Option P} (h : x ≠ some old) :
    x.map (rename old item) = x := by
  cases x with
  | none => rfl
  | some p => exact congrArg some (rename_of_ne fun heq => h (congrArg some heq))

/-- In a list without `old` no link changes its name. -/
theorem DList.map_links (h : DList m xs) (hp : p ∈ xs) (hold : old ∉ xs) :
    (m p).map (rename old item) = m p := by
  have hstart : (m p).start ≠ some old := fun heq => hold (h.links_mem hp (.inl heq))
  have hlast : (m p).last ≠ some old := fun heq => hold (h.links_mem hp (.inr (.inl heq)))
  have hprev : (m p).prev ≠ some old :=
    fun heq => hold (h.links_mem hp (.inr (.inr (.inl heq))))
  have hnext : (m p).next ≠ some old :=
    fun heq => hold (h.links_mem hp (.inr (.inr (.inr heq))))
  rw [Links.map, map_rename_of_ne hstart, map_rename_of_ne hlast, map_rename_of_ne hprev,
    map_rename_of_ne hnext]

omit [DecidableEq P] in
/-- The links are determined by the list. -/
theorem DList.links_eq (h : DList m xs) (h' : DList m' xs) (hp : p ∈ xs) : m' p = m p := by
  obtain ⟨front, back, rfl⟩ := List.append_of_mem hp
  have hstart := (h'.start_eq p hp).trans (h.start_eq p hp).symm
  have hlast := (h'.last_eq p hp).trans (h.last_eq p hp).symm
  have hprev := h'.prev_eq.trans h.prev_eq.symm
  have hnext := h'.next_eq.trans h.next_eq.symm
  cases hm : m p
  cases hm' : m' p
  simp_all

theorem map_rename (hold : old ∉ front ++ back) :
    (front ++ old :: back).map (rename old item) = front ++ item :: back := by
  have hsame : ∀ zs : List P, (∀ z ∈ zs, z ∈ front ++ back) →
      zs.map (rename old item) = zs := by
    intro zs hzs
    refine (List.map_congr_left fun z hz => ?_).trans (List.map_id zs)
    exact rename_of_ne fun heq => hold (heq ▸ hzs z hz)
  rw [List.map_append, List.map_cons, rename_self,
    hsame front fun z hz => List.mem_append_left _ hz,
    hsame back fun z hz => List.mem_append_right _ hz]

omit [DecidableEq P] in
theorem DList.rename_notMem (h : DList m (front ++ old :: back)) : old ∉ front ++ back := by
  have hnodup := h.nodup
  rw [List.nodup_middle] at hnodup
  exact (List.nodup_cons.mp hnodup).1

/-- What the address update does is a renaming. -/
theorem listUpdateAddressNoContainer_rename {fuel : Nat}
    (h : DList m₀ (front ++ old :: back)) (hitem : item ∉ front ++ back) (hne : old ≠ item)
    (hself : m item = m₀ old) (hother : ∀ x ∈ front ++ back, m x = m₀ x)
    (hupdate : listUpdateAddressNoContainer fuel m item = some m')
    (hq : q ∈ front ++ old :: back) :
    m' (rename old item q) = (m₀ q).map (rename old item) := by
  have hnotItem : ∀ p ∈ front ++ old :: back, p ≠ item := by
    rintro p hp rfl
    rw [List.mem_append, List.mem_cons] at hp
    rcases hp with hp | hp | hp
    · exact hitem (List.mem_append_left _ hp)
    · exact hne hp.symm
    · exact hitem (List.mem_append_right _ hp)
  let renamed : P → Links P := fun p => (m₀ (if p = item then old else p)).map (rename old item)
  have hrenamed : ∀ p ∈ front ++ old :: back,
      renamed (rename old item p) = (m₀ p).map (rename old item) := by
    intro p hp
    by_cases hpold : p = old
    · simp [renamed, hpold, rename_self]
    · simp [renamed, rename_of_ne hpold, hnotItem p hp]
  have hmapped := h.map (fun p hp q hq => rename_injective (hnotItem p hp) (hnotItem q hq))
    hrenamed
  rw [map_rename h.rename_notMem] at hmapped
  have hupdated := h.updateAddress hitem hself hother hupdate
  have hmem : rename old item q ∈ front ++ item :: back := by
    rw [← map_rename h.rename_notMem]
    exact List.mem_map_of_mem hq
  rw [hmapped.links_eq hupdated hmem, hrenamed q hq]

/-! The update ends. -/

theorem setStarts_returns {fuel : Nat} {start : P} {p : Option P}
    (hseg : Seg (fun p => (m p).next) xs none) (hnodup : xs.Nodup) (hp : xs.head? = p)
    (hfuel : xs.length ≤ fuel) : ∃ m', setStarts fuel start m p = some m' := by
  refine updateAlong_returns ?_ hseg hnodup hp hfuel
  intro l
  rfl

theorem setLasts_returns {fuel : Nat} {last : P} {p : Option P}
    (hseg : Seg (fun p => (m p).prev) xs none) (hnodup : xs.Nodup) (hp : xs.head? = p)
    (hfuel : xs.length ≤ fuel) : ∃ m', setLasts fuel last m p = some m' := by
  refine updateAlong_returns ?_ hseg hnodup hp hfuel
  intro l
  rfl

theorem relinkEnds_returns {fuel : Nat}
    (hforward : Seg (fun p => (m p).next) (item :: back) none)
    (hbackward : Seg (fun p => (m p).prev) (item :: front.reverse) none)
    (hnodup : (front ++ item :: back).Nodup) (hfuel : (front ++ item :: back).length ≤ fuel) :
    ∃ m', relinkEnds fuel m item = some m' := by
  have hback : (item :: back).Nodup := hnodup.of_append_right
  have hfront : (item :: front.reverse).Nodup := by
    rw [List.nodup_middle] at hnodup
    rw [List.nodup_cons] at hnodup ⊢
    refine ⟨fun hmem => hnodup.1 (List.mem_append_left _ (List.mem_reverse.mp hmem)), ?_⟩
    exact List.nodup_reverse.mpr hnodup.2.of_append_left
  rw [List.length_append, List.length_cons] at hfuel
  have hstarts : ∃ m₁, (if (m item).prev = none then setStarts fuel item m (some item)
      else some m) = some m₁ ∧ ∀ p, (m₁ p).prev = (m p).prev := by
    split
    · obtain ⟨m₁, hm₁⟩ := setStarts_returns hforward hback rfl
        (show (item :: back).length ≤ fuel by rw [List.length_cons]; omega)
      refine ⟨m₁, hm₁, fun p => ?_⟩
      rw [setStarts_some hforward hback rfl hm₁ p]
      split <;> rfl
    · exact ⟨m, rfl, fun _ => rfl⟩
  obtain ⟨m₁, hm₁, hprev⟩ := hstarts
  have hbackward₁ : Seg (fun p => (m₁ p).prev) (item :: front.reverse) none :=
    hbackward.congr fun p _ => hprev p
  rw [relinkEnds, hm₁, Option.bind_some]
  split
  · refine setLasts_returns hbackward₁ hfront rfl ?_
    rw [List.length_cons, List.length_reverse]
    omega
  · exact ⟨m₁, rfl⟩

theorem listUpdateAddressNoContainer_returns {fuel : Nat}
    (h : DList m₀ (front ++ old :: back)) (hitem : item ∉ front ++ back)
    (hself : m item = m₀ old) (hother : ∀ x ∈ front ++ back, m x = m₀ x)
    (hfuel : (front ++ old :: back).length ≤ fuel) :
    ∃ m', listUpdateAddressNoContainer fuel m item = some m' := by
  obtain ⟨hforward, hbackward⟩ := relinkNeighbours_segs h hitem hself hother
  have hnodup : (front ++ item :: back).Nodup := by
    have hold := h.nodup
    rw [List.nodup_middle] at hold ⊢
    exact List.nodup_cons.mpr ⟨hitem, (List.nodup_cons.mp hold).2⟩
  refine relinkEnds_returns hforward hbackward hnodup ?_
  simpa using hfuel

theorem updateAlong_alone {step : Links P → Option P} {change : Links P → Links P}
    {fuel : Nat} (hstep : step (change (m item)) = none) :
    updateAlong step change (fuel + 1) m (some item) = some (modify m item change) := by
  rw [updateAlong, modify_self, hstep]
  cases fuel <;> rfl

/-- An element that is in no list becomes the list of itself. -/
theorem listUpdateAddressNoContainer_alone {fuel : Nat} (hprev : (m item).prev = none)
    (hnext : (m item).next = none) (hfuel : 0 < fuel) :
    listUpdateAddressNoContainer fuel m item =
      some (modify m item fun _ => ⟨some item, some item, none, none⟩) := by
  obtain ⟨fuel, rfl⟩ := Nat.exists_eq_succ_of_ne_zero (Nat.ne_of_gt hfuel)
  have hrelinked : relinkNeighbours m item = m := by
    rw [relinkNeighbours]
    simp only [hprev, hnext]
  let m₁ := modify m item fun l => { l with start := some item }
  have hstarts : setStarts (fuel + 1) item m (some item) = some m₁ := updateAlong_alone hnext
  have hprev₁ : (m₁ item).prev = none := by simpa [m₁] using hprev
  have hnext₁ : (m₁ item).next = none := by simpa [m₁] using hnext
  have hlasts : setLasts (fuel + 1) item m₁ (some item) =
      some (modify m₁ item fun l => { l with last := some item }) := updateAlong_alone hprev₁
  rw [listUpdateAddressNoContainer, hrelinked, relinkEnds, if_pos hprev, hstarts,
    Option.bind_some, if_pos hnext₁, hlasts]
  refine congrArg some (funext fun q => ?_)
  by_cases hq : q = item
  · subst hq
    simp [m₁, hprev, hnext]
  · simp [m₁, hq]

/-- Where every live element is in a list of live elements or in none, the update renames
`old` in all of them. -/
theorem listUpdateAddressNoContainer_exact {live : P → Prop} {fuel : Nat}
    (h : DList m₀ xs) (hold : old ∈ xs) (hxs : ∀ p ∈ xs, live p) (hitem : ¬live item)
    (hlists : ∀ p, live p → p ∉ xs → (m₀ p).map (rename old item) = m₀ p)
    (hself : m item = m₀ old) (hother : ∀ q, q ≠ item → m q = m₀ q)
    (hupdate : listUpdateAddressNoContainer fuel m item = some m') :
    m' item = (m₀ old).map (rename old item) ∧
      (∀ q, live q → q ≠ old → m' q = (m₀ q).map (rename old item)) ∧
      ∀ q, ¬live q ∨ q = old → q ≠ item → m' q = m₀ q := by
  obtain ⟨front, back, rfl⟩ := List.append_of_mem hold
  have hmem : ∀ q ∈ front ++ back, q ∈ front ++ old :: back := by
    intro q hq
    rw [List.mem_append] at hq ⊢
    exact hq.imp_right (List.mem_cons_of_mem old)
  have hne : ∀ q, live q → q ≠ item := by
    rintro q hq rfl
    exact hitem hq
  have hnotItem : item ∉ front ++ back := fun hmem' => hitem (hxs item (hmem item hmem'))
  have hotherList : ∀ x ∈ front ++ back, m x = m₀ x :=
    fun x hx => hother x (hne x (hxs x (hmem x hx)))
  have hframe : ∀ q, q ∉ front ++ back → q ≠ item → m' q = m₀ q := by
    intro q hq hqi
    rw [listUpdateAddressNoContainer_frame h hnotItem hself hotherList hupdate ?_]
    · exact hother q hqi
    · simp only [List.mem_append, List.mem_cons, not_or] at hq ⊢
      exact ⟨hq.1, hqi, hq.2⟩
  have hrenamed : ∀ q ∈ front ++ old :: back,
      m' (rename old item q) = (m₀ q).map (rename old item) := fun q hq =>
    listUpdateAddressNoContainer_rename h hnotItem (hne old (hxs old hold)) hself hotherList
      hupdate hq
  refine ⟨?_, ?_, ?_⟩
  · simpa only [rename_self] using hrenamed old hold
  · intro q hq hqold
    by_cases hqmem : q ∈ front ++ old :: back
    · simpa only [rename_of_ne hqold] using hrenamed q hqmem
    · rw [hlists q hq hqmem]
      exact hframe q (fun hin => hqmem (hmem q hin)) (hne q hq)
  · intro q hq hqi
    refine hframe q (fun hin => ?_) hqi
    cases hq with
    | inl hdead => exact hdead (hxs q (hmem q hin))
    | inr hqold => exact h.rename_notMem (hqold ▸ hin)

omit [DecidableEq P] in
theorem DList.links_ne_empty (h : DList m xs) (hp : p ∈ xs) : m p ≠ .empty := by
  intro hempty
  have hstart := h.start_eq p hp
  rw [hempty] at hstart
  cases xs with
  | nil => cases hp
  | cons x xs => cases hstart

/-- The element is in a list of live elements, or in none. -/
def Listed (m : P → Links P) (live : P → Prop) (p : P) : Prop :=
  m p = .empty ∨ ∃ xs, DList m xs ∧ p ∈ xs ∧ ∀ q ∈ xs, live q

theorem Listed.map_rename {live : P → Prop} (h : Listed m live p)
    (hold : ∀ xs, DList m xs → p ∈ xs → old ∉ xs) :
    (m p).map (rename old item) = m p := by
  cases h with
  | inl hempty =>
      rw [hempty]
      rfl
  | inr hlisted =>
      obtain ⟨xs, hxs, hp, -⟩ := hlisted
      exact hxs.map_links hp (hold xs hxs hp)

/-- Where `old` was, `item` is after the update; one that was in no list is the list of
itself. -/
def movedLinks (m : P → Links P) (old item : P) : Links P :=
  if m old = .empty then ⟨some item, some item, none, none⟩ else (m old).map (rename old item)

theorem movedLinks_prev (m : P → Links P) (old item : P) :
    (movedLinks m old item).prev = (m old).prev.map (rename old item) := by
  unfold movedLinks
  split
  · rename_i hempty
    rw [hempty]
    rfl
  · rfl

theorem listUpdateAddressNoContainer_listed {live : P → Prop}
    (hlisted : ∀ p, live p → Listed m₀ live p) (hold : live old) (hitem : ¬live item)
    (hself : m item = m₀ old) (hother : ∀ q, q ≠ item → m q = m₀ q) :
    ∃ n, ∀ fuel ≥ n, ∃ m', listUpdateAddressNoContainer fuel m item = some m' ∧
      m' item = movedLinks m₀ old item ∧
      (∀ q, live q → q ≠ old → m' q = (m₀ q).map (rename old item)) ∧
      ∀ q, ¬live q ∨ q = old → q ≠ item → m' q = m₀ q := by
  cases hlisted old hold with
  | inl hempty =>
      refine ⟨1, fun fuel hfuel => ⟨modify m item fun _ => ⟨some item, some item, none, none⟩,
        ?_, ?_, ?_, ?_⟩⟩
      · have hlinks : m item = .empty := hself.trans hempty
        exact listUpdateAddressNoContainer_alone (by rw [hlinks]; rfl) (by rw [hlinks]; rfl) hfuel
      · rw [modify_self, movedLinks, if_pos hempty]
      · intro q hq hqold
        have hqi : q ≠ item := fun heq => hitem (heq ▸ hq)
        rw [modify_of_ne _ _ hqi, hother q hqi, (hlisted q hq).map_rename]
        intro xs hxs _ hmem
        exact hxs.links_ne_empty hmem hempty
      · intro q _ hqi
        rw [modify_of_ne _ _ hqi, hother q hqi]
  | inr hlist =>
      obtain ⟨xs, hxs, hmem, hlive⟩ := hlist
      obtain ⟨front, back, hsplit⟩ := List.append_of_mem hmem
      subst hsplit
      have hne : ∀ x ∈ front ++ back, x ≠ item := by
        rintro x hx rfl
        rw [List.mem_append] at hx
        refine hitem (hlive x ?_)
        rw [List.mem_append]
        exact hx.imp_right (List.mem_cons_of_mem old)
      refine ⟨(front ++ old :: back).length, fun fuel hfuel => ?_⟩
      obtain ⟨m', hm'⟩ := listUpdateAddressNoContainer_returns hxs
        (fun hi => hne item hi rfl) hself (fun x hx => hother x (hne x hx)) hfuel
      obtain ⟨hat, hlives, hothers⟩ := listUpdateAddressNoContainer_exact hxs hmem hlive hitem
        (fun p hp hpxs => (hlisted p hp).map_rename fun ys hys hpys holdys =>
          hpxs (hxs.unique hys hmem holdys ▸ hpys)) hself hother hm'
      refine ⟨m', hm', ?_, hlives, hothers⟩
      rw [hat, movedLinks, if_neg (hxs.links_ne_empty hmem)]

end Cenix.LinkedLists
