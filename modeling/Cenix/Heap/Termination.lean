import Cenix.Heap.Trapping
import Mathlib.Logic.Relation

namespace Cenix.Heap

/-! Which calls of `heap_alloc` return, and which nested calls they make. -/

/-- The loop that moves headers away goes from the header `first` to `header`, with
nested calls that return. -/
inductive Moves (last first : Nat) (h : Heap) : Nat → Heap → Prop
  | start : Moves last first h first h
  | next (hmoves : Moves last first h header h₁)
      (hbody : relocate (heapAlloc fuel) header h₁ = some (h₂, true)) (hne : header ≠ last)
      (hcontents : h₂.headers header = some contents) (hnext : contents.next = some next) :
      Moves last first h next h₂

/-- What `heap_alloc` is called with, again, for a header that has to be moved away. -/
inductive Calls : Heap × Nat → Heap × Nat → Prop
  | nested (hbase : h.heapBase = some base) (hstart : h.headers base = some start)
      (havailable : ¬ h.availableMemory < roundSize n)
      (hfound : h.search (roundSize n) fuel (h.searchFrom base start.size) = some (some s))
      (hsplit : h.splitEnd (roundSize n) s = some h₁) (hmove : 0 < s.toMove)
      (hpin : forHeaders pin s.endHeader fuel' s.startHeader h₁ = some (h₂, goesOn))
      (hmoves : Moves s.endHeader s.startHeader h₂ header h')
      (hcontents : h'.headers header = some contents)
      (hkind : contents.oldKind = .movable) :
      Calls (h, n) (h', subSize contents.size sizeofHeapHeader)

theorem Stage.accounted (ha : Accounted h₀ l₀) (hs : Stage h₀ l₀ a e h P R Q moves) :
    Accounted h (P ++ R ++ Q) := by
  refine ha.evolves ?_ hs.surplus
  rw [← hs.evolution.size]
  simp only [total_append, size_extents (extents_reverted R)]

/-- While a run is marked immovable there are fewer movable blocks than before. -/
theorem Stage.movables_lt (hs : Stage h₀ l₀ a e h P R Q moves) (hb : b ∈ R)
    (hkind : b.oldKind = .movable) : Heap.movables (P ++ R ++ Q) < Heap.movables l₀ := by
  have hnone : Heap.movables R = 0 :=
    movables_eq_zero fun c hc => by rw [(hs.pinned c hc).1]; decide
  have hsome : 0 < Heap.movables (R.map Block.reverted) := by
    refine List.countP_pos_iff.mpr ⟨b.reverted, List.mem_map_of_mem hb, ?_⟩
    exact decide_eq_true hkind
  have hall := hs.evolution.movables
  simp only [movables_append] at hall ⊢
  omega

theorem Evacuating.size_eq (hv : Evacuating h₀ l₀ s a e (b :: todo) h P done Q moves)
    (next prev : Option Nat) :
    subSize (b.contents next prev).size sizeofHeapHeader = b.size - sizeofHeapHeader := by
  have hlarger := hv.stage.larger b (by simp)
  have hbounded := hv.stage.ordered.bounded b (by simp)
  have hsize : (b.contents next prev).size = b.size := rfl
  rw [hsize]
  refine subSize_of_le (Nat.le_of_lt hlarger) ?_
  unfold Block.finish at hbounded
  omega

/-- The loop is left at the last block of the run, and at no other. -/
theorem Remaining.header_eq (hv : Remaining h₀ l₀ s a e [b] h) : b.address = s.endHeader := by
  obtain ⟨P, done, Q, moves, hv⟩ := hv
  have hlast := hv.endHeader
  rw [lastAddress_append] at hlast
  exact Option.some.inj hlast

theorem Remaining.header_ne (hv : Remaining h₀ l₀ s a e (b :: c :: todo) h) :
    b.address ≠ s.endHeader := by
  obtain ⟨P, done, Q, moves, hv⟩ := hv
  have hlast := hv.endHeader
  rw [lastAddress_append] at hlast
  intro heq
  have hmem : s.endHeader ∈ (c :: todo).map Block.address :=
    lastAddress_mem (some b.address) hlast (by simp)
  have hnodup := hv.stage.ordered.append_left.append_right.append_right.addresses_nodup
  exact (List.nodup_cons.mp hnodup).1 (heq ▸ hmem)

/-- The blocks of the run that are left when the loop has come to a header. -/
theorem Moves.remaining (hw : WellFormed h₀ l₀) (hmoves : Moves s.endHeader first h header h')
    (hv : Remaining h₀ l₀ s a e R h) (hfirst : firstAddress R none = some first) :
    ∃ b todo, header = b.address ∧ Remaining h₀ l₀ s a e (b :: todo) h' := by
  induction hmoves with
  | start =>
      cases R with
      | nil => simp [firstAddress] at hfirst
      | cons b todo =>
          obtain rfl : b.address = first := by simpa [firstAddress] using hfirst
          exact ⟨b, todo, rfl, hv⟩
  | next _ hbody hne hcontents hnext ih =>
      obtain ⟨b, todo, rfl, hv⟩ := ih
      rcases hv.step hw (heapAlloc_allocates _) hbody with ⟨hfalse, -⟩ | ⟨-, hv', hlinked⟩
      · cases hfalse
      · cases todo with
        | nil => exact absurd hv.header_eq hne
        | cons c todo =>
            obtain ⟨contents', hcontents', hnext'⟩ := hlinked (by simp)
            obtain rfl := Option.some.inj (hcontents'.symm.trans hcontents)
            have heq := hnext'.symm.trans hnext
            exact ⟨c, todo, by simpa [firstAddress] using heq.symm, hv'⟩

/-- A nested call is for a heap that is well formed and accounted for, with fewer
movable blocks. -/
theorem Calls.nested_heap (hw : WellFormed h l) (ha : Accounted h l)
    (hcalls : Calls (h, n) (h', n')) :
    ∃ l', WellFormed h' l' ∧ Accounted h' l' ∧ movables l' < movables l := by
  cases hcalls with
  | nested hbase hstart havailable hfound hsplit hmove hpin hmoves hcontents hkind =>
      obtain ⟨E, Q, -, hbase', hstart', hs⟩ := Searching.start hw (roundSize n)
      obtain rfl := Option.some.inj (hbase'.symm.trans hbase)
      obtain rfl := Option.some.inj (hstart'.symm.trans hstart)
      obtain ⟨P, R, E, Q, hc⟩ := search_chosen hw hs hfound
      obtain ⟨h₁', R', Q', a, e, hsplit', hselected⟩ := splitEnd_spec hw hc roundSize_lt
      obtain rfl := Option.some.inj (hsplit'.symm.trans hsplit)
      have hv := hselected.evacuating hpin
      obtain ⟨b, todo, rfl, P₂, done, Q₂, moves, hv'⟩ :=
        hmoves.remaining hw ⟨_, _, _, _, hv⟩ hv.startHeader
      obtain rfl := Option.some.inj (hv'.header.symm.trans hcontents)
      exact ⟨_, hv'.stage.wellFormed hw, hv'.stage.accounted ha,
        hv'.stage.movables_lt (by simp) hkind⟩

/-- Everything that is called, directly or not, is called for such a heap. -/
theorem calls_heap (hw : WellFormed h l) (ha : Accounted h l)
    (hcalls : Relation.ReflTransGen Calls (h, n) c) :
    ∃ l', WellFormed c.1 l' ∧ Accounted c.1 l' := by
  induction hcalls with
  | refl => exact ⟨l, hw, ha⟩
  | tail _ hlast ih =>
      obtain ⟨l', hw', ha'⟩ := ih
      obtain ⟨l'', hw'', ha'', -⟩ := hlast.nested_heap hw' ha'
      exact ⟨l'', hw'', ha''⟩

theorem relocate_unique (first : relocate (heapAlloc fuel) header h = some r)
    (second : relocate (heapAlloc fuel') header h = some r') : r = r' := by
  have hfirst := relocate_mono (heapAlloc_mono (Nat.le_max_left fuel fuel')) first
  have hsecond := relocate_mono (heapAlloc_mono (Nat.le_max_right fuel fuel')) second
  exact Option.some.inj (hfirst.symm.trans hsecond)

theorem search_unique (first : search h size fuel s = some found)
    (second : search h size fuel' s = some found') : found = found' := by
  have hfirst := search_mono (Nat.le_max_left fuel fuel') first
  have hsecond := search_mono (Nat.le_max_right fuel fuel') second
  exact Option.some.inj (hfirst.symm.trans hsecond)

theorem forHeaders_unique {body : Nat → Heap → Option (Heap × Bool)}
    (first : forHeaders body last fuel header h = some r)
    (second : forHeaders body last fuel' header h = some r') : r = r' := by
  have hfirst := forHeaders_mono (fun _ _ _ hr => hr) (Nat.le_max_left fuel fuel') first
  have hsecond := forHeaders_mono (fun _ _ _ hr => hr) (Nat.le_max_right fuel fuel') second
  exact Option.some.inj (hfirst.symm.trans hsecond)

theorem Moves.returns (hmoves : Moves last first h header h')
    (hrun : forHeaders (relocate (heapAlloc fuel)) last fuel' first h = some r) :
    ∃ fuel', forHeaders (relocate (heapAlloc fuel)) last fuel' header h' = some r := by
  induction hmoves with
  | start => exact ⟨fuel', hrun⟩
  | next _ hbody hne hcontents hnext ih =>
      obtain ⟨fuel', hrun⟩ := ih
      cases fuel' with
      | zero => cases hrun
      | succ fuel' =>
          rw [forHeaders_succ] at hrun
          obtain ⟨r₁, hbody', hrun⟩ := Option.bind_eq_some_iff.mp hrun
          obtain rfl := relocate_unique hbody hbody'
          rw [if_neg (by simp [hne]), hcontents, Option.bind_some, hnext] at hrun
          exact ⟨fuel', hrun⟩

/-- What a nested call has returned, by what the loop has made of it. -/
theorem relocate_called {f : Heap → Nat → Option (Heap × Option Nat)}
    (hcontents : h.headers header = some contents) (hkind : contents.oldKind = .movable)
    (hbody : relocate f header h = some (h', goesOn)) :
    ∃ r, f h (subSize contents.size sizeofHeapHeader) = some r ∧ (goesOn = true ↔ r.2 ≠ none) := by
  unfold relocate at hbody
  rw [hcontents, Option.bind_eq_bind, Option.bind_some] at hbody
  have hbody' := (if_neg (fun hne => hne hkind)).symm.trans hbody
  obtain ⟨⟨h₁, r⟩, hnested, hrest⟩ := Option.bind_eq_some_iff.mp hbody'
  refine ⟨(h₁, r), hnested, ?_⟩
  cases r with
  | none =>
      cases hrest
      simp
  | some destPtr =>
      obtain ⟨h₂, -, hdone⟩ := Option.bind_eq_some_iff.mp hrest
      cases hdone
      simp

/-- A call that returns has returned from its nested calls, and a call that returns a
block has been given one by each of them. -/
theorem Calls.returns (hcalls : Calls (h, n) (h', n'))
    (hrun : heapAlloc fuel h n = some r) :
    ∃ fuel r', heapAlloc fuel h' n' = some r' ∧ (r.2 ≠ none → r'.2 ≠ none) := by
  cases hcalls with
  | nested hbase hstart havailable hfound hsplit hmove hpin hmoves hcontents hkind =>
      cases fuel with
      | zero => cases hrun
      | succ fuel =>
          rw [heapAlloc_succ, hbase, Option.bind_some, hstart, Option.bind_some,
            if_neg havailable] at hrun
          obtain ⟨found, hfound', hrun⟩ := Option.bind_eq_some_iff.mp hrun
          obtain rfl := search_unique hfound hfound'
          have hrun' := (takeRun_moving _ _ hsplit hmove).symm.trans hrun
          obtain ⟨pinned, hpin', hrun⟩ := Option.bind_eq_some_iff.mp hrun'
          obtain rfl := forHeaders_unique hpin hpin'
          obtain ⟨⟨h₁, moved⟩, hloop, hrest⟩ := Option.bind_eq_some_iff.mp hrun
          obtain ⟨fuel', hloop'⟩ := hmoves.returns hloop
          cases fuel' with
          | zero => cases hloop'
          | succ fuel' =>
              rw [forHeaders_succ] at hloop'
              obtain ⟨⟨h₂, goesOn⟩, hbody, hrounds⟩ := Option.bind_eq_some_iff.mp hloop'
              obtain ⟨r', hnested, hiff⟩ := relocate_called hcontents hkind hbody
              refine ⟨fuel, r', hnested, fun hblock => hiff.mp ?_⟩
              cases goesOn with
              | true => rfl
              | false =>
                  -- the loop was left here, so the call has not returned a block
                  have hleft : h₂ = h₁ ∧ false = moved := by simpa using hrounds
                  obtain ⟨rfl, rfl⟩ := hleft
                  obtain ⟨reverted, -, hnone⟩ := Option.bind_eq_some_iff.mp hrest
                  cases hnone
                  exact absurd rfl hblock

/-! A call that is never trapped returns. The nested calls have fewer movable blocks. -/

/-- A loop returns when each round does, with enough fuel. -/
theorem forHeaders_returns {body : Nat → Nat → Heap → Option (Heap × Bool)}
    (Inv : List Block → Heap → Prop)
    (hmono : ∀ fuel fuel' header h r, fuel ≤ fuel' → body fuel header h = some r →
      body fuel' header h = some r)
    (hreturns : ∀ b todo h, Inv (b :: todo) h → ∃ fuel h' goesOn,
      body fuel b.address h = some (h', goesOn) ∧ (goesOn = true → Inv todo h' ∧
        (todo ≠ [] → ∃ contents, h'.headers b.address = some contents ∧
          contents.next = firstAddress todo none)))
    (run : List Block) (hfirst : firstAddress run none = some first)
    (hlast : lastAddress none run = some last) (hinv : Inv run h) :
    ∃ fuel r, forHeaders (body fuel) last fuel first h = some r := by
  induction run generalizing first h with
  | nil => simp [firstAddress] at hfirst
  | cons b todo ih =>
      obtain rfl : b.address = first := by simpa [firstAddress] using hfirst
      obtain ⟨fuel, h₁, more, hbody, hmore⟩ := hreturns b todo h hinv
      by_cases hleft : more = false ∨ b.address = last
      · refine ⟨fuel + 1, (h₁, more), ?_⟩
        rw [forHeaders_succ, hmono fuel (fuel + 1) _ _ _ (by omega) hbody, Option.bind_some]
        exact if_pos hleft
      · obtain ⟨hinv₁, hnext⟩ := hmore (by simpa using (not_or.mp hleft).1)
        cases todo with
        | nil =>
            have heq : b.address = last := by simpa [lastAddress] using hlast
            exact absurd (Or.inr heq) hleft
        | cons c todo =>
            obtain ⟨contents, hcontents, hnext⟩ := hnext (by simp)
            obtain ⟨fuel', r, hrun⟩ := ih rfl hlast hinv₁
            have hrun' := forHeaders_mono
              (fun header h r => hmono fuel' (max fuel fuel' + 1) header h r (by omega))
              (Nat.le_max_right fuel fuel') hrun
            refine ⟨max fuel fuel' + 1, r, ?_⟩
            rw [forHeaders_succ, hmono fuel _ _ _ _ (by omega) hbody, Option.bind_some,
              if_neg hleft, hcontents, Option.bind_some, hnext]
            exact hrun'

/-- The run is emptied, or given up, if the nested calls return. -/
theorem Evacuating.returns (hw : WellFormed h₀ l₀)
    (hv : Evacuating h₀ l₀ s a e R h P [] Q moves)
    (hnested : ∀ b todo h', Moves s.endHeader s.startHeader h b.address h' →
      Remaining h₀ l₀ s a e (b :: todo) h' → b.oldKind = .movable →
      ∃ fuel r, heapAlloc fuel h' (b.size - sizeofHeapHeader) = some r) :
    ∃ fuel r, forHeaders (relocate (heapAlloc fuel)) s.endHeader fuel s.startHeader h =
      some r := by
  refine forHeaders_returns (fun todo h' => Remaining h₀ l₀ s a e todo h' ∧
    ∀ b rest, todo = b :: rest → Moves s.endHeader s.startHeader h b.address h')
    (fun fuel fuel' header h r hle => relocate_mono (heapAlloc_mono hle)) ?_ R
    hv.startHeader hv.endHeader ⟨⟨P, [], Q, moves, hv⟩, ?_⟩
  · intro b todo h' hinv
    obtain ⟨hremaining, hcomes⟩ := hinv
    have hmoves := hcomes b todo rfl
    have hbody : ∃ fuel r, relocate (heapAlloc fuel) b.address h' = some r := by
      obtain ⟨P', done, Q', moves', hv'⟩ := hremaining
      by_cases hkind : b.oldKind = .movable
      · obtain ⟨fuel, ⟨h₁, r⟩, hrun⟩ := hnested b todo h' hmoves ⟨P', done, Q', moves', hv'⟩ hkind
        obtain ⟨l', later, ha⟩ :=
          heapAlloc_allocates fuel h' _ _ h₁ r (hv'.stage.wellFormed hw) hrun
        rcases hv'.step_moved hw hkind hrun ha with ⟨heq, -⟩ | ⟨h₂, P₂, Q₂, moves₂, b', heq, -⟩
        · exact ⟨fuel, _, heq⟩
        · exact ⟨fuel, _, heq⟩
      · exact ⟨0, _, (hv'.step_settled (heapAlloc 0) hkind).1⟩
    obtain ⟨fuel, ⟨h₁, goesOn⟩, hbody⟩ := hbody
    refine ⟨fuel, h₁, goesOn, hbody, ?_⟩
    rintro rfl
    rcases hremaining.step hw (heapAlloc_allocates fuel) hbody with ⟨hfalse, -⟩ |
      ⟨-, hremaining', hlinked⟩
    · cases hfalse
    · refine ⟨⟨hremaining', ?_⟩, hlinked⟩
      rintro c rest rfl
      obtain ⟨contents, hcontents, hnext⟩ := hlinked (by simp)
      exact hmoves.next hbody hremaining.header_ne hcontents hnext
  · rintro b rest rfl
    have heq : b.address = s.startHeader := by simpa [firstAddress] using hv.startHeader
    rw [heq]
    exact .start

/-- The part behind the search loop returns if the nested calls do. -/
theorem Selected.returns (hw : WellFormed h l) (hsplit : h.splitEnd (roundSize n) s = some h₁)
    (hs : Selected h l (roundSize n) s a e h₁ P R Q)
    (hnested : ∀ h₂ goesOn b todo h', 0 < s.toMove →
      forHeaders Heap.pin s.endHeader R.length s.startHeader h₁ = some (h₂, goesOn) →
      Moves s.endHeader s.startHeader h₂ b.address h' →
      Remaining h l s a e (b :: todo) h' → b.oldKind = .movable →
      ∃ fuel r, heapAlloc fuel h' (b.size - sizeofHeapHeader) = some r) :
    ∃ fuel r, takeRun (heapAlloc fuel) fuel h (roundSize n) s = some r := by
  rcases Nat.eq_zero_or_pos s.toMove with hmove | hmove
  · obtain ⟨h', p, -, heq, -⟩ := hs.occupy hw hmove
    exact ⟨0, _, (takeRun_settled _ _ hsplit hmove).trans heq⟩
  · obtain ⟨⟨h₂, goesOn⟩, hpin⟩ := pin_rewrites.returns hs.ordered hs.linked
      (fun _ _ => trivial) hs.startHeader hs.endHeader (Nat.le_refl R.length)
    have hv := hs.evacuating hpin
    obtain ⟨fuel, ⟨h₃, moved⟩, hloop⟩ := hv.returns hw
      fun b todo h' => hnested h₂ goesOn b todo h' hmove hpin
    have hlonger : ∀ more, R.length ≤ R.length + fuel + more := fun more => by omega
    have hpin' : ∀ more, forHeaders Heap.pin s.endHeader (R.length + fuel + more) s.startHeader h₁ =
        some (h₂, goesOn) :=
      fun more => forHeaders_mono (fun _ _ _ hr => hr) (hlonger more) hpin
    have hloop' : ∀ more, forHeaders (relocate (heapAlloc (R.length + fuel + more)))
        s.endHeader (R.length + fuel + more) s.startHeader h₂ = some (h₃, moved) :=
      fun more => forHeaders_mono
        (fun _ _ _ => relocate_mono (heapAlloc_mono (by omega))) (by omega) hloop
    rcases hv.loop hw (heapAlloc_allocates fuel) hloop with ⟨rfl, hempty⟩ |
      ⟨rfl, todo, P', done, Q', moves, hv'⟩
    · obtain ⟨h', p, -, -, heq, -⟩ := hempty.occupy (n := n) hw hs.enough hmove
      refine ⟨R.length + fuel + 0, (h', some p), (takeRun_moving _ _ hsplit hmove).trans ?_⟩
      rw [hpin' 0, Option.bind_some, hloop' 0, Option.bind_some]
      exact heq
    · obtain ⟨r, hrevert⟩ := revert_rewrites.returns hv'.stage.ordered hv'.stage.linked
        (fun b hb => (hv'.stage.pinned b hb).1) hv'.startHeader hv'.endHeader
        (Nat.le_refl (done ++ todo).length)
      have hrevert' : forHeaders revert s.endHeader (R.length + fuel + (done ++ todo).length)
          s.startHeader h₃ = some r :=
        forHeaders_mono (fun _ _ _ hr => hr) (by omega) hrevert
      refine ⟨R.length + fuel + (done ++ todo).length, (r.1, none),
        (takeRun_moving _ _ hsplit hmove).trans ?_⟩
      rw [hpin', Option.bind_some, hloop', Option.bind_some, hrevert']
      rfl

theorem heapAlloc_searched (hbase : h.heapBase = some base)
    (hstart : h.headers base = some start) (havailable : ¬ h.availableMemory < roundSize n)
    (hfound : h.search (roundSize n) fuel (h.searchFrom base start.size) = some found) :
    heapAlloc (fuel + 1) h n =
      found.elim (some (h, none)) fun s => takeRun (heapAlloc fuel) fuel h (roundSize n) s := by
  rw [heapAlloc_succ, hbase, Option.bind_some, hstart, Option.bind_some, if_neg havailable,
    hfound]
  cases found <;> rfl

/-- A call of which no search is trapped returns. The induction is on the movable
blocks. -/
theorem heapAlloc_returns (hw : WellFormed h l) (ha : Accounted h l)
    (hfree : ∀ c, Relation.ReflTransGen Calls (h, n) c → ¬ GetsTrapped c.1 c.2) :
    ∃ fuel r, heapAlloc fuel h n = some r := by
  induction hm : movables l using Nat.strongRecOn generalizing h l n with
  | ind m ih =>
      obtain ⟨E, Q, -, hbase, hheader, hs⟩ := Searching.start hw (roundSize n)
      by_cases havailable : h.availableMemory < roundSize n
      · refine ⟨1, (h, none), ?_⟩
        rw [heapAlloc_succ, hbase, Option.bind_some, hheader, Option.bind_some]
        exact if_pos havailable
      · obtain ⟨fuel, found, hfound⟩ := hs.returns hw (.start hbase hheader havailable)
          fun s hs htrapped => hfree (h, n) .refl ⟨s, hs, htrapped⟩
        cases found with
        | none =>
            exact ⟨fuel + 1, (h, none), heapAlloc_searched hbase hheader havailable hfound⟩
        | some s =>
            obtain ⟨P, R, E, Q, hc⟩ := search_chosen hw hs hfound
            obtain ⟨h₁, R₁, Q₁, a, e, hsplit, hselected⟩ := splitEnd_spec hw hc roundSize_lt
            obtain ⟨fuel', r, hrun⟩ := hselected.returns hw hsplit (by
              rintro h₂ goesOn b todo h' hmove hpin hmoves ⟨P', done, Q', moves, hv⟩ hkind
              have hcall := Calls.nested hbase hheader havailable hfound hsplit hmove hpin
                hmoves hv.header hkind
              rw [hv.size_eq] at hcall
              exact ih _ (hm ▸ hv.stage.movables_lt (by simp) hkind) (hv.stage.wellFormed hw)
                (hv.stage.accounted ha) (fun c hcalls => hfree c (.head hcall hcalls)) rfl)
            have hfound' := search_mono (Nat.le_max_left fuel fuel') hfound
            refine ⟨max fuel fuel' + 1, r,
              (heapAlloc_searched hbase hheader havailable hfound').trans ?_⟩
            exact takeRun_mono (heapAlloc_mono (Nat.le_max_right fuel fuel'))
              (Nat.le_max_right fuel fuel') hrun

/-- A call of `heap_alloc` returns exactly if no search it makes, itself or in a nested
call, comes to a movable block that is large enough but larger than what is available.
The nested calls are well founded in any case. -/
theorem heapAlloc_returns_iff (hw : WellFormed h l) (hc : Consistent h l) (n : Nat) :
    (∃ fuel r, heapAlloc fuel h n = some r) ↔
      ∀ c, Relation.ReflTransGen Calls (h, n) c → ¬ GetsTrapped c.1 c.2 := by
  constructor
  · rintro ⟨fuel, r, hrun⟩ c hcalls htrapped
    have hreturns : ∃ fuel r, heapAlloc fuel c.1 c.2 = some r := by
      clear htrapped
      induction hcalls with
      | refl => exact ⟨fuel, r, hrun⟩
      | tail _ hlast ih =>
          obtain ⟨fuel, r, hrun⟩ := ih
          obtain ⟨fuel', r', hrun', -⟩ := hlast.returns hrun
          exact ⟨fuel', r', hrun'⟩
    obtain ⟨l', hw', ha'⟩ := calls_heap hw hc.accounted hcalls
    obtain ⟨fuel, r, hrun⟩ := hreturns
    rw [htrapped.diverges hw' ha'] at hrun
    cases hrun
  · exact heapAlloc_returns hw hc.accounted

/-- A movable block that is large enough, but larger than what is available. -/
def trapping : List Block :=
  [.plain 100 100 .movable, .plain 200 60 .available]

theorem wellFormed_trapping : WellFormed (withBlocks trapping 160 100) trapping := by
  refine wellFormed_withBlocks ⟨?_, ?_, ?_⟩ (by decide) ?_ 160 100
  all_goals decide

theorem consistent_trapping : Consistent (withBlocks trapping 160 100) trapping := by
  constructor
  all_goals decide

theorem heapAlloc_trapping : WellFormed (withBlocks trapping 160 100) trapping ∧
    Consistent (withBlocks trapping 160 100) trapping ∧
    ∀ fuel, heapAlloc fuel (withBlocks trapping 160 100) 30 = none := by
  refine ⟨wellFormed_trapping, consistent_trapping, ?_⟩
  have hheader : (withBlocks trapping 160 100).headers 100 =
      some ((Block.plain 100 100 .movable).contents (some 200) none) := rfl
  have hstart : Searches (withBlocks trapping 160 100) (roundSize 30)
      ((withBlocks trapping 160 100).searchFrom 100 100) :=
    .start rfl hheader (by decide)
  have htrapped : Trapped (withBlocks trapping 160 100) (roundSize 30)
      ((withBlocks trapping 160 100).searchFrom 100 100) :=
    ⟨_, hheader, rfl, by decide, by decide⟩
  exact GetsTrapped.diverges wellFormed_trapping consistent_trapping.accounted
    ⟨_, hstart, htrapped⟩

theorem consistent_fragmented : Consistent (withBlocks fragmented 600 200) fragmented := by
  constructor
  all_goals decide

theorem heapAlloc_returns_iff_fragmented :
    (∃ fuel r, heapAlloc fuel (withBlocks fragmented 600 200) 120 = some r) ∧
      ∀ c, Relation.ReflTransGen Calls (withBlocks fragmented 600 200, 120) c →
        ¬ GetsTrapped c.1 c.2 := by
  have hiff := heapAlloc_returns_iff wellFormed_fragmented consistent_fragmented 120
  have hreturns : (heapAlloc 10 (withBlocks fragmented 600 200) 120).isSome := by
    decide +kernel
  obtain ⟨r, hrun⟩ := Option.isSome_iff_exists.mp hreturns
  exact ⟨⟨10, r, hrun⟩, hiff.mp ⟨10, r, hrun⟩⟩

end Cenix.Heap
