import Cenix.Heap.Termination

namespace Cenix.Heap

/-! When `heap_alloc` returns a block. -/

def Succeeds (h : Heap) (n : Nat) : Prop :=
  ∃ fuel h' p, heapAlloc fuel h n = some (h', some p)

theorem Succeeds.result (hs : Succeeds h n) (hrun : heapAlloc fuel h n = some r) :
    r.2 ≠ none := by
  obtain ⟨fuel', h', p, hrun'⟩ := hs
  obtain rfl := heapAlloc_unique hrun' hrun
  simp

theorem Calls.succeeds (hcalls : Calls (h, n) c) (hs : Succeeds h n) : Succeeds c.1 c.2 := by
  obtain ⟨fuel, h', p, hrun⟩ := hs
  obtain ⟨fuel', ⟨h₁, r⟩, hrun', hblock⟩ := hcalls.returns hrun
  cases r with
  | none => exact absurd rfl (hblock (by simp))
  | some p' => exact ⟨fuel', h₁, p', hrun'⟩

/-- The loop that moves headers away is only left early at one for which no place has
been found. -/
theorem Moves.left (hmoves : Moves last first h header h₁)
    (hrun : forHeaders (relocate (heapAlloc fuel)) last fuel' header h₁ = some (h', false)) :
    ∃ header h₁, Moves last first h header h₁ ∧
      relocate (heapAlloc fuel) header h₁ = some (h', false) := by
  induction fuel' generalizing header h₁ with
  | zero => cases hrun
  | succ fuel' ih =>
      rw [forHeaders_succ] at hrun
      obtain ⟨⟨h₂, goesOn⟩, hbody, hrun⟩ := Option.bind_eq_some_iff.mp hrun
      by_cases hleft : goesOn = false ∨ header = last
      · rw [if_pos hleft] at hrun
        cases hrun
        exact ⟨header, h₁, hmoves, hbody⟩
      · rw [if_neg hleft] at hrun
        obtain ⟨contents, hcontents, hrun⟩ := Option.bind_eq_some_iff.mp hrun
        obtain ⟨next, hnext, hrun⟩ := Option.bind_eq_some_iff.mp hrun
        obtain ⟨hmore, hne⟩ := not_or.mp hleft
        obtain rfl : goesOn = true := by simpa using hmore
        exact ih (hmoves.next hbody hne hcontents hnext) hrun

/-- That is a header with something to move. -/
theorem relocate_left {f : Heap → Nat → Option (Heap × Option Nat)}
    (hbody : relocate f header h = some (h', false)) :
    ∃ contents, h.headers header = some contents ∧ contents.oldKind = .movable := by
  unfold relocate at hbody
  obtain ⟨contents, hcontents, hbody⟩ := Option.bind_eq_some_iff.mp hbody
  refine ⟨contents, hcontents, ?_⟩
  by_contra hkind
  rw [if_pos hkind] at hbody
  cases hbody

theorem occupy_block (hrun : occupy h size s = some r) : r.2 ≠ none := by
  unfold occupy at hrun
  simp only [Option.bind_eq_bind, Option.bind_eq_some_iff] at hrun
  obtain ⟨_, -, _, -, _, -, _, -, hrun⟩ := hrun
  split at hrun
  · obtain ⟨_, -, hrun⟩ := Option.bind_eq_some_iff.mp hrun
    cases hrun
    simp
  · cases hrun
    simp

/-- Once the search has found a run, everything depends on the nested calls. -/
theorem succeeds_of_found (hw : WellFormed h l) (hbase : h.heapBase = some base)
    (hstart : h.headers base = some start) (havailable : ¬ h.availableMemory < roundSize n)
    (hfound : h.search (roundSize n) fuel (h.searchFrom base start.size) = some (some s))
    (hnested : ∀ c, Calls (h, n) c → Succeeds c.1 c.2) : Succeeds h n := by
  obtain ⟨E, Q, -, hbase', hheader, hs⟩ := Searching.start hw (roundSize n)
  obtain rfl := Option.some.inj (hbase'.symm.trans hbase)
  obtain rfl := Option.some.inj (hheader.symm.trans hstart)
  obtain ⟨P, R, E, Q, hc⟩ := search_chosen hw hs hfound
  obtain ⟨h₁, R₁, Q₁, a, e, hsplit, hselected⟩ := splitEnd_spec hw hc roundSize_lt
  obtain ⟨fuel', r, hrun⟩ := hselected.returns hw hsplit (by
    rintro h₂ goesOn b todo h' hmove hpin hmoves ⟨P', done, Q', moves, hv⟩ hkind
    have hcall := Calls.nested hbase hstart havailable hfound hsplit hmove hpin hmoves
      hv.header hkind
    rw [hv.size_eq] at hcall
    obtain ⟨fuel, h'', p, hrun⟩ := hnested _ hcall
    exact ⟨fuel, _, hrun⟩)
  have hblock : r.2 ≠ none := by
    rcases Nat.eq_zero_or_pos s.toMove with hmove | hmove
    · rw [takeRun_settled _ _ hsplit hmove] at hrun
      exact occupy_block hrun
    · rw [takeRun_moving _ _ hsplit hmove] at hrun
      obtain ⟨⟨h₂, goesOn⟩, hpin, hrun⟩ := Option.bind_eq_some_iff.mp hrun
      obtain ⟨⟨h₃, moved⟩, hloop, hrun⟩ := Option.bind_eq_some_iff.mp hrun
      cases moved with
      | true => exact occupy_block hrun
      | false =>
          obtain ⟨header, h', hmoves, hbody⟩ := Moves.left .start hloop
          obtain ⟨contents, hcontents, hkind⟩ := relocate_left hbody
          have hcall := Calls.nested hbase hstart havailable hfound hsplit hmove hpin hmoves
            hcontents hkind
          obtain ⟨r', hcalled, hiff⟩ := relocate_called hcontents hkind hbody
          exact absurd (hiff.mpr ((hnested _ hcall).result hcalled)) (by simp)
  have hfound' := search_mono (Nat.le_max_left fuel fuel') hfound
  have hrun' : heapAlloc (max fuel fuel' + 1) h n = some r :=
    (heapAlloc_searched hbase hstart havailable hfound').trans
      (takeRun_mono (heapAlloc_mono (Nat.le_max_right fuel fuel'))
        (Nat.le_max_right fuel fuel') hrun)
  obtain ⟨h', result⟩ := r
  cases result with
  | none => exact absurd rfl hblock
  | some p => exact ⟨_, h', p, hrun'⟩

/-! A search does not pass a run of available blocks that is large enough. -/

/-- The search starts over at the block it has come to. -/
def StartsOver (h : Heap) (size : Nat) (s : Search) : Prop :=
  ∃ contents, h.headers s.endHeader = some contents ∧
    h.searchRound size s = some (.goesOn (h.searchFrom s.endHeader contents.size))

/-- The search, at `E` with `R` in front of it, has not passed the run between `front`
and `back`, nor skipped a part of it. -/
inductive Ahead (front run back P R : List Block) (E : Block) (Q : List Block) : Prop
  | before (hfront : front = P ++ R ++ E :: T) (hback : Q = T ++ (run ++ back))
  | inside (hfront : front = P ++ T) (hpassed : R = T ++ A) (hrun : run = A ++ E :: B)
      (hback : Q = B ++ back)

/-- At the next block. -/
theorem Ahead.next (hne : run ≠ []) (hahead : Ahead front run back P R E (F :: Q))
    (hmore : ∀ T A, R = T ++ A → run ≠ A ++ [E]) : Ahead front run back P (R ++ [E]) F Q := by
  cases hahead with
  | @before T hfront hback =>
      cases T with
      | nil =>
          cases run with
          | nil => exact absurd rfl hne
          | cons b run =>
              obtain ⟨rfl, rfl⟩ : F = b ∧ Q = run ++ back := by simpa using hback
              exact .inside (T := R ++ [E]) (A := []) (by simp [hfront]) (by simp) rfl rfl
      | cons b T =>
          obtain ⟨rfl, rfl⟩ : F = b ∧ Q = T ++ (run ++ back) := by simpa using hback
          exact .before (T := T) (by simp [hfront]) rfl
  | @inside T A B hfront hpassed hrun hback =>
      cases B with
      | nil => exact absurd hrun (hmore T A hpassed)
      | cons b B =>
          obtain ⟨rfl, rfl⟩ : F = b ∧ Q = B ++ back := by simpa using hback
          exact .inside (A := A ++ [E]) hfront (by simp [hpassed]) (by simp [hrun]) rfl

/-- Starting over at the next block, behind one that is not of the run. -/
theorem Ahead.restart_next (hne : run ≠ []) (hahead : Ahead front run back P R E (F :: Q))
    (hother : E ∉ run) : Ahead front run back (P ++ R ++ [E]) [] F Q := by
  cases hahead with
  | @before T hfront hback =>
      cases T with
      | nil =>
          cases run with
          | nil => exact absurd rfl hne
          | cons b run =>
              obtain ⟨rfl, rfl⟩ : F = b ∧ Q = run ++ back := by simpa using hback
              exact .inside (T := []) (A := []) (by simp [hfront]) rfl rfl rfl
      | cons b T =>
          obtain ⟨rfl, rfl⟩ : F = b ∧ Q = T ++ (run ++ back) := by simpa using hback
          exact .before (T := T) (by simp [hfront]) rfl
  | inside hfront hpassed hrun hback => exact absurd (by simp [hrun]) hother

/-- Starting over at the block itself skips nothing unless a part of the run has been
passed. -/
theorem Ahead.restart (hahead : Ahead front run back P R E Q) (hhead : E ∉ run.tail) :
    Ahead front run back (P ++ R) [] E Q := by
  cases hahead with
  | @before T hfront hback => exact .before (T := T) (by simp [hfront]) hback
  | @inside T A B hfront hpassed hrun hback =>
      cases A with
      | nil =>
          refine .inside (T := []) (A := []) ?_ rfl hrun hback
          simp [hfront, hpassed]
      | cons b A => exact absurd (by simp [hrun]) hhead

/-- What one round does. -/
theorem Ahead.round (hs : Searching h l size s P R E Q) (hround : Round h l size P R E Q progress)
    (hne : run ≠ []) (havailable : ∀ b ∈ run, b.kind = .available)
    (henough : size ≤ total Block.size run) (hahead : Ahead front run back P R E Q)
    (hhead : progress = .goesOn (h.searchFrom E.address E.size) → E ∉ run.tail) :
    progress ≠ .gaveUp ∧ ∀ s', progress = .goesOn s' →
      ∃ P' R' E' Q', Searching h l size s' P' R' E' Q' ∧ Ahead front run back P' R' E' Q' := by
  have hother : E.kind = .immovable → E ∉ run := by
    intro hkind hmem
    rw [havailable E hmem] at hkind
    cases hkind
  have hmore : total Block.size (R ++ [E]) < size → ∀ T A, R = T ++ A → run ≠ A ++ [E] := by
    rintro hshort T A rfl rfl
    simp only [total_append] at hshort henough
    omega
  cases hround with
  | gaveUp hlast hshort =>
      refine ⟨fun _ => ?_, fun _ hgoes => nomatch hgoes⟩
      subst hlast
      cases hahead with
      | @before T hfront hback =>
          have hnil : run = [] := by
            have hall : T ++ (run ++ back) = [] := hback.symm
            simp only [List.append_eq_nil_iff] at hall
            exact hall.2.1
          exact hne hnil
      | @inside T A B hfront hpassed hrun hback =>
          rcases hshort with hkind | hshort
          · exact hother hkind (by simp [hrun])
          · have hB : B = [] := by
              have hall : B ++ back = [] := hback.symm
              exact (List.append_eq_nil_iff.mp hall).1
            exact hmore hshort T A hpassed (by rw [hrun, hB])
  | found => exact ⟨nofun, fun _ hgoes => nomatch hgoes⟩
  | @blocked F Q' hkind hnext =>
      refine ⟨nofun, ?_⟩
      rintro s' ⟨⟩
      subst hnext
      have hblocks := hs.blocks.trans (List.append_cons (P ++ R) E _)
      exact ⟨_, _, _, _, .restart hblocks h size, hahead.restart_next hne (hother hkind)⟩
  | startsOver =>
      refine ⟨nofun, ?_⟩
      rintro s' ⟨⟩
      exact ⟨_, _, _, _, .restart hs.blocks h size, hahead.restart (hhead rfl)⟩
  | longer hkind hshort hnext hs' =>
      refine ⟨nofun, ?_⟩
      rintro s' ⟨⟩
      subst hnext
      exact ⟨_, _, _, _, hs', hahead.next hne (hmore hshort)⟩

/-- It holds from the first block on. -/
theorem ahead_first (hne : run ≠ []) (hblocks : front ++ run ++ back = E :: Q) :
    Ahead front run back [] [] E Q := by
  cases front with
  | nil =>
      cases run with
      | nil => exact absurd rfl hne
      | cons b run =>
          obtain ⟨rfl, rfl⟩ : b = E ∧ run ++ back = Q := by simpa using hblocks
          exact .inside (T := []) (A := []) rfl rfl rfl rfl
  | cons b front =>
      obtain ⟨rfl, rfl⟩ : b = E ∧ front ++ (run ++ back) = Q := by simpa using hblocks
      exact .before (T := front) rfl rfl

theorem Searching.startsOver (hw : WellFormed h l) (hs : Searching h l size s P R E Q)
    (hround : h.searchRound size s = some (.goesOn (h.searchFrom E.address E.size))) :
    StartsOver h size s := by
  have hl := hw.linked
  rw [hs.blocks] at hl
  unfold StartsOver
  rw [hs.endHeader]
  exact ⟨_, hl.contents, hround⟩

theorem Searches.ahead (hw : WellFormed h l) (hblocks : l = front ++ run ++ back)
    (hne : run ≠ []) (havailable : ∀ b ∈ run, b.kind = .available)
    (henough : size ≤ total Block.size run)
    (hskip : ∀ s, Searches h size s → StartsOver h size s →
      ∀ b ∈ run.tail, b.address ≠ s.endHeader)
    (hs : Searches h size s) :
    ∃ P R E Q, Searching h l size s P R E Q ∧ Ahead front run back P R E Q := by
  induction hs with
  | start hbase hcontents _ =>
      obtain ⟨E, Q, hl, hbase', hcontents', hstart⟩ := Searching.start hw size
      obtain rfl := Option.some.inj (hbase'.symm.trans hbase)
      obtain rfl := Option.some.inj (hcontents'.symm.trans hcontents)
      exact ⟨[], [], E, Q, hstart, ahead_first hne (hblocks.symm.trans hl)⟩
  | @round s s' hs hround ih =>
      obtain ⟨P, R, E, Q, hsearching, hahead⟩ := ih
      obtain ⟨progress, heq, hcases⟩ := searchRound_round hw hsearching
      have hprogress : progress = .goesOn s' := Option.some.inj (heq.symm.trans hround)
      refine (hahead.round hsearching hcases hne havailable henough ?_).2 s' hprogress
      intro hover hmem
      have hstarts := hsearching.startsOver hw (hover ▸ heq)
      exact hskip s hs hstarts E hmem hsearching.endHeader.symm

/-- A search that finds nothing has come to the end of the list. -/
theorem search_gaveUp (hs : Searches h size s) (hrun : h.search size fuel s = some none) :
    ∃ s', Searches h size s' ∧ h.searchRound size s' = some .gaveUp := by
  induction fuel generalizing s with
  | zero => cases hrun
  | succ fuel ih =>
      rw [search_succ] at hrun
      obtain ⟨progress, hround, hrun⟩ := Option.bind_eq_some_iff.mp hrun
      cases progress with
      | goesOn s' => exact ih (hs.round hround) hrun
      | found s' => cases hrun
      | gaveUp => exact ⟨s, hs, hround⟩

theorem total_free_run (hblocks : l = front ++ run ++ back)
    (havailable : ∀ b ∈ run, b.kind = .available) :
    total Block.size run ≤ total Block.free l := by
  have hsame : total Block.free run = total Block.size run :=
    total_congr fun b hb => by simp [Block.free, havailable b hb]
  rw [hblocks]
  simp only [total_append]
  omega

/-- Where there is a run of available blocks that is large enough, `heap_alloc` returns a
block exactly if each block it moves away is given a new place, as long as the search
neither comes to a block that traps it nor starts over within the run. -/
theorem heapAlloc_succeeds_iff (hw : WellFormed h l) (hc : Consistent h l)
    (hblocks : l = front ++ run ++ back) (hne : run ≠ [])
    (havailable : ∀ b ∈ run, b.kind = .available)
    (henough : roundSize n ≤ total Block.size run) (hfree : ¬ GetsTrapped h n)
    (hskip : ∀ s, Searches h (roundSize n) s → StartsOver h (roundSize n) s →
      ∀ b ∈ run.tail, b.address ≠ s.endHeader) :
    Succeeds h n ↔ ∀ c, Calls (h, n) c → Succeeds c.1 c.2 := by
  refine ⟨fun hs c hcalls => hcalls.succeeds hs, fun hnested => ?_⟩
  obtain ⟨E, Q, -, hbase, hheader, hstart⟩ := Searching.start hw (roundSize n)
  have hmemory : ¬ h.availableMemory < roundSize n := by
    have hall := hc.accounted.free
    have hrun := total_free_run hblocks havailable
    omega
  have hcomes : Searches h (roundSize n) (h.searchFrom E.address E.size) :=
    .start hbase hheader hmemory
  obtain ⟨fuel, found, hfound⟩ := hstart.returns hw hcomes
    fun s hs htrapped => hfree ⟨s, hs, htrapped⟩
  cases found with
  | some s => exact succeeds_of_found hw hbase hheader hmemory hfound hnested
  | none =>
      obtain ⟨s, hs, hgaveUp⟩ := search_gaveUp hcomes hfound
      obtain ⟨P, R, E, Q, hsearching, hahead⟩ :=
        hs.ahead hw hblocks hne havailable henough hskip
      obtain ⟨progress, heq, hround⟩ := searchRound_round hw hsearching
      have hprogress : progress = .gaveUp := Option.some.inj (heq.symm.trans hgaveUp)
      refine absurd hprogress (hahead.round hsearching hround hne havailable henough ?_).1
      rw [hprogress]
      exact fun hgoes => nomatch hgoes

/-- The movable block in front is given a place in the available block behind. -/
theorem heapAlloc_succeeds_iff_fragmented :
    Succeeds (withBlocks fragmented 600 200) 120 ∧
      ∀ c, Calls (withBlocks fragmented 600 200, 120) c → Succeeds c.1 c.2 := by
  have hreturns : (heapAlloc 10 (withBlocks fragmented 600 200) 120).any
      (fun r => r.2.isSome) = true := by decide +kernel
  obtain ⟨⟨h', r⟩, hrun, hr⟩ := (Option.any_eq_true ..).mp hreturns
  obtain ⟨p, rfl⟩ := Option.isSome_iff_exists.mp hr
  have hsucceeds : Succeeds (withBlocks fragmented 600 200) 120 := ⟨10, h', p, hrun⟩
  have hfree : ¬ GetsTrapped (withBlocks fragmented 600 200) 120 := by
    intro htrapped
    rw [htrapped.diverges wellFormed_fragmented consistent_fragmented.accounted] at hrun
    cases hrun
  have hblocks : fragmented = fragmented.take 3 ++ fragmented.drop 3 ++ [] := rfl
  have hiff := heapAlloc_succeeds_iff wellFormed_fragmented consistent_fragmented hblocks
    (by decide) (by decide) (by decide) hfree (fun _ _ _ b hb => nomatch hb)
  exact ⟨hsucceeds, hiff.mp hsucceeds⟩

/-- Two available blocks that are large enough together, behind a movable one. -/
def skipping : List Block :=
  [.plain 100 40 .movable, .plain 140 60 .available, .plain 200 60 .available]

/-- The search has counted the movable block when it comes to the last one, and there is
no room for it: it starts over there, behind the first available block. -/
theorem heapAlloc_skipping : WellFormed (withBlocks skipping 160 40) skipping ∧
    Consistent (withBlocks skipping 160 40) skipping ∧
    (∀ b ∈ skipping.tail, b.kind = .available) ∧
    roundSize 80 ≤ total Block.size skipping.tail ∧
    ¬ Succeeds (withBlocks skipping 160 40) 80 := by
  refine ⟨?_, ?_, by decide, by decide, fun hsucceeds => ?_⟩
  · refine wellFormed_withBlocks ⟨?_, ?_, ?_⟩ (by decide) ?_ 160 40
    all_goals decide
  · constructor
    all_goals decide
  · have hreturns : (heapAlloc 10 (withBlocks skipping 160 40) 80).any
        (fun r => r.2.isNone) = true := by decide +kernel
    obtain ⟨r, hrun, hr⟩ := (Option.any_eq_true ..).mp hreturns
    exact hsucceeds.result hrun (by simpa using hr)

end Cenix.Heap
