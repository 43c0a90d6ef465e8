import Cenix.AddressSpace.Atomicity
import Cenix.Runs
import Cenix.Untyped.Pins

namespace Cenix

open LinkedLists

/-! The thread ids in use, the hash table and the threads there are. -/

/-- What a thread records about its id and its place in the hash table. -/
structure TableRecord where
  threadId : Nat
  bucketNumber : Nat
  entry : Link Addr

def ThreadCapability.tableRecord (t : ThreadCapability) : TableRecord :=
  ⟨t.threadId, t.bucketNumber, t.tableEntry⟩

namespace Kernel

/-- The buckets there are. -/
def threadBucket (k : Kernel) (i : Nat) : Container Addr :=
  if i < numBuckets then k.threadHashTable i else Container.empty

/-- The bucket a thread is in according to its own record. -/
def bucketOf (k : Kernel) (t : Addr) : Option Nat :=
  if k.IsThread t then some (k.threads t).bucketNumber else none

/-- The hash table holds the threads there are, whose ids are the ones in use besides 0. -/
structure ThreadTable (k : Kernel) : Prop where
  queues : Queues k.threadBucket k.tableEntries k.bucketOf
  bucket : ∀ t, k.IsThread t → (k.threads t).bucketNumber = hash (k.threads t).threadId % numBuckets
  nonzero : ∀ t, k.IsThread t → t ≠ 0
  ids : ∀ t, k.IsThread t → (k.threads t).threadId ≠ 0 ∧ (k.threads t).threadId < maxThreads
  distinct : ∀ t u, k.IsThread t → k.IsThread u →
    (k.threads t).threadId = (k.threads u).threadId → t = u
  used : ∀ i < maxThreads,
    k.usedThreadIds i = true ↔ i = 0 ∨ ∃ t, k.IsThread t ∧ (k.threads t).threadId = i

/-- `k'` has the threads of `k` with the same ids in the same buckets. -/
structure KeepsTable (k k' : Kernel) : Prop where
  thread : ∀ t, k'.IsThread t ↔ k.IsThread t
  record : ∀ t, k.IsThread t → (k'.threads t).tableRecord = (k.threads t).tableRecord
  table : k'.threadHashTable = k.threadHashTable
  used : k'.usedThreadIds = k.usedThreadIds

variable {fuel : Nat} {k k' k₁ : Kernel} {t u src dest : Addr}

theorem tableRecord_eq {a b : ThreadCapability} (h : a.tableRecord = b.tableRecord) :
    a.threadId = b.threadId ∧ a.bucketNumber = b.bucketNumber ∧ a.tableEntry = b.tableEntry := by
  simpa [ThreadCapability.tableRecord] using h

namespace KeepsTable

theorem refl (k : Kernel) : k.KeepsTable k :=
  ⟨fun _ => .rfl, fun _ _ => rfl, rfl, rfl⟩

theorem trans (h : k.KeepsTable k₁) (h' : k₁.KeepsTable k') : k.KeepsTable k' where
  thread t := (h'.thread t).trans (h.thread t)
  record t ht := (h'.record t ((h.thread t).mpr ht)).trans (h.record t ht)
  table := h'.table.trans h.table
  used := h'.used.trans h.used

theorem of_objects (hobjects : k'.space.objects = k.space.objects)
    (hrecord : ∀ t, (k'.threads t).tableRecord = (k.threads t).tableRecord)
    (htable : k'.threadHashTable = k.threadHashTable)
    (hused : k'.usedThreadIds = k.usedThreadIds) : k.KeepsTable k' := by
  refine ⟨fun t => ?_, fun t _ => hrecord t, htable, hused⟩
  rw [IsThread, hobjects, IsThread]

end KeepsTable

theorem bucketOf_thread (ht : k.IsThread t) : k.bucketOf t = some (k.threads t).bucketNumber :=
  if_pos ht

theorem bucketOf_dead (ht : ¬k.IsThread t) : k.bucketOf t = none :=
  if_neg ht

theorem bucketOf_eq_some {i : Nat} :
    k.bucketOf t = some i ↔ k.IsThread t ∧ (k.threads t).bucketNumber = i := by
  unfold bucketOf
  split
  · rename_i ht
    simp [ht]
  · rename_i ht
    simp [ht]

theorem ThreadTable.bucket_lt (h : k.ThreadTable) (ht : k.IsThread t) :
    (k.threads t).bucketNumber < numBuckets := by
  rw [h.bucket t ht]
  exact Nat.mod_lt _ (by decide)

theorem ThreadTable.congr (h : k.ThreadTable) (hsame : k.KeepsTable k') : k'.ThreadTable where
  queues := by
    refine h.queues.congr ?_ ?_ ?_
    · funext i
      rw [threadBucket, hsame.table, threadBucket]
    · intro t ht
      have hthread : k.IsThread t := by
        by_contra hdead
        exact ht (bucketOf_dead hdead)
      exact (tableRecord_eq (hsame.record t hthread)).2.2
    · intro t
      unfold bucketOf
      by_cases ht : k.IsThread t
      · rw [if_pos ht, if_pos ((hsame.thread t).mpr ht),
          (tableRecord_eq (hsame.record t ht)).2.1]
      · rw [if_neg ht, if_neg fun h => ht ((hsame.thread t).mp h)]
  bucket t ht := by
    have ht := (hsame.thread t).mp ht
    obtain ⟨hid, hbucket, -⟩ := tableRecord_eq (hsame.record t ht)
    rw [hbucket, hid, h.bucket t ht]
  nonzero t ht := h.nonzero t ((hsame.thread t).mp ht)
  ids t ht := by
    have ht := (hsame.thread t).mp ht
    rw [(tableRecord_eq (hsame.record t ht)).1]
    exact h.ids t ht
  distinct t u ht hu hid := by
    have ht := (hsame.thread t).mp ht
    have hu := (hsame.thread u).mp hu
    rw [(tableRecord_eq (hsame.record t ht)).1, (tableRecord_eq (hsame.record u hu)).1] at hid
    exact h.distinct t u ht hu hid
  used i hi := by
    rw [hsame.used, h.used i hi]
    refine or_congr_right ⟨?_, ?_⟩
    · rintro ⟨t, ht, hid⟩
      exact ⟨t, (hsame.thread t).mpr ht,
        (tableRecord_eq (hsame.record t ht)).1.trans hid⟩
    · rintro ⟨t, ht, hid⟩
      have ht := (hsame.thread t).mp ht
      exact ⟨t, ht, (tableRecord_eq (hsame.record t ht)).1.symm.trans hid⟩

/-! Operations that the table does not see. -/

/-- The records, the buckets and the ids in use are the same, whatever is allocated. -/
structure SameTable (k k' : Kernel) : Prop where
  record : ∀ t, (k'.threads t).tableRecord = (k.threads t).tableRecord
  table : k'.threadHashTable = k.threadHashTable
  used : k'.usedThreadIds = k.usedThreadIds

namespace SameTable

theorem refl (k : Kernel) : k.SameTable k :=
  ⟨fun _ => rfl, rfl, rfl⟩

theorem trans (h : k.SameTable k₁) (h' : k₁.SameTable k') : k.SameTable k' :=
  ⟨fun t => (h'.record t).trans (h.record t), h'.table.trans h.table, h'.used.trans h.used⟩

theorem keepsTable (h : k.SameTable k') (hspace : k'.space.objects = k.space.objects) :
    k.KeepsTable k' :=
  .of_objects hspace h.record h.table h.used

theorem entries (h : k.SameTable k') : k'.tableEntries = k.tableEntries :=
  funext fun t => (tableRecord_eq (h.record t)).2.2

theorem modifyThread (k : Kernel) (t : Addr) (change : ThreadCapability → ThreadCapability)
    (hchange : (change (k.threads t)).tableRecord = (k.threads t).tableRecord) :
    k.SameTable (k.modifyThread t change) := by
  refine ⟨fun u => ?_, rfl, rfl⟩
  by_cases hut : u = t
  · subst hut
    simpa [Kernel.modifyThread] using hchange
  · simp [Kernel.modifyThread, hut]

theorem leaveRunqueue (k : Kernel) (t : Addr) (i : Nat) : k.SameTable (k.leaveRunqueue t i) :=
  ⟨fun _ => rfl, rfl, rfl⟩

theorem leaveCpuUpdate (k : Kernel) (t : Addr) : k.SameTable (k.leaveCpuUpdate t) :=
  ⟨fun _ => rfl, rfl, rfl⟩

theorem leaveBlocked (k : Kernel) (t : Addr) : k.SameTable (k.leaveBlocked t) := by
  unfold Kernel.leaveBlocked
  split
  · exact .refl k
  · split
    · exact ⟨fun _ => rfl, rfl, rfl⟩
    · exact ⟨fun _ => rfl, rfl, rfl⟩

theorem updateRunqueue (k : Kernel) (t : Addr) : k.SameTable (k.updateRunqueue t) := by
  unfold Kernel.updateRunqueue
  split
  · exact .refl k
  · exact ⟨fun _ => rfl, rfl, rfl⟩

theorem updateBlockedQueue (k : Kernel) (t : Addr) : k.SameTable (k.updateBlockedQueue t) := by
  unfold Kernel.updateBlockedQueue
  simp only
  split
  · exact .refl k
  · split
    · exact ⟨fun _ => rfl, rfl, rfl⟩
    · split
      · exact ⟨fun _ => rfl, rfl, rfl⟩
      · exact .refl k

theorem updateCpuUpdate (k : Kernel) (t : Addr) : k.SameTable (k.updateCpuUpdate t) := by
  unfold Kernel.updateCpuUpdate
  split
  · exact ⟨fun _ => rfl, rfl, rfl⟩
  · exact .refl k

theorem updateCurrentThread (k : Kernel) (t : Addr) :
    k.SameTable (k.updateCurrentThread t) := by
  unfold Kernel.updateCurrentThread
  split
  · exact ⟨fun _ => rfl, rfl, rfl⟩
  · exact .refl k

end SameTable

/-! A thread is destroyed. -/

/-- The thread leaves its bucket and gives its id back. -/
structure Unlinks (t : Addr) (k k' : Kernel) : Prop where
  table : k'.threadHashTable = Function.update k.threadHashTable (k.threads t).bucketNumber
    (listRemove (k.threadHashTable (k.threads t).bucketNumber) k.tableEntries t).1
  entries : k'.tableEntries =
    (listRemove (k.threadHashTable (k.threads t).bucketNumber) k.tableEntries t).2
  ids : ∀ u, (k'.threads u).threadId = (k.threads u).threadId ∧
    (k'.threads u).bucketNumber = (k.threads u).bucketNumber
  used : k'.usedThreadIds = Function.update k.usedThreadIds (k.threads t).threadId false

theorem leaveThreadBucket_unlinks (k : Kernel) (t : Addr) : Unlinks t k
    { k.leaveThreadBucket t with
      usedThreadIds := Function.update k.usedThreadIds (k.threads t).threadId false } := by
  constructor
  · rfl
  · rfl
  · intro u
    exact ⟨rfl, rfl⟩
  · rfl

theorem Unlinks.after {t : Addr} (hsame : k.SameTable k₁) (h : Unlinks t k₁ k') :
    Unlinks t k k' := by
  have hrecord := fun u => tableRecord_eq (hsame.record u)
  refine ⟨?_, ?_, fun u => ?_, ?_⟩
  · rw [h.table, hsame.table, hsame.entries, (hrecord t).2.1]
  · rw [h.entries, hsame.table, hsame.entries, (hrecord t).2.1]
  · exact ⟨(h.ids u).1.trans (hrecord u).1, (h.ids u).2.trans (hrecord u).2.1⟩
  · rw [h.used, hsame.used, (hrecord t).1]

theorem Unlinks.before {t : Addr} (h : Unlinks t k k₁) (hsame : k₁.SameTable k') :
    Unlinks t k k' := by
  have hrecord := fun u => tableRecord_eq (hsame.record u)
  exact ⟨hsame.table.trans h.table, hsame.entries.trans h.entries,
    fun u => ⟨(hrecord u).1.trans (h.ids u).1, (hrecord u).2.1.trans (h.ids u).2⟩,
    hsame.used.trans h.used⟩

theorem leaveScheduler_sameTable (k : Kernel) (t : Addr) : k.SameTable (k.leaveScheduler t) := by
  have hqueue : k.SameTable ((k.threads t).runqueue.elim k (k.leaveRunqueue t)) := by
    cases (k.threads t).runqueue with
    | some i => exact .leaveRunqueue ..
    | none => exact .refl k
  simp only [leaveScheduler]
  split
  · exact hqueue.trans (.leaveCpuUpdate ..)
  · exact hqueue

theorem unlinkThread_unlinks (k : Kernel) (t : Addr) : Unlinks t k (k.unlinkThread t) := by
  rw [unlinkThread_eq]
  have hscheduler := k.leaveScheduler_sameTable t
  generalize k.leaveScheduler t = k₂ at hscheduler ⊢
  let k₃ := k₂.leaveThreadBucket t
  have hleft := SameTable.leaveBlocked k₃ t
  have hid : ((k₃.leaveBlocked t).threads t).threadId = (k₂.threads t).threadId :=
    (tableRecord_eq (hleft.record t)).1
  have hlast : SameTable
      { k₃ with usedThreadIds := Function.update k₂.usedThreadIds (k₂.threads t).threadId false }
      { k₃.leaveBlocked t with
        usedThreadIds := Function.update (k₃.leaveBlocked t).usedThreadIds
          ((k₃.leaveBlocked t).threads t).threadId false } := by
    refine ⟨hleft.record, hleft.table, ?_⟩
    have hused : (k₃.leaveBlocked t).usedThreadIds = k₂.usedThreadIds := hleft.used
    rw [← hid, ← hused]
  exact ((leaveThreadBucket_unlinks k₂ t).before hlast).after hscheduler

theorem freeResource_sameTable (k : Kernel) (b : Addr) : k.SameTable (k.freeResource b) := by
  unfold freeResource
  split
  · exact .refl k
  · exact ⟨fun _ => rfl, rfl, rfl⟩

theorem ThreadTable.unlinkThread (h : k.ThreadTable) (ht : k.IsThread t) :
    ((k.unlinkThread t).freeResource t).ThreadTable := by
  have hunlinks := (unlinkThread_unlinks k t).before (freeResource_sameTable _ t)
  have hthread : ∀ u, ((k.unlinkThread t).freeResource t).IsThread u ↔ u ≠ t ∧ k.IsThread u := by
    intro u
    rw [freeResource, if_neg (h.nonzero t ht), heapFree_isThread, IsThread, unlinkThread_space,
      IsThread]
  generalize (k.unlinkThread t).freeResource t = k' at hunlinks hthread
  have hid := fun u => (hunlinks.ids u).1
  have hbucket := fun u => (hunlinks.ids u).2
  have hdead : k'.bucketOf t = none := bucketOf_dead fun ht => ((hthread t).mp ht).1 rfl
  have hkey : ∀ u, u ≠ t → k'.bucketOf u = k.bucketOf u := by
    intro u hu
    unfold bucketOf
    simp only [hthread, hu, ne_eq, not_false_eq_true, true_and, hbucket]
  constructor
  · have hlt := h.bucket_lt ht
    rw [hunlinks.entries]
    have hremove : listRemove (k.threadBucket (k.threads t).bucketNumber) k.tableEntries t =
        ((listRemove (k.threadHashTable (k.threads t).bucketNumber) k.tableEntries t).1,
          (listRemove (k.threadHashTable (k.threads t).bucketNumber) k.tableEntries t).2) := by
      rw [threadBucket, if_pos hlt]
    refine h.queues.remove (bucketOf_thread ht) hremove ?_ hdead hkey
    · funext i
      by_cases hi : i = (k.threads t).bucketNumber
      · subst hi
        rw [threadBucket, if_pos hlt, hunlinks.table]
        simp
      · rw [threadBucket, hunlinks.table, Function.update_of_ne hi, Function.update_of_ne hi]
        rfl
  · intro u hu
    rw [hid, hbucket, h.bucket u ((hthread u).mp hu).2]
  · intro u hu
    exact h.nonzero u ((hthread u).mp hu).2
  · intro u hu
    rw [hid]
    exact h.ids u ((hthread u).mp hu).2
  · intro u v hu hv heq
    rw [hid, hid] at heq
    exact h.distinct u v ((hthread u).mp hu).2 ((hthread v).mp hv).2 heq
  · intro i hi
    rw [hunlinks.used]
    by_cases hit : i = (k.threads t).threadId
    · subst hit
      rw [Function.update_self]
      refine iff_of_false (by simp) ?_
      rintro (hzero | ⟨u, hu, heq⟩)
      · exact (h.ids t ht).1 hzero
      · rw [hid] at heq
        exact ((hthread u).mp hu).1 (h.distinct u t ((hthread u).mp hu).2 ht heq)
    · rw [Function.update_of_ne hit, h.used i hi]
      refine or_congr_right ⟨?_, ?_⟩
      · rintro ⟨u, hu, heq⟩
        refine ⟨u, (hthread u).mpr ⟨?_, hu⟩, (hid u).trans heq⟩
        rintro rfl
        exact hit heq.symm
      · rintro ⟨u, hu, heq⟩
        exact ⟨u, ((hthread u).mp hu).2, (hid u).symm.trans heq⟩

/-! The heap moves blocks. -/

/-- `k'` is `k` with the thread at `src` copied to `dest` and gone from `src`. -/
structure TableCopied (src dest : Addr) (k k' : Kernel) : Prop where
  thread : ∀ u, k'.IsThread u ↔ u = dest ∨ (u ≠ src ∧ k.IsThread u)
  moved : (k'.threads dest).tableRecord = (k.threads src).tableRecord
  record : ∀ u, u ≠ dest → (k'.threads u).tableRecord = (k.threads u).tableRecord
  table : k'.threadHashTable = k.threadHashTable
  used : k'.usedThreadIds = k.usedThreadIds

theorem TableCopied.trans (h : TableCopied src dest k k₁) (hsame : k₁.SameTable k')
    (hobjects : k'.space.objects = k₁.space.objects) : TableCopied src dest k k' where
  thread u := by
    rw [IsThread, hobjects]
    exact h.thread u
  moved := (hsame.record dest).trans h.moved
  record u hu := (hsame.record u).trans (h.record u hu)
  table := hsame.table.trans h.table
  used := hsame.used.trans h.used

theorem beginMove_tableCopied (hsrc : k.IsThread src) (hdest : k.space.objects dest = none) :
    TableCopied src dest k (k.beginMove src dest) where
  thread := (beginMove_threadCopied hsrc hdest).thread
  moved := by simp [beginMove, copyBlock]
  record u hu := by simp [beginMove, copyBlock, hu]
  table := rfl
  used := rfl

/-- A moved thread takes its place in its bucket again. -/
theorem ThreadTable.updateThreadBucket (h : k.ThreadTable) (hsrc : k.IsThread src)
    (hdest : k.space.objects dest = none) (hzero : dest ≠ 0)
    (hcopied : TableCopied src dest k k₁) : (k₁.updateThreadBucket dest).ThreadTable := by
  have hnot : ¬k.IsThread dest := by simp [IsThread, hdest]
  have hne : src ≠ dest := fun heq => hnot (heq ▸ hsrc)
  have hthread : ∀ u, (k₁.updateThreadBucket dest).IsThread u ↔
      u = dest ∨ (u ≠ src ∧ k.IsThread u) := hcopied.thread
  obtain ⟨hid, hbucket, hentry⟩ := tableRecord_eq hcopied.moved
  have hids : ∀ u, u ≠ dest → ((k₁.updateThreadBucket dest).threads u).threadId =
      (k.threads u).threadId ∧ ((k₁.updateThreadBucket dest).threads u).bucketNumber =
      (k.threads u).bucketNumber := by
    intro u hu
    have hrecord := tableRecord_eq (hcopied.record u hu)
    exact ⟨hrecord.1, hrecord.2.1⟩
  have hdestId : ((k₁.updateThreadBucket dest).threads dest).threadId =
      (k.threads src).threadId := hid
  have hdestBucket : ((k₁.updateThreadBucket dest).threads dest).bucketNumber =
      (k.threads src).bucketNumber := hbucket
  -- the thread that has a record of `k` now
  have hfrom : ∀ u, (k₁.updateThreadBucket dest).IsThread u → ∃ v, k.IsThread v ∧
      u = (if v = src then dest else v) ∧
      ((k₁.updateThreadBucket dest).threads u).threadId = (k.threads v).threadId ∧
      ((k₁.updateThreadBucket dest).threads u).bucketNumber = (k.threads v).bucketNumber := by
    intro u hu
    by_cases hud : u = dest
    · subst hud
      exact ⟨src, hsrc, by rw [if_pos rfl], hdestId, hdestBucket⟩
    · obtain ⟨hus, hu⟩ := ((hthread u).mp hu).resolve_left hud
      exact ⟨u, hu, by rw [if_neg hus], hids u hud⟩
  constructor
  · have hlt := h.bucket_lt hsrc
    have hupdate : listUpdateAddress (k.threadBucket (k.threads src).bucketNumber)
        k₁.tableEntries dest =
          ((listUpdateAddress (k₁.threadHashTable (k₁.threads dest).bucketNumber)
            k₁.tableEntries dest).1, (k₁.updateThreadBucket dest).tableEntries) := by
      rw [threadBucket, if_pos hlt, hbucket, hcopied.table]
      simp only [Kernel.updateThreadBucket, hbucket, hcopied.table]
      rfl
    have hentries : ∀ u, u ≠ dest → k₁.tableEntries u = k.tableEntries u :=
      fun u hu => (tableRecord_eq (hcopied.record u hu)).2.2
    refine h.queues.relocate (bucketOf_thread hsrc) (bucketOf_dead hnot) hentry hentries hupdate
      ?_ ?_ ?_ ?_
    · funext i
      have htable : (k₁.updateThreadBucket dest).threadHashTable =
          Function.update k₁.threadHashTable (k₁.threads dest).bucketNumber
            (listUpdateAddress (k₁.threadHashTable (k₁.threads dest).bucketNumber)
              k₁.tableEntries dest).1 := rfl
      rw [threadBucket, htable, hbucket]
      by_cases hi : i = (k.threads src).bucketNumber
      · subst hi
        rw [if_pos hlt, Function.update_self, Function.update_self]
      · rw [Function.update_of_ne hi, Function.update_of_ne hi, hcopied.table]
        rfl
    · rw [bucketOf_thread ((hthread dest).mpr (.inl rfl)), hdestBucket]
    · exact bucketOf_dead fun hsrc' => by simpa [hne] using (hthread src).mp hsrc'
    · intro u hud hus
      unfold bucketOf
      simp only [hthread, hud, hus, ne_eq, not_false_eq_true, true_and, false_or,
        (hids u hud).2]
  · intro u hu
    obtain ⟨v, hv, -, hvid, hvbucket⟩ := hfrom u hu
    rw [hvid, hvbucket, h.bucket v hv]
  · intro u hu
    rcases (hthread u).mp hu with rfl | hu
    · exact hzero
    · exact h.nonzero u hu.2
  · intro u hu
    obtain ⟨v, hv, -, hvid, -⟩ := hfrom u hu
    rw [hvid]
    exact h.ids v hv
  · intro u w hu hw heq
    obtain ⟨v, hv, hvu, hvid, -⟩ := hfrom u hu
    obtain ⟨x, hx, hxw, hxid, -⟩ := hfrom w hw
    rw [hvid, hxid] at heq
    rw [hvu, hxw, h.distinct v x hv hx heq]
  · intro i hi
    have hused : (k₁.updateThreadBucket dest).usedThreadIds = k.usedThreadIds := hcopied.used
    rw [hused, h.used i hi]
    refine or_congr_right ⟨?_, ?_⟩
    · rintro ⟨u, hu, heq⟩
      by_cases hus : u = src
      · subst hus
        exact ⟨dest, (hthread dest).mpr (.inl rfl), hdestId.trans heq⟩
      · have hud : u ≠ dest := fun hud => hnot (hud ▸ hu)
        exact ⟨u, (hthread u).mpr (.inr ⟨hus, hu⟩), (hids u hud).1.trans heq⟩
    · rintro ⟨u, hu, heq⟩
      obtain ⟨v, hv, -, hvid, -⟩ := hfrom u hu
      exact ⟨v, hv, hvid.symm.trans heq⟩

theorem ThreadTable.onThreadMoved (h : k.ThreadTable) (hsrc : k.IsThread src)
    (hdest : k.space.objects dest = none) (hzero : dest ≠ 0)
    (hcopied : TableCopied src dest k k₁) (hmoved : k₁.onThreadMoved fuel dest = some k') :
    k'.ThreadTable := by
  have hbefore := (SameTable.updateRunqueue k₁ dest).trans
    (.updateBlockedQueue (k₁.updateRunqueue dest) dest)
  have hobjects : ((k₁.updateRunqueue dest).updateBlockedQueue dest).space.objects =
      k₁.space.objects := by
    rw [updateBlockedQueue_space]
    unfold updateRunqueue
    split <;> rfl
  have hbucket := h.updateThreadBucket hsrc hdest hzero (hcopied.trans hbefore hobjects)
  unfold Kernel.onThreadMoved at hmoved
  simp only at hmoved
  generalize ((k₁.updateRunqueue dest).updateBlockedQueue dest).updateThreadBucket dest = k₂
    at hbucket hmoved
  have hafter := (SameTable.updateCpuUpdate k₂ dest).trans
    (.updateCurrentThread (k₂.updateCpuUpdate dest) dest)
  have hcpu : (k₂.updateCpuUpdate dest).space = k₂.space := by
    unfold updateCpuUpdate
    split <;> rfl
  have hspace : ((k₂.updateCpuUpdate dest).updateCurrentThread dest).space = k₂.space := by
    rw [← hcpu]
    unfold updateCurrentThread
    split <;> rfl
  split at hmoved
  · cases hmoved
    exact hbucket.congr (hafter.keepsTable (by rw [hspace]))
  · simp only [Option.map_eq_some_iff] at hmoved
    obtain ⟨s, hs, rfl⟩ := hmoved
    obtain ⟨links, -, hderived⟩ := Space.updateCapabilityReferences_cases hs
    refine hbucket.congr (SameTable.keepsTable ⟨hafter.record, hafter.table, hafter.used⟩ ?_)
    exact hderived.objects.trans (by rw [← hspace]; rfl)

/-- Handlers of other objects leave the table alone. -/
theorem onMoved_sameTable {handlers : Handlers} {resource : Addr} (hne : handlers ≠ .thread)
    (h : k.onMoved fuel handlers resource = some k') : k.SameTable k' := by
  cases handlers with
  | thread => exact absurd rfl hne
  | node =>
      simp only [onMoved, Option.map_eq_some_iff] at h
      obtain ⟨s, -, rfl⟩ := h
      exact ⟨fun _ => rfl, rfl, rfl⟩
  | endpoint =>
      have hround : ∀ (k₁ : Kernel) t k₂, k.SameTable k₁ →
          some (k₁.modifyThread t fun t => { t with blockedOn := some resource }) = some k₂ →
          k.SameTable k₂ := by
        intro k₁ t k₂ hk₁ hbody
        cases hbody
        exact hk₁.trans (.modifyThread k₁ t _ rfl)
      simp only [onMoved, onEndpointMoved, Option.bind_eq_bind, Option.bind_eq_some_iff] at h
      obtain ⟨k₁, hsending, hreceiving⟩ := h
      exact listIter_induct hround hreceiving (listIter_induct hround hsending (.refl k))
  | debug | untyped | addressSpace =>
      cases h
      exact .refl k

/-- The owner of a block gets its new address, and the handler of its kind runs. -/
theorem updateCapabilityResource_runs {address : AbsoluteCapabilityAddress}
    (h : (k.beginMove src dest).updateCapabilityResource fuel address dest = some k') :
    (k.movedOwner fuel src dest address = none ∧
        ∃ kinds, k' = { k.beginMove src dest with kinds := kinds }) ∨
      ∃ handlers resource s kinds k₂ kinds',
        k.movedOwner fuel src dest address = some (handlers, resource) ∧
        s.objects = (k.beginMove src dest).space.objects ∧
        { k.beginMove src dest with space := s, kinds := kinds }.onMoved fuel handlers resource =
          some k₂ ∧ k' = { k₂ with kinds := kinds' } := by
  simp only [updateCapabilityResource, Option.bind_eq_some_iff] at h
  obtain ⟨⟨found, k₁⟩, hlookup, h⟩ := h
  obtain ⟨kinds, rfl⟩ := lookUpOwner_kinds hlookup
  cases found with
  | none =>
      cases h
      refine .inl ⟨?_, kinds, rfl⟩
      rw [movedOwner, hlookup]
      rfl
  | some result =>
      simp only at h
      split at h
      · rename_i hhandlers
        cases h
        refine .inl ⟨?_, _, rfl⟩
        rw [movedOwner, hlookup, Option.bind_some]
        simp only [hhandlers, Option.map_none, Option.bind_eq_none_iff,
          implies_true]
      · rename_i handlers hhandlers
        simp only [Option.bind_eq_bind, Option.bind_eq_some_iff, Option.some.injEq] at h
        obtain ⟨s, hs, k₂, hmoved, rfl⟩ := h
        refine .inr ⟨handlers, _, s, kinds, k₂, _, ?_, setResources_objects hs, hmoved, rfl⟩
        rw [movedOwner, hlookup, Option.bind_some]
        simp only [hs, Option.bind_some, hhandlers, Option.map_some]

/-- The heap runs `on_thread_moved` for the threads that it moves and for no other
block. -/
def FollowsThreads (fuel : Nat) (k : Kernel) (src dest : Addr) : Prop :=
  if k.IsThread src then
    k.FindsOwner fuel src dest
  else
    k.space.updateRefs src ≠ .onThreadMoved ∧
      ∀ address resource, k.space.updateRefs src = .capability address →
        k.movedOwner fuel src dest address ≠ some (.thread, resource)

/-- A block that is no thread is moved. -/
theorem beginMove_keepsTable (hsrc : ¬k.IsThread src) (hdest : k.space.objects dest = none) :
    k.KeepsTable (k.beginMove src dest) := by
  have hne : ∀ t, k.IsThread t → t ≠ dest ∧ t ≠ src := by
    intro t ht
    refine ⟨?_, fun heq => hsrc (heq ▸ ht)⟩
    rintro rfl
    rw [IsThread, hdest] at ht
    cases ht
  refine ⟨fun t => ?_, fun t ht => ?_, rfl, rfl⟩
  · rw [IsThread, beginMove_objects, IsThread]
    by_cases hts : t = src
    · subst hts
      rw [Function.update_self]
      exact iff_of_false (by simp) hsrc
    · rw [Function.update_of_ne hts]
      by_cases htd : t = dest
      · subst htd
        rw [Function.update_self, hdest]
        exact iff_of_false hsrc (by simp)
      · rw [Function.update_of_ne htd]
  · simp [beginMove, copyBlock, (hne t ht).1]

theorem ThreadTable.relocate (h : k.ThreadTable) (hcan : k.CanMove src dest)
    (hfollows : k.FollowsThreads fuel src dest)
    (hrelocate : k.relocate fuel src dest = some k') : k'.ThreadTable := by
  obtain ⟨hallocated, -, hdest, hzero⟩ := hcan
  have hne : src ≠ dest := by
    rintro rfl
    exact hallocated hdest
  simp only [Kernel.relocate, Option.map_eq_some_iff] at hrelocate
  obtain ⟨k₁, hupdate, rfl⟩ := hrelocate
  have hkinds : ∀ (k : Kernel) kinds, k.KeepsTable { k with kinds := kinds } :=
    fun k kinds => SameTable.keepsTable ⟨fun _ => rfl, rfl, rfl⟩ rfl
  have hrefs : (k.beginMove src dest).space.updateRefs src = k.space.updateRefs src := by
    simp [beginMove, copyBlock, hne]
  have hspace : ∀ (k : Kernel) s, s.objects = k.space.objects →
      k.KeepsTable { k with space := s } :=
    fun k s hs => SameTable.keepsTable ⟨fun _ => rfl, rfl, rfl⟩ hs
  refine ThreadTable.congr ?_ (hkinds k₁ _)
  unfold updateReferences at hupdate
  rw [hrefs] at hupdate
  unfold FollowsThreads at hfollows
  split at hfollows
  · rename_i hsrc
    have hcopied := beginMove_tableCopied hsrc hdest
    unfold FindsOwner at hfollows
    cases href : k.space.updateRefs src with
    | nothing =>
        rw [href] at hfollows
        cases hfollows
    | onThreadMoved =>
        rw [href] at hupdate
        simp only [Option.map_eq_some_iff] at hupdate
        obtain ⟨k₂, hmoved, rfl⟩ := hupdate
        exact (h.onThreadMoved hsrc hdest hzero hcopied hmoved).congr (hspace k₂ _ rfl)
    | capability address =>
        rw [href] at hfollows hupdate
        simp only [Option.map_eq_some_iff] at hupdate
        obtain ⟨k₂, hresource, rfl⟩ := hupdate
        refine ThreadTable.congr ?_ (hspace k₂ _ rfl)
        have howner : k.movedOwner fuel src dest address = some (.thread, dest) := by
          refine hfollows.elim (fun hthread => hthread.2) fun hendpoint => ?_
          exact absurd hendpoint.1 (not_isEndpoint hsrc)
        cases updateCapabilityResource_runs hresource with
        | inl hlost =>
            rw [hlost.1] at howner
            cases howner
        | inr hruns =>
            obtain ⟨handlers, resource, s, kinds, k₃, kinds', howner', hobjects, hmoved, rfl⟩ :=
              hruns
            rw [howner, Option.some.injEq, Prod.mk.injEq] at howner'
            obtain ⟨rfl, rfl⟩ := howner'
            have hcopied' : TableCopied src dest k
                { k.beginMove src dest with space := s, kinds := kinds } :=
              hcopied.trans ⟨fun _ => rfl, rfl, rfl⟩ hobjects
            exact (h.onThreadMoved hsrc hdest hzero hcopied' hmoved).congr (hkinds k₃ _)
  · rename_i hsrc
    have hbegin := beginMove_keepsTable hsrc hdest
    cases href : k.space.updateRefs src with
    | nothing =>
        rw [href] at hupdate
        cases hupdate
        exact h.congr hbegin
    | onThreadMoved => exact absurd href hfollows.1
    | capability address =>
        rw [href] at hupdate
        simp only [Option.map_eq_some_iff] at hupdate
        obtain ⟨k₂, hresource, rfl⟩ := hupdate
        refine ThreadTable.congr ?_ (hspace k₂ _ rfl)
        cases updateCapabilityResource_runs hresource with
        | inl hlost =>
            obtain ⟨-, kinds, rfl⟩ := hlost
            exact h.congr (hbegin.trans (hkinds _ kinds))
        | inr hruns =>
            obtain ⟨handlers, resource, s, kinds, k₃, kinds', howner, hobjects, hmoved, rfl⟩ :=
              hruns
            have hother : handlers ≠ .thread := by
              rintro rfl
              exact hfollows.2 address resource href howner
            have hbefore : (k.beginMove src dest).KeepsTable
                { k.beginMove src dest with space := s, kinds := kinds } :=
              SameTable.keepsTable ⟨fun _ => rfl, rfl, rfl⟩ hobjects
            have hmoving := (onMoved_sameTable hother hmoved).keepsTable
              (onMoved_sameBlocks hmoved).objects
            exact h.congr (((hbegin.trans hbefore).trans hmoving).trans (hkinds k₃ _))

/-- It does so in every move. -/
def FollowsMoves (fuel : Nat) : Kernel → List (Addr × Addr) → Prop
  | _, [] => True
  | k, move :: moves => k.FollowsThreads fuel move.1 move.2 ∧
      ∀ k', k.relocate fuel move.1 move.2 = some k' → FollowsMoves fuel k' moves

theorem ThreadTable.relocateAll {moves : List (Addr × Addr)} (h : k.ThreadTable)
    (hfollows : FollowsMoves fuel k moves) (hmoves : k.relocateAll fuel moves = some k') :
    k'.ThreadTable := by
  induction moves generalizing k with
  | nil =>
      cases hmoves
      exact h
  | cons move moves ih =>
      simp only [Kernel.relocateAll, List.foldlM_cons, Option.bind_eq_bind,
        Option.bind_eq_some_iff] at hmoves
      obtain ⟨k₁, hmove, hmoves⟩ := hmoves
      split at hmove
      · rename_i hcan
        exact ih (h.relocate hcan hfollows.1 hmove) (hfollows.2 k₁ hmove) hmoves
      · cases hmove

/-! A thread is allocated. -/

theorem findThreadId_bounds {i left threadId : Nat}
    (h : k.findThreadId i left = some threadId) : i ≤ threadId ∧ threadId < i + left := by
  induction left generalizing i with
  | zero => cases h
  | succ left ih =>
      unfold findThreadId at h
      split at h
      · have hbounds := ih h
        omega
      · cases h
        omega

theorem findThreadId_none {i left : Nat} (h : k.findThreadId i left = none) :
    ∀ j, i ≤ j → j < i + left → k.usedThreadIds j = true := by
  induction left generalizing i with
  | zero =>
      intro j hij hj
      omega
  | succ left ih =>
      unfold findThreadId at h
      split at h
      · rename_i hused
        intro j hij hj
        rcases Nat.eq_or_lt_of_le hij with rfl | hij
        · exact hused
        · exact ih h j hij (by omega)
      · cases h

/-- `k'` is `k` with a new thread at `t`. -/
structure Adds (t : Addr) (threadId : Nat) (k k' : Kernel) : Prop where
  thread : ∀ u, k'.IsThread u ↔ u = t ∨ k.IsThread u
  newId : (k'.threads t).threadId = threadId
  bucket : (k'.threads t).bucketNumber = hash threadId % numBuckets
  ids : ∀ u, u ≠ t → (k'.threads u).threadId = (k.threads u).threadId ∧
    (k'.threads u).bucketNumber = (k.threads u).bucketNumber
  queue : ∃ entries, (∀ u, u ≠ t → entries u = k.tableEntries u) ∧
    (listAppend (k.threadHashTable (hash threadId % numBuckets)) entries t).2 =
      k'.tableEntries ∧
    k'.threadHashTable = Function.update k.threadHashTable (hash threadId % numBuckets)
      (listAppend (k.threadHashTable (hash threadId % numBuckets)) entries t).1
  used : k'.usedThreadIds = Function.update k.usedThreadIds threadId true

theorem ThreadTable.adds {threadId : Nat} (h : k.ThreadTable) (ht : ¬k.IsThread t)
    (hzero : t ≠ 0) (hunused : k.usedThreadIds threadId = false) (hid : threadId < maxThreads)
    (hadds : Adds t threadId k k') : k'.ThreadTable := by
  have hlt : hash threadId % numBuckets < numBuckets := Nat.mod_lt _ (by decide)
  have hne : ∀ u, k.IsThread u → u ≠ t := by
    rintro u hu rfl
    exact ht hu
  have hfresh : threadId ≠ 0 ∧ ∀ u, k.IsThread u → (k.threads u).threadId ≠ threadId := by
    have hnot := mt (h.used threadId hid).mpr (by simp [hunused])
    exact ⟨fun heq => hnot (.inl heq), fun u hu heq => hnot (.inr ⟨u, hu, heq⟩)⟩
  constructor
  · obtain ⟨entries, hentries, hlinks, htable⟩ := hadds.queue
    have hqueues : Queues k.threadBucket entries k.bucketOf := by
      refine h.queues.congr rfl (fun u hu => hentries u ?_) fun _ => rfl
      rintro rfl
      exact hu (bucketOf_dead ht)
    have happend : listAppend (k.threadBucket (hash threadId % numBuckets)) entries t =
        ((listAppend (k.threadHashTable (hash threadId % numBuckets)) entries t).1,
          k'.tableEntries) := by
      rw [threadBucket, if_pos hlt, ← hlinks]
    refine hqueues.append (bucketOf_dead ht) happend ?_ ?_ fun u hu => ?_
    · funext i
      rw [threadBucket, htable]
      by_cases hi : i = hash threadId % numBuckets
      · subst hi
        rw [if_pos hlt, Function.update_self, Function.update_self]
      · rw [Function.update_of_ne hi, Function.update_of_ne hi]
        rfl
    · rw [bucketOf_thread ((hadds.thread t).mpr (.inl rfl)), hadds.bucket]
    · unfold bucketOf
      simp only [hadds.thread, hu, false_or, (hadds.ids u hu).2]
  · intro u hu
    rcases (hadds.thread u).mp hu with rfl | hu
    · rw [hadds.bucket, hadds.newId]
    · rw [(hadds.ids u (hne u hu)).1, (hadds.ids u (hne u hu)).2, h.bucket u hu]
  · intro u hu
    rcases (hadds.thread u).mp hu with rfl | hu
    · exact hzero
    · exact h.nonzero u hu
  · intro u hu
    rcases (hadds.thread u).mp hu with rfl | hu
    · rw [hadds.newId]
      exact ⟨hfresh.1, hid⟩
    · rw [(hadds.ids u (hne u hu)).1]
      exact h.ids u hu
  · intro u v hu hv heq
    rcases (hadds.thread u).mp hu with rfl | hu
    · rcases (hadds.thread v).mp hv with rfl | hv
      · rfl
      · rw [hadds.newId, (hadds.ids v (hne v hv)).1] at heq
        exact absurd heq.symm (hfresh.2 v hv)
    · rw [(hadds.ids u (hne u hu)).1] at heq
      rcases (hadds.thread v).mp hv with rfl | hv
      · rw [hadds.newId] at heq
        exact absurd heq (hfresh.2 u hu)
      · rw [(hadds.ids v (hne v hv)).1] at heq
        exact h.distinct u v hu hv heq
  · intro i hi
    rw [hadds.used]
    by_cases hit : i = threadId
    · subst hit
      rw [Function.update_self]
      exact iff_of_true rfl (.inr ⟨t, (hadds.thread t).mpr (.inl rfl), hadds.newId⟩)
    · rw [Function.update_of_ne hit, h.used i hi]
      refine or_congr_right ⟨?_, ?_⟩
      · rintro ⟨u, hu, heq⟩
        exact ⟨u, (hadds.thread u).mpr (.inr hu), (hadds.ids u (hne u hu)).1.trans heq⟩
      · rintro ⟨u, hu, heq⟩
        rcases (hadds.thread u).mp hu with rfl | hu
        · exact absurd (heq.symm.trans hadds.newId) hit
        · exact ⟨u, hu, (hadds.ids u (hne u hu)).1.symm.trans heq⟩

theorem initThread_adds (k : Kernel) (t : Addr) (threadId : Nat) :
    Adds t threadId k
      (((k.setThreadId threadId true).allocateBlock t .thread).initThread t threadId) := by
  constructor
  · intro u
    unfold IsThread
    by_cases hu : u = t
    · simp [initThread, allocateBlock, hu, modifyThread, modifySlot, Space.modifySlot,
        setThreadBucket, setTableEntries, setThreadId]
    · simp [initThread, allocateBlock, hu, modifyThread, modifySlot, Space.modifySlot,
        setThreadBucket, setTableEntries, setThreadId]
  · simp [initThread, modifyThread, modifySlot, setThreadBucket, setTableEntries]
  · simp [initThread, modifyThread, modifySlot, setThreadBucket, setTableEntries]
  · intro u hu
    simp [initThread, modifyThread, modifySlot, setThreadBucket, setTableEntries, hu,
      allocateBlock, setThreadId]
  · refine ⟨(k.modifyThread t fun _ => { ThreadCapability.zero with
      execMode := execModeSuspended
      threadId := threadId
      bucketNumber := hash threadId % numBuckets }).tableEntries, fun u hu => ?_, rfl, rfl⟩
    simp [tableEntries, modifyThread, hu]
  · rfl

theorem ThreadTable.allocThread {placement : Placement} {result : Option Addr}
    (h : k.ThreadTable) (hfollows : FollowsMoves fuel k placement.moves)
    (halloc : k.allocThread fuel placement = some (result, k')) : k'.ThreadTable := by
  unfold Kernel.allocThread at halloc
  cases hid : k.findThreadId 0 maxThreads with
  | none =>
      simp only [hid, Option.some.injEq, Prod.mk.injEq] at halloc
      obtain ⟨-, rfl⟩ := halloc
      exact h
  | some threadId =>
      simp only [hid, heapAlloc, Option.map_eq_some_iff, Option.bind_eq_some_iff] at halloc
      obtain ⟨⟨block, k₁⟩, ⟨moved', hmoved', hplaced⟩, halloc⟩ := halloc
      -- the moves leave the ids alone
      have hids : (k.setThreadId threadId true) =
          k.withThreadIds (Function.update k.usedThreadIds threadId true) := rfl
      rw [hids, relocateAll_threadIds, Option.map_eq_some_iff] at hmoved'
      obtain ⟨moved, hmoved, rfl⟩ := hmoved'
      have htable := h.relocateAll hfollows hmoved
      have hused := relocateAll_usedThreadIds hmoved
      have hunused : moved.usedThreadIds threadId = false := by
        rw [hused]
        exact findThreadId_unused hid
      rw [← hused] at hplaced
      have hlt := (findThreadId_bounds hid).2
      rw [Nat.zero_add] at hlt
      cases hblock : placement.block with
      | none =>
          simp only [hblock, Option.some.injEq, Prod.mk.injEq] at hplaced
          obtain ⟨rfl, rfl⟩ := hplaced
          simp only [Prod.mk.injEq] at halloc
          obtain ⟨-, rfl⟩ := halloc
          have hback : (moved.withThreadIds
              (Function.update moved.usedThreadIds threadId true)).setThreadId threadId false =
              moved := by
            unfold setThreadId withThreadIds
            rw [Function.update_idem, ← hunused, Function.update_eq_self]
          rw [hback]
          exact htable
      | some t =>
          simp only [hblock] at hplaced
          split at hplaced
          · rename_i hfree
            simp only [Option.some.injEq, Prod.mk.injEq] at hplaced
            obtain ⟨rfl, rfl⟩ := hplaced
            simp only [Prod.mk.injEq] at halloc
            obtain ⟨-, rfl⟩ := halloc
            have hnew : ¬moved.IsThread t := by
              have hobjects : moved.space.objects t = none := hfree.1
              simp [IsThread, hobjects]
            exact htable.adds hnew hfree.2 hunused hlt (initThread_adds moved t threadId)
          · cases hplaced

/-! Runs of `alloc_thread` and `thread_destructor`. -/

/-- `threadDestructor` is what the destructor of a thread does after it has deleted the
root capability, and `rest` is anything else that the kernel does. -/
inductive ThreadOp where
  | allocThread (fuel : Nat) (placement : Placement)
  | threadDestructor (thread : Addr)
  | rest (k : Kernel)

/-- What is destroyed is freed. -/
def threadStep (k : Kernel) : ThreadOp → Option Kernel
  | .allocThread fuel placement => (k.allocThread fuel placement).map (·.2)
  | .threadDestructor thread => some ((k.unlinkThread thread).freeResource thread)
  | .rest k' => some k'

/-- What the steps rely on. -/
def KeepsThreads (k : Kernel) : ThreadOp → Prop
  | .allocThread fuel placement => FollowsMoves fuel k placement.moves
  | .threadDestructor thread => k.IsThread thread
  | .rest k' => k.KeepsTable k'

theorem ThreadTable.step {op : ThreadOp} (h : k.ThreadTable) (hkeeps : k.KeepsThreads op)
    (hstep : k.threadStep op = some k') : k'.ThreadTable := by
  cases op with
  | allocThread fuel placement =>
      simp only [threadStep, Option.map_eq_some_iff] at hstep
      obtain ⟨⟨result, k₁⟩, halloc, rfl⟩ := hstep
      exact h.allocThread hkeeps halloc
  | threadDestructor thread =>
      cases hstep
      exact h.unlinkThread hkeeps
  | rest k₁ =>
      cases hstep
      exact h.congr hkeeps

/-- `init_threads` when there is no thread yet. -/
def NoThreads (k : Kernel) : Prop :=
  ∃ k₀ : Kernel, (∀ t, ¬k₀.IsThread t) ∧ k = k₀.initThreads

theorem NoThreads.threadTable (h : k.NoThreads) : k.ThreadTable := by
  obtain ⟨k₀, hnone, rfl⟩ := h
  have hnone' : ∀ t, ¬k₀.initThreads.IsThread t := hnone
  constructor
  · intro i
    refine ⟨[], ?_, fun t => ?_⟩
    · have hempty : k₀.initThreads.threadBucket i = Container.empty := by
        unfold threadBucket initThreads
        simp only
        split <;> rfl
      rw [hempty]
      constructor <;> simp [Container.empty]
    · simp [bucketOf_dead (hnone' t)]
  · exact fun t ht => absurd ht (hnone' t)
  · exact fun t ht => absurd ht (hnone' t)
  · exact fun t ht => absurd ht (hnone' t)
  · exact fun t _ ht => absurd ht (hnone' t)
  · intro i hi
    have hused : k₀.initThreads.usedThreadIds i = (i == 0) := if_pos hi
    rw [hused, beq_iff_eq]
    refine ⟨.inl, fun h => ?_⟩
    rcases h with hzero | ⟨t, ht, -⟩
    · exact hzero
    · exact absurd ht (hnone' t)

/-! A deletion touches the threads only in the destructor. -/

/-- Destroyed threads, and operations that the table does not see. -/
def TableSteps : Kernel → Kernel → Prop :=
  Relation.ReflTransGen fun k k' =>
    (∃ t, k' = (k.unlinkThread t).freeResource t) ∨ k.SameTable k'

namespace SameTable

theorem releaseBlocked (k : Kernel) (t : Addr) : k.SameTable (k.releaseBlocked t) := by
  have hunscheduled : Unscheduled ThreadCapability.tableRecord :=
    ⟨fun _ _ => rfl, fun _ _ => rfl, fun _ _ => rfl⟩
  obtain ⟨threads, scheduler, hsuspend⟩ := k.suspendThread_frame t execModeSuspended
  have hsuspended : k.SameTable (k.suspendThread t execModeSuspended) := by
    refine ⟨fun u => hunscheduled.suspendThread k t u execModeSuspended, ?_, ?_⟩
    · rw [hsuspend]
    · rw [hsuspend]
  unfold Kernel.releaseBlocked
  generalize k.suspendThread t execModeSuspended = k₁ at hsuspended ⊢
  obtain ⟨threads', scheduler', hresume⟩ := k₁.resumeThread_frame t execModeBlocked
  have hresumed : k₁.SameTable (k₁.resumeThread t execModeBlocked) := by
    refine ⟨fun u => hunscheduled.resumeThread k₁ t u execModeBlocked, ?_, ?_⟩
    · rw [hresume]
    · rw [hresume]
  exact (hsuspended.trans hresumed).trans (.modifyThread _ t _ rfl)

theorem endpointDestructor {slot : SlotPtr} (h : k.endpointDestructor fuel slot = some k') :
    k.SameTable k' := by
  have hround : ∀ (k₁ : Kernel) t k₂, k.SameTable k₁ → some (k₁.releaseBlocked t) = some k₂ →
      k.SameTable k₂ := by
    intro k₁ t k₂ hk₁ hbody
    cases hbody
    exact hk₁.trans (releaseBlocked k₁ t)
  simp only [Kernel.endpointDestructor, Option.bind_eq_bind, Option.bind_eq_some_iff] at h
  obtain ⟨k₁, hsending, hreceiving⟩ := h
  exact listIter_induct hround hreceiving (listIter_induct hround hsending (.refl k))

end SameTable

theorem tableSteps_same (h : k.SameTable k') : TableSteps k k' :=
  .single (.inr h)

theorem nodeDestructor_tableSteps {delete : Kernel → SlotPtr → Option Kernel} {slot : SlotPtr}
    (hdelete : ∀ k p k', delete k p = some k' → TableSteps k k')
    (h : k.nodeDestructor delete fuel slot = some k') : TableSteps k k' := by
  refine foldlM_induct (motive := TableSteps k) ?_ h .refl
  intro k₁ i k₂ hk₁ hround
  apply Relation.ReflTransGen.trans hk₁
  cases destroySlot_cases hround with
  | inl hempty =>
      rw [hempty.2]
  | inr hlive =>
      obtain ⟨-, s, -, hdelete'⟩ := hlive
      have hspace : k₁.SameTable { k₁ with space := s } := ⟨fun _ => rfl, rfl, rfl⟩
      exact (tableSteps_same hspace).trans (hdelete _ _ _ hdelete')

/-- The resource is destroyed and freed. -/
theorem destructor_tableSteps {delete : Kernel → SlotPtr → Option Kernel} {slot : SlotPtr}
    (hdelete : ∀ k p k', delete k p = some k' → k.Shrunk k' ∧ TableSteps k k')
    (h : k.destructor delete fuel slot = some k') :
    TableSteps k (k'.freeResource (k'.space.slots slot).resource) := by
  have hfree := freeResource_sameTable k' (k'.space.slots slot).resource
  unfold destructor at h
  split at h
  · exact tableSteps_same ((SameTable.endpointDestructor h).trans hfree)
  · simp only [threadDestructor, Option.map_eq_some_iff] at h
    obtain ⟨k₁, hroot, rfl⟩ := h
    obtain ⟨hshrunk, hsteps⟩ := hdelete _ _ _ hroot
    rw [unlinkThread_space, hshrunk.resource]
    exact hsteps.trans (.single (.inl ⟨_, rfl⟩))
  · exact (nodeDestructor_tableSteps (fun k p k' hp => (hdelete k p k' hp).2) h).trans
      (tableSteps_same hfree)
  · cases h
    exact tableSteps_same hfree
  · cases h
    exact tableSteps_same hfree
  · cases h
    exact tableSteps_same hfree
  · cases h

theorem deleteCapability_tableSteps {slot : SlotPtr}
    (h : deleteCapability fuel k slot = some k') : TableSteps k k' := by
  induction fuel generalizing k slot k' with
  | zero => cases h
  | succ fuel ih =>
      obtain ⟨s, -, hcases⟩ := deleteCapability_cases h
      have hleave : k.SameTable { k with space := s } := ⟨fun _ => rfl, rfl, rfl⟩
      have hempty : ∀ (k : Kernel) p, k.SameTable (k.emptySlot p) :=
        fun k p => ⟨fun _ => rfl, rfl, rfl⟩
      apply (tableSteps_same hleave).trans
      cases hcases with
      | inl hshared =>
          rw [hshared.2]
          exact tableSteps_same (hempty _ slot)
      | inr hlast =>
          obtain ⟨-, k₁, hdestroy, rfl⟩ := hlast
          have hdelete : ∀ k p k', deleteCapability fuel k p = some k' →
              k.Shrunk k' ∧ TableSteps k k' :=
            fun _ _ _ hp => ⟨deleteCapability_shrunk hp, ih hp⟩
          exact (destructor_tableSteps hdelete hdestroy).trans (tableSteps_same (hempty _ slot))

/-! What the table says. -/

theorem findThread_returns {threadId : Nat} {xs : List Addr}
    (h : Seg (fun t => (k.tableEntries t).next) xs none) (hfuel : xs.length ≤ fuel) :
    k.findThread threadId fuel xs.head? =
      some (xs.find? fun t => (k.threads t).threadId = threadId) := by
  induction xs generalizing fuel with
  | nil => cases fuel <;> rfl
  | cons t xs ih =>
      cases fuel with
      | zero => cases hfuel
      | succ fuel =>
          rw [seg_cons, Option.or_none] at h
          rw [List.head?_cons, findThread, List.find?_cons]
          by_cases ht : (k.threads t).threadId = threadId
          · simp [ht]
          · have hnext : (k.threads t).tableEntry.next = xs.head? := h.1
            simp only [ht, if_false, decide_false, hnext]
            exact ih h.2 (Nat.le_of_succ_le_succ hfuel)

/-- Live threads have ids of their own, each is in its bucket once and is found there, and
the ids in use are theirs and 0. -/
structure ThreadsFound (k : Kernel) : Prop where
  distinct : ∀ t u, k.IsThread t → k.IsThread u →
    (k.threads t).threadId = (k.threads u).threadId → t = u
  ids : ∀ t, k.IsThread t → (k.threads t).threadId ≠ 0 ∧ (k.threads t).threadId < maxThreads
  bucket : ∀ t, k.IsThread t → (k.threads t).bucketNumber < numBuckets
  buckets : ∀ i < numBuckets, ∃ xs, IsQueue (k.threadHashTable i) k.tableEntries xs ∧
    ∀ t, t ∈ xs ↔ k.IsThread t ∧ (k.threads t).bucketNumber = i
  lookUp : ∀ threadId, ∀ i < numBuckets, ∃ n, ∀ fuel ≥ n, ∃ found shouldUnlock k',
    lookUpThreadById fuel k threadId i = some (found, shouldUnlock, k') ∧
      ∀ t, found = some t ↔
        k.IsThread t ∧ (k.threads t).threadId = threadId ∧ (k.threads t).bucketNumber = i
  used : ∀ i < maxThreads,
    k.usedThreadIds i = true ↔ i = 0 ∨ ∃ t, k.IsThread t ∧ (k.threads t).threadId = i
  full : ∀ fuel placement k', k.allocThread fuel placement = some (none, k') →
    placement.block ≠ none → ∀ i < maxThreads, k.usedThreadIds i = true

theorem ThreadTable.threadsFound (h : k.ThreadTable) : k.ThreadsFound where
  distinct := h.distinct
  ids := h.ids
  bucket t ht := h.bucket_lt ht
  buckets i hi := by
    obtain ⟨xs, hxs, hmem⟩ := h.queues i
    rw [threadBucket, if_pos hi] at hxs
    exact ⟨xs, hxs, fun t => (hmem t).trans bucketOf_eq_some⟩
  lookUp threadId i hi := by
    obtain ⟨xs, hxs, hmem⟩ := h.queues i
    rw [threadBucket, if_pos hi] at hxs
    refine ⟨xs.length, fun fuel hfuel => ?_⟩
    have hfind : k.findThread threadId fuel xs.head? = _ :=
      findThread_returns hxs.forward hfuel
    unfold lookUpThreadById
    rw [hxs.start_eq, hfind]
    cases hfound : xs.find? fun t => (k.threads t).threadId = threadId with
    | none =>
        refine ⟨none, false, k, rfl, fun t => iff_of_false (Option.some_ne_none t).symm ?_⟩
        rintro ⟨ht, hid, hbucket⟩
        have hnot := List.find?_eq_none.mp hfound t
          ((hmem t).mpr (bucketOf_eq_some.mpr ⟨ht, hbucket⟩))
        exact hnot (decide_eq_true hid)
    | some u =>
        have hu := bucketOf_eq_some.mp ((hmem u).mp (List.mem_of_find?_eq_some hfound))
        have huid : (k.threads u).threadId = threadId := by
          simpa using List.find?_some hfound
        refine ⟨some u, _, _, rfl, fun t => ?_⟩
        rw [Option.some.injEq]
        constructor
        · rintro rfl
          exact ⟨hu.1, huid, hu.2⟩
        · rintro ⟨ht, hid, -⟩
          exact h.distinct u t hu.1 ht (huid.trans hid.symm)
  used := h.used
  full fuel placement k' halloc hblock i hi := by
    cases allocThread_none halloc with
    | inl hnone => exact findThreadId_none hnone i (Nat.zero_le i) (by rwa [Nat.zero_add])
    | inr hfailed => exact absurd hfailed hblock

/-- The heap may move the thread at `t`, and tells it. -/
def unlockThread (k : Kernel) (t : Addr) : Kernel :=
  { k with
    kinds := Function.update k.kinds t .movable
    space := { k.space with updateRefs := Function.update k.space.updateRefs t .onThreadMoved } }

theorem unlockThread_keepsTable (k : Kernel) (t : Addr) : k.KeepsTable (k.unlockThread t) :=
  ⟨fun _ => .rfl, fun _ _ => rfl, rfl, rfl⟩

theorem zero_noThreads : Kernel.zero.initThreads.NoThreads :=
  ⟨Kernel.zero, fun _ => Option.some_ne_none _ ∘ Eq.symm, rfl⟩

end Kernel

end Cenix
