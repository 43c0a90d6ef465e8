import Cenix.Runs
import Cenix.Vfs.References
import Mathlib.Algebra.BigOperators.Group.Finset.Basic

namespace Cenix.Vfs

open Programs

/-! A namespace counts the processes that use it. -/

/-- The namespace that a process's data names. -/
def namespaceOf : Option Structure → Option Nat
  | some (.processData data) => some data.fsNamespace
  | _ => none

/-- The places that count references and that are counted. -/
inductive Tracked : Place → Prop where
  | processData (i : Nat) : Tracked (.processData i)
  | fsNamespace (id : Nat) : Tracked (.fsNamespace id)

/-- How many processes have a namespace. -/
def users (f : Place → Option Structure) (id : Nat) : Nat :=
  ((Finset.range (2 ^ pidBits)).filter fun i => namespaceOf (f (.processData i)) = some id).card

/-- The namespace with an id, if it is allocated, has `count` references. -/
def Counts (count : Nat) : Option Structure → Prop
  | none => count = 0
  | some (.fsNamespace fsNamespace) => 0 < count ∧ fsNamespace.references = count
  | some _ => False

structure Counted (f : Place → Option Structure) : Prop where
  processes : ∀ i, f (.processData i) = none ∨ i < 2 ^ pidBits ∧ ∃ data,
    f (.processData i) = some (.processData data) ∧ data.fsNamespace < maxNamespaces
  namespaces : ∀ id, Counts (users f id) (f (.fsNamespace id))

variable {f : Place → Option Structure} {w w' : World} {id n : Nat}

theorem users_le (f : Place → Option Structure) (id : Nat) : users f id ≤ 2 ^ pidBits :=
  (Finset.card_filter_le _ _).trans (Finset.card_range _).le

theorem users_congr {f' : Place → Option Structure}
    (h : ∀ i, f' (.processData i) = f (.processData i)) : users f' id = users f id := by
  refine congrArg Finset.card (Finset.filter_congr fun i _ => ?_)
  rw [h i]

/-- A process that had no data before uses one namespace more. -/
theorem users_update (hn : n < 2 ^ pidBits) (hnone : f (.processData n) = none)
    (data : ProcessData) :
    users (Function.update f (.processData n) (some (.processData data))) id =
      users f id + if data.fsNamespace = id then 1 else 0 := by
  have hother : ∀ i, i ≠ n → Function.update f (.processData n) (some (.processData data))
      (.processData i) = f (.processData i) := by
    intro i hne
    exact Function.update_of_ne (fun h => hne (Place.processData.inj h)) _ _
  have hbefore : namespaceOf (f (.processData n)) ≠ some id := by
    simp [hnone, namespaceOf]
  unfold users
  cases decEq data.fsNamespace id with
  | isTrue heq =>
      have hfilter : ((Finset.range (2 ^ pidBits)).filter fun i => namespaceOf
          (Function.update f (.processData n) (some (.processData data)) (.processData i)) =
            some id) = insert n ((Finset.range (2 ^ pidBits)).filter fun i =>
          namespaceOf (f (.processData i)) = some id) := by
        ext i
        rw [Finset.mem_insert, Finset.mem_filter, Finset.mem_filter, Finset.mem_range]
        cases decEq i n with
        | isTrue hi =>
            subst hi
            simp only [Function.update_self, namespaceOf, heq]
            simp only [hn, and_self, true_or]
        | isFalse hi =>
            rw [hother i hi]
            simp only [hi, false_or]
      have hnew : n ∉ (Finset.range (2 ^ pidBits)).filter fun i =>
          namespaceOf (f (.processData i)) = some id :=
        fun h => hbefore (Finset.mem_filter.mp h).2
      rw [hfilter, Finset.card_insert_of_notMem hnew, if_pos heq]
  | isFalse hne =>
      have hfilter : ((Finset.range (2 ^ pidBits)).filter fun i => namespaceOf
          (Function.update f (.processData n) (some (.processData data)) (.processData i)) =
            some id) = (Finset.range (2 ^ pidBits)).filter fun i =>
          namespaceOf (f (.processData i)) = some id := by
        apply Finset.filter_congr
        intro i _
        cases decEq i n with
        | isTrue hi =>
            subst hi
            simp only [Function.update_self, namespaceOf, Option.some.injEq, hne, false_iff]
            exact hbefore
        | isFalse hi => rw [hother i hi]
      rw [hfilter, if_neg hne, Nat.add_zero]

/-! The steps of a call. -/

/-- A namespace with one reference more than before, which can be given up again. -/
def Taken (f : Place → Option Structure) (id : Nat) (w : World) : Prop :=
  ∃ fsNamespace, fsNamespace.references = users f id + 1 ∧
    withoutReference (Function.update f (.fsNamespace id) (some (.fsNamespace fsNamespace))) id
      fsNamespace = f ∧
    Sees (Function.update f (.fsNamespace id) (some (.fsNamespace fsNamespace))) w

/-- The result of `namespaceForProcess`. -/
def Chosen (f : Place → Option Structure) (result : Except Nat (Nat × Bool)) (w : World) : Prop :=
  match result with
  | .error e => e ≠ 0 ∧ (Undone w → Sees f w)
  | .ok (id, _) => id < maxNamespaces ∧ Taken f id w

/-- The creator of a process that shares its namespace has data. -/
def HasCreator (f : Place → Option Structure) (creatorPid : Nat) (flags : BitVec 8) : Prop :=
  flags &&& vfsShareNamespace ≠ 0 →
    ∃ data, f (.processData (creatorPid % 2 ^ pidBits)) = some (.processData data)

theorem Counted.shared (h : Counted f) {i : Nat} {data : ProcessData}
    (hdata : f (.processData i) = some (.processData data)) :
    data.fsNamespace < maxNamespaces ∧ ∃ fsNamespace,
      f (.fsNamespace data.fsNamespace) = some (.fsNamespace fsNamespace) ∧
      fsNamespace.references = users f data.fsNamespace ∧ 0 < users f data.fsNamespace := by
  rcases h.processes i with hnone | ⟨hi, data', hdata', hid⟩
  · rw [hnone] at hdata
    cases hdata
  · rw [hdata] at hdata'
    cases hdata'
    have hpos : 0 < users f data.fsNamespace := by
      apply Finset.card_pos.mpr
      exact ⟨i, Finset.mem_filter.mpr ⟨Finset.mem_range.mpr hi, by rw [hdata]; rfl⟩⟩
    have hcount := h.namespaces data.fsNamespace
    refine ⟨hid, ?_⟩
    cases hf : f (.fsNamespace data.fsNamespace) with
    | none =>
        rw [hf] at hcount
        exact absurd hcount hpos.ne'
    | some structure' =>
        rw [hf] at hcount
        cases structure' with
        | fsNamespace fsNamespace => exact ⟨fsNamespace, rfl, hcount.2, hpos⟩
        | uninitialized | processData | directoryInfo | mountPoint | listInfo =>
            exact absurd hcount id

theorem Counted.fresh (h : Counted f) (hnone : f (.fsNamespace id) = none) : users f id = 0 := by
  have hcount := h.namespaces id
  rw [hnone] at hcount
  exact hcount

theorem namespaceForProcess_returns {creatorPid : Nat} {flags : BitVec 8} (h : Counted f)
    (hcreator : HasCreator f creatorPid flags) :
    Returns (Sees f) (namespaceForProcess creatorPid flags) (Chosen f) := by
  refine .ite (fun hshare => ?_) fun _ => ?_
  · obtain ⟨data, hdata⟩ := hcreator hshare
    obtain ⟨hid, fsNamespace, hf, hreferences, hpos⟩ := h.shared hdata
    refine .bind lock_returns fun _ => .ite
      (fun _ => .pure fun w hw => ⟨by decide, fun _ => hw⟩) fun _ => ?_
    have hcreatorPlace : f (place (processDataAddress creatorPid)) =
        some (.processData data) := by
      rw [place_processDataAddress, hdata]
    refine .bind (processDataAt_returns hcreatorPlace) fun creator => .and_pre fun heq => ?_
    subst heq
    refine .bind unlock_returns fun _ => .bind lock_returns fun _ => .ite
      (fun _ => .pure fun w hw => ⟨by decide, fun _ => hw⟩) fun _ => ?_
    have hplace : f (place (namespaceAddress creator.fsNamespace)) =
        some (.fsNamespace fsNamespace) := by
      rw [place_namespace hid, hf]
    refine .bind (fsNamespaceAt_returns hplace) fun fsNamespace' => .and_pre fun heq => ?_
    subst heq
    refine .bind (writeStructure_returns (by rw [hplace]; exact Option.some_ne_none _))
      fun _ => .bind unlock_returns fun _ => .pure fun w hw => ⟨hid, ?_⟩
    rw [place_namespace hid] at hw
    have hsmall : (fsNamespace'.references + 1) % 2 ^ ptrBits = fsNamespace'.references + 1 := by
      have hle := users_le f creator.fsNamespace
      rw [← hreferences] at hle
      simp only [pidBits, ptrBits] at *
      omega
    refine ⟨_, ?_, ?_, hw⟩
    · exact hsmall.trans (congrArg (· + 1) hreferences)
    · have hmore : ¬fsNamespace'.references + 1 ≤ 1 := by omega
      simp only [withoutReference, hsmall, hmore, if_false, Function.update_idem,
        Nat.add_sub_cancel]
      rw [← hf, Function.update_eq_self]
  · refine .bind allocNamespace_returns fun a => .ite
      (fun hfailed => .pure fun w hw => ⟨by decide, ?_⟩) fun hne => .pure fun w hw => ?_
    · rcases hw with ⟨-, hsees⟩ | ⟨id, hid, ha, -⟩
      · exact hsees
      · exact absurd (ha.symm.trans hfailed) (nodeAddress_ne_sizeMax (by decide) hid)
    · rcases hw with ⟨ha, -⟩ | ⟨id, hid, ha, hnone, hsees⟩
      · exact absurd ha hne
      · subst ha
        have hdiv : namespaceAddress id / 2 ^ initNodeDepth = id := nodeAddress_div id (by decide)
        rw [hdiv]
        refine ⟨hid, emptyNamespace, ?_, ?_, hsees⟩
        · rw [h.fresh hnone]
          rfl
        · simp only [withoutReference, emptyNamespace, le_refl, if_true, Function.update_idem]
          rw [← hnone, Function.update_eq_self]

/-- The structures with the data of a new process, which has a namespace taken before. -/
def WithProcess (f : Place → Option Structure) (newPid id : Nat)
    (g : Place → Option Structure) : Prop :=
  ∃ fsNamespace data, f (.processData (newPid % 2 ^ pidBits)) = none ∧
    data.fsNamespace = id ∧ id < maxNamespaces ∧ fsNamespace.references = users f id + 1 ∧
    g = Function.update (Function.update f (.fsNamespace id)
      (some (.fsNamespace fsNamespace))) (.processData (newPid % 2 ^ pidBits))
        (some (.processData data))

/-- Only structures that are not tracked differ. -/
def SameTracked (f g : Place → Option Structure) : Prop :=
  ∀ p, Tracked p → g p = f p

theorem Counted.withProcess (h : Counted f) {newPid : Nat} {g : Place → Option Structure}
    (hg : WithProcess f newPid id g) : Counted g := by
  obtain ⟨fsNamespace, data, hnone, rfl, hid, hreferences, rfl⟩ := hg
  have hn : newPid % 2 ^ pidBits < 2 ^ pidBits := Nat.mod_lt _ (by decide)
  generalize newPid % 2 ^ pidBits = n at hn hnone
  have husers : ∀ id, users (Function.update (Function.update f (.fsNamespace data.fsNamespace)
      (some (.fsNamespace fsNamespace))) (.processData n) (some (.processData data))) id =
      users f id + if data.fsNamespace = id then 1 else 0 := by
    intro id
    rw [users_update hn (by simpa using hnone)]
    have hsame : users (Function.update f (.fsNamespace data.fsNamespace)
        (some (.fsNamespace fsNamespace))) id = users f id := users_congr fun i => by simp
    rw [hsame]
  constructor
  · intro i
    cases decEq i n with
    | isTrue heq => exact .inr ⟨heq ▸ hn, data, by simp [heq], hid⟩
    | isFalse hne =>
        have hplace : Place.processData i ≠ .processData n := fun h => hne (Place.processData.inj h)
        simpa [hplace] using h.processes i
  · intro id
    rw [husers id]
    cases decEq data.fsNamespace id with
    | isTrue heq =>
        subst heq
        simp [Counts, hreferences]
    | isFalse hne =>
        have hplace : Place.fsNamespace id ≠ .fsNamespace data.fsNamespace :=
          fun h => hne (Place.fsNamespace.inj h).symm
        simpa [hplace, hne] using h.namespaces id

theorem Counted.congr (h : Counted f) {g : Place → Option Structure} (hg : SameTracked f g) :
    Counted g := by
  constructor
  · intro i
    rw [hg _ (.processData i)]
    exact h.processes i
  · intro id
    rw [hg _ (.fsNamespace id), users_congr fun i => hg _ (.processData i)]
    exact h.namespaces id

theorem SameTracked.trans {g g' : Place → Option Structure} (h : SameTracked f g)
    (h' : SameTracked g g') : SameTracked f g' :=
  fun p hp => (h' p hp).trans (h p hp)

theorem tracked_not_directoryInfo {p : Place} (hp : Tracked p) : ¬inNode directoryInfoSlot p := by
  rintro ⟨i, rfl⟩
  cases hp

/-- `open_root` and what comes after it see the same processes and namespaces. -/
theorem openRoot_sees {state : State} {badge replyCapability : Nat} {fsNamespace : FsNamespace}
    (hid : id < maxNamespaces) (hf : f (.fsNamespace id) = some (.fsNamespace fsNamespace)) :
    Returns (Sees f) (openRoot state badge replyCapability id) fun _ w =>
      ∃ g, SameTracked f g ∧ Sees g w := by
  have hsame : Ensures (Sees f) (openRoot state badge replyCapability id) fun _ w =>
      ∃ g, SameTracked f g ∧ Sees g w := by
    intro w result w' hw hopen
    have hchange := openRoot_touches w result w' hopen
    refine ⟨w'.server.structures, fun p hp => ?_, rfl⟩
    rw [hchange.structures p (tracked_not_directoryInfo hp), hw]
  exact ((openRoot_returns hid hf).and hsame).post fun _ _ hw => hw.2

/-- Giving the reference up and deleting the data undoes both. -/
theorem sameTracked_undone {fsNamespace : FsNamespace} {g : Place → Option Structure}
    {x : Option Structure} (hnone : f (.processData n) = none)
    (hundo : withoutReference (Function.update f (.fsNamespace id)
      (some (.fsNamespace fsNamespace))) id fsNamespace = f)
    (hg : SameTracked (Function.update (Function.update f (.fsNamespace id)
      (some (.fsNamespace fsNamespace))) (.processData n) x) g) :
    SameTracked f (Function.update (withoutReference g id fsNamespace) (.processData n) none) := by
  intro p hp
  have hgp := hg p hp
  cases decEq p (.processData n) with
  | isTrue heq => simp [heq, hnone]
  | isFalse hne =>
      rw [Function.update_of_ne hne] at hgp ⊢
      have hat := congrFun hundo p
      cases decEq p (.fsNamespace id) with
      | isTrue heq =>
          subst heq
          simpa [withoutReference] using hat
      | isFalse hne' => simpa [withoutReference, hne'] using hgp

/-- What a call leaves behind. -/
def CallDone (f : Place → Option Structure) (newPid result : Nat) (w : World) : Prop :=
  (result = 0 ∧ ∃ id g g', WithProcess f newPid id g ∧ SameTracked g g' ∧ Sees g' w) ∨
    (result ≠ 0 ∧ (Undone w → ∃ g, SameTracked f g ∧ Sees g w))

/-- The part of the call after the data of the process has been allocated. -/
theorem setUp_rest {state : State} {newPid replyAddress : Nat} {force : Bool}
    {flags : BitVec 8} {fsNamespace : FsNamespace} (hid : id < maxNamespaces)
    (hreferences : fsNamespace.references = users f id + 1)
    (hundo : withoutReference (Function.update f (.fsNamespace id)
      (some (.fsNamespace fsNamespace))) id fsNamespace = f)
    (hnone : f (.processData (newPid % 2 ^ pidBits)) = none) :
    Returns (Sees (Function.update (Function.update f (.fsNamespace id)
        (some (.fsNamespace fsNamespace))) (.processData (newPid % 2 ^ pidBits))
        (some .uninitialized)))
      (fillProcessData state newPid flags replyAddress id force) (CallDone f newPid) := by
  have hplace : nodePlace processDataNodeSlot newPid = .processData (newPid % 2 ^ pidBits) := rfl
  have haddress : place (processDataAddress newPid) = .processData (newPid % 2 ^ pidBits) :=
    place_processDataAddress newPid
  have hdone : ∀ data : ProcessData, data.fsNamespace = id → WithProcess f newPid id
      (Function.update (Function.update f (.fsNamespace id) (some (.fsNamespace fsNamespace)))
        (.processData (newPid % 2 ^ pidBits)) (some (.processData data))) :=
    fun data hdata => ⟨fsNamespace, data, hnone, hdata, hid, hreferences, rfl⟩
  unfold CallDone
  generalize newPid % 2 ^ pidBits = n at *
  have htaken : ∀ x, Function.update (Function.update f (.fsNamespace id)
      (some (.fsNamespace fsNamespace))) (.processData n) x (.fsNamespace id) =
      some (.fsNamespace fsNamespace) := by
    simp
  refine .bind lock_returns fun _ => .ite (fun _ => ?_) fun _ => ?_
  · refine .bind (freeNamespace_returns hid (htaken _)) fun _ => .bind
      (nodeDelete_returns fun _ hfailed => .process _ _ _ hfailed) fun _ => .pure fun w hw =>
        .inr ⟨by decide, fun hundone => ⟨_, ?_, (hw hundone).2⟩⟩
    rw [hplace]
    exact sameTracked_undone hnone hundo fun _ _ => rfl
  · refine .bind (writeStructure_returns (by simp [haddress])) fun _ => ?_
    rw [haddress, Function.update_idem]
    refine .bind unlock_returns fun _ => .bind (openRoot_sees hid (htaken _)) fun result =>
      .exists_pre fun g => .and_pre fun hsame => ?_
    refine .bind (.ite (fun hfailed => ?_) fun hzero => .pure fun w hw => ?_) fun _ =>
      .pure fun _ hw => hw
    · have hg : g (.fsNamespace id) = some (.fsNamespace fsNamespace) :=
        (hsame _ (.fsNamespace id)).trans (htaken _)
      refine .bind (freeNamespace_returns hid hg) fun _ => .bind
        (nodeDelete_returns fun _ hfailed => .process _ _ _ hfailed) fun _ => .pure fun w hw =>
          .inr ⟨hfailed, fun hundone => ⟨_, ?_, (hw hundone).2⟩⟩
      rw [hplace]
      exact sameTracked_undone hnone hundo hsame
    · exact .inl ⟨not_not.mp hzero, id, _, g, hdone _ rfl, hsame, hw⟩

theorem setUpFilesystemForProcess_returns {state : State} {creatorPid newPid replyAddress : Nat}
    {flags : BitVec 8} (h : Counted f) (hcreator : HasCreator f creatorPid flags) :
    Returns (Sees f) (setUpFilesystemForProcess state creatorPid newPid flags replyAddress)
      (CallDone f newPid) := by
  refine .bind (namespaceForProcess_returns h hcreator) fun chosen => ?_
  cases chosen with
  | error e => exact .pure fun w hw => .inr ⟨hw.1, fun hundone => ⟨f, fun _ _ => rfl, hw.2 hundone⟩⟩
  | ok chosen =>
      obtain ⟨id, force⟩ := chosen
      refine .and_pre fun hid => .exists_pre fun fsNamespace => .and_pre fun hreferences =>
        .and_pre fun hundo => ?_
      let taken := Function.update f (.fsNamespace id) (some (.fsNamespace fsNamespace))
      have htaken : taken (.fsNamespace id) = some (.fsNamespace fsNamespace) := by
        simp [taken]
      refine .bind allocUntyped_returns fun result => .ite (fun hfailed => ?_) fun hdone => ?_
      · refine .pre (A := Sees taken) ?_ fun w hw => ?_
        · refine .bind (freeNamespace_returns hid htaken) fun _ => .pure fun w hw => .inr
            ⟨by decide, fun hundone => ⟨f, fun _ _ => rfl, ?_⟩⟩
          rw [← hundo]
          exact hw hundone
        · rcases hw with ⟨-, hsees⟩ | ⟨hzero, -⟩
          · exact hsees
          · exact absurd hzero hfailed
      · rw [place_processDataAddress]
        refine .pre (A := fun w => f (.processData (newPid % 2 ^ pidBits)) = none ∧
          Sees (Function.update taken (.processData (newPid % 2 ^ pidBits))
            (some .uninitialized)) w) (.and_pre fun hnone => ?_) fun w hw => ?_
        · exact setUp_rest hid hreferences hundo hnone
        · rcases hw with ⟨hfailed, -⟩ | ⟨-, hnone, hsees⟩
          · exact absurd (not_not.mp hdone) hfailed
          · exact ⟨by simpa [taken] using hnone, hsees⟩

/-! Sequences of calls. -/

/-- A call of `set_up_filesystem_for_process`, and how the system calls in it turn out. -/
structure ProcessCall where
  state : State
  creatorPid : Nat
  newPid : Nat
  flags : BitVec 8
  replyAddress : Nat
  answers : Nat → Caller → Request → Answer

namespace Server

def call (s : Server) (c : ProcessCall) : Option (Nat × World) :=
  setUpFilesystemForProcess c.state c.creatorPid c.newPid c.flags c.replyAddress
    (s.world c.answers)

def processStep (s : Server) (c : ProcessCall) : Option Server :=
  (s.call c).map fun (_, w) => w.server

/-- The creator of a process that shares its namespace has data, and every undo in the
call works. -/
def Permits (s : Server) (c : ProcessCall) : Prop :=
  HasCreator s.structures c.creatorPid c.flags ∧
    ∀ result w, s.call c = some (result, w) → Undone w

/-- There are no processes and namespaces yet. -/
def Unused (s : Server) : Prop :=
  ∀ p, Tracked p → s.structures p = none

structure ReferencesSound (s : Server) : Prop where
  references : ∀ id fsNamespace, s.structures (.fsNamespace id) =
    some (.fsNamespace fsNamespace) → fsNamespace.references = users s.structures id
  allocated : ∀ id, (∃ fsNamespace, s.structures (.fsNamespace id) =
    some (.fsNamespace fsNamespace)) ↔ 0 < users s.structures id
  freed : ∀ id, users s.structures id = 0 → s.structures (.fsNamespace id) = none
  named : ∀ i data, s.structures (.processData i) = some (.processData data) →
    ∃ fsNamespace, s.structures (.fsNamespace data.fsNamespace) =
      some (.fsNamespace fsNamespace)
  /-- A call that fails changes neither processes nor namespaces. -/
  atomic : ∀ c, s.Permits c → ∃ result w, s.call c = some (result, w) ∧
    (result ≠ 0 → SameTracked s.structures w.server.structures)

variable {s s' : Server} {c : ProcessCall}

theorem counted_unused (h : s.Unused) : Counted s.structures := by
  have husers : ∀ id, users s.structures id = 0 := by
    intro id
    apply Finset.card_eq_zero.mpr
    apply Finset.filter_eq_empty_iff.mpr
    intro i _
    rw [h _ (.processData i)]
    exact nofun
  constructor
  · intro i
    exact .inl (h _ (.processData i))
  · intro id
    rw [h _ (.fsNamespace id)]
    exact husers id

theorem call_returns (h : Counted s.structures) (hpermits : s.Permits c) :
    ∃ result w, s.call c = some (result, w) ∧ CallDone s.structures c.newPid result w ∧
      Undone w := by
  obtain ⟨result, w, hcall, hdone⟩ := setUpFilesystemForProcess_returns h hpermits.1
    (s.world c.answers) rfl
  exact ⟨result, w, hcall, hdone, hpermits.2 result w hcall⟩

theorem counted_processStep (h : Counted s.structures) (hpermits : s.Permits c)
    (hstep : s.processStep c = some s') : Counted s'.structures := by
  obtain ⟨result, w, hcall, hdone, hundone⟩ := call_returns h hpermits
  simp only [processStep, hcall, Option.map_some, Option.some.injEq] at hstep
  subst hstep
  rcases hdone with ⟨-, id, g, g', hg, hsame, hsees⟩ | ⟨-, hsame⟩
  · rw [show w.server.structures = g' from hsees]
    exact (h.withProcess hg).congr hsame
  · obtain ⟨g, hsame, hsees⟩ := hsame hundone
    rw [show w.server.structures = g from hsees]
    exact h.congr hsame

theorem referencesSound (h : Counted s.structures) : s.ReferencesSound := by
  constructor
  · intro id fsNamespace hf
    have hcount := h.namespaces id
    rw [hf] at hcount
    exact hcount.2
  · intro id
    have hcount := h.namespaces id
    constructor
    · rintro ⟨fsNamespace, hf⟩
      rw [hf] at hcount
      exact hcount.1
    · intro hpos
      cases hf : s.structures (.fsNamespace id) with
      | none =>
          rw [hf] at hcount
          exact absurd hcount hpos.ne'
      | some structure' =>
          rw [hf] at hcount
          cases structure' with
          | fsNamespace fsNamespace => exact ⟨fsNamespace, rfl⟩
          | uninitialized | processData | directoryInfo | mountPoint | listInfo =>
              exact hcount.elim
  · intro id hzero
    have hcount := h.namespaces id
    rw [hzero] at hcount
    cases hf : s.structures (.fsNamespace id) with
    | none => rfl
    | some structure' =>
        rw [hf] at hcount
        cases structure' with
        | fsNamespace fsNamespace => exact absurd hcount.1 (lt_irrefl 0)
        | uninitialized | processData | directoryInfo | mountPoint | listInfo =>
            exact hcount.elim
  · intro i data hdata
    obtain ⟨-, fsNamespace, hf, -⟩ := h.shared hdata
    exact ⟨fsNamespace, hf⟩
  · intro c hpermits
    obtain ⟨result, w, hcall, hdone, hundone⟩ := call_returns h hpermits
    refine ⟨result, w, hcall, fun hfailed => ?_⟩
    rcases hdone with ⟨hzero, -⟩ | ⟨-, hsame⟩
    · exact absurd hzero hfailed
    · obtain ⟨g, hsame, hsees⟩ := hsame hundone
      rw [show w.server.structures = g from hsees]
      exact hsame

/-- Every system call succeeds, and receivers take no capabilities. -/
def allSucceed : Nat → Caller → Request → Answer :=
  fun _ _ _ => ⟨0, fun _ => false, none, 0, 0, 0⟩

def firstProcess : ProcessCall :=
  ⟨mainState, 1, 1, 0, 2, allSucceed⟩

def sharingProcess : ProcessCall :=
  ⟨mainState, 1, 2, vfsShareNamespace, 2, allSucceed⟩

theorem hasCreator_of_namespaceOf {f : Place → Option Structure} {creatorPid id : Nat}
    {flags : BitVec 8}
    (h : namespaceOf (f (.processData (creatorPid % 2 ^ pidBits))) = some id) :
    HasCreator f creatorPid flags := by
  intro _
  cases hf : f (.processData (creatorPid % 2 ^ pidBits)) with
  | none => simp [hf, namespaceOf] at h
  | some structure' =>
      cases structure' with
      | processData data => exact ⟨data, rfl⟩
      | uninitialized | fsNamespace | directoryInfo | mountPoint | listInfo =>
          simp [hf, namespaceOf] at h

end Server

end Cenix.Vfs
