import Cenix.Vfs.Asking
import Cenix.Vfs.Totality

namespace Cenix.Vfs

open Programs

/-! Rounds over the directories that are mounted on a mount point. -/

/-- A directory in a slot of the node of a list. -/
structure Mounted where
  index : Nat
  slot : Nat
  createFlagged : Bool
  deriving DecidableEq, Repr

/-- Where `mounted_list_insert` has put the directory. -/
def Mounted.place (d : Mounted) : Place :=
  .listSlot d.index d.slot

/-- Where `iterate_over_mounted_list` looks for it. -/
def Mounted.address (d : Mounted) : Nat :=
  mountedListSlot d.index d.slot

def directoriesIn (index : Nat) (info : MountedListInfo) (slots : List Nat) : List Mounted :=
  (slots.filter info.usedSlots.getLsbD).map fun i =>
    ⟨index, i, info.createFlaggedSlots.getLsbD i⟩

/-- The directories from an entry of a list on, for which `fuel` rounds are enough. -/
inductive Lists (f : Place → Option Structure) : (fuel index : Nat) → List Mounted → Prop where
  | none {fuel : Nat} : Lists f (fuel + 1) sizeMax []
  | entry {fuel index : Nat} {info : MountedListInfo} {ds : List Mounted}
      (hindex : index < maxMountedFs) (hinfo : f (.listInfo index) = some (.listInfo info))
      (hslots : ∀ i, info.usedSlots.getLsbD i = true → i < 2 ^ mountedListEntryBits)
      (hnew : ∀ d ∈ ds, d.index ≠ index) (hrest : Lists f fuel info.nextIndex ds) :
      Lists f (fuel + 1) index (directoriesIn index info (List.range ptrBits) ++ ds)

/-- The structures are those of `f`, except for what is opened. -/
def Agrees (f : Place → Option Structure) (w : World) : Prop :=
  ∀ p, ¬opened p → w.server.structures p = f p

/-- Nothing has happened but that locks were taken and given up. -/
structure Rests (w w' : World) : Prop where
  server : w'.server = w.server
  answers : w'.answers = w.answers
  asks : w'.asks = w.asks

variable {f : Place → Option Structure} {w w' : World} {α : Type}

instance : Std.Refl Rests where
  refl _ := ⟨rfl, rfl, rfl⟩

instance : IsTrans World Rests where
  trans _ _ _ h h' :=
    ⟨h'.server.trans h.server, h'.answers.trans h.answers, h'.asks.trans h.asks⟩

theorem Agrees.of_changes {P : Place → Prop} (h : Agrees f w) (hchange : ChangesOnly P w w')
    (hP : ∀ p, P p → opened p) : Agrees f w' := by
  intro p hp
  rw [hchange.structures p fun hchanged => hp (hP p hchanged)]
  exact h p hp

theorem Agrees.of_rests (h : Agrees f w) (hrests : Rests w w') : Agrees f w' := by
  intro p hp
  rw [hrests.server]
  exact h p hp

theorem lock_rests {caller : Caller} {address : Nat} (hcaller : caller ≠ .openFileCallback) :
    Respects Rests (lock caller address) := by
  intro w found w' h
  refine ⟨lock_fds h, (lock_emits (S := [caller]) (by simp) _ _ _ h).answers, ?_⟩
  exact (lock_emits (S := [caller]) (by simp) _ _ _ h).asks (by simpa using hcaller.symm)

theorem unlock_rests {caller : Caller} {address : Nat} (hcaller : caller ≠ .openFileCallback) :
    Respects Rests (unlock caller address) := by
  intro w u w' h
  refine ⟨?_, (unlock_emits (S := [caller]) (by simp) _ _ _ h).answers, ?_⟩
  · cases h
    rfl
  · exact (unlock_emits (S := [caller]) (by simp) _ _ _ h).asks (by simpa using hcaller.symm)

theorem lock_some (caller : Caller) (address : Nat) (w : World) :
    ∃ found w', lock caller address w = some (found, w') :=
  ⟨_, _, rfl⟩

theorem unlock_some (caller : Caller) (address : Nat) (w : World) :
    ∃ w', unlock caller address w = some ((), w') :=
  ⟨_, rfl⟩

theorem listInfoAt_of {address : Nat} {info : MountedListInfo}
    (h : w.server.structures (place address) = some (.listInfo info)) :
    listInfoAt address w = some (info, w) := by
  have hread : structureAt address w = some (.listInfo info, w) := by
    simp [structureAt, h]
  exact bind_of hread

theorem mountPointAt_of {address : Nat} {mountPoint : MountPoint}
    (h : w.server.structures (place address) = some (.mountPoint mountPoint)) :
    mountPointAt address w = some (mountPoint, w) := by
  have hread : structureAt address w = some (.mountPoint mountPoint, w) := by
    simp [structureAt, h]
  exact bind_of hread

theorem fsNamespaceAt_of {address : Nat} {fsNamespace : FsNamespace}
    (h : w.server.structures (place address) = some (.fsNamespace fsNamespace)) :
    fsNamespaceAt address w = some (fsNamespace, w) := by
  have hread : structureAt address w = some (.fsNamespace fsNamespace, w) := by
    simp [structureAt, h]
  exact bind_of hread

theorem not_opened_listInfo {index : Nat} : ¬opened (.listInfo index) := by
  rintro (⟨id, h⟩ | ⟨id, h⟩) <;> cases h

theorem not_opened_mountPoint {id : Nat} : ¬opened (.mountPoint id) := by
  rintro (⟨id, h⟩ | ⟨id, h⟩) <;> cases h

theorem not_opened_fsNamespace {id : Nat} : ¬opened (.fsNamespace id) := by
  rintro (⟨id, h⟩ | ⟨id, h⟩) <;> cases h

/-! The directories of a list. -/

/-- The address is that of another slot, of another list, unless the slot is the first one. -/
theorem place_address (d : Mounted) : place d.address =
    .listSlot ((d.slot * 16 ||| d.index) % 2 ^ mountedFsBits)
      ((d.slot * 16 ||| d.index) / 2 ^ mountedFsBits % 2 ^ mountedListEntryBits) := by
  have hlow : d.slot * 2 ^ mountedFsBits % 2 ^ initNodeDepth = 0 := by
    simp only [mountedFsBits, initNodeDepth]
    omega
  have hshift : d.slot * 2 ^ mountedFsBits / 2 ^ initNodeDepth = d.slot * 16 := by
    simp only [mountedFsBits, initNodeDepth]
    omega
  have hmod : d.address % 2 ^ initNodeDepth = mountedListNodeSlot := by
    rw [Mounted.address, mountedListSlot, Nat.or_mod_two_pow, mountedListNodeAddress,
      nodeAddress_mod _ (by decide), hlow, Nat.zero_or]
  have hdiv : d.address / 2 ^ initNodeDepth = d.slot * 16 ||| d.index := by
    rw [Mounted.address, mountedListSlot, Nat.or_div_two_pow, mountedListNodeAddress,
      nodeAddress_div _ (by decide), hshift]
  rw [place, hmod, hdiv]
  rfl

theorem place_address_eq_place {d : Mounted} (hindex : d.index < maxMountedFs)
    (hslot : d.slot < 2 ^ mountedListEntryBits) : place d.address = d.place ↔ d.slot = 0 := by
  have hdiv : (d.slot * 16 ||| d.index) / 2 ^ mountedFsBits = d.slot / 16 := by
    rw [Nat.or_div_two_pow, Nat.div_eq_of_lt (show d.index < 2 ^ mountedFsBits from hindex),
      Nat.or_zero]
    simp only [mountedFsBits]
    omega
  rw [place_address, hdiv, Mounted.place, Place.listSlot.injEq]
  constructor
  · rintro ⟨-, h⟩
    simp only [mountedListEntryBits] at h hslot
    omega
  · intro h
    rw [h, Nat.zero_mul, Nat.zero_or]
    exact ⟨Nat.mod_eq_of_lt hindex, rfl⟩

theorem Lists.bounds {fuel index : Nat} {ds : List Mounted} (h : Lists f fuel index ds) :
    ∀ d ∈ ds, d.index < maxMountedFs ∧ d.slot < 2 ^ mountedListEntryBits := by
  induction h with
  | none => exact nofun
  | entry hindex _ hslots _ _ ih =>
      intro d hd
      cases List.mem_append.mp hd with
      | inl hd =>
          obtain ⟨i, hi, rfl⟩ := List.mem_map.mp hd
          exact ⟨hindex, hslots i (List.mem_filter.mp hi).2⟩
      | inr hd => exact ih d hd

theorem Lists.nodup {fuel index : Nat} {ds : List Mounted} (h : Lists f fuel index ds) :
    (ds.map Mounted.place).Nodup := by
  induction h with
  | none => exact .nil
  | @entry fuel index info ds _ _ _ hnew _ ih =>
      have hslots : (directoriesIn index info (List.range ptrBits)).map Mounted.place =
          ((List.range ptrBits).filter info.usedSlots.getLsbD).map (Place.listSlot index) := by
        rw [directoriesIn, List.map_map]
        rfl
      rw [List.map_append, hslots, List.nodup_append]
      refine ⟨(List.nodup_range.filter _).map fun i j hij => (Place.listSlot.inj hij).2, ih, ?_⟩
      intro p hp q hq
      obtain ⟨i, -, rfl⟩ := List.mem_map.mp hp
      obtain ⟨d, hd, rfl⟩ := List.mem_map.mp hq
      exact fun heq => hnew d hd (Place.listSlot.inj heq).1.symm
/-! The loops.  `J` says what holds with the directories that are left, and `Q` what holds
once the callback has ended the search. -/

def SearchGoesOn (J : World → Prop) (Q : Nat → World → Prop) : Option Nat → World → Prop
  | none, w => J w
  | some result, w => Q result w

variable {J : List Mounted → World → Prop} {Q : Nat → World → Prop}
  {fn : Nat → Bool → Vfs (Option Nat)} {ds : List Mounted}

theorem directoriesIn_cons {index i : Nat} {info : MountedListInfo} {slots : List Nat} :
    directoriesIn index info (i :: slots) =
      if info.usedSlots.getLsbD i then
        ⟨index, i, info.createFlaggedSlots.getLsbD i⟩ :: directoriesIn index info slots
      else
        directoriesIn index info slots := by
  rw [directoriesIn, List.filter_cons]
  split <;> rfl

theorem iterateOverSlots_returns {index : Nat} {info : MountedListInfo} {slots : List Nat}
    (hfn : ∀ d rest, Returns (J (d :: rest)) (fn d.address d.createFlagged)
      (SearchGoesOn (J rest) Q)) :
    Returns (J (directoriesIn index info slots ++ ds)) (iterateOverSlots index info fn slots)
      (SearchGoesOn (J ds) Q) := by
  induction slots with
  | nil => exact .pure fun w hw => hw
  | cons i slots ih =>
      rw [directoriesIn_cons, iterateOverSlots]
      refine .ite (fun hunused => ?_) fun hused => ?_
      · rw [hunused]
        exact ih
      · rw [Bool.not_eq_false] at hused
        rw [hused]
        refine .bind (hfn ⟨index, i, info.createFlaggedSlots.getLsbD i⟩ _) fun found => ?_
        cases found with
        | none => exact ih
        | some result => exact .pure fun w hw => hw

/-- The state a round starts in. -/
structure Ready (f : Place → Option Structure) (callers : List Caller) (w : World) : Prop where
  agrees : Agrees f w
  grants : Grants callers w.answers

theorem iterateOverMountedList_returns {fuel index : Nat} (hlists : Lists f fuel index ds)
    (hJ : ∀ ds w, J ds w → Ready f [.iterateOverMountedList] w)
    (hJrests : ∀ ds w w', J ds w → Rests w w' → J ds w')
    (hQrests : ∀ result w w', Q result w → Rests w w' → Q result w')
    (hfn : ∀ d rest, Returns (J (d :: rest)) (fn d.address d.createFlagged)
      (SearchGoesOn (J rest) Q))
    (hend : ∀ w, J [] w → Q eNoEnt w) :
    Returns (J ds) (iterateOverMountedList fn fuel index) Q := by
  induction hlists with
  | none => exact .pure hend
  | @entry fuel index info ds hindex hinfo _ _ _ ih =>
      have hne : index ≠ sizeMax := by
        rintro rfl
        exact absurd hindex (by decide)
      rw [iterateOverMountedList, if_neg hne]
      intro w hw
      obtain ⟨found, w₁, hlock⟩ :=
        lock_some .iterateOverMountedList (mountedListInfoAddress index) w
      have hfound : found = true := lock_granted (hJ _ _ hw).grants (by decide) hlock
      have hw₁ := hJrests _ _ _ hw (lock_rests (by decide) _ _ _ hlock)
      have hmod : index % 2 ^ mountedFsBits = index := Nat.mod_eq_of_lt hindex
      have hread : listInfoAt (mountedListInfoAddress index) w₁ = some (info, w₁) := by
        refine listInfoAt_of ?_
        rw [place_mountedListInfoAddress, hmod, (hJ _ _ hw₁).agrees _ not_opened_listInfo, hinfo]
      obtain ⟨next, w₂, hslots, hw₂⟩ := iterateOverSlots_returns hfn w₁ hw₁
      obtain ⟨w₃, hunlock⟩ :=
        unlock_some .iterateOverMountedList (mountedListInfoAddress index) w₂
      have hrests := unlock_rests (by decide) _ _ _ hunlock
      rw [bind_of hlock, hfound]
      simp only [Bool.not_true, Bool.false_eq_true, if_false]
      rw [bind_of hread, bind_of hslots, bind_of hunlock]
      cases next with
      | none => exact ih w₃ (hJrests _ _ _ hw₂ hrests)
      | some result => exact ⟨result, w₃, rfl, hQrests _ _ _ hw₂ hrests⟩

theorem iterateOverMountPoint_returns {fuel id mountPointAddress : Nat} {mountPoint : MountPoint}
    (hplace : place mountPointAddress = .mountPoint id)
    (hmountPoint : f (.mountPoint id) = some (.mountPoint mountPoint))
    (hlists : Lists f fuel mountPoint.mountedListIndex ds)
    (hJ : ∀ ds w, J ds w → Ready f [.iterateOverMountPoint, .iterateOverMountedList] w)
    (hJrests : ∀ ds w w', J ds w → Rests w w' → J ds w')
    (hQrests : ∀ result w w', Q result w → Rests w w' → Q result w')
    (hfn : ∀ d rest, Returns (J (d :: rest)) (fn d.address d.createFlagged)
      (SearchGoesOn (J rest) Q))
    (hend : ∀ w, J [] w → Q eNoEnt w) :
    Returns (J ds) (iterateOverMountPoint fuel mountPointAddress fn) Q := by
  have hready : ∀ ds w, J ds w → Ready f [.iterateOverMountedList] w := by
    intro ds w hw
    refine ⟨(hJ ds w hw).agrees, fun time caller address hcaller => ?_⟩
    exact (hJ ds w hw).grants time caller address (List.mem_cons_of_mem _ hcaller)
  intro w hw
  obtain ⟨found, w₁, hlock⟩ := lock_some .iterateOverMountPoint mountPointAddress w
  have hfound : found = true := lock_granted (hJ _ _ hw).grants (by decide) hlock
  have hw₁ := hJrests _ _ _ hw (lock_rests (by decide) _ _ _ hlock)
  have hread : mountPointAt mountPointAddress w₁ = some (mountPoint, w₁) := by
    refine mountPointAt_of ?_
    rw [hplace, (hJ _ _ hw₁).agrees _ not_opened_mountPoint, hmountPoint]
  obtain ⟨result, w₂, hlist, hw₂⟩ :=
    iterateOverMountedList_returns hlists hready hJrests hQrests hfn hend w₁ hw₁
  obtain ⟨w₃, hunlock⟩ := unlock_some .iterateOverMountPoint mountPointAddress w₂
  refine ⟨result, w₃, ?_, hQrests _ _ _ hw₂ (unlock_rests (by decide) _ _ _ hunlock)⟩
  rw [iterateOverMountPoint, bind_of hlock, hfound]
  simp only [Bool.not_true, Bool.false_eq_true, if_false]
  rw [bind_of hread, bind_of hlist, bind_of hunlock]
  rfl

end Cenix.Vfs
