import Cenix.Capabilities.Authority
import Cenix.Capabilities.ResourceRuns

namespace Cenix

open LinkedLists

/-! The masks of the copies that a capability stems from, and its access rights. -/

/-- The rights at the beginning and the masks of the copies since then. -/
structure RightsPath where
  rights : BitVec 8
  masks : List (BitVec 8)
  deriving DecidableEq

namespace RightsPath

/-- The rights that no mask has removed. -/
def allowed (path : RightsPath) : BitVec 8 :=
  path.masks.foldl (· &&& ·) path.rights

def extend (path : RightsPath) (masks : List (BitVec 8)) : RightsPath :=
  { path with masks := path.masks ++ masks }

theorem allowed_extend (path : RightsPath) (masks : List (BitVec 8)) :
    (path.extend masks).allowed = masks.foldl (· &&& ·) path.allowed := by
  simp [allowed, extend]

/-- Every mask on the path counts. -/
theorem mask_of_allowed {masks : List (BitVec 8)} {mask rights : BitVec 8} {bit : Nat}
    (hmask : mask ∈ masks) (hbit : (masks.foldl (· &&& ·) rights).getLsbD bit = true) :
    mask.getLsbD bit = true := by
  induction masks generalizing rights with
  | nil => cases hmask
  | cons first masks ih =>
      cases List.mem_cons.mp hmask with
      | inr htail => exact ih htail hbit
      | inl hhead =>
          subst hhead
          have hsub : ∀ (masks : List (BitVec 8)) (rights : BitVec 8),
              (masks.foldl (· &&& ·) rights).getLsbD bit = true → rights.getLsbD bit = true := by
            intro masks
            induction masks with
            | nil => exact fun _ h => h
            | cons next masks ih =>
                intro rights h
                have hand := ih _ h
                rw [BitVec.getLsbD_and, Bool.and_eq_true] at hand
                exact hand.1
          have hand := hsub masks _ hbit
          rw [BitVec.getLsbD_and, Bool.and_eq_true] at hand
          exact hand.2

end RightsPath

/-- The masks that an operation gives on the way. -/
def CapabilityOp.masks : CapabilityOp → List (BitVec 8)
  | .invoke _ _ _ (.nodeCopy args) => [args.accessRights]
  | _ => []

/-- A kernel and the path of the capability in every slot. -/
structure RightsRecord where
  kernel : Kernel
  paths : SlotPtr → RightsPath

namespace RightsRecord

/-- At the beginning there are no copies. -/
def Begins (s : RightsRecord) : Prop :=
  ∀ p, s.paths p = ⟨(s.kernel.space.slots p).accessRights, []⟩

def step (s : RightsRecord) (op : CapabilityOp) : Option RightsRecord :=
  (s.kernel.capabilityStep op).map fun k =>
    ⟨k, s.kernel.passOn k op (·.extend op.masks) s.paths⟩

/-- The mask of a copy has all of the rights of the capability that is copied. -/
def MasksNothing (s : RightsRecord) (op : CapabilityOp) : Prop :=
  ∀ source dest mask, s.kernel.passes op = some (source, dest) →
    (s.kernel.space.slots dest).handlers = none → (s.kernel.space.slots source).handlers ≠ none →
    s.kernel.MayPass source op → mask ∈ op.masks →
    (s.kernel.space.slots source).accessRights &&& mask =
      (s.kernel.space.slots source).accessRights

/-- Every capability has exactly the rights that no mask on its path has removed, and
address spaces refuse to create objects of the types that one has removed. -/
structure Attenuated (s : RightsRecord) (p : SlotPtr) : Prop where
  rights : (s.kernel.space.slots p).accessRights = (s.paths p).allowed
  masks : ∀ mask ∈ (s.paths p).masks, ∀ bit,
    (s.kernel.space.slots p).accessRights.getLsbD bit = true → mask.getLsbD bit = true
  alloc : ∀ fuel placement (args : Kernel.AllocArgs), args.type < 4 →
    (s.paths p).allowed.getLsbD args.type = false →
    s.kernel.addressSpaceAlloc fuel p placement args = some (ePerm, s.kernel)

theorem attenuated_of_rights {s : RightsRecord} {p : SlotPtr}
    (h : (s.kernel.space.slots p).accessRights = (s.paths p).allowed) : s.Attenuated p where
  rights := h
  masks _ hmask _ hbit := RightsPath.mask_of_allowed hmask (h ▸ hbit)
  alloc _ _ args htype hforbidden := by
    have hno : ¬(s.kernel.space.slots p).accessRights.getLsbD args.type = true := by
      rw [h, hforbidden]
      simp
    unfold Kernel.addressSpaceAlloc
    rw [if_neg (by omega), if_neg hno]

theorem step_rights {s s' : RightsRecord} {op : CapabilityOp} (hop : op.OnNodes)
    (hmasks : s.MasksNothing op) (hstep : s.step op = some s')
    (h : ∀ p, (s.kernel.space.slots p).handlers ≠ none →
      (s.kernel.space.slots p).accessRights = (s.paths p).allowed) (p : SlotPtr)
    (hp : (s'.kernel.space.slots p).handlers ≠ none) :
    (s'.kernel.space.slots p).accessRights = (s'.paths p).allowed := by
  simp only [step, Option.map_eq_some_iff] at hstep
  obtain ⟨k, hk, rfl⟩ := hstep
  refine Kernel.records_invariant
    (motive := fun a (path : RightsPath) => a.accessRights = path.allowed) hop hk h ?_ hp
  intro source dest hpass hsource
  have hkeeps := hmasks source dest
  rw [Kernel.passed_accessRights, RightsPath.allowed_extend, ← h source hsource]
  have hkept : ∀ masks : List (BitVec 8), (∀ mask ∈ masks, mask ∈ op.masks) →
      masks.foldl (· &&& ·) (s.kernel.space.slots source).accessRights =
        (s.kernel.space.slots source).accessRights := by
    intro masks
    induction masks with
    | nil => exact fun _ => rfl
    | cons mask masks ih =>
        intro hmem
        rw [List.foldl_cons,
          hkeeps mask hpass.passes hpass.empty hsource hpass.may (hmem mask (by simp))]
        exact ih fun m hm => hmem m (by simp [hm])
  exact (hkept op.masks fun _ hm => hm).symm

/-- What happens on nodes, with masks that remove nothing. -/
def KeepsRights (s : RightsRecord) (op : CapabilityOp) : Prop :=
  op.OnNodes ∧ s.MasksNothing op

theorem reaches_rights {s : RightsRecord} (h : Reaches step KeepsRights Begins s) :
    ∀ p, (s.kernel.space.slots p).handlers ≠ none →
      (s.kernel.space.slots p).accessRights = (s.paths p).allowed := by
  induction h with
  | initial hbegins =>
      intro p _
      rw [hbegins p]
      rfl
  | step _ hkeeps hstep ih => exact step_rights hkeeps.1 hkeeps.2 hstep ih

theorem rights_attenuated {s : RightsRecord} (h : Reaches step KeepsRights Begins s)
    (p : SlotPtr) (hp : (s.kernel.space.slots p).handlers ≠ none) : s.Attenuated p :=
  attenuated_of_rights (reaches_rights h p hp)

end RightsRecord

namespace Kernel

def beginRights (k : Kernel) : RightsRecord :=
  ⟨k, fun p => ⟨(k.space.slots p).accessRights, []⟩⟩

/-- A node for copies of the address space's capability. -/
def withNode : Option Kernel :=
  booted.bind fun k => k.capabilityStep (.invoke 8 0 4 (.alloc ⟨[], some 5⟩ ⟨typeNode, 2, 2, 4⟩))

/-- `node_copy` of the address space's capability with a mask. -/
def copyWithMask (mask : BitVec 8) : CapabilityOp :=
  .invoke 8 2 4 (.nodeCopy ⟨0, 4, 0, mask, 0, false⟩)

end Kernel

namespace RightsRecord

/-- A copy with all rights. -/
theorem rights_attenuated_copy : ∃ k s, Kernel.withNode = some k ∧
    k.beginRights.step (Kernel.copyWithMask 0xff) = some s ∧
    (s.kernel.space.slots (.node 5 0)).handlers = some .addressSpace ∧
    s.Attenuated (.node 5 0) := by
  have hrun : (Kernel.withNode.bind fun k => (k.beginRights.step (Kernel.copyWithMask 0xff)).map
      fun s => decide ((s.kernel.space.slots (.node 5 0)).handlers = some .addressSpace)) =
      some true := by decide +kernel
  simp only [Option.bind_eq_some_iff, Option.map_eq_some_iff, decide_eq_true_eq] at hrun
  obtain ⟨k, hk, s, hs, hhandlers⟩ := hrun
  have hbegins : k.beginRights.Begins := fun _ => rfl
  have hkeeps : k.beginRights.KeepsRights (Kernel.copyWithMask 0xff) := by
    refine ⟨trivial, fun source dest mask _ _ _ _ hmask => ?_⟩
    rw [List.mem_singleton.mp hmask]
    exact BitVec.and_allOnes
  have hreach : Reaches step KeepsRights Begins s := .step (.initial hbegins) hkeeps hs
  exact ⟨k, s, hk, hs, hhandlers, rights_attenuated hreach _ (by simp [hhandlers])⟩

/-- A copy without rights has all of them and creates objects. -/
theorem rights_not_masked : ∃ k s k', Kernel.withNode = some k ∧ k.beginRights.Begins ∧
    k.beginRights.step (Kernel.copyWithMask 0) = some s ∧
    (s.kernel.space.slots (.node 5 0)).handlers = some .addressSpace ∧
    s.paths (.node 5 0) = ⟨0xff, [0]⟩ ∧
    (s.kernel.space.slots (.node 5 0)).accessRights = 0xff ∧
    s.kernel.invokeCapability 8 2 6 (.alloc ⟨[], some 6⟩ ⟨Kernel.typeThread, 0, 3, 4⟩) =
      some (0, k') ∧
    (k'.space.slots (.node 3 3)).handlers = some .thread ∧ ¬s.Attenuated (.node 5 0) := by
  have hrun : (Kernel.withNode.bind fun k => (k.beginRights.step (Kernel.copyWithMask 0)).bind
      fun s => (s.kernel.invokeCapability 8 2 6
        (.alloc ⟨[], some 6⟩ ⟨Kernel.typeThread, 0, 3, 4⟩)).map fun r =>
      decide ((s.kernel.space.slots (.node 5 0)).handlers = some .addressSpace ∧
        s.paths (.node 5 0) = ⟨0xff, [0]⟩ ∧
        (s.kernel.space.slots (.node 5 0)).accessRights = 0xff ∧ r.1 = 0 ∧
        (r.2.space.slots (.node 3 3)).handlers = some .thread)) = some true := by
    decide +kernel
  simp only [Option.bind_eq_some_iff, Option.map_eq_some_iff, decide_eq_true_eq] at hrun
  obtain ⟨k, hk, s, hs, ⟨e, k'⟩, halloc, hhandlers, hpath, hrights, rfl, hthread⟩ := hrun
  refine ⟨k, s, k', hk, fun _ => rfl, hs, hhandlers, hpath, hrights, halloc, hthread, ?_⟩
  intro hattenuated
  have heq := hattenuated.rights
  rw [hrights, hpath] at heq
  exact absurd heq (by decide)

end RightsRecord

end Cenix
