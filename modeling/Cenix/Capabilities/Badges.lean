import Cenix.Capabilities.Authority

namespace Cenix

open LinkedLists Kernel

/-! Where the badges of capabilities come from. -/

/-- A badge that `node_copy` has set on a copy of a capability. -/
structure Mint where
  origin : SlotPtr
  source : Authority
  badge : Nat

/-- The badges that an operation sets.  `origins` are the slots in which the
capabilities were at the beginning. -/
def Kernel.mints (k k' : Kernel) (op : CapabilityOp) (origins : SlotPtr → SlotPtr) :
    List Mint :=
  match op, k.passes op with
  | .invoke _ _ _ (.nodeCopy args), some (source, dest) =>
      if args.shouldSetBadge ∧ (k.space.slots dest).handlers = none ∧
          (k'.space.slots dest).handlers ≠ none then
        [⟨origins source, k.space.authority source, args.badge⟩]
      else
        []
  | _, _ => []

/-- A kernel, the capabilities at the beginning, where each capability was then, and
the badges that have been set since. -/
structure BadgeRecord where
  kernel : Kernel
  begins : SlotPtr → Authority
  origins : SlotPtr → SlotPtr
  mints : List Mint

namespace BadgeRecord

def Begins (s : BadgeRecord) : Prop :=
  s.begins = s.kernel.space.authority ∧ s.origins = id ∧ s.mints = []

def step (s : BadgeRecord) (op : CapabilityOp) : Option BadgeRecord :=
  (s.kernel.capabilityStep op).map fun k => { s with
    kernel := k
    origins := s.kernel.passOn k op id s.origins
    mints := s.mints ++ s.kernel.mints k op s.origins }

/-- A capability that stems from the one that `origin` held at the beginning. -/
structure Stems (begins : SlotPtr → Authority) (mints : List Mint) (a : Authority)
    (origin : SlotPtr) : Prop where
  handlers : a.handlers = (begins origin).handlers
  resource : a.resource = (begins origin).resource
  original : a.flags.original = true → a = begins origin
  badge : a.flags.original = false → a.badge = (begins origin).badge ∨
    ∃ mint ∈ mints, mint.origin = origin ∧ mint.badge = a.badge

/-- Only original capabilities have been badged. -/
def MintsOriginals (s : BadgeRecord) : Prop :=
  ∀ mint ∈ s.mints, mint.source = s.begins mint.origin ∧ mint.source.flags.original = true

variable {s s' : BadgeRecord} {op : CapabilityOp} {a : Authority} {origin : SlotPtr}

theorem Stems.mono {begins : SlotPtr → Authority} {mints mints' : List Mint}
    (h : Stems begins mints a origin) (hmints : ∀ mint ∈ mints, mint ∈ mints') :
    Stems begins mints' a origin where
  handlers := h.handlers
  resource := h.resource
  original := h.original
  badge hcopy := by
    cases h.badge hcopy with
    | inl hsame => exact .inl hsame
    | inr hminted =>
        obtain ⟨mint, hmint, hfrom⟩ := hminted
        exact .inr ⟨mint, hmints mint hmint, hfrom⟩

/-- Either way, the badge is the one of the origin or has been set since. -/
theorem Stems.badge_cases {begins : SlotPtr → Authority} {mints : List Mint}
    (h : Stems begins mints a origin) : a.badge = (begins origin).badge ∨
      ∃ mint ∈ mints, mint.origin = origin ∧ mint.badge = a.badge := by
  cases horiginal : a.flags.original with
  | true => exact .inl (by rw [h.original horiginal])
  | false => exact h.badge horiginal

theorem Stems.copied {begins : SlotPtr → Authority} {mints : List Mint}
    (h : Stems begins mints a origin) : Stems begins mints a.copied origin where
  handlers := h.handlers
  resource := h.resource
  original hfalse := by cases hfalse
  badge _ := h.badge_cases

theorem Stems.badged {begins : SlotPtr → Authority} {mints : List Mint} {args : NodeCopyArgs}
    (h : Stems begins mints a origin) (hcopy : a.flags.original = false)
    (hmint : args.shouldSetBadge = true →
      ∃ mint ∈ mints, mint.origin = origin ∧ mint.badge = args.badge) :
    Stems begins mints (a.badged args) origin where
  handlers := (a.badged_handlers args).trans h.handlers
  resource := (a.badged_resource args).trans h.resource
  original horiginal := by
    rw [Authority.badged_original, hcopy] at horiginal
    cases horiginal
  badge _ := by
    unfold Authority.badged
    split
    · rename_i hset
      exact .inr (hmint hset)
    · exact h.badge hcopy

/-- What is passed on stems from the same origin. -/
theorem stems_passed {k : Kernel} {source dest : SlotPtr}
    (hpass : s.kernel.PassesOn op k source dest)
    (hsource : (s.kernel.space.slots source).handlers ≠ none)
    (h : Stems s.begins s.mints (s.kernel.space.authority source) (s.origins source)) :
    Stems s.begins (s.mints ++ s.kernel.mints k op s.origins)
      (s.kernel.passed op (s.kernel.space.authority source)) (s.origins source) := by
  have hbefore : Stems s.begins (s.mints ++ s.kernel.mints k op s.origins)
      (s.kernel.space.authority source) (s.origins source) :=
    h.mono fun mint hmint => List.mem_append_left _ hmint
  have hdest : (k.space.slots dest).handlers = (s.kernel.space.slots source).handlers :=
    (congrArg Authority.handlers hpass.passed.filled).trans (Kernel.passed_handlers ..)
  unfold Kernel.passed
  split
  · rename_i fuel address depth args
    apply hbefore.copied.badged rfl
    intro hset
    refine ⟨⟨s.origins source, s.kernel.space.authority source, args.badge⟩, ?_, rfl, rfl⟩
    apply List.mem_append_right
    unfold Kernel.mints
    simp [hpass.passes, hset, hpass.empty, hdest, hsource]
  · split
    · exact hbefore.copied
    · exact hbefore
  · exact hbefore

/-- A capability that is badged is an original one, and therefore what it was at the
beginning. -/
theorem mintsOriginals_step {k : Kernel} (hop : op.OnNodes)
    (hk : s.kernel.capabilityStep op = some k)
    (hstems : ∀ p, (s.kernel.space.slots p).handlers ≠ none →
      Stems s.begins s.mints (s.kernel.space.authority p) (s.origins p)) :
    ∀ mint ∈ s.kernel.mints k op s.origins,
      mint.source = s.begins mint.origin ∧ mint.source.flags.original = true := by
  intro mint hmint
  unfold Kernel.mints at hmint
  split at hmint
  · rename_i source dest hpasses
    split at hmint
    · rename_i hfilled
      rw [List.mem_singleton.mp hmint]
      cases capabilityStep_passes hop hk with
      | inl hempty =>
          have hsame := occupied_of_kept (hempty.authority dest) hfilled.2.2
          have hhandlers : (k.space.slots dest).handlers =
              (s.kernel.space.slots dest).handlers := congrArg Authority.handlers hsame
          exact absurd (hhandlers.trans hfilled.2.1) hfilled.2.2
      | inr hpass =>
          obtain ⟨source', dest', hpass⟩ := hpass
          have heq : some (source, dest) = some (source', dest') :=
            hpasses.symm.trans hpass.passes
          cases heq
          have hsource : (s.kernel.space.slots source).handlers ≠ none := by
            have hhandlers : (k.space.slots dest).handlers =
                (s.kernel.space.slots source).handlers :=
              (congrArg Authority.handlers hpass.passed.filled).trans (passed_handlers ..)
            exact hhandlers ▸ hfilled.2.2
          have horiginal := hpass.may.2 hfilled.1
          exact ⟨(hstems source hsource).original horiginal, horiginal⟩
    · cases hmint
  · cases hmint

/-- What holds in every state of a run. -/
structure Unforged (s : BadgeRecord) : Prop where
  stems : ∀ p, (s.kernel.space.slots p).handlers ≠ none →
    Stems s.begins s.mints (s.kernel.space.authority p) (s.origins p)
  mints : s.MintsOriginals

theorem unforged_step (hop : op.OnNodes) (hstep : s.step op = some s') (h : s.Unforged) :
    s'.Unforged := by
  simp only [step, Option.map_eq_some_iff] at hstep
  obtain ⟨k, hk, rfl⟩ := hstep
  constructor
  · intro p hp
    refine records_invariant hop hk (motive := fun a origin =>
      Stems s.begins (s.mints ++ s.kernel.mints k op s.origins) a origin) ?_ ?_ hp
    · exact fun q hq => (h.stems q hq).mono fun mint hmint => List.mem_append_left _ hmint
    · exact fun source dest hpass hsource => stems_passed hpass hsource (h.stems source hsource)
  · intro mint hmint
    cases List.mem_append.mp hmint with
    | inl hold => exact h.mints mint hold
    | inr hnew => exact mintsOriginals_step hop hk h.stems mint hnew

theorem reaches_unforged (h : Reaches step (fun _ op => op.OnNodes) Begins s) : s.Unforged := by
  induction h with
  | initial hbegins =>
      obtain ⟨hauthority, horigins, hmints⟩ := hbegins
      constructor
      · intro p _
        rw [hauthority, horigins]
        exact ⟨rfl, rfl, fun _ => rfl, fun _ => .inl rfl⟩
      · intro mint hmint
        rw [hmints] at hmint
        cases hmint
  | step _ hop hstep ih => exact unforged_step hop hstep ih

end BadgeRecord

end Cenix
