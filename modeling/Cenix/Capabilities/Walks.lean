import Cenix.Capabilities.Operations
import Cenix.Kernel.Boot
import Mathlib.Logic.Relation

namespace Cenix

/-! Which slot an address leads to. -/

namespace Space

/-- The slot of `node` that the bits of `address` behind the first `bits` select. -/
def selected (s : Space) (address : Nat) (node : Addr) (bits : Nat) : SlotPtr :=
  .node node (address / 2 ^ bits % 2 ^ (s.nodes node).slotBits)

/-- The bits that are used up behind a node. -/
def used (s : Space) (position : Addr × Nat) : Nat :=
  position.2 + (s.nodes position.1).slotBits

/-- The node in the slot that `address` selects, and the bits used before it. -/
def follow (s : Space) (address : Nat) (position : Addr × Nat) : Option (Addr × Nat) :=
  let slot := s.slots (s.selected address position.1 position.2)
  if slot.handlers = some .node then some (slot.resource, s.used position) else none

/-- The nodes on the way of `address` from the node `root`. -/
def position (s : Space) (address : Nat) (root : Addr) : Nat → Option (Addr × Nat)
  | 0 => some (root, 0)
  | n + 1 => (s.position address root n).bind (s.follow address)

/-- At `slot` of `container` the first `depth` bits of `address` are used up, and they are
not used up before. -/
def EndsAt (s : Space) (address : Nat) (root : Addr) (depth : Nat) (slot : SlotPtr)
    (container : Addr) : Prop :=
  ∃ n bits, s.position address root n = some (container, bits) ∧
    s.used (container, bits) = depth ∧ slot = s.selected address container bits ∧
    ∀ m < n, ∀ p, s.position address root m = some p → s.used p ≠ depth

/-- What a lookup should find. -/
def Finds (s : Space) (address : Nat) (root : Addr) (depth : Nat) : Option LookUpResult → Prop
  | none => ∀ slot container, ¬ s.EndsAt address root depth slot container
  | some r => s.EndsAt address root depth r.slot r.container ∧ r.depth = depth

/-- The nodes in the slots of `block`, and so on, are a finite tree. -/
inductive NodeTree (s : Space) : Addr → Prop
  | node (h : ∀ i, i < 2 ^ (s.nodes block).slotBits →
      (s.slots (.node block i)).handlers = some .node →
      NodeTree s (s.slots (.node block i)).resource) : NodeTree s block

variable {s : Space} {root node container : Addr} {address depth bits : Nat} {slot : SlotPtr}
  {p q : Addr × Nat}

theorem used_mk : s.used (node, bits) = bits + (s.nodes node).slotBits :=
  rfl

theorem follow_eq (h : s.follow address p = some q) :
    (s.slots (s.selected address p.1 p.2)).handlers = some .node ∧
      q = ((s.slots (s.selected address p.1 p.2)).resource, s.used p) := by
  unfold follow at h
  simp only at h
  split_ifs at h with hnode
  exact ⟨hnode, (Option.some.inj h).symm⟩

theorem position_of_le (hmn : m ≤ n) (h : s.position address root n = some p) :
    ∃ q, s.position address root m = some q ∧ (m = n ∧ q = p ∨ s.used q ≤ p.2) := by
  induction n generalizing p with
  | zero =>
      obtain rfl : m = 0 := by omega
      exact ⟨p, h, Or.inl ⟨rfl, rfl⟩⟩
  | succ n ih =>
      by_cases heq : m = n + 1
      · subst heq
        exact ⟨p, h, Or.inl ⟨rfl, rfl⟩⟩
      · obtain ⟨r, hr, hfollow⟩ := Option.bind_eq_some_iff.mp h
        obtain ⟨-, rfl⟩ := follow_eq hfollow
        obtain ⟨q, hq, hcase⟩ := ih (by omega) hr
        refine ⟨q, hq, Or.inr ?_⟩
        rcases hcase with ⟨-, rfl⟩ | hle
        · exact Nat.le_refl _
        · exact Nat.le_trans hle (Nat.le_add_right _ _)

/-- There is only one end. -/
theorem EndsAt.unique (h : s.EndsAt address root depth slot container)
    (h' : s.EndsAt address root depth slot' container') :
    slot' = slot ∧ container' = container := by
  obtain ⟨n, bits, hn, hused, rfl, hfirst⟩ := h
  obtain ⟨n', bits', hn', hused', rfl, hfirst'⟩ := h'
  rcases Nat.lt_trichotomy n n' with hlt | rfl | hlt
  · exact absurd hused (hfirst' n hlt _ hn)
  · obtain ⟨rfl, rfl⟩ := Prod.mk.inj (Option.some.inj (hn'.symm.trans hn))
    exact ⟨rfl, rfl⟩
  · exact absurd hused' (hfirst n' hlt _ hn')

/-- Once too many bits are used up, or at a slot without a node, the way does not end at
`depth` any more. -/
theorem not_ends (hn : s.position address root n = some p)
    (hbefore : ∀ m < n, ∀ q, s.position address root m = some q → s.used q ≠ depth)
    (hhere : s.used p ≠ depth) (hstop : depth < s.used p ∨ s.follow address p = none) :
    ¬ s.EndsAt address root depth slot container := by
  rintro ⟨n', bits, hn', hused, -, -⟩
  rcases Nat.lt_trichotomy n' n with hlt | rfl | hlt
  · exact hbefore n' hlt _ hn' hused
  · exact hhere (Option.some.inj (hn'.symm.trans hn) ▸ hused)
  · obtain ⟨q, hq, hcase⟩ := position_of_le hlt hn'
    rw [position, hn, Option.bind_some] at hq
    rcases hstop with hlt' | hnone
    · obtain ⟨-, rfl⟩ := follow_eq hq
      have hle : s.used p ≤ s.used (container, bits) := by
        rcases hcase with ⟨-, heq⟩ | hle
        · rw [← heq]
          exact Nat.le_add_right _ _
        · exact Nat.le_trans (Nat.le_add_right _ _) (Nat.le_trans hle (Nat.le_add_right _ _))
      omega
    · rw [hnone] at hq
      cases hq

theorem selected_eq (hdepth : depth < ptrBits) (hbits : s.used (node, bits) ≤ depth) :
    SlotPtr.node node (maskAddress (address % 2 ^ depth / 2 ^ bits) (s.nodes node).slotBits) =
      s.selected address node bits := by
  have hslot : (s.nodes node).slotBits < ptrBits := by
    rw [used_mk] at hbits
    omega
  unfold selected maskAddress
  rw [if_pos hslot]
  congr 1
  obtain ⟨rest, rfl⟩ := Nat.exists_eq_add_of_le hbits
  rw [used_mk, Nat.add_assoc, Nat.pow_add, Nat.mod_mul_right_div_self, Nat.pow_add,
    Nat.mod_mul_right_mod]

/-- The search loop, from a node on the way. -/
theorem lookUpFrom_walk (hdepth : depth < ptrBits)
    (hn : s.position address root n = some (node, bits)) (hbits : bits ≤ depth)
    (hbefore : ∀ m < n, ∀ q, s.position address root m = some q → s.used q ≠ depth)
    (h : s.lookUpFrom false fuel kinds node shouldUnlock (address % 2 ^ depth / 2 ^ bits)
      (depth - bits) bits = some (result, kinds')) :
    s.Finds address root depth result := by
  induction fuel generalizing n kinds node shouldUnlock bits with
  | zero => cases h
  | succ fuel ih =>
      simp only [lookUpFrom, Bool.false_and, Bool.false_or, beq_iff_eq] at h
      by_cases hend : depth - bits = (s.nodes node).slotBits
      · have hused : s.used (node, bits) = depth := by
          rw [used_mk]
          omega
        rw [if_pos hend, selected_eq hdepth (Nat.le_of_eq hused)] at h
        obtain ⟨rfl, -⟩ := Prod.mk.inj (Option.some.inj h)
        exact ⟨⟨n, bits, hn, hused, rfl, hbefore⟩, hused⟩
      · have hhere : s.used (node, bits) ≠ depth := by
          rw [used_mk]
          omega
        rw [if_neg hend] at h
        by_cases hlong : depth - bits < (s.nodes node).slotBits
        · rw [if_pos (by simp [hlong])] at h
          obtain ⟨rfl, -⟩ := Prod.mk.inj (Option.some.inj h)
          have hover : depth < s.used (node, bits) := by
            rw [used_mk]
            omega
          exact fun _ _ => not_ends hn hbefore hhere (Or.inl hover)
        · have hused : s.used (node, bits) ≤ depth := by
            rw [used_mk]
            omega
          rw [selected_eq hdepth hused] at h
          by_cases hnode : (s.slots (s.selected address node bits)).handlers = some .node
          · rw [if_neg (by simp [hlong, hnode])] at h
            have hnext : s.position address root (n + 1) =
                some ((s.slots (s.selected address node bits)).resource, s.used (node, bits)) := by
              rw [position, hn, Option.bind_some]
              exact if_pos hnode
            have hbefore' : ∀ m < n + 1, ∀ q, s.position address root m = some q →
                s.used q ≠ depth := by
              intro m hm q hq
              rcases Nat.lt_succ_iff_lt_or_eq.mp hm with hlt | rfl
              · exact hbefore m hlt q hq
              · exact Option.some.inj (hn.symm.trans hq) ▸ hhere
            have hdiv : address % 2 ^ depth / 2 ^ s.used (node, bits) =
                address % 2 ^ depth / 2 ^ bits / 2 ^ (s.nodes node).slotBits := by
              rw [used_mk, Nat.pow_add, Nat.div_div_eq_div_mul]
            have hsub : depth - s.used (node, bits) = depth - bits - (s.nodes node).slotBits := by
              rw [used_mk]
              omega
            rw [← used_mk] at h
            simp only [← hdiv, ← hsub] at h
            exact ih hnext hused hbefore' h
          · rw [if_pos (by simp [hnode])] at h
            obtain ⟨rfl, -⟩ := Prod.mk.inj (Option.some.inj h)
            have hnone : s.follow address (node, bits) = none := if_neg hnode
            exact fun _ _ => not_ends hn hbefore hhere (Or.inr hnone)

/-- In a finite tree every search ends. -/
theorem NodeTree.lookUpFrom_returns (htree : s.NodeTree node) (useFirstNonNode : Bool)
    (address depth actualDepth : Nat) (kinds : Addr → Kind) (shouldUnlock : Bool) :
    ∃ fuel r, ∀ more, s.lookUpFrom useFirstNonNode (fuel + more) kinds node shouldUnlock
      address depth actualDepth = some r := by
  induction htree generalizing address depth actualDepth kinds shouldUnlock with
  | @node node _ ih =>
      have hindex := maskAddress_lt address (s.nodes node).slotBits
      set slot := SlotPtr.node node (maskAddress address (s.nodes node).slotBits) with hslot
      by_cases hend : (useFirstNonNode && !(s.slots slot).handlers == some .node) = true ∨
          depth = (s.nodes node).slotBits
      · refine ⟨1, (some ⟨slot, actualDepth + (s.nodes node).slotBits, node, shouldUnlock⟩, kinds),
          fun more => ?_⟩
        rw [Nat.add_comm, lookUpFrom]
        exact if_pos (by simpa using hend)
      · by_cases hstop : depth < (s.nodes node).slotBits ∨ (s.slots slot).handlers ≠ some .node
        · refine ⟨1, (none, unlockIf shouldUnlock kinds node), fun more => ?_⟩
          rw [Nat.add_comm, lookUpFrom]
          exact (if_neg (by simpa using hend)).trans (if_pos (by simpa using hstop))
        · have hnode : (s.slots slot).handlers = some .node := by
            simpa using (not_or.mp hstop).2
          obtain ⟨fuel, r, hr⟩ := ih _ hindex hnode (address / 2 ^ (s.nodes node).slotBits)
            (depth - (s.nodes node).slotBits) (actualDepth + (s.nodes node).slotBits)
            (unlockIf shouldUnlock (heapLock kinds (s.slots slot).resource).2 node)
            (heapLock kinds (s.slots slot).resource).1
          refine ⟨fuel + 1, r, fun more => ?_⟩
          rw [Nat.add_right_comm, lookUpFrom]
          exact (if_neg (by simpa using hend)).trans
            ((if_neg (by simpa using hstop)).trans (hr more))

theorem lookUpCapability_eq {slot : SlotPtr} (hslot : (s.slots slot).handlers = some .node)
    (hdepth : depth < ptrBits) (fuel address : Nat) (kinds : Addr → Kind) :
    s.lookUpCapability fuel kinds slot address depth =
      s.lookUpFrom false fuel (heapLock kinds (s.slots slot).resource).2 (s.slots slot).resource
        (heapLock kinds (s.slots slot).resource).1 (address % 2 ^ depth) depth 0 := by
  have hmode : (depth == sizeMax) = false := by
    have hne : depth ≠ sizeMax := by
      unfold sizeMax
      have hbits : ptrBits < 2 ^ ptrBits - 1 := by decide
      omega
    simpa using hne
  have hmask : maskAddress address depth = address % 2 ^ depth := if_pos hdepth
  unfold lookUpCapability
  rw [if_pos hslot]
  simp only [hmode, hmask, Bool.false_eq_true, if_false]

theorem locked_iff {old kinds : Addr → Kind} {ptr : Addr} {shouldUnlock : Bool}
    (h : Locked old ptr shouldUnlock kinds) :
    (∀ block, block ≠ ptr → kinds block = old block) ∧
      (shouldUnlock = true ↔ kinds ptr ≠ old ptr) := by
  cases h with
  | already => simp
  | now hmovable =>
      refine ⟨fun block hne => Function.update_of_ne hne _ _, ?_⟩
      simp [hmovable]

theorem lookUpCapability_finds {slot : SlotPtr} (hslot : (s.slots slot).handlers = some .node)
    (hdepth : depth < ptrBits)
    (h : s.lookUpCapability fuel kinds slot address depth = some (result, kinds')) :
    s.Finds address (s.slots slot).resource depth result := by
  rw [lookUpCapability_eq hslot hdepth] at h
  have hfrom : s.lookUpFrom false fuel (heapLock kinds (s.slots slot).resource).2
      (s.slots slot).resource (heapLock kinds (s.slots slot).resource).1
      (address % 2 ^ depth / 2 ^ 0) (depth - 0) 0 = some (result, kinds') := by
    rw [Nat.pow_zero, Nat.div_one]
    exact h
  have hstart : s.position address (s.slots slot).resource 0 =
      some ((s.slots slot).resource, 0) := rfl
  exact lookUpFrom_walk hdepth hstart (Nat.zero_le depth) (fun m hm => nomatch hm) hfrom

/-- The search ends, with what it should find, whatever the address has above `depth`. -/
theorem lookUpCapability_walks {slot : SlotPtr} (hslot : (s.slots slot).handlers = some .node)
    (htree : s.NodeTree (s.slots slot).resource) (hdepth : depth < ptrBits)
    (address : Nat) (kinds : Addr → Kind) :
    ∃ fuel result kinds',
      (∀ fuel' address', fuel ≤ fuel' → address' % 2 ^ depth = address % 2 ^ depth →
        s.lookUpCapability fuel' kinds slot address' depth = some (result, kinds')) ∧
      s.Finds address (s.slots slot).resource depth result := by
  obtain ⟨fuel, ⟨result, kinds'⟩, hreturns⟩ := htree.lookUpFrom_returns false
    (address % 2 ^ depth) depth 0 (heapLock kinds (s.slots slot).resource).2
    (heapLock kinds (s.slots slot).resource).1
  have hrun : ∀ fuel' address', fuel ≤ fuel' → address' % 2 ^ depth = address % 2 ^ depth →
      s.lookUpCapability fuel' kinds slot address' depth = some (result, kinds') := by
    intro fuel' address' hle hsame
    obtain ⟨more, rfl⟩ := Nat.exists_eq_add_of_le hle
    rw [lookUpCapability_eq hslot hdepth, hsame]
    exact hreturns more
  exact ⟨fuel, result, kinds', hrun, lookUpCapability_finds hslot hdepth
    (hrun fuel address (Nat.le_refl _) rfl)⟩

/-- Only the first bits of the address count, and the search ends at the slot they lead to,
if they lead to one.  Of the locks only the one of the slot's node can be new, and it is
given back. -/
theorem lookUpCapability_exact {slot : SlotPtr} (hslot : (s.slots slot).handlers = some .node)
    (htree : s.NodeTree (s.slots slot).resource) (hdepth : depth < ptrBits)
    (address : Nat) (kinds : Addr → Kind) :
    ∃ fuel result kinds',
      (∀ fuel' address', fuel ≤ fuel' → address' % 2 ^ depth = address % 2 ^ depth →
        s.lookUpCapability fuel' kinds slot address' depth = some (result, kinds')) ∧
      (∀ found container, s.EndsAt address (s.slots slot).resource depth found container ↔
        ∃ shouldUnlock, result = some ⟨found, depth, container, shouldUnlock⟩) ∧
      (result = none → kinds' = kinds) ∧
      ∀ r, result = some r → (∀ block, block ≠ r.container → kinds' block = kinds block) ∧
        (r.shouldUnlock = true ↔ kinds' r.container ≠ kinds r.container) ∧
        unlockIf r.shouldUnlock kinds' r.container = kinds := by
  obtain ⟨fuel, result, kinds', hrun, hwalk⟩ :=
    lookUpCapability_walks hslot htree hdepth address kinds
  have hlocked := lookUpCapability_locked (hrun fuel address (Nat.le_refl _) rfl)
  refine ⟨fuel, result, kinds', hrun, ?_, ?_, ?_⟩
  · intro found container
    cases result with
    | none => simpa using hwalk found container
    | some r =>
        obtain ⟨hends, hr⟩ := hwalk
        constructor
        · intro hends'
          obtain ⟨rfl, rfl⟩ := hends.unique hends'
          exact ⟨r.shouldUnlock, by rw [← hr]⟩
        · rintro ⟨shouldUnlock, heq⟩
          obtain rfl := Option.some.inj heq
          exact hends
  · rintro rfl
    exact hlocked
  · rintro r rfl
    obtain ⟨hothers, hchanged⟩ := locked_iff hlocked
    exact ⟨hothers, hchanged, hlocked.unlock⟩

def nodeCapability (block : Addr) : Capability :=
  { Capability.zero with handlers := some .node, resource := block }

/-- A thread whose root node has four slots, with a node of two slots in slot 1. -/
def nested : Space :=
  { Space.zero with
    slots := Function.update (Function.update (fun _ => Capability.zero)
      (.root 1) (nodeCapability 2)) (.node 2 1) (nodeCapability 3)
    nodes := Function.update (Function.update (fun _ => ⟨0, 0⟩) 2 ⟨2, 1⟩) 3 ⟨1, 2⟩ }

theorem nodeTree_nested : nested.NodeTree 2 := by
  have hinner : nested.NodeTree 3 := by
    refine .node fun i hi hnode => ?_
    have hempty : ∀ i, i < 2 → (nested.slots (.node 3 i)).handlers = none := by decide
    rw [hempty i hi] at hnode
    cases hnode
  refine .node fun i hi hnode => ?_
  have houter : ∀ i, i < 4 → (nested.slots (.node 2 i)).handlers = some .node →
      (nested.slots (.node 2 i)).resource = 3 := by decide
  rw [houter i hi hnode]
  exact hinner

theorem lookUpCapability_exact_nested : ∃ fuel result kinds',
    nested.lookUpCapability fuel (fun _ => .movable) (.root 1) 5 3 = some (result, kinds') ∧
      ∃ found container, nested.EndsAt 5 2 3 found container ∧
        ∃ shouldUnlock, result = some ⟨found, 3, container, shouldUnlock⟩ := by
  have hroot : (nested.slots (.root 1)).handlers = some .node := rfl
  have hdepth : 3 < ptrBits := by decide
  obtain ⟨fuel, result, kinds', hruns, hiff, -⟩ :=
    lookUpCapability_exact hroot nodeTree_nested hdepth 5 (fun _ => .movable)
  have hends : nested.EndsAt 5 2 3 (.node 3 1) 3 := by
    refine ⟨1, 2, rfl, rfl, rfl, ?_⟩
    intro m hm p hp
    obtain rfl : m = 0 := by omega
    cases hp
    decide
  exact ⟨fuel, result, kinds', hruns fuel 5 (Nat.le_refl _) rfl, _, _, hends,
    (hiff _ _).mp hends⟩

/-! The other mode, which stops at the first slot without a node. -/

/-- A slot of `parent` holds the node `child`. -/
def Nests (s : Space) (child parent : Addr) : Prop :=
  ∃ i, i < 2 ^ (s.nodes parent).slotBits ∧
    (s.slots (.node parent i)).handlers = some .node ∧
    (s.slots (.node parent i)).resource = child

theorem NodeTree.acc (htree : s.NodeTree node) : Acc s.Nests node := by
  induction htree with
  | node _ ih =>
      refine Acc.intro _ ?_
      rintro child ⟨i, hi, hnode, rfl⟩
      exact ih i hi hnode

theorem nests_of_follow (h : s.follow address p = some q) : s.Nests q.1 p.1 := by
  obtain ⟨hnode, rfl⟩ := follow_eq h
  exact ⟨_, Nat.mod_lt _ (Nat.two_pow_pos _), hnode, rfl⟩

theorem NodeTree.position (htree : s.NodeTree root) (h : s.position address root n = some p) :
    s.NodeTree p.1 := by
  induction n generalizing p with
  | zero =>
      obtain rfl := Option.some.inj h
      exact htree
  | succ n ih =>
      obtain ⟨q, hq, hfollow⟩ := Option.bind_eq_some_iff.mp h
      obtain ⟨i, hi, hnode, heq⟩ := nests_of_follow hfollow
      rw [← heq]
      cases ih hq with
      | node hchildren => exact hchildren i hi hnode

theorem position_holds (hmn : m < n) (hm : s.position address root m = some p)
    (hn : s.position address root n = some q) : Relation.TransGen s.Nests q.1 p.1 := by
  induction n generalizing q with
  | zero => cases hmn
  | succ n ih =>
      obtain ⟨r, hr, hfollow⟩ := Option.bind_eq_some_iff.mp hn
      have hlast := nests_of_follow hfollow
      rcases Nat.lt_succ_iff_lt_or_eq.mp hmn with hlt | rfl
      · exact .head hlast (ih hlt hr)
      · obtain rfl := Option.some.inj (hm.symm.trans hr)
        exact .single hlast

/-- No node is come to twice. -/
theorem NodeTree.position_ne (htree : s.NodeTree root) (hmn : m < n)
    (hm : s.position address root m = some p) (hn : s.position address root n = some q) :
    q.1 ≠ p.1 := by
  intro heq
  have hloop := position_holds hmn hm hn
  rw [heq] at hloop
  have hirreflexive : ∀ block, Acc (Relation.TransGen s.Nests) block →
      ¬ Relation.TransGen s.Nests block block := by
    intro block hacc
    induction hacc with
    | intro block _ ih => exact fun hself => ih block hself hself
  exact hirreflexive p.1 (htree.position hm).acc.transGen hloop

theorem lookUpFrom_depth_le
    (h : s.lookUpFrom useFirstNonNode fuel kinds node shouldUnlock address depth actualDepth =
      some (some r, kinds')) : actualDepth + (s.nodes node).slotBits ≤ r.depth := by
  induction fuel generalizing kinds node shouldUnlock address depth actualDepth with
  | zero => cases h
  | succ fuel ih =>
      simp only [lookUpFrom] at h
      split_ifs at h
      · cases h
        exact Nat.le_refl _
      · cases h
      · exact Nat.le_trans (Nat.le_add_right _ _) (ih h)

/-- The search loop for the first slot without a node. -/
theorem lookUpFrom_first (hn : s.position address root n = some (node, bits))
    (hdepth : r.depth < ptrBits)
    (h : s.lookUpFrom true fuel kinds node shouldUnlock (address / 2 ^ bits) (sizeMax - bits)
      bits = some (some r, kinds')) :
    ∃ n bits, s.position address root n = some (r.container, bits) ∧
      r.depth = s.used (r.container, bits) ∧ r.slot = s.selected address r.container bits := by
  induction fuel generalizing n kinds node shouldUnlock bits with
  | zero => cases h
  | succ fuel ih =>
      have hle := lookUpFrom_depth_le h
      have hslotBits : (s.nodes node).slotBits < ptrBits := by omega
      have hselected : SlotPtr.node node (maskAddress (address / 2 ^ bits) (s.nodes node).slotBits) =
          s.selected address node bits := by
        unfold selected maskAddress
        rw [if_pos hslotBits]
      have hmany : sizeMax - bits ≠ (s.nodes node).slotBits := by
        have hwide : 2 * ptrBits < sizeMax := by decide
        omega
      simp only [lookUpFrom, hselected, Bool.true_and] at h
      by_cases hnode : (s.slots (s.selected address node bits)).handlers = some .node
      · rw [if_neg (by simp [hnode, hmany])] at h
        have hnext : s.position address root (n + 1) =
            some ((s.slots (s.selected address node bits)).resource, s.used (node, bits)) := by
          rw [position, hn, Option.bind_some]
          exact if_pos hnode
        have hdiv : address / 2 ^ s.used (node, bits) =
            address / 2 ^ bits / 2 ^ (s.nodes node).slotBits := by
          rw [used_mk, Nat.pow_add, Nat.div_div_eq_div_mul]
        have hsub : sizeMax - s.used (node, bits) =
            sizeMax - bits - (s.nodes node).slotBits := by
          rw [used_mk]
          omega
        by_cases hlong : sizeMax - bits < (s.nodes node).slotBits
        · simp [hlong] at h
        · rw [if_neg (by simp [hnode, hlong]), ← used_mk, ← hdiv, ← hsub] at h
          exact ih hnext h
      · rw [if_pos (by simp [hnode])] at h
        cases h
        exact ⟨n, bits, hn, rfl, rfl⟩

theorem lookUpCapability_sizeMax {slot : SlotPtr} (hslot : (s.slots slot).handlers = some .node)
    (fuel address : Nat) (kinds : Addr → Kind) :
    s.lookUpCapability fuel kinds slot address sizeMax =
      s.lookUpFrom true fuel (heapLock kinds (s.slots slot).resource).2 (s.slots slot).resource
        (heapLock kinds (s.slots slot).resource).1 address sizeMax 0 := by
  unfold lookUpCapability
  rw [if_pos hslot]
  simp

theorem lookUpCapability_first {slot : SlotPtr} (hdepth : r.depth < ptrBits)
    (h : s.lookUpCapability fuel kinds slot address sizeMax = some (some r, kinds')) :
    (s.slots slot).handlers = some .node ∧
      ∃ n bits, s.position address (s.slots slot).resource n = some (r.container, bits) ∧
        r.depth = s.used (r.container, bits) ∧ r.slot = s.selected address r.container bits := by
  have hslot : (s.slots slot).handlers = some .node := by
    by_contra hne
    rw [lookUpCapability, if_neg hne] at h
    cases h
  refine ⟨hslot, ?_⟩
  rw [lookUpCapability_sizeMax hslot] at h
  have hstart : s.position address (s.slots slot).resource 0 =
      some ((s.slots slot).resource, 0) := rfl
  have hfrom : s.lookUpFrom true fuel (heapLock kinds (s.slots slot).resource).2
      (s.slots slot).resource (heapLock kinds (s.slots slot).resource).1
      (address / 2 ^ 0) (sizeMax - 0) 0 = some (some r, kinds') := by
    rw [Nat.pow_zero, Nat.div_one]
    exact h
  exact lookUpFrom_first hstart hdepth hfrom

/-- A lookup of the first slot without a node is confirmed by the lookup with the depth it
reports, unless that slot lies in a node without slot bits, behind another node. -/
theorem lookUpCapability_confirmed_iff {slot : SlotPtr}
    (htree : s.NodeTree (s.slots slot).resource) (hdepth : r.depth < ptrBits)
    (h : s.lookUpCapability fuel kinds slot address sizeMax = some (some r, kinds'))
    (kinds₁ : Addr → Kind) :
    (∃ fuel₁ r₁ kinds₂,
      s.lookUpCapability fuel₁ kinds₁ slot address r.depth = some (some r₁, kinds₂) ∧
        r₁.slot = r.slot ∧ r₁.container = r.container) ↔
      (s.nodes r.container).slotBits ≠ 0 ∨ r.container = (s.slots slot).resource := by
  obtain ⟨hslot, n, bits, hn, hused, hfound⟩ := lookUpCapability_first hdepth h
  constructor
  · rintro ⟨fuel₁, r₁, kinds₂, h₁, -, hcontainer⟩
    obtain ⟨⟨n₁, bits₁, hn₁, hused₁, -, hfirst⟩, -⟩ := lookUpCapability_finds hslot hdepth h₁
    rw [hcontainer] at hn₁
    have heq : n₁ = n := by
      rcases Nat.lt_trichotomy n₁ n with hlt | heq | hlt
      · exact (htree.position_ne hlt hn₁ hn rfl).elim
      · exact heq
      · exact (htree.position_ne hlt hn hn₁ rfl).elim
    subst heq
    cases n₁ with
    | zero =>
        obtain ⟨hroot, -⟩ := Prod.mk.inj (Option.some.inj hn)
        exact Or.inr hroot.symm
    | succ n =>
        refine Or.inl fun hzero => ?_
        obtain ⟨p, hp, hfollow⟩ := Option.bind_eq_some_iff.mp hn
        obtain ⟨-, heq⟩ := follow_eq hfollow
        have hbits : bits = s.used p := congrArg Prod.snd heq
        refine hfirst n (Nat.lt_succ_self n) p hp ?_
        have hlast : s.used (r.container, bits) = bits := by
          rw [used_mk, hzero, Nat.add_zero]
        rw [hused, hlast, hbits]
  · intro hwide
    obtain ⟨fuel₁, result, kinds₂, hrun, hfinds⟩ :=
      lookUpCapability_walks hslot htree hdepth address kinds₁
    have hends : s.EndsAt address (s.slots slot).resource r.depth r.slot r.container := by
      refine ⟨n, bits, hn, hused.symm, hfound, ?_⟩
      intro m hm p hp heq
      obtain ⟨q, hq, hcase⟩ := position_of_le (Nat.le_of_lt hm) hn
      obtain rfl := Option.some.inj (hp.symm.trans hq)
      rcases hcase with ⟨rfl, -⟩ | hle
      · exact Nat.lt_irrefl _ hm
      · rcases hwide with hpos | hroot
        · rw [used_mk] at hused
          omega
        · have hstart : s.position address (s.slots slot).resource 0 =
              some ((s.slots slot).resource, 0) := rfl
          exact htree.position_ne (by omega) hstart hn hroot
    cases result with
    | none => exact absurd hends (hfinds _ _)
    | some r₁ =>
        obtain ⟨hslots, hcontainers⟩ := hends.unique hfinds.1
        exact ⟨fuel₁, r₁, kinds₂, hrun fuel₁ address (Nat.le_refl _) rfl, hslots, hcontainers⟩

theorem lookUpCapability_confirmed_iff_nested : ∃ fuel r kinds',
    nested.lookUpCapability fuel (fun _ => .movable) (.root 1) 5 sizeMax =
        some (some r, kinds') ∧ r.depth < ptrBits ∧
      ∃ fuel₁ r₁ kinds₂,
        nested.lookUpCapability fuel₁ (fun _ => .movable) (.root 1) 5 r.depth =
            some (some r₁, kinds₂) ∧
          r₁.slot = r.slot ∧ r₁.container = r.container := by
  have hfound : (nested.lookUpCapability 2 (fun _ => .movable) (.root 1) 5 sizeMax).map
      (fun found => found.1.map fun r => (r.depth, r.container)) = some (some (3, 3)) := by
    decide +kernel
  simp only [Option.map_eq_some_iff, Prod.mk.injEq] at hfound
  obtain ⟨⟨result, kinds'⟩, hrun, r, hresult, hdepth, hcontainer⟩ := hfound
  have hrun' : nested.lookUpCapability 2 (fun _ => .movable) (.root 1) 5 sizeMax =
      some (some r, kinds') := hresult ▸ hrun
  have hless : r.depth < ptrBits := by
    rw [hdepth]
    decide
  have hwide : (nested.nodes r.container).slotBits ≠ 0 := by
    rw [hcontainer]
    decide
  have hiff := lookUpCapability_confirmed_iff nodeTree_nested hless hrun' (fun _ => .movable)
  exact ⟨2, r, kinds', hrun', hless, hiff.mpr (Or.inl hwide)⟩

end Space

namespace Kernel

/-- The process server allocates a node without slot bits.  Its slot is found in one mode, and
the slot that the node is in in the other. -/
theorem lookUpCapability_not_confirmed : ∃ k₀ k, booted = some k₀ ∧
    k₀.capabilityStep (.invoke 8 0 4 (.alloc ⟨[], some 5⟩ ⟨typeNode, 0, 2, 4⟩)) = some k ∧
    ∃ r r₁ kinds' kinds₂,
      k.space.lookUpCapability 8 k.kinds (.root 2) 2 sizeMax = some (some r, kinds') ∧
      k.space.lookUpCapability 8 k.kinds (.root 2) 2 r.depth = some (some r₁, kinds₂) ∧
      r.depth = 4 ∧ r.slot = .node 5 0 ∧ r₁.slot = .node 3 2 := by
  have hrun : (booted.bind fun k₀ =>
      (k₀.capabilityStep (.invoke 8 0 4 (.alloc ⟨[], some 5⟩ ⟨typeNode, 0, 2, 4⟩))).bind fun k =>
        (k.space.lookUpFrom true 8 (heapLock k.kinds (k.space.slots (.root 2)).resource).2
          (k.space.slots (.root 2)).resource
          (heapLock k.kinds (k.space.slots (.root 2)).resource).1 2 sizeMax 0).bind fun found =>
          (k.space.lookUpCapability 8 k.kinds (.root 2) 2 4).map fun found₁ =>
            (decide ((k.space.slots (.root 2)).handlers = some .node),
              found.1.map fun r => (r.slot, r.depth), found₁.1.map LookUpResult.slot)) =
      some (true, some (.node 5 0, 4), some (.node 3 2)) := by decide +kernel
  simp only [Option.bind_eq_some_iff, Option.map_eq_some_iff, Prod.mk.injEq,
    decide_eq_true_eq] at hrun
  obtain ⟨k₀, hbooted, k, hstep, ⟨_, kinds'⟩, hfound, ⟨_, kinds₂⟩, hfound₁, hnode,
    ⟨r, rfl, hslot, hdepth⟩, r₁, rfl, hslot₁⟩ := hrun
  rw [← Space.lookUpCapability_sizeMax hnode] at hfound
  exact ⟨k₀, k, hbooted, hstep, r, r₁, kinds', kinds₂, hfound, hdepth ▸ hfound₁, hdepth, hslot,
    hslot₁⟩

end Kernel

end Cenix
