import Mathlib.Logic.Relation

namespace Cenix.Grafting

/-! Trees, of which branches are moved from one to the other. -/

variable {P : Type} {E E' : P → P → Prop} {root first second source dest p q : P}

/-- `E` leads from each element to those directly below it. -/
abbrev Below (E : P → P → Prop) : P → P → Prop :=
  Relation.ReflTransGen E

/-- No element is directly below two others, and nothing is below itself. -/
structure IsTree (E : P → P → Prop) (root : P) : Prop where
  parent : ∀ p p' q, Below E root p → Below E root p' → E p q → E p' q → p = p'
  rank : ∃ rank : P → Nat, ∀ p q, Below E root p → E p q → rank q < rank p

/-- What was directly below `source` is directly below `dest`, where nothing was. -/
structure Grafts (E E' : P → P → Prop) (source dest : P) : Prop where
  leaf : ∀ q, ¬E dest q
  edge : ∀ p q, E' p q ↔ p = dest ∧ E source q ∨ p ≠ source ∧ E p q

/-- Two trees that share nothing. -/
structure Apart (E : P → P → Prop) (first second : P) : Prop where
  firstTree : IsTree E first
  secondTree : IsTree E second
  disjoint : ∀ q, Below E first q → ¬Below E second q

theorem rank_lt {rank : P → Nat} (hrank : ∀ p q, Below E root p → E p q → rank q < rank p)
    (hp : Below E root p) (h : Relation.TransGen E p q) : rank q < rank p := by
  induction h with
  | single hstep => exact hrank _ _ hp hstep
  | tail hsteps hstep ih =>
      exact Nat.lt_trans (hrank _ _ (hp.trans hsteps.to_reflTransGen) hstep) ih

theorem IsTree.not_below_self (h : IsTree E root) (hp : Below E root p) :
    ¬Relation.TransGen E p p := by
  obtain ⟨rank, hrank⟩ := h.rank
  exact fun hloop => Nat.lt_irrefl _ (rank_lt hrank hp hloop)

/-- What holds of an element when it holds of those directly below it holds in the whole
tree. -/
@[elab_as_elim]
theorem IsTree.induct (h : IsTree E root) {motive : P → Prop}
    (hstep : ∀ p, Below E root p → (∀ q, E p q → motive q) → motive p) (hp : Below E root p) :
    motive p := by
  obtain ⟨rank, hrank⟩ := h.rank
  induction hn : rank p using Nat.strongRecOn generalizing p with
  | _ n ih =>
      subst hn
      exact hstep p hp fun q hq => ih (rank q) (hrank p q hp hq) (hp.tail hq) rfl

/-- A tree with nothing below what is directly below the root. -/
theorem below_shallow (hleaf : ∀ p q, E root p → ¬E p q) (hq : Below E root q) :
    q = root ∨ E root q := by
  induction hq with
  | refl => exact .inl rfl
  | @tail p q _ hstep ih =>
      rcases ih with rfl | hp
      · exact .inr hstep
      · exact absurd hstep (hleaf p q hp)

theorem isTree_shallow (hleaf : ∀ p q, E root p → ¬E p q) (hroot : ¬E root root) :
    IsTree E root := by
  have hparent : ∀ p q, Below E root p → E p q → p = root := fun p q hp hstep =>
    (below_shallow hleaf hp).resolve_right fun hp => hleaf p q hp hstep
  classical
  refine ⟨fun p p' q hp hp' hq hq' => (hparent p q hp hq).trans (hparent p' q hp' hq').symm,
    fun q => if q = root then 1 else 0, fun p q hp hq => ?_⟩
  obtain rfl := hparent p q hp hq
  have hne : q ≠ p := fun heq => hroot (heq ▸ hq)
  simp [hne]

namespace Grafts

/-- What is left of the tree of `source`. -/
theorem below_first (h : Grafts E E' source dest) (htree : IsTree E root)
    (hsource : Below E root source) (hdest : ¬Below E root dest) (hq : Below E' root q) :
    Below E root q ∧ ¬Relation.TransGen E source q := by
  induction hq with
  | refl =>
      refine ⟨.refl, fun hloop => htree.not_below_self .refl ?_⟩
      exact Relation.TransGen.trans_right hsource hloop
  | @tail p q _ hstep ih =>
      obtain ⟨hp, hnot⟩ := ih
      rcases (h.edge p q).mp hstep with ⟨rfl, -⟩ | ⟨hne, hedge⟩
      · exact absurd hp hdest
      · refine ⟨hp.tail hedge, fun hbelow => ?_⟩
        -- the last step to `q` comes from `p`, which is not below `source`
        obtain ⟨p', hp', hlast⟩ := Relation.TransGen.tail'_iff.mp hbelow
        obtain rfl := htree.parent p p' q hp (hsource.trans hp') hedge hlast
        rcases Relation.reflTransGen_iff_eq_or_transGen.mp hp' with heq | hstrict
        · exact hne heq
        · exact hnot hstrict

/-- What the other tree has got. -/
theorem below_second (h : Grafts E E' source dest) (hq : Below E' root q) :
    Below E root q ∨ Relation.TransGen E source q := by
  induction hq with
  | refl => exact .inl .refl
  | @tail p q _ hstep ih =>
      rcases (h.edge p q).mp hstep with ⟨-, hedge⟩ | ⟨-, hedge⟩
      · exact .inr (.single hedge)
      · exact ih.imp (·.tail hedge) (·.tail hedge)

/-- The other tree keeps what it had. -/
theorem below_kept (h : Grafts E E' source dest) (hsource : ¬Below E root source)
    (hq : Below E root q) : Below E' root q := by
  induction hq with
  | refl => exact .refl
  | @tail p q hp hstep ih =>
      have hne : p ≠ source := fun heq => hsource (heq ▸ hp)
      exact ih.tail ((h.edge p q).mpr (.inr ⟨hne, hstep⟩))

theorem first_isTree (h : Grafts E E' source dest) (htree : IsTree E root)
    (hsource : Below E root source) (hdest : ¬Below E root dest) : IsTree E' root := by
  have hbelow : ∀ q, Below E' root q → Below E root q :=
    fun q hq => (h.below_first htree hsource hdest hq).1
  have hedge : ∀ p q, Below E' root p → E' p q → E p q := by
    intro p q hp hstep
    rcases (h.edge p q).mp hstep with ⟨rfl, -⟩ | ⟨-, hedge⟩
    · exact absurd (hbelow p hp) hdest
    · exact hedge
  obtain ⟨rank, hrank⟩ := htree.rank
  refine ⟨fun p p' q hp hp' hq hq' => ?_, rank, fun p q hp hq => ?_⟩
  · exact htree.parent p p' q (hbelow p hp) (hbelow p' hp') (hedge p q hp hq)
      (hedge p' q hp' hq')
  · exact hrank p q (hbelow p hp) (hedge p q hp hq)

theorem second_isTree (h : Grafts E E' source dest) (htrees : Apart E first second)
    (hsource : Below E first source) (hdest : Below E second dest) : IsTree E' second := by
  have hfirst : ∀ q, Relation.TransGen E source q → Below E first q :=
    fun q hq => hsource.trans hq.to_reflTransGen
  -- an edge starts at `dest`, elsewhere in the second tree or below `source`
  have hedge : ∀ p q, Below E' second p → E' p q →
      p = dest ∧ E source q ∨ E p q ∧ (Below E second p ∨ Relation.TransGen E source p) := by
    intro p q hp hstep
    refine ((h.edge p q).mp hstep).imp_right fun hkept => ⟨hkept.2, h.below_second hp⟩
  have hparent : ∀ p q, E p q → Below E second p ∨ Relation.TransGen E source p →
      ¬E source q := by
    rintro p q hpq (hp | hp) hq
    · exact htrees.disjoint q (hsource.tail hq) (hp.tail hpq)
    · obtain rfl := htrees.firstTree.parent p source q (hfirst p hp) hsource hpq hq
      exact htrees.firstTree.not_below_self hsource hp
  constructor
  · intro p p' q hp hp' hq hq'
    rcases hedge p q hp hq with ⟨rfl, hmoved⟩ | ⟨hkept, hplace⟩
    · rcases hedge p' q hp' hq' with ⟨rfl, -⟩ | ⟨hkept', hplace'⟩
      · rfl
      · exact absurd hmoved (hparent p' q hkept' hplace')
    · rcases hedge p' q hp' hq' with ⟨rfl, hmoved'⟩ | ⟨hkept', hplace'⟩
      · exact absurd hmoved' (hparent p q hkept hplace)
      · rcases hplace with hp | hp <;> rcases hplace' with hp' | hp'
        · exact htrees.secondTree.parent p p' q hp hp' hkept hkept'
        · exact absurd (hp.tail hkept) (htrees.disjoint q ((hfirst p' hp').tail hkept'))
        · exact absurd (hp'.tail hkept') (htrees.disjoint q ((hfirst p hp).tail hkept))
        · exact htrees.firstTree.parent p p' q (hfirst p hp) (hfirst p' hp') hkept hkept'
  · -- the second tree is lifted above everything that was below `source`
    obtain ⟨rank₁, hrank₁⟩ := htrees.firstTree.rank
    obtain ⟨rank₂, hrank₂⟩ := htrees.secondTree.rank
    classical
    refine ⟨fun q => if Below E second q then rank₂ q + rank₁ source else rank₁ q,
      fun p q hp hq => ?_⟩
    rcases hedge p q hp hq with ⟨rfl, hmoved⟩ | ⟨hkept, hp | hp⟩
    · have hbelow : ¬Below E second q := htrees.disjoint q (hsource.tail hmoved)
      have hlt := hrank₁ source q hsource hmoved
      simp only [if_pos hdest, if_neg hbelow]
      omega
    · have hlt := hrank₂ p q hp hkept
      simp only [if_pos hp, if_pos (hp.tail hkept)]
      omega
    · have hbelow := htrees.disjoint p (hfirst p hp)
      have hbelow' := htrees.disjoint q ((hfirst p hp).tail hkept)
      simp only [if_neg hbelow, if_neg hbelow']
      exact hrank₁ p q (hfirst p hp) hkept

/-- The trees still share nothing, and `source` has stayed where it was. -/
theorem apart (h : Grafts E E' source dest) (htrees : Apart E first second)
    (hsource : Below E first source) (hdest : Below E second dest) :
    Apart E' first second ∧ ¬Below E' second source := by
  have hnot : ¬Below E first dest := fun hq => htrees.disjoint dest hq hdest
  refine ⟨⟨h.first_isTree htrees.firstTree hsource hnot, h.second_isTree htrees hsource hdest,
    fun q hq hq' => ?_⟩, fun hmoved => ?_⟩
  · obtain ⟨hbelow, hleft⟩ := h.below_first htrees.firstTree hsource hnot hq
    exact (h.below_second hq').elim (htrees.disjoint q hbelow) hleft
  · exact (h.below_second hmoved).elim (htrees.disjoint source hsource)
      (htrees.firstTree.not_below_self hsource)

end Grafts

end Cenix.Grafting
