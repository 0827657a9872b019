import Mathlib.Data.List.Forall2
import Mathlib.Logic.Relation
import SequentCalculus.ProofTree.Growth
import SequentCalculus.Proofs.Decomposition

/-! # Growth as a run of decomposition steps

    Growth is read in two ways.  From the leaves up, `Sequent.grow_induction`
    proves a property of every grown tree from the same property of the trees
    of its premises.  From the root down, a growing tree visits goals — a
    sequent with the supply it may take names from — and `Goal.Step` leads from
    a goal to those of its premises.  The nodes of a grown tree are the goals
    that can be reached (`Sequent.reaches_of_hasNode`,
    `Sequent.hasNode_of_reaches`), so what a step preserves holds at every node. -/

namespace SequentCalculus

/-! ## Computations that may fail -/

section Traversal

variable {α β ε : Type}

theorem exists_eq_ok {x : Except ε α} (h : x.toOption.isSome = true) : ∃ a, x = .ok a := by
  cases x with
  | error e => cases h
  | ok a => exact ⟨a, rfl⟩

/-- Two computations in a row succeed exactly when both do. -/
theorem bind_eq_ok_iff {x : Except ε α} {f : α → Except ε β} {b : β} :
    (x >>= f) = .ok b ↔ ∃ a, x = .ok a ∧ f a = .ok b := by
  cases x with
  | error e =>
      constructor
      · intro h; cases h
      · rintro ⟨a, h, -⟩; cases h
  | ok a =>
      constructor
      · intro h; exact ⟨a, rfl, h⟩
      · rintro ⟨_, ⟨⟩, h⟩; exact h

/-- Two computations in a row fail exactly when the first fails, or the second does
    after the first. -/
theorem bind_eq_error_iff {x : Except ε α} {f : α → Except ε β} {e : ε} :
    (x >>= f) = .error e ↔ x = .error e ∨ ∃ a, x = .ok a ∧ f a = .error e := by
  cases x with
  | error e' =>
      constructor
      · intro h; cases h; exact Or.inl rfl
      · rintro (⟨⟨⟩⟩ | ⟨a, h, -⟩)
        · rfl
        · cases h
  | ok a =>
      constructor
      · intro h; exact Or.inr ⟨a, rfl, h⟩
      · rintro (h | ⟨_, ⟨⟩, h⟩)
        · cases h
        · exact h

/-- A traversal succeeds exactly when it succeeds at every member. -/
theorem mapM_eq_ok_iff {f : α → Except ε β} :
    ∀ {xs : List α} {ys : List β},
      xs.mapM f = .ok ys ↔ List.Forall₂ (fun x y => f x = .ok y) xs ys := by
  intro xs
  induction xs with
  | nil =>
      intro ys
      rw [List.mapM_nil, List.forall₂_nil_left_iff]
      exact ⟨fun h => by cases h; rfl, fun h => by rw [h]; rfl⟩
  | cons x xs ih =>
      intro ys
      rw [List.mapM_cons, List.forall₂_cons_left_iff, bind_eq_ok_iff]
      constructor
      · rintro ⟨y, hx, h⟩
        obtain ⟨zs, hxs, h⟩ := bind_eq_ok_iff.mp h
        cases h
        exact ⟨y, zs, hx, ih.mp hxs, rfl⟩
      · rintro ⟨y, zs, hx, hxs, rfl⟩
        exact ⟨y, hx, bind_eq_ok_iff.mpr ⟨zs, ih.mpr hxs, rfl⟩⟩

/-- Membership in the list may be forgotten when a function does not use it. -/
theorem mapM_attach (f : α → Except ε β) (xs : List α) :
    (xs.attach.mapM fun x => f x.val) = xs.mapM f := by
  have h := List.mapM_map (l := xs.attach) (f := Subtype.val) (g := f)
  rw [List.attach_map_subtype_val] at h
  exact h.symm

/-- What related members imply, member by member. -/
theorem forall₂_imp_of_mem {R Q : α → β → Prop} {xs : List α} {ys : List β}
    (h : List.Forall₂ R xs ys) (himp : ∀ x ∈ xs, ∀ y, R x y → Q x y) : List.Forall₂ Q xs ys := by
  have hboth := (List.forall₂_and_left _ _).mpr ⟨himp, h⟩
  exact hboth.imp fun x y hxy => hxy.1 y hxy.2

end Traversal

/-! ## Growth from the leaves up -/

/-- A branch holds one tree for each premise of an alternative, in order, and
    each is related to its premise under the supply below the alternative. -/
def Branch.Grows (R : Supply → Sequent → ProofTree → Prop) (supply : Supply)
    (alt : Alternative) (b : Branch ProofTree) : Prop :=
  ∃ ts, b = .premises ts ∧ List.Forall₂ (R (supply.below alt)) alt.premises ts

/-- Branches grow along with what their premises do. -/
theorem Branch.Grows.mono {R Q : Supply → Sequent → ProofTree → Prop} {supply : Supply}
    {alt : Alternative} {b : Branch ProofTree}
    (h : ∀ p ∈ alt.premises, ∀ t, R (supply.below alt) p t → Q (supply.below alt) p t)
    (hb : b.Grows R supply alt) : b.Grows Q supply alt := by
  obtain ⟨ts, rfl, hts⟩ := hb
  exact ⟨ts, rfl, forall₂_imp_of_mem hts h⟩

namespace Sequent

variable {rules : RuleSet} {supply : Supply} {s : Sequent} {t : ProofTree}

/-- A sequent without compound members grows to a marked node. -/
theorem grow_of_initial (h : Decomposition.of rules supply s = .ok .initial) :
    s.grow rules supply = .ok (.node s [.initial] true) := by
  rw [Sequent.grow]
  split <;> simp_all

/-- An error of the first step is an error of growth. -/
theorem grow_of_error {e : Error} (h : Decomposition.of rules supply s = .error e) :
    s.grow rules supply = .error e := by
  rw [Sequent.grow]
  split <;> simp_all

/-- The tree of a sequent with alternatives, without the bookkeeping of the
    recursion. -/
theorem grow_of_step {tag : Tag} {alts : List Alternative}
    (h : Decomposition.of rules supply s = .ok (.step tag alts)) :
    s.grow rules supply =
      (do
        let branches ← alts.mapM fun alt => do
          let children ← alt.premises.mapM fun p => p.grow rules (supply.below alt)
          return .premises children
        return .node s branches true) := by
  rw [Sequent.grow]
  split
  · rename_i e he
    rw [h] at he
    cases he
  · rename_i he
    rw [h] at he
    cases he
  · rename_i tag' alts' he
    rw [h] at he
    cases he
    rw [← mapM_attach _ alts]
    simp only [← mapM_attach (fun p => Sequent.grow rules _ p)]

/-- A grown tree is a marked leaf, or has one branch for each alternative. -/
theorem grow_eq_ok_iff :
    s.grow rules supply = .ok t ↔
      (Decomposition.of rules supply s = .ok .initial ∧ t = .node s [.initial] true) ∨
      ∃ tag alts branches, Decomposition.of rules supply s = .ok (.step tag alts) ∧
        List.Forall₂ (Branch.Grows (fun supply p t => p.grow rules supply = .ok t) supply)
          alts branches ∧
        t = .node s branches true := by
  -- one alternative grows if all its premises do
  have hbranch : ∀ (alt : Alternative) (b : Branch ProofTree),
      (do
        let children ← alt.premises.mapM fun p => p.grow rules (supply.below alt)
        return Branch.premises children : Except Error (Branch ProofTree)) = .ok b ↔
      b.Grows (fun supply p t => p.grow rules supply = .ok t) supply alt := by
    intro alt b
    rw [bind_eq_ok_iff]
    constructor
    · rintro ⟨ts, hts, h⟩
      cases h
      exact ⟨ts, rfl, mapM_eq_ok_iff.mp hts⟩
    · rintro ⟨ts, rfl, hts⟩
      exact ⟨ts, mapM_eq_ok_iff.mpr hts, rfl⟩
  cases hd : Decomposition.of rules supply s with
  | error e =>
      rw [grow_of_error hd]
      constructor
      · intro h; cases h
      · rintro (⟨h, -⟩ | ⟨_, _, _, h, -⟩) <;> cases h
  | ok d =>
      cases d with
      | initial =>
          rw [grow_of_initial hd]
          constructor
          · intro h; cases h; exact Or.inl ⟨rfl, rfl⟩
          · rintro (⟨-, rfl⟩ | ⟨_, _, _, h, -⟩)
            · rfl
            · cases h
      | step tag alts =>
          rw [grow_of_step hd, bind_eq_ok_iff]
          constructor
          · rintro ⟨branches, hbs, h⟩
            cases h
            refine Or.inr ⟨tag, alts, branches, rfl, ?_, rfl⟩
            exact (mapM_eq_ok_iff.mp hbs).imp fun alt b => (hbranch alt b).mp
          · rintro (⟨h, -⟩ | ⟨_, _, branches, h, hbs, rfl⟩)
            · cases h
            · cases h
              refine ⟨branches, mapM_eq_ok_iff.mpr ?_, rfl⟩
              exact hbs.imp fun alt b => (hbranch alt b).mpr

/-- The root of a grown tree is the sequent it was grown from. -/
theorem root_of_grow (h : s.grow rules supply = .ok t) : t.root = s := by
  rcases grow_eq_ok_iff.mp h with ⟨-, rfl⟩ | ⟨_, _, _, -, -, rfl⟩ <;> rfl

/-- A property of grown trees follows from the leaves and from the trees of the
    premises, whatever the alternatives they belong to. -/
theorem grow_induction {motive : Supply → Sequent → ProofTree → Prop}
    (initial : ∀ supply s, Decomposition.of rules supply s = .ok .initial →
      motive supply s (.node s [.initial] true))
    (step : ∀ supply s tag alts branches,
      Decomposition.of rules supply s = .ok (.step tag alts) →
      List.Forall₂ (Branch.Grows motive supply) alts branches →
      motive supply s (.node s branches true)) :
    ∀ {supply s t}, s.grow rules supply = .ok t → motive supply s t := by
  have hall : ∀ n s, s.connectives = n → ∀ supply t, s.grow rules supply = .ok t →
      motive supply s t := by
    intro n
    induction n using Nat.strongRecOn with
    | ind n ih =>
        intro s hn supply t h
        rcases grow_eq_ok_iff.mp h with ⟨hd, rfl⟩ | ⟨tag, alts, branches, hd, hbs, rfl⟩
        · exact initial supply s hd
        · refine step supply s tag alts branches hd (forall₂_imp_of_mem hbs ?_)
          intro alt halt b hb
          refine hb.mono fun p hp t ht => ?_
          -- every premise has fewer connectives, so its tree has the property
          have hlt : p.connectives < n := hn ▸ Decomposition.connectives_lt hd halt hp
          exact ih _ hlt p rfl _ t ht
  intro supply s t h
  exact hall s.connectives s rfl supply t h

end Sequent

/-! ## Growth from the root down -/

/-- The nodes of a tree, each with all that is below it. -/
inductive ProofTree.HasNode : ProofTree → ProofTree → Prop
  | root (t : ProofTree) : HasNode t t
  | child {t c u : ProofTree} {b : Branch ProofTree} (hb : b ∈ t.branches)
      (hc : c ∈ b.children) (h : HasNode c u) : HasNode t u

/-- A sequent to be derived and the supply it may take names from. -/
structure Goal where
  supply : Supply
  sequent : Sequent

/-- From a goal to one of the premises of one of its alternatives. -/
inductive Goal.Step (rules : RuleSet) : Goal → Goal → Prop
  | mk {supply : Supply} {s p : Sequent} {d : Decomposition} {alt : Alternative}
      (hd : Decomposition.of rules supply s = .ok d) (halt : alt ∈ d.alternatives)
      (hp : p ∈ alt.premises) : Step rules ⟨supply, s⟩ ⟨supply.below alt, p⟩

/-- Any number of decomposition steps. -/
abbrev Goal.Reaches (rules : RuleSet) : Goal → Goal → Prop :=
  Relation.ReflTransGen (Goal.Step rules)

/-- What every step preserves is preserved by any number of steps. -/
theorem Goal.Reaches.preserves {rules : RuleSet} (Inv : Goal → Prop)
    (step : ∀ g g', g.Step rules g' → Inv g → Inv g') {g g' : Goal} (h : g.Reaches rules g')
    (hg : Inv g) : Inv g' := by
  induction h with
  | refl => exact hg
  | tail _ hstep ih => exact step _ _ hstep ih

/-- A choice for every element is a list of choices. -/
theorem exists_forall₂ {α β : Type} {R : α → β → Prop} {xs : List α}
    (h : ∀ x ∈ xs, ∃ y, R x y) : ∃ ys, List.Forall₂ R xs ys := by
  induction xs with
  | nil => exact ⟨[], .nil⟩
  | cons x xs ih =>
      obtain ⟨y, hy⟩ := h x List.mem_cons_self
      obtain ⟨ys, hys⟩ := ih fun x' hx' => h x' (List.mem_cons_of_mem _ hx')
      exact ⟨y :: ys, .cons hy hys⟩

theorem forall₂_exists_left {α β : Type} {R : α → β → Prop} {xs : List α} {ys : List β}
    (h : List.Forall₂ R xs ys) {y : β} (hy : y ∈ ys) : ∃ x ∈ xs, R x y := by
  induction h with
  | nil => cases hy
  | cons hR _ ih =>
      rcases List.mem_cons.mp hy with rfl | hy
      · exact ⟨_, by simp, hR⟩
      · obtain ⟨x, hx, hxy⟩ := ih hy
        exact ⟨x, List.mem_cons_of_mem _ hx, hxy⟩

theorem forall₂_exists_right {α β : Type} {R : α → β → Prop} {xs : List α} {ys : List β}
    (h : List.Forall₂ R xs ys) {x : α} (hx : x ∈ xs) : ∃ y ∈ ys, R x y :=
  forall₂_exists_left h.flip hx

theorem forall₂_comp {α β γ : Type} {R : α → β → Prop} {Q : β → γ → Prop} {xs : List α}
    {ys : List β} {zs : List γ} (hR : List.Forall₂ R xs ys) (hQ : List.Forall₂ Q ys zs) :
    List.Forall₂ (fun x z => ∃ y, R x y ∧ Q y z) xs zs := by
  induction hR generalizing zs with
  | nil =>
      cases hQ
      exact .nil
  | cons hxy _ ih =>
      cases hQ with
      | cons hyz hQ => exact .cons ⟨_, hxy, hyz⟩ (ih hQ)

theorem map_eq_map_of_forall₂ {α β γ : Type} {f : α → γ} {g : β → γ} {xs : List α} {ys : List β}
    (h : List.Forall₂ (fun x y => f x = g y) xs ys) : xs.map f = ys.map g := by
  have heq : List.Forall₂ Eq (xs.map f) (ys.map g) := by
    rw [List.forall₂_map_left_iff, List.forall₂_map_right_iff]
    exact h
  rw [List.forall₂_eq_eq_eq] at heq
  exact heq

namespace Sequent

variable {rules : RuleSet} {supply : Supply} {s : Sequent} {t : ProofTree}

/-- A child of a grown tree is the grown tree of a premise. -/
theorem step_of_child (h : s.grow rules supply = .ok t) {b : Branch ProofTree}
    (hb : b ∈ t.branches) {c : ProofTree} (hc : c ∈ b.children) :
    ∃ supply', Goal.Step rules ⟨supply, s⟩ ⟨supply', c.root⟩ ∧
      c.root.grow rules supply' = .ok c := by
  rcases grow_eq_ok_iff.mp h with ⟨-, rfl⟩ | ⟨tag, alts, branches, hd, hbs, rfl⟩
  · rw [List.mem_singleton.mp hb] at hc
    cases hc
  · obtain ⟨alt, halt, ts, rfl, hts⟩ := forall₂_exists_left hbs hb
    obtain ⟨p, hp, hgrow⟩ := forall₂_exists_left hts hc
    have hroot := root_of_grow hgrow
    subst hroot
    exact ⟨supply.below alt, ⟨hd, halt, hp⟩, hgrow⟩

/-- A premise of a grown tree has a grown tree among the children. -/
theorem child_of_step (h : s.grow rules supply = .ok t) {g : Goal}
    (hstep : Goal.Step rules ⟨supply, s⟩ g) :
    ∃ b ∈ t.branches, ∃ c ∈ b.children, g.sequent.grow rules g.supply = .ok c := by
  obtain ⟨hd, halt, hp⟩ := hstep
  rcases grow_eq_ok_iff.mp h with ⟨hd', -⟩ | ⟨tag, alts, branches, hd', hbs, rfl⟩
  · rw [hd] at hd'
    cases hd'
    cases halt
  · rw [hd] at hd'
    cases hd'
    obtain ⟨b, hb, ts, rfl, hts⟩ := forall₂_exists_right hbs halt
    obtain ⟨c, hc, hgrow⟩ := forall₂_exists_right hts hp
    exact ⟨_, hb, c, hc, hgrow⟩

/-- Every node of a grown tree is the grown tree of a goal that is reached. -/
theorem reaches_of_hasNode (h : s.grow rules supply = .ok t) {u : ProofTree}
    (hu : t.HasNode u) :
    ∃ supply', Goal.Reaches rules ⟨supply, s⟩ ⟨supply', u.root⟩ ∧
      u.root.grow rules supply' = .ok u := by
  induction hu generalizing supply s with
  | root t =>
      have hroot := root_of_grow h
      subst hroot
      exact ⟨supply, .refl, h⟩
  | child hb hc _ ih =>
      obtain ⟨supply₁, hstep, hgrow⟩ := step_of_child h hb hc
      obtain ⟨supply₂, hreach, hgrow₂⟩ := ih hgrow
      exact ⟨supply₂, .head hstep hreach, hgrow₂⟩

/-- Every goal that is reached has its grown tree at a node. -/
theorem hasNode_of_reaches (h : s.grow rules supply = .ok t) {g : Goal}
    (hg : Goal.Reaches rules ⟨supply, s⟩ g) :
    ∃ u, t.HasNode u ∧ u.root = g.sequent ∧ g.sequent.grow rules g.supply = .ok u := by
  generalize hstart : (⟨supply, s⟩ : Goal) = start at hg
  induction hg using Relation.ReflTransGen.head_induction_on generalizing supply s t with
  | refl =>
      subst hstart
      exact ⟨t, .root t, root_of_grow h, h⟩
  | head hstep _ ih =>
      subst hstart
      obtain ⟨b, hb, c, hc, hgrow⟩ := child_of_step h hstep
      obtain ⟨u, hu, hroot, hgu⟩ := ih hgrow rfl
      exact ⟨u, .child hb hc hu, hroot, hgu⟩

/-- Growth succeeds if every goal that is reached can be decomposed. -/
theorem exists_grow (h : ∀ g, Goal.Reaches rules ⟨supply, s⟩ g →
      ∃ d, Decomposition.of rules g.supply g.sequent = .ok d) :
    ∃ t, s.grow rules supply = .ok t := by
  induction hn : s.connectives using Nat.strongRecOn generalizing s supply with
  | ind n ih =>
      obtain ⟨d, hd⟩ := h ⟨supply, s⟩ .refl
      cases d with
      | initial => exact ⟨_, grow_of_initial hd⟩
      | step tag alts =>
          have hpremise : ∀ alt ∈ alts, ∀ p ∈ alt.premises,
              ∃ t, p.grow rules (supply.below alt) = .ok t := by
            intro alt halt p hp
            have hlt : p.connectives < n := hn ▸ Decomposition.connectives_lt hd halt hp
            exact ih _ hlt (fun g hg => h g (.head ⟨hd, halt, hp⟩ hg)) rfl
          have hbranch : ∀ alt ∈ alts, ∃ b,
              Branch.Grows (fun supply p t => p.grow rules supply = .ok t) supply alt b := by
            intro alt halt
            obtain ⟨ts, hts⟩ := exists_forall₂ (hpremise alt halt)
            exact ⟨.premises ts, ts, rfl, hts⟩
          obtain ⟨branches, hbs⟩ := exists_forall₂ hbranch
          exact ⟨_, grow_eq_ok_iff.mpr (Or.inr ⟨tag, alts, branches, hd, hbs, rfl⟩)⟩

end Sequent

theorem ProofTree.grow_ofSequent (rules : RuleSet) (supply : Supply) (s : Sequent) :
    (ofSequent s).grow rules supply = s.grow rules supply := rfl

end SequentCalculus
