import SequentCalculus.Proofs.Text
import SequentCalculus.Proofs.Witness

/-! # Names under growth — when grown sequents can still be read

    Growth puts names for variables, and where a name would be captured it
    invents a numbered variant of it.  The names supplied are terms, but their
    variants need not be (`isTerm_numbered_eq_false_iff`), so a grown tree can hold a sequent
    that is not read back from its display.

    This happens at one place only: where a quantifier is decomposed with a name
    whose variants are no terms, and some quantifier below binds that very name
    above a free occurrence of the variable (`Goal.Spoils`).  A tree stays
    readable exactly if no goal of its growth is of this kind. -/

namespace SequentCalculus

/-! ## Substitution -/

namespace Formula

/-- Whether substituting `w` for `x` renames a bound variable: some quantifier
    binds `w` above a free `x`. -/
def renames (x w : String) : Formula → Bool
  | atom _ => false
  | negation p => p.renames x w
  | binary _ p q => p.renames x w || q.renames x w
  | quantified _ y p => y ≠ x && (captures x w y p || p.renames x w)

theorem wellNamed_atom_replace {a : Atom} {x w : String} (ha : (atom a).WellNamed)
    (hw : isTerm w = true) : (atom (a.replace x w)).WellNamed := by
  obtain ⟨hname, hterms⟩ := wellNamed_atom.mp ha
  refine wellNamed_atom.mpr ⟨hname, ?_⟩
  intro t ht
  rcases Atom.mem_terms_replace.mp ht with ⟨ht, -⟩ | ⟨rfl, -⟩
  · exact hterms t ht
  · exact hw

/-- Replacing a free name by a term keeps a formula well-named. -/
theorem wellNamed_replaceFree {p : Formula} {x w : String} (hp : p.WellNamed)
    (hw : isTerm w = true) : (p.replaceFree x w).WellNamed := by
  induction p with
  | atom a => exact wellNamed_atom_replace hp hw
  | negation p ih => exact ih hp
  | binary op p q ihp ihq =>
      rw [wellNamed_binary] at hp
      exact wellNamed_binary.mpr ⟨ihp hp.1, ihq hp.2⟩
  | quantified k y p ih =>
      unfold replaceFree
      split
      · exact hp
      · rw [wellNamed_quantified] at hp
        exact wellNamed_quantified.mpr ⟨hp.1, ih hp.2⟩

/-- Substituting a term leaves a formula well-named unless a bound variable is
    renamed to a variant that is no term. -/
theorem wellNamed_subst_iff {x w : String} (hw : isTerm w = true) {p : Formula} :
    p.WellNamed → ((p.subst x w).WellNamed ↔
      (p.renames x w = true → isTerm (numbered w 1) = true)) := by
  fun_induction subst x w p with
  | case1 a =>
      intro hp
      constructor
      · intro _ h
        cases h
      · intro _
        exact wellNamed_atom_replace hp hw
  | case2 p ih => exact ih
  | case3 op p q ihp ihq =>
      intro hp
      rw [wellNamed_binary] at hp
      rw [wellNamed_binary, ihp hp.1, ihq hp.2, renames, Bool.or_eq_true, or_imp]
  | case4 k p =>
      intro hp
      constructor
      · intro _ h
        simp [renames] at h
      · intro _
        exact hp
  | case5 k y p hyx hc z ih =>
      -- the binder takes the name `z`, a variant of `w`
      intro hp
      obtain ⟨rfl, hx⟩ := captures_eq_true.mp hc
      obtain ⟨n, -, hz, -, -⟩ := freshVariant_spec y (x :: y :: p.symbols)
      have hterm : isTerm z = isTerm (numbered y 1) := by
        rw [show z = numbered y n from hz]
        exact isTerm_numbered y n 1
      have hrenames : (quantified k y p).renames x y = true := by
        simp [renames, hyx, hc]
      rw [wellNamed_quantified, hterm]
      constructor
      · intro h _
        exact h.1
      · intro h
        have hone := h hrenames
        refine ⟨hone, (ih ?_).mpr fun _ => hone⟩
        exact wellNamed_replaceFree (wellNamed_quantified.mp hp).2 (hterm.trans hone)
  | case6 k y p hyx hc ih =>
      intro hp
      rw [wellNamed_quantified] at hp
      have hrenames : (quantified k y p).renames x w = p.renames x w := by
        simp [renames, hyx, hc]
      rw [wellNamed_quantified, ih hp.2, hrenames]
      exact and_iff_right hp.1

end Formula

/-! ## Supplies -/

/-- The names that a quantifier is tried with were supplied, or are the
    placeholder. -/
theorem Supply.mem_candidates {supply : Supply} {s : Sequent} {w : String}
    (h : w ∈ supply.candidates s) : w ∈ supply.names ∨ w = placeholder := by
  unfold Supply.candidates at h
  split at h
  · exact Or.inr (List.mem_singleton.mp h)
  · exact Or.inl (List.mem_filter.mp h).1

/-- Every name that a goal may put for a variable is a term. -/
theorem Supply.isTerm_candidates {supply : Supply} {s : Sequent} {w : String}
    (hnames : ∀ n ∈ supply.names, isTerm n = true) (h : w ∈ supply.candidates s) :
    isTerm w = true := by
  rcases Supply.mem_candidates h with hmem | rfl
  · exact hnames w hmem
  · rfl

/-! ## One step -/

/-- The quantifier that the goal decomposes is tried with a name whose variants
    are no terms, and putting it for the variable renames a bound variable. -/
def Goal.Spoils (g : Goal) : Prop :=
  ∃ m k x body w, g.sequent.principal? = some m ∧ m.formula = .quantified k x body ∧
    w ∈ g.supply.candidates g.sequent ∧ body.renames x w = true ∧
    isTerm (numbered w 1) = false

/-- The sequent is well-named and the names supplied for it are terms. -/
structure Goal.WellNamed (g : Goal) : Prop where
  names : ∀ n ∈ g.supply.names, isTerm n = true
  sequent : g.sequent.WellNamed

theorem Sequent.wellNamed_iff {s : Sequent} :
    s.WellNamed ↔ ∀ m ∈ s.sidedMembers, m.2.WellNamed := by
  constructor
  · intro h m hm
    exact h m.2 (Sequent.mem_members.mpr ⟨m.1, hm⟩)
  · intro h p hp
    obtain ⟨side, hm⟩ := Sequent.mem_members.mp hp
    exact h (side, p) hm

/-- The operands of a well-named formula are well-named. -/
theorem Formula.WellNamed.operands {p q : Formula} (hp : p.WellNamed) (hq : q ∈ p.operands) :
    q.WellNamed := by
  cases p with
  | atom a => cases hq
  | negation p =>
      rw [List.mem_singleton.mp hq]
      exact hp
  | binary op p p' =>
      rw [Formula.wellNamed_binary] at hp
      rcases List.mem_pair.mp hq with rfl | rfl
      · exact hp.1
      · exact hp.2
  | quantified k x p =>
      rw [List.mem_singleton.mp hq]
      exact (Formula.wellNamed_quantified.mp hp).2

/-- A premise holds members of the sequent, operands of the principal formula
    and instances of it. -/
theorem Goal.WellNamed.step {rules : RuleSet} {g g' : Goal} (hg : g.WellNamed)
    (hspoils : ¬ g.Spoils) (h : g.Step rules g') : g'.WellNamed := by
  obtain ⟨hnames, hs⟩ := hg
  obtain ⟨hd, halt, hp⟩ := h
  refine ⟨by rw [Supply.below_names]; exact hnames, ?_⟩
  obtain ⟨m, i, hm, hi, hyields⟩ := Decomposition.yields hd halt
  obtain ⟨c, q, rfl, hc, hq⟩ := hyields.premise_eq hp
  rw [Sequent.wellNamed_iff] at hs ⊢
  have hprincipal : m.formula.WellNamed :=
    hs (m.side, m.formula) ((Sequent.mem_sidedMembers_principal hm).mpr (Or.inl rfl))
  intro e he
  rcases Sequent.mem_sidedMembers_mix.mp he with he | he
  · exact hs e ((Sequent.mem_sidedMembers_principal hm).mpr (Or.inr (hc.mem he)))
  · rcases hq with ⟨-, hq⟩ | ⟨side, x, body, w, rfl, hw, -, rfl⟩
    · have hmem := Sequent.mem_members.mpr ⟨e.1, he⟩
      exact hprincipal.operands ((Inference.sublist_operands hi hq).subset hmem)
    · obtain ⟨-, k, hquantified⟩ := Inference.eq_quantified_of_instantiate hi
      rw [Sequent.mem_sidedMembers_onSide] at he
      subst he
      rw [hquantified, Formula.wellNamed_quantified] at hprincipal
      refine (Formula.wellNamed_subst_iff (Supply.isTerm_candidates hnames hw) hprincipal.2).mpr ?_
      intro hrenames
      by_contra hterm
      exact hspoils ⟨m, k, x, body, w, hm, hquantified, hw, hrenames, Bool.not_eq_true _ ▸ hterm⟩

/-- The instance with the name that spoils is a premise that is not well-named. -/
theorem Goal.Spoils.exists_step {g : Goal} (hspoils : g.Spoils) (hg : g.WellNamed)
    (rules : RuleSet) : ∃ g', g.Step rules g' ∧ ¬ g'.sequent.WellNamed := by
  obtain ⟨supply, s⟩ := g
  obtain ⟨hnames, hs⟩ := hg
  obtain ⟨m, k, x, body, w, hm, hquantified, hw, hrenames, hterm⟩ := hspoils
  refine ⟨_, ⟨Decomposition.of_quantified hm hquantified, List.mem_map.mpr ⟨w, hw, rfl⟩,
    List.mem_singleton.mpr rfl⟩, ?_⟩
  rw [Sequent.wellNamed_iff] at hs ⊢
  intro hnamed
  have hprincipal : m.formula.WellNamed :=
    hs (m.side, m.formula) ((Sequent.mem_sidedMembers_principal hm).mpr (Or.inl rfl))
  rw [hquantified, Formula.wellNamed_quantified] at hprincipal
  have hinstance : (body.subst x w).WellNamed := hnamed (m.side, body.subst x w)
    (Sequent.mem_sidedMembers_mix.mpr (Or.inr (Sequent.mem_sidedMembers_onSide.mpr rfl)))
  have hone := (Formula.wellNamed_subst_iff (Supply.isTerm_candidates hnames hw) hprincipal.2).mp
    hinstance hrenames
  rw [hterm] at hone
  cases hone

/-! ## Whole trees -/

/-- The names supplied are the same at every goal. -/
theorem Goal.Reaches.supply_names {rules : RuleSet} {g g' : Goal} (h : g.Reaches rules g') :
    g'.supply.names = g.supply.names := by
  refine h.preserves (fun g' => g'.supply.names = g.supply.names) ?_ rfl
  rintro _ _ ⟨hd, halt, hp⟩ hnames
  rw [Supply.below_names]
  exact hnames

/-- No goal that can be reached spoils its premises. -/
def Goal.Safe (rules : RuleSet) (g : Goal) : Prop :=
  ∀ g', g.Reaches rules g' → ¬ g'.Spoils

/-- From a safe goal growth reaches well-named goals only. -/
theorem Goal.WellNamed.reaches {rules : RuleSet} {g g' : Goal} (hg : g.WellNamed)
    (hsafe : g.Safe rules) (h : g.Reaches rules g') : g'.WellNamed := by
  induction h with
  | refl => exact hg
  | tail hreach hstep ih => exact ih.step (hsafe _ hreach) hstep

/-- The nodes of a grown tree are well-named exactly if growth was safe. -/
theorem Sequent.safe_iff_wellNamed {rules : RuleSet} {supply : Supply} {s : Sequent}
    {t : ProofTree} (hg : Goal.WellNamed ⟨supply, s⟩) (hgrow : s.grow rules supply = .ok t) :
    Goal.Safe rules ⟨supply, s⟩ ↔ ∀ u, t.HasNode u → u.root.WellNamed := by
  constructor
  · intro hsafe u hu
    obtain ⟨supply', hreach, -⟩ := Sequent.reaches_of_hasNode hgrow hu
    exact (hg.reaches hsafe hreach).sequent
  · intro hnodes g hreach hspoils
    have hnamed : ∀ g, Goal.Reaches rules ⟨supply, s⟩ g → g.sequent.WellNamed := by
      intro g hreach
      obtain ⟨u, hu, hroot, -⟩ := Sequent.hasNode_of_reaches hgrow hreach
      rw [← hroot]
      exact hnodes u hu
    have hnames : ∀ n ∈ g.supply.names, isTerm n = true := by
      rw [hreach.supply_names]
      exact hg.names
    obtain ⟨g', hstep, hbad⟩ := hspoils.exists_step ⟨hnames, hnamed g hreach⟩ rules
    exact hbad (hnamed g' (hreach.tail hstep))

/-- Names whose variants are terms never spoil anything. -/
theorem Goal.safe_of_numbered {rules : RuleSet} {g : Goal}
    (h : ∀ n ∈ g.supply.names, isTerm (numbered n 1) = true) : g.Safe rules := by
  rintro g' hreach ⟨m, k, x, body, w, -, -, hw, -, hterm⟩
  rcases Supply.mem_candidates hw with hmem | rfl
  · rw [hreach.supply_names] at hmem
    rw [h w hmem] at hterm
    cases hterm
  · exact absurd hterm (by decide)

/-- **When grown trees stay readable.**  Let a tree grow from a well-named
    sequent.  Its nodes are well-named, their displays are read back and the
    tree survives being written down, each of them exactly if growth was safe;
    and it is safe whenever the variants of the supplied names are terms.  The
    text of the tree is read back exactly if, besides, the tree is not too deep
    for a document. -/
theorem Sequent.readable_iff_safe {names : List String} {supply : Supply} {rules : RuleSet}
    {s : Sequent} {t : ProofTree} (hsupply : Supply.ofNames names = .ok supply)
    (hs : s.WellNamed) (hgrow : (ProofTree.ofSequent s).grow rules supply = .ok t) :
    ((∀ u, t.HasNode u → u.root.WellNamed) ↔ Goal.Safe rules ⟨supply, s⟩) ∧
    ((∀ u, t.HasNode u → Sequent.parse u.root.display = .ok u.root) ↔
      Goal.Safe rules ⟨supply, s⟩) ∧
    (t.toRecord.toTree = .ok t ↔ Goal.Safe rules ⟨supply, s⟩) ∧
    (ProofTree.ofText t.toText = .ok t ↔
      Goal.Safe rules ⟨supply, s⟩ ∧ 2 * t.depth < Toml.nestingLimit) ∧
    ((∀ n ∈ names, isTerm (numbered n 1) = true) → Goal.Safe rules ⟨supply, s⟩) := by
  rw [ProofTree.grow_ofSequent] at hgrow
  obtain ⟨rfl, hterms⟩ := Supply.ofNames_eq_ok hsupply
  have hg : Goal.WellNamed ⟨⟨keepFirst names, []⟩, s⟩ :=
    ⟨fun n hn => hterms n (Supply.mem_keepFirst.mp hn), hs⟩
  -- all of these say in other words that the nodes are well-named
  have hsafe := Sequent.safe_iff_wellNamed hg hgrow
  refine ⟨hsafe.symm, ?_, ?_, ?_, ?_⟩
  · rw [hsafe]
    constructor
    · intro h u hu
      exact Sequent.wellNamed_of_parse (h u hu)
    · intro h u hu
      exact Sequent.parse_display (h u hu)
  · rw [hsafe]
    exact Sequent.toTree_toRecord_iff hgrow
  · rw [hsafe]
    exact Sequent.ofText_toText_iff hgrow
  · intro h
    exact Goal.safe_of_numbered fun n hn => h n (Supply.mem_keepFirst.mp hn)

/-- The sequent `∀x ∃y P<x, y>; ` for a given variable `y`. -/
def Sequent.underBinder (y : String) : Sequent :=
  ⟨[.quantified .universal "x" (.quantified .existential y (.atom ⟨"P", ["x", y]⟩))], []⟩

/-- With the name `y` the inner variable `y` is renamed to `y_1`, which is a
    term. -/
theorem Sequent.readable_underBinder :
    ∃ t, (ProofTree.ofSequent (Sequent.underBinder "y")).grow (RuleSet.uniform .multiplicative)
        ⟨["y"], []⟩ = .ok t ∧
      (∀ u, t.HasNode u → Sequent.parse u.root.display = .ok u.root) ∧
      t.toRecord.toTree = .ok t ∧ ProofTree.ofText t.toText = .ok t := by
  have hsupply : Supply.ofNames ["y"] = .ok ⟨["y"], []⟩ := by decide
  have hs : (Sequent.underBinder "y").WellNamed := by decide
  have hok : (((ProofTree.ofSequent (Sequent.underBinder "y")).grow
      (RuleSet.uniform .multiplicative) ⟨["y"], []⟩).toOption.any
        fun t => 2 * t.depth < Toml.nestingLimit) = true := by decide_cbv
  cases hgrow : (ProofTree.ofSequent (Sequent.underBinder "y")).grow
      (RuleSet.uniform .multiplicative) ⟨["y"], []⟩ with
  | error e =>
      rw [hgrow] at hok
      cases hok
  | ok t =>
      rw [hgrow] at hok
      obtain ⟨-, hparse, hrecord, htext, hnumbered⟩ :=
        Sequent.readable_iff_safe hsupply hs hgrow
      have hsafe := hnumbered (by decide)
      exact ⟨t, rfl, hparse.mpr hsafe, hrecord.mpr hsafe,
        htext.mpr ⟨hsafe, of_decide_eq_true hok⟩⟩

/-- With the name `forallv` the inner variable `forallv` is renamed to
    `forallv_1`, which is read as a quantifier glued to `v_1`. -/
theorem Sequent.unreadable_underBinder :
    (Sequent.underBinder "forallv").WellNamed ∧
    Supply.ofNames ["forallv"] = .ok ⟨["forallv"], []⟩ ∧
    ∃ t, (ProofTree.ofSequent (Sequent.underBinder "forallv")).grow
        (RuleSet.uniform .multiplicative) ⟨["forallv"], []⟩ = .ok t ∧
      (∃ u, t.HasNode u ∧ ¬ u.root.WellNamed ∧ Sequent.parse u.root.display ≠ .ok u.root) ∧
      t.toRecord.toTree ≠ .ok t ∧ ProofTree.ofText t.toText ≠ .ok t := by
  have hsupply : Supply.ofNames ["forallv"] = .ok ⟨["forallv"], []⟩ := by decide
  have hs : (Sequent.underBinder "forallv").WellNamed := by decide
  refine ⟨hs, hsupply, ?_⟩
  have hok : ((ProofTree.ofSequent (Sequent.underBinder "forallv")).grow
      (RuleSet.uniform .multiplicative) ⟨["forallv"], []⟩).toOption.isSome = true := by decide_cbv
  have hspoils : Goal.Spoils ⟨⟨["forallv"], []⟩, Sequent.underBinder "forallv"⟩ := by
    refine ⟨⟨.antecedent, 0, _, ⟨[], []⟩⟩, .universal, "x", _, "forallv", rfl, rfl, ?_, ?_, ?_⟩
    · decide
    · decide
    · decide
  cases hgrow : (ProofTree.ofSequent (Sequent.underBinder "forallv")).grow
      (RuleSet.uniform .multiplicative) ⟨["forallv"], []⟩ with
  | error e =>
      rw [hgrow] at hok
      cases hok
  | ok t =>
      rw [ProofTree.grow_ofSequent] at hgrow
      have hg : Goal.WellNamed ⟨⟨["forallv"], []⟩, Sequent.underBinder "forallv"⟩ :=
        ⟨by decide, hs⟩
      have hnodes : ¬ ∀ u, t.HasNode u → u.root.WellNamed := by
        intro h
        exact (Sequent.safe_iff_wellNamed hg hgrow).mpr h _ .refl hspoils
      refine ⟨t, rfl, ?_, ?_, ?_⟩
      · obtain ⟨u, hu⟩ := Classical.not_forall.mp hnodes
        obtain ⟨hnode, hbad⟩ := Classical.not_imp.mp hu
        exact ⟨u, hnode, hbad, fun h => hbad (Sequent.wellNamed_of_parse h)⟩
      · intro h
        exact hnodes ((Sequent.toTree_toRecord_iff hgrow).mp h)
      · intro h
        exact hnodes ((Sequent.ofText_toText_iff hgrow).mp h).1

end SequentCalculus
