import SequentCalculus.Proofs.Witness

/-! # Paths — the names taken on the way down a tree

    A node of a tree is found by its place: which branch and which premise to
    follow at each node from the root on.  While the tree grows, a path leads to
    the same place through the goals, and each of its moves follows one
    alternative, with the name that a quantifier took for it.

    The supply at the end of a path is the first one with the names taken on the
    path added to those used (`Goal.Path.supply_eq`).  So what a quantifier may
    take is a matter of the path alone: the supplied names that are not free in
    its sequent, were not used at the start, and have not been taken above
    (`Supply.remaining`). -/

namespace SequentCalculus

/-! ## Places -/

/-- A place in a tree: at each node from the root on, the number of a branch and
    the number of one of its premises. -/
abbrev Position := List (Nat × Nat)

/-- The node at a place. -/
def ProofTree.at? : ProofTree → Position → Option ProofTree
  | t, [] => some t
  | t, (i, j) :: place => (t.child? i j).bind fun c => c.at? place

theorem ProofTree.child?_eq_some_iff {t c : ProofTree} {i j : Nat} :
    t.child? i j = some c ↔ ∃ b, t.branches[i]? = some b ∧ b.children[j]? = some c := by
  unfold ProofTree.child?
  cases t.branches[i]? <;> simp

/-- A place below the root lies below one of its children. -/
theorem ProofTree.at?_cons_eq_some_iff {t u : ProofTree} {i j : Nat} {place : Position} :
    t.at? ((i, j) :: place) = some u ↔
      ∃ b c, t.branches[i]? = some b ∧ b.children[j]? = some c ∧ c.at? place = some u := by
  rw [ProofTree.at?, Option.bind_eq_some_iff]
  constructor
  · rintro ⟨c, hc, hu⟩
    obtain ⟨b, hb, hc⟩ := ProofTree.child?_eq_some_iff.mp hc
    exact ⟨b, c, hb, hc, hu⟩
  · rintro ⟨b, c, hb, hc, hu⟩
    exact ⟨c, ProofTree.child?_eq_some_iff.mpr ⟨b, hb, hc⟩, hu⟩

theorem forall₂_getElem? {α β : Type} {R : α → β → Prop} {xs : List α} {ys : List β}
    (h : List.Forall₂ R xs ys) {i : Nat} {x : α} (hx : xs[i]? = some x) :
    ∃ y, ys[i]? = some y ∧ R x y := by
  induction h generalizing i with
  | nil => cases hx
  | cons hR _ ih =>
      cases i with
      | zero =>
          cases hx
          exact ⟨_, rfl, hR⟩
      | succ i => exact ih hx

/-! ## Paths -/

/-- One move on a path: the goal that is decomposed and the alternative that the
    path follows. -/
structure Move where
  goal : Goal
  alternative : Alternative

/-- The name that a quantifier took for a move. -/
def Move.witness (m : Move) : Option String := m.alternative.witness

/-- The names taken on a path, from the root down. -/
def taken (moves : List Move) : List String := moves.filterMap Move.witness

/-- The moves that lead from a goal to the goal at a place. -/
inductive Goal.Path (rules : RuleSet) : Goal → Position → List Move → Goal → Prop
  | here (g : Goal) : Path rules g [] [] g
  | down {g g' : Goal} {d : Decomposition} {i j : Nat} {alt : Alternative} {p : Sequent}
      {place : Position} {moves : List Move}
      (hd : Decomposition.of rules g.supply g.sequent = .ok d)
      (halt : d.alternatives[i]? = some alt) (hp : alt.premises[j]? = some p)
      (h : Path rules ⟨g.supply.below alt, p⟩ place moves g') :
      Path rules g ((i, j) :: place) (⟨g, alt⟩ :: moves) g'

theorem taken_cons (m : Move) (moves : List Move) :
    taken (m :: moves) = m.witness.toList ++ taken moves := by
  unfold taken
  cases hw : m.witness <;> simp [hw]

theorem Supply.below_eq (supply : Supply) (alt : Alternative) :
    supply.below alt = ⟨supply.names, alt.witness.toList ++ supply.used⟩ := by
  unfold Supply.below
  cases alt.witness <;> rfl

namespace Goal.Path

variable {rules : RuleSet} {g g' : Goal} {place : Position} {moves : List Move}

/-- A path of moves reaches its end. -/
theorem reaches (h : Path rules g place moves g') : g.Reaches rules g' := by
  induction h with
  | here g => exact .refl
  | @down g _ _ _ _ _ _ _ _ hd halt hp _ ih =>
      exact .head ⟨hd, List.mem_of_getElem? halt, List.mem_of_getElem? hp⟩ ih

/-- A path adds the names that it takes to those used. -/
theorem supply_eq (h : Path rules g place moves g') :
    g'.supply = ⟨g.supply.names, (taken moves).reverse ++ g.supply.used⟩ := by
  induction h with
  | here g => rfl
  | @down g g' d i j alt p place moves _ _ _ _ ih =>
      have hwitness : (Move.witness ⟨g, alt⟩).toList.reverse = alt.witness.toList := by
        cases hw : alt.witness <;> simp [Move.witness, hw]
      -- what is taken first ends up deepest among the names used
      rw [ih, Supply.below_eq, taken_cons, List.reverse_append, hwitness, List.append_assoc]

/-- The free names at the end of a path were free at its start or have been taken
    on it. -/
theorem names (h : Path rules g place moves g') {n : String} (hn : n ∈ g'.sequent.names) :
    n ∈ g.sequent.names ∨ n ∈ taken moves := by
  induction h with
  | here g => exact Or.inl hn
  | @down g _ _ _ _ alt _ _ _ hd halt hp _ ih =>
      rw [taken_cons, List.mem_append]
      rcases ih hn with hpremise | htaken
      · have hstep := Goal.Step.names_premise hd (List.mem_of_getElem? halt)
          (List.mem_of_getElem? hp) hpremise
        exact hstep.imp_right fun hw => Or.inl (Option.mem_toList.mpr hw)
      · exact Or.inr (Or.inr htaken)

/-- Up to any of its moves a path is a path to the goal that the move decomposes. -/
theorem upTo {above below : List Move} {move : Move}
    (h : Path rules g place (above ++ move :: below) g') :
    (∃ place', Path rules g place' above move.goal) ∧
      ∃ d, Decomposition.of rules move.goal.supply move.goal.sequent = .ok d ∧
        move.alternative ∈ d.alternatives := by
  induction above generalizing g place with
  | nil =>
      cases h with
      | down hd halt _ _ => exact ⟨⟨[], .here g⟩, _, hd, List.mem_of_getElem? halt⟩
  | cons first above ih =>
      cases h with
      | down hd halt hp h =>
          obtain ⟨⟨place', hpath⟩, hmove⟩ := ih h
          exact ⟨⟨_, .down hd halt hp hpath⟩, hmove⟩

end Goal.Path

/-! ## Paths and grown trees -/

namespace Sequent

variable {rules : RuleSet} {supply : Supply} {s : Sequent} {t : ProofTree}

/-- A path leads to every place of a grown tree. -/
theorem path_of_at? {place : Position} (h : s.grow rules supply = .ok t) {u : ProofTree}
    (hu : t.at? place = some u) :
    ∃ moves supply', Goal.Path rules ⟨supply, s⟩ place moves ⟨supply', u.root⟩ ∧
      u.root.grow rules supply' = .ok u := by
  induction place generalizing supply s t with
  | nil =>
      cases hu
      have hroot := root_of_grow h
      subst hroot
      exact ⟨[], supply, .here _, h⟩
  | cons step place ih =>
      obtain ⟨i, j⟩ := step
      obtain ⟨b, c, hb, hc, hcu⟩ := ProofTree.at?_cons_eq_some_iff.mp hu
      rcases grow_eq_ok_iff.mp h with ⟨-, rfl⟩ | ⟨tag, alts, branches, hd, hbs, rfl⟩
      · -- the mark of an atomic sequent has no children
        rw [List.mem_singleton.mp (List.mem_of_getElem? hb)] at hc
        cases hc
      · obtain ⟨alt, halt, ts, rfl, hts⟩ := forall₂_getElem? hbs.flip hb
        obtain ⟨p, hp, hgrow⟩ := forall₂_getElem? hts.flip hc
        obtain ⟨moves, supply', hpath, hgrow'⟩ := ih hgrow hcu
        exact ⟨_, supply', .down hd halt hp hpath, hgrow'⟩

/-- Every path ends at a place of the grown tree. -/
theorem at?_of_path {place : Position} {moves : List Move} {g : Goal}
    (h : s.grow rules supply = .ok t) (hpath : Goal.Path rules ⟨supply, s⟩ place moves g) :
    ∃ u, t.at? place = some u ∧ g.sequent.grow rules g.supply = .ok u := by
  generalize hstart : (⟨supply, s⟩ : Goal) = start at hpath
  induction hpath generalizing supply s t with
  | here g =>
      subst hstart
      exact ⟨t, rfl, h⟩
  | down hd halt hp _ ih =>
      subst hstart
      rcases grow_eq_ok_iff.mp h with ⟨hd', -⟩ | ⟨tag, alts, branches, hd', hbs, rfl⟩
      · rw [hd] at hd'
        cases hd'
        cases halt
      · rw [hd] at hd'
        cases hd'
        obtain ⟨b, hb, ts, rfl, hts⟩ := forall₂_getElem? hbs halt
        obtain ⟨c, hc, hgrow⟩ := forall₂_getElem? hts hp
        obtain ⟨u, hu, hgu⟩ := ih hgrow rfl
        exact ⟨u, ProofTree.at?_cons_eq_some_iff.mpr ⟨_, c, hb, hc, hu⟩, hgu⟩

/-- The branches of a grown tree have the premises of the alternatives at their
    roots, in order. -/
theorem roots_of_grow {tag : Tag} {alts : List Alternative} (h : s.grow rules supply = .ok t)
    (hd : Decomposition.of rules supply s = .ok (.step tag alts)) :
    t.branches.map (fun b => b.children.map ProofTree.root) = alts.map Alternative.premises := by
  rcases grow_eq_ok_iff.mp h with ⟨hd', -⟩ | ⟨tag', alts', branches, hd', hbs, rfl⟩
  · rw [hd] at hd'
    cases hd'
  · rw [hd] at hd'
    cases hd'
    refine map_eq_map_of_forall₂ (hbs.flip.imp ?_)
    rintro _ alt ⟨ts, rfl, hts⟩
    have hroots : ts.map ProofTree.root = alt.premises.map id :=
      map_eq_map_of_forall₂ (hts.flip.imp fun t p hgrow => root_of_grow hgrow)
    rw [List.map_id] at hroots
    exact hroots

end Sequent

/-! ## What a quantifier may take -/

namespace Supply

/-- The supplied names that a quantifier of a sequent may take, in order, after
    some names have been taken above it. -/
def remaining (supply : Supply) (taken : List String) (s : Sequent) : List String :=
  supply.names.filter fun n => n ∉ s.names ∧ n ∉ taken ∧ n ∉ supply.used

/-- What a quantifier is tried with: the names that remain, or the placeholder if
    none does. -/
def offered (supply : Supply) (taken : List String) (s : Sequent) : List String :=
  if supply.remaining taken s = [] then [placeholder] else supply.remaining taken s

/-- The supplies that can be made: out of a list of names, and from another
    supply by taking a name. -/
inductive Made : Supply → Prop
  | empty : Made .empty
  | ofNames {names : List String} {supply : Supply} (h : ofNames names = .ok supply) : Made supply
  | descend {supply : Supply} (h : Made supply) (w : String) : Made (supply.descend w)

/-- A supply has no name twice. -/
theorem Made.nodup {supply : Supply} (h : supply.Made) : supply.names.Nodup := by
  induction h with
  | empty => exact List.nodup_nil
  | ofNames h =>
      obtain ⟨rfl, -⟩ := ofNames_eq_ok h
      exact nodup_keepFirst _
  | descend _ w ih => exact ih

/-- No name is offered twice. -/
theorem Made.nodup_offered {supply : Supply} (h : supply.Made) (taken : List String)
    (s : Sequent) : (supply.offered taken s).Nodup := by
  unfold offered
  split
  · exact List.nodup_singleton _
  · exact h.nodup.filter _

end Supply

namespace Goal.Path

variable {rules : RuleSet} {g g' : Goal} {place : Position} {moves : List Move}

/-- What is fresh at the end of a path. -/
theorem fresh_eq (h : Path rules g place moves g') :
    g'.supply.fresh g'.sequent = g.supply.remaining (taken moves) g'.sequent := by
  rw [h.supply_eq]
  refine List.filter_congr ?_
  intro n _
  simp

/-- The candidates at the end of a path are what the supply still offers. -/
theorem candidates_eq (h : Path rules g place moves g') :
    g'.supply.candidates g'.sequent = g.supply.offered (taken moves) g'.sequent := by
  rw [Supply.candidates_eq, h.fresh_eq]
  rfl

/-- A quantifier at the end of a path has one alternative for each name offered,
    in order. -/
theorem of_quantified (h : Path rules g place moves g') {m : Principal} {k : Quantifier}
    {x : String} {body : Formula} (hm : g'.sequent.principal? = some m)
    (hformula : m.formula = .quantified k x body) :
    Decomposition.of rules g'.supply g'.sequent = .ok (.step g'.sequent.tag
      ((g.supply.offered (taken moves) g'.sequent).map fun w =>
        ⟨[m.context.mix (.onSide m.side [body.subst x w])], some w⟩)) := by
  rw [Decomposition.of_quantified hm hformula, h.candidates_eq]

/-- A quantifier on a path takes one of the names offered to it. -/
theorem exists_witness {above below : List Move} {move : Move}
    (h : Path rules g place (above ++ move :: below) g') {m : Principal} {k : Quantifier}
    {x : String} {body : Formula} (hm : move.goal.sequent.principal? = some m)
    (hformula : m.formula = .quantified k x body) :
    ∃ w ∈ g.supply.offered (taken above) move.goal.sequent, move.witness = some w := by
  obtain ⟨⟨place', hpath⟩, d, hd, halt⟩ := h.upTo
  rw [hpath.of_quantified hm hformula] at hd
  cases hd
  obtain ⟨w, hw, heq⟩ := List.mem_map.mp halt
  exact ⟨w, hw, (congrArg Alternative.witness heq).symm⟩

end Goal.Path

/-- What is offered is a remaining name, or the placeholder if none remains. -/
theorem Supply.mem_offered {supply : Supply} {taken : List String} {s : Sequent} {w : String} :
    w ∈ supply.offered taken s ↔
      w ∈ supply.remaining taken s ∨ w = placeholder ∧ supply.remaining taken s = [] := by
  unfold Supply.offered
  by_cases hnil : supply.remaining taken s = []
  · simp [hnil]
  · simp [hnil]

/-- **Which names are taken on the way down.**  A path leads to every node of a
    grown tree.  On each path every quantifier takes a supplied name that is not
    free in its sequent, was not used at the start and has not been taken above,
    or the placeholder if there is no such name.  A quantifier at the end of a path
    has a branch for each of these names, in the order in which they were supplied
    and, in a supply that can be made, each once.  The free names at the end are
    those of the root and those taken. -/
theorem ProofTree.witnesses_of_grow {rules : RuleSet} {supply : Supply} {s : Sequent}
    {t : ProofTree} (hgrow : (ofSequent s).grow rules supply = .ok t) :
    (∀ place u, t.at? place = some u →
      ∃ moves g, Goal.Path rules ⟨supply, s⟩ place moves g ∧ g.sequent = u.root) ∧
    ∀ place moves g, Goal.Path rules ⟨supply, s⟩ place moves g →
      (∀ above move below m k x body, moves = above ++ move :: below →
        move.goal.sequent.principal? = some m → m.formula = .quantified k x body →
        ∃ w, move.witness = some w ∧
          (w ∈ supply.remaining (taken above) move.goal.sequent ∨
            w = placeholder ∧ supply.remaining (taken above) move.goal.sequent = [])) ∧
      (∀ m k x body, g.sequent.principal? = some m → m.formula = .quantified k x body →
        ∃ u alts, t.at? place = some u ∧
          Decomposition.of rules g.supply g.sequent = .ok (.step g.sequent.tag alts) ∧
          u.branches.map (fun b => b.children.map root) = alts.map Alternative.premises ∧
          alts.map Alternative.witness = (supply.offered (taken moves) g.sequent).map some ∧
          (supply.Made → (supply.offered (taken moves) g.sequent).Nodup)) ∧
      ∀ n ∈ g.sequent.names, n ∈ s.names ∨ n ∈ taken moves := by
  rw [grow_ofSequent] at hgrow
  refine ⟨?_, ?_⟩
  · intro place u hu
    obtain ⟨moves, supply', hpath, -⟩ := Sequent.path_of_at? hgrow hu
    exact ⟨moves, _, hpath, rfl⟩
  · intro place moves g hpath
    refine ⟨?_, ?_, fun n hn => hpath.names hn⟩
    · rintro above move below m k x body rfl hm hformula
      obtain ⟨w, hw, hwitness⟩ := hpath.exists_witness hm hformula
      exact ⟨w, hwitness, Supply.mem_offered.mp hw⟩
    · intro m k x body hm hformula
      -- the node at the end was grown from the sequent and supply there
      obtain ⟨u, hu, hgu⟩ := Sequent.at?_of_path hgrow hpath
      have hd := hpath.of_quantified hm hformula
      refine ⟨u, _, hu, hd, Sequent.roots_of_grow hgu hd, ?_, fun h => h.nodup_offered _ _⟩
      rw [List.map_map]
      rfl

/-- The sequent `P<a>, ∃y R<w, y>; ` for a given name `w`. -/
def Sequent.existsRelated (w : String) : Sequent :=
  ⟨[.atom ⟨"P", ["a"]⟩, .quantified .existential "y" (.atom ⟨"R", [w, "y"]⟩)], []⟩

/-- The sequent `P<a>, ∀x ∃y R<x, y>; `. -/
def Sequent.allRelated : Sequent :=
  ⟨[.atom ⟨"P", ["a"]⟩, .quantified .universal "x"
    (.quantified .existential "y" (.atom ⟨"R", ["x", "y"]⟩))], []⟩

/-- Of the names `a` and `b` the outer quantifier can only take `b`, and then
    nothing but the placeholder is left for the inner one. -/
theorem ProofTree.witnesses_allRelated :
    Supply.ofNames ["a", "b", "a"] = .ok ⟨["a", "b"], []⟩ ∧
    ∃ t, (ofSequent Sequent.allRelated).grow (RuleSet.uniform .additive) ⟨["a", "b"], []⟩ = .ok t ∧
      ∃ moves, Goal.Path (RuleSet.uniform .additive) ⟨⟨["a", "b"], []⟩, Sequent.allRelated⟩
          [(0, 0)] moves ⟨⟨["a", "b"], ["b"]⟩, Sequent.existsRelated "b"⟩ ∧
        taken moves = ["b"] ∧
        (∃ (u : ProofTree) (alts : List Alternative), t.at? [(0, 0)] = some u ∧
          u.branches.map (fun b => b.children.map root) = alts.map Alternative.premises ∧
          alts.map Alternative.witness = [some "NONE"]) ∧
        ∀ n ∈ (Sequent.existsRelated "b").names, n ∈ Sequent.allRelated.names ∨ n ∈ ["b"] := by
  have hgrow : ∃ t, (ofSequent Sequent.allRelated).grow (RuleSet.uniform .additive)
      ⟨["a", "b"], []⟩ = .ok t := exists_eq_ok (by decide_cbv)
  obtain ⟨t, hgrow⟩ := hgrow
  have hpath : Goal.Path (RuleSet.uniform .additive) ⟨⟨["a", "b"], []⟩, Sequent.allRelated⟩
      [(0, 0)] [⟨⟨⟨["a", "b"], []⟩, Sequent.allRelated⟩,
        ⟨[Sequent.existsRelated "b"], some "b"⟩⟩]
      ⟨⟨["a", "b"], ["b"]⟩, Sequent.existsRelated "b"⟩ :=
    .down (d := .step (.rule .antecedent (.quantifier .universal))
      [⟨[Sequent.existsRelated "b"], some "b"⟩]) (by decide_cbv) rfl rfl (.here _)
  obtain ⟨-, hpaths⟩ := witnesses_of_grow hgrow
  obtain ⟨-, hquantifier, hnames⟩ := hpaths _ _ _ hpath
  obtain ⟨u, alts, hu, -, hroots, hwitnesses, -⟩ := hquantifier _ _ _ _ rfl rfl
  exact ⟨by decide, t, hgrow, _, hpath, rfl, ⟨u, alts, hu, hroots, hwitnesses⟩, hnames⟩

/-- **With enough names the placeholder is not needed.**  If at least as many
    different supplied names as the sequent has quantifiers are neither free in it
    nor used, every quantifier that growth comes to has a name left to take, and all
    its alternatives take such names. -/
theorem Goal.Path.remaining_of_card {rules : RuleSet} {supply : Supply} {s : Sequent}
    (henough : s.quantifiers ≤
      (supply.names.toFinset \ (s.names.toFinset ∪ supply.used.toFinset)).card)
    {place : Position} {moves : List Move} {g : Goal}
    (hpath : Goal.Path rules ⟨supply, s⟩ place moves g) {m : Principal} {k : Quantifier}
    {x : String} {body : Formula} (hm : g.sequent.principal? = some m)
    (hformula : m.formula = .quantified k x body) :
    supply.remaining (taken moves) g.sequent ≠ [] ∧
      ∃ alts, Decomposition.of rules g.supply g.sequent = .ok (.step g.sequent.tag alts) ∧
        alts.map Alternative.witness = (supply.remaining (taken moves) g.sequent).map some := by
  have hcovers : supply.Covers s := by
    have hset : supply.names.toFinset \ (s.names.toFinset ∪ supply.used.toFinset) =
        (supply.fresh s).toFinset := by
      ext n
      simp [Supply.mem_fresh]
    rw [hset] at henough
    exact henough
  have hne := (Supply.Covers.reaches hcovers hpath.reaches).fresh_ne_nil hm hformula
  rw [hpath.fresh_eq] at hne
  refine ⟨hne, _, hpath.of_quantified hm hformula, ?_⟩
  rw [List.map_map, Supply.offered, if_neg hne]
  rfl

/-- Of four names one is free in the sequent and one is used, which leaves two for
    its two quantifiers. -/
theorem Goal.Path.remaining_allRelated :
    (∀ place moves g, Goal.Path (RuleSet.uniform .additive)
        ⟨⟨["a", "b", "c", "d"], ["b"]⟩, Sequent.allRelated⟩ place moves g →
      ∀ m k x body, g.sequent.principal? = some m → m.formula = .quantified k x body →
        Supply.remaining ⟨["a", "b", "c", "d"], ["b"]⟩ (taken moves) g.sequent ≠ []) ∧
    ∃ alts, Decomposition.of (RuleSet.uniform .additive) ⟨["a", "b", "c", "d"], ["b"]⟩
        Sequent.allRelated = .ok (.step Sequent.allRelated.tag alts) ∧
      alts.map Alternative.witness = [some "c", some "d"] := by
  have henough : Sequent.allRelated.quantifiers ≤ (["a", "b", "c", "d"].toFinset \
      (Sequent.allRelated.names.toFinset ∪ ["b"].toFinset)).card := by decide
  refine ⟨?_, (remaining_of_card henough (.here _) rfl rfl).2⟩
  intro place moves g hpath m k x body hm hformula
  exact (remaining_of_card henough hpath hm hformula).1

end SequentCalculus
