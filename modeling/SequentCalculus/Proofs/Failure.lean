import SequentCalculus.Proofs.Shape

/-! # When growth fails, and what it leaves

    One thing only can go wrong in a decomposition: a rule that divides the
    context between two premises may find too many members in it
    (`Decomposition.of_eq_error_iff`).  The principal formula is always there to be
    removed, and its connective always has a rule.

    Growth as a whole fails exactly if it reaches such a goal, however deep
    (`Sequent.exists_grow_eq_error_iff`).  No step raises the number of members and
    connectives together, so a root with few enough of them never leads there.
    Where growth works in place, the tree that it fails on is left as it was
    (`ProofTree.run_growInPlace`). -/

namespace SequentCalculus

/-! ## One decomposition -/

namespace Sequent

theorem length_eq_length_sidedMembers (s : Sequent) : s.length = s.sidedMembers.length := by
  simp [length, sidedMembers]

/-- The context lacks one member, the principal formula. -/
theorem length_principal {s : Sequent} {m : Principal} (h : s.principal? = some m) :
    s.length = m.context.length + 1 := by
  rw [length_eq_length_sidedMembers, (sidedMembers_principal h).length_eq, List.length_cons,
    ← length_eq_length_sidedMembers]

/-- The principal formula stands where it is said to stand, and removing it leaves
    its context. -/
theorem remove?_principal {s : Sequent} {m : Principal} (h : s.principal? = some m) :
    s.remove? m.side m.index = some m.context := by
  obtain ⟨xs, ys⟩ := s
  unfold principal? at h
  split at h
  · rename_i o ho
    cases h
    obtain ⟨hxs, -⟩ := eq_of_splitAtComplex ho
    simp only at hxs
    subst hxs
    simp [remove?, side, List.eraseIdx_append_of_length_le]
  · split at h
    · rename_i o ho
      cases h
      obtain ⟨hys, -⟩ := eq_of_splitAtComplex ho
      simp only at hys
      subst hys
      simp [remove?, side, List.eraseIdx_append_of_length_le]
    · cases h

/-- There are no divisions exactly if there are too many members. -/
theorem partitions?_eq_none_iff {s : Sequent} :
    s.partitions? = none ↔ maxPartitioned < s.length := by
  rw [partitions?_eq]
  split
  · simp
    omega
  · simp
    omega

end Sequent

/-- Every connective but the quantifiers has a discipline on either side. -/
theorem RuleSet.exists_discipline (rules : RuleSet) {c : Connective} (h : c.isQuantifier = false)
    (side : Side) : ∃ d, rules.discipline c side = .ok d := by
  cases c with
  | negation => exact ⟨_, rfl⟩
  | binary op => exact ⟨_, rfl⟩
  | quantifier k => cases h

namespace Inference

/-- The connectives, each with the side, whose multiplicative rule divides the
    context between two premises. -/
def dividing : List (Operator × Side) :=
  [(.conjunction, .consequent), (.disjunction, .antecedent), (.conditional, .antecedent)]

/-- The connectives and sides that divide the context do so under the multiplicative
    discipline. -/
theorem ofBinary_eq_divide_iff {op : Operator} {d : Discipline} {side : Side} {p q : Formula} :
    (∃ left right, ofBinary op d side p q = .divide left right) ↔
      (op, side) ∈ dividing ∧ d = .multiplicative := by
  cases op <;> cases side <;> cases d <;> simp [ofBinary, dividing]

/-- A compound formula has a rule. -/
theorem exists_of_isComplex {p : Formula} (h : p.isComplex = true) (rules : RuleSet) (side : Side) :
    ∃ i, of rules side p = .ok i := by
  cases p with
  | atom a => cases h
  | negation p => exact ⟨_, rfl⟩
  | binary op p q => exact ⟨_, rfl⟩
  | quantified k x p => exact ⟨_, rfl⟩

theorem of_eq_divide_iff {rules : RuleSet} {side : Side} {p : Formula} {i : Inference}
    (h : of rules side p = .ok i) :
    (∃ left right, i = .divide left right) ↔
      ∃ op q r, p = .binary op q r ∧ (op, side) ∈ dividing ∧
        (rules.operator op).get side = .multiplicative := by
  cases p with
  | atom a => cases h
  | negation p =>
      cases h
      simp
  | binary op q r =>
      cases h
      rw [ofBinary_eq_divide_iff]
      simp
  | quantified k x p =>
      cases h
      simp

/-- Only the division of a context that is too large fails. -/
theorem alternatives_eq_error_iff {supply : Supply} {s context : Sequent} {i : Inference}
    {e : Error} :
    i.alternatives supply s context = .error e ↔
      (∃ left right, i = .divide left right) ∧ Sequent.maxPartitioned < context.length ∧
        e = .contextTooLarge context.length := by
  cases i with
  | divide left right =>
      rw [← Sequent.partitions?_eq_none_iff, alternatives]
      cases context.partitions? with
      | none => simp [eq_comm]
      | some parts => simp
  | _ => simp [alternatives]

end Inference

/-- The goal has more than 64 members, and its principal formula has a rule that
    divides the context. -/
def Goal.Crowded (rules : RuleSet) (g : Goal) : Prop :=
  64 < g.sequent.length ∧ ∃ m op p q, g.sequent.principal? = some m ∧
    m.formula = .binary op p q ∧ (op, m.side) ∈ Inference.dividing ∧
    (rules.operator op).get m.side = .multiplicative

/-- A decomposition fails exactly if the goal is crowded, and for this reason
    only. -/
theorem Decomposition.of_eq_error_iff {rules : RuleSet} {g : Goal} {e : Error} :
    of rules g.supply g.sequent = .error e ↔
      g.Crowded rules ∧ e = .contextTooLarge (g.sequent.length - 1) := by
  obtain ⟨supply, s⟩ := g
  unfold of
  cases hm : s.principal? with
  | none => simp [Goal.Crowded, hm]
  | some m =>
      obtain ⟨i, hi⟩ := Inference.exists_of_isComplex (Sequent.isComplex_principal hm) rules m.side
      -- the context has one member less than the sequent, hence 64 here and 63 there
      have hlength := Sequent.length_principal hm
      have hrule : i.alternatives supply s m.context = .error e ↔
          Goal.Crowded rules ⟨supply, s⟩ ∧ e = .contextTooLarge (s.length - 1) := by
        rw [Inference.alternatives_eq_error_iff, Inference.of_eq_divide_iff hi, hlength,
          Nat.add_sub_cancel]
        constructor
        · rintro ⟨⟨op, p, q, hp, hdividing, hdiscipline⟩, hlarge, rfl⟩
          refine ⟨⟨?_, m, op, p, q, hm, hp, hdividing, hdiscipline⟩, rfl⟩
          rw [hlength]
          exact Nat.succ_lt_succ hlarge
        · rintro ⟨⟨hlarge, m', op, p, q, hm', hp, hdividing, hdiscipline⟩, rfl⟩
          rw [hm] at hm'
          cases hm'
          rw [hlength] at hlarge
          exact ⟨⟨op, p, q, hp, hdividing, hdiscipline⟩, Nat.lt_of_succ_lt_succ hlarge, rfl⟩
      rw [← hrule]
      simp only [hi]
      cases i.alternatives supply s m.context <;> simp

/-! ## Growth -/

/-- An error on a list comes from one of its elements. -/
theorem exists_mem_of_mapM_eq_error {α β ε : Type} {f : α → Except ε β} {xs : List α} {e : ε}
    (h : xs.mapM f = .error e) : ∃ x ∈ xs, f x = .error e := by
  induction xs with
  | nil => cases h
  | cons x xs ih =>
      rw [List.mapM_cons] at h
      cases hx : f x with
      | error e' =>
          rw [hx] at h
          cases h
          exact ⟨x, List.mem_cons_self, hx⟩
      | ok y =>
          rw [hx] at h
          cases hxs : xs.mapM f with
          | error e' =>
              rw [hxs] at h
              cases h
              obtain ⟨x', hx', he⟩ := ih hxs
              exact ⟨x', List.mem_cons_of_mem x hx', he⟩
          | ok ys =>
              rw [hxs] at h
              cases h

theorem bind_pure_eq_error {α β ε : Type} {x : Except ε α} {f : α → β} {e : ε}
    (h : (do let a ← x; return f a : Except ε β) = .error e) : x = .error e := by
  cases x with
  | error e' =>
      cases h
      rfl
  | ok a => cases h

namespace Sequent

variable {rules : RuleSet} {supply : Supply} {s : Sequent}

/-- The error of a failed growth is that of a decomposition which was reached. -/
theorem exists_reaches_of_grow_eq_error {e : Error} (h : s.grow rules supply = .error e) :
    ∃ g, Goal.Reaches rules ⟨supply, s⟩ g ∧
      Decomposition.of rules g.supply g.sequent = .error e := by
  induction hn : s.connectives using Nat.strongRecOn generalizing s supply with
  | ind n ih =>
      cases hd : Decomposition.of rules supply s with
      | error e' =>
          rw [grow_of_error hd] at h
          cases h
          exact ⟨⟨supply, s⟩, .refl, hd⟩
      | ok d =>
          cases d with
          | initial =>
              rw [grow_of_initial hd] at h
              cases h
          | step tag alts =>
              rw [grow_of_step hd] at h
              obtain ⟨alt, halt, h⟩ := exists_mem_of_mapM_eq_error (bind_pure_eq_error h)
              obtain ⟨p, hp, h⟩ := exists_mem_of_mapM_eq_error (bind_pure_eq_error h)
              have hlt : p.connectives < n := hn ▸ Decomposition.connectives_lt hd halt hp
              obtain ⟨g, hreach, hg⟩ := ih _ hlt h rfl
              exact ⟨g, .head ⟨hd, halt, hp⟩ hreach, hg⟩

/-- Growth fails exactly if it reaches a crowded goal. -/
theorem exists_grow_eq_error_iff :
    (∃ e, s.grow rules supply = .error e) ↔
      ∃ g, Goal.Reaches rules ⟨supply, s⟩ g ∧ g.Crowded rules := by
  constructor
  · rintro ⟨e, h⟩
    obtain ⟨g, hreach, hg⟩ := exists_reaches_of_grow_eq_error h
    exact ⟨g, hreach, (Decomposition.of_eq_error_iff.mp hg).1⟩
  · rintro ⟨g, hreach, hcrowded⟩
    cases h : s.grow rules supply with
    | error e => exact ⟨e, rfl⟩
    | ok t =>
        -- every goal that is reached has been grown, the crowded one too
        obtain ⟨u, -, -, hgrow⟩ := hasNode_of_reaches h hreach
        rw [grow_of_error (Decomposition.of_eq_error_iff.mpr ⟨hcrowded, rfl⟩)] at hgrow
        cases hgrow

/-- Members and connectives together are a weight of the sequent. -/
theorem length_add_connectives (s : Sequent) :
    s.length + s.connectives = s.weigh fun p => 1 + p.connectives := by
  rw [weigh, connectives, total_eq_sum, List.sum_map_add]
  simp [length, members]

end Sequent

/-- No step raises the number of members and connectives together: a rule with two
    operands in one premise adds a member, but removes a connective. -/
theorem Goal.Reaches.length_add_connectives_le {rules : RuleSet} {g g' : Goal}
    (h : g.Reaches rules g') :
    g'.sequent.length + g'.sequent.connectives ≤ g.sequent.length + g.sequent.connectives := by
  refine h.preserves (fun g' => g'.sequent.length + g'.sequent.connectives ≤
    g.sequent.length + g.sequent.connectives) ?_ (Nat.le_refl _)
  rintro _ _ ⟨hd, halt, hp⟩ hle
  refine Nat.le_trans ?_ hle
  -- the sum is a weight of the members, and no formula weighs less than its operands
  simp only [Sequent.length_add_connectives]
  refine Nat.le_trans (Nat.le_add_right _ _)
    (Decomposition.weigh_premise_le (c := 1) ?_ ?_ hd halt hp)
  · intro p
    cases p <;> simp only [Formula.operands, Formula.connectives, List.map_cons, List.map_nil,
      List.sum_cons, List.sum_nil] <;> omega
  · intro k x body w
    rw [Formula.connectives_subst, Formula.connectives]
    omega

/-- A sequent that is too large has more than 65 members and connectives together,
    since one of its members is compound. -/
theorem Goal.Crowded.lt_length_add_connectives {rules : RuleSet} {g : Goal} (h : g.Crowded rules) :
    65 < g.sequent.length + g.sequent.connectives := by
  obtain ⟨hlarge, m, op, p, q, hm, hp, -, -⟩ := h
  have hconnectives := Sequent.connectives_principal hm
  rw [hp, Formula.connectives] at hconnectives
  omega

/-! ## Growth in place -/

section InPlace

variable {α β ε σ : Type}

/-- A computation that may fail, as a procedure that leaves its state alone. -/
def unchanging : Except ε α → EStateM ε σ α
  | .ok a => pure a
  | .error e => throw e

/-- What leaves the state alone can be run one after the other. -/
theorem unchanging_bind (x : Except ε α) (f : α → Except ε β) :
    (unchanging (x >>= f) : EStateM ε σ β) = unchanging x >>= fun a => unchanging (f a) := by
  cases x <;> rfl

theorem mapM_unchanging (f : α → Except ε β) (xs : List α) :
    (xs.mapM fun x => (unchanging (f x) : EStateM ε σ β)) = unchanging (xs.mapM f) := by
  induction xs with
  | nil => rfl
  | cons x xs ih =>
      rw [List.mapM_cons, List.mapM_cons, ih, unchanging_bind]
      congr 1
      funext y
      rw [unchanging_bind]
      rfl

/-- A procedure for each member that leaves the state alone can be run for all of
    them with the state left alone. -/
theorem mapM_attach_unchanging {xs : List α} {f : { x // x ∈ xs } → EStateM ε σ β}
    {g : α → Except ε β} (h : ∀ x, f x = unchanging (g x.val)) :
    xs.attach.mapM f = unchanging (xs.mapM g) := by
  rw [funext h, mapM_unchanging (fun x : { x // x ∈ xs } => g x.val), mapM_attach]

end InPlace

namespace ProofTree

/-- What a procedure leaves of a tree: the new one if it succeeded, and else the
    tree as it was. -/
def outcome (t : ProofTree) : Except Error ProofTree → EStateM.Result Error ProofTree Unit
  | .ok u => .ok () u
  | .error e => .error e t

/-- A tree that has been grown has its branches and is marked. -/
theorem eq_setBranches_of_grow {rules : RuleSet} {supply : Supply} {s : Sequent} {t u : ProofTree}
    (h : s.grow rules supply = .ok u) (ht : t.root = s) :
    markGrown (setBranches u.branches t) = u := by
  obtain ⟨root, branches, grown⟩ := t
  subst ht
  rcases Sequent.grow_eq_ok_iff.mp h with ⟨-, rfl⟩ | ⟨_, _, _, -, -, rfl⟩ <;> rfl

/-- Puts a tree in place whose branches have been computed before. -/
def install (x : Except Error ProofTree) : EStateM Error ProofTree Unit := do
  let u ← unchanging x
  modify (setBranches u.branches)
  modify markGrown

/-- A premise on which growth has worked is the grown tree. -/
theorem workOn_install (rules : RuleSet) (supply : Supply) (s : Sequent) :
    (ofSequent s).workOn (install (s.grow rules supply)) = unchanging (s.grow rules supply) := by
  cases h : s.grow rules supply with
  | error e => rfl
  | ok u =>
      show pure (markGrown (setBranches u.branches (ofSequent s))) = pure u
      rw [eq_setBranches_of_grow h rfl]

/-- Growth in place computes the branches first and then puts them in place. -/
theorem growFrom_eq (rules : RuleSet) (supply : Supply) (s : Sequent) :
    growFrom rules supply s = install (s.grow rules supply) := by
  induction hn : s.connectives using Nat.strongRecOn generalizing s supply with
  | ind n ih =>
      rw [growFrom]
      split
      · rename_i e hd
        rw [Sequent.grow_of_error hd]
        rfl
      · rename_i hd
        rw [Sequent.grow_of_initial hd]
        rfl
      · rename_i tag alts hd
        -- a premise has fewer connectives, and work on its tree leaves the tree above alone
        have hchild : ∀ alt ∈ alts, ∀ p ∈ alt.premises,
            (ofSequent p).workOn (growFrom rules (supply.below alt) p) =
              unchanging (p.grow rules (supply.below alt)) := by
          intro alt halt p hp
          have hlt : p.connectives < n := hn ▸ Decomposition.connectives_lt hd halt hp
          rw [ih _ hlt _ _ rfl, workOn_install]
        have hbranch : ∀ alt : { alt // alt ∈ alts }, (do
              let children ← alt.val.premises.attach.mapM fun p =>
                (ofSequent p.val).workOn (growFrom rules (supply.below alt.val) p.val)
              return Branch.premises children : EStateM Error ProofTree (Branch ProofTree)) =
            unchanging (do
              let children ← alt.val.premises.mapM fun p => p.grow rules (supply.below alt.val)
              return .premises children) := by
          intro alt
          rw [mapM_attach_unchanging fun p => hchild alt.val alt.property p.val p.property,
            unchanging_bind]
          rfl
        rw [Sequent.grow_of_step hd, install, unchanging_bind, ← mapM_attach_unchanging hbranch,
          bind_assoc]
        rfl

/-- Growth in place looks at the mark first. -/
theorem run_growInPlace_eq (rules : RuleSet) (supply : Supply) (t : ProofTree) :
    (growInPlace rules supply).run t =
      if t.isGrown then .error (.alreadyGrown t.root) t
      else (growFrom rules supply t.root).run t := by
  obtain ⟨root, branches, grown⟩ := t
  cases grown <;> rfl

/-- Growth in place does what growth does, and where this fails it changes
    nothing. -/
theorem run_growInPlace (rules : RuleSet) (supply : Supply) (t : ProofTree) :
    (growInPlace rules supply).run t = t.outcome (t.grow rules supply) := by
  rw [run_growInPlace_eq, ProofTree.grow]
  cases t.isGrown with
  | true => rfl
  | false =>
      rw [if_neg Bool.false_ne_true, if_neg Bool.false_ne_true, growFrom_eq]
      cases h : t.root.grow rules supply with
      | error e => rfl
      | ok u =>
          show EStateM.Result.ok () (markGrown (setBranches u.branches t)) = .ok () u
          rw [eq_setBranches_of_grow h rfl]

/-- An error leaves the tree as it is. -/
theorem outcome_eq_error_iff {t u : ProofTree} {x : Except Error ProofTree} {e : Error} :
    t.outcome x = .error e u ↔ x = .error e ∧ u = t := by
  cases x with
  | error e' => simp [outcome, eq_comm]
  | ok v => simp [outcome]

/-- **When growth fails, and what it leaves.**  Growth in place refuses exactly the
    trees that are grown already.  It fails on any other tree exactly if it reaches
    a sequent with more than 64 members that would have to be divided, it reports
    the size of that context, and it never fails if the root has at most 65 members
    and connectives together.  A tree on which it fails stays as it was.  Nothing
    else that a decomposition looks up is ever missing: neither the principal
    formula in its sequent nor the discipline of its connective.  Memory is taken to
    be unbounded, however many ways there are to divide a context. -/
theorem growInPlace_failure (rules : RuleSet) (supply : Supply) (t : ProofTree) :
    (∀ s u, (growInPlace rules supply).run t = .error (.alreadyGrown s) u ↔
      t.isGrown = true ∧ s = t.root ∧ u = t) ∧
    (t.isGrown = false →
      ((∃ e u, (growInPlace rules supply).run t = .error e u) ↔
        ∃ g, Goal.Reaches rules ⟨supply, t.root⟩ g ∧ g.Crowded rules) ∧
      (∀ e u, (growInPlace rules supply).run t = .error e u →
        ∃ g, Goal.Reaches rules ⟨supply, t.root⟩ g ∧ g.Crowded rules ∧
          e = .contextTooLarge (g.sequent.length - 1)) ∧
      (t.root.length + t.root.connectives ≤ 65 →
        ∃ u, (growInPlace rules supply).run t = .ok () u)) ∧
    (∀ e u, (growInPlace rules supply).run t = .error e u → u = t) ∧
    ∀ (s : Sequent) (m : Principal), s.principal? = some m →
      s.remove? m.side m.index = some m.context ∧
      ∀ c, m.formula.connective? = some c → c.isQuantifier = false →
        ∃ d, rules.discipline c m.side = .ok d := by
  have herror : ∀ e u, (growInPlace rules supply).run t = .error e u ↔
      t.grow rules supply = .error e ∧ u = t := by
    intro e u
    rw [run_growInPlace]
    exact outcome_eq_error_iff
  -- whatever fails in growth, some sequent on the way could not be divided
  have hcause : ∀ e, t.root.grow rules supply = .error e →
      ∃ g, Goal.Reaches rules ⟨supply, t.root⟩ g ∧ g.Crowded rules ∧
        e = .contextTooLarge (g.sequent.length - 1) := by
    intro e h
    obtain ⟨g, hreach, hg⟩ := Sequent.exists_reaches_of_grow_eq_error h
    exact ⟨g, hreach, Decomposition.of_eq_error_iff.mp hg⟩
  refine ⟨?_, ?_, fun e u h => ((herror e u).mp h).2, ?_⟩
  · intro s u
    rw [herror, ProofTree.grow]
    cases t.isGrown with
    | true => simp [eq_comm]
    | false =>
        simp only [Bool.false_eq_true, if_false, false_and, iff_false, not_and]
        intro h
        obtain ⟨g, -, -, hne⟩ := hcause _ h
        cases hne
  · intro hgrown
    have hgrow : t.grow rules supply = t.root.grow rules supply := by
      rw [ProofTree.grow, hgrown]
      rfl
    simp only [herror, hgrow]
    refine ⟨?_, fun e u h => hcause e h.1, ?_⟩
    · rw [← Sequent.exists_grow_eq_error_iff]
      simp
    · intro hsmall
      rw [run_growInPlace, hgrow]
      cases h : t.root.grow rules supply with
      | ok u => exact ⟨u, rfl⟩
      | error e =>
          -- a sequent that is too large weighs more than the root, and weights only fall
          obtain ⟨g, hreach, hcrowded, -⟩ := hcause e h
          have hle := hreach.length_add_connectives_le
          have hlt := hcrowded.lt_length_add_connectives
          exact absurd (Nat.lt_of_lt_of_le hlt (Nat.le_trans hle hsmall)) (Nat.lt_irrefl _)
  · intro s m hm
    exact ⟨Sequent.remove?_principal hm, fun c _ hc => rules.exists_discipline hc m.side⟩

end ProofTree

/-- The sequent `A, …, A; A & B` with `n` members on the left. -/
def Sequent.crowd (n : Nat) : Sequent :=
  ⟨List.replicate n (.atom ⟨"A", []⟩),
    [.binary .conjunction (.atom ⟨"A", []⟩) (.atom ⟨"B", []⟩)]⟩

/-- With 5 members on the left the context is divided, in as many ways as there are
    sets of them; with 64 it cannot be, and the tree stays bare. -/
theorem ProofTree.growInPlace_crowd :
    (∃ u, (growInPlace (RuleSet.uniform .multiplicative) ⟨[], []⟩).run
      (ofSequent (Sequent.crowd 5)) = .ok () u) ∧
    ∃ n, (growInPlace (RuleSet.uniform .multiplicative) ⟨[], []⟩).run
      (ofSequent (Sequent.crowd 64)) =
        .error (.contextTooLarge n) (ofSequent (Sequent.crowd 64)) := by
  obtain ⟨-, hsmall, -, -⟩ := growInPlace_failure (RuleSet.uniform .multiplicative) ⟨[], []⟩
    (ofSequent (Sequent.crowd 5))
  obtain ⟨-, hlarge, hkept, -⟩ := growInPlace_failure (RuleSet.uniform .multiplicative) ⟨[], []⟩
    (ofSequent (Sequent.crowd 64))
  refine ⟨(hsmall rfl).2.2 (by decide), ?_⟩
  have hcrowded : Goal.Crowded (RuleSet.uniform .multiplicative) ⟨⟨[], []⟩, Sequent.crowd 64⟩ :=
    ⟨by decide, _, .conjunction, _, _, rfl, rfl, by decide, rfl⟩
  obtain ⟨e, u, h⟩ := (hlarge rfl).1.mpr ⟨_, .refl, hcrowded⟩
  obtain ⟨g, -, -, rfl⟩ := (hlarge rfl).2.1 e u h
  obtain rfl := hkept _ u h
  exact ⟨_, h⟩

end SequentCalculus
