import SequentCalculus.Proofs.Conservation
import SequentCalculus.Proofs.Paths

/-! # Growth does not see what bound variables are called

    Two sequents that differ in the names of bound variables only are decomposed
    side by side.  Their principal formulas stand at the same place, the same names
    are free in them and so the same witnesses are offered, and an instance with
    the same witness is again the same formula up to bound names
    (`Formula.AlphaEq.similar`).  So each step keeps the two together
    (`Decomposition.of_alphaEq`), and the whole growth does
    (`Sequent.grow_alphaEq`): it fails twice for one reason or gives two trees of
    one shape. -/

namespace SequentCalculus

/-! ## Formulas up to bound names -/

namespace Referent

/-- Puts a name for the variable with the number `i`, which is that of the outermost
    quantifier. -/
def instantiate (w : String) (i : Nat) : Referent → Referent
  | bound j => if j = i then free w else bound j
  | free n => free n

/-- Instantiation of an outer binder goes past an inner one. -/
theorem instantiate_under (w : String) (i : Nat) (r : Referent) :
    r.under.instantiate w (i + 1) = (r.instantiate w i).under := by
  cases r with
  | bound j =>
      by_cases hj : j = i
      · simp [under, instantiate, hj]
      · simp [under, instantiate, hj]
  | free n => rfl

/-- Below an outermost quantifier that binds `x`, a name put for its variable is put
    for the name `x` in its scope. -/
theorem instantiate_of (w x : String) (scope : List String) (t : String) :
    (of (scope ++ [x]) t).instantiate w scope.length = (of scope t).replace x w := by
  induction scope with
  | nil =>
      by_cases ht : t = x
      · simp [of, instantiate, replace, ht]
      · simp [of, instantiate, replace, under, ht]
  | cons y scope ih =>
      rw [List.cons_append, List.length_cons]
      by_cases hy : t = y
      · subst hy
        rw [of_cons_self, of_cons_self]
        rfl
      · rw [of_cons_of_ne hy, of_cons_of_ne hy, instantiate_under, ih]
        cases of scope t <;> rfl

end Referent

/-- Puts a name for the variable of the outermost quantifier, below `i` others. -/
def Nameless.instantiate (w : String) : Nameless → (i : Nat) → Nameless
  | atom predicate terms, i => atom predicate (terms.map (Referent.instantiate w i))
  | negation p, i => negation (p.instantiate w i)
  | binary op p q, i => binary op (p.instantiate w i) (q.instantiate w i)
  | quantified k p, i => quantified k (p.instantiate w (i + 1))

namespace Formula

/-- To instantiate the outermost binder of the nameless form is to replace the name it
    binds. -/
theorem instantiate_namelessIn (w x : String) (p : Formula) (scope : List String) :
    (p.namelessIn (scope ++ [x])).instantiate w scope.length =
      (p.namelessIn scope).replace x w := by
  induction p generalizing scope with
  | atom a =>
      simp only [namelessIn, Nameless.instantiate, Nameless.replace, List.map_map]
      congr 2
      funext t
      exact Referent.instantiate_of w x scope t
  | negation p ih => rw [namelessIn, namelessIn, Nameless.instantiate, Nameless.replace, ih]
  | binary op p q ihp ihq =>
      rw [namelessIn, namelessIn, Nameless.instantiate, Nameless.replace, ihp, ihq]
  | quantified k y p ih =>
      rw [namelessIn, namelessIn, Nameless.instantiate, Nameless.replace]
      exact congrArg _ (ih (y :: scope))

/-- The nameless form of an instance comes from that of the quantified formula. -/
theorem nameless_instance (x w : String) (p : Formula) :
    (p.subst x w).nameless = (p.namelessIn [x]).instantiate w 0 := by
  have hsubst : (p.subst x w).nameless = p.nameless.replace x w :=
    namelessIn_subst [] (by simp) (by simp)
  rw [hsubst]
  exact (instantiate_namelessIn w x p []).symm

/-- The same formula up to the names of bound variables. -/
def AlphaEq (p q : Formula) : Prop := p.nameless = q.nameless

instance (p q : Formula) : Decidable (p.AlphaEq q) :=
  inferInstanceAs (Decidable (p.nameless = q.nameless))

/-- Two formulas with the same main connective and operands or instances that are
    the same up to bound names. -/
inductive Similar : Formula → Formula → Prop
  | atom (a : Atom) : Similar (.atom a) (.atom a)
  | negation {p q : Formula} (h : p.AlphaEq q) : Similar (.negation p) (.negation q)
  | binary (op : Operator) {p q p' q' : Formula} (hp : p.AlphaEq p') (hq : q.AlphaEq q') :
      Similar (.binary op p q) (.binary op p' q')
  | quantified (k : Quantifier) {x y : String} {p q : Formula}
      (h : ∀ w, (p.subst x w).AlphaEq (q.subst y w)) :
      Similar (.quantified k x p) (.quantified k y q)

/-- Formulas that are the same up to bound names have the same form, with such
    operands. -/
theorem AlphaEq.similar {p r : Formula} (h : p.AlphaEq r) : p.Similar r := by
  cases p with
  | atom a =>
      cases r with
      | atom b =>
          obtain ⟨predicate, terms⟩ := a
          obtain ⟨predicate', terms'⟩ := b
          obtain ⟨hpredicate, hterms⟩ := Nameless.atom.inj h
          -- outside of all scopes every term stands for itself
          have hinj : Function.Injective (Referent.of []) := fun _ _ => Referent.free.inj
          cases hpredicate
          cases hinj.list_map hterms
          exact .atom _
      | _ => cases h
  | negation p =>
      cases r with
      | negation p' => exact .negation (Nameless.negation.inj h)
      | _ => cases h
  | binary op p q =>
      cases r with
      | binary op' p' q' =>
          obtain ⟨rfl, hp, hq⟩ := Nameless.binary.inj h
          exact .binary op hp hq
      | _ => cases h
  | quantified k x p =>
      cases r with
      | quantified k' y p' =>
          obtain ⟨rfl, hbody⟩ := Nameless.quantified.inj h
          -- the bodies themselves need not be alike, `x` is free in one and `y` in the other
          refine .quantified k fun w => ?_
          have hinstance : (p.namelessIn [x]).instantiate w 0 =
              (p'.namelessIn [y]).instantiate w 0 := by
            rw [hbody]
          rw [← nameless_instance, ← nameless_instance] at hinstance
          exact hinstance
      | _ => cases h

theorem AlphaEq.symm {p q : Formula} (h : p.AlphaEq q) : q.AlphaEq p := Eq.symm h

/-- They have the same free names. -/
theorem AlphaEq.names_eq {p q : Formula} (h : p.AlphaEq q) : p.names = q.names := by
  rw [← names_nameless, ← names_nameless, h]

theorem AlphaEq.connective?_eq {p q : Formula} (h : p.AlphaEq q) :
    p.connective? = q.connective? := by
  cases h.similar <;> rfl

theorem AlphaEq.isComplex_eq {p q : Formula} (h : p.AlphaEq q) : p.isComplex = q.isComplex := by
  cases h.similar <;> rfl

/-- Atoms bind nothing, so they are equal. -/
theorem AlphaEq.eq_of_isAtom {p q : Formula} (h : p.AlphaEq q) (hp : p.isAtom = true) : p = q := by
  cases h.similar with
  | atom a => rfl
  | _ => cases hp

end Formula

/-! ## Sequents -/

/-- The same sequent up to the names of bound variables, with the same order of
    members on both sides. -/
structure Sequent.AlphaEq (s t : Sequent) : Prop where
  antecedent : List.Forall₂ Formula.AlphaEq s.antecedent t.antecedent
  consequent : List.Forall₂ Formula.AlphaEq s.consequent t.consequent

/-- Sequents are the same up to bound names if both sides are. -/
theorem Sequent.alphaEq_mk_iff {xs ys xs' ys' : List Formula} :
    Sequent.AlphaEq ⟨xs, ys⟩ ⟨xs', ys'⟩ ↔
      List.Forall₂ Formula.AlphaEq xs xs' ∧ List.Forall₂ Formula.AlphaEq ys ys' :=
  ⟨fun h => ⟨h.antecedent, h.consequent⟩, fun h => ⟨h.1, h.2⟩⟩

/-- The same principal formula and context up to bound names, on the same side. -/
structure Principal.AlphaEq (m n : Principal) : Prop where
  side : m.side = n.side
  formula : m.formula.AlphaEq n.formula
  context : m.context.AlphaEq n.context

/-- The leftmost compound formula stands at the same place. -/
theorem splitAtComplex_alphaEq {ps qs : List Formula} (h : List.Forall₂ Formula.AlphaEq ps qs) :
    Option.Rel (fun o o' : Occurrence => List.Forall₂ Formula.AlphaEq o.before o'.before ∧
      o.formula.AlphaEq o'.formula ∧ List.Forall₂ Formula.AlphaEq o.after o'.after)
      (splitAtComplex ps) (splitAtComplex qs) := by
  induction h with
  | nil => exact .none
  | @cons p q ps qs hpq hs ih =>
      rw [splitAtComplex, splitAtComplex, ← hpq.isComplex_eq]
      split
      · exact .some ⟨.nil, hpq, hs⟩
      · generalize splitAtComplex ps = o at ih ⊢
        generalize splitAtComplex qs = o' at ih ⊢
        cases ih with
        | none => exact .none
        | some ho => exact .some ⟨.cons hpq ho.1, ho.2⟩

/-- Dealing two lists in the same way keeps their members together. -/
theorem forall₂_deal {α β : Type} {R : α → β → Prop} {as : List α} {bs : List β}
    (h : List.Forall₂ R as bs) (k : Nat) :
    List.Forall₂ R (deal k as).1 (deal k bs).1 ∧ List.Forall₂ R (deal k as).2 (deal k bs).2 := by
  induction h generalizing k with
  | nil => exact ⟨.nil, .nil⟩
  | cons hab _ ih =>
      obtain ⟨hleft, hright⟩ := ih (k / 2)
      unfold deal
      by_cases hk : k % 2 = 0
      · simp only [hk, if_true]
        exact ⟨.cons hab hleft, hright⟩
      · simp only [hk, if_false]
        exact ⟨hleft, .cons hab hright⟩

namespace Sequent.AlphaEq

variable {s t s' t' : Sequent}

theorem symm (h : s.AlphaEq t) : t.AlphaEq s :=
  ⟨h.antecedent.flip.imp fun _ _ => Formula.AlphaEq.symm,
    h.consequent.flip.imp fun _ _ => Formula.AlphaEq.symm⟩

theorem members (h : s.AlphaEq t) : List.Forall₂ Formula.AlphaEq s.members t.members :=
  List.rel_append h.antecedent h.consequent

theorem mix (h : s.AlphaEq t) (h' : s'.AlphaEq t') : (s.mix s').AlphaEq (t.mix t') :=
  ⟨List.rel_append h.antecedent h'.antecedent, List.rel_append h.consequent h'.consequent⟩

theorem onSide (side : Side) {ps qs : List Formula} (h : List.Forall₂ Formula.AlphaEq ps qs) :
    (Sequent.onSide side ps).AlphaEq (Sequent.onSide side qs) := by
  cases side with
  | antecedent => exact ⟨h, .nil⟩
  | consequent => exact ⟨.nil, h⟩

/-- Divisions by the same number are the same up to bound names. -/
theorem partition (h : s.AlphaEq t) (k : Nat) :
    (s.partition k).1.AlphaEq (t.partition k).1 ∧ (s.partition k).2.AlphaEq (t.partition k).2 := by
  obtain ⟨hant, hant'⟩ := forall₂_deal h.antecedent k
  obtain ⟨hcon, hcon'⟩ := forall₂_deal h.consequent (k >>> s.antecedent.length)
  rw [Sequent.partition, Sequent.partition, ← h.antecedent.length_eq]
  exact ⟨⟨hant, hcon⟩, ⟨hant', hcon'⟩⟩

theorem length_eq (h : s.AlphaEq t) : s.length = t.length := by
  rw [length, length, h.antecedent.length_eq, h.consequent.length_eq]

theorem names_eq (h : s.AlphaEq t) : s.names = t.names := by
  rw [names, names, List.flatMap_def, List.flatMap_def,
    map_eq_map_of_forall₂ (h.members.imp fun _ _ => Formula.AlphaEq.names_eq)]

/-- The principal formulas stand at the same place. -/
theorem principal? (h : s.AlphaEq t) :
    Option.Rel Principal.AlphaEq s.principal? t.principal? := by
  have hant := splitAtComplex_alphaEq h.antecedent
  have hcon := splitAtComplex_alphaEq h.consequent
  unfold Sequent.principal?
  generalize splitAtComplex s.antecedent = o at hant ⊢
  generalize splitAtComplex t.antecedent = o' at hant ⊢
  cases hant with
  | some ho => exact .some ⟨rfl, ho.2.1, ⟨List.rel_append ho.1 ho.2.2, h.consequent⟩⟩
  | none =>
      generalize splitAtComplex s.consequent = o at hcon ⊢
      generalize splitAtComplex t.consequent = o' at hcon ⊢
      cases hcon with
      | some ho => exact .some ⟨rfl, ho.2.1, ⟨h.antecedent, List.rel_append ho.1 ho.2.2⟩⟩
      | none => exact .none

/-- The rule is the same. -/
theorem tag_eq (h : s.AlphaEq t) : s.tag = t.tag := by
  have hprincipal := h.principal?
  unfold Sequent.tag
  generalize s.principal? = o at hprincipal ⊢
  generalize t.principal? = o' at hprincipal ⊢
  cases hprincipal with
  | none => rfl
  | some hm => simp only [hm.side, hm.formula.connective?_eq]

/-- Atomic sequents have no bound variables to differ in. -/
theorem eq_of_isAtomic (h : s.AlphaEq t) (hs : s.isAtomic = true) : s = t := by
  have hatoms : ∀ p ∈ s.members, p.isAtom = true := List.all_eq_true.mp hs
  have heq : ∀ {ps qs : List Formula}, List.Forall₂ Formula.AlphaEq ps qs →
      (∀ p ∈ ps, p.isAtom = true) → ps = qs := by
    intro ps qs hpq hps
    have hall : List.Forall₂ Eq ps qs :=
      forall₂_imp_of_mem hpq fun p hp q h => h.eq_of_isAtom (hps p hp)
    rwa [List.forall₂_eq_eq_eq] at hall
  obtain ⟨xs, ys⟩ := s
  obtain ⟨xs', ys'⟩ := t
  obtain rfl := heq h.antecedent fun p hp => hatoms p (List.mem_append_left _ hp)
  obtain rfl := heq h.consequent fun p hp => hatoms p (List.mem_append_right _ hp)
  rfl

/-- An atom stands on both sides of one sequent if it does so in the other. -/
theorem isIdentity_eq (h : s.AlphaEq t) : s.isIdentity = t.isIdentity := by
  have himp : ∀ {s t : Sequent}, s.AlphaEq t → s.isIdentity = true → t.isIdentity = true := by
    intro s t h hs
    simp only [isIdentity, List.any_eq_true, Bool.and_eq_true, List.contains_iff_mem] at hs ⊢
    obtain ⟨p, hp, hatom, hmem⟩ := hs
    obtain ⟨q, hq, hpq⟩ := forall₂_exists_right h.antecedent hp
    obtain ⟨r, hr, hpr⟩ := forall₂_exists_right h.consequent hmem
    obtain rfl := hpq.eq_of_isAtom hatom
    obtain rfl := hpr.eq_of_isAtom hatom
    exact ⟨p, hq, hatom, hr⟩
  rw [Bool.eq_iff_iff]
  exact ⟨himp h, himp h.symm⟩

end Sequent.AlphaEq

/-! ## Two computations side by side -/

/-- Two computations fail for the same reason, or succeed with related results. -/
inductive Agree {ε α β : Type} (R : α → β → Prop) : Except ε α → Except ε β → Prop
  | error (e : ε) : Agree R (.error e) (.error e)
  | ok {a : α} {b : β} (h : R a b) : Agree R (.ok a) (.ok b)

namespace Agree

variable {ε α β γ δ : Type} {R : α → β → Prop} {S : γ → δ → Prop}

theorem bind {x : Except ε α} {y : Except ε β} (h : Agree R x y) {f : α → Except ε γ}
    {g : β → Except ε δ} (hfg : ∀ a b, R a b → Agree S (f a) (g b)) :
    Agree S (x >>= f) (y >>= g) := by
  cases h with
  | error e => exact .error e
  | ok hab => exact hfg _ _ hab

/-- Where one side has a result, so has the other. -/
theorem exists_right {a : α} {y : Except ε β} (h : Agree R (.ok a) y) : ∃ b, y = .ok b ∧ R a b := by
  cases h with
  | ok hab => exact ⟨_, rfl, hab⟩

theorem mapM {f : α → Except ε γ} {g : β → Except ε δ} {xs : List α} {ys : List β}
    (h : List.Forall₂ (fun x y => Agree S (f x) (g y)) xs ys) :
    Agree (List.Forall₂ S) (xs.mapM f) (ys.mapM g) := by
  induction h with
  | nil => exact .ok .nil
  | cons hxy _ ih =>
      rw [List.mapM_cons, List.mapM_cons]
      refine hxy.bind fun a b hab => ih.bind fun as bs habs => ?_
      exact .ok (.cons hab habs)

end Agree

/-! ## One step -/

namespace Inference

/-- The same rule with premises or instances that are the same up to bound names. -/
inductive AlphaEq : Inference → Inference → Prop
  | extend {p q : Sequent} (h : p.AlphaEq q) : AlphaEq (.extend p) (.extend q)
  | share {p q p' q' : Sequent} (hp : p.AlphaEq p') (hq : q.AlphaEq q') :
      AlphaEq (.share p q) (.share p' q')
  | choose {p q p' q' : Sequent} (hp : p.AlphaEq p') (hq : q.AlphaEq q') :
      AlphaEq (.choose p q) (.choose p' q')
  | divide {p q p' q' : Sequent} (hp : p.AlphaEq p') (hq : q.AlphaEq q') :
      AlphaEq (.divide p q) (.divide p' q')
  | instantiate (side : Side) {x y : String} {p q : Formula}
      (h : ∀ w, (p.subst x w).AlphaEq (q.subst y w)) :
      AlphaEq (.instantiate side x p) (.instantiate side y q)

/-- A rule does the same to operands that are the same up to bound names. -/
theorem ofBinary_alphaEq (op : Operator) (d : Discipline) (side : Side) {p q p' q' : Formula}
    (hp : p.AlphaEq p') (hq : q.AlphaEq q') :
    (ofBinary op d side p q).AlphaEq (ofBinary op d side p' q') := by
  cases op <;> cases side <;> cases d <;> constructor <;>
    simp [Sequent.onSide, Sequent.alphaEq_mk_iff, hp, hq]

/-- Formulas that are the same up to bound names call for the same rule. -/
theorem of_alphaEq (rules : RuleSet) (side : Side) {p q : Formula} (hpq : p.AlphaEq q) :
    Agree AlphaEq (of rules side p) (of rules side q) := by
  cases hpq.similar with
  | atom a => exact .error _
  | negation h => exact .ok (.extend (.onSide _ (.cons h .nil)))
  | binary op hp hq => exact .ok (ofBinary_alphaEq op _ side hp hq)
  | quantified k h => exact .ok (.instantiate side h)

end Inference

/-- Premises that are the same up to bound names, with the same witness. -/
structure Alternative.AlphaEq (a b : Alternative) : Prop where
  witness : a.witness = b.witness
  premises : List.Forall₂ Sequent.AlphaEq a.premises b.premises

/-- The supply left to the premises is the same, since the witness is. -/
theorem Alternative.AlphaEq.below_eq {a b : Alternative} (h : a.AlphaEq b) (supply : Supply) :
    supply.below a = supply.below b := by
  rw [Supply.below_eq, Supply.below_eq, h.witness]

/-- The same candidates are free to be used. -/
theorem Sequent.AlphaEq.candidates_eq {s t : Sequent} (h : s.AlphaEq t) (supply : Supply) :
    supply.candidates s = supply.candidates t := by
  rw [Supply.candidates, Supply.candidates, Supply.fresh, Supply.fresh, h.names_eq]

theorem forall₂_map_same {α β γ : Type} {R : β → γ → Prop} {f : α → β} {g : α → γ}
    (h : ∀ a, R (f a) (g a)) (as : List α) : List.Forall₂ R (as.map f) (as.map g) := by
  rw [List.forall₂_map_left_iff, List.forall₂_map_right_iff]
  exact List.forall₂_same.mpr fun a _ => h a

/-- A rule has the same alternatives, up to bound names. -/
theorem Inference.alternatives_alphaEq {i j : Inference} (hij : i.AlphaEq j) (supply : Supply)
    {s t c d : Sequent} (hst : s.AlphaEq t) (hcd : c.AlphaEq d) :
    Agree (List.Forall₂ Alternative.AlphaEq) (i.alternatives supply s c)
      (j.alternatives supply t d) := by
  cases hij with
  | extend h => exact .ok (.cons ⟨rfl, .cons (hcd.mix h) .nil⟩ .nil)
  | share hp hq => exact .ok (.cons ⟨rfl, .cons (hcd.mix hp) (.cons (hcd.mix hq) .nil)⟩ .nil)
  | choose hp hq =>
      exact .ok (.cons ⟨rfl, .cons (hcd.mix hp) .nil⟩ (.cons ⟨rfl, .cons (hcd.mix hq) .nil⟩ .nil))
  | divide hp hq =>
      -- the partitions are numbered, and there are as many of one context as of the other
      rw [alternatives, alternatives, Sequent.partitions?_eq, Sequent.partitions?_eq, hcd.length_eq]
      by_cases hlength : d.length ≤ Sequent.maxPartitioned
      · simp only [if_pos hlength, List.map_map]
        refine .ok (forall₂_map_same (fun k => ?_) _)
        obtain ⟨hleft, hright⟩ := hcd.partition k
        exact ⟨rfl, .cons (hleft.mix hp) (.cons (hright.mix hq) .nil)⟩
      · simp only [if_neg hlength]
        exact .error _
  | instantiate side h =>
      rw [alternatives, alternatives, hst.candidates_eq]
      refine .ok (forall₂_map_same (fun w => ?_) _)
      exact ⟨rfl, .cons (hcd.mix (.onSide side (.cons (h w) .nil))) .nil⟩

/-- The same rule with alternatives that are the same up to bound names, or none. -/
inductive Decomposition.AlphaEq : Decomposition → Decomposition → Prop
  | initial : AlphaEq .initial .initial
  | step (tag : Tag) {alts alts' : List Alternative}
      (h : List.Forall₂ Alternative.AlphaEq alts alts') : AlphaEq (.step tag alts) (.step tag alts')

theorem Decomposition.AlphaEq.alternatives {d d' : Decomposition} (h : d.AlphaEq d') :
    List.Forall₂ Alternative.AlphaEq d.alternatives d'.alternatives := by
  cases h with
  | initial => exact .nil
  | step tag h => exact h

/-- Sequents that are the same up to bound names are decomposed in the same way. -/
theorem Decomposition.of_alphaEq (rules : RuleSet) (supply : Supply) {s t : Sequent}
    (h : s.AlphaEq t) : Agree AlphaEq (of rules supply s) (of rules supply t) := by
  have hprincipal := h.principal?
  unfold of
  generalize s.principal? = o at hprincipal ⊢
  generalize t.principal? = o' at hprincipal ⊢
  cases hprincipal with
  | none => exact .ok .initial
  | @some m n hmn =>
      have hrule := Inference.of_alphaEq rules m.side hmn.formula
      simp only [← hmn.side, h.tag_eq]
      generalize Inference.of rules m.side m.formula = x at hrule ⊢
      generalize Inference.of rules m.side n.formula = y at hrule ⊢
      cases hrule with
      | error e => exact .error e
      | @ok i j hij =>
          have halternatives := Inference.alternatives_alphaEq hij supply h hmn.context
          simp only
          generalize i.alternatives supply s m.context = x at halternatives ⊢
          generalize j.alternatives supply t n.context = y at halternatives ⊢
          cases halternatives with
          | error e => exact .error e
          | ok halts => exact .ok (.step t.tag halts)

/-! ## Trees -/

/-- The same kind of branch with related children. -/
inductive Branch.Related {α β : Type} (R : α → β → Prop) : Branch α → Branch β → Prop
  | initial : Related R .initial .initial
  | premises {ts : List α} {us : List β} (h : List.Forall₂ R ts us) :
      Related R (.premises ts) (.premises us)

/-- Two trees of the same shape with related sequents at their nodes. -/
inductive ProofTree.Related (R : Sequent → Sequent → Prop) : ProofTree → ProofTree → Prop
  | node {root root' : Sequent} {branches branches' : List (Branch ProofTree)} {grown : Bool}
      (hroot : R root root')
      (hbranches : List.Forall₂ (Branch.Related (ProofTree.Related R)) branches branches') :
      Related R (.node root branches grown) (.node root' branches' grown)

/-- Trees of one shape have the same value if each of their nodes gives the same. -/
theorem ProofTree.Related.fold_eq {α : Type} {f : Sequent → List (Branch α) → Bool → α}
    {R : Sequent → Sequent → Prop} {t t' : ProofTree} (h : t.Related R t')
    (hf : ∀ u, t.HasNode u → ∀ s, R u.root s →
      f u.root (u.branches.map (Branch.map (fold f))) u.isGrown =
        f s (u.branches.map (Branch.map (fold f))) u.isGrown) : t.fold f = t'.fold f := by
  induction t using ProofTree.induction generalizing t' with
  | node root branches grown ih =>
      cases h with
      | @node _ root' _ branches' _ hroot hbranches =>
          have hmap : branches.map (Branch.map (fold f)) = branches'.map (Branch.map (fold f)) := by
            refine map_eq_map_of_forall₂ (forall₂_imp_of_mem hbranches ?_)
            intro b hb b' hbb'
            cases hbb' with
            | initial => rfl
            | premises hts =>
                refine congrArg Branch.premises
                  (map_eq_map_of_forall₂ (forall₂_imp_of_mem hts ?_))
                intro c hc c' hcc'
                exact ih _ hb c hc hcc' fun u hu => hf u (.child hb hc hu)
          rw [fold_node, fold_node, ← hmap]
          exact hf _ (.root _) root' hroot

/-- The same sequent up to bound names, with the same rule for it. -/
def Sequent.Alike (s t : Sequent) : Prop := s.AlphaEq t ∧ s.tag = t.tag

/-- Growth keeps sequents together that are the same up to bound names. -/
theorem Sequent.grow_alphaEq (rules : RuleSet) (supply : Supply) {s t : Sequent}
    (h : s.AlphaEq t) :
    Agree (ProofTree.Related Sequent.Alike) (s.grow rules supply) (t.grow rules supply) := by
  -- the induction is on the one sequent, the other follows it step by step
  induction hn : s.connectives using Nat.strongRecOn generalizing s t supply with
  | ind n ih =>
      have hstep := Decomposition.of_alphaEq rules supply h
      generalize hd : Decomposition.of rules supply s = x at hstep
      generalize hd' : Decomposition.of rules supply t = y at hstep
      cases hstep with
      | error e =>
          rw [grow_of_error hd, grow_of_error hd']
          exact .error e
      | ok hsteps =>
          cases hsteps with
          | initial =>
              rw [grow_of_initial hd, grow_of_initial hd']
              exact .ok (.node ⟨h, h.tag_eq⟩ (.cons .initial .nil))
          | @step tag alts alts' halts =>
              rw [grow_of_step hd, grow_of_step hd']
              refine (Agree.mapM (forall₂_imp_of_mem halts ?_)).bind
                fun bs bs' hbs => .ok (.node ⟨h, h.tag_eq⟩ hbs)
              intro alt halt alt' haa'
              rw [haa'.below_eq]
              refine (Agree.mapM (forall₂_imp_of_mem haa'.premises ?_)).bind
                fun ts ts' hts => .ok (.premises hts)
              intro p hp p' hpp'
              have hlt : p.connectives < n := hn ▸ Decomposition.connectives_lt hd halt hp
              exact ih _ hlt _ hpp' rfl

/-! ## Paths -/

/-- What is taken by the moves on the path from a goal to a place, one after the
    other. -/
def Goal.Takes (rules : RuleSet) (g : Goal) (place : Position) (witnesses : List (Option String)) :
    Prop :=
  ∃ moves g', Goal.Path rules g place moves g' ∧ moves.map Move.witness = witnesses

/-- The same names are taken on the way to a place. -/
theorem Goal.Takes.of_alphaEq {rules : RuleSet} {supply : Supply} {s t : Sequent}
    (h : s.AlphaEq t) {place : Position} {witnesses : List (Option String)}
    (htakes : Goal.Takes rules ⟨supply, s⟩ place witnesses) :
    Goal.Takes rules ⟨supply, t⟩ place witnesses := by
  obtain ⟨moves, g', hpath, rfl⟩ := htakes
  generalize hstart : (⟨supply, s⟩ : Goal) = start at hpath
  induction hpath generalizing supply s t with
  | here g => exact ⟨[], _, .here _, rfl⟩
  | @down g g' d i j alt p place moves hd halt hp _ ih =>
      subst hstart
      have hstep := Decomposition.of_alphaEq rules supply h
      rw [hd] at hstep
      obtain ⟨d', hd', hdd'⟩ := hstep.exists_right
      -- the same numbers choose the same alternative and the same premise
      obtain ⟨alt', halt', haa'⟩ := forall₂_getElem? hdd'.alternatives halt
      obtain ⟨p', hp', hpp'⟩ := forall₂_getElem? haa'.premises hp
      obtain ⟨moves', g'', hpath', hmoves⟩ := ih hpp' rfl
      refine ⟨⟨_, alt'⟩ :: moves', g'', .down hd' halt' hp' ?_, ?_⟩
      · rw [← haa'.below_eq]
        exact hpath'
      · rw [List.map_cons, List.map_cons, hmoves, Move.witness, Move.witness, haa'.witness]

namespace ProofTree

variable {rules : RuleSet} {supply : Supply} {s : Sequent} {t t' : ProofTree}

/-- The leaves of a grown tree are atomic, so that no bound names are left in them. -/
theorem Related.leaves_eq (h : t.Related Sequent.Alike t') (hgrow : s.grow rules supply = .ok t) :
    t.leaves = t'.leaves := by
  refine h.fold_eq fun u hu r hr => ?_
  have hcomplete := Sequent.isComplete_of_hasNode hgrow hu
  cases hatomic : u.root.isAtomic with
  | true => rw [hr.1.eq_of_isAtomic hatomic]
  | false =>
      -- there are children, so the sequent itself does not count
      obtain ⟨hne, hpremises⟩ := hcomplete.compound hatomic
      obtain ⟨b, hb⟩ := List.exists_mem_of_ne_nil _ hne
      obtain ⟨ts, rfl, hlength⟩ := hpremises b hb
      obtain ⟨c, hc⟩ := List.exists_mem_of_length_pos (show 0 < ts.length by omega)
      have hvalue : c.leaves ∈ (u.branches.map (Branch.map leaves)).flatMap Branch.children :=
        List.mem_flatMap.mpr ⟨_, List.mem_map_of_mem hb, List.mem_map_of_mem hc⟩
      have hchildren := List.isEmpty_eq_false_iff.mpr (List.ne_nil_of_mem hvalue)
      exact (leavesOf_eq hchildren _).trans (leavesOf_eq hchildren _).symm

theorem Related.isClosed_eq (h : t.Related Sequent.Alike t') : t.isClosed = t'.isClosed := by
  refine h.fold_eq fun u _ r hr => ?_
  rw [hr.1.isIdentity_eq]

/-- **Growth does not see what bound variables are called.**  From two sequents
    that are the same up to bound names growth fails for the same reason, or gives
    two trees of one shape.  At the same places of these stand the same sequents up
    to bound names, with the same rules, and the quantifiers above have taken the
    same names.  The leaves are equal, and so is what the trees are asked for. -/
theorem alike_of_alphaEq (rules : RuleSet) (supply : Supply) {s s' : Sequent} (h : s.AlphaEq s') :
    (∃ e, (ofSequent s).grow rules supply = .error e ∧
      (ofSequent s').grow rules supply = .error e) ∨
    ∃ t t', (ofSequent s).grow rules supply = .ok t ∧ (ofSequent s').grow rules supply = .ok t' ∧
      t.Related Sequent.Alike t' ∧
      (∀ place u, t.at? place = some u →
        ∃ witnesses, Goal.Takes rules ⟨supply, s⟩ place witnesses) ∧
      (∀ place witnesses, Goal.Takes rules ⟨supply, s⟩ place witnesses ↔
        Goal.Takes rules ⟨supply, s'⟩ place witnesses) ∧
      t.leaves = t'.leaves ∧ t.isClosed = t'.isClosed ∧ t.alternatives = t'.alternatives ∧
      t.depth = t'.depth ∧ t.leafCount = t'.leafCount := by
  -- growth agrees on both: the same error, or related trees
  have hagree := Sequent.grow_alphaEq rules supply h
  rw [grow_ofSequent, grow_ofSequent]
  generalize hgrow : s.grow rules supply = x at hagree ⊢
  generalize s'.grow rules supply = y at hagree ⊢
  cases hagree with
  | error e => exact Or.inl ⟨e, rfl, rfl⟩
  | @ok t t' hrelated =>
      refine Or.inr ⟨t, t', rfl, rfl, hrelated, ?_, ?_, hrelated.leaves_eq hgrow,
        hrelated.isClosed_eq, hrelated.fold_eq fun _ _ _ _ => rfl,
        hrelated.fold_eq fun _ _ _ _ => rfl, hrelated.fold_eq fun _ _ _ _ => rfl⟩
      · intro place u hu
        obtain ⟨moves, supply', hpath, -⟩ := Sequent.path_of_at? hgrow hu
        exact ⟨_, moves, _, hpath, rfl⟩
      · exact fun place witnesses => ⟨.of_alphaEq h, .of_alphaEq h.symm⟩

end ProofTree

/-- The sequent `∀x ∃y R<x, y>; ` for given variables `x` and `y`. -/
def Sequent.everyRelated (x y : String) : Sequent :=
  ⟨[.quantified .universal x (.quantified .existential y (.atom ⟨"R", [x, y]⟩))], []⟩

/-- A bound variable that is called like a supplied name is renamed when the name
    is put above it, and the name is taken all the same. -/
theorem ProofTree.alike_everyRelated :
    (Sequent.everyRelated "x" "a").AlphaEq (Sequent.everyRelated "z" "y") ∧
    ∃ t t', (ofSequent (Sequent.everyRelated "x" "a")).grow (RuleSet.uniform .multiplicative)
        ⟨["a", "b"], []⟩ = .ok t ∧
      (ofSequent (Sequent.everyRelated "z" "y")).grow (RuleSet.uniform .multiplicative)
        ⟨["a", "b"], []⟩ = .ok t' ∧
      t.Related Sequent.Alike t' ∧
      Goal.Takes (RuleSet.uniform .multiplicative) ⟨⟨["a", "b"], []⟩, Sequent.everyRelated "z" "y"⟩
        [(0, 0)] [some "a"] ∧
      t.leaves = t'.leaves ∧ t.isClosed = t'.isClosed := by
  have halpha : (Sequent.everyRelated "x" "a").AlphaEq (Sequent.everyRelated "z" "y") :=
    ⟨.cons (by decide) .nil, .nil⟩
  -- the bound name gives way to the witness in one of them only
  have htakes : Goal.Takes (RuleSet.uniform .multiplicative)
      ⟨⟨["a", "b"], []⟩, Sequent.everyRelated "x" "a"⟩ [(0, 0)] [some "a"] :=
    ⟨_, _, .down (d := .step (.rule .antecedent (.quantifier .universal))
      [⟨[⟨[.quantified .existential "a_1" (.atom ⟨"R", ["a", "a_1"]⟩)], []⟩], some "a"⟩,
        ⟨[⟨[.quantified .existential "a" (.atom ⟨"R", ["b", "a"]⟩)], []⟩], some "b"⟩])
      (by decide_cbv) rfl rfl (.here _), rfl⟩
  obtain ⟨t₀, hgrow⟩ : ∃ t, (ofSequent (Sequent.everyRelated "x" "a")).grow
      (RuleSet.uniform .multiplicative) ⟨["a", "b"], []⟩ = .ok t := exists_eq_ok (by decide_cbv)
  refine ⟨halpha, ?_⟩
  rcases alike_of_alphaEq (RuleSet.uniform .multiplicative) ⟨["a", "b"], []⟩ halpha with
    ⟨e, herror, -⟩ | ⟨t, t', ht, ht', hrelated, -, hpaths, hleaves, hclosed, -⟩
  · rw [hgrow] at herror
    cases herror
  · exact ⟨t, t', ht, ht', hrelated, (hpaths _ _).mp htakes, hleaves, hclosed⟩

end SequentCalculus
