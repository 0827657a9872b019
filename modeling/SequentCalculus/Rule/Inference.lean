import SequentCalculus.Rule.Discipline

/-! # Inference rules read backwards

    Applying a rule to its principal formula gives the new members of the
    premises and says what becomes of the context:

    * `extend` — one premise, which keeps the context;
    * `share` — two premises, and each keeps the whole context;
    * `choose` — one premise, to be chosen between two;
    * `divide` — two premises, which divide the context between them;
    * `instantiate` — one premise for every witness that may be put for the
      bound variable.

    The additive and the multiplicative variant of a rule differ in exactly
    this: where one chooses or shares, the other extends or divides. -/

namespace SequentCalculus

/-- The premises of a rule without their context. -/
inductive Inference
  | extend (premise : Sequent)
  | share (left right : Sequent)
  | choose (left right : Sequent)
  | divide (left right : Sequent)
  | instantiate (side : Side) (x : String) (body : Formula)
  deriving DecidableEq, Repr

namespace Inference

/-- The rule of a binary connective on a side. -/
def ofBinary (op : Operator) (d : Discipline) (side : Side) (p q : Formula) : Inference :=
  let ant (ps : List Formula) := Sequent.onSide .antecedent ps
  let con (ps : List Formula) := Sequent.onSide .consequent ps
  match op, side, d with
  | .conjunction, .antecedent, .additive => choose (ant [p]) (ant [q])
  | .conjunction, .antecedent, .multiplicative => extend (ant [p, q])
  | .conjunction, .consequent, .additive => share (con [p]) (con [q])
  | .conjunction, .consequent, .multiplicative => divide (con [p]) (con [q])
  | .disjunction, .antecedent, .additive => share (ant [p]) (ant [q])
  | .disjunction, .antecedent, .multiplicative => divide (ant [p]) (ant [q])
  | .disjunction, .consequent, .additive => choose (con [p]) (con [q])
  | .disjunction, .consequent, .multiplicative => extend (con [p, q])
  | .conditional, .antecedent, .additive => share (con [p]) (ant [q])
  | .conditional, .antecedent, .multiplicative => divide (con [p]) (ant [q])
  | .conditional, .consequent, .additive => choose (ant [p]) (con [q])
  | .conditional, .consequent, .multiplicative => extend ⟨[p], [q]⟩

/-- The rule that takes apart a formula standing on a side; atoms have none. -/
def of (rules : RuleSet) (side : Side) : Formula → Except Error Inference
  | .atom a => .error (.noRule (.atom a))
  | .negation p => .ok (extend (.onSide side.flip [p]))
  | .binary op p q => .ok (ofBinary op ((rules.operator op).get side) side p q)
  | .quantified _ x p => .ok (instantiate side x p)

end Inference

end SequentCalculus
