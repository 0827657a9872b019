import SequentCalculus.Error
import SequentCalculus.Text.Table

/-! # Disciplines — which variant of each rule is in force

    Every propositional connective has two rules, one per side, and each of
    them comes in an additive and a multiplicative variant.  A `RuleSet` fixes
    the variant of all eight.  Quantifier rules have a single variant and
    cannot be configured.

    A rule set is written as a table from connectives to tables from sides to
    disciplines.  `RuleSet.ofTable` accepts complete tables only: every
    connective with both sides, and nothing else. -/

namespace SequentCalculus

/-- A variant of a rule: the premises share the context, or divide it. -/
inductive Discipline
  | additive
  | multiplicative
  deriving DecidableEq, Repr

namespace Discipline

/-- The name of a discipline in a table. -/
def key : Discipline → String
  | additive => "add"
  | multiplicative => "mul"

/-- The discipline named `s`, if there is one. -/
def ofKey? (s : String) : Option Discipline :=
  [additive, multiplicative].find? (·.key == s)

/-- The full name of a discipline. -/
def name : Discipline → String
  | additive => "Additive"
  | multiplicative => "Multiplicative"

end Discipline

/-- The disciplines of the two rules of a connective. -/
structure RulePair where
  ant : Discipline
  con : Discipline
  deriving DecidableEq, Repr

namespace RulePair

/-- The discipline of the rule on one side. -/
def get (d : RulePair) : Side → Discipline
  | .antecedent => d.ant
  | .consequent => d.con

/-- The disciplines with the one on a side replaced. -/
def set (d : RulePair) (v : Discipline) : Side → RulePair
  | .antecedent => { d with ant := v }
  | .consequent => { d with con := v }

/-- The disciplines as entries by side. -/
def toTable (d : RulePair) : Table String :=
  ⟨[(Side.antecedent.key, d.ant.key), (Side.consequent.key, d.con.key)],
    by decide_cbv⟩

/-- The full description of a pair of disciplines, as log messages give it. -/
def describe (d : RulePair) : String :=
  "SideDisciplines \x7b ant: " ++ d.ant.name ++ ", con: " ++ d.con.name ++ " \x7d"

end RulePair

/-- The disciplines of all configurable rules. -/
structure RuleSet where
  negation : RulePair
  conjunction : RulePair
  disjunction : RulePair
  conditional : RulePair
  deriving DecidableEq, Repr

/-- A table from connectives to tables from sides to disciplines. -/
abbrev RuleTable := Table (Table String)

namespace RuleSet

/-- The rule set with one discipline throughout. -/
def uniform (d : Discipline) : RuleSet := ⟨⟨d, d⟩, ⟨d, d⟩, ⟨d, d⟩, ⟨d, d⟩⟩

/-- The disciplines of a binary connective. -/
def operator (r : RuleSet) : Operator → RulePair
  | .conjunction => r.conjunction
  | .disjunction => r.disjunction
  | .conditional => r.conditional

/-- The disciplines of a connective; quantifiers have none. -/
def disciplines? (r : RuleSet) : Connective → Option RulePair
  | .negation => some r.negation
  | .binary op => some (r.operator op)
  | .quantifier _ => none

/-- The discipline of a connective's rule on a side. -/
def discipline (r : RuleSet) (c : Connective) (side : Side) : Except Error Discipline :=
  match r.disciplines? c with
  | some d => .ok (d.get side)
  | none => .error (.unknownConnective c.symbol (some side.key))

/-- The rule set with the discipline of one rule replaced. -/
def set (r : RuleSet) (c : Connective) (side : Side) (d : Discipline) : Except Error RuleSet :=
  match c with
  | .negation => .ok { r with negation := r.negation.set d side }
  | .binary .conjunction => .ok { r with conjunction := r.conjunction.set d side }
  | .binary .disjunction => .ok { r with disjunction := r.disjunction.set d side }
  | .binary .conditional => .ok { r with conditional := r.conditional.set d side }
  | .quantifier _ => .error (.unknownConnective c.symbol none)

/-- The connectives that have disciplines. -/
def configurable : List Connective :=
  [.negation, .binary .conjunction, .binary .disjunction, .binary .conditional]

/-- The rule set as a table. -/
def toTable (r : RuleSet) : RuleTable :=
  ⟨[("&", r.conjunction.toTable), ("->", r.conditional.toTable),
      ("v", r.disjunction.toTable), ("~", r.negation.toTable)],
    by decide_cbv⟩

/-- The discipline that a connective's entry gives for a side. -/
def readDiscipline (symbol : String) (sides : Table String) (side : Side) :
    Except Error Discipline :=
  match sides.get? side.key with
  | none => .error (.unknownConnective symbol (some side.key))
  | some value =>
      match Discipline.ofKey? value with
      | some d => .ok d
      | none => .error (.invalidDiscipline symbol side.key value)

/-- The disciplines that a table gives for a connective: the entry has to be
    there, with both sides and no others. -/
def readSides (t : RuleTable) (c : Connective) : Except Error RulePair :=
  match t.get? c.symbol with
  | none => .error (.unknownConnective c.symbol none)
  | some sides =>
      match sides.keys.find? fun k => (Side.ofKey? k).isNone with
      | some k => .error (.unknownConnective c.symbol (some k))
      | none => do
          let ant ← readDiscipline c.symbol sides .antecedent
          let con ← readDiscipline c.symbol sides .consequent
          return ⟨ant, con⟩

/-- The rule set that a table describes.  An unknown connective is reported
    first, then the connectives are read in turn. -/
def ofTable (t : RuleTable) : Except Error RuleSet :=
  match t.keys.find? fun k => !(configurable.any (·.symbol == k)) with
  | some k => .error (.unknownConnective k none)
  | none => do
      let negation ← readSides t .negation
      let conjunction ← readSides t (.binary .conjunction)
      let disjunction ← readSides t (.binary .disjunction)
      let conditional ← readSides t (.binary .conditional)
      return ⟨negation, conjunction, disjunction, conditional⟩

/-- The full description of a rule set, as log messages give it. -/
def describe (r : RuleSet) : String :=
  "RuleConfig \x7b negation: " ++ r.negation.describe ++ ", conjunction: " ++
    r.conjunction.describe ++ ", disjunction: " ++ r.disjunction.describe ++
    ", conditional: " ++ r.conditional.describe ++ " \x7d"

end RuleSet

end SequentCalculus
