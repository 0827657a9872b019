import SequentCalculus.Grammar.Lexer
import SequentCalculus.Sequent.Basic

/-! # Reading formulas and sequents token by token

    Negation and quantifiers bind tightest, then `&`, then `v`, both grouping
    to the left, then `->`, which groups to the right.  A sequent is a list of
    formulas, a semicolon and another list; either list may be empty.

    A `Reading` holds all that has been read so far.  Inside each pair of
    parentheses, and inside each member of a list, it keeps a `Clause`: the
    operands that wait for a right-hand side, one slot per binding strength.
    Completing an operand fills it into the slots; no choice is ever revised.
    Every token is therefore either a step or a dead end, and the position of a
    dead end decides which items could have followed. -/

namespace SequentCalculus

/-- An operation that applies to the operand after it. -/
inductive Unary
  | negation
  | binder (k : Quantifier) (x : String)
  deriving DecidableEq, Repr

/-- Applies an operation to its operand. -/
def Unary.apply : Unary → Formula → Formula
  | negation, p => .negation p
  | binder k x, p => .quantified k x p

/-- The part of a formula, down to the innermost open parenthesis, that waits
    for an operand. -/
structure Clause where
  /-- Operations on the operand to come, the nearest first. -/
  unary : List Unary := []
  /-- The conjunction so far, left of an `&`. -/
  conjunct : Option Formula := none
  /-- The disjunction so far, left of a `v`. -/
  disjunct : Option Formula := none
  /-- The hypotheses left of each `->`, the nearest first. -/
  hypotheses : List Formula := []
  deriving DecidableEq, Repr

namespace Clause

/-- The operand with the waiting operations applied, added to the conjunction. -/
def conjunctionWith (c : Clause) (p : Formula) : Formula :=
  let operand := c.unary.foldl (fun q u => u.apply q) p
  match c.conjunct with
  | none => operand
  | some l => .binary .conjunction l operand

/-- The completed conjunction, added to the disjunction. -/
def disjunctionWith (c : Clause) (p : Formula) : Formula :=
  match c.disjunct with
  | none => c.conjunctionWith p
  | some l => .binary .disjunction l (c.conjunctionWith p)

/-- The clause completed by its last operand. -/
def close (c : Clause) (p : Formula) : Formula :=
  c.hypotheses.foldl (fun q h => .binary .conditional h q) (c.disjunctionWith p)

/-- The clause after an operand and a binary connective. -/
def join (c : Clause) (p : Formula) : Operator → Clause
  | .conjunction => { c with unary := [], conjunct := some (c.conjunctionWith p) }
  | .disjunction =>
      { c with unary := [], conjunct := none, disjunct := some (c.disjunctionWith p) }
  | .conditional => { hypotheses := c.disjunctionWith p :: c.hypotheses }

/-- The clause with one more operation on the operand to come. -/
def under (c : Clause) (u : Unary) : Clause := { c with unary := u :: c.unary }

end Clause

/-- What is being read: a single formula, or a list of a sequent with the
    members that are complete, last first. -/
inductive Target
  | formula
  | antecedent (done : List Formula)
  | consequent (antecedent done : List Formula)
  deriving DecidableEq, Repr

/-- What the last token left open. -/
inductive Focus
  /-- An operand is to come. -/
  | operand
  /-- The variable of a quantifier is to come. -/
  | binding (k : Quantifier)
  /-- An atom that has no terms yet. -/
  | predicate (name : String)
  /-- A term is to come; those before it, last first. -/
  | term (name : String) (terms : List String)
  /-- A term was read; all so far, last first. -/
  | terms (name : String) (terms : List String)
  /-- An operand is complete. -/
  | complete (p : Formula)
  deriving DecidableEq, Repr

/-- All that has been read of a formula or a sequent. -/
structure Reading where
  target : Target
  /-- The clauses around the open parentheses, the innermost first. -/
  outer : List Clause := []
  clause : Clause := {}
  focus : Focus := .operand
  deriving DecidableEq, Repr

namespace Reading

/-- Nothing of a formula has been read. -/
def ofFormula : Reading := { target := .formula }

/-- Nothing of a sequent has been read. -/
def ofSequent : Reading := { target := .antecedent [] }

/-- The phrase for the sign between the sides of a sequent. -/
def separator : Expectation := .phrase "`;` between antecedent and consequent"

/-- What may follow a complete clause besides a binary connective. -/
def closers (r : Reading) : List Expectation :=
  match r.outer, r.target with
  | _ :: _, _ => [.spelling ")"]
  | [], .formula => [.endOfInput]
  | [], .antecedent _ => [.spelling ",", separator]
  | [], .consequent _ _ => [.spelling ",", .endOfInput]

/-- Whether the reading stands at the beginning of a list, where the list may
    also be left empty. -/
def atListStart (r : Reading) : Bool :=
  r.outer.isEmpty && r.clause == {} && r.focus == .operand &&
    match r.target with
    | .formula => false
    | .antecedent done => done.isEmpty
    | .consequent _ done => done.isEmpty

/-- What may stand where an operand is to come. -/
def expectedOperand (r : Reading) : List Expectation :=
  if !r.clause.unary.isEmpty || r.clause.conjunct.isSome then
    [.phrase "prefix operator", .phrase "atom", .phrase "parentheses"]
  else if r.clause.disjunct.isSome then [.phrase "conjunction"]
  else if r.atListStart then
    .phrase "conditional" ::
      match r.target with
      | .consequent _ _ => [.endOfInput]
      | _ => [separator]
  else [.phrase "conditional"]

/-- What may follow a complete operand. -/
def expectedAfterOperand (r : Reading) : List Expectation :=
  [.spelling "&", .spelling "v", .spelling "->"] ++ r.closers

/-- What could follow the tokens read so far. -/
def expected (r : Reading) : List Expectation :=
  match r.focus with
  | .operand => r.expectedOperand
  | .binding _ => [.phrase "identifier"]
  | .predicate _ => .phrase "term list" :: r.expectedAfterOperand
  | .term _ _ => [.phrase "term"]
  | .terms _ _ => [.spelling ",", .spelling ">"]
  | .complete _ => r.expectedAfterOperand

/-- Reads a token where an operand is to come. -/
def stepOperand (r : Reading) (t : Token) : Option Reading :=
  match t with
  | .word w => some { r with focus := .predicate w }
  | .negation => some { r with clause := r.clause.under .negation }
  | .binder k x => some { r with clause := r.clause.under (.binder k x) }
  | .quantifier k => some { r with focus := .binding k }
  | .leftParen => some { r with outer := r.clause :: r.outer, clause := {} }
  | .semicolon =>
      match r.atListStart, r.target with
      | true, .antecedent _ => some { target := .consequent [] [] }
      | _, _ => none
  | _ => none

/-- Reads a token after the complete operand `p`. -/
def stepAfterOperand (r : Reading) (p : Formula) (t : Token) : Option Reading :=
  match t with
  | .operator op => some { r with clause := r.clause.join p op, focus := .operand }
  | .rightParen =>
      match r.outer with
      | c :: cs =>
          some { r with outer := cs, clause := c, focus := .complete (r.clause.close p) }
      | [] => none
  | .comma =>
      match r.outer, r.target with
      | [], .antecedent done => some { target := .antecedent (r.clause.close p :: done) }
      | [], .consequent ant done =>
          some { target := .consequent ant (r.clause.close p :: done) }
      | _, _ => none
  | .semicolon =>
      match r.outer, r.target with
      | [], .antecedent done =>
          some { target := .consequent (r.clause.close p :: done).reverse [] }
      | _, _ => none
  | _ => none

/-- Reads one token; nothing follows a dead end. -/
def step (r : Reading) (t : Token) : Option Reading :=
  match r.focus, t with
  | .operand, t => r.stepOperand t
  | .binding k, .word x =>
      some { r with clause := r.clause.under (.binder k x), focus := .operand }
  | .binding _, _ => none
  | .predicate name, .leftAngle => some { r with focus := .term name [] }
  | .predicate name, t => r.stepAfterOperand (.atom ⟨name, []⟩) t
  | .term name ts, .word x => some { r with focus := .terms name (x :: ts) }
  | .term _ _, _ => none
  | .terms name ts, .comma => some { r with focus := .term name ts }
  | .terms name ts, .rightAngle =>
      some { r with focus := .complete (.atom ⟨name, ts.reverse⟩) }
  | .terms _ _, _ => none
  | .complete p, t => r.stepAfterOperand p t

/-- The operand that is complete at the end of the tokens, outside of all
    parentheses. -/
def operand? (r : Reading) : Option Formula :=
  match r.outer, r.focus with
  | [], .predicate name => some (r.clause.close (.atom ⟨name, []⟩))
  | [], .complete p => some (r.clause.close p)
  | _, _ => none

/-- The formula read, if the tokens may end here. -/
def formula? (r : Reading) : Option Formula :=
  match r.target with
  | .formula => r.operand?
  | _ => none

/-- The sequent read, if the tokens may end here. -/
def sequent? (r : Reading) : Option Sequent :=
  match r.target with
  | .consequent ant done =>
      if r.atListStart then some ⟨ant, []⟩
      else r.operand?.map fun p => ⟨ant, (p :: done).reverse⟩
  | _ => none

/-- Reads as many lexemes as possible: the reading reached and the lexemes from
    the first dead end on. -/
def feed (r : Reading) : List Lexeme → Reading × List Lexeme
  | [] => (r, [])
  | l :: ls =>
      match r.step l.token with
      | some r' => r'.feed ls
      | none => (r, l :: ls)

/-- The diagnostic of a dead end before the given lexemes, or at byte `size`,
    the end of the source, when there are none. -/
def deadEnd (r : Reading) (size : Nat) (rest : List Lexeme) : Diagnostic where
  stage := .parsing
  found := rest.head?.map (·.token.text)
  expected := r.expected
  start := (rest.head?.map Lexeme.start).getD size
  stop := (rest.head?.map Lexeme.stop).getD size

/-- Reads all lexemes and takes the result out of the last reading. -/
def complete {α : Type} (start : Reading) (result : Reading → Option α) (size : Nat)
    (ls : List Lexeme) : Except Diagnostic α :=
  match start.feed ls with
  | (r, []) =>
      match result r with
      | some a => .ok a
      | none => .error (r.deadEnd size [])
  | (r, rest) => .error (r.deadEnd size rest)

end Reading

/-- Reads a text: first the tokens, then their structure. -/
def readText {α : Type} (start : Reading) (result : Reading → Option α) (source : String) :
    Except ReadingError α :=
  match lex source.toList with
  | .error d => .error ⟨source, [d]⟩
  | .ok ls =>
      match start.complete result source.utf8ByteSize ls with
      | .ok a => .ok a
      | .error d => .error ⟨source, [d]⟩

/-- Reads a formula. -/
def Formula.parse (source : String) : Except ReadingError Formula :=
  readText Reading.ofFormula Reading.formula? source

/-- Reads a sequent. -/
def Sequent.parse (source : String) : Except ReadingError Sequent :=
  readText Reading.ofSequent Reading.sequent? source

end SequentCalculus
