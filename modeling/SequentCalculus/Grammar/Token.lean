import SequentCalculus.Formula.Basic

/-! # Tokens — what the words and signs of a formula stand for

    A word is a run of ASCII letters, digits and underscores that does not
    start with a digit.  Some words are keywords, and `forall` or `exists` may
    be glued to the variable they bind: `forallx` reads like `∀x`.  Gluing
    needs a variable that could itself stand as a term, so `forallforallx` is
    an ordinary word again. -/

namespace SequentCalculus

/-- A token of the notation. -/
inductive Token
  | leftParen
  | rightParen
  | leftAngle
  | rightAngle
  | comma
  | semicolon
  | negation
  | operator (op : Operator)
  /-- A quantifier whose variable follows as a word of its own. -/
  | quantifier (k : Quantifier)
  /-- A quantifier glued to its variable. -/
  | binder (k : Quantifier) (x : String)
  | word (w : String)
  deriving DecidableEq, Repr

/-- The text by which messages name a token; all spellings of a connective
    have the same one. -/
def Token.text : Token → String
  | leftParen => "("
  | rightParen => ")"
  | leftAngle => "<"
  | rightAngle => ">"
  | comma => ","
  | semicolon => ";"
  | negation => "~"
  | operator op => op.symbol
  | quantifier k => k.symbol
  | binder k x => k.symbol ++ x
  | word w => w

/-- Whether a word may begin with the character. -/
def isWordStart (c : Char) : Bool := c.isAlpha || c == '_'

/-- Whether a word may go on with the character. -/
def isWordChar (c : Char) : Bool := c.isAlphanum || c == '_'

/-- Whether the characters form a single word. -/
def isWord : List Char → Bool
  | [] => false
  | c :: cs => isWordStart c && cs.all isWordChar

/-- Whether a word is neither a keyword nor a quantifier glued to a variable. -/
def isPlain : List Char → Bool
  | 'f' :: 'o' :: 'r' :: 'a' :: 'l' :: 'l' :: x => !x.isEmpty && !(isWord x && isPlain x)
  | 'e' :: 'x' :: 'i' :: 's' :: 't' :: 's' :: x => !x.isEmpty && !(isWord x && isPlain x)
  | 'a' :: 'n' :: 'd' :: [] => false
  | 'o' :: 'r' :: [] => false
  | 'v' :: [] => false
  | 'n' :: 'o' :: 't' :: [] => false
  | 'i' :: 'm' :: 'p' :: 'l' :: 'i' :: 'e' :: 's' :: [] => false
  | _ => true

/-- Whether the characters can stand as a predicate, a term or a variable. -/
def isTermChars (cs : List Char) : Bool := isWord cs && isPlain cs

/-- Whether a string can stand as a predicate, a term or a variable: a word
    that is read as itself. -/
def isTerm (s : String) : Bool := isTermChars s.toList

/-- The token that a word stands for. -/
def Token.ofWord : List Char → Token
  | 'a' :: 'n' :: 'd' :: [] => .operator .conjunction
  | 'o' :: 'r' :: [] => .operator .disjunction
  | 'v' :: [] => .operator .disjunction
  | 'i' :: 'm' :: 'p' :: 'l' :: 'i' :: 'e' :: 's' :: [] => .operator .conditional
  | 'n' :: 'o' :: 't' :: [] => .negation
  | 'f' :: 'o' :: 'r' :: 'a' :: 'l' :: 'l' :: [] => .quantifier .universal
  | 'e' :: 'x' :: 'i' :: 's' :: 't' :: 's' :: [] => .quantifier .existential
  | w@('f' :: 'o' :: 'r' :: 'a' :: 'l' :: 'l' :: x) =>
      if isTermChars x then .binder .universal (String.ofList x) else .word (String.ofList w)
  | w@('e' :: 'x' :: 'i' :: 's' :: 't' :: 's' :: x) =>
      if isTermChars x then .binder .existential (String.ofList x) else .word (String.ofList w)
  | w => .word (String.ofList w)

/-- The token that a single sign stands for. -/
def Token.ofSign? : Char → Option Token
  | '→' => some (.operator .conditional)
  | '(' => some .leftParen
  | ')' => some .rightParen
  | '<' => some .leftAngle
  | '>' => some .rightAngle
  | ',' => some .comma
  | ';' => some .semicolon
  | '~' => some .negation
  | '¬' => some .negation
  | '&' => some (.operator .conjunction)
  | '∧' => some (.operator .conjunction)
  | '∨' => some (.operator .disjunction)
  | '∀' => some (.quantifier .universal)
  | '∃' => some (.quantifier .existential)
  | _ => none

end SequentCalculus
