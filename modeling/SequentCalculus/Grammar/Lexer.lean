import SequentCalculus.Grammar.Diagnostic
import SequentCalculus.Grammar.Token
import SequentCalculus.Text.Blank

/-! # Cutting a text into tokens

    The text is read character by character.  Between two characters the
    scanner is in a gap, inside a word or behind the dash of an arrow, and
    every character either moves it on, completes a lexeme or is a dead end.
    Words are therefore maximal runs of word characters, and blanks matter only
    as the end of a word. -/

namespace SequentCalculus

/-- A token with the range of bytes it was read from. -/
structure Lexeme where
  token : Token
  start : Nat
  stop : Nat
  deriving DecidableEq, Repr

/-- Where the scanner stands between two characters. -/
inductive Scan
  /-- Between lexemes; the flag says whether a word ended right here. -/
  | gap (afterWord : Bool)
  /-- Inside a word that began at byte `start`, its characters last first. -/
  | word (start : Nat) (read : List Char)
  /-- Behind the dash of an arrow that began at byte `start`. -/
  | dash (start : Nat)
  deriving DecidableEq, Repr

namespace Scan

/-- The spellings of single signs in the order in which messages list them,
    the two beginnings of an arrow apart. -/
def signs : List Expectation :=
  ["(", ")", "<", ">", ",", ";", "~", "¬", "&", "∧", "∨", "∀", "∃"].map Expectation.spelling

/-- What could follow: behind a dash only the head of the arrow, and otherwise
    any lexeme or the end.  Right after a word its continuation comes first. -/
def expected : Scan → List Expectation
  | gap false =>
      [.spelling "-", .spelling "→", .phrase "something else"] ++ signs ++ [.endOfInput]
  | dash _ => [.spelling ">"]
  | _ => [.phrase "something else", .spelling "-", .spelling "→"] ++ signs ++ [.endOfInput]

/-- Reads a character in a gap that begins at byte `pos`: the completed lexemes
    and the next standing, or nothing at a dead end. -/
def stepGap (pos : Nat) (c : Char) : Option (List Lexeme × Scan) :=
  if isWordStart c then some ([], word pos [c])
  else if isBlank c then some ([], gap false)
  else if c = '-' then some ([], dash pos)
  else
    match Token.ofSign? c with
    | some t => some ([⟨t, pos, pos + c.utf8Size⟩], gap false)
    | none => none

/-- The lexeme of a word that ends at byte `pos`. -/
def wordLexeme (start pos : Nat) (read : List Char) : Lexeme :=
  ⟨Token.ofWord read.reverse, start, pos⟩

/-- Reads one character that stands at byte `pos`. -/
def step (s : Scan) (pos : Nat) (c : Char) : Option (List Lexeme × Scan) :=
  match s with
  | gap _ => stepGap pos c
  | word start read =>
      if isWordChar c then some ([], word start (c :: read))
      else (stepGap pos c).map fun r => (wordLexeme start pos read :: r.1, r.2)
  | dash start =>
      if c = '>' then some ([⟨.operator .conditional, start, pos + 1⟩], gap false) else none

/-- The lexemes completed by the end of the text, if it may end here. -/
def finish (s : Scan) (pos : Nat) : Option (List Lexeme) :=
  match s with
  | gap _ => some []
  | word start read => some [wordLexeme start pos read]
  | dash _ => none

/-- The diagnostic of a dead end at byte `pos`, before a character or at the
    end of the text. -/
def deadEnd (s : Scan) (pos : Nat) (c : Option Char) : Diagnostic where
  stage := .lexing
  found := c.map Char.toString
  expected := s.expected
  start := pos
  stop := pos + (c.map Char.utf8Size).getD 0

/-- Reads the characters from byte `pos` on. -/
def run (s : Scan) (pos : Nat) : List Char → Except Diagnostic (List Lexeme)
  | [] =>
      match s.finish pos with
      | some ls => .ok ls
      | none => .error (s.deadEnd pos none)
  | c :: cs =>
      match s.step pos c with
      | none => .error (s.deadEnd pos (some c))
      | some (ls, s') =>
          match run s' (pos + c.utf8Size) cs with
          | .ok rest => .ok (ls ++ rest)
          | .error d => .error d

end Scan

/-- Cuts a text into lexemes, or stops at its first dead end. -/
def lex (cs : List Char) : Except Diagnostic (List Lexeme) :=
  Scan.run (.gap false) 0 cs

end SequentCalculus
