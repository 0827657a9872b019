/-! # Diagnostics — where reading stopped and what could have followed

    A diagnostic names a dead end: the offending character or token (or the end of
    the input), its place in bytes, and the items that would have let reading go on.
    Reading stops at the first one. -/

namespace SequentCalculus

/-- Something that could have stood at a dead end. -/
inductive Expectation
  /-- A fixed spelling, quoted in messages. -/
  | spelling (s : String)
  /-- A kind of item, named by a phrase. -/
  | phrase (s : String)
  deriving DecidableEq, Repr

namespace Expectation

def text : Expectation → String
  | spelling s => "'" ++ s ++ "'"
  | phrase s => s

def endOfInput : Expectation := .phrase "end of input"

/-- The items in a row: commas between them, and `or` before the last one. -/
def joinTexts : List Expectation → String
  | [] => ""
  | [e] => e.text
  | [e, f] => e.text ++ ", or " ++ f.text
  | e :: f :: rest => e.text ++ ", " ++ joinTexts (f :: rest)

end Expectation

/-- The half of reading that failed: cutting the text into tokens, or fitting
    the tokens together. -/
inductive ReadingStage
  | lexing
  | parsing
  deriving DecidableEq, Repr

/-- The dead end of a reading.  `found` is empty at the end of the input, and
    the place is a range of bytes of the source. -/
structure Diagnostic where
  stage : ReadingStage
  found : Option String
  expected : List Expectation
  start : Nat
  stop : Nat
  deriving DecidableEq, Repr

/-- The text of a diagnostic without its place. -/
def Diagnostic.message (d : Diagnostic) : String :=
  (match d.stage with
    | .lexing => "lexing error: found "
    | .parsing => "parse error: found ") ++
  (match d.found with
    | some s => "'" ++ s ++ "'"
    | none => "end of input") ++
  " expected " ++ Expectation.joinTexts d.expected

/-- The text of a diagnostic with its place. -/
def Diagnostic.text (d : Diagnostic) : String :=
  d.message ++ " at " ++ toString d.start ++ ".." ++ toString d.stop

/-- A text that could not be read, with the reasons. -/
structure ReadingError where
  input : String
  diagnostics : List Diagnostic
  deriving DecidableEq, Repr

/-- The text of a reading error: the whole input and all diagnostics. -/
def ReadingError.message (e : ReadingError) : String :=
  "malformed input `" ++ e.input ++ "`: " ++ "; ".intercalate (e.diagnostics.map Diagnostic.text)

end SequentCalculus
