/-! # Styled text — pieces with a role, rendered plainly or in colour

    Formulas, sequents and outlines are written as lists of pieces.  A piece
    carries the role it plays (an operator, a term, …) or none for blanks and
    line breaks.  `Styled.plain` forgets the roles; `Styled.coloured` writes
    every role as terminal escape sequences, opened by a reset and closed by
    another one. -/

namespace SequentCalculus

/-- The terminal colours in use. -/
inductive Colour
  | red
  | green
  | yellow
  | blue
  | magenta
  | cyan
  | white
  deriving DecidableEq, Repr

/-- The digit that names a foreground colour in an escape sequence. -/
def Colour.digit : Colour → String
  | red => "1"
  | green => "2"
  | yellow => "3"
  | blue => "4"
  | magenta => "5"
  | cyan => "6"
  | white => "7"

/-- The look of a stretch of text on a terminal. -/
structure Look where
  bold : Bool := false
  dimmed : Bool := false
  colour : Option Colour := none
  deriving DecidableEq, Repr

namespace Look

/-- The sequence that ends any look. -/
def reset : String := "\x1b[0m"

/-- The sequences that switch to a look: reset, bold, dimmed, colour. -/
def start (l : Look) : String :=
  reset ++ (if l.bold then "\x1b[1m" else "") ++ (if l.dimmed then "\x1b[2m" else "") ++
    match l.colour with
    | some c => "\x1b[3" ++ c.digit ++ "m"
    | none => ""

end Look

/-- The role of a piece of text. -/
inductive Role
  | punctuation
  /-- A parenthesis at a nesting depth; a pair shares its depth. -/
  | parenthesis (depth : Nat)
  | quantifier
  | operator
  | predicate
  | term
  deriving DecidableEq, Repr

/-- The colour of a parenthesis: six colours in turn, where the depth is counted
    in one byte and so starts again after 255. -/
def parenthesisColour (depth : Nat) : Colour :=
  match depth % 256 % 6 with
  | 0 => .blue
  | 1 => .green
  | 2 => .white
  | 3 => .yellow
  | 4 => .red
  | _ => .magenta

/-- How each role looks on a terminal. -/
def Role.look : Role → Look
  | punctuation => { dimmed := true }
  | parenthesis depth => { dimmed := true, colour := some (parenthesisColour depth) }
  | quantifier => { bold := true, colour := some .cyan }
  | operator => { bold := true, colour := some .yellow }
  | predicate => { bold := true, colour := some .green }
  | term => { colour := some .magenta }

/-- A stretch of text with at most one role. -/
structure Piece where
  role : Option Role
  text : String
  deriving DecidableEq, Repr

namespace Piece

/-- Text without a role. -/
def blank (text : String) : Piece := ⟨none, text⟩

/-- The text of a piece as a terminal shows it in colour. -/
def coloured (p : Piece) : String :=
  match p.role with
  | some r => r.look.start ++ p.text ++ Look.reset
  | none => p.text

end Piece

/-- A text made of pieces. -/
abbrev Styled := List Piece

namespace Styled

/-- The text alone. -/
def plain (t : Styled) : String := String.join (t.map (·.text))

/-- The text with escape sequences around every piece that has a role. -/
def coloured (t : Styled) : String := String.join (t.map Piece.coloured)

/-- One text with a role. -/
def only (r : Role) (text : String) : Styled := [⟨some r, text⟩]

/-- A single blank without a role. -/
def space : Styled := [.blank " "]

/-- The texts in a row, `separator` between each two. -/
def joinWith (separator : Styled) : List Styled → Styled
  | [] => []
  | [t] => t
  | t :: u :: rest => t ++ separator ++ joinWith separator (u :: rest)

end Styled

end SequentCalculus
