/-! # Strings in TOML

    Four notations: basic strings between `"`, with escapes, literal strings
    between `'`, without, and a form of each between three quotes that may span
    lines.  Control characters other than the tab have to be escaped.

    A reader is given the text behind the opening quotes and returns the
    content with the text behind the closing ones. -/

namespace SequentCalculus.Toml

/-- Whether a character may not stand unescaped in a string or a comment. -/
def isControl (c : Char) : Bool := (c.toNat < 0x20 && c != '\t') || c.toNat == 0x7F

/-- Puts a character in front of what a reader returned. -/
def withChar (c : Char) (r : Option (List Char × List Char)) : Option (List Char × List Char) :=
  r.map fun (content, rest) => (c :: content, rest)

/-! ## Escapes -/

/-- The character that a one-letter escape stands for. -/
def letterEscape? : Char → Option Char
  | 'b' => some '\x08'
  | 't' => some '\t'
  | 'n' => some '\n'
  | 'f' => some '\x0c'
  | 'r' => some '\r'
  | 'e' => some '\x1b'
  | '"' => some '"'
  | '\\' => some '\\'
  | _ => none

/-- The value of a hexadecimal digit. -/
def hexDigit? (c : Char) : Option Nat :=
  if '0' ≤ c ∧ c ≤ '9' then some (c.toNat - '0'.toNat)
  else if 'a' ≤ c ∧ c ≤ 'f' then some (c.toNat - 'a'.toNat + 10)
  else if 'A' ≤ c ∧ c ≤ 'F' then some (c.toNat - 'A'.toNat + 10)
  else none

/-- The character with the code point that the digits spell. -/
def codePoint? (ds : List Char) : Option Char := do
  let n ← ds.foldlM (fun n d => (hexDigit? d).map (16 * n + ·)) 0
  if h : n.isValidChar then some (Char.ofNatAux n h) else none

/-! ## Readers -/

/-- Reads a literal string on one line. -/
def readLiteral : List Char → Option (List Char × List Char)
  | [] => none
  | '\'' :: rest => some ([], rest)
  | c :: cs => if isControl c then none else withChar c (readLiteral cs)

/-- Reads a basic string on one line. -/
def readBasic : List Char → Option (List Char × List Char)
  | [] => none
  | '"' :: rest => some ([], rest)
  | '\\' :: e :: cs =>
      match letterEscape? e with
      | some c => withChar c (readBasic cs)
      | none =>
          match e, cs with
          | 'x', d1 :: d2 :: rest =>
              match codePoint? [d1, d2] with
              | some c => withChar c (readBasic rest)
              | none => none
          | 'u', d1 :: d2 :: d3 :: d4 :: rest =>
              match codePoint? [d1, d2, d3, d4] with
              | some c => withChar c (readBasic rest)
              | none => none
          | 'U', d1 :: d2 :: d3 :: d4 :: d5 :: d6 :: d7 :: d8 :: rest =>
              match codePoint? [d1, d2, d3, d4, d5, d6, d7, d8] with
              | some c => withChar c (readBasic rest)
              | none => none
          | _, _ => none
  | c :: cs => if isControl c || c = '\\' then none else withChar c (readBasic cs)

/-- Reads a literal string over several lines.  Up to two quotes may stand
    directly before the closing three. -/
def readLiteralLines : List Char → Option (List Char × List Char)
  | [] => none
  | '\'' :: '\'' :: '\'' :: '\'' :: '\'' :: rest => some (['\'', '\''], rest)
  | '\'' :: '\'' :: '\'' :: '\'' :: rest => some (['\''], rest)
  | '\'' :: '\'' :: '\'' :: rest => some ([], rest)
  | '\r' :: '\n' :: cs => withChar '\r' (withChar '\n' (readLiteralLines cs))
  | '\n' :: cs => withChar '\n' (readLiteralLines cs)
  | c :: cs => if isControl c then none else withChar c (readLiteralLines cs)

/-- What a backslash at the end of a line makes of the blanks behind it. -/
inductive Trim
  /-- Nothing is dropped. -/
  | off
  /-- Blanks are dropped up to the end of the line, which has to come. -/
  | toLineEnd
  /-- Blanks and further line ends are dropped. -/
  | beyond
  deriving DecidableEq, Repr

/-- Reads a basic string over several lines.  Up to two quotes may stand
    directly before the closing three. -/
def readBasicLines (trim : Trim) : List Char → Option (List Char × List Char)
  | [] => none
  | c :: cs =>
      if trim ≠ .off ∧ (c = ' ' ∨ c = '\t') then readBasicLines trim cs
      else if trim ≠ .off ∧ c = '\n' then readBasicLines .beyond cs
      else if c = '\r' then
        match cs with
        | '\n' :: rest =>
            if trim ≠ .off then readBasicLines .beyond rest
            else withChar '\r' (withChar '\n' (readBasicLines .off rest))
        | _ => none
      else if trim = .toLineEnd then none
      else if c = '"' then
        match cs with
        | '"' :: '"' :: '"' :: '"' :: rest => some (['"', '"'], rest)
        | '"' :: '"' :: '"' :: rest => some (['"'], rest)
        | '"' :: '"' :: rest => some ([], rest)
        | _ => withChar '"' (readBasicLines .off cs)
      else if c = '\\' then
        match cs with
        | [] => none
        | e :: cs' =>
            if e = ' ' ∨ e = '\t' ∨ e = '\n' ∨ e = '\r' then readBasicLines .toLineEnd (e :: cs')
            else
              match letterEscape? e with
              | some c => withChar c (readBasicLines .off cs')
              | none =>
                  match e, cs' with
                  | 'x', d1 :: d2 :: rest =>
                      match codePoint? [d1, d2] with
                      | some c => withChar c (readBasicLines .off rest)
                      | none => none
                  | 'u', d1 :: d2 :: d3 :: d4 :: rest =>
                      match codePoint? [d1, d2, d3, d4] with
                      | some c => withChar c (readBasicLines .off rest)
                      | none => none
                  | 'U', d1 :: d2 :: d3 :: d4 :: d5 :: d6 :: d7 :: d8 :: rest =>
                      match codePoint? [d1, d2, d3, d4, d5, d6, d7, d8] with
                      | some c => withChar c (readBasicLines .off rest)
                      | none => none
                  | _, _ => none
      else if c = '\n' then withChar '\n' (readBasicLines .off cs)
      else if isControl c then none
      else withChar c (readBasicLines .off cs)

/-- Drops a line end directly behind the opening of a string of several lines. -/
def skipFirstLineEnd : List Char → List Char
  | '\n' :: cs => cs
  | '\r' :: '\n' :: cs => cs
  | cs => cs

/-- Reads a string in any of its notations, from its opening quotes on. -/
def readString? : List Char → Option (List Char × List Char)
  | '"' :: '"' :: '"' :: cs => readBasicLines .off (skipFirstLineEnd cs)
  | '\'' :: '\'' :: '\'' :: cs => readLiteralLines (skipFirstLineEnd cs)
  | '"' :: cs => readBasic cs
  | '\'' :: cs => readLiteral cs
  | _ => none

/-! ## The writer -/

/-- Whether three characters `q` stand in a row. -/
def hasTriple (q : Char) : List Char → Bool
  | a :: b :: c :: cs => (a == q && b == q && c == q) || hasTriple q (b :: c :: cs)
  | _ => false

/-- The upper-case hexadecimal digit of a number below 16. -/
def upperHex (n : Nat) : Char := ("0123456789ABCDEF".toList[n]?).getD '0'

/-- A character as a basic string with escapes writes it. -/
def escapeChar (c : Char) : List Char :=
  match c with
  | '\x08' => ['\\', 'b']
  | '\t' => ['\\', 't']
  | '\n' => ['\\', 'n']
  | '\x0c' => ['\\', 'f']
  | '\r' => ['\\', 'r']
  | '"' => ['\\', '"']
  | '\\' => ['\\', '\\']
  | c =>
      if isControl c then
        ['\\', 'u', '0', '0', upperHex (c.toNat / 16), upperHex (c.toNat % 16)]
      else [c]

/-- A character as a basic string without other escapes writes it. -/
def escapeTab (c : Char) : List Char := if c = '\t' then ['\\', 't'] else [c]

/-- Text with escapes between three quotes: line ends and up to two quotes in a
    row stand as they are.  The count is that of the quotes directly before. -/
def escapeLines (quotes : Nat) : List Char → List Char
  | [] => []
  | c :: cs =>
      if c = '"' ∧ quotes < 2 then c :: escapeLines (quotes + 1) cs
      else if c = '\n' then c :: escapeLines 0 cs
      else escapeChar c ++ escapeLines 0 cs

/-- The first notation that needs no escape but `\t`: basic, literal, basic and
    literal with three quotes; a basic string with escapes if none does.  Text of
    several lines stands between three quotes and begins on a line of its own. -/
def quote (s : String) : String :=
  let cs := s.toList
  let isLong := cs.contains '\n'
  let plain := !cs.any (fun c => isControl c && c != '\n')
  let start : List Char := if isLong then ['\n'] else []
  String.ofList <|
    if plain && !isLong && !cs.contains '"' && !cs.contains '\\' then
      ['"'] ++ cs.flatMap escapeTab ++ ['"']
    else if plain && !isLong && !cs.contains '\'' then ['\''] ++ cs ++ ['\'']
    else if plain && !cs.contains '\\' && !hasTriple '"' cs then
      ['"', '"', '"'] ++ start ++ cs.flatMap escapeTab ++ ['"', '"', '"']
    else if plain && !hasTriple '\'' cs then
      ['\'', '\'', '\''] ++ start ++ cs ++ ['\'', '\'', '\'']
    else if isLong then ['"', '"', '"', '\n'] ++ escapeLines 0 cs ++ ['"', '"', '"']
    else ['"'] ++ cs.flatMap escapeChar ++ ['"']

end SequentCalculus.Toml
