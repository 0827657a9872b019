import SequentCalculus.Toml.Quoted

/-! # Numbers in TOML

    The spelling of a number decides whether it may stand in a document; whether
    a program can read it is a question of its own.  Integers can be read from
    the least 128-bit signed to the greatest 128-bit unsigned number, and decimal
    fractions if a double is large enough for them.

    Some spellings have the outline of an integer and spell none, such as `0x`
    without digits, or `1_a`: behind an underscore any hexadecimal digit is let
    through. -/

namespace SequentCalculus.Toml

/-- A number of a document. -/
inductive Numeral
  | integer (n : Int)
  /-- The number `mantissa · 10 ^ exponent`. -/
  | fraction (mantissa exponent : Int)
  /-- An infinite number, or none. -/
  | special
  /-- The outline of an integer that spells no number. -/
  | hollow
  deriving DecidableEq, Repr

/-! ## Reading a number -/

/-- Whether an integer is in the range that can be read. -/
def inRange (n : Int) : Bool := -Int.pow 2 127 ≤ n && n < Int.pow 2 128

/-- Whether `m · 10 ^ e` is small enough to be rounded to a finite double: less
    than the midpoint between the greatest double and the next power of two.
    Far from the bound the number of digits decides. -/
def isFinite (m : Nat) (e : Int) : Bool :=
  let magnitude : Int := (toString m).length + e
  if m = 0 ∨ magnitude < 300 then true
  else if 320 < magnitude then false
  else
    let bound := Nat.pow 2 1024 - Nat.pow 2 970
    if 0 ≤ e then m * Nat.pow 10 e.toNat < bound else m < bound * Nat.pow 10 (-e).toNat

/-- Whether a number can be read. -/
def Numeral.isReadable : Numeral → Bool
  | integer n => inRange n
  | fraction m e => isFinite m.natAbs e
  | special => true
  | hollow => false

/-! ## Digits and underscores -/

/-- The value of a digit in a base up to sixteen. -/
def digit? (base : Nat) (c : Char) : Option Nat := (hexDigit? c).filter (· < base)

/-- The number that digits in a base spell, or nothing if one is no digit. -/
def ofDigits? (base : Nat) (ds : List Char) : Option Nat :=
  ds.foldlM (fun n d => (digit? base d).map (base * n + ·)) 0

/-- Whether each underscore stands behind a digit and before one.  The flag says
    whether a digit stands directly before. -/
def isSpaced (isDigit : Char → Bool) (afterDigit : Bool) : List Char → Bool
  | [] => true
  | ['_'] => false
  | '_' :: c :: cs => afterDigit && isDigit c && isSpaced isDigit true cs
  | c :: cs => isSpaced isDigit (isDigit c) cs

/-- Drops the underscores of a number. -/
def dropUnderscores (cs : List Char) : List Char := cs.filter (· != '_')

/-- A sign in front, and the rest. -/
def splitSign : List Char → Option Char × List Char
  | '+' :: cs => (some '+', cs)
  | '-' :: cs => (some '-', cs)
  | cs => (none, cs)

/-- A number with a sign in front. -/
def withSign (sign : Option Char) (n : Nat) : Int :=
  if sign = some '-' then -Int.ofNat n else Int.ofNat n

/-! ## Integers -/

/-- The integer that digits spell, if there are any and they do. -/
def integerOf (base : Nat) (sign : Option Char) (ds : List Char) : Numeral :=
  match ds, ofDigits? base ds with
  | _ :: _, some n => .integer (withSign sign n)
  | _, _ => .hollow

/-- An integer in a base other than ten, behind the mark of its base. -/
def based? (base : Nat) (ds : List Char) : Option Numeral :=
  let isDigit := fun c => (digit? base c).isSome
  if ds.all (fun c => isDigit c || c == '_') && isSpaced isDigit false ds then
    some (integerOf base none (dropUnderscores ds))
  else none

/-- A decimal integer with underscores. -/
def spacedInteger? (sign : Option Char) (cs : List Char) : Option Numeral :=
  if cs.head? ≠ some '0' ∧ isSpaced (fun c => (digit? 16 c).isSome) false cs then
    some (integerOf 10 sign (dropUnderscores cs))
  else none

/-! ## Decimal fractions -/

/-- The digits in front, which may hold underscores, and the rest. -/
def digitRun? (cs : List Char) : Option (List Char × List Char) :=
  let isRun := fun (c : Char) => c.isDigit || c == '_'
  let ds := dropUnderscores (cs.takeWhile isRun)
  if ds.isEmpty then none else some (ds, cs.dropWhile isRun)

/-- The places behind a point, if there is one, and the rest. -/
def places? : List Char → Option (List Char × List Char)
  | '.' :: cs => digitRun? cs
  | cs => some ([], cs)

/-- The exponent that the characters spell; zero if there are none. -/
def exponent? : List Char → Option Int
  | [] => some 0
  | mark :: cs =>
      if mark = 'e' ∨ mark = 'E' then
        let (sign, cs) := splitSign cs
        match digitRun? cs with
        | some (ds, []) => (ofDigits? 10 ds).map (withSign sign)
        | _ => none
      else none

/-- A decimal fraction: digits without superfluous zeros in front, then a
    fraction, an exponent or both. -/
def fraction? (sign : Option Char) (cs : List Char) : Option Numeral := do
  let (whole, rest) ← digitRun? cs
  let (places, rest) ← places? rest
  let e ← exponent? rest
  let m ← ofDigits? 10 (whole ++ places)
  if (1 < whole.length ∧ cs.head? = some '0') ∨ !isSpaced Char.isDigit false cs then none
  else some (.fraction (withSign sign m) (e - Int.ofNat places.length))

/-! ## All numbers -/

/-- The number whose spelling is given. -/
def numeral? (cs : List Char) : Option Numeral :=
  match cs with
  | '0' :: 'x' :: ds => based? 16 ds
  | '0' :: 'o' :: ds => based? 8 ds
  | '0' :: 'b' :: ds => based? 2 ds
  | _ =>
      let (sign, body) := splitSign cs
      if body = ['i', 'n', 'f'] ∨ body = ['n', 'a', 'n'] then some .special
      else
        match body.dropWhile Char.isDigit with
        | [] =>
            if body = [] ∨ (1 < body.length ∧ body.head? = some '0') then none
            else some (integerOf 10 sign body)
        | c :: rest =>
            if (c :: rest).any (fun d => d == '.' || d == 'e' || d == 'E') then fraction? sign body
            else if c = '_' then spacedInteger? sign body
            else none

end SequentCalculus.Toml
