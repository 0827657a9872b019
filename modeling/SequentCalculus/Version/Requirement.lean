/-! # Version requirements

    A requirement is a list of comparators such as `^1.2`, `>=0.1, <0.3` or
    `1.*`; a version meets it when it meets every comparator, and the empty
    list, written `*`, is met by all.  Missing parts of a comparator leave the
    corresponding parts of the version open.

    The versions compared here are releases.  A comparator may still name a
    pre-release, and a release comes after all pre-releases with its numbers. -/

namespace SequentCalculus

/-- A release. -/
structure Version where
  major : Nat
  minor : Nat
  patch : Nat
  deriving DecidableEq, Repr

/-- The text of a version. -/
def Version.text (v : Version) : String :=
  toString v.major ++ "." ++ toString v.minor ++ "." ++ toString v.patch

/-- How a comparator relates a version to its own numbers. -/
inductive Relation
  | exact
  | greater
  | greaterEq
  | less
  | lessEq
  | tilde
  | caret
  | wildcard
  deriving DecidableEq, Repr

/-- The sign of a relation; a wildcard is written behind the numbers instead. -/
def Relation.sign : Relation → String
  | exact => "="
  | greater => ">"
  | greaterEq => ">="
  | less => "<"
  | lessEq => "<="
  | tilde => "~"
  | caret => "^"
  | wildcard => ""

/-- One condition on a version.  The patch number is only given together with
    the minor one, and the pre-release, empty for none, only with both. -/
structure Comparator where
  relation : Relation
  major : Nat
  minor : Option Nat
  patch : Option Nat
  pre : String
  deriving DecidableEq, Repr

namespace Comparator

/-- The text of a comparator. -/
def text (c : Comparator) : String :=
  let wild := if c.relation = .wildcard then ".*" else ""
  c.relation.sign ++ toString c.major ++
    match c.minor, c.patch with
    | none, _ => wild
    | some minor, none => "." ++ toString minor ++ wild
    | some minor, some patch =>
        "." ++ toString minor ++ "." ++ toString patch ++
          (if c.pre.isEmpty then "" else "-" ++ c.pre)

/-- Whether all numbers given agree with the version and no pre-release is meant. -/
def isExact (c : Comparator) (v : Version) : Bool :=
  v.major == c.major && c.minor.all (· == v.minor) && c.patch.all (· == v.patch) && c.pre.isEmpty

/-- Whether the version comes after everything the comparator describes. -/
def isExceeded (c : Comparator) (v : Version) : Bool :=
  if v.major ≠ c.major then c.major < v.major
  else
    match c.minor with
    | none => false
    | some minor =>
        if v.minor ≠ minor then minor < v.minor
        else
          match c.patch with
          | none => false
          | some patch => if v.patch ≠ patch then patch < v.patch else !c.pre.isEmpty

/-- Whether the version comes before everything the comparator describes. -/
def isAhead (c : Comparator) (v : Version) : Bool :=
  if v.major ≠ c.major then v.major < c.major
  else
    match c.minor with
    | none => false
    | some minor =>
        if v.minor ≠ minor then v.minor < minor
        else
          match c.patch with
          | none => false
          | some patch => v.patch < patch

/-- Whether the version differs from the comparator in its patch number at most,
    and is not below it. -/
def isPatched (c : Comparator) (v : Version) : Bool :=
  v.major == c.major && c.minor.all (· == v.minor) && c.patch.all (· ≤ v.patch)

/-- Whether the version is compatible: not below the comparator and equal to it
    up to the leftmost number that is not zero. -/
def isCompatible (c : Comparator) (v : Version) : Bool :=
  v.major == c.major &&
    match c.minor, c.patch with
    | none, _ => true
    | some minor, none => if 0 < c.major then minor ≤ v.minor else minor == v.minor
    | some minor, some patch =>
        if 0 < c.major then minor < v.minor || (minor == v.minor && patch ≤ v.patch)
        else if 0 < minor then minor == v.minor && patch ≤ v.patch
        else minor == v.minor && patch == v.patch

/-- Whether a version meets the comparator. -/
def admits (c : Comparator) (v : Version) : Bool :=
  match c.relation with
  | .exact | .wildcard => c.isExact v
  | .greater => c.isExceeded v
  | .greaterEq => c.isExact v || c.isExceeded v
  | .less => c.isAhead v
  | .lessEq => c.isExact v || c.isAhead v
  | .tilde => c.isPatched v
  | .caret => c.isCompatible v

end Comparator

/-- Conditions that a version has to meet together. -/
structure Requirement where
  comparators : List Comparator
  deriving DecidableEq, Repr

namespace Requirement

/-- The text of a requirement. -/
def text (r : Requirement) : String :=
  match r.comparators with
  | [] => "*"
  | cs => ", ".intercalate (cs.map Comparator.text)

/-- Whether a version meets every comparator. -/
def admits (r : Requirement) (v : Version) : Bool := r.comparators.all (·.admits v)

/-- The requirement that only one version meets. -/
def exactly (v : Version) : Requirement :=
  ⟨[⟨.exact, v.major, some v.minor, some v.patch, ""⟩]⟩

/-! ## Reading -/

/-- The most comparators in one requirement. -/
def maxComparators : Nat := 32

/-- The largest number in a version. -/
def maxNumber : Nat := 0xffffffffffffffff

def skipSpaces (cs : List Char) : List Char := cs.dropWhile (· == ' ')

/-- The rest after a wildcard sign. -/
def afterWildcard? : List Char → Option (List Char)
  | '*' :: cs => some cs
  | 'x' :: cs => some cs
  | 'X' :: cs => some cs
  | _ => none

/-- Reads a number without leading zeros. -/
def number? (cs : List Char) : Option (Nat × List Char) :=
  let ds := cs.takeWhile Char.isDigit
  let n := ds.foldl (fun n d => 10 * n + (d.toNat - '0'.toNat)) 0
  if ds.isEmpty || (1 < ds.length && ds.head? == some '0') || maxNumber < n then none
  else some (n, cs.dropWhile Char.isDigit)

/-- Reads a sign in front of the numbers; without one the relation is `caret`. -/
def relation : List Char → Relation × List Char
  | '=' :: cs => (.exact, cs)
  | '>' :: '=' :: cs => (.greaterEq, cs)
  | '>' :: cs => (.greater, cs)
  | '<' :: '=' :: cs => (.lessEq, cs)
  | '<' :: cs => (.less, cs)
  | '~' :: cs => (.tilde, cs)
  | '^' :: cs => (.caret, cs)
  | cs => (.caret, cs)

/-- A character of a pre-release or build name. -/
def isLabelChar (c : Char) : Bool := c.isAlphanum || c == '-' || c == '.'

/-- Cuts a list at every character `c`. -/
def segments (c : Char) : List Char → List (List Char)
  | [] => [[]]
  | a :: cs =>
      if a = c then [] :: segments c cs
      else
        match segments c cs with
        | [] => [[a]]
        | s :: ss => (a :: s) :: ss

/-- Whether a part of a pre-release name is a number with a leading zero. -/
def hasLeadingZero (s : List Char) : Bool :=
  1 < s.length && s.all Char.isDigit && s.head? == some '0'

/-- Reads a pre-release or build name: parts separated by dots, none empty, and
    in a pre-release none a number with a leading zero. -/
def label? (isPre : Bool) (cs : List Char) : Option (String × List Char) :=
  let name := cs.takeWhile isLabelChar
  let parts := segments '.' name
  if parts.any List.isEmpty || (isPre && parts.any hasLeadingZero) then none
  else some (String.ofList name, cs.dropWhile isLabelChar)

/-- One number behind a dot, or a wildcard in its place. -/
inductive Part
  | absent
  | wild
  | number (n : Nat)
  deriving DecidableEq, Repr

def Part.value? : Part → Option Nat
  | number n => some n
  | _ => none

/-- Reads a dot with a number or a wildcard, if there is a dot. -/
def part? : List Char → Option (Part × List Char)
  | '.' :: cs =>
      match afterWildcard? cs with
      | some rest => some (.wild, rest)
      | none => (number? cs).map fun (n, rest) => (.number n, rest)
  | cs => some (.absent, cs)

/-- Reads the names behind the numbers: a pre-release, kept, and a build, not
    kept.  They may only follow a patch number. -/
def labels? (cs : List Char) : Option (String × List Char) := do
  let (pre, cs) ←
    match cs with
    | '-' :: rest => label? true rest
    | _ => some ("", cs)
  match cs with
  | '+' :: rest => do
      let (_, cs) ← label? false rest
      some (pre, cs)
  | _ => some (pre, cs)

/-- Reads one comparator and the spaces behind it. -/
def comparator? (cs : List Char) : Option (Comparator × List Char) := do
  let (signed, rest) := relation cs
  let bare := rest.length == cs.length
  let (major, rest) ← number? (skipSpaces rest)
  let (minor, rest) ← part? rest
  let (patch, rest) ← part? rest
  if minor = .wild ∧ patch.value?.isSome then none
  else
    let wild := minor = .wild ∨ patch = .wild
    let relation := if bare ∧ wild then .wildcard else signed
    let (pre, rest) ← if patch.value?.isSome then labels? rest else some ("", rest)
    some (⟨relation, major, minor.value?, patch.value?, pre⟩, skipSpaces rest)

/-- Reads up to `limit` comparators, separated by commas, to the end. -/
def comparators? (limit : Nat) (cs : List Char) : Option (List Comparator) :=
  match limit with
  | 0 => none
  | limit + 1 =>
      match comparator? cs with
      | none => none
      | some (c, []) => some [c]
      | some (c, ',' :: rest) => (comparators? limit (skipSpaces rest)).map (c :: ·)
      | some (_, _ :: _) => none

/-- Reads a requirement: a lone wildcard, or comparators. -/
def parse? (s : String) : Option Requirement :=
  let cs := skipSpaces s.toList
  match afterWildcard? cs with
  | some rest => if (skipSpaces rest).isEmpty then some ⟨[]⟩ else none
  | none => (comparators? maxComparators cs).map Requirement.mk

end Requirement

end SequentCalculus
