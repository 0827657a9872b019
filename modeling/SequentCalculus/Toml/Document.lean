import SequentCalculus.Toml.Quoted
import SequentCalculus.Toml.Scalar

/-! # TOML documents

    A document is read in two stages.  The first reads its lines into items:
    headers `[a.b]`, headers of list elements `[[a.b]]`, and entries
    `a.b = value`.  The second puts the items together into one table and
    refuses what defines a name twice.

    A table may be extended depending on how it came about, so drafts of tables
    remember it: opened by its own header, implied by the header of a table
    below it, or implied by a dotted key. -/

namespace SequentCalculus.Toml

/-! ## Keys, blanks and comments -/

def isBareKeyChar (c : Char) : Bool := c.isAlphanum || c == '_' || c == '-'

def skipBlanks (cs : List Char) : List Char := cs.dropWhile fun c => c == ' ' || c == '\t'

/-- Reads a single key. -/
def readKey? : List Char → Option (String × List Char)
  | '"' :: cs => (readBasic cs).map fun (k, rest) => (String.ofList k, rest)
  | '\'' :: cs => (readLiteral cs).map fun (k, rest) => (String.ofList k, rest)
  | cs =>
      let k := cs.takeWhile isBareKeyChar
      if k.isEmpty then none else some (String.ofList k, cs.dropWhile isBareKeyChar)

/-- Reads at most `limit` keys separated by dots, and the blanks behind them. -/
def readPath? (limit : Nat) (cs : List Char) : Option (List String × List Char) :=
  match limit with
  | 0 => none
  | limit + 1 => do
      let (k, cs) ← readKey? cs
      match skipBlanks cs with
      | '.' :: rest =>
          let (ks, rest) ← readPath? limit (skipBlanks rest)
          some (k :: ks, rest)
      | rest => some ([k], rest)

/-- Skips a comment up to the end of its line. -/
def skipComment : List Char → Option (List Char)
  | [] => some []
  | '\n' :: cs => some ('\n' :: cs)
  | '\r' :: '\n' :: cs => some ('\r' :: '\n' :: cs)
  | c :: cs => if isControl c then none else skipComment cs

/-- Goes to the next line; only blanks and a comment may stand before it. -/
def endLine? (cs : List Char) : Option (List Char) := do
  let cs ← match skipBlanks cs with
    | '#' :: rest => skipComment rest
    | rest => some rest
  match cs with
  | [] => some []
  | '\n' :: rest => some rest
  | '\r' :: '\n' :: rest => some rest
  | _ => none

/-- Skips blanks, line ends and comments; `fuel` bounds their number. -/
def skipLines? (fuel : Nat) (cs : List Char) : Option (List Char) :=
  match fuel with
  | 0 => none
  | fuel + 1 =>
      match skipBlanks cs with
      | '\n' :: rest => skipLines? fuel rest
      | '\r' :: '\n' :: rest => skipLines? fuel rest
      | '#' :: rest =>
          match skipComment rest with
          | some rest => skipLines? fuel rest
          | none => none
      | rest => some rest

/-! ## Drafts of tables -/

/-- How a table came about. -/
inductive Origin
  /-- Its own header, or an element of a list of tables. -/
  | header
  /-- The header of a table below it. -/
  | implied
  /-- A dotted key. -/
  | dotted
  deriving DecidableEq, Repr

/-- A part of a document that may still be extended. -/
inductive Draft
  /-- A value written in one piece. -/
  | closed (v : Value)
  | table (origin : Origin) (entries : List (String × Draft))
  /-- A list of tables with headers of their own, last first. -/
  | series (elements : List (List (String × Draft)))

/-- The entries of a table under construction. -/
abbrev Entries := List (String × Draft)

/-- Replaces the entry of a key. -/
def replaceEntry (k : String) (d : Draft) : Entries → Entries
  | [] => []
  | (k', d') :: es => if k' = k then (k, d) :: es else (k', d') :: replaceEntry k d es

/-- Adds an entry with a new key. -/
def addEntry (k : String) (d : Draft) (es : Entries) : Option Entries :=
  match es.lookup k with
  | some _ => none
  | none => some (es ++ [(k, d)])

/-- Changes the table at the end of a path.  Missing tables are made on the way;
    in a list of tables the way leads through the last one.  A dotted path may
    not pass a table that has a header of its own. -/
def changeAt (isDotted : Bool) (change : Origin → Entries → Option Entries) :
    List String → Origin → Entries → Option Entries
  | [], origin, es => change origin es
  | k :: ks, _, es =>
      match es.lookup k with
      | none =>
          let origin := if isDotted then .dotted else .implied
          (changeAt isDotted change ks origin []).map fun sub => es ++ [(k, .table origin sub)]
      | some (.closed _) => none
      | some (.series []) => none
      | some (.series (last :: before)) =>
          (changeAt isDotted change ks .header last).map fun sub =>
            replaceEntry k (.series (sub :: before)) es
      | some (.table origin sub) =>
          if isDotted && origin == .header then none
          else
            (changeAt isDotted change ks origin sub).map fun sub =>
              replaceEntry k (.table origin sub) es

/-- Splits a path into the way and the last key. -/
def splitLast (k : String) : List String → List String × String
  | [] => ([], k)
  | k' :: ks =>
      let (way, last) := splitLast k' ks
      (k :: way, last)

/-- Adds the entry of a dotted key to a table. -/
def assign (path : List String) (v : Value) (es : Entries) : Option Entries :=
  match path with
  | [] => none
  | [k] => addEntry k (.closed v) es
  | k :: ks =>
      let (way, last) := splitLast k ks
      changeAt true
        (fun origin sub => if origin = .dotted then addEntry last (.closed v) sub else none)
        way .header es

/-- Opens the table of a header. -/
def openTable (path : List String) (es : Entries) : Option Entries :=
  match path with
  | [] => none
  | k :: ks =>
      let (way, last) := splitLast k ks
      changeAt false
        (fun _ sub =>
          match sub.lookup last with
          | none => some (sub ++ [(last, .table .header [])])
          | some (.table .implied inner) => some (replaceEntry last (.table .header inner) sub)
          | some _ => none)
        way .header es

/-- Opens the next table of a list of tables. -/
def openElement (path : List String) (es : Entries) : Option Entries :=
  match path with
  | [] => none
  | k :: ks =>
      let (way, last) := splitLast k ks
      changeAt false
        (fun _ sub =>
          match sub.lookup last with
          | none => some (sub ++ [(last, .series [[]])])
          | some (.series elements) => some (replaceEntry last (.series ([] :: elements)) sub)
          | some _ => none)
        way .header es

mutual

/-- The value that a draft has come to. -/
def Draft.value : Draft → Value
  | .closed v => v
  | .table _ es => .table (entriesValue es)
  | .series elements => .array (seriesValues elements).reverse

/-- The entries of a finished table. -/
def entriesValue : List (String × Draft) → List (String × Value)
  | [] => []
  | (k, d) :: es => (k, d.value) :: entriesValue es

/-- The finished tables of a list, in the same order. -/
def seriesValues : List (List (String × Draft)) → List Value
  | [] => []
  | es :: rest => .table (entriesValue es) :: seriesValues rest

end

/-! ## Values -/

/-- Reads the elements of a list up to its end; `fuel` bounds the characters
    left, and so their number. -/
def readElements? (readValue : List Char → Option (Value × List Char)) (fuel : Nat)
    (cs : List Char) : Option (List Value × List Char) :=
  match fuel with
  | 0 => none
  | fuel + 1 => do
      let cs ← skipLines? (fuel + 1) cs
      match cs with
      | ']' :: rest => some ([], rest)
      | _ =>
          let (v, cs) ← readValue cs
          let cs ← skipLines? (fuel + 1) cs
          match cs with
          | ',' :: rest =>
              let (vs, rest) ← readElements? readValue fuel rest
              some (v :: vs, rest)
          | ']' :: rest => some ([v], rest)
          | _ => none

/-- Reads a key, an equals sign and a value; `skip` drops what may stand on both
    sides of the sign. -/
def readEntry? (skip : List Char → Option (List Char))
    (readValue : List Char → Option (Value × List Char)) (cs : List Char) :
    Option (List String × Value × List Char) := do
  let (path, cs) ← readPath? nestingLimit cs
  match ← skip cs with
  | '=' :: rest =>
      let (v, rest) ← readValue (← skip rest)
      some (path, v, rest)
  | _ => none

/-- Reads the entries of an inline table up to its end, adding to those read so
    far.  Lines may end anywhere but inside a key.  `fuel` bounds the characters
    left, and so the number of entries. -/
def readInline? (readValue : List Char → Option (Value × List Char)) (fuel : Nat)
    (es : Entries) (cs : List Char) : Option (Entries × List Char) :=
  match fuel with
  | 0 => none
  | fuel + 1 => do
      let cs ← skipLines? (fuel + 1) cs
      match cs with
      | '}' :: rest => some (es, rest)
      | _ =>
          let (path, v, cs) ← readEntry? (skipLines? (fuel + 1)) readValue cs
          let es ← assign path v es
          let cs ← skipLines? (fuel + 1) cs
          match cs with
          | ',' :: rest => readInline? readValue fuel es rest
          | '}' :: rest => some (es, rest)
          | _ => none

/-- Reads a value that may nest `room` further lists and tables. -/
def readValue? (room : Nat) (cs : List Char) : Option (Value × List Char) :=
  match cs with
  | '"' :: _ => (readString? cs).map fun (s, rest) => (.string (String.ofList s), rest)
  | '\'' :: _ => (readString? cs).map fun (s, rest) => (.string (String.ofList s), rest)
  | '[' :: rest =>
      match room with
      | 0 => none
      | room + 1 =>
          (readElements? (readValue? room) (rest.length + 1) rest).map fun (vs, rest) =>
            (.array vs, rest)
  | '{' :: rest =>
      match room with
      | 0 => none
      | room + 1 =>
          (readInline? (readValue? room) (rest.length + 1) [] rest).map fun (es, rest) =>
            (.table (entriesValue es), rest)
  | _ => readScalar? cs

/-! ## Lines -/

/-- A line of a document that says something. -/
inductive Item
  | header (path : List String)
  | elementHeader (path : List String)
  | entry (path : List String) (v : Value)

/-- Reads one item to the end of its line. -/
def readItem? (cs : List Char) : Option (Item × List Char) :=
  match cs with
  | '[' :: '[' :: rest => do
      let (path, rest) ← readPath? nestingLimit (skipBlanks rest)
      match rest with
      | ']' :: ']' :: rest => some (.elementHeader path, ← endLine? rest)
      | _ => none
  | '[' :: rest => do
      let (path, rest) ← readPath? nestingLimit (skipBlanks rest)
      match rest with
      | ']' :: rest => some (.header path, ← endLine? rest)
      | _ => none
  | _ => do
      let (path, v, rest) ← readEntry? (fun cs => some (skipBlanks cs)) (readValue? nestingLimit) cs
      some (.entry path v, ← endLine? rest)

/-- The document under construction: its entries, and the table that further
    entries go to. -/
structure Assembly where
  root : Entries := []
  current : List String := []

/-- Puts one more item into the document. -/
def Assembly.add (d : Assembly) : Item → Option Assembly
  | .header path => (openTable path d.root).map fun root => ⟨root, path⟩
  | .elementHeader path => (openElement path d.root).map fun root => ⟨root, path⟩
  | .entry path v =>
      (changeAt false (fun _ es => assign path v es) d.current .header d.root).map fun root =>
        { d with root := root }

/-- Reads the lines of a document; `fuel` bounds their number. -/
def readLines? (fuel : Nat) (d : Assembly) (cs : List Char) : Option Assembly :=
  match fuel with
  | 0 => none
  | fuel + 1 =>
      match skipBlanks cs with
      | [] => some d
      | '\n' :: rest => readLines? fuel d rest
      | '\r' :: '\n' :: rest => readLines? fuel d rest
      | '#' :: rest =>
          match skipComment rest with
          | some rest => readLines? fuel d rest
          | none => none
      | cs =>
          match readItem? cs with
          | none => none
          | some (item, rest) =>
              match d.add item with
              | none => none
              | some d => readLines? fuel d rest

/-- Reads a document; a byte order mark in front is skipped. -/
def parse? (text : String) : Option (List (String × Value)) :=
  let cs := match text.toList with
    | '\ufeff' :: rest => rest
    | cs => cs
  (readLines? (cs.length + 1) {} cs).map fun d => entriesValue d.root

end SequentCalculus.Toml
