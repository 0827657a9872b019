/-! # Paths of files

    A path is a text whose segments are separated by slashes.  Repeated and
    trailing slashes and segments `.` say nothing about which file is meant,
    except a `.` at the very beginning, so the parts of a path leave them out.

    The file name is the last part, unless that is `..`.  Its extension is what
    follows the last dot, unless the name begins with that dot. -/

namespace SequentCalculus

/-- A path as it is written. -/
structure Path where
  text : String
  deriving DecidableEq, Repr, Inhabited

namespace Path

/-- The segments between slashes, with the number of characters up to the end
    of each; `pos` characters stand before the text. -/
def segmentsFrom (pos : Nat) : List Char → List (List Char × Nat)
  | [] => [([], pos)]
  | c :: cs =>
      if c = '/' then ([], pos) :: segmentsFrom (pos + 1) cs
      else
        match segmentsFrom (pos + 1) cs with
        | [] => [([c], pos + 1)]
        | (s, stop) :: rest => (c :: s, stop) :: rest

/-- All segments, also those that say nothing. -/
def segments (p : Path) : List (List Char) := (segmentsFrom 0 p.text.toList).map (·.1)

/-- Whether the path begins at the root. -/
def isAbsolute (p : Path) : Bool := p.text.toList.head? == some '/'

/-- Whether a segment says something wherever it stands. -/
def counts (s : List Char) : Bool := !s.isEmpty && s != ['.']

/-- The segments that count.  A `.` counts only as the first one. -/
def partsOf : List (List Char × Nat) → List (List Char × Nat)
  | [] => []
  | first :: rest =>
      if first.1 == ['.'] then first :: rest.filter (fun s => counts s.1)
      else (first :: rest).filter (fun s => counts s.1)

/-- The segments that count, each with the number of characters up to its end. -/
def parts (p : Path) : List (List Char × Nat) := partsOf (segmentsFrom 0 p.text.toList)

/-- The last part, if it names a file. -/
def fileName? (p : Path) : Option (List Char) :=
  match p.parts.getLast? with
  | some (s, _) => if s == ['.', '.'] || s == ['.'] then none else some s
  | none => none

/-- The paths that remain as the last part is dropped again and again, longest
    first, up to the root or the empty path. -/
def ancestors (p : Path) : List Path :=
  match p.parts.reverse with
  | [] => []
  | _ :: above =>
      (above.map fun (_, stop) => (⟨String.ofList (p.text.toList.take stop)⟩ : Path)) ++
        [⟨if p.isAbsolute then "/" else ""⟩]

/-- The path without its last part; the root and the empty path have none. -/
def parent? (p : Path) : Option Path := p.ancestors.head?

/-- Splits a name at its last dot. -/
def splitAtLastDot (name : List Char) : List Char × Option (List Char) :=
  match name.reverse.span (· != '.') with
  | (after, _ :: before) => (before.reverse, some after.reverse)
  | (_, []) => (name, none)

/-- The file name without its extension. -/
def stem (name : List Char) : List Char :=
  match splitAtLastDot name with
  | ([], _) => name
  | (before, _) => before

/-- The extension of a file name. -/
def extensionOf? (name : List Char) : Option (List Char) :=
  match splitAtLastDot name with
  | ([], _) => none
  | (_, after) => after

/-- The extension of the path's file name. -/
def extension? (p : Path) : Option (List Char) := p.fileName?.bind extensionOf?

/-- The path with another one below it.  An absolute path replaces it. -/
def push (p : Path) (q : String) : Path :=
  if q.toList.head? == some '/' then ⟨q⟩
  else
    match p.text.toList.getLast? with
    | none => ⟨q⟩
    | some '/' => ⟨p.text ++ q⟩
    | some _ => ⟨p.text ++ "/" ++ q⟩

/-- The path with its file name replaced, or with one added if it has none. -/
def withFileName (p : Path) (name : String) : Path :=
  match p.fileName?, p.parent? with
  | some _, some parent => parent.push name
  | _, _ => p.push name

/-- Where the tree with the given index is saved, of `total` trees: under the
    path itself if it is the only one, and otherwise under the file name with
    the number of the tree behind its stem. -/
def numbered (p : Path) (index total : Nat) : Path :=
  if total ≤ 1 then p
  else
    let name := p.fileName?.getD []
    let number := "-" ++ toString (index + 1)
    let file := String.ofList (stem name) ++ number ++
      match extensionOf? name with
      | some ext => "." ++ String.ofList ext
      | none => ""
    p.withFileName file

end Path

/-- The formats of stored trees. -/
inductive StorageFormat
  | text
  | binary
  deriving DecidableEq, Repr

namespace StorageFormat

/-- The format that a path asks for: text for the extension `toml`, in any
    case of its letters, and binary otherwise. -/
def ofPath (p : Path) : StorageFormat :=
  match p.extension? with
  | some ext => if ext.map Char.toLower == ['t', 'o', 'm', 'l'] then text else binary
  | none => binary

/-- The name of a format. -/
def name : StorageFormat → String
  | text => "Text"
  | binary => "Binary"

end StorageFormat

end SequentCalculus
