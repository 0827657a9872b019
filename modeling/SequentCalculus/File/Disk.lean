import SequentCalculus.Error
import SequentCalculus.File.Path
import SequentCalculus.Text.Utf8

/-! # Files and directories

    A disk holds files and directories, each at the list of names that leads to
    it from the root.  A run works in one of the directories: paths are followed
    segment by segment, absolute ones from the root and all others from the
    working directory.  A segment leads on only from a directory, and `..` leads
    back up, as far as the root.

    Names and paths have a greatest length, and hold no zero character.  There are
    no links, there is room for every file, and nothing is closed to the run. -/

namespace SequentCalculus

/-- What stands at a path. -/
inductive Entry
  | missing
  | directory
  | file (content : List UInt8)
  deriving DecidableEq, Repr

/-- Whether there is something at a path. -/
def Entry.isPresent : Entry → Bool
  | missing => false
  | _ => true

/-- The bytes of a file, if there is one. -/
def Entry.bytes : Entry → Except Error (List UInt8)
  | file content => .ok content
  | _ => .error .io

/-- The text of a file, if there is one in valid UTF-8. -/
def Entry.text (e : Entry) : Except Error String :=
  match e.bytes with
  | .error e => .error e
  | .ok bs =>
      match utf8Text? bs with
      | some s => .ok s
      | none => .error .io

/-- All files and directories, each at its names from the root on, and the
    directory in which a run works.  The directories on the way to this one are
    there without being listed. -/
structure Disk where
  working : List (List Char) := []
  files : List (List (List Char) × List UInt8) := []
  directories : List (List (List Char)) := []

/-- The greatest number of bytes in a name. -/
def nameLimit : Nat := 255

/-- The greatest number of bytes in a path. -/
def pathLimit : Nat := 4095

/-- Where a path leads. -/
inductive Place
  | directory (names : List (List Char))
  | file (names : List (List Char)) (content : List UInt8)
  /-- Nothing has this name in an existing directory. -/
  | vacant (names : List (List Char))
  /-- The way leads on from a name that nothing has. -/
  | missing
  /-- The way leads on from a file, or it cannot be followed at all. -/
  | barred

namespace Disk

/-- The content of the file at the given names, if there is a file. -/
def fileAt? (d : Disk) (names : List (List Char)) : Option (List UInt8) := d.files.lookup names

/-- Whether there is a directory at the given names. -/
def hasDirectory (d : Disk) (names : List (List Char)) : Bool :=
  names.isPrefixOf d.working || d.directories.contains names

/-- What stands at the given names, in an existing directory. -/
def placeOf (d : Disk) (names : List (List Char)) : Place :=
  match d.fileAt? names with
  | some content => .file names content
  | none => if d.hasDirectory names then .directory names else .vacant names

/-- Follows one segment.  The root is the directory above itself. -/
def follow (d : Disk) (segment : List Char) : Place → Place
  | .directory names =>
      if segment.isEmpty || segment == ['.'] then .directory names
      else if segment == ['.', '.'] then .directory names.dropLast
      else if nameLimit < (String.ofList segment).utf8ByteSize then .barred
      else d.placeOf (names ++ [segment])
  | .vacant _ => .missing
  | .missing => .missing
  | .file _ _ => .barred
  | .barred => .barred

/-- Follows several segments. -/
def followAll (d : Disk) (segments : List (List Char)) (from_ : Place) : Place :=
  segments.foldl (fun at_ s => d.follow s at_) from_

/-- Where a path begins: at the root, or in the working directory. -/
def origin (d : Disk) (p : Path) : Place := .directory (if p.isAbsolute then [] else d.working)

/-- Follows a path. -/
def place (d : Disk) (p : Path) : Place :=
  if p.text.isEmpty then .missing
  else if p.text.contains '\x00' || pathLimit < p.text.utf8ByteSize then .barred
  else d.followAll p.segments (d.origin p)

/-- What stands at a path. -/
def entry (d : Disk) (p : Path) : Entry :=
  match d.place p with
  | .directory _ => .directory
  | .file _ content => .file content
  | _ => .missing

/-- Makes a directory in an existing one, unless it is there: the disk left
    behind, and whether there is a directory now.  The empty path stands for the
    working directory. -/
def makeDirectory (d : Disk) (p : Path) : Disk × Bool :=
  if p.text.isEmpty then (d, true)
  else
    match d.place p with
    | .directory _ => (d, true)
    | .vacant names => ({ d with directories := names :: d.directories }, true)
    | _ => (d, false)

/-- Makes a directory, and first those above it if the way there is missing.
    What was made stays if a later one cannot be made. -/
def makeDirectories (d : Disk) (p : Path) : List Path → Disk × Bool
  | [] => d.makeDirectory p
  | q :: above =>
      match d.place p with
      | .missing =>
          match d.makeDirectories q above with
          | (d, true) => d.makeDirectory p
          | (d, false) => (d, false)
      | _ => d.makeDirectory p

/-- The disk with a file at the given names, in the place of any file there. -/
def put (d : Disk) (names : List (List Char)) (content : List UInt8) : Disk :=
  { d with files := (names, content) :: d.files.filter (·.1 != names) }

/-- Writes a file into an existing directory. -/
def write (d : Disk) (p : Path) (content : List UInt8) : Option Disk :=
  match d.place p with
  | .file names _ => some (d.put names content)
  | .vacant names => some (d.put names content)
  | _ => none

/-- Makes the directories above a path. -/
def prepare (d : Disk) (p : Path) : Disk × Bool :=
  match p.ancestors with
  | parent :: above => d.makeDirectories parent above
  | [] => (d, true)

/-- Writes a file after making the directories above it: the disk left behind,
    and whether the file was written. -/
def save (d : Disk) (p : Path) (content : List UInt8) : Disk × Bool :=
  match d.prepare p with
  | (d, false) => (d, false)
  | (d, true) =>
      match d.write p content with
      | some d => (d, true)
      | none => (d, false)

/-- The names of a file below the working directory, from there on. -/
def below? (d : Disk) (names : List (List Char)) : Option (List (List Char)) :=
  if d.working.isPrefixOf names then some (names.drop d.working.length) else none

/-- The files below the working directory with their paths from there on. -/
def listing (d : Disk) : List (String × List UInt8) :=
  d.files.filterMap fun (names, content) =>
    (d.below? names).map fun names => ("/".intercalate (names.map String.ofList), content)

end Disk

end SequentCalculus
