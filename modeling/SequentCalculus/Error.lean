import SequentCalculus.Grammar.Diagnostic
import SequentCalculus.Sequent.Display
import SequentCalculus.Version.Requirement

/-! # What can go wrong

    One type for every failure that leaves the library, each constructor a
    cause with the values that its message names. -/

namespace SequentCalculus

/-- Why stored bytes or a stored text are not a proof tree. -/
inductive DecodeError
  /-- The text is no document of the expected form. -/
  | text
  /-- The bytes are no storage envelope. -/
  | envelope
  /-- The envelope does not bear the magic bytes. -/
  | magic
  /-- The content of the envelope is no encoded tree. -/
  | content
  /-- A node is marked as grown without branches, or has branches unmarked. -/
  | growthMarker (root : Sequent)
  /-- A node's branches have premise counts that no rule produces. -/
  | branchShape (root : Sequent) (counts : List Nat)
  deriving DecidableEq, Repr

/-- A failure of an operation. -/
inductive Error
  | io
  | reading (e : ReadingError)
  /-- A configuration file is no table of tables of strings. -/
  | configuration (file : String)
  | unknownConnective (connective : String) (side : Option String)
  | invalidDiscipline (connective side value : String)
  | alreadyGrown (root : Sequent)
  | invalidWitness (name : String)
  /-- No rule applies to an atom. -/
  | noRule (p : Formula)
  /-- More members than partitions are enumerated for. -/
  | contextTooLarge (size : Nat)
  | decode (e : DecodeError)
  /-- The stored tree asks for another version than the one found. -/
  | incompatible (required : Requirement) (found : Version)
  /-- No worker handed in a result for a sequent. -/
  | noResult (index : Nat)
  deriving DecidableEq, Repr

/-- The counts in brackets, separated by commas. -/
def countsText (counts : List Nat) : String :=
  "[" ++ ", ".intercalate (counts.map toString) ++ "]"

/-- The text of a decoding failure; empty where the format itself is violated. -/
def DecodeError.detail : DecodeError → String
  | text | envelope | content => ""
  | magic => "invalid magic bytes in proof tree storage"
  | growthMarker root => "inconsistent growth marker under `" ++ root.display ++ "`"
  | branchShape root counts =>
      "malformed branches under `" ++ root.display ++ "`: premise counts " ++ countsText counts

/-- The text of a failure. -/
def Error.message : Error → String
  | io => "I/O error: "
  | reading e => e.message
  | configuration file => "Failed to parse rule configuration '" ++ file ++ "': "
  | unknownConnective c none => "Unknown connective `" ++ c ++ "`"
  | unknownConnective c (some side) =>
      "Unknown connective `" ++ c ++ "` on side `" ++ side ++ "`"
  | invalidDiscipline c side value =>
      "Invalid discipline `" ++ value ++ "` for connective `" ++ c ++ "` on side `" ++ side ++
        "`, expected `add` or `mul`"
  | alreadyGrown root => "Proof tree rooted at `" ++ root.display ++ "` has already been grown"
  | invalidWitness name =>
      "`" ++ name ++
        "` cannot be used as a witness: expected an identifier that is not a keyword"
  | noRule p => "No rule applies to `" ++ p.display ++ "`: it contains no complex proposition"
  | contextTooLarge size =>
      "Context of " ++ toString size ++
        " propositions is too large to enumerate its partitions (maximum 63)"
  | decode e => "Failed to decode proof tree: " ++ e.detail
  | incompatible required found =>
      "Incompatible proof tree storage. Required: " ++ required.text ++ ", found: " ++ found.text
  | noResult index => "An unknown error occurred: no result for sequent #" ++ toString index

end SequentCalculus
