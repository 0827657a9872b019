import SequentCalculus.File.Disk
import SequentCalculus.Log.Event
import SequentCalculus.Rule.Discipline
import SequentCalculus.Toml.Document

/-! # Rule sets in files

    A rule set is written as a TOML document with a table for each connective
    that has a choice, in the order of their symbols.  Reading accepts any
    document that describes a table of tables of strings and leaves the rest to
    `RuleSet.ofTable`. -/

namespace SequentCalculus

/-- The strings of a table whose values are all strings. -/
def stringsOf? : List (String × Toml.Value) → Option (List (String × String))
  | [] => some []
  | (k, .string s) :: es => (stringsOf? es).map ((k, s) :: ·)
  | _ => none

/-- The key under which a date counts as a table. -/
def datetimeKey : String := "$__toml_private_datetime"

/-- The table of strings that a value describes.  A date counts as a table with
    a single entry. -/
def stringTable? : Toml.Value → Option (Table String)
  | .table es => (stringsOf? es).map Table.ofList
  | .datetime literal => some (Table.ofList [(datetimeKey, literal)])
  | _ => none

/-- The table of tables that a document describes. -/
def ruleTable? (es : List (String × Toml.Value)) : Option RuleTable := do
  let sides ← es.mapM fun (k, v) => (stringTable? v).map ((k, ·))
  some (Table.ofList sides)

namespace RuleSet

/-- Reads a rule set from a text; `file` names its source in messages. -/
def ofText (text file : String) : Except Error RuleSet :=
  match (Toml.parse? text).bind ruleTable? with
  | some t => ofTable t
  | none => .error (.configuration file)

/-- Whether a key can be written without quotes. -/
def isBareKey (k : String) : Bool := !k.isEmpty && k.toList.all Toml.isBareKeyChar

/-- A key as it is written in a header. -/
def keyText (k : String) : String := if isBareKey k then k else Toml.quote k

/-- A table of strings under its header. -/
def sectionText (k : String) (sides : Table String) : String :=
  "[" ++ keyText k ++ "]\n" ++
    String.join (sides.entries.map fun (side, v) =>
      keyText side ++ " = " ++ Toml.quote v ++ "\n")

/-- The text of a rule set. -/
def toText (r : RuleSet) : String :=
  "\n".intercalate (r.toTable.entries.map fun (k, sides) => sectionText k sides)

/-- The rule set in the file at a path. -/
def load (p : Path) (e : Entry) : Except Error RuleSet :=
  match e.text with
  | .error e => .error e
  | .ok s => ofText s p.text

/-- The events of reading a rule set from a source. -/
def loadedEvents (file : String) : Except Error RuleSet → List Event
  | .ok r => [.rulesLoaded file r]
  | .error _ => []

end RuleSet

end SequentCalculus
