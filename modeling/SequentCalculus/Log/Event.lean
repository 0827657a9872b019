import SequentCalculus.Error
import SequentCalculus.File.Path
import SequentCalculus.Rule.Discipline

/-! # Events — what the library reports while it works

    An event is kept as what happened; its level, the part of the program that
    reports it and its message are read off it. -/

namespace SequentCalculus

/-- How much an event matters. -/
inductive Level
  | error
  | warn
  | info
  | debug
  | trace
  deriving DecidableEq, Repr

namespace Level

def name : Level → String
  | error => "ERROR"
  | warn => "WARN"
  | info => "INFO"
  | debug => "DEBUG"
  | trace => "TRACE"

/-- The higher, the less an event matters. -/
def rank : Level → Nat
  | error => 1
  | warn => 2
  | info => 3
  | debug => 4
  | trace => 5

/-- How a level looks on a terminal. -/
def look : Level → Look
  | error => { bold := true, colour := some .red }
  | warn => { bold := true, colour := some .yellow }
  | info => { colour := some .green }
  | debug => { colour := some .blue }
  | trace => { dimmed := true, colour := some .magenta }

end Level

/-- Something worth reporting. -/
inductive Event
  /-- A sequent was found to be atomic. -/
  | atomic (s : Sequent)
  /-- A rule was applied backwards. -/
  | decomposed (s : Sequent) (alternatives : Nat)
  | growing (s : Sequent)
  | grown (s : Sequent) (depth leaves alternatives : Nat)
  | split (s : Sequent) (trees : Nat)
  | growingMany (total workers : Nat)
  | workerGrows (worker index : Nat)
  | rulesLoaded (file : String) (rules : RuleSet)
  | encoding (required : Requirement)
  | decoding (size : Nat)
  /-- Stored bytes are no envelope. -/
  | envelopeMalformed
  | magicWrong
  /-- The content of an envelope is no tree. -/
  | contentMalformed
  | markerInconsistent (root : Sequent)
  | branchesMalformed (root : Sequent) (counts : List Nat)
  | incompatible (required : Requirement) (found : Version)
  | saved (path : Path)
  | loading (path : Path)
  /-- A rule file is not overwritten. -/
  | rulesExist (path : Path)
  /-- There is no rule file, and the default rules are used. -/
  | rulesMissing (path : Path)
  | treeLoaded (root : Sequent) (path : Path)
  | treeSaved (root : Sequent) (path : Path)
  | nothingToDo
  /-- A run ended with a failure. -/
  | failed (e : Error)
  deriving DecidableEq, Repr

namespace Event

def level : Event → Level
  | atomic _ | split _ _ | workerGrows _ _ | encoding _ | decoding _ => .trace
  | decomposed _ _ | growing _ | grown _ _ _ _ | growingMany _ _ | rulesLoaded _ _ | saved _
  | loading _ => .debug
  | treeLoaded _ _ | treeSaved _ _ => .info
  | rulesMissing _ => .warn
  | envelopeMalformed | magicWrong | contentMalformed | markerInconsistent _
  | branchesMalformed _ _ | incompatible _ _ | rulesExist _ | nothingToDo | failed _ => .error

/-- The part of the program that reports the event. -/
def source : Event → String
  | atomic _ | decomposed _ _ => "seqcore::decomposer"
  | growing _ | grown _ _ _ _ | split _ _ => "seqcore::tree"
  | growingMany _ _ | workerGrows _ _ => "seqcore::batch"
  | rulesLoaded _ _ => "seqcore::rules"
  | encoding _ | decoding _ | envelopeMalformed | magicWrong | contentMalformed
  | markerInconsistent _ | branchesMalformed _ _ | incompatible _ _ | saved _ | loading _ =>
      "seqcore::storage"
  | rulesExist _ | rulesMissing _ | treeLoaded _ _ | treeSaved _ _ | nothingToDo | failed _ =>
      "seqtree"

/-- A path and the format that it asks for. -/
def pathText (p : Path) : String := p.text ++ " (" ++ (StorageFormat.ofPath p).name ++ ")"

def message : Event → String
  | atomic s => "`" ++ s.display ++ "` is atomic"
  | decomposed s n =>
      s.tag.text ++ " on `" ++ s.display ++ "` gives " ++ toString n ++ " alternative(s)"
  | growing s => "Growing proof tree for `" ++ s.display ++ "`"
  | grown s depth leaves alternatives =>
      "Grown `" ++ s.display ++ "`: depth " ++ toString depth ++ ", " ++ toString leaves ++
        " leaves, " ++ toString alternatives ++ " alternative derivation(s)"
  | split s n => "Split `" ++ s.display ++ "` into " ++ toString n ++ " tree(s)"
  | growingMany total workers =>
      "Growing " ++ toString total ++ " proof tree(s) on " ++ toString workers ++ " worker(s)"
  | workerGrows worker index =>
      "Worker " ++ toString worker ++ " grows sequent #" ++ toString index
  | rulesLoaded file rules =>
      "Loaded rule configuration from " ++ file ++ ": " ++ rules.describe
  | encoding required =>
      "Serializing proof tree storage wrapper with version requirement " ++ required.text
  | decoding size => "Deserializing proof tree storage (" ++ toString size ++ " bytes)"
  | envelopeMalformed => "Failed to deserialize proof tree storage wrapper: "
  | magicWrong => "Invalid magic bytes in proof tree storage"
  | contentMalformed => "Failed to deserialize proof tree: "
  | markerInconsistent root => "Inconsistent growth marker under `" ++ root.display ++ "`"
  | branchesMalformed root counts =>
      "Malformed branches under `" ++ root.display ++ "`: premise counts " ++ countsText counts
  | incompatible required found =>
      "Incompatible proof tree storage: required " ++ required.text ++ ", found " ++ found.text
  | saved path => "Saved proof tree to " ++ pathText path
  | loading path => "Loading proof tree from " ++ pathText path
  | rulesExist path => path.text ++ " already exists, pass --force to overwrite it"
  | rulesMissing path =>
      "No rule configuration at " ++ path.text ++
        ", using multiplicative rules (see `seqtree init-rules`)"
  | treeLoaded root path => "Loaded proof tree for `" ++ root.display ++ "` from " ++ path.text
  | treeSaved root path => "Saved proof tree for `" ++ root.display ++ "` to " ++ path.text
  | nothingToDo => "Nothing to do: give at least one sequent or --load a tree"
  | failed e => e.message

end Event

end SequentCalculus
