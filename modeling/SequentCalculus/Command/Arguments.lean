import SequentCalculus.File.Path

/-! # Command lines

    A command line is read word by word.  Options and sequents may stand in any
    order; an option with a value takes the next word, or what follows it in
    its own word; short options may share a word; and `--` ends the options.
    A request for the version or for help ends the reading at once, so it wins
    over what follows it and loses to an error before it. -/

namespace SequentCalculus

/-- The options of a run that shows trees. -/
structure Options where
  rules : Option Path := none
  names : List String := []
  split : Bool := false
  save : Option Path := none
  load : Option Path := none
  jobs : Option Nat := none
  verbosity : Nat := 0
  sequents : List String := []
  deriving DecidableEq, Repr, Inhabited

/-- What the command is asked to do. -/
inductive Invocation
  | help
  | version
  /-- Write a rule file. -/
  | initRules (file : Option Path) (additive force : Bool)
  /-- Grow or load trees and show them. -/
  | present (options : Options)
  deriving DecidableEq, Repr

/-- The options that take a value. -/
inductive ValuedOption
  | rules
  | names
  | save
  | load
  | jobs
  deriving DecidableEq, Repr

/-- How far the reading of a command line has come. -/
inductive ArgumentState (α : Type)
  | reading (options : α)
  /-- The next word is the value of an option. -/
  | awaiting (v : ValuedOption) (options : α)
  | finished (i : Invocation)

/-! ## Values -/

/-- The largest number of jobs that can be asked for. -/
def maxJobs : Nat := 0xffffffffffffffff

/-- Reads a number of jobs: decimal digits with an optional plus sign. -/
def jobs? (s : String) : Option Nat :=
  let digits := match s.toList with
    | '+' :: cs => cs
    | cs => cs
  if digits.isEmpty || !digits.all Char.isDigit then none
  else
    let n := digits.foldl (fun n c => 10 * n + (c.toNat - '0'.toNat)) 0
    if n ≤ maxJobs then some n else none

/-- Reads a path, which has to be non-empty. -/
def path? (s : String) : Option Path := if s.isEmpty then none else some ⟨s⟩

/-- Sets a value that may be given only once. -/
def setOnce {α : Type} (old new : Option α) : Option α :=
  match old with
  | some _ => none
  | none => new

/-- The pieces of a list of names between its commas. -/
def commaSeparated : List Char → List (List Char)
  | [] => [[]]
  | c :: cs =>
      match commaSeparated cs with
      | [] => [[c]]
      | piece :: rest => if c = ',' then [] :: piece :: rest else (c :: piece) :: rest

namespace Options

/-- Gives an option its value. -/
def give (o : Options) (v : ValuedOption) (value : String) : Option Options :=
  match v with
  | .rules => (setOnce o.rules (path? value)).map fun p => { o with rules := some p }
  | .save => (setOnce o.save (path? value)).map fun p => { o with save := some p }
  | .load => (setOnce o.load (path? value)).map fun p => { o with load := some p }
  | .jobs => (setOnce o.jobs (jobs? value)).map fun n => { o with jobs := some n }
  | .names =>
      some { o with names := o.names ++ (commaSeparated value.toList).map String.ofList }

/-- Asks for all derivations, which may be done only once. -/
def setSplit (o : Options) : Option Options :=
  if o.split then none else some { o with split := true }

/-- One step more of verbosity. -/
def moreVerbose (o : Options) : Options := { o with verbosity := o.verbosity + 1 }

end Options

/-! ## Words -/

/-- The options with a value, by name. -/
def valuedOption? : String → Option ValuedOption
  | "rules" => some .rules
  | "names" => some .names
  | "save" => some .save
  | "load" => some .load
  | "jobs" => some .jobs
  | _ => none

/-- Splits a long option at its first equals sign. -/
def splitAtEquals (cs : List Char) : String × Option String :=
  match cs.span (· != '=') with
  | (name, _ :: value) => (String.ofList name, some (String.ofList value))
  | (name, []) => (String.ofList name, none)

/-- Reads what follows the two dashes of a long option. -/
def Options.readLong (o : Options) (cs : List Char) : Option (ArgumentState Options) :=
  let (name, value) := splitAtEquals cs
  match valuedOption? name, value with
  | some v, some value => (o.give v value).map .reading
  | some v, none => some (.awaiting v o)
  | none, some _ => none
  | none, none =>
      match name with
      | "split" => o.setSplit.map .reading
      | "verbose" => some (.reading o.moreVerbose)
      | "version" => some (.finished .version)
      | "help" => some (.finished .help)
      | _ => none

/-- Reads what follows the dash of short options. -/
def Options.readShort (o : Options) : List Char → Option (ArgumentState Options)
  | [] => some (.reading o)
  | 'v' :: cs => o.moreVerbose.readShort cs
  | 'V' :: _ => some (.finished .version)
  | 'h' :: _ => some (.finished .help)
  | ['j'] => some (.awaiting .jobs o)
  | 'j' :: '=' :: cs => (o.give .jobs (String.ofList cs)).map .reading
  | 'j' :: cs => (o.give .jobs (String.ofList cs)).map .reading
  | _ => none

/-- Whether a word can only be an option. -/
def isOptionWord (w : String) : Bool :=
  match w.toList with
  | '-' :: _ :: _ => true
  | _ => false

/-- Reads one word. -/
def Options.readWord (o : Options) (w : String) : Option (ArgumentState Options) :=
  match w.toList with
  | '-' :: '-' :: cs => o.readLong cs
  | '-' :: c :: cs => o.readShort (c :: cs)
  | _ => some (.reading { o with sequents := o.sequents ++ [w] })

/-- Reads the words of a run that shows trees. -/
def readOptions : ArgumentState Options → List String → Option Invocation
  | .finished i, _ => some i
  | .reading o, [] => some (.present o)
  | .awaiting _ _, [] => none
  | .awaiting v o, w :: ws =>
      if isOptionWord w then none
      else (o.give v w).bind fun o => readOptions (.reading o) ws
  | .reading o, w :: ws =>
      if w = "--" then some (.present { o with sequents := o.sequents ++ ws })
      else (o.readWord w).bind fun st => readOptions st ws

/-! ## Writing rule files -/

/-- Names the file to write, which may be done only once. -/
def nameFile? (file : Option Path) (w : String) : Option Path := setOnce file (path? w)

/-- Reads the words that follow the end of options. -/
def readFiles (file : Option Path) (additive force : Bool) : List String → Option Invocation
  | [] => some (.initRules file additive force)
  | w :: ws => (nameFile? file w).bind fun p => readFiles (some p) additive force ws

/-- Reads the words of a run that writes a rule file. -/
def readInitRules (file : Option Path) (additive force : Bool) :
    List String → Option Invocation
  | [] => some (.initRules file additive force)
  | w :: ws =>
      match w with
      | "--" => readFiles file additive force ws
      | "--additive" => if additive then none else readInitRules file true force ws
      | "--force" => if force then none else readInitRules file additive true ws
      | "--help" => some .help
      | _ =>
          match w.toList with
          | '-' :: 'h' :: _ => some .help
          | '-' :: _ :: _ => none
          | _ => (nameFile? file w).bind fun p => readInitRules (some p) additive force ws

/-- Reads the words that follow a request for help on a subject. -/
def readHelp : List String → Option Invocation
  | [] => some .help
  | ["init-rules"] => some .help
  | ["help"] => some .help
  | _ => none

/-- Reads a command line; there is no result if it is malformed. -/
def Invocation.parse? : List String → Option Invocation
  | "init-rules" :: ws => readInitRules none false false ws
  | "help" :: ws => readHelp ws
  | ws => readOptions (.reading {}) ws

end SequentCalculus
