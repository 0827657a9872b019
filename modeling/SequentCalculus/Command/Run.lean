import SequentCalculus.Command.Plan

/-! # Running a command line

    A plan is performed on a disk, with what it prints and reports as its
    outcome.  The events that are important enough for the run's verbosity
    become the lines of its log. -/

namespace SequentCalculus

/-! ## The log -/

namespace Event

/-- A level's name filled up to five columns. -/
def levelText (e : Event) : String :=
  e.level.name ++ "".pushn ' ' (5 - e.level.name.length)

/-- Where an event comes from. -/
def originText (e : Event) (onWorker : Bool) : String :=
  " [" ++ e.source ++ (if onWorker then "" else "@main") ++ "]"

/-- The line of an event in the log. -/
def line (coloured : Bool) (e : Event) (onWorker : Bool) : String :=
  if coloured then
    let dimmed : Look := { dimmed := true }
    dimmed.start ++ e.level.look.start ++ e.levelText ++ Look.reset ++ dimmed.start ++
      e.originText onWorker ++ Look.reset ++ " " ++ e.message
  else e.levelText ++ e.originText onWorker ++ " " ++ e.message

end Event

/-- The rank of the least important events that a run reports. -/
def logRank (verbosity : Nat) : Nat := min (verbosity + 2) 5

/-- The verbosity of an invocation. -/
def Invocation.verbosity : Invocation → Nat
  | .present o => o.verbosity
  | _ => 0

/-! ## Performing a plan -/

/-- What a run leaves behind besides files. -/
structure Outcome where
  exitCode : Nat
  output : String
  events : List (Event × Bool)
  deriving DecidableEq, Repr

/-- Performs actions on a disk; a file that cannot be written ends the run. -/
def performActions (exitCode : Nat) (d : Disk) : List Action → Disk × Outcome
  | [] => (d, ⟨exitCode, "", []⟩)
  | .print text :: as =>
      let (d, o) := performActions exitCode d as
      (d, { o with output := text ++ o.output })
  | .log event onWorker :: as =>
      let (d, o) := performActions exitCode d as
      (d, { o with events := (event, onWorker) :: o.events })
  | .explain _ _ :: as => performActions exitCode d as
  | .save p content :: as =>
      match d.save p content with
      | (d, true) => performActions exitCode d as
      | (d, false) => (d, ⟨1, "", [(.failed .io, false)]⟩)

/-- What a run on a disk knows of its surroundings. -/
def Disk.surroundings (d : Disk) (env : Environment) (available : Nat) (schedule : List Nat) :
    Surroundings :=
  ⟨env, d.entry, available, schedule⟩

/-- Runs a command line on a disk. -/
def Disk.run (d : Disk) (env : Environment) (available : Nat) (schedule : List Nat)
    (args : List String) : Disk × Outcome :=
  let plan := (d.surroundings env available schedule).plan (Invocation.parse? args)
  performActions plan.exitCode d plan.actions

/-- The lines that a run writes to its log. -/
def logLines (env : Environment) (args : List String) (events : List (Event × Bool)) :
    List String :=
  let verbosity := (Invocation.parse? args).elim 0 Invocation.verbosity
  (events.filter fun (e, _) => e.level.rank ≤ logRank verbosity).map fun (e, onWorker) =>
    e.line env.isColoured onWorker

end SequentCalculus
