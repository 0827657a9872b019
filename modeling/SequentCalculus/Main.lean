import SequentCalculus.Command.Run

/-! # The command

    Reads the files that the command line names, plans the run, and performs the
    plan on the file system and the standard streams. -/

namespace SequentCalculus

/-- What stands at a path of the file system.  Anything there that cannot be
    read as a file counts as a directory. -/
def entryAt (p : Path) : IO Entry := do
  try
    let content ← IO.FS.readBinFile p.text
    return .file content.toList
  catch
    | .noFileOrDirectory .. => return .missing
    | .inappropriateType .. => return .directory
    | .resourceExhausted .. => return .directory
    | .permissionDenied .. => return .directory
    | _ => return if p.text.isEmpty then .missing else .directory

/-- The variables of the environment that matter. -/
def readEnvironment : IO Environment := do
  return {
    rules := ← IO.getEnv "SEQTREE_RULES"
    configHome := ← IO.getEnv "XDG_CONFIG_HOME"
    home := ← IO.getEnv "HOME"
    terminal := ← IO.getEnv "TERM"
    noColour := ← IO.getEnv "NO_COLOR" }

/-- The paths that a run reads. -/
def Invocation.readPaths (env : Environment) : Invocation → List Path
  | .initRules file _ _ => [file.getD env.rulesPath]
  | .present o => o.load.toList ++ [o.rules.getD env.rulesPath]
  | _ => []

/-- Writes a file after making the directories above it. -/
def saveFile (p : Path) (content : List UInt8) : IO Bool := do
  try
    match p.parent? with
    | some parent => if !parent.text.isEmpty then IO.FS.createDirAll parent.text
    | none => pure ()
    IO.FS.writeBinFile p.text (ByteArray.mk content.toArray)
    return true
  catch _ => return false

/-- Performs the actions of a plan in turn and gives the exit code. -/
def runActions (report : Event → Bool → IO Unit) (exitCode : Nat) : List Action → IO Nat
  | [] => return exitCode
  | .print text :: as => do
      IO.print text
      runActions report exitCode as
  | .log event onWorker :: as => do
      report event onWorker
      runActions report exitCode as
  | .explain number e :: as => do
      IO.eprintln s!"sequent {number}: {e.message}"
      runActions report exitCode as
  | .save p content :: as => do
      if ← saveFile p content then runActions report exitCode as
      else
        report (.failed .io) false
        return 1

end SequentCalculus

open SequentCalculus in
/-- The entry point of the command. -/
def main (args : List String) : IO UInt32 := do
  let env ← readEnvironment
  let invocation := Invocation.parse? args
  let paths := invocation.elim [] (·.readPaths env)
  let entries ← paths.mapM fun p => do return (p, ← entryAt p)
  let view := fun p => (entries.lookup p).getD .missing
  let plan := (Surroundings.mk env view 1 []).plan invocation
  if plan.exitCode = 2 then
    IO.eprintln "usage: seqtree [OPTIONS] [SEQUENTS]... | seqtree init-rules [OPTIONS] [FILE]"
  let rank := logRank (invocation.elim 0 Invocation.verbosity)
  let report := fun (e : Event) onWorker => do
    if e.level.rank ≤ rank then IO.eprintln (e.line env.isColoured onWorker)
  let code ← runActions report plan.exitCode plan.actions
  return code.toUInt32
