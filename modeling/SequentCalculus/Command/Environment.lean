import SequentCalculus.File.Path

/-! # The environment of a run — where rules are looked for, and colours -/

namespace SequentCalculus

/-- The variables of the environment that matter. -/
structure Environment where
  rules : Option String := none
  configHome : Option String := none
  home : Option String := none
  terminal : Option String := none
  noColour : Option String := none
  deriving DecidableEq, Repr, Inhabited

namespace Environment

/-- The rule file used when none is named: the one that the environment names,
    or one in the user's configuration directory. -/
def rulesPath (env : Environment) : Path :=
  match env.rules with
  | some p => ⟨p⟩
  | none =>
      let base : Path :=
        match env.configHome, env.home with
        | some c, _ => (Path.mk "").push c
        | none, some h => ((Path.mk "").push h).push ".config"
        | none, none => ⟨""⟩
      (base.push "seqtree").push "rules.toml"

/-- Whether output is coloured: on any terminal but a dumb one, unless colours
    are switched off. -/
def isColoured (env : Environment) : Bool :=
  match env.terminal with
  | none => false
  | some t => t != "dumb" && env.noColour.isNone

end Environment

end SequentCalculus
