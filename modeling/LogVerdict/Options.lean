import LogVerdict.Text.Blank
import LogVerdict.Text.LowerCase
/-!
# Options — how a check is to be made

Flags of the command line come first and the environment second.  A variable turns something on by its value, so it can
also turn it off again.
-/
namespace LogVerdict

/-- The flags of the command line; one is an alias of the other. -/
structure Flags where
  verbose : Bool := false
  debug : Bool := false
  deriving DecidableEq, Repr

def Flags.join (a b : Flags) : Flags := ⟨a.verbose || b.verbose, a.debug || b.debug⟩

abbrev Environment := String → Option String

structure Options where
  verbose : Bool
  color : Bool
  deriving DecidableEq, Repr

/-- A value that turns a variable on: any but none, "0" and "false", whatever blanks stand around it and whatever its
letter case. -/
def isOn (value : String) : Bool :=
  let v := Text.lowerCase (Text.trim value.toList)
  v != [] && v != ['0'] && v != ['f', 'a', 'l', 's', 'e']

namespace Environment

def names : List String := ["UNITY_SUMMARY_DEBUG", "DEBUG", "NO_COLOR", "FORCE_COLOR", "TERM", "CI"]

def ofList (values : List (String × String)) : Environment := (List.lookup · values)

def turnsOn (env : Environment) (name : String) : Bool := (env name).any isOn

def gives (env : Environment) (name : String) : Bool := (env name).any (· != "")

end Environment

def Options.resolve (flags : Flags) (env : Environment) (color : Bool) : Options :=
  ⟨flags.verbose || flags.debug || env.turnsOn "UNITY_SUMMARY_DEBUG" || env.turnsOn "DEBUG", color⟩

/-- Whether a process uses colour.  A refusal wins; failing that, a request, a terminal that can show colour, or a
build server is enough.  Any argument counts, also a path. -/
def usesColor (env : Environment) (argv : List String) (terminal : Bool) : Bool :=
  !(env.gives "NO_COLOR" || argv.contains "--no-color") &&
    (env.gives "FORCE_COLOR" || argv.contains "--color" || (terminal && env "TERM" != some "dumb") || env.gives "CI")

end LogVerdict
