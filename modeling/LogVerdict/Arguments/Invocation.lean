import LogVerdict.Arguments.Suggestion
import LogVerdict.Options
import LogVerdict.Text.Blank
import LogVerdict.Text.Decimal
/-!
# Arguments.Invocation — what a command line asks for

Arguments are read from left to right.  A bundle of short flags is taken apart one flag at a time, so an argument is
read for the flags it holds and for what is left of it (`Argument`).  The first option that is not known turns
everything after it, flags apart, into arguments that are not understood; a terminator ends the options.
-/
namespace LogVerdict.Arguments

inductive Meaning
  | flags
  | terminator
  | version
  | operand
  | unknown (option : String)
  deriving DecidableEq, Repr

structure Argument where
  flags : Flags
  meaning : Meaning
  deriving DecidableEq, Repr

/-- An argument that starts with a dash, read from what follows the dash.  A short flag in front of anything else is
set, and what follows it is read as if the dash stood before it. -/
def Argument.ofDashed (flags : Flags) : List Char → Argument
  | [] => ⟨flags, .operand⟩
  | ['-'] => ⟨flags, .terminator⟩
  | ['v'] => ⟨{ flags with verbose := true }, .flags⟩
  | 'v' :: c :: body => ofDashed { flags with verbose := true } (c :: body)
  | 'V' :: _ => ⟨flags, .version⟩
  | body =>
    if body = ['-', 'v', 'e', 'r', 'b', 'o', 's', 'e'] then ⟨{ flags with verbose := true }, .flags⟩
    else if body = ['-', 'd', 'e', 'b', 'u', 'g'] then ⟨{ flags with debug := true }, .flags⟩
    else if body = ['-', 'v', 'e', 'r', 's', 'i', 'o', 'n'] then ⟨flags, .version⟩
    else ⟨flags, .unknown (String.ofList ('-' :: body))⟩

/-- Reads one argument.  A lone dash is an operand, like everything that starts with no dash. -/
def Argument.read (argument : String) : Argument :=
  match argument.toList with
  | '-' :: body => .ofDashed {} body
  | _ => ⟨{}, .operand⟩

structure CommandLine where
  flags : Flags := {}
  operands : List String := []
  unknown : List String := []
  deriving DecidableEq, Repr

namespace CommandLine

def setFlags (l : CommandLine) (flags : Flags) : CommandLine := { l with flags := flags.join l.flags }

/-- An argument in front, among the operands or, behind an unknown option, among what is not understood. -/
def put (l : CommandLine) (late : Bool) (argument : String) : CommandLine :=
  if late then { l with unknown := argument :: l.unknown } else { l with operands := argument :: l.operands }

/-- What follows a terminator.  Behind an unknown option the terminator itself is not understood either. -/
def afterTerminator (late : Bool) (rest : List String) : CommandLine :=
  if late then { unknown := "--" :: rest } else { operands := rest }

/-- Takes arguments apart that come behind an unknown option or not; `none` where one of them asks for the version. -/
def ofArguments (late : Bool) : List String → Option CommandLine
  | [] => some {}
  | argument :: rest =>
    let a := Argument.read argument
    match a.meaning with
    | .version => none
    | .terminator => some ((afterTerminator late rest).setFlags a.flags)
    | .flags => (ofArguments late rest).map (·.setFlags a.flags)
    | .operand => (ofArguments late rest).map (·.put late argument)
    | .unknown option => (ofArguments true rest).map fun l => (l.put true option).setFlags a.flags

end CommandLine

inductive Rejection
  | unknownOption (option : String)
  | missingOperand
  | tooManyOperands (count : Nat)
  deriving DecidableEq, Repr

def Rejection.notice : Rejection → String
  | unknownOption option => "error: unknown option '" ++ option ++ "'" ++ suggestion option ++ "\n"
  | missingOperand => "error: missing required argument 'log-file'\n"
  | tooManyOperands count =>
    "error: too many arguments. Expected 1 argument but got " ++ Text.Decimal.print count ++ ".\n"

def Rejection.message (r : Rejection) : String := String.ofList (Text.trimEnd r.notice.toList)

inductive Invocation
  | version
  | help
  | check (path : String) (flags : Flags)
  | rejected (cause : Rejection)
  deriving DecidableEq, Repr

/-- What a command line that has been taken apart asks for.  Help is asked for only among what is not understood. -/
def Invocation.ofCommandLine (l : CommandLine) : Invocation :=
  if "-h" ∈ l.unknown ∨ "--help" ∈ l.unknown then .help
  else
    match l.unknown, l.operands with
    | option :: _, _ => .rejected (.unknownOption option)
    | [], [] => .rejected .missingOperand
    | [], [path] => .check path l.flags
    | [], operands => .rejected (.tooManyOperands operands.length)

def Invocation.read (argv : List String) : Invocation :=
  match CommandLine.ofArguments false argv with
  | none => .version
  | some l => .ofCommandLine l

end LogVerdict.Arguments
