import LogVerdict.Arguments.Invocation
import LogVerdict.Report
import LogVerdict.Transcript
/-!
# Check — a run of the program

`Check.run` is the whole program as a function: from the command line, its surroundings and what reading a path gives to
what is written and the exit code.  A path is read only where the command line asks for a check.
-/
namespace LogVerdict

open Arguments (Invocation)

def version : String := "1.0.0"

def helpText : String :=
  "Usage: " ++ programName ++ " [options] <log-file>\n" ++
  "\n" ++
  "🧪  Turn the Unity test summary in an emulator log into an exit code\n" ++
  "\n" ++
  "Arguments:\n" ++
  "  log-file       Captured serial/emulator log to scan (after -- if it starts\n" ++
  "                 with \"-\")\n" ++
  "\n" ++
  "Options:\n" ++
  "  -V, --version  output the version number\n" ++
  "  -v, --verbose  Print debug details to stderr (default: false)\n" ++
  "  --debug        Alias for --verbose (default: false)\n" ++
  "  -h, --help     display help for command\n"

structure Setting where
  environment : Environment
  color : Bool
  interactive : Bool

namespace Check

/-- What a watched check says before it reads a log. -/
def announcement (interactive : Bool) (path : String) : List Write :=
  if interactive then [⟨.err, "- Reading " ++ path ++ "\n"⟩] else []

def debugWrites (options : Options) (o : Outcome) : List Write :=
  if options.verbose then Write.lines .err ((Report.details o).map (Report.debugLine options.color)) else []

def reportWrites (color : Bool) (o : Outcome) : List Write :=
  let report := Report.ofOutcome color o
  Write.lines .out report.out ++ Write.lines .err report.err

def perform (setting : Setting) (read : String → Reading) : Invocation → Transcript
  | .version => ⟨[⟨.out, version ++ "\n"⟩], 0⟩
  | .help => ⟨[⟨.out, helpText⟩], 0⟩
  | .rejected cause =>
    let o := Outcome.invalidArguments cause.message
    ⟨reportWrites setting.color o, o.exitCode⟩
  | .check path flags =>
    let options := Options.resolve flags setting.environment setting.color
    let o := Outcome.ofReading path (read path)
    ⟨announcement setting.interactive path ++ (debugWrites options o ++ reportWrites setting.color o), o.exitCode⟩

def run (setting : Setting) (argv : List String) (read : String → Reading) : Transcript :=
  perform setting read (.read argv)

/-! ## What arrives of a check -/

@[simp] theorem textOn_out_announcement (interactive : Bool) (path : String) :
    textOn .out (announcement interactive path) = "" := by
  cases interactive <;> rfl

@[simp] theorem textOn_err_announcement (interactive : Bool) (path : String) :
    textOn .err (announcement interactive path) = if interactive then "- Reading " ++ path ++ "\n" else "" := by
  cases interactive
  · rfl
  · simp [announcement, textOn]

@[simp] theorem textOn_out_debugWrites (options : Options) (o : Outcome) : textOn .out (debugWrites options o) = "" := by
  unfold debugWrites
  split
  · exact textOn_lines_of_ne (by decide) _
  · rfl

@[simp] theorem textOn_err_debugWrites (options : Options) (o : Outcome) :
    textOn .err (debugWrites options o)
      = if options.verbose then joinLines ((Report.details o).map (Report.debugLine options.color)) else "" := by
  unfold debugWrites
  split
  · exact textOn_lines_self _ _
  · rfl

@[simp] theorem textOn_out_reportWrites (color : Bool) (o : Outcome) :
    textOn .out (reportWrites color o) = joinLines (Report.ofOutcome color o).out := by
  unfold reportWrites
  rw [textOn_append, textOn_lines_self, textOn_lines_of_ne (by decide), String.append_empty]

@[simp] theorem textOn_err_reportWrites (color : Bool) (o : Outcome) :
    textOn .err (reportWrites color o) = joinLines (Report.ofOutcome color o).err := by
  unfold reportWrites
  rw [textOn_append, textOn_lines_self, textOn_lines_of_ne (by decide), String.empty_append]

/-- What arrives of a check: the report's lines, and on standard error what is said before them. -/
theorem deliver_perform_check (setting : Setting) (read : String → Reading) (path : String) (flags : Flags) :
    (perform setting read (.check path flags)).deliver none =
      let o := Outcome.ofReading path (read path)
      ⟨joinLines (Report.ofOutcome setting.color o).out,
        (if setting.interactive then "- Reading " ++ path ++ "\n" else "") ++
          ((if (Options.resolve flags setting.environment setting.color).verbose
            then joinLines ((Report.details o).map (Report.debugLine setting.color)) else "") ++
          joinLines (Report.ofOutcome setting.color o).err),
        .exited o.exitCode⟩ := by
  unfold Transcript.deliver
  rw [deliver_none]
  simp [perform, Options.resolve]

end Check
end LogVerdict
