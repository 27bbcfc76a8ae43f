import LogVerdict.Outcome
import LogVerdict.Style
/-!
# Report — what the user sees of an outcome

A completed run is reported on standard output, everything else on standard error.  Colour marks lines but never
changes what they say.
-/
namespace LogVerdict

def programName : String := "unity-summary-check"

def usage : String := "Usage: " ++ programName ++ " [--] <log-file>  (put -- before a path starting with \"-\")"

def likelyCauses : List String :=
  ["Tests didn't complete (emulator timeout)",
   "The firmware crashed before printing a summary",
   "Unity framework wasn't properly initialized",
   "Output was truncated"]

structure Report where
  out : List String
  err : List String
  deriving DecidableEq, Repr

namespace Report

open Text.Decimal (print)

def count (color : Bool) (style : Style) (n : Int) : String :=
  if n = 0 then print n else style.paintIf color (print n)

def verdict (color : Bool) (failures : Int) : Status → String
  | .allPassed => Style.green.paintIf color "✅ All tests passed!"
  | .someFailed => Style.red.paintIf color ("❌ " ++ print failures ++ " test(s) failed")

def completed (color : Bool) (status : Status) (s : Summary) : List String :=
  [Style.bold.paintIf color "Test Results:",
   "  Total Tests: " ++ print s.tests,
   "  Failures: " ++ count color .red s.failures,
   "  Ignored: " ++ count color .yellow s.ignored,
   "",
   verdict color s.failures status]

def error (color : Bool) (message : String) : String := Style.red.paintIf color "Error:" ++ " " ++ message

/-- A failure's code in parentheses, where there is one. -/
def codeNote : Option String → String
  | none => ""
  | some code => if code = "" then "" else " (" ++ code ++ ")"

def fileMissing (path : String) (code : Option String) : Reason → String
  | .notFound => "Log file not found: " ++ path
  | .unreadable => "Cannot read log file " ++ path ++ codeNote code

def ofOutcome (color : Bool) : Outcome → Report
  | .completed status _ e _ => ⟨completed color status e.summary, []⟩
  | .summaryNotFound path _ =>
    ⟨[], error color ("Unity test summary not found in " ++ path) :: "" :: "This usually means:" ::
      likelyCauses.map ("  - " ++ ·)⟩
  | .fileMissing path reason code => ⟨[], [error color (fileMissing path code reason)]⟩
  | .invalidArguments message => ⟨[], if message = "" then [usage] else [message, usage]⟩

/-- What a verbose check says of an outcome before it reports it. -/
def details : Outcome → List String
  | .completed _ path e bytes =>
    ["read " ++ print bytes ++ " bytes from " ++ path,
     "found " ++ print e.matchCount ++ " summary line" ++ (if e.matchCount = 1 then "" else "s")
       ++ ", using the one at offset " ++ print e.offset]
  | .summaryNotFound path bytes => ["read " ++ print bytes ++ " bytes from " ++ path, "found 0 summary lines"]
  | .fileMissing path _ code => ["could not read " ++ path ++ codeNote code]
  | .invalidArguments _ => []

def debugLine (color : Bool) (detail : String) : String := Style.dim.paintIf color ("debug: " ++ detail)

end Report
end LogVerdict
