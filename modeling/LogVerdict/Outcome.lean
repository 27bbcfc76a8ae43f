import LogVerdict.Summary.Extraction
import LogVerdict.Text.Utf8
/-!
# Outcome — what became of a check

A check ends in one of four outcomes: the arguments were refused, the log could not be read, it holds no summary, or it
holds one.  `Outcome.ofReading` judges a log by what reading its file gave, and `Outcome.exitCode` says it to a build
pipeline.
-/
namespace LogVerdict

open Summary (Extraction)

abbrev Reading := Except String (List UInt8)

inductive Reason
  | notFound
  | unreadable
  deriving DecidableEq, Repr

/-- A file that is not there, or whose path goes through something that is no directory, was not found. -/
def Reason.ofCode (code : String) : Reason :=
  if code = "ENOENT" ∨ code = "ENOTDIR" then .notFound else .unreadable

def Reason.name : Reason → String
  | .notFound => "not_found"
  | .unreadable => "unreadable"

def Reason.ofName (name : String) : Reason := if name = "not_found" then .notFound else .unreadable

/-- What is read off a log: its text, and the number of its bytes. -/
structure LogText where
  content : List Char
  bytes : Nat
  deriving DecidableEq, Repr

structure ReadFailure where
  reason : Reason
  code : String
  deriving DecidableEq, Repr

def LogText.ofReading : Reading → Except ReadFailure LogText
  | .ok bytes => .ok ⟨Text.Utf8.decode bytes, bytes.length⟩
  | .error code => .error ⟨.ofCode code, code⟩

inductive Status
  | allPassed
  | someFailed
  deriving DecidableEq, Repr

def Status.ofFailures (failures : Int) : Status := if failures = 0 then .allPassed else .someFailed

def Status.name : Status → String
  | .allPassed => "all_passed"
  | .someFailed => "some_failed"

/-- The status of a name; a name of none is a failure. -/
def Status.ofName (name : String) : Status := if name = "all_passed" then .allPassed else .someFailed

inductive Outcome
  | invalidArguments (message : String)
  | fileMissing (path : String) (reason : Reason) (code : Option String)
  | summaryNotFound (path : String) (bytes : Nat)
  | completed (status : Status) (path : String) (extraction : Extraction) (bytes : Nat)
  deriving DecidableEq, Repr

/-- The exit codes of the outcomes, and of the two ways a run completes. -/
structure ExitCodes where
  allPassed : Nat
  someFailed : Nat
  summaryNotFound : Nat
  fileMissing : Nat
  invalidArguments : Nat
  deriving DecidableEq, Repr

/-- Zero is for a run in which every test passed; one for a log that shows that something went wrong, two for a check
that could not be made. -/
def exitCodes : ExitCodes := ⟨0, 1, 1, 2, 2⟩

namespace Outcome

def ofReading (path : String) : Reading → Outcome
  | .error code => .fileMissing path (.ofCode code) (some code)
  | .ok bytes =>
    match Summary.extract (Text.Utf8.decode bytes) with
    | none => .summaryNotFound path bytes.length
    | some e => .completed (.ofFailures e.summary.failures) path e bytes.length

def exitCode : Outcome → Nat
  | .completed .allPassed .. => exitCodes.allPassed
  | .completed .someFailed .. => exitCodes.someFailed
  | .summaryNotFound .. => exitCodes.summaryNotFound
  | .fileMissing .. => exitCodes.fileMissing
  | .invalidArguments .. => exitCodes.invalidArguments

def kind : Outcome → String
  | .completed .. => "completed"
  | .summaryNotFound .. => "summary_not_found"
  | .fileMissing .. => "file_missing"
  | .invalidArguments .. => "invalid_arguments"

/-- A log is judged by its text, and reported with the number of its bytes. -/
theorem ofReading_eq (path : String) (reading : Reading) :
    ofReading path reading =
      match LogText.ofReading reading with
      | .error failure => .fileMissing path failure.reason (some failure.code)
      | .ok log =>
        match Summary.extract log.content with
        | none => .summaryNotFound path log.bytes
        | some e => .completed (.ofFailures e.summary.failures) path e log.bytes := by
  cases reading with
  | error code => rfl
  | ok bytes => rfl

theorem ofReading_ok_eq_completed_iff {path : String} {bytes : List UInt8} {status : Status} {e : Extraction} {n : Nat} :
    ofReading path (.ok bytes) = .completed status path e n ↔
      Summary.extract (Text.Utf8.decode bytes) = some e ∧ status = .ofFailures e.summary.failures ∧ n = bytes.length := by
  cases h : Summary.extract (Text.Utf8.decode bytes) with
  | none => simp [ofReading, h]
  | some e' =>
    simp only [ofReading, h]
    constructor
    · intro heq
      cases heq
      exact ⟨rfl, rfl, rfl⟩
    · rintro ⟨heq, rfl, rfl⟩
      cases heq
      rfl

theorem ofReading_ok_eq_summaryNotFound_iff {path : String} {bytes : List UInt8} :
    ofReading path (.ok bytes) = .summaryNotFound path bytes.length ↔
      Summary.extract (Text.Utf8.decode bytes) = none := by
  cases h : Summary.extract (Text.Utf8.decode bytes) with
  | none => simp [ofReading, h]
  | some e => simp [ofReading, h]

end Outcome

structure UnknownKind where
  kind : String
  deriving DecidableEq, Repr

def UnknownKind.message (_ : UnknownKind) : String := "Unhandled outcome [object Object]"

def exitCodeOf (kind : String) (status : Status) : Except UnknownKind Nat :=
  match kind with
  | "completed" =>
    match status with
    | .allPassed => .ok exitCodes.allPassed
    | .someFailed => .ok exitCodes.someFailed
  | "summary_not_found" => .ok exitCodes.summaryNotFound
  | "file_missing" => .ok exitCodes.fileMissing
  | "invalid_arguments" => .ok exitCodes.invalidArguments
  | _ => .error ⟨kind⟩

/-- The status that an outcome carries; outcomes that carry none are no success. -/
def Outcome.status : Outcome → Status
  | .completed status .. => status
  | _ => .someFailed

/-- By name an outcome has the exit code it has by itself, so the kind of an outcome is always known. -/
theorem exitCodeOf_kind (o : Outcome) : exitCodeOf o.kind o.status = .ok o.exitCode := by
  cases o with
  | completed status => cases status <;> rfl
  | _ => rfl

theorem Status.ofName_name (s : Status) : Status.ofName s.name = s := by cases s <;> rfl

theorem Reason.ofName_name (r : Reason) : Reason.ofName r.name = r := by cases r <;> rfl

end LogVerdict
