import LogVerdict.Check
/-!
# Attempt — a run that may fail

A run can break off in three places: reading fails without a code, no outcome is there when the command line has been
worked off, or the outcome is of a kind that has no exit code.  `Check.attempt` goes through a run with these failures
in place.  The first one is the only one it ever meets (`attempt_eq_error_iff`), and without it the attempt is the run
(`attempt_eq_run`).
-/
namespace LogVerdict
namespace Check

open Arguments (Invocation Rejection)

inductive Fault
  | uncoded
  | noOutcome
  | unknownKind (cause : UnknownKind)
  deriving DecidableEq, Repr

structure Progress where
  writes : List Write := []
  outcome : Option Outcome := none
  deriving DecidableEq, Repr

/-- How the command line was worked off: it was left, with a code and the notice of a refusal, or a check was made. -/
inductive Departure
  | left (code : Nat) (notice : String)
  | checked
  deriving DecidableEq, Repr

/-- Reads and judges a log.  A failure that has no code is none that a log can have. -/
def attemptOutcome (path : String) : Reading → Except Fault Outcome
  | .error "" => .error .uncoded
  | reading => .ok (.ofReading path reading)

def work (setting : Setting) (read : String → Reading) : Invocation → Except Fault (Departure × Progress)
  | .version => .ok (.left 0 "", { writes := [⟨.out, version ++ "\n"⟩] })
  | .help => .ok (.left 0 "", { writes := [⟨.out, helpText⟩] })
  | .rejected cause => .ok (.left 1 cause.message, {})
  | .check path flags => do
    let options := Options.resolve flags setting.environment setting.color
    let o ← attemptOutcome path (read path)
    return (.checked, ⟨announcement setting.interactive path ++ debugWrites options o, some o⟩)

/-- Reports the outcome and turns it into an exit code, by the name of its kind. -/
def conclude (color : Bool) (p : Progress) : Except Fault Transcript :=
  match p.outcome with
  | none => .error .noOutcome
  | some o =>
    match exitCodeOf o.kind o.status with
    | .ok code => .ok ⟨p.writes ++ reportWrites color o, code⟩
    | .error cause => .error (.unknownKind cause)

def attempt (setting : Setting) (argv : List String) (read : String → Reading) : Except Fault Transcript := do
  match ← work setting read (.read argv) with
  | (.left 0 _, p) => return ⟨p.writes, 0⟩
  | (.left _ notice, p) => conclude setting.color { p with outcome := some (.invalidArguments notice) }
  | (.checked, p) => conclude setting.color p

theorem attemptOutcome_eq_ok {path : String} {reading : Reading} (h : reading ≠ .error "") :
    attemptOutcome path reading = .ok (.ofReading path reading) := by
  unfold attemptOutcome
  split
  · exact absurd rfl h
  · rfl

theorem attemptOutcome_eq_ok_iff {path : String} {reading : Reading} {o : Outcome} :
    attemptOutcome path reading = .ok o ↔ reading ≠ .error "" ∧ o = .ofReading path reading := by
  constructor
  · intro h
    by_cases hreading : reading = .error ""
    · rw [hreading] at h
      cases h
    · rw [attemptOutcome_eq_ok hreading] at h
      cases h
      exact ⟨hreading, rfl⟩
  · intro h
    rw [attemptOutcome_eq_ok h.1, h.2]

theorem conclude_some (color : Bool) (ws : List Write) (o : Outcome) :
    conclude color ⟨ws, some o⟩ = .ok ⟨ws ++ reportWrites color o, o.exitCode⟩ := by
  simp only [conclude, exitCodeOf_kind]

theorem attempt_of_uncoded {setting : Setting} {argv : List String} {read : String → Reading} {path : String}
    {flags : Flags} (h : Invocation.read argv = .check path flags) (hread : read path = .error "") :
    attempt setting argv read = .error .uncoded := by
  unfold attempt
  rw [h, work, hread]
  rfl

theorem attempt_eq_run {setting : Setting} {argv : List String} {read : String → Reading}
    (hread : ∀ path flags, Invocation.read argv = .check path flags → read path ≠ .error "") :
    attempt setting argv read = .ok (run setting argv read) := by
  unfold attempt run
  cases hargv : Invocation.read argv with
  | version => rfl
  | help => rfl
  | rejected cause =>
    change conclude setting.color ⟨[], some (.invalidArguments cause.message)⟩ = _
    rw [conclude_some, List.nil_append]
    rfl
  | check path flags =>
    rw [work, attemptOutcome_eq_ok (hread path flags hargv), perform, ← List.append_assoc]
    exact conclude_some _ _ _

/-- A run that makes no check does not break off. -/
theorem attempt_of_ne_check {argv : List String} (h : ∀ path flags, Invocation.read argv ≠ .check path flags)
    (setting : Setting) (read : String → Reading) : attempt setting argv read = .ok (run setting argv read) :=
  attempt_eq_run fun path flags hcheck => absurd hcheck (h path flags)

/-- A check does not break off where reading gives bytes or a code. -/
theorem attempt_of_coded {setting : Setting} {argv : List String} {read : String → Reading} {path : String}
    {flags : Flags} (h : Invocation.read argv = .check path flags) (hread : read path ≠ .error "") :
    attempt setting argv read = .ok (run setting argv read) := by
  apply attempt_eq_run
  intro path' flags' hargv
  rw [h] at hargv
  cases hargv
  exact hread

/-- What arrives of such a check. -/
theorem delivered_of_coded (setting : Setting) {argv : List String} {read : String → Reading} {path : String}
    {flags : Flags} (h : Invocation.read argv = .check path flags) (hread : read path ≠ .error "") :
    (attempt setting argv read).map (·.deliver none) = .ok ((perform setting read (.check path flags)).deliver none) := by
  rw [attempt_of_coded h hread, run, h]
  rfl

/-- A run breaks off only where reading fails without a code. -/
theorem attempt_eq_error_iff {setting : Setting} {argv : List String} {read : String → Reading} {f : Fault} :
    attempt setting argv read = .error f ↔
      f = .uncoded ∧ ∃ path flags, Invocation.read argv = .check path flags ∧ read path = .error "" := by
  by_cases h : ∃ path flags, Invocation.read argv = .check path flags ∧ read path = .error ""
  · obtain ⟨path, flags, hargv, hread⟩ := h
    rw [attempt_of_uncoded hargv hread]
    constructor
    · intro hf
      cases hf
      exact ⟨rfl, path, flags, hargv, hread⟩
    · intro hf
      rw [hf.1]
  · rw [attempt_eq_run fun path flags hargv hread => h ⟨path, flags, hargv, hread⟩]
    constructor
    · intro hf
      cases hf
    · intro hf
      exact absurd hf.2 h

end Check
end LogVerdict
