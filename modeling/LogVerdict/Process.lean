import LogVerdict.Attempt
/-!
# Process — the program on the channels of the system

A process decides on colour by its environment, its arguments and whether its standard output is a terminal.  Where its
standard error is one, a spinner is at work there for as long as a log is read.  What it draws depends on the
environment and on the time that reading takes, so a process is run with any spinner (`Process.attempt`).  The one at
rest stands still, and with that a process does what a check does in one setting (`Process.attempt_still`).
-/
namespace LogVerdict

open Arguments (Invocation)

/-- What is written to a terminal, write by write, while the log at a path is read. -/
abbrev Spinner := Environment → String → List String

/-- What a process finds itself in; two of its channels may be terminals. -/
structure Process where
  environment : Environment
  arguments : List String
  outTerminal : Bool
  errTerminal : Bool

/-- Whether a spinner is drawn on a terminal; if it is not, its text is written instead.  A variable without a value
counts, too. -/
def Environment.animates (env : Environment) : Bool := (env "CI").isNone && env "TERM" != some "dumb"

/-- The spinner at rest.  What is drawn is wiped away again, so it writes nothing but the text. -/
def Spinner.still : Spinner := fun env path => if env.animates then [] else ["- Reading " ++ path ++ "\n"]

namespace Process

def color (p : Process) : Bool := usesColor p.environment p.arguments p.outTerminal

/-- What a spinner writes in a process: nothing unless a log is read and standard error is a terminal. -/
def spins (p : Process) (spinner : Spinner) : List Write :=
  match Invocation.read p.arguments with
  | .check path _ => if p.errTerminal then (spinner p.environment path).map (.mk .err) else []
  | _ => []

/-- A run as a process.  The spinner has stopped before anything else is written. -/
def attempt (p : Process) (spinner : Spinner) (read : String → Reading) : Except Check.Fault Transcript :=
  (Check.attempt ⟨p.environment, p.color, false⟩ p.arguments read).map fun t =>
    { t with writes := p.spins spinner ++ t.writes }

/-- The setting that a process with the spinner at rest gives a check. -/
def setting (p : Process) : Setting := ⟨p.environment, p.color, p.errTerminal && !p.environment.animates⟩

theorem spins_of_check {p : Process} {path : String} {flags : Flags} (h : Invocation.read p.arguments = .check path flags)
    (spinner : Spinner) :
    p.spins spinner = if p.errTerminal then (spinner p.environment path).map (.mk .err) else [] := by
  unfold spins
  rw [h]

theorem spins_of_ne_check {p : Process} (h : ∀ path flags, Invocation.read p.arguments ≠ .check path flags)
    (spinner : Spinner) : p.spins spinner = [] := by
  unfold spins
  split
  · next hcheck => exact absurd hcheck (h _ _)
  · rfl

/-- Where no spinner writes anything, a process makes its attempt and nothing else. -/
theorem attempt_of_spins_eq_nil {p : Process} {spinner : Spinner} (h : p.spins spinner = []) (read : String → Reading) :
    p.attempt spinner read = Check.attempt ⟨p.environment, p.color, false⟩ p.arguments read := by
  unfold attempt
  rw [h]
  cases Check.attempt ⟨p.environment, p.color, false⟩ p.arguments read <;> rfl

theorem attempt_of_uncoded {p : Process} {path : String} {flags : Flags}
    (h : Invocation.read p.arguments = .check path flags) {read : String → Reading} (hread : read path = .error "")
    (spinner : Spinner) : p.attempt spinner read = .error .uncoded := by
  unfold attempt
  rw [Check.attempt_of_uncoded h hread]
  rfl

/-- A check of a process does not break off where reading gives bytes or a code. -/
theorem attempt_of_coded {p : Process} {path : String} {flags : Flags}
    (h : Invocation.read p.arguments = .check path flags) {read : String → Reading} (hread : read path ≠ .error "")
    (spinner : Spinner) :
    p.attempt spinner read =
      let t := Check.perform ⟨p.environment, p.color, false⟩ read (.check path flags)
      .ok { t with writes := p.spins spinner ++ t.writes } := by
  unfold attempt
  rw [Check.attempt_of_coded h hread, Check.run, h]
  rfl

/-- **With the spinner at rest a process makes the check of its setting.** -/
theorem attempt_still (p : Process) (read : String → Reading) :
    p.attempt .still read = Check.attempt p.setting p.arguments read := by
  by_cases hcheck : ∃ path flags, Invocation.read p.arguments = .check path flags
  · obtain ⟨path, flags, h⟩ := hcheck
    by_cases hread : read path = .error ""
    · rw [attempt_of_uncoded h hread, Check.attempt_of_uncoded h hread]
    · have hspins : p.spins .still = Check.announcement p.setting.interactive path := by
        rw [spins_of_check h]
        cases hterminal : p.errTerminal <;> cases hanimates : p.environment.animates <;>
          simp [Spinner.still, setting, Check.announcement, hterminal, hanimates]
      rw [attempt_of_coded h hread, Check.attempt_of_coded h hread, Check.run, h, hspins]
      rfl
  · have hne : ∀ path flags, Invocation.read p.arguments ≠ .check path flags :=
      fun path flags h => hcheck ⟨path, flags, h⟩
    rw [attempt_of_spins_eq_nil (spins_of_ne_check hne _), Check.attempt_of_ne_check hne,
      Check.attempt_of_ne_check hne]
    unfold Check.run
    cases h : Invocation.read p.arguments with
    | version => rfl
    | help => rfl
    | rejected cause => rfl
    | check path flags => exact absurd h (hne path flags)

end Process
end LogVerdict
