import LogVerdict.Proofs.Grammar
import LogVerdict.Proofs.Residue
/-!
# Precedence — the runs that make no check

A command line outside the grammar of a check ends a run in one of five ways (`EndsUnchecked`).  Which one is decided in
a fixed order: the version goes before the help, the help before an option that is not known, and that before the number
of operands.  Nothing but the command line enters into it (`attempt_endsUnchecked`): neither a file, nor the
environment, nor colour, nor the terminal.
-/
namespace LogVerdict

namespace Arguments

open Text (isBlank)

/-! ## Notices -/

/-- A line that trimming leaves as it is. -/
def EndsVisibly (line : String) : Prop := ∃ c ∈ line.toList.getLast?, isBlank c = false

theorem EndsVisibly.append {t : String} (h : EndsVisibly t) (s : String) : EndsVisibly (s ++ t) := by
  obtain ⟨c, hc, hblank⟩ := h
  refine ⟨c, ?_, hblank⟩
  rw [String.toList_append, List.getLast?_append, Option.mem_def.1 hc]
  rfl

theorem EndsVisibly.ne_empty {line : String} (h : EndsVisibly line) : line ≠ "" := by
  rintro rfl
  obtain ⟨c, hc, -⟩ := h
  cases hc

/-- Of a line and its end, trimming takes the end alone. -/
theorem EndsVisibly.trimEnd {line : String} (h : EndsVisibly line) :
    String.ofList (Text.trimEnd (line ++ "\n").toList) = line := by
  obtain ⟨c, hc, hblank⟩ := h
  obtain ⟨s, hs⟩ := List.getLast?_eq_some_iff.1 hc
  have hend : (line ++ "\n").toList = line.toList ++ ['\n'] := String.toList_append
  rw [hend, Text.trimEnd_concat_blank _ (by decide), hs, Text.trimEnd_concat _ hblank, ← hs, String.ofList_toList]

theorem didYouMean_eq_empty_or_endsVisibly (options : List String) :
    didYouMean options = "" ∨ EndsVisibly (didYouMean options) := by
  have hend : EndsVisibly "?)" := ⟨')', rfl, by decide⟩
  fun_cases didYouMean options with
  | case1 => exact .inl rfl
  | case2 => exact .inr (hend.append _)
  | case3 => exact .inr (hend.append _)

theorem suggestion_eq_empty_or_endsVisibly (option : String) :
    suggestion option = "" ∨ EndsVisibly (suggestion option) := by
  unfold suggestion
  split
  · exact didYouMean_eq_empty_or_endsVisibly _
  · exact .inl rfl

/-- A notice as one reads it, without the end of its last line. -/
def Rejection.line : Rejection → String
  | unknownOption option => "error: unknown option '" ++ option ++ "'" ++ suggestion option
  | missingOperand => "error: missing required argument 'log-file'"
  | tooManyOperands count =>
    "error: too many arguments. Expected 1 argument but got " ++ Text.Decimal.print count ++ "."

theorem Rejection.endsVisibly_line (r : Rejection) : EndsVisibly r.line := by
  cases r with
  | unknownOption option =>
    have hquote : EndsVisibly "'" := ⟨'\'', rfl, by decide⟩
    change EndsVisibly ("error: unknown option '" ++ option ++ "'" ++ suggestion option)
    rcases suggestion_eq_empty_or_endsVisibly option with h | h
    · rw [h, String.append_empty]
      exact hquote.append _
    · exact h.append _
  | missingOperand => exact ⟨'\'', rfl, by decide⟩
  | tooManyOperands count =>
    have hstop : EndsVisibly "." := ⟨'.', rfl, by decide⟩
    exact hstop.append _

/-- **Trimming loses nothing of a notice** but the end of its last line. -/
theorem Rejection.message_eq (r : Rejection) : r.message = r.line := by
  have hnotice : r.notice = r.line ++ "\n" := by
    cases r with
    | unknownOption option => rfl
    | missingOperand => rfl
    | tooManyOperands count =>
      have hend : ".\n" = "." ++ "\n" := rfl
      change _ ++ ".\n" = _ ++ "." ++ "\n"
      rw [hend, ← String.append_assoc]
  rw [message, hnotice, r.endsVisibly_line.trimEnd]

/-! ## What a command line asks for, by its words -/

def WantsHelp (argv : List String) : Prop := "-h" ∈ unknownArguments argv ∨ "--help" ∈ unknownArguments argv

instance (argv : List String) : Decidable (WantsHelp argv) := inferInstanceAs (Decidable (_ ∨ _))

theorem Invocation.read_of_wantsVersion {argv : List String} (h : WantsVersion argv) :
    Invocation.read argv = .version := by
  unfold Invocation.read
  rw [ofArguments_of_wantsVersion false h]

theorem Invocation.exists_read_eq {argv : List String} (h : ¬ WantsVersion argv) :
    ∃ flags, Invocation.read argv = .ofCommandLine ⟨flags, operands argv, unknownArguments argv⟩ := by
  obtain ⟨flags, hargv⟩ := exists_ofArguments h
  refine ⟨flags, ?_⟩
  unfold Invocation.read
  rw [hargv]

end Arguments

namespace Check

open Arguments (Invocation Rejection Accepts WantsVersion WantsHelp unknownArguments operands suggestion)

/-- What arrives of a refused command line: a notice and the usage below it. -/
def refusal (notice : String) : Delivery := ⟨"", notice ++ "\n" ++ usage ++ "\n", .exited 2⟩

/-- **The ends of a run that makes no check**, each for the command lines that none before it is for. -/
inductive EndsUnchecked (argv : List String) : Delivery → Prop
  | version : WantsVersion argv → EndsUnchecked argv ⟨"1.0.0\n", "", .exited 0⟩
  | help : ¬ WantsVersion argv → WantsHelp argv → EndsUnchecked argv ⟨helpText, "", .exited 0⟩
  | unknownOption {u : String} {us : List String} : ¬ WantsVersion argv → ¬ WantsHelp argv →
    unknownArguments argv = u :: us →
    EndsUnchecked argv (refusal ("error: unknown option '" ++ u ++ "'" ++ suggestion u))
  | missingOperand : ¬ WantsVersion argv → ¬ WantsHelp argv → unknownArguments argv = [] → operands argv = [] →
    EndsUnchecked argv (refusal "error: missing required argument 'log-file'")
  | tooManyOperands : ¬ WantsVersion argv → ¬ WantsHelp argv → unknownArguments argv = [] →
    2 ≤ (operands argv).length →
    EndsUnchecked argv (refusal ("error: too many arguments. Expected 1 argument but got " ++
      Text.Decimal.print (operands argv).length ++ "."))

theorem deliver_help (setting : Setting) (read : String → Reading) :
    (perform setting read .help).deliver none = ⟨helpText, "", .exited 0⟩ := by
  unfold Transcript.deliver
  rw [deliver_none]
  simp [perform, textOn]

theorem deliver_rejected (setting : Setting) (read : String → Reading) (cause : Rejection) :
    (perform setting read (.rejected cause)).deliver none = refusal cause.line := by
  have hne : cause.line ≠ "" := cause.endsVisibly_line.ne_empty
  have hreport : Report.ofOutcome setting.color (.invalidArguments cause.line) = ⟨[], [cause.line, usage]⟩ := by
    rw [Report.ofOutcome, if_neg hne]
  unfold Transcript.deliver
  rw [deliver_none]
  simp only [perform, cause.message_eq, textOn_out_reportWrites, textOn_err_reportWrites, hreport]
  simp [refusal, joinLines, Outcome.exitCode, exitCodes, String.append_assoc]

/-- Without a check, a run depends on nothing but what was asked for. -/
theorem perform_of_ne_check {asked : Invocation} (h : ∀ path flags, asked ≠ .check path flags)
    (setting setting' : Setting) (read read' : String → Reading) :
    perform setting read asked = perform setting' read' asked := by
  cases asked with
  | version => rfl
  | help => rfl
  | rejected cause => rfl
  | check path flags => exact absurd rfl (h path flags)

theorem endsUnchecked {argv : List String} (h : ∀ path flags, Invocation.read argv ≠ .check path flags)
    (setting : Setting) (read : String → Reading) :
    EndsUnchecked argv ((run setting argv read).deliver none) := by
  unfold run
  by_cases hversion : WantsVersion argv
  · rw [Invocation.read_of_wantsVersion hversion]
    exact .version hversion
  obtain ⟨flags, hread⟩ := Invocation.exists_read_eq hversion
  unfold Invocation.ofCommandLine at hread
  by_cases hhelp : WantsHelp argv
  · rw [if_pos (by exact hhelp)] at hread
    rw [hread, deliver_help]
    exact .help hversion hhelp
  rw [if_neg (by exact hhelp)] at hread
  cases hunknown : unknownArguments argv with
  | cons u us =>
    simp only [hunknown] at hread
    rw [hread, deliver_rejected]
    exact .unknownOption hversion hhelp hunknown
  | nil =>
    simp only [hunknown] at hread
    cases hoperands : operands argv with
    | nil =>
      simp only [hoperands] at hread
      rw [hread, deliver_rejected]
      exact .missingOperand hversion hhelp hunknown hoperands
    | cons p ps =>
      cases ps with
      | nil =>
        simp only [hoperands] at hread
        exact absurd hread (h p flags)
      | cons q ps =>
        simp only [hoperands] at hread
        rw [hread, deliver_rejected, ← hoperands]
        exact .tooManyOperands hversion hhelp hunknown (by simp [hoperands])

/-- **Precedence and purity of the runs without a check**: a command line that the grammar of a check does not accept
ends its run by the first rule that applies, and the run is the same whatever the environment, the terminal, colour and
all files are. -/
theorem attempt_endsUnchecked (argv : List String) (h : ¬ ∃ path options, Accepts argv path options) :
    ∃ t, EndsUnchecked argv (t.deliver none) ∧ ∀ setting read, attempt setting argv read = .ok t := by
  have hread : ∀ path flags, Invocation.read argv ≠ .check path flags := by
    intro path flags hcheck
    exact h ⟨path, Arguments.read_eq_check_iff_accepts.1 ⟨flags, hcheck⟩⟩
  refine ⟨run ⟨fun _ => none, false, false⟩ argv fun _ => .ok [], endsUnchecked hread _ _, fun setting read => ?_⟩
  rw [attempt_eq_run fun path flags hcheck => absurd hcheck (hread path flags)]
  unfold run
  rw [perform_of_ne_check hread setting]

/-- Behind an option that is not known, a request for the help is found behind the terminator as well. -/
theorem attempt_endsUnchecked_help :
    ∃ t, t.deliver none =
        ⟨"Usage: unity-summary-check [options] <log-file>\n" ++
          "\n" ++
          "🧪  Turn the Unity test summary in an emulator log into an exit code\n" ++
          "\n" ++
          "Arguments:\n" ++
          "  log-file       Captured serial/emulator log to scan (after -- if it starts\n" ++
          "                 with \"-\")\n" ++
          "\n" ++
          "Options:\n" ++
          "  -V, --version  output the version number\n" ++
          "  -v, --verbose  Print debug details to stderr (default: false)\n" ++
          "  --debug        Alias for --verbose (default: false)\n" ++
          "  -h, --help     display help for command\n", "", .exited 0⟩ ∧
      ∀ setting read, attempt setting ["-vx", "log", "-v-", "-h"] read = .ok t := by
  have hversion : ¬ WantsVersion ["-vx", "log", "-v-", "-h"] := by decide
  have hhelp : WantsHelp ["-vx", "log", "-v-", "-h"] := by decide
  have hrejected : ¬ ∃ path options, Accepts ["-vx", "log", "-v-", "-h"] path options := by
    rintro ⟨path, options, haccepts⟩
    obtain ⟨flags, hread, -⟩ := haccepts.read_eq
    have hasked : Invocation.read ["-vx", "log", "-v-", "-h"] = .help := by decide
    rw [hasked] at hread
    cases hread
  obtain ⟨t, hends, hrun⟩ := attempt_endsUnchecked _ hrejected
  refine ⟨t, ?_, hrun⟩
  generalize t.deliver none = delivery at hends ⊢
  cases hends with
  | version h => exact absurd h hversion
  | help => rfl
  | unknownOption _ h => exact absurd hhelp h
  | missingOperand _ h => exact absurd hhelp h
  | tooManyOperands _ h => exact absurd hhelp h

end Check
end LogVerdict
