import LogVerdict.Attempt
import LogVerdict.Proofs.LastOccurrence
/-!
# ExitCode — what the exit code says of a run

The contract with a build pipeline: zero is for a request for the version or the help and for a log whose last line
states zero failures, one for a log that was read and shows anything else, and two for the runs in which no log was
read.  The last line is the one `Summary.LastLine` singles out among all occurrences, and its failures are judged by
their digits.
-/
namespace LogVerdict

open Arguments (Invocation)
open Summary (OccursAt LastLine Extraction)

namespace Summary

theorem LastLine.unique {s : List Char} {l l' : Line} (h : LastLine s l) (h' : LastLine s l') : l = l' := by
  obtain ⟨i, j, hl, hi⟩ := h
  obtain ⟨i', j', hl', hi'⟩ := h'
  rw [hi.unique hi'] at hl
  exact (hl.unique hl').1

theorem lastLine_of_extract {s : List Char} {e : Extraction} (h : extract s = some e) :
    ∃ l, LastLine s l ∧ e.summary = l.summary := by
  obtain ⟨hgreatest, -, j, l, hl, hsummary⟩ := extract_eq_some_iff_occursAt.1 h
  exact ⟨l, ⟨e.offset, j, hl, hgreatest⟩, hsummary⟩

theorem not_lastLine_of_extract {s : List Char} (h : extract s = none) (l : Line) : ¬ LastLine s l := by
  intro hl
  obtain ⟨i, j, hocc, -⟩ := hl
  exact extract_eq_none_iff_occursAt.1 h ⟨i, j, l, hocc⟩

theorem LastLine.wellFormed {s : List Char} {l : Line} (h : LastLine s l) : l.WellFormed := by
  obtain ⟨i, j, hocc, -⟩ := h
  obtain ⟨pre, post, -, hl, -, -⟩ := occursAt_iff.1 hocc
  exact hl

theorem Line.WellFormed.failures_eq_zero_iff {l : Line} (h : l.WellFormed) :
    l.summary.failures = 0 ↔ ∀ c ∈ l.failures.count, c = '0' := by
  rw [← Text.Decimal.value_eq_zero_iff h.failures.count.2]
  exact Int.natCast_eq_zero

end Summary

/-- **A log that passes**: the failures of its last line are all zeros. -/
def Passes (bytes : List UInt8) : Prop :=
  ∃ l, LastLine (Text.Utf8.decode bytes) l ∧ ∀ c ∈ l.failures.count, c = '0'

/-- **A log that fails**: no line is in it, or the failures of its last line have a digit that is no zero. -/
def Fails (bytes : List UInt8) : Prop :=
  (¬ ∃ i j l, OccursAt (Text.Utf8.decode bytes) i j l) ∨
    ∃ l, LastLine (Text.Utf8.decode bytes) l ∧ ∃ c ∈ l.failures.count, c ≠ '0'

theorem passes_iff {bytes : List UInt8} :
    Passes bytes ↔ ∃ e, Summary.extract (Text.Utf8.decode bytes) = some e ∧ e.summary.failures = 0 := by
  unfold Passes
  cases h : Summary.extract (Text.Utf8.decode bytes) with
  | none => simp [Summary.not_lastLine_of_extract h]
  | some e =>
    obtain ⟨l, hl, hsummary⟩ := Summary.lastLine_of_extract h
    constructor
    · intro hpasses
      obtain ⟨l', hl', hzeros⟩ := hpasses
      rw [hl'.unique hl] at hzeros
      refine ⟨e, rfl, ?_⟩
      rw [hsummary]
      exact hl.wellFormed.failures_eq_zero_iff.2 hzeros
    · intro hzero
      obtain ⟨e', he', hzero⟩ := hzero
      cases he'
      rw [hsummary] at hzero
      exact ⟨l, hl, hl.wellFormed.failures_eq_zero_iff.1 hzero⟩

theorem fails_iff_not_passes {bytes : List UInt8} : Fails bytes ↔ ¬ Passes bytes := by
  unfold Fails Passes
  rw [← Summary.extract_eq_none_iff_occursAt]
  cases h : Summary.extract (Text.Utf8.decode bytes) with
  | none => simp [Summary.not_lastLine_of_extract h]
  | some e =>
    obtain ⟨l, hl, -⟩ := Summary.lastLine_of_extract h
    constructor
    · intro hfails hpasses
      obtain ⟨l', hl', c, hc, hne⟩ := hfails.resolve_left nofun
      obtain ⟨l'', hl'', hzeros⟩ := hpasses
      rw [hl'.unique hl''] at hc
      exact hne (hzeros c hc)
    · intro hpasses
      right
      refine ⟨l, hl, ?_⟩
      by_contra hzeros
      apply hpasses
      refine ⟨l, hl, fun c hc => ?_⟩
      by_contra hne
      exact hzeros ⟨c, hc, hne⟩

namespace Outcome

theorem exitCode_completed_ofFailures (failures : Int) (path : String) (e : Extraction) (n : Nat) :
    (completed (.ofFailures failures) path e n).exitCode = if failures = 0 then 0 else 1 := by
  unfold Status.ofFailures
  by_cases h : failures = 0
  · rw [if_pos h, if_pos h]
    rfl
  · rw [if_neg h, if_neg h]
    rfl

theorem exitCode_of_passes (path : String) {bytes : List UInt8} (h : Passes bytes) :
    (ofReading path (.ok bytes)).exitCode = 0 := by
  obtain ⟨e, he, hzero⟩ := passes_iff.1 h
  rw [ofReading_ok_eq_completed_iff.2 ⟨he, rfl, rfl⟩, exitCode_completed_ofFailures, if_pos hzero]

theorem exitCode_of_fails (path : String) {bytes : List UInt8} (h : Fails bytes) :
    (ofReading path (.ok bytes)).exitCode = 1 := by
  rw [fails_iff_not_passes, passes_iff] at h
  cases he : Summary.extract (Text.Utf8.decode bytes) with
  | none =>
    rw [ofReading_ok_eq_summaryNotFound_iff.2 he]
    rfl
  | some e =>
    have hne : e.summary.failures ≠ 0 := fun hzero => h ⟨e, he, hzero⟩
    rw [ofReading_ok_eq_completed_iff.2 ⟨he, rfl, rfl⟩, exitCode_completed_ofFailures, if_neg hne]

end Outcome

namespace Check

/-- **The runs that end well**: a request for the version or the help, or a check of a log that passes. -/
def EndsWell (argv : List String) (read : String → Reading) : Prop :=
  Invocation.read argv = .version ∨ Invocation.read argv = .help ∨
    ∃ path flags bytes, Invocation.read argv = .check path flags ∧ read path = .ok bytes ∧ Passes bytes

/-- **The runs that find a failure**: a check of a log that was read and fails. -/
def FindsFailure (argv : List String) (read : String → Reading) : Prop :=
  ∃ path flags bytes, Invocation.read argv = .check path flags ∧ read path = .ok bytes ∧ Fails bytes

/-- **The runs that judge nothing**: the command line was refused, or the log could not be read. -/
def JudgesNothing (argv : List String) (read : String → Reading) : Prop :=
  (∃ cause, Invocation.read argv = .rejected cause) ∨
    ∃ path flags code, Invocation.read argv = .check path flags ∧ read path = .error code

theorem run_exitCode_of_check {setting : Setting} {argv : List String} {read : String → Reading} {path : String}
    {flags : Flags} (h : Invocation.read argv = .check path flags) :
    (run setting argv read).exitCode = (Outcome.ofReading path (read path)).exitCode := by
  unfold run
  rw [h, perform]

theorem run_exitCode_of_endsWell (setting : Setting) {argv : List String} {read : String → Reading}
    (h : EndsWell argv read) : (run setting argv read).exitCode = 0 := by
  obtain h | h | ⟨path, flags, bytes, h, hread, hpasses⟩ := h
  · unfold run
    rw [h, perform]
  · unfold run
    rw [h, perform]
  · rw [run_exitCode_of_check h, hread, Outcome.exitCode_of_passes path hpasses]

theorem run_exitCode_of_findsFailure (setting : Setting) {argv : List String} {read : String → Reading}
    (h : FindsFailure argv read) : (run setting argv read).exitCode = 1 := by
  obtain ⟨path, flags, bytes, h, hread, hfails⟩ := h
  rw [run_exitCode_of_check h, hread, Outcome.exitCode_of_fails path hfails]

theorem run_exitCode_of_judgesNothing (setting : Setting) {argv : List String} {read : String → Reading}
    (h : JudgesNothing argv read) : (run setting argv read).exitCode = 2 := by
  obtain ⟨cause, h⟩ | ⟨path, flags, code, h, hread⟩ := h
  · unfold run
    rw [h, perform]
    rfl
  · rw [run_exitCode_of_check h, hread]
    rfl

theorem endsWell_or_findsFailure_or_judgesNothing (argv : List String) (read : String → Reading) :
    EndsWell argv read ∨ FindsFailure argv read ∨ JudgesNothing argv read := by
  cases h : Invocation.read argv with
  | version => exact .inl (.inl h)
  | help => exact .inl (.inr (.inl h))
  | rejected cause => exact .inr (.inr (.inl ⟨cause, h⟩))
  | check path flags =>
    cases hread : read path with
    | error code => exact .inr (.inr (.inr ⟨path, flags, code, h, hread⟩))
    | ok bytes =>
      by_cases hpasses : Passes bytes
      · exact .inl (.inr (.inr ⟨path, flags, bytes, h, hread, hpasses⟩))
      · exact .inr (.inl ⟨path, flags, bytes, h, hread, fails_iff_not_passes.2 hpasses⟩)

/-- **The exit code contract**: where reading fails with a code if at all, a run does not break off, and it exits with
zero exactly if it ends well, with one exactly if it finds a failure, and with two in every other case, which is that
of a run that judges nothing. -/
theorem attempt_exitCode (setting : Setting) (argv : List String) (read : String → Reading)
    (hread : ∀ path flags, Invocation.read argv = .check path flags → read path ≠ .error "") :
    attempt setting argv read = .ok (run setting argv read) ∧
    ∃ code, ((run setting argv read).deliver none).ending = .exited code ∧
      (code = 0 ↔ EndsWell argv read) ∧ (code = 1 ↔ FindsFailure argv read) ∧
      (code = 2 ↔ ¬ EndsWell argv read ∧ ¬ FindsFailure argv read) ∧ (code = 2 ↔ JudgesNothing argv read) := by
  have hzero : EndsWell argv read → _ := run_exitCode_of_endsWell setting
  have hone : FindsFailure argv read → _ := run_exitCode_of_findsFailure setting
  have htwo : JudgesNothing argv read → _ := run_exitCode_of_judgesNothing setting
  have hkinds := endsWell_or_findsFailure_or_judgesNothing argv read
  refine ⟨attempt_eq_run hread, (run setting argv read).exitCode, ?_, ?_⟩
  · unfold Transcript.deliver
    rw [deliver_none]
  · generalize (run setting argv read).exitCode = code at *
    grind

theorem attempt_exitCode_missing :
    ∃ t, attempt ⟨.ofList [], false, false⟩ ["log"] (fun _ => .error "ENOENT") = .ok t ∧
      (t.deliver none).ending = .exited 2 := by
  have hread : ∀ path flags, Invocation.read ["log"] = .check path flags →
      (fun _ : String => (.error "ENOENT" : Reading)) path ≠ .error "" := by
    intro path flags _
    simp
  have hjudges : JudgesNothing ["log"] fun _ => .error "ENOENT" := .inr ⟨"log", {}, "ENOENT", rfl, rfl⟩
  obtain ⟨hrun, code, hcode, -, -, -, htwo⟩ := attempt_exitCode ⟨.ofList [], false, false⟩ ["log"] _ hread
  refine ⟨_, hrun, ?_⟩
  rw [hcode, htwo.2 hjudges]

end Check
end LogVerdict
