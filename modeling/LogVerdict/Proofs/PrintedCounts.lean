import LogVerdict.Proofs.ExitCode
/-!
# PrintedCounts — what a report says of the log

Without colour a report is six lines, and the three counts in it are the digit runs of the last summary line without the
zeros in front (`Report.completed_line`).  The status, the exit code and the printed failures agree, since all three
come from the same number.  Lines without a line's end can be told from one another once they are joined
(`joinLines_inj`), so two reports are the same text exactly if their counts are the same numbers (`attempt_prints`).
-/
namespace LogVerdict

open Arguments (Invocation)
open Summary (Line LastLine OccursAt decimal value_eq_decimal)
open Text.Decimal (print notMem_print)

/-! ## Joined lines -/

theorem joinLines_cons (line : String) (lines : List String) :
    (joinLines (line :: lines)).toList = line.toList ++ '\n' :: (joinLines lines).toList := by
  simp [joinLines]

theorem split_at_newline {s : List Char} (h : '\n' ∉ s) (t : List Char) :
    (s ++ '\n' :: t).takeWhile (· != '\n') = s ∧ (s ++ '\n' :: t).dropWhile (· != '\n') = '\n' :: t := by
  have hrun : ∀ c ∈ s, (c != '\n') = true := by
    intro c hc
    rw [bne_iff_ne]
    rintro rfl
    exact h hc
  exact Text.takeWhile_append_of_isRun hrun (Text.stopsAt_of_head rfl rfl)

/-- **Lines without a line's end can be told apart once they are joined.** -/
theorem joinLines_inj : ∀ {lines lines' : List String}, (∀ l ∈ lines, '\n' ∉ l.toList) →
    (∀ l ∈ lines', '\n' ∉ l.toList) → joinLines lines = joinLines lines' → lines = lines'
  | [], [], _, _, _ => rfl
  | [], l :: lines, _, _, h => by
    have hlist := congrArg String.toList h
    rw [joinLines_cons] at hlist
    simp [joinLines] at hlist
  | l :: lines, [], _, _, h => by
    have hlist := congrArg String.toList h
    rw [joinLines_cons] at hlist
    simp [joinLines] at hlist
  | l :: lines, l' :: lines', hl, hl', h => by
    rw [List.forall_mem_cons] at hl hl'
    have hlist := congrArg String.toList h
    rw [joinLines_cons, joinLines_cons] at hlist
    obtain ⟨hfirst, hrest⟩ := split_at_newline hl.1 (joinLines lines).toList
    obtain ⟨hfirst', hrest'⟩ := split_at_newline hl'.1 (joinLines lines').toList
    rw [hlist, hfirst'] at hfirst
    rw [hlist, hrest'] at hrest
    rw [String.toList_inj.1 hfirst, joinLines_inj hl.2 hl'.2 (String.toList_inj.1 (List.cons.inj hrest).2.symm)]

/-! ## Reports -/

/-- A count as it is printed. -/
def shown (count : List Char) : String := String.ofList (Text.Decimal.withoutZeros count)

/-- **The lines of a report** on a summary line, with a verdict. -/
def reportLines (l : Line) (verdict : String) : List String :=
  ["Test Results:", "  Total Tests: " ++ shown l.tests.count, "  Failures: " ++ shown l.failures.count,
   "  Ignored: " ++ shown l.ignored.count, "", verdict]

def verdictLine (l : Line) : String :=
  if l.summary.failures = 0 then "✅ All tests passed!" else "❌ " ++ shown l.failures.count ++ " test(s) failed"

theorem shown_eq {count : List Char} (h : ∀ c ∈ count, c.isDigit = true) :
    shown count = print (Text.Decimal.value count) := by
  rw [shown, ← Text.Decimal.digits_value h, Text.Decimal.print_natCast]

theorem newline_notMem_shown {count : List Char} (h : ∀ c ∈ count, c.isDigit = true) :
    '\n' ∉ (shown count).toList := by
  rw [shown_eq h]
  exact notMem_print (by decide) (by decide) _

theorem shown_eq_zero_iff {count : List Char} (h : ∀ c ∈ count, c.isDigit = true) :
    shown count = "0" ↔ Text.Decimal.value count = 0 := by
  have hzero : "0" = shown [] := rfl
  rw [hzero, shown, shown, String.ofList_inj, Text.Decimal.withoutZeros_inj h (by simp)]
  rfl

namespace Report

theorem count_false (style : Style) (n : Int) : count false style n = print n := by
  unfold count
  split <;> rfl

/-- **The report on a summary line**: its verdict follows its failures, and so do all printed counts its digit runs. -/
theorem completed_line {l : Line} (h : l.WellFormed) :
    completed false (.ofFailures l.summary.failures) l.summary = reportLines l (verdictLine l) := by
  have htests : print l.summary.tests = shown l.tests.count := (shown_eq h.tests.count.2).symm
  have hfailures : print l.summary.failures = shown l.failures.count := (shown_eq h.failures.count.2).symm
  have hignored : print l.summary.ignored = shown l.ignored.count := (shown_eq h.ignored.count.2).symm
  rw [completed, count_false, count_false, htests, hfailures, hignored, Status.ofFailures, verdictLine]
  by_cases hzero : l.summary.failures = 0
  · rw [if_pos hzero, if_pos hzero]
    rfl
  · rw [if_neg hzero, if_neg hzero, verdict, hfailures]
    rfl

end Report

theorem verdictLine_eq_iff {l : Line} : verdictLine l = "✅ All tests passed!" ↔ l.summary.failures = 0 := by
  unfold verdictLine
  split
  · rename_i hfailures
    exact iff_of_true rfl hfailures
  · rename_i hfailures
    refine iff_of_false (fun heq => ?_) hfailures
    have hhead := congrArg (·.toList.head?) heq
    simp at hhead

theorem newline_notMem_reportLines {l : Line} (h : l.WellFormed) :
    ∀ line ∈ reportLines l (verdictLine l), '\n' ∉ line.toList := by
  have htests := newline_notMem_shown h.tests.count.2
  have hfailures := newline_notMem_shown h.failures.count.2
  have hignored := newline_notMem_shown h.ignored.count.2
  have hverdict : '\n' ∉ (verdictLine l).toList := by
    unfold verdictLine
    split
    · decide
    · simp [hfailures]
  simp [reportLines, htests, hfailures, hignored, hverdict]

theorem summary_eq_iff_shown {l l' : Line} (h : l.WellFormed) (h' : l'.WellFormed) :
    l.summary = l'.summary ↔ shown l.tests.count = shown l'.tests.count ∧
      shown l.failures.count = shown l'.failures.count ∧ shown l.ignored.count = shown l'.ignored.count := by
  simp only [Line.summary, Summary.mk.injEq, Int.natCast_inj, shown, String.ofList_inj,
    Text.Decimal.withoutZeros_inj h.tests.count.2 h'.tests.count.2,
    Text.Decimal.withoutZeros_inj h.failures.count.2 h'.failures.count.2,
    Text.Decimal.withoutZeros_inj h.ignored.count.2 h'.ignored.count.2]

/-- **Reports are the same text exactly if their counts are the same.** -/
theorem joinLines_reportLines_inj {l l' : Line} (h : l.WellFormed) (h' : l'.WellFormed) :
    joinLines (reportLines l (verdictLine l)) = joinLines (reportLines l' (verdictLine l')) ↔
      l.summary = l'.summary := by
  rw [summary_eq_iff_shown h h']
  constructor
  · intro hjoined
    have hlines := joinLines_inj (newline_notMem_reportLines h) (newline_notMem_reportLines h') hjoined
    simp only [reportLines, List.cons.injEq, String.append_right_inj] at hlines
    exact ⟨hlines.2.1, hlines.2.2.1, hlines.2.2.2.1⟩
  · intro hshown
    have hverdict : verdictLine l = verdictLine l' := by
      rw [verdictLine, verdictLine, (summary_eq_iff_shown h h').2 hshown, hshown.2.1]
    rw [reportLines, reportLines, hverdict, hshown.1, hshown.2.1, hshown.2.2]

namespace Check

/-- **A run that reports on a log**: it shows no colour, and checks a log that was read and that a summary line
occurs in. -/
structure Reports (setting : Setting) (argv : List String) (read : String → Reading) (bytes : List UInt8) : Prop where
  color : setting.color = false
  reads : ∃ path flags, Invocation.read argv = .check path flags ∧ read path = .ok bytes
  occurs : ∃ i j l, OccursAt (Text.Utf8.decode bytes) i j l

/-- What arrives of such a run is the report on the last line. -/
theorem Reports.exists_delivery {setting : Setting} {argv : List String} {read : String → Reading} {bytes : List UInt8}
    (h : Reports setting argv read bytes) :
    ∃ l d, LastLine (Text.Utf8.decode bytes) l ∧ (attempt setting argv read).map (·.deliver none) = .ok d ∧
      d.out = joinLines (reportLines l (verdictLine l)) ∧
      d.ending = .exited (if l.summary.failures = 0 then 0 else 1) := by
  obtain ⟨hcolor, ⟨path, flags, hargv, hread⟩, hoccurs⟩ := h
  obtain ⟨e, he⟩ := Option.ne_none_iff_exists'.1 (mt Summary.extract_eq_none_iff_occursAt.1 (not_not_intro hoccurs))
  obtain ⟨l, hl, hsummary⟩ := Summary.lastLine_of_extract he
  have hcoded : read path ≠ .error "" := by
    rw [hread]
    exact nofun
  have houtcome : Outcome.ofReading path (read path)
      = .completed (.ofFailures l.summary.failures) path e bytes.length := by
    rw [hread]
    exact Outcome.ofReading_ok_eq_completed_iff.2 ⟨he, by rw [hsummary], rfl⟩
  have hdelivery := deliver_perform_check setting read path flags
  simp only [houtcome, Outcome.exitCode_completed_ofFailures, hcolor] at hdelivery
  refine ⟨l, (perform setting read (.check path flags)).deliver none, hl, delivered_of_coded setting hargv hcoded, ?_, ?_⟩
  · rw [hdelivery, ← Report.completed_line hl.wellFormed, ← hsummary]
    rfl
  · rw [hdelivery]

/-- **A report is faithful to the log and to the exit code.**  A run without colour on a log with a summary does not
break off.  It prints six lines, which state the digit runs of the last line without the zeros in front; the verdict
passes exactly if the exit code is zero, which is so exactly if the printed failures are "0", and otherwise it states
them again, and the exit code is one.  What is printed depends on the three counts only, and tells them apart: any two
such runs print the same text exactly if the counts are the same numbers. -/
theorem attempt_prints {setting : Setting} {argv : List String} {read : String → Reading} {bytes : List UInt8}
    (h : Reports setting argv read bytes) :
    ∃ l d code last, LastLine (Text.Utf8.decode bytes) l ∧
      (attempt setting argv read).map (·.deliver none) = .ok d ∧ d.ending = .exited code ∧
      d.out = joinLines (reportLines l last) ∧ (∀ line ∈ reportLines l last, '\n' ∉ line.toList) ∧
      (last = "✅ All tests passed!" ↔ code = 0) ∧ (code = 0 ↔ shown l.failures.count = "0") ∧
      (code ≠ 0 → last = "❌ " ++ shown l.failures.count ++ " test(s) failed" ∧ code = 1) ∧
      ∀ setting' argv' read' bytes' l' d', Reports setting' argv' read' bytes' →
        LastLine (Text.Utf8.decode bytes') l' → (attempt setting' argv' read').map (·.deliver none) = .ok d' →
        (d'.out = d.out ↔ decimal l'.tests.count = decimal l.tests.count ∧
          decimal l'.failures.count = decimal l.failures.count ∧ decimal l'.ignored.count = decimal l.ignored.count) := by
  obtain ⟨l, d, hl, hattempt, hout, hending⟩ := h.exists_delivery
  have hwf := hl.wellFormed
  have hzero : l.summary.failures = 0 ↔ shown l.failures.count = "0" := by
    rw [shown_eq_zero_iff hwf.failures.count.2]
    exact Int.natCast_eq_zero
  refine ⟨l, d, _, verdictLine l, hl, hattempt, hending, hout, newline_notMem_reportLines hwf, ?_, ?_, ?_, ?_⟩
  · rw [verdictLine_eq_iff, ite_eq_left_iff]
    simp
  · rw [← hzero, ite_eq_left_iff]
    simp
  · intro hcode
    have hfailures : l.summary.failures ≠ 0 := fun hfailures => hcode (if_pos hfailures)
    exact ⟨if_neg hfailures, if_neg hfailures⟩
  · intro setting' argv' read' bytes' l' d' h' hl' hattempt'
    obtain ⟨l'', d'', hl'', hattempt'', hout', -⟩ := h'.exists_delivery
    rw [hattempt'] at hattempt''
    cases hattempt''
    cases hl'.unique hl''
    rw [hout, hout', joinLines_reportLines_inj hl'.wellFormed hwf, l.summary_eq_decimal, l'.summary_eq_decimal]
    simp only [Summary.mk.injEq, Int.natCast_inj]

/-- Zeros in front of a count are not printed, and of zeros alone one is. -/
theorem attempt_prints_zeros :
    let setting : Setting := ⟨.ofList [], false, false⟩
    let bytes := Text.Utf8.encode "007 Tests 00 Failures 3 Ignored".toList
    Reports setting ["log"] (fun _ => .ok bytes) bytes ∧
      ∃ d, (attempt setting ["log"] fun _ => .ok bytes).map (·.deliver none) = .ok d ∧ d.ending = .exited 0 ∧
        d.out = joinLines ["Test Results:", "  Total Tests: 7", "  Failures: 0", "  Ignored: 3", "",
          "✅ All tests passed!"] := by
  intro setting bytes
  have hextract : Summary.extract (Text.Utf8.decode bytes) = some ⟨⟨7, 0, 3⟩, 1, 0⟩ := by decide +kernel
  have hoccurs : ∃ i j l, OccursAt (Text.Utf8.decode bytes) i j l := by
    by_contra hnone
    rw [Summary.extract_eq_none_iff_occursAt.2 hnone] at hextract
    cases hextract
  have hreports : Reports setting ["log"] (fun _ => .ok bytes) bytes := ⟨rfl, ⟨"log", {}, rfl, rfl⟩, hoccurs⟩
  obtain ⟨l, d, code, last, hl, hattempt, hending, hout, -, hverdict, hcode, -⟩ := attempt_prints hreports
  obtain ⟨l', hl', hsummary⟩ := Summary.lastLine_of_extract hextract
  rw [hl'.unique hl] at hsummary
  have hwf := hl.wellFormed
  have htests : shown l.tests.count = print l.summary.tests := shown_eq hwf.tests.count.2
  have hfailures : shown l.failures.count = print l.summary.failures := shown_eq hwf.failures.count.2
  have hignored : shown l.ignored.count = print l.summary.ignored := shown_eq hwf.ignored.count.2
  rw [← hsummary] at htests hfailures hignored
  have hzero : code = 0 := hcode.2 hfailures
  refine ⟨hreports, d, hattempt, hzero ▸ hending, ?_⟩
  rw [hout, reportLines, hverdict.2 hzero, htests, hfailures, hignored]
  rfl

end Check
end LogVerdict
