import LogVerdict.Report
import LogVerdict.Transcript
import LogVerdict.Proofs.Joining
/-!
# TeedReport — a report inside a log

A report is full of near misses of a summary line: counts, the words "Tests", "Failures" and "Ignored", and line ends
between them.  But the characters that no line has in it (`Separates`) cut it into pieces each of which lacks a letter
of the line, and no line is cut off at its front or its back.  So a report keeps what comes before it apart from what
comes behind it (`Isolates`), whatever the counts are and whether it is coloured or not: a log with a report in it has
the lines of its two parts (`extract_around_report`).
-/
namespace LogVerdict
namespace Summary

open Text (unitLength unitLength_append)

/-! ## Texts that no line is in -/

/-- **A text that is no line**: a letter that every line has is missing. -/
def Incomplete (s : List Char) : Prop := ∃ c ∈ testsWord ++ (failuresWord ++ ignoredWord), c ∉ s

theorem Line.mem_text_of_mem_words {c : Char} (h : c ∈ testsWord ++ (failuresWord ++ ignoredWord)) (l : Line) :
    c ∈ l.text := by
  simp only [List.mem_append] at h
  simp only [Line.text, Tally.text, List.mem_append]
  rcases h with h | h | h
  · exact Or.inl (Or.inr (Or.inr h))
  · exact Or.inr (Or.inr (Or.inl (Or.inr (Or.inr h))))
  · exact Or.inr (Or.inr (Or.inr (Or.inr (Or.inr (Or.inr h)))))

theorem Incomplete.occurrences_eq_nil {s : List Char} (h : Incomplete s) (late : Bool) (offset : Nat) :
    occurrences late offset s = [] := by
  obtain ⟨c, hc, hs⟩ := h
  rw [List.eq_nil_iff_forall_not_mem]
  intro p hp
  obtain ⟨pre, post, rfl, -⟩ := mem_occurrences.1 hp
  exact hs (List.mem_append_right _ (List.mem_append_left _ (p.2.mem_text_of_mem_words hc)))

theorem Incomplete.of_subset {s t : List Char} (h : Incomplete t) (hs : s ⊆ t) : Incomplete s := by
  obtain ⟨c, hc, ht⟩ := h
  exact ⟨c, hc, fun hmem => ht (hs hmem)⟩

/-- No line reaches into a text in which it cannot end. -/
theorem headLine_append_of_notMem {t : List Char} (ht : 'd' ∉ t) (late : Bool) {s : List Char} (hs : s ≠ []) :
    headLine late (s ++ t) = headLine late s := by
  apply Option.ext
  intro l
  rw [headLine_eq_some_iff, headLine_eq_some_iff]
  refine and_congr_right fun _ => and_congr_right fun _ => ?_
  constructor
  · rintro ⟨u, hu⟩
    rcases List.append_eq_append_iff.1 hu with ⟨v, hv, rfl⟩ | ⟨v, hv, -⟩
    · obtain ⟨w, hw⟩ := l.exists_text_eq_concat
      rcases List.eq_nil_or_concat v with rfl | ⟨v', c, rfl⟩
      · exact ⟨[], by rw [hv]; simp⟩
      · have hlast := congrArg List.getLast? (hw.symm.trans hv)
        simp at hlast
        subst hlast
        simp at ht
    · exact ⟨v, hv⟩
  · rintro ⟨u, rfl⟩
    exact ⟨u ++ t, by rw [List.append_assoc]⟩

/-- Text in which no line can end adds none behind another text. -/
theorem occurrences_append_of_notMem {t : List Char} (ht : 'd' ∉ t) : ∀ (s : List Char) (late : Bool) (offset : Nat),
    occurrences late offset (s ++ t) = occurrences late offset s
  | [], late, offset => by
    have hnone : Incomplete t := ⟨'d', by decide, ht⟩
    rw [List.nil_append, hnone.occurrences_eq_nil]
    rfl
  | x :: s, late, offset => by
    have hhead := headLine_append_of_notMem ht late (List.cons_ne_nil x s)
    rw [List.cons_append] at hhead
    rw [List.cons_append, occurrences, occurrences, hhead, occurrences_append_of_notMem ht s]

/-! ## Texts that keep others apart -/

/-- **A text that keeps two others apart**: the lines of the whole are those of the one and those of the other. -/
def Isolates (r : List Char) : Prop :=
  ∀ s t late offset, occurrences late offset (s ++ (r ++ t))
    = occurrences late offset s ++ occurrences false (offset + unitLength (s ++ r)) t

theorem Separates.isolates {c : Char} (h : Separates c) : Isolates [c] :=
  fun s t late offset => h.occurrences_append t s late offset

/-- Between two texts that keep others apart, what lacks a letter of the line is kept apart too. -/
theorem Isolates.append_incomplete_append {r m q : List Char} (hr : Isolates r) (hm : Incomplete m) (hq : Isolates q) :
    Isolates (r ++ (m ++ q)) := by
  intro s t late offset
  rw [List.append_assoc, List.append_assoc, hr, hq, hm.occurrences_eq_nil, List.nil_append]
  simp only [unitLength_append, Nat.add_assoc]

theorem incomplete_nil : Incomplete [] := ⟨'T', by decide, List.not_mem_nil⟩

theorem Isolates.append {r q : List Char} (hr : Isolates r) (hq : Isolates q) : Isolates (r ++ q) :=
  hr.append_incomplete_append incomplete_nil hq

theorem Isolates.append_of_not_isDigit {r b : List Char} (hr : Isolates r) (hb : ∀ c ∈ b, c.isDigit = false) :
    Isolates (r ++ b) := by
  intro s t late offset
  rw [List.append_assoc, hr, occurrences_append_of_not_isDigit t b _ hb]
  simp only [unitLength_append, Nat.add_assoc]

theorem Isolates.behind {a r : List Char} (hr : Isolates r) (ha : 'd' ∉ a) : Isolates (a ++ r) := by
  intro s t late offset
  rw [List.append_assoc, ← List.append_assoc s, hr, occurrences_append_of_notMem ha, List.append_assoc]

theorem isolates_escape {code : List Char} (h : Incomplete code) : Isolates (escape code) := by
  have hescape : Isolates ['\x1b'] := Separates.isolates ⟨by decide, by decide, by decide⟩
  have hbracket : Isolates ['['] := Separates.isolates ⟨by decide, by decide, by decide⟩
  have hm : Isolates ['m'] := Separates.isolates ⟨by decide, by decide, by decide⟩
  exact hescape.append (hbracket.append_incomplete_append h hm)

/-- **Painted text keeps others apart**, if it is no line itself. -/
theorem isolates_paint (style : Style) {s : List Char} (hs : '\x1b' ∉ s) (hm : Incomplete s) :
    Isolates (style.paint s) := by
  have hopening : Isolates style.opening := by
    cases style <;> exact isolates_escape ⟨'T', by decide, by decide⟩
  have hclosing : Isolates style.closing := by
    cases style <;> exact isolates_escape ⟨'T', by decide, by decide⟩
  rw [style.paint_of_escape_notMem hs]
  exact hopening.append_incomplete_append hm hclosing

theorem isolates_paintIf (color : Bool) (style : Style) {m : String} (hm : Isolates m.toList)
    (hescape : '\x1b' ∉ m.toList) (hpiece : Incomplete m.toList) : Isolates (style.paintIf color m).toList := by
  rw [Style.toList_paintIf]
  cases color with
  | false => exact hm
  | true => exact isolates_paint style hescape hpiece

/-- Between two texts that keep others apart, a piece of text may be painted. -/
theorem Isolates.append_paintIf_append {r a b q : List Char} {m : String} (color : Bool) (style : Style)
    (hr : Isolates r) (hq : Isolates q) (hescape : '\x1b' ∉ m.toList) (hpiece : Incomplete (a ++ (m.toList ++ b))) :
    Isolates (r ++ (a ++ ((style.paintIf color m).toList ++ (b ++ q)))) := by
  rw [Style.toList_paintIf]
  cases color with
  | false =>
    have hwhole := hr.append_incomplete_append hpiece hq
    rwa [List.append_assoc, List.append_assoc] at hwhole
  | true =>
    have hpaint : Isolates (style.paint m.toList) := isolates_paint style hescape (hpiece.of_subset (by simp))
    exact hr.append_incomplete_append (hpiece.of_subset (by simp))
      (hpaint.append_incomplete_append (hpiece.of_subset (by simp)) hq)

end Summary

namespace Report

open Summary (Isolates Separates isolates_paintIf)
open Text.Decimal (print notMem_print)

theorem count_eq_paintIf (color : Bool) (style : Style) (n : Int) :
    count color style n = style.paintIf (color && n != 0) (print n) := by
  unfold count
  by_cases h : n = 0
  · simp [h, Style.paintIf]
  · rw [if_neg h, bne_iff_ne.2 h, Bool.and_true]

theorem toList_joinLines_completed (color : Bool) (status : Status) (s : Summary) :
    (joinLines (completed color status s)).toList =
      (Style.bold.paintIf color "Test Results:").toList ++ ("\n  Total Tests".toList ++ ([':'] ++
        (" ".toList ++ (print s.tests).toList ++ "\n  Failures".toList ++ ([':'] ++
        (" ".toList ++ ((count color .red s.failures).toList ++ ("\n  Ignored".toList ++ ([':'] ++
        (" ".toList ++ ((count color .yellow s.ignored).toList ++ ("\n\n".toList ++
        ((verdict color s.failures status).toList ++ ['\n'])))))))))))) := by
  simp [joinLines, completed, String.join]

theorem isolates_colon : Isolates [':'] := Separates.isolates ⟨by decide, by decide, by decide⟩

theorem isolates_title (color : Bool) : Isolates (Style.bold.paintIf color "Test Results:").toList := by
  have hsplit : "Test Results:".toList = "Test Results".toList ++ [':'] := by simp
  refine isolates_paintIf color .bold ?_ (by decide) ⟨'F', by decide, by decide⟩
  rw [hsplit]
  exact isolates_colon.behind (by decide)

theorem isolates_verdict_allPassed (color : Bool) (failures : Int) :
    Isolates (verdict color failures .allPassed).toList := by
  have hcheck : Isolates ['✅'] := Separates.isolates ⟨by decide, by decide, by decide⟩
  have hsplit : "✅ All tests passed!".toList = ['✅'] ++ " All tests passed!".toList := by simp
  refine isolates_paintIf color .green ?_ (by decide) ⟨'T', by decide, by decide⟩
  rw [hsplit]
  exact hcheck.append_of_not_isDigit (by simp)

theorem isolates_verdict_someFailed (color : Bool) (failures : Int) :
    Isolates (verdict color failures .someFailed).toList := by
  have hcross : Isolates ['❌'] := Separates.isolates ⟨by decide, by decide, by decide⟩
  have hparenthesis : Isolates ['('] := Separates.isolates ⟨by decide, by decide, by decide⟩
  have hT : 'T' ∉ (print failures).toList := notMem_print (by decide) (by decide) failures
  have hescape : '\x1b' ∉ (print failures).toList := notMem_print (by decide) (by decide) failures
  have hsplit : ("❌ " ++ print failures ++ " test(s) failed").toList =
      ['❌'] ++ (" ".toList ++ (print failures).toList ++ " test".toList ++ (['('] ++ "s) failed".toList)) := by
    simp
  refine isolates_paintIf color .red ?_ (by simp [hescape]) ⟨'T', by decide, by simp [hT]⟩
  rw [hsplit]
  exact hcross.append_incomplete_append ⟨'T', by decide, by simp [hT]⟩
    (hparenthesis.append_of_not_isDigit (by simp))

theorem isolates_verdict (color : Bool) (failures : Int) (status : Status) :
    Isolates (verdict color failures status).toList := by
  cases status with
  | allPassed => exact isolates_verdict_allPassed color failures
  | someFailed => exact isolates_verdict_someFailed color failures

/-- **A report keeps what comes before it apart from what comes behind it**, whatever it counts. -/
theorem isolates_completed (color : Bool) (status : Status) (s : Summary) :
    Isolates (joinLines (completed color status s)).toList := by
  have hT : ∀ n, 'T' ∉ (print n).toList := notMem_print (by decide) (by decide)
  have hI : ∀ n, 'I' ∉ (print n).toList := notMem_print (by decide) (by decide)
  have hescape : ∀ n, '\x1b' ∉ (print n).toList := notMem_print (by decide) (by decide)
  rw [toList_joinLines_completed, count_eq_paintIf, count_eq_paintIf]
  -- from the back to the front, each piece between two colons lacks a letter
  have hverdict := (isolates_verdict color s.failures status).append_of_not_isDigit (b := ['\n']) (by simp)
  have hignored := isolates_colon.append_paintIf_append (a := " ".toList) (b := "\n\n".toList)
    (color && s.ignored != 0) .yellow hverdict (hescape s.ignored) ⟨'T', by decide, by simp [hT]⟩
  have hfailures := isolates_colon.append_paintIf_append (a := " ".toList) (b := "\n  Ignored".toList)
    (color && s.failures != 0) .red hignored (hescape s.failures) ⟨'T', by decide, by simp [hT]⟩
  have htests := isolates_colon.append_incomplete_append
    (m := " ".toList ++ (print s.tests).toList ++ "\n  Failures".toList) ⟨'I', by decide, by simp [hI]⟩ hfailures
  exact (isolates_title color).append_incomplete_append ⟨'F', by decide, by decide⟩ htests

end Report

namespace Summary

open Text (unitLength)

/-- **A report inside a log is no summary.**  Whatever a report counts and whichever status it has, with colour and
without, a log with a report in it has as many lines as what comes before the report and what comes behind it have
together.  The last one is the last one of what comes behind, moved by what is in front of it; if there is none, it is
the last one of what comes before, where it was; and there is no summary exactly if neither part has one. -/
theorem extract_around_report (color : Bool) (status : Status) (path : String) (e : Extraction) (bytes : Nat)
    (s t : List Char) :
    let r := (joinLines (Report.ofOutcome color (.completed status path e bytes)).out).toList
    lineCount (s ++ (r ++ t)) = lineCount s + lineCount t ∧
    extract (s ++ (r ++ t)) = ((extract t).elim (extract s) fun last =>
      some ⟨last.summary, lineCount s + last.matchCount, unitLength (s ++ r) + last.offset⟩) ∧
    (extract (s ++ (r ++ t)) = none ↔ extract s = none ∧ extract t = none) := by
  intro r
  have hlines := Report.isolates_completed color status e.summary s t false 0
  rw [Nat.add_comm, occurrences_add] at hlines
  refine ⟨?_, ?_, ?_⟩
  · simp only [lineCount_eq, r, Report.ofOutcome, hlines, List.length_append, List.length_map]
  · simp only [extract_eq, r, Report.ofOutcome, hlines, List.getLast?_append, List.getLast?_map, lineCount_eq,
      List.length_append, List.length_map]
    cases h : (occurrences false 0 t).getLast? with
    | none =>
      rw [List.getLast?_eq_none_iff.1 h]
      simp
    | some p => simp
  · simp only [extract_eq_none_iff, r, Report.ofOutcome, hlines, List.append_eq_nil_iff, List.map_eq_nil_iff]

end Summary
end LogVerdict
