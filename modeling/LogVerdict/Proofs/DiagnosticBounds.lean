import LogVerdict.Outcome
import LogVerdict.Proofs.Decoding
import LogVerdict.Proofs.Occurrences
/-!
# DiagnosticBounds — how the numbers of a check hang together

An offset counts UTF-16 units of text and a file is measured in bytes.  Decoding never makes more units than there are
bytes: each byte is worth one, and a character that is not finished yet is worth one more (`unitLength_decodeFrom_le`).
A summary line has at least 28 units, and lines lie apart, so the offset of the last one leaves room for all lines
before it, and the file for the last one (`ofReading_bounds`).
-/
namespace LogVerdict

namespace Text
namespace Utf8

/-! ## Units and bytes -/

/-- The units that bytes which are read but not decoded yet may still become. -/
def owed : State → Nat
  | .between => 0
  | .inside .. => 1

theorem width_le_two (c : Char) : width c ≤ 2 := by
  unfold width
  split <;> decide

theorem width_le_length_encodeChar (c : Char) : width c ≤ (String.utf8EncodeChar c).length := by
  unfold width
  split
  · rw [String.length_utf8EncodeChar]
    exact c.utf8Size_pos
  · rw [encodeChar_eq, if_neg (by omega), if_neg (by omega), if_neg (by omega)]
    simp

theorem unitLength_lead_le (b : UInt8) : unitLength (lead b).1 + owed (lead b).2 ≤ 1 := by
  rcases lead_cases b with ⟨c, h, hc⟩ | h | ⟨later, bits, low, high, h, -⟩
  · have hwidth := width_le_length_encodeChar c
    rw [hc] at hwidth
    rw [h]
    simpa [owed] using hwidth
  · rw [h]
    decide
  · rw [h]
    exact Nat.le_refl 1

/-- A byte is worth one unit, and what it finishes or breaks off was owed before. -/
theorem unitLength_step_le (q : State) (b : UInt8) : unitLength (step q b).1 + owed (step q b).2 ≤ owed q + 1 := by
  have hlead := unitLength_lead_le b
  cases q with
  | between =>
    rw [step]
    exact Nat.le_trans hlead (Nat.le_add_left _ _)
  | inside later bits low high =>
    by_cases hb : low ≤ b ∧ b ≤ high
    · cases later with
      | zero =>
        have hwidth := width_le_two (Char.ofNat (bits * 0x40 + (b.toNat - 0x80)))
        rw [step_of_range_zero hb]
        simpa [owed] using hwidth
      | succ later =>
        rw [step_of_range_succ hb]
        simp [owed]
    · have hreplacement : width replacement = 1 := rfl
      rw [step_of_not_range hb, unitLength_cons, hreplacement, Nat.add_assoc]
      exact Nat.add_le_add_left hlead 1

theorem unitLength_finish (q : State) : unitLength (finish q) = owed q := by
  cases q <;> rfl

/-- **Bytes make no more units than they are**, but for what was owed before them. -/
theorem unitLength_decodeFrom_le : ∀ (bs : List UInt8) (q : State), unitLength (decodeFrom q bs) ≤ owed q + bs.length
  | [], q => by
    rw [decodeFrom, unitLength_finish]
    exact Nat.le_add_right _ _
  | b :: bs, q => by
    have hstep := unitLength_step_le q b
    have hrest := unitLength_decodeFrom_le bs (step q b).2
    rw [decodeFrom, unitLength_append, List.length_cons]
    omega

theorem unitLength_decode_le (bs : List UInt8) : unitLength (decode bs) ≤ bs.length := by
  have hle := unitLength_decodeFrom_le bs .between
  rw [decode_eq]
  simpa [owed] using hle

end Utf8
end Text

namespace Summary

open Text (unitLength unitLength_append IsRun)
open Text.Utf8 (decode)

/-! ## Lines and offsets -/

theorem one_le_unitLength_of_isRun {p : Char → Bool} {r : List Char} (h : IsRun p r) : 1 ≤ unitLength r := by
  rw [Nat.one_le_iff_ne_zero]
  intro hzero
  exact h.1 (Text.eq_nil_of_unitLength_eq_zero hzero)

/-- **The least length of a line**: three words, three counts and five gaps. -/
theorem Line.WellFormed.unitLength_text_ge {l : Line} (h : l.WellFormed) : 28 ≤ unitLength l.text := by
  have htests := one_le_unitLength_of_isRun h.tests.count
  have htestsGap := one_le_unitLength_of_isRun h.tests.gap
  have hbeforeFailures := one_le_unitLength_of_isRun h.beforeFailures
  have hfailures := one_le_unitLength_of_isRun h.failures.count
  have hfailuresGap := one_le_unitLength_of_isRun h.failures.gap
  have hbeforeIgnored := one_le_unitLength_of_isRun h.beforeIgnored
  have hignored := one_le_unitLength_of_isRun h.ignored.count
  have hignoredGap := one_le_unitLength_of_isRun h.ignored.gap
  have hwords : unitLength testsWord = 5 ∧ unitLength failuresWord = 8 ∧ unitLength ignoredWord = 7 := by decide
  simp only [Line.text, Tally.text, unitLength_append]
  omega

/-- A line of the least length. -/
example : unitLength "1 Tests 0 Failures 0 Ignored".toList = 28 := by decide

theorem mul_length_le_of_pairwise {n : Nat} {p : Nat × Line} {ps : List (Nat × Line)}
    (h : (ps ++ [p]).Pairwise fun p q => p.1 + n ≤ q.1) : n * ps.length ≤ p.1 := by
  induction ps using List.reverseRecOn generalizing p with
  | nil => exact Nat.zero_le _
  | append_singleton ps q ih =>
    obtain ⟨hps, -, hlast⟩ := List.pairwise_append.1 h
    have hq := ih hps
    have hp := hlast q List.mem_concat_self p List.mem_cons_self
    rw [List.length_append, List.length_singleton, Nat.mul_succ]
    omega

theorem pairwise_occurrences_ge (s : List Char) : (occurrences false 0 s).Pairwise fun p q => p.1 + 28 ≤ q.1 := by
  refine (pairwise_occurrences s 0).imp_of_mem ?_
  intro p q hp _ hapart
  obtain ⟨-, -, -, hl, -⟩ := mem_occurrences.1 hp
  have hlength := hl.unitLength_text_ge
  omega

/-- The last line has room behind its offset, and the lines before it in front. -/
theorem extract_bounds {s : List Char} {e : Extraction} (h : extract s = some e) :
    1 ≤ e.matchCount ∧ 28 * (e.matchCount - 1) ≤ e.offset ∧ e.offset + 28 ≤ unitLength s := by
  obtain ⟨ps, p, hps, rfl⟩ := extract_eq_some_iff.1 h
  have hapart := pairwise_occurrences_ge s
  rw [hps] at hapart
  have hmem : p ∈ occurrences false 0 s := by rw [hps]; exact List.mem_concat_self
  obtain ⟨pre, post, rfl, hl, -, hoffset⟩ := mem_occurrences.1 hmem
  have hlength := hl.unitLength_text_ge
  refine ⟨Nat.le_add_left _ _, mul_length_le_of_pairwise hapart, ?_⟩
  simp only [unitLength_append]
  omega

theorem extract_nonneg {s : List Char} {e : Extraction} (h : extract s = some e) :
    0 ≤ e.summary.tests ∧ 0 ≤ e.summary.failures ∧ 0 ≤ e.summary.ignored := by
  obtain ⟨ps, p, -, rfl⟩ := extract_eq_some_iff.1 h
  exact ⟨Int.natCast_nonneg _, Int.natCast_nonneg _, Int.natCast_nonneg _⟩

/-- **The numbers of a check are consistent.**  The text of a log is no longer in UTF-16 units than the log is in bytes.
A completed check has found a line, its counts are not negative, its offset leaves room for the lines before the last
one, and the bytes read leave room for the last one behind the offset. -/
theorem ofReading_bounds (b : List UInt8) :
    (Text.units (decode b)).length ≤ b.length ∧
    ∀ path status e bytes, Outcome.ofReading path (.ok b) = .completed status path e bytes →
      1 ≤ e.matchCount ∧ 0 ≤ e.summary.tests ∧ 0 ≤ e.summary.failures ∧ 0 ≤ e.summary.ignored ∧
      28 * (e.matchCount - 1) ≤ e.offset ∧ e.offset + 28 ≤ bytes := by
  have hunits := Text.Utf8.unitLength_decode_le b
  rw [Text.length_units]
  refine ⟨hunits, fun path status e bytes h => ?_⟩
  obtain ⟨hextract, -, rfl⟩ := Outcome.ofReading_ok_eq_completed_iff.1 h
  obtain ⟨hcount, hbefore, hbehind⟩ := extract_bounds hextract
  obtain ⟨htests, hfailures, hignored⟩ := extract_nonneg hextract
  exact ⟨hcount, htests, hfailures, hignored, hbefore, Nat.le_trans hbehind hunits⟩

/-- Two lines of the least length, with a broken character between them. -/
theorem ofReading_bounds_tight :
    let line := Text.Utf8.encode "1 Tests 0 Failures 0 Ignored".toList
    Outcome.ofReading "log" (.ok (line ++ 0xFF :: line)) = .completed .allPassed "log" ⟨⟨1, 0, 0⟩, 2, 29⟩ 57 ∧
      28 * (2 - 1) ≤ 29 ∧ 29 + 28 ≤ 57 := by
  intro line
  have hline : Outcome.ofReading "log" (.ok (line ++ 0xFF :: line)) =
      .completed .allPassed "log" ⟨⟨1, 0, 0⟩, 2, 29⟩ 57 := by
    decide +kernel
  obtain ⟨-, -, -, -, hbefore, hbehind⟩ := (ofReading_bounds (line ++ 0xFF :: line)).2 _ _ _ _ hline
  exact ⟨hline, hbefore, hbehind⟩

end Summary
end LogVerdict
