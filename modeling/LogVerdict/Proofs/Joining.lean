import LogVerdict.Outcome
import LogVerdict.Proofs.LastOccurrence
import Mathlib.Data.List.DropRight
/-!
# Joining — the summary lines of joined texts

Every line of a text is one still when another text is put in front: its offset moves, and a line at the very head takes
the digits in front of it into its first count (`exists_occurrences_prepend`).  So nothing that comes before the last
line changes a verdict (`extract_prepend`).  A character that no line has in it keeps two texts apart: the lines of the
whole are those of the one and those of the other (`Separates.occurrences_append`, `extract_separated`).
-/
namespace LogVerdict
namespace Summary

open Text (unitLength unitLength_append unitLength_cons eq_nil_of_unitLength_eq_zero width width_pos isBlank)

/-- How many summary lines a text holds. -/
def lineCount (s : List Char) : Nat := (extract s).elim 0 (·.matchCount)

theorem lineCount_eq (s : List Char) : lineCount s = (occurrences false 0 s).length := by
  unfold lineCount
  cases h : extract s with
  | none => rw [extract_eq_none_iff.1 h]; rfl
  | some e =>
    obtain ⟨ps, p, hps, rfl⟩ := extract_eq_some_iff.1 h
    rw [hps, List.length_append]
    rfl

/-- A digit in front of a text takes away no line but the one at its head. -/
theorem occurrences_false_eq (offset : Nat) (s : List Char) :
    occurrences false offset s = ((headLine false s).map (offset, ·)).toList ++ occurrences true offset s := by
  cases s with
  | nil => rfl
  | cons c s =>
    rw [occurrences, occurrences]
    rfl

/-- A line at offset `0` stands at the head of its text, and no digit comes before it. -/
theorem head_of_mem_occurrences {late : Bool} {s : List Char} {p : Nat × Line} (h : p ∈ occurrences late 0 s)
    (hp : p.1 = 0) : late = false ∧ p.2.WellFormed ∧ ∃ post, s = p.2.text ++ post := by
  obtain ⟨pre, post, rfl, hl, hlate, hoffset⟩ := mem_occurrences.1 h
  have hpre : pre = [] := eq_nil_of_unitLength_eq_zero (by omega)
  rw [hpre] at hlate ⊢
  exact ⟨hlate, hl, post, rfl⟩

/-! ## A text in front -/

/-- A line of a text as it is read behind digits that start at `offset`: the line at the head starts where they do. -/
def behindDigits (offset : Nat) (digits : List Char) (p : Nat × Line) : Nat × Line :=
  if p.1 = 0 then (offset, p.2.extend digits) else (offset + unitLength digits + p.1, p.2)

theorem behindDigits_nil (offset : Nat) : behindDigits offset [] = fun p => (offset + p.1, p.2) := by
  funext p
  unfold behindDigits
  split
  · rename_i h
    rw [h]
    rfl
  · rfl

/-- **Digits in front of a text** may start a line of their own, and keep every line of the text. -/
theorem exists_occurrences_digits_append {d : List Char} (hd : ∀ c ∈ d, c.isDigit = true) (offset : Nat)
    (s : List Char) :
    ∃ ps, occurrences false offset (d ++ s) = ps ++ (occurrences false 0 s).map (behindDigits offset d) := by
  rcases List.eq_nil_or_concat d with rfl | ⟨d', c, hconcat⟩
  · refine ⟨[], ?_⟩
    rw [behindDigits_nil, ← occurrences_add]
    rfl
  have hne : d ≠ [] := by rw [hconcat]; simp
  obtain ⟨x, r, rfl⟩ := List.exists_cons_of_ne_nil hne
  -- within the digits only the first one can start a line, so behind it the two texts have the same lines
  have hx : x.isDigit = true := hd x List.mem_cons_self
  have hrest : occurrences true offset (x :: r ++ s) = occurrences true (offset + unitLength (x :: r)) s :=
    occurrences_append_of_isDigit s (x :: r) offset hd
  have hmap : (occurrences true 0 s).map (behindDigits offset (x :: r))
      = occurrences true (offset + unitLength (x :: r)) s := by
    rw [← Nat.add_zero (offset + unitLength (x :: r)), occurrences_add]
    apply List.map_congr_left
    intro p hp
    have hpos : p.1 ≠ 0 := fun hzero => nomatch (head_of_mem_occurrences hp hzero).1
    rw [behindDigits, if_neg hpos]
  rw [occurrences_false_eq offset (x :: r ++ s), occurrences_false_eq 0 s, List.map_append, hrest, hmap]
  cases h : headLine false s with
  | none => exact ⟨_, rfl⟩
  | some l =>
    rw [headLine_digits_append hd h]
    exact ⟨[], rfl⟩

theorem exists_occurrences_append (t : List Char) : ∀ (s : List Char) (late : Bool) (offset : Nat),
    ∃ ps, occurrences late offset (s ++ t) = ps ++ occurrences (endsInDigit late s) (offset + unitLength s) t
  | [], _, _ => ⟨[], rfl⟩
  | c :: s, late, offset => by
    obtain ⟨ps, hps⟩ := exists_occurrences_append t s c.isDigit (offset + width c)
    refine ⟨((headLine late (c :: (s ++ t))).map (offset, ·)).toList ++ ps, ?_⟩
    rw [List.cons_append, occurrences, hps, unitLength_cons, List.append_assoc, Nat.add_assoc]
    rfl

theorem endsInDigit_iff (s : List Char) : endsInDigit false s = true ↔ ∃ c ∈ s.getLast?, c.isDigit = true := by
  rcases List.eq_nil_or_concat s with rfl | ⟨s, c, rfl⟩
  · simp [endsInDigit]
  · rw [List.concat_eq_append, endsInDigit_append, List.getLast?_concat]
    simp [endsInDigit]

theorem endsInDigit_rdropWhile (s : List Char) : endsInDigit false (s.rdropWhile Char.isDigit) = false := by
  rw [← Bool.not_eq_true, endsInDigit_iff]
  rintro ⟨c, hc, hdigit⟩
  obtain ⟨hne, hlast⟩ := List.mem_getLast?_eq_getLast hc
  rw [hlast] at hdigit
  exact List.rdropWhile_last_not Char.isDigit s hne hdigit

/-- A line of a text as it is read behind another text, which may end in digits. -/
def behind (s : List Char) (p : Nat × Line) : Nat × Line :=
  behindDigits (unitLength (s.rdropWhile Char.isDigit)) (s.rtakeWhile Char.isDigit) p

/-- **A text in front of another** keeps every line of it, behind the digits that it ends in. -/
theorem exists_occurrences_prepend (s t : List Char) :
    ∃ ps, occurrences false 0 (s ++ t) = ps ++ (occurrences false 0 t).map (behind s) := by
  have hsplit : s ++ t = s.rdropWhile Char.isDigit ++ (s.rtakeWhile Char.isDigit ++ t) := by
    rw [← List.append_assoc, List.rdropWhile_append_rtakeWhile]
  obtain ⟨ps, hps⟩ :=
    exists_occurrences_append (s.rtakeWhile Char.isDigit ++ t) (s.rdropWhile Char.isDigit) false 0
  obtain ⟨qs, hqs⟩ := exists_occurrences_digits_append (d := s.rtakeWhile Char.isDigit)
    (fun c hc => List.mem_rtakeWhile_imp hc) (unitLength (s.rdropWhile Char.isDigit)) t
  refine ⟨ps ++ qs, ?_⟩
  rw [hsplit, hps, endsInDigit_rdropWhile, Nat.zero_add, hqs, List.append_assoc]
  rfl

/-- No digit in front reaches the two counts behind the first. -/
theorem exists_summary_behind (s : List Char) (p : Nat × Line) :
    ∃ tests, (behind s p).2.summary = { p.2.summary with tests } := by
  unfold behind behindDigits
  split
  · exact ⟨_, rfl⟩
  · exact ⟨_, rfl⟩

theorem Line.WellFormed.takeWhile_text {l : Line} (h : l.WellFormed) (t : List Char) :
    (l.text ++ t).takeWhile Char.isDigit = l.tests.count := by
  have hsplit : l.text ++ t = l.tests.count ++ (l.tests.gap ++ (testsWord ++ (l.beforeFailures ++
      (l.failures.text failuresWord ++ (l.beforeIgnored ++ (l.ignored.text ignoredWord ++ t)))))) := by
    simp [Line.text, Tally.text]
  rw [hsplit]
  exact (Text.takeWhile_append_of_isRun h.tests.count.2 (stopsAt_isDigit_blanks h.tests.gap)).1

theorem count_eq_takeWhile {s : List Char} {p : Nat × Line} (h : p ∈ occurrences false 0 s) (hp : p.1 = 0) :
    p.2.tests.count = s.takeWhile Char.isDigit := by
  obtain ⟨-, hl, post, rfl⟩ := head_of_mem_occurrences h hp
  exact (hl.takeWhile_text post).symm

theorem unitLength_rdropWhile_lt {s : List Char} (h : ∃ c ∈ s.getLast?, c.isDigit = true) :
    unitLength (s.rdropWhile Char.isDigit) < unitLength s := by
  obtain ⟨c, hc, hdigit⟩ := h
  obtain ⟨t, rfl⟩ := List.getLast?_eq_some_iff.1 hc
  have hlast := width_pos c
  have hwhole := congrArg unitLength (List.rdropWhile_append_rtakeWhile (p := Char.isDigit) (l := t))
  rw [List.rdropWhile_concat, if_pos hdigit, unitLength_append, unitLength_cons]
  rw [unitLength_append] at hwhole
  omega

/-- A line that is not joined to a digit run only moves. -/
theorem behind_of_not_joined {s : List Char} {p : Nat × Line}
    (h : ¬ (p.1 = 0 ∧ ∃ c ∈ s.getLast?, c.isDigit = true)) : behind s p = (unitLength s + p.1, p.2) := by
  have hwhole := congrArg unitLength (List.rdropWhile_append_rtakeWhile (p := Char.isDigit) (l := s))
  by_cases hp : p.1 = 0
  · have hnil : s.rtakeWhile Char.isDigit = [] := by
      rw [List.rtakeWhile_eq_nil_iff]
      intro hne hdigit
      exact h ⟨hp, _, List.getLast?_eq_some_getLast hne, hdigit⟩
    rw [hnil, List.append_nil] at hwhole
    rw [behind, hnil, behindDigits_nil, hwhole]
  · rw [unitLength_append] at hwhole
    rw [behind, behindDigits, if_neg hp, hwhole]

/-- **What comes before the last line changes no verdict.**  A text with a summary has one behind any other text: the
failures and the ignored tests are the same, and there are no fewer lines.  The tests are the same too, and the offset
moves by the length of the other text, unless the line stands at the very head and digits come before it: these are then
the first ones of its count, and it starts where they do.  So a log that holds the one text and a log that holds both
complete with the same status. -/
theorem extract_prepend (s : List Char) {t : List Char} {e : Extraction} (h : extract t = some e) :
    ∃ e', extract (s ++ t) = some e' ∧
      e'.summary.failures = e.summary.failures ∧ e'.summary.ignored = e.summary.ignored ∧
      e.matchCount ≤ e'.matchCount ∧
      ((e'.summary.tests = e.summary.tests ∧ e'.offset = unitLength s + e.offset) ↔
        ¬ (e.offset = 0 ∧ ∃ c ∈ s.getLast?, c.isDigit = true)) ∧
      (e.offset = 0 → (∃ c ∈ s.getLast?, c.isDigit = true) →
        e'.summary.tests = decimal (s.rtakeWhile Char.isDigit ++ t.takeWhile Char.isDigit) ∧
        e'.offset = unitLength (s.rdropWhile Char.isDigit)) ∧
      ∀ path b b', Text.Utf8.decode b = t → Text.Utf8.decode b' = s ++ t →
        ∃ status, Outcome.ofReading path (.ok b) = .completed status path e b.length ∧
          Outcome.ofReading path (.ok b') = .completed status path e' b'.length := by
  obtain ⟨qs, q, hqs, rfl⟩ := extract_eq_some_iff.1 h
  obtain ⟨ps, hps⟩ := exists_occurrences_prepend s t
  obtain ⟨tests, hsummary⟩ := exists_summary_behind s q
  have hfailures : (behind s q).2.summary.failures = q.2.summary.failures := by rw [hsummary]
  have hignored : (behind s q).2.summary.ignored = q.2.summary.ignored := by rw [hsummary]
  have hjoined : q.1 = 0 →
      behind s q = (unitLength (s.rdropWhile Char.isDigit), q.2.extend (s.rtakeWhile Char.isDigit)) := by
    intro hq
    rw [behind, behindDigits, if_pos hq]
  rw [hqs, List.map_append, List.map_singleton, ← List.append_assoc] at hps
  have hextract := extract_eq_some_iff.2 ⟨_, _, hps, rfl⟩
  refine ⟨_, hextract, hfailures, hignored, ?_, ?_, ?_, ?_⟩
  · simp only [List.length_append, List.length_map]
    omega
  · constructor
    · intro hsame hbehind
      have hlt := unitLength_rdropWhile_lt hbehind.2
      have hoffset : (behind s q).1 = unitLength s + q.1 := hsame.2
      rw [hjoined hbehind.1] at hoffset
      simp only at hoffset
      omega
    · intro hclear
      rw [behind_of_not_joined hclear]
      exact ⟨rfl, rfl⟩
  · intro hq hdigit
    have hmem : q ∈ occurrences false 0 t := by rw [hqs]; exact List.mem_concat_self
    rw [hjoined hq, ← count_eq_takeWhile hmem hq, ← value_eq_decimal]
    exact ⟨rfl, rfl⟩
  · intro path b b' hb hb'
    refine ⟨.ofFailures q.2.summary.failures, ?_, ?_⟩
    · exact Outcome.ofReading_ok_eq_completed_iff.2 ⟨hb ▸ h, rfl, rfl⟩
    · refine Outcome.ofReading_ok_eq_completed_iff.2 ⟨hb' ▸ hextract, ?_, rfl⟩
      rw [hfailures]

/-- A line that is joined to a digit in front of it counts with that digit. -/
theorem extract_prepend_glued :
    extract "23 Tests 4 Failures 5 Ignored".toList = some ⟨⟨23, 4, 5⟩, 1, 0⟩ ∧
      ∃ e, extract ("x1".toList ++ "23 Tests 4 Failures 5 Ignored".toList) = some e ∧
        e.summary = ⟨123, 4, 5⟩ ∧ e.offset = 1 := by
  have hline : extract "23 Tests 4 Failures 5 Ignored".toList = some ⟨⟨23, 4, 5⟩, 1, 0⟩ := by decide +kernel
  obtain ⟨⟨⟨tests, failures, ignored⟩, count, offset⟩, hextract, hfailures, hignored, -, -, hjoined, -⟩ :=
    extract_prepend "x1".toList hline
  obtain ⟨htests, hoffset⟩ := hjoined rfl ⟨'1', rfl, rfl⟩
  refine ⟨hline, _, hextract, ?_, hoffset⟩
  have hcount : decimal ("x1".toList.rtakeWhile Char.isDigit ++ "23 Tests 4 Failures 5 Ignored".toList.takeWhile
      Char.isDigit) = 123 := by decide
  rw [hcount] at htests
  simp only at hfailures hignored htests
  rw [hfailures, hignored, htests]
  rfl

/-! ## A character between two texts -/

/-- **A character that no summary line has in it**: no digit, no blank, and no letter of the three words. -/
structure Separates (c : Char) : Prop where
  noDigit : c.isDigit = false
  noBlank : isBlank c = false
  noLetter : c ∉ testsWord ++ (failuresWord ++ ignoredWord)

theorem Separates.notMem_text {c : Char} (h : Separates c) {l : Line} (hl : l.WellFormed) : c ∉ l.text := by
  intro hc
  rcases hl.mem_text hc with hdigit | hblank | hletter
  · rw [h.noDigit] at hdigit
    cases hdigit
  · rw [h.noBlank] at hblank
    cases hblank
  · exact h.noLetter hletter

/-- No line reaches across such a character. -/
theorem Separates.headLine_append {c : Char} (h : Separates c) (late : Bool) (s t : List Char) :
    headLine late (s ++ c :: t) = headLine late s := by
  apply Option.ext
  intro l
  rw [headLine_eq_some_iff, headLine_eq_some_iff]
  refine and_congr_right fun _ => and_congr_right fun hl => ?_
  constructor
  · rintro ⟨u, hu⟩
    obtain ⟨v, hv, -⟩ := Text.exists_append_of_notMem (h.notMem_text hl) hu.symm
    exact ⟨v, hv⟩
  · rintro ⟨u, rfl⟩
    exact ⟨u ++ c :: t, by rw [List.append_assoc]⟩

/-- **The lines of two texts with such a character between them** are those of the one and those of the other. -/
theorem Separates.occurrences_append {c : Char} (h : Separates c) (t : List Char) : ∀ (s : List Char) (late : Bool)
    (offset : Nat), occurrences late offset (s ++ c :: t)
      = occurrences late offset s ++ occurrences false (offset + unitLength (s ++ [c])) t
  | [], late, offset => by
    rw [List.nil_append, occurrences_cons_of_not_isDigit late offset t h.noDigit, List.nil_append, unitLength_cons]
    rfl
  | x :: s, late, offset => by
    have hhead := h.headLine_append late (x :: s) t
    rw [List.cons_append] at hhead
    rw [List.cons_append, occurrences, occurrences, hhead, h.occurrences_append t s, List.append_assoc,
      List.cons_append, unitLength_cons, Nat.add_assoc]

/-- **Joined logs.**  Where two texts are joined by a character that no line has in it, there are as many lines as in
both together.  The last one is the last one of the second text, moved by what comes before it; if there is none, it is
the last one of the first text, where it was; and there is no summary exactly if neither has one. -/
theorem extract_separated (s t : List Char) {c : Char} (h : Separates c) :
    lineCount (s ++ c :: t) = lineCount s + lineCount t ∧
    (∀ e, extract t = some e → extract (s ++ c :: t)
      = some ⟨e.summary, lineCount s + e.matchCount, unitLength (s ++ [c]) + e.offset⟩) ∧
    (extract t = none → extract (s ++ c :: t) = extract s) ∧
    (extract (s ++ c :: t) = none ↔ extract s = none ∧ extract t = none) := by
  have hlines := h.occurrences_append t s false 0
  rw [Nat.add_comm, occurrences_add] at hlines
  refine ⟨?_, fun e he => ?_, fun hnone => ?_, ?_⟩
  · simp only [lineCount_eq, hlines, List.length_append, List.length_map]
  · obtain ⟨ps, p, hps, rfl⟩ := extract_eq_some_iff.1 he
    refine extract_eq_some_iff.2
      ⟨occurrences false 0 s ++ ps.map fun p => (unitLength (s ++ [c]) + p.1, p.2),
        (unitLength (s ++ [c]) + p.1, p.2), ?_, ?_⟩
    · rw [hlines, hps, List.map_append, List.map_singleton, List.append_assoc]
    · rw [lineCount_eq, List.length_append, List.length_map, Nat.add_assoc]
  · rw [extract_eq_none_iff] at hnone
    rw [extract_eq, extract_eq, hlines, hnone, List.map_nil, List.append_nil]
  · rw [extract_eq_none_iff, extract_eq_none_iff, extract_eq_none_iff, hlines, List.append_eq_nil_iff,
      List.map_eq_nil_iff]

/-- A character of two units between two logs. -/
theorem extract_separated_wide :
    let s := "1 Tests 1 Failures 0 Ignored".toList
    let t := "2 Tests 0 Failures 0 Ignored".toList
    Separates '🧪' ∧ extract (s ++ '🧪' :: t) = some ⟨⟨2, 0, 0⟩, 2, 30⟩ := by
  have hline : extract "2 Tests 0 Failures 0 Ignored".toList = some ⟨⟨2, 0, 0⟩, 1, 0⟩ := by decide +kernel
  have hcount : lineCount "1 Tests 1 Failures 0 Ignored".toList = 1 := by decide +kernel
  have hseparates : Separates '🧪' := ⟨by decide, by decide, by decide⟩
  obtain ⟨-, hlast, -⟩ :=
    extract_separated "1 Tests 1 Failures 0 Ignored".toList "2 Tests 0 Failures 0 Ignored".toList hseparates
  refine ⟨hseparates, (hlast _ hline).trans ?_⟩
  rw [hcount]
  rfl

end Summary
end LogVerdict
