import LogVerdict.Text.Blank
import LogVerdict.Text.Run
/-!
# Summary.Line — the summary line of a test run

A summary line is three tallies, "N Tests", "N Failures" and "N Ignored", with blanks between them.  `Line.read?` reads
one off the head of a text without looking back, and `Line.text` writes it again: the reader succeeds exactly on a
well-formed line followed by anything (`Line.read?_eq_some_iff`), so a text starts with at most one.
-/
namespace LogVerdict.Summary

open Text (isBlank IsRun run? after? StopsAt run?_eq_some_iff after?_eq_some_iff stopsAt_of_head head?_run)

/-- A count, and the blanks between it and the word that names it. -/
structure Tally where
  count : List Char
  gap : List Char
  deriving DecidableEq, Repr

def Tally.text (word : List Char) (t : Tally) : List Char := t.count ++ (t.gap ++ word)

structure Tally.WellFormed (t : Tally) : Prop where
  count : IsRun Char.isDigit t.count
  gap : IsRun isBlank t.gap

def Tally.read? (word s : List Char) : Option (Tally × List Char) := do
  let (count, s) ← run? Char.isDigit s
  let (gap, s) ← run? isBlank s
  let s ← after? word s
  return (⟨count, gap⟩, s)

def testsWord : List Char := ['T', 'e', 's', 't', 's']

def failuresWord : List Char := ['F', 'a', 'i', 'l', 'u', 'r', 'e', 's']

def ignoredWord : List Char := ['I', 'g', 'n', 'o', 'r', 'e', 'd']

structure Line where
  tests : Tally
  beforeFailures : List Char
  failures : Tally
  beforeIgnored : List Char
  ignored : Tally
  deriving DecidableEq, Repr

def Line.text (l : Line) : List Char :=
  l.tests.text testsWord ++ (l.beforeFailures ++ (l.failures.text failuresWord ++
    (l.beforeIgnored ++ l.ignored.text ignoredWord)))

structure Line.WellFormed (l : Line) : Prop where
  tests : l.tests.WellFormed
  beforeFailures : IsRun isBlank l.beforeFailures
  failures : l.failures.WellFormed
  beforeIgnored : IsRun isBlank l.beforeIgnored
  ignored : l.ignored.WellFormed

/-- The summary line at the head of a text, and what follows it.  Each run is taken whole, which loses no line: what
has to follow a run never starts with a character of its kind. -/
def Line.read? (s : List Char) : Option (Line × List Char) := do
  let (tests, s) ← Tally.read? testsWord s
  let (beforeFailures, s) ← run? isBlank s
  let (failures, s) ← Tally.read? failuresWord s
  let (beforeIgnored, s) ← run? isBlank s
  let (ignored, s) ← Tally.read? ignoredWord s
  return (⟨tests, beforeFailures, failures, beforeIgnored, ignored⟩, s)

theorem stopsAt_isBlank_digits {r t : List Char} (hr : IsRun Char.isDigit r) : StopsAt isBlank (r ++ t) := by
  obtain ⟨c, hc, hd⟩ := head?_run (t := t) hr
  exact stopsAt_of_head hc (Text.not_isBlank_of_isDigit hd)

theorem stopsAt_isDigit_blanks {r t : List Char} (hr : IsRun isBlank r) : StopsAt Char.isDigit (r ++ t) := by
  obtain ⟨c, hc, hb⟩ := head?_run (t := t) hr
  refine stopsAt_of_head hc (Bool.eq_false_iff.2 fun hd => ?_)
  rw [Text.not_isBlank_of_isDigit hd] at hb
  cases hb

theorem Tally.read?_eq_some_iff {w : Char} {word s t : List Char} {x : Tally} (hw : isBlank w = false) :
    Tally.read? (w :: word) s = some (x, t) ↔ x.WellFormed ∧ s = x.text (w :: word) ++ t := by
  simp only [Tally.read?, Option.bind_eq_bind, Option.bind_eq_some_iff, Prod.exists, run?_eq_some_iff,
    after?_eq_some_iff, Option.pure_def, Option.some.injEq, Prod.mk.injEq]
  constructor
  · rintro ⟨count, _, ⟨rfl, hc, -⟩, gap, _, ⟨rfl, hg, -⟩, _, rfl, rfl, rfl⟩
    exact ⟨⟨hc, hg⟩, by simp [Tally.text]⟩
  · rintro ⟨⟨hc, hg⟩, rfl⟩
    exact ⟨x.count, x.gap ++ (w :: word ++ t), ⟨by simp [Tally.text], hc, stopsAt_isDigit_blanks hg⟩, x.gap,
      w :: word ++ t, ⟨rfl, hg, stopsAt_of_head rfl hw⟩, t, rfl, rfl, rfl⟩

/-- Reading a summary line accepts exactly what writing one produces. -/
theorem Line.read?_eq_some_iff {s t : List Char} {l : Line} :
    Line.read? s = some (l, t) ↔ l.WellFormed ∧ s = l.text ++ t := by
  have hT : isBlank 'T' = false := by decide
  have hF : isBlank 'F' = false := by decide
  have hI : isBlank 'I' = false := by decide
  simp only [Line.read?, testsWord, failuresWord, ignoredWord, Option.bind_eq_bind, Option.bind_eq_some_iff, Prod.exists,
    run?_eq_some_iff, Tally.read?_eq_some_iff hT, Tally.read?_eq_some_iff hF, Tally.read?_eq_some_iff hI,
    Option.pure_def, Option.some.injEq, Prod.mk.injEq]
  constructor
  · rintro ⟨x, _, ⟨hx, rfl⟩, g, _, ⟨rfl, hg, -⟩, y, _, ⟨hy, rfl⟩, k, _, ⟨rfl, hk, -⟩, z, _, ⟨hz, rfl⟩, rfl, rfl⟩
    exact ⟨⟨hx, hg, hy, hk, hz⟩, by simp [Line.text, testsWord, failuresWord, ignoredWord]⟩
  · rintro ⟨⟨hx, hg, hy, hk, hz⟩, rfl⟩
    refine ⟨l.tests, _, ⟨hx, ?_⟩, l.beforeFailures, _, ⟨rfl, hg, ?_⟩, l.failures, _, ⟨hy, rfl⟩, l.beforeIgnored, _,
      ⟨rfl, hk, ?_⟩, l.ignored, t, ⟨hz, rfl⟩, rfl, rfl⟩
    · simp [Line.text, testsWord, failuresWord, ignoredWord]
    · simpa [Tally.text] using stopsAt_isBlank_digits hy.count
    · simpa [Tally.text] using stopsAt_isBlank_digits hz.count

theorem Line.eq_of_read? {s t : List Char} {l : Line} (h : Line.read? s = some (l, t)) : s = l.text ++ t :=
  (Line.read?_eq_some_iff.1 h).2

theorem Line.length_lt_of_read? {s t : List Char} {l : Line} (h : Line.read? s = some (l, t)) :
    t.length < s.length := by
  rw [Line.eq_of_read? h, Line.text, List.length_append, List.length_append, Tally.text]
  simp only [List.length_append, testsWord, List.length_cons]
  omega

end LogVerdict.Summary
