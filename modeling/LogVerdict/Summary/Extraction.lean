import LogVerdict.Summary.Line
import LogVerdict.Text.Decimal
import LogVerdict.Text.Units
/-!
# Summary.Extraction — the last summary of a log

A run may print tallies on the way, so a log can hold several summary lines.  `extract` visits them from left to right,
each search starting where the line before it ended, and keeps the last one, with the number of lines seen and its
offset in UTF-16 code units.
-/
namespace LogVerdict

open Text (unitLength width)

structure Summary where
  tests : Int
  failures : Int
  ignored : Int
  deriving DecidableEq, Repr

namespace Summary

def Line.summary (l : Line) : Summary :=
  ⟨Text.Decimal.value l.tests.count, Text.Decimal.value l.failures.count, Text.Decimal.value l.ignored.count⟩

/-- The last summary of a text, how many summary lines the text holds, and where the last one starts. -/
structure Extraction where
  summary : Summary
  matchCount : Nat
  offset : Nat
  deriving DecidableEq, Repr

def Extraction.next (found : Option Extraction) (offset : Nat) (line : Line) : Extraction :=
  ⟨line.summary, found.elim 0 (·.matchCount) + 1, offset⟩

/-- What a text adds to the summary lines found before it, where `offset` units come before the text.  A digit run that
starts no summary line is passed over whole: a line that started inside it would start at its head as well. -/
def scan (found : Option Extraction) (offset : Nat) (s : List Char) : Option Extraction :=
  match s with
  | [] => found
  | c :: r =>
    if c.isDigit then
      match _h : Line.read? (c :: r) with
      | some (line, rest) => scan (some (.next found offset line)) (offset + unitLength line.text) rest
      | none => scan found (offset + unitLength (c :: r.takeWhile Char.isDigit)) (r.dropWhile Char.isDigit)
    else scan found (offset + width c) r
termination_by s.length
decreasing_by
  · exact Line.length_lt_of_read? _h
  · exact Nat.lt_succ_of_le (List.dropWhile_sublist _).length_le
  · exact Nat.lt_succ_self _

def extract (s : List Char) : Option Extraction := scan none 0 s

/-- The failure to find a summary, in the words it is reported with. -/
structure NotFound where
  message : String := "Unity test summary not found in output"
  deriving DecidableEq, Repr

def read (s : List Char) : Except NotFound Summary :=
  match extract s with
  | some e => .ok e.summary
  | none => .error {}

theorem scan_nil (found : Option Extraction) (offset : Nat) : scan found offset [] = found := by
  rw [scan]

theorem scan_of_not_isDigit (found : Option Extraction) (offset : Nat) {c : Char} (s : List Char)
    (hc : c.isDigit = false) : scan found offset (c :: s) = scan found (offset + width c) s := by
  rw [scan, if_neg (by simp [hc])]

theorem scan_of_read? (found : Option Extraction) (offset : Nat) {s t : List Char} {l : Line}
    (h : Line.read? s = some (l, t)) :
    scan found offset s = scan (some (.next found offset l)) (offset + unitLength l.text) t := by
  obtain ⟨hl, rfl⟩ := Line.read?_eq_some_iff.1 h
  obtain ⟨c, r, hc⟩ := List.exists_cons_of_ne_nil hl.tests.count.1
  have hd : c.isDigit = true := hl.tests.count.2 c (by simp [hc])
  obtain ⟨u, hu⟩ : ∃ u, l.text ++ t = c :: u := by
    rw [Line.text, Tally.text, hc]
    exact ⟨_, rfl⟩
  rw [hu] at h ⊢
  rw [scan, if_pos hd]
  split
  · rename_i heq
    rw [h] at heq
    cases heq
    rfl
  · rename_i heq
    rw [h] at heq
    cases heq

theorem scan_of_read?_eq_none (found : Option Extraction) (offset : Nat) {c : Char} {s : List Char}
    (hc : c.isDigit = true) (h : Line.read? (c :: s) = none) :
    scan found offset (c :: s)
      = scan found (offset + unitLength (c :: s.takeWhile Char.isDigit)) (s.dropWhile Char.isDigit) := by
  rw [scan, if_pos hc]
  split
  · rename_i heq
    rw [h] at heq
    cases heq
  · rfl

end Summary
end LogVerdict
