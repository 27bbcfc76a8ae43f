/-!
# Text.Blank — blank characters, and trimming

A text is a list of characters.  The blank characters are a fixed set of 25 (`blanks`): they separate the words of a
summary line, and they are what trimming removes at the ends of a text.
-/
namespace LogVerdict.Text

/-- Every blank character: the ASCII controls from tab to carriage return, the Unicode space separators, the line and
paragraph separators, and the byte order mark. -/
def blanks : List Char :=
  ['\u0009', '\u000a', '\u000b', '\u000c', '\u000d', '\u0020', '\u00a0', '\u1680', '\u2000', '\u2001', '\u2002',
   '\u2003', '\u2004', '\u2005', '\u2006', '\u2007', '\u2008', '\u2009', '\u200a', '\u2028', '\u2029', '\u202f',
   '\u205f', '\u3000', '\ufeff']

def isBlank (c : Char) : Bool := blanks.contains c

def trimEnd (s : List Char) : List Char := (s.reverse.dropWhile isBlank).reverse

def trim (s : List Char) : List Char := trimEnd (s.dropWhile isBlank)

theorem isBlank_iff {c : Char} : isBlank c = true ↔ c ∈ blanks := by simp [isBlank]

theorem not_isBlank_of_isDigit {c : Char} (h : c.isDigit = true) : isBlank c = false := by
  have hb : blanks.all (fun d => !d.isDigit) = true := by rfl
  rw [Bool.eq_false_iff]
  intro hc
  have := List.all_eq_true.1 hb c (isBlank_iff.1 hc)
  rw [h] at this
  cases this

theorem trimEnd_concat (s : List Char) {c : Char} (h : isBlank c = false) : trimEnd (s ++ [c]) = s ++ [c] := by
  simp [trimEnd, h]

theorem trimEnd_concat_blank (s : List Char) {c : Char} (h : isBlank c = true) :
    trimEnd (s ++ [c]) = trimEnd s := by
  simp [trimEnd, h]

end LogVerdict.Text
