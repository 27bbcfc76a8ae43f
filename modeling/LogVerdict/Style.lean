import LogVerdict.Text.Replace
import LogVerdict.Text.Units
/-!
# Style — coloured text for a terminal

A style opens with one escape sequence and closes with another.  Text that holds the closing sequence itself would end
the style early, so `Style.paint` opens the style again there; `strip` takes every sequence out again.
-/
namespace LogVerdict

inductive Style
  | bold
  | dim
  | red
  | green
  | yellow
  deriving DecidableEq, Repr

def escape (code : List Char) : List Char := '\x1b' :: '[' :: (code ++ ['m'])

namespace Style

def opening : Style → List Char
  | bold => escape ['1']
  | dim => escape ['2']
  | red => escape ['3', '1']
  | green => escape ['3', '2']
  | yellow => escape ['3', '3']

/-- The sequence that ends a style.  It is the same one for both intensities and the same one for all colours. -/
def closing : Style → List Char
  | bold | dim => escape ['2', '2']
  | red | green | yellow => escape ['3', '9']

/-- What stands for a closing sequence inside a styled text.  A colour replaces any colour before it; an intensity does
not replace the other one, so that has to end first. -/
def reopening : Style → List Char
  | bold => closing bold ++ opening bold
  | dim => closing dim ++ opening dim
  | red => opening red
  | green => opening green
  | yellow => opening yellow

/-- A text in a style.  As many units as the opening sequence has are kept as they are at the head of the text. -/
def paint (style : Style) (s : List Char) : List Char :=
  let head := Text.takeUnits (Text.unitLength style.opening) s
  let rest := Text.dropUnits (Text.unitLength style.opening) s
  style.opening ++ (head ++ (Text.replaceAll [(style.closing, style.reopening)] rest ++ style.closing))

def paintIf (color : Bool) (style : Style) (line : String) : String :=
  if color then String.ofList (style.paint line.toList) else line

/-- Up to its first escape a text is kept as it is. -/
theorem replaceAll_closing_append (style : Style) {s : List Char} (h : '\x1b' ∉ s) (t : List Char) :
    Text.replaceAll [(style.closing, style.reopening)] (s ++ t)
      = s ++ Text.replaceAll [(style.closing, style.reopening)] t := by
  have hrules : ∀ rule ∈ [(style.closing, style.reopening)], rule.1.head? = some '\x1b' := by
    cases style <;> decide
  exact Text.replaceAll_append_of_notMem hrules t h

/-- A text without an escape is painted by putting it between the two sequences. -/
theorem paint_of_escape_notMem (style : Style) {s : List Char} (h : '\x1b' ∉ s) :
    style.paint s = style.opening ++ (s ++ style.closing) := by
  have hsplit := Text.takeUnits_append_dropUnits (Text.unitLength style.opening) s
  have hrest := style.replaceAll_closing_append (Text.notMem_dropUnits h (Text.unitLength style.opening)) []
  rw [List.append_nil, Text.replaceAll_nil, List.append_nil] at hrest
  unfold paint
  simp only [hrest]
  rw [← List.append_assoc (Text.takeUnits _ _), hsplit]

theorem toList_paintIf (color : Bool) (style : Style) (line : String) :
    (style.paintIf color line).toList = if color then style.paint line.toList else line.toList := by
  cases color with
  | false => rfl
  | true => exact String.toList_ofList

end Style

def styleSequences : List (List Char) :=
  [escape ['1'], escape ['2'], escape ['2', '2'], escape ['3', '1'], escape ['3', '2'], escape ['3', '3'],
   escape ['3', '9']]

/-- A text without the sequences that styles write. -/
def strip (s : List Char) : List Char := Text.replaceAll (styleSequences.map (·, [])) s

end LogVerdict
