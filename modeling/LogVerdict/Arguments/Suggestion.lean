import LogVerdict.Arguments.Distance
import LogVerdict.Text.Units
/-!
# Arguments.Suggestion — options that an unknown one may stand for

Only the long options are suggested, and only for an unknown option that is written as a long one.  Of the options that
are near enough and similar enough, those at the least distance are named.
-/
namespace LogVerdict.Arguments

open Text (units)

/-- The long options, without their dashes, in the order the help lists them. -/
def longOptions : List String := ["version", "verbose", "debug", "help"]

def sortedOptions : List String := ["debug", "help", "verbose", "version"]

def farthest : Nat := 3

/-- The distance of two words in units.  Words whose lengths differ too much are not compared. -/
def wordDistance (s t : List UInt16) : Nat :=
  if s.length + farthest < t.length ∨ t.length + farthest < s.length then max s.length t.length else distance s t

/-- Words are similar if more than two fifths of the longer one stay. -/
def similar (s t : List UInt16) (d : Nat) : Bool :=
  let longer := max s.length t.length
  decide (2 * longer < 5 * (longer - d))

structure Nearest where
  distance : Nat
  options : List String
  deriving DecidableEq, Repr

def Nearest.consider (word : List UInt16) (best : Nearest) (option : String) : Nearest :=
  let d := wordDistance word (units option.toList)
  if similar word (units option.toList) d then
    if d < best.distance then ⟨d, [option]⟩
    else if d = best.distance then ⟨d, best.options ++ [option]⟩
    else best
  else best

def nearestOptions (word : List UInt16) : List String :=
  let best := longOptions.foldl (Nearest.consider word) ⟨farthest, []⟩
  sortedOptions.filter (· ∈ best.options)

def didYouMean : List String → String
  | [] => ""
  | [option] => "\n(Did you mean --" ++ option ++ "?)"
  | options => "\n(Did you mean one of " ++ String.intercalate ", " (options.map ("--" ++ ·)) ++ "?)"

def suggestion (unknown : String) : String :=
  match unknown.toList with
  | '-' :: '-' :: word => didYouMean (nearestOptions (units word))
  | _ => ""

end LogVerdict.Arguments
