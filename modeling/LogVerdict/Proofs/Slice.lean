import Mathlib.Data.List.Basic
/-!
# Slice — words by their place in a sequence

A sequence of code units or of bytes spells a word from one index to another, and an element of some kind may come right
before an index.  Both are the same as a split of the sequence (`spells_iff`, `after_length_iff`).
-/
namespace LogVerdict
namespace Text

/-- The elements from index `i` up to index `j`, which is not beyond the end, are those of a word. -/
structure Spells {α : Type} (xs : List α) (i j : Nat) (word : List α) : Prop where
  inside : j ≤ xs.length
  slice : xs.extract i j = word

/-- Right before an index stands an element of a kind. -/
def After {α : Type} (p : α → Bool) (xs : List α) (i : Nat) : Prop := ∃ x ∈ (xs.take i).getLast?, p x = true

theorem spells_iff {α : Type} {xs : List α} {i j : Nat} {word : List α} (hw : word ≠ []) :
    Spells xs i j word ↔ ∃ a b, xs = a ++ (word ++ b) ∧ a.length = i ∧ j = i + word.length := by
  constructor
  · intro h
    obtain ⟨hj, hs⟩ := h
    rw [List.extract_eq_take_drop] at hs
    have hlen : word.length = min (j - i) (xs.length - i) := by
      rw [← hs, List.length_take, List.length_drop]
    have hpos : 0 < word.length := List.length_pos_iff.2 hw
    have hdrop : xs.drop i = word ++ (xs.drop i).drop (j - i) := by
      conv => lhs; rw [← List.take_append_drop (j - i) (xs.drop i), hs]
    refine ⟨xs.take i, (xs.drop i).drop (j - i), ?_, ?_, ?_⟩
    · rw [← hdrop, List.take_append_drop]
    · rw [List.length_take]
      omega
    · omega
  · intro h
    obtain ⟨a, b, rfl, rfl, rfl⟩ := h
    refine ⟨by simp, ?_⟩
    rw [List.extract_eq_take_drop, List.drop_left, Nat.add_sub_cancel_left, List.take_left]

theorem after_length_iff {α : Type} {p : α → Bool} (a b : List α) :
    After p (a ++ b) a.length ↔ ∃ x ∈ a.getLast?, p x = true := by
  unfold After
  rw [List.take_left]

/-! ## Marked places -/

/-- A marked place lies behind what comes before it without the mark. -/
theorem exists_append_of_notMem {α : Type} {e : α} {s t u v : List α} (hs : e ∉ s) (h : s ++ t = u ++ e :: v) :
    ∃ r, u = s ++ r ∧ t = r ++ e :: v := by
  rcases List.append_eq_append_iff.1 h with ⟨r, hu, ht⟩ | ⟨r, hr, hv⟩
  · exact ⟨r, hu, ht⟩
  · cases r with
    | nil => exact ⟨[], by simpa using hr.symm, by simpa using hv.symm⟩
    | cons d r =>
      obtain ⟨rfl, -⟩ := List.cons.inj hv
      exact absurd (by simp [hr]) hs

/-- What is without the mark does not reach to a marked place. -/
theorem prefix_append_cons_iff {α : Type} {e : α} {s t v : List α} (hs : e ∉ s) : s <+: t ++ e :: v ↔ s <+: t := by
  constructor
  · rintro ⟨r, hr⟩
    obtain ⟨t', ht, -⟩ := exists_append_of_notMem hs hr
    exact ⟨t', ht.symm⟩
  · exact fun h => h.trans (List.prefix_append t _)

/-! ## Cut sequences -/

/-- The words that are left of a cut sequence are those that end before the cut. -/
theorem spells_take_iff {α : Type} {xs : List α} {n i j : Nat} {word : List α} :
    Spells (xs.take n) i j word ↔ Spells xs i j word ∧ j ≤ n := by
  have hslice : j ≤ n → (xs.take n).extract i j = xs.extract i j := by
    intro hj
    rw [List.extract_eq_take_drop, List.extract_eq_take_drop, List.drop_take, List.take_take,
      Nat.min_eq_left (by omega)]
  constructor
  · intro h
    obtain ⟨hinside, hword⟩ := h
    rw [List.length_take] at hinside
    rw [hslice (by omega)] at hword
    exact ⟨⟨by omega, hword⟩, by omega⟩
  · intro h
    obtain ⟨⟨hinside, hword⟩, hj⟩ := h
    refine ⟨?_, (hslice hj).trans hword⟩
    rw [List.length_take]
    omega

theorem after_take_iff {α : Type} {p : α → Bool} {xs : List α} {n i : Nat} (h : i ≤ n) :
    After p (xs.take n) i ↔ After p xs i := by
  unfold After
  rw [List.take_take, Nat.min_eq_left h]

end Text
end LogVerdict
