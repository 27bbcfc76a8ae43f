import LogVerdict.Proofs.Occurrences
import LogVerdict.Proofs.Slice
import Mathlib.Data.Nat.Digits.Defs
import Mathlib.Data.Set.Card
import Mathlib.Order.Bounds.Defs
/-!
# UnitIndex — summary lines by their place in UTF-16 code units

`OccursAt s i j l` says that the units of `s` from `i` to `j` spell the summary line `l`.  No character of a summary line
takes two units, and none of its units is half of a pair, so such a place is always one between characters
(`occursAt_iff`).  The lines that are listed are those that occur behind no digit (`mem_occurrences_iff_occursAt`).
-/
namespace LogVerdict

namespace Text

theorem charUnits_of_narrow {c : Char} (h : c.toNat ≤ 0xFFFF) : charUnits c = [c.toNat.toUInt16] := by
  unfold charUnits
  rw [if_pos h]

theorem charUnits_of_wide {c : Char} (h : ¬ c.toNat ≤ 0xFFFF) :
    charUnits c = [(0xD800 + (c.toNat - 0x10000) / 0x400).toUInt16,
      (0xDC00 + (c.toNat - 0x10000) % 0x400).toUInt16] := by
  unfold charUnits
  rw [if_neg h]

theorem units_cons (c : Char) (s : List Char) : units (c :: s) = charUnits c ++ units s := rfl

theorem units_append (s t : List Char) : units (s ++ t) = units s ++ units t := by
  unfold units
  rw [List.flatMap_append]

def IsTrailing (u : UInt16) : Prop := 0xDC00 ≤ u.toNat ∧ u.toNat ≤ 0xDFFF

theorem toNat_bounds (c : Char) : c.toNat < 0xD800 ∨ (0xDFFF < c.toNat ∧ c.toNat < 0x110000) := c.valid

theorem toNat_toUInt16 (n : Nat) : n.toUInt16.toNat = n % 65536 := by simp

theorem not_isTrailing_of_narrow {c : Char} (h : c.toNat ≤ 0xFFFF) : ¬ IsTrailing c.toNat.toUInt16 := by
  have hc := toNat_bounds c
  unfold IsTrailing
  rw [toNat_toUInt16]
  omega

/-- **A unit that is no second half starts a character.** -/
theorem exists_split_of_units {u : UInt16} {b : List UInt16} (hu : ¬ IsTrailing u) : ∀ {s : List Char} {a : List UInt16},
    units s = a ++ u :: b → ∃ pre t, s = pre ++ t ∧ units pre = a ∧ units t = u :: b
  | [], a, h => by
    have : a ++ u :: b ≠ [] := by simp
    exact absurd h.symm this
  | c :: s, [], h => ⟨[], c :: s, rfl, rfl, h⟩
  | c :: s, x :: a, h => by
    rw [units_cons] at h
    by_cases hc : c.toNat ≤ 0xFFFF
    · rw [charUnits_of_narrow hc] at h
      obtain ⟨hx, hs⟩ := List.cons.inj h
      obtain ⟨pre, t, rfl, hpre, ht⟩ := exists_split_of_units hu hs
      refine ⟨c :: pre, t, rfl, ?_, ht⟩
      rw [units_cons, charUnits_of_narrow hc, hpre, hx]
      rfl
    · rw [charUnits_of_wide hc] at h
      obtain ⟨hx, hs⟩ := List.cons.inj h
      cases a with
      | nil =>
        have hlow := (List.cons.inj hs).1
        have hb := toNat_bounds c
        refine absurd ?_ hu
        rw [← hlow]
        unfold IsTrailing
        rw [toNat_toUInt16]
        omega
      | cons y a =>
        obtain ⟨hy, hs⟩ := List.cons.inj hs
        obtain ⟨pre, t, rfl, hpre, ht⟩ := exists_split_of_units hu hs
        refine ⟨c :: pre, t, rfl, ?_, ht⟩
        rw [units_cons, charUnits_of_wide hc, hpre, hx, hy]
        rfl

theorem eq_of_narrow_unit {c d : Char} {r s : List UInt16} (hc : c.toNat ≤ 0xFFFF)
    (h : charUnits d ++ r = charUnits c ++ s) : d = c ∧ r = s := by
  have hcb := toNat_bounds c
  have hdb := toNat_bounds d
  rw [charUnits_of_narrow hc] at h
  by_cases hd : d.toNat ≤ 0xFFFF
  · rw [charUnits_of_narrow hd] at h
    obtain ⟨hu, hr⟩ := List.cons.inj h
    have hn := congrArg UInt16.toNat hu
    rw [toNat_toUInt16, toNat_toUInt16, Nat.mod_eq_of_lt (by omega), Nat.mod_eq_of_lt (by omega)] at hn
    exact ⟨Char.toNat_inj.1 hn, hr⟩
  · rw [charUnits_of_wide hd] at h
    have hn := congrArg UInt16.toNat (List.cons.inj h).1
    rw [toNat_toUInt16, toNat_toUInt16] at hn
    omega

theorem exists_eq_append_of_units {b : List UInt16} : ∀ {word t : List Char}, (∀ c ∈ word, c.toNat ≤ 0xFFFF) →
    units t = units word ++ b → ∃ post, t = word ++ post ∧ units post = b
  | [], t, _, h => ⟨t, rfl, h⟩
  | c :: word, [], hw, h => by
    rw [units_cons, charUnits_of_narrow (hw c (by simp))] at h
    cases h
  | c :: word, d :: t, hw, h => by
    rw [units_cons, units_cons, List.append_assoc] at h
    obtain ⟨rfl, hr⟩ := eq_of_narrow_unit (hw c (by simp)) h
    obtain ⟨post, rfl, hb⟩ := exists_eq_append_of_units (fun e he => hw e (List.mem_cons_of_mem _ he)) hr
    exact ⟨post, rfl, hb⟩

/-- **Where the units of narrow characters are spelled, the characters themselves stand.** -/
theorem spells_units_iff {s word : List Char} {i j : Nat} (hne : word ≠ []) (hw : ∀ c ∈ word, c.toNat ≤ 0xFFFF) :
    Spells (units s) i j (units word) ↔
      ∃ pre post, s = pre ++ (word ++ post) ∧ i = unitLength pre ∧ j = unitLength (pre ++ word) := by
  obtain ⟨c, r, rfl⟩ := List.exists_cons_of_ne_nil hne
  have hc : c.toNat ≤ 0xFFFF := hw c (by simp)
  have hunits : units (c :: r) = c.toNat.toUInt16 :: units r := by rw [units_cons, charUnits_of_narrow hc]; rfl
  rw [spells_iff (by rw [hunits]; simp), length_units]
  constructor
  · intro h
    obtain ⟨a, b, hs, rfl, rfl⟩ := h
    have hs' : units s = a ++ c.toNat.toUInt16 :: (units r ++ b) := by rw [hs, hunits]; rfl
    obtain ⟨pre, t, rfl, rfl, ht⟩ := exists_split_of_units (not_isTrailing_of_narrow hc) hs'
    have ht' : units t = units (c :: r) ++ b := by rw [ht, hunits]; rfl
    obtain ⟨post, rfl, -⟩ := exists_eq_append_of_units hw ht'
    exact ⟨pre, post, rfl, length_units pre, by rw [unitLength_append, length_units]⟩
  · intro h
    obtain ⟨pre, post, rfl, rfl, rfl⟩ := h
    exact ⟨units pre, units post, by rw [units_append, units_append], length_units pre, unitLength_append _ _⟩

end Text

namespace Summary

open Text (units unitLength unitLength_append After Spells toNat_bounds toNat_toUInt16)

/-- **An occurrence**: the units of a text from `i` to `j` spell a summary line. -/
structure OccursAt (s : List Char) (i j : Nat) (l : Line) : Prop where
  wellFormed : l.WellFormed
  spells : Spells (units s) i j (units l.text)

def isDigitUnit (u : UInt16) : Bool := decide (0x30 ≤ u.toNat ∧ u.toNat ≤ 0x39)

/-- An index at which an occurrence starts, with no digit right before it. -/
def StartsAt (s : List Char) (i : Nat) : Prop := (∃ j l, OccursAt s i j l) ∧ ¬ After isDigitUnit (units s) i

/-- The number that digits stand for in the decimal system, the last digit counting ones. -/
def decimal (digits : List Char) : Nat := Nat.ofDigits 10 (digits.reverse.map fun c => c.toNat - '0'.toNat)

theorem Line.WellFormed.narrow {l : Line} (h : l.WellFormed) : ∀ c ∈ l.text, c.toNat ≤ 0xFFFF := by
  intro c hc
  have hblank : ∀ b ∈ Text.blanks, b.toNat ≤ 0xFFFF := by simp [Text.blanks]
  have hword : ∀ b ∈ testsWord ++ (failuresWord ++ ignoredWord), b.toNat ≤ 0xFFFF := by
    simp [testsWord, failuresWord, ignoredWord]
  rcases h.mem_text hc with hc | hc | hc
  · have h9 : c.toNat ≤ '9'.toNat := (Char.isDigit_iff_toNat.1 hc).2
    exact Nat.le_trans h9 (by decide)
  · exact hblank c (Text.isBlank_iff.1 hc)
  · exact hword c hc

theorem Line.WellFormed.text_ne_nil {l : Line} (h : l.WellFormed) : l.text ≠ [] := by
  obtain ⟨c, s, hc, -⟩ := h.text_eq_cons
  rw [hc]
  exact List.cons_ne_nil c s

theorem occursAt_iff {s : List Char} {i j : Nat} {l : Line} :
    OccursAt s i j l ↔ ∃ pre post, s = pre ++ (l.text ++ post) ∧ l.WellFormed ∧ i = unitLength pre ∧
      j = unitLength (pre ++ l.text) := by
  constructor
  · intro h
    obtain ⟨hl, hs⟩ := h
    obtain ⟨pre, post, hs, hi, hj⟩ := (Text.spells_units_iff hl.text_ne_nil hl.narrow).1 hs
    exact ⟨pre, post, hs, hl, hi, hj⟩
  · intro h
    obtain ⟨pre, post, hs, hl, hi, hj⟩ := h
    exact ⟨hl, (Text.spells_units_iff hl.text_ne_nil hl.narrow).2 ⟨pre, post, hs, hi, hj⟩⟩

theorem OccursAt.unique {s : List Char} {i j j' : Nat} {l l' : Line} (h : OccursAt s i j l) (h' : OccursAt s i j' l') :
    l = l' ∧ j = j' := by
  obtain ⟨pre, post, rfl, hl, hi, rfl⟩ := occursAt_iff.1 h
  obtain ⟨pre', post', hs, hl', hi', rfl⟩ := occursAt_iff.1 h'
  obtain ⟨rfl, ht⟩ := append_inj_of_unitLength hs (hi.symm.trans hi')
  have hr : Line.read? (l.text ++ post) = some (l, post) := Line.read?_eq_some_iff.2 ⟨hl, rfl⟩
  have hr' : Line.read? (l.text ++ post) = some (l', post') := Line.read?_eq_some_iff.2 ⟨hl', ht⟩
  rw [hr] at hr'
  cases hr'
  exact ⟨rfl, rfl⟩

theorem OccursAt.lt {s : List Char} {i j : Nat} {l : Line} (h : OccursAt s i j l) : i < j := by
  obtain ⟨pre, post, -, -, rfl, rfl⟩ := occursAt_iff.1 h
  have hpos := l.unitLength_text_pos
  rw [unitLength_append]
  omega

theorem isDigitUnit_getLast (c : Char) : (∃ u ∈ (Text.charUnits c).getLast?, isDigitUnit u = true) ↔ c.isDigit = true := by
  have hb := toNat_bounds c
  have h0 : '0'.toNat = 0x30 := rfl
  have h9 : '9'.toNat = 0x39 := rfl
  rw [Char.isDigit_iff_toNat, h0, h9]
  by_cases hc : c.toNat ≤ 0xFFFF
  · rw [Text.charUnits_of_narrow hc]
    simp only [List.getLast?_singleton, Option.mem_some_iff, exists_eq_left', isDigitUnit, toNat_toUInt16,
      decide_eq_true_eq]
    omega
  · rw [Text.charUnits_of_wide hc]
    simp only [List.getLast?_cons_cons, List.getLast?_singleton, Option.mem_some_iff, exists_eq_left', isDigitUnit,
      toNat_toUInt16, decide_eq_true_eq]
    omega

theorem after_isDigitUnit_iff (pre t : List Char) :
    After isDigitUnit (units (pre ++ t)) (unitLength pre) ↔ endsInDigit false pre = true := by
  rw [Text.units_append, ← Text.length_units, Text.after_length_iff]
  rcases List.eq_nil_or_concat pre with rfl | ⟨pre, c, rfl⟩
  · simp [units, endsInDigit]
  · have hne : Text.charUnits c ≠ [] := by
      intro h
      have hlen := Text.length_charUnits c
      rw [h, List.length_nil] at hlen
      have hw := Text.width_pos c
      omega
    have hlast : (units (pre ++ [c])).getLast? = (Text.charUnits c).getLast? := by
      have hc : units [c] = Text.charUnits c := List.append_nil _
      rw [Text.units_append, hc, List.getLast?_append]
      cases h : (Text.charUnits c).getLast? with
      | none => exact absurd (List.getLast?_eq_none_iff.1 h) hne
      | some u => rfl
    rw [List.concat_eq_append, hlast, isDigitUnit_getLast, endsInDigit_append]
    rfl

/-- **What is listed, by index**: the lines that occur with no digit unit right before them. -/
theorem mem_occurrences_iff_occursAt {s : List Char} {i : Nat} {l : Line} :
    (i, l) ∈ occurrences false 0 s ↔ (∃ j, OccursAt s i j l) ∧ ¬ After isDigitUnit (units s) i := by
  rw [mem_occurrences]
  constructor
  · intro h
    obtain ⟨pre, post, hs, hl, hd, hi⟩ := h
    have hi : i = unitLength pre := by simpa using hi
    refine ⟨⟨_, occursAt_iff.2 ⟨pre, post, hs, hl, hi, rfl⟩⟩, ?_⟩
    rw [hs, hi, after_isDigitUnit_iff, hd]
    exact Bool.false_ne_true
  · intro h
    obtain ⟨⟨j, h⟩, hd⟩ := h
    obtain ⟨pre, post, rfl, hl, rfl, -⟩ := occursAt_iff.1 h
    rw [after_isDigitUnit_iff, Bool.not_eq_true] at hd
    exact ⟨pre, post, rfl, hl, hd, (Nat.zero_add _).symm⟩

/-- **An occurrence goes with a listed line**, which takes in the digits in front of it and ends where it ends. -/
theorem OccursAt.exists_mem_occurrences {s : List Char} {i j : Nat} {l : Line} (h : OccursAt s i j l) :
    ∃ a d, (∀ c ∈ d, c.isDigit = true) ∧ (a, l.extend d) ∈ occurrences false 0 s ∧ i = a + unitLength d ∧
      j = a + unitLength (l.extend d).text := by
  obtain ⟨pre, post, rfl, hl, rfl, rfl⟩ := occursAt_iff.1 h
  obtain ⟨t, d, rfl, ht, hd⟩ := exists_append_digits pre
  refine ⟨unitLength t, d, hd, mem_occurrences.2 ⟨t, post, ?_, hl.extend hd, ht, (Nat.zero_add _).symm⟩, ?_, ?_⟩
  · rw [Line.text_extend, List.append_assoc, List.append_assoc]
  · rw [unitLength_append]
  · rw [Line.text_extend, List.append_assoc, unitLength_append]

theorem startsAt_iff {s : List Char} {i : Nat} : StartsAt s i ↔ ∃ l, (i, l) ∈ occurrences false 0 s := by
  constructor
  · intro h
    obtain ⟨⟨j, l, h⟩, hd⟩ := h
    exact ⟨l, mem_occurrences_iff_occursAt.2 ⟨⟨j, h⟩, hd⟩⟩
  · intro h
    obtain ⟨l, h⟩ := h
    obtain ⟨⟨j, h⟩, hd⟩ := mem_occurrences_iff_occursAt.1 h
    exact ⟨⟨j, l, h⟩, hd⟩

end Summary

end LogVerdict
