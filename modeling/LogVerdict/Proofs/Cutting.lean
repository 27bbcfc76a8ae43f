import LogVerdict.Proofs.Joining
/-!
# Cutting — a text cut in two where a line starts

No line reaches over the start of another one, so a text that is cut where a line starts behind no digit has the lines
of its two parts (`occurrences_cut`).  Cut at the extracted offset, the last line is alone in the part behind the cut, at
its head, and all others are in the part before it, where each of them ends (`extract_cut`).
-/
namespace LogVerdict

namespace Text

theorem units_takeUnits_unitLength (s t : List Char) :
    units (takeUnits (unitLength s) (s ++ t)) = (units (s ++ t)).take (unitLength s) := by
  rw [takeUnits_unitLength, units_append, ← length_units, List.take_left]

theorem units_dropUnits_unitLength (s t : List Char) :
    units (dropUnits (unitLength s) (s ++ t)) = (units (s ++ t)).drop (unitLength s) := by
  rw [dropUnits_unitLength_append, units_append, ← length_units, List.drop_left]

end Text

namespace Summary

open Text (units unitLength takeUnits dropUnits unitLength_append unitLength_cons)

/-! ## Cuts between lines -/

/-- No line reaches over the start of another one that starts behind no digit. -/
theorem headLine_append_line {s : List Char} (hs : s ≠ []) {l : Line} (hl : l.WellFormed) (t : List Char)
    {late : Bool} (hclear : endsInDigit late s = false) : headLine late (s ++ (l.text ++ t)) = headLine late s := by
  apply Option.ext
  intro m
  rw [headLine_eq_some_iff, headLine_eq_some_iff]
  refine and_congr_right fun hlate => and_congr_right fun hm => ?_
  subst hlate
  constructor
  · rintro ⟨u, hu⟩
    have hlisted : (unitLength s, l) ∈ occurrences false 0 (s ++ (l.text ++ t)) :=
      mem_occurrences.2 ⟨s, t, rfl, hl, hclear, (Nat.zero_add _).symm⟩
    rw [hu, occurrences_line 0 u hm, List.mem_cons] at hlisted
    have hpos : 0 < unitLength s := Nat.pos_of_ne_zero fun hzero => hs (Text.eq_nil_of_unitLength_eq_zero hzero)
    rcases hlisted with heq | hbehind
    · have hzero : unitLength s = 0 := congrArg Prod.fst heq
      omega
    · have hle := le_of_mem_occurrences hbehind
      rcases List.append_eq_append_iff.1 hu with ⟨v, hv, -⟩ | ⟨v, hv, -⟩
      · rw [hv, unitLength_append] at hle
        have hnil : v = [] := Text.eq_nil_of_unitLength_eq_zero (by omega)
        exact ⟨[], by rw [hv, hnil, List.append_nil, List.append_nil]⟩
      · exact ⟨v, hv⟩
  · rintro ⟨u, rfl⟩
    exact ⟨u ++ (l.text ++ t), List.append_assoc ..⟩

/-- **A text cut where a line starts** has the lines of what is before the cut and of what is behind it. -/
theorem occurrences_cut {l : Line} (hl : l.WellFormed) (t : List Char) : ∀ (s : List Char) {late : Bool}
    (offset : Nat), endsInDigit late s = false →
      occurrences late offset (s ++ (l.text ++ t))
        = occurrences late offset s ++ occurrences false (offset + unitLength s) (l.text ++ t)
  | [], late, offset, h => by
    have hlate : late = false := h
    rw [hlate]
    rfl
  | x :: s, late, offset, h => by
    have hhead := headLine_append_line (List.cons_ne_nil x s) hl t h
    rw [List.cons_append] at hhead
    rw [List.cons_append, occurrences, occurrences, hhead, occurrences_cut hl t s _ h, List.append_assoc,
      unitLength_cons, Nat.add_assoc]

/-- No line starts behind the reported offset. -/
theorem le_offset_of_mem {s : List Char} {e : Extraction} (h : extract s = some e) {p : Nat × Line}
    (hp : p ∈ occurrences false 0 s) : p.1 ≤ e.offset :=
  (extract_eq_some_iff_occursAt.1 h).1.2 (startsAt_iff.2 ⟨p.2, hp⟩)

/-- **The text around the extracted line**: the text before it has all other lines, and what is left has no other one. -/
theorem exists_split_of_extract {s : List Char} {e : Extraction} (h : extract s = some e) :
    ∃ before l behind, s = before ++ (l.text ++ behind) ∧ e.offset = unitLength before ∧ e.summary = l.summary ∧
      e.matchCount = (occurrences false 0 before).length + 1 ∧
      occurrences false 0 (l.text ++ behind) = [(0, l)] := by
  have hlast : ∀ p ∈ occurrences false 0 s, p.1 ≤ e.offset := fun p hp => le_offset_of_mem h hp
  obtain ⟨ps, ⟨i, l⟩, hps, rfl⟩ := extract_eq_some_iff.1 h
  have hmem : (i, l) ∈ occurrences false 0 s := by rw [hps]; exact List.mem_concat_self
  obtain ⟨before, behind, rfl, hl, hclear, hi⟩ := mem_occurrences.1 hmem
  simp only [Nat.zero_add] at hi hl
  have hcut := occurrences_cut hl behind before 0 hclear
  rw [Nat.zero_add, occurrences_line _ behind hl] at hcut
  have hnone : occurrences false (unitLength before + unitLength l.text) behind = [] := by
    rw [List.eq_nil_iff_forall_not_mem]
    intro q hq
    have hbeyond := le_of_mem_occurrences hq
    have hle := hlast q (by rw [hcut]; simp [hq])
    have hpos := l.unitLength_text_pos
    simp only at hle
    omega
  rw [hnone] at hcut
  obtain ⟨hps', -⟩ := List.append_inj' (hps.symm.trans hcut) rfl
  refine ⟨before, l, behind, rfl, hi, rfl, by rw [hps'], ?_⟩
  rw [occurrences_add, List.map_eq_nil_iff] at hnone
  rw [occurrences_line 0 behind hl, Nat.zero_add, hnone]

/-! ## The cut at the last line -/

/-- What is left of a text that is cut between two characters has the occurrences that end before the cut. -/
theorem occursAt_takeUnits_iff {s : List Char} {n i j : Nat} {l : Line}
    (h : units (takeUnits n s) = (units s).take n) :
    OccursAt (takeUnits n s) i j l ↔ OccursAt s i j l ∧ j ≤ n := by
  constructor
  · intro hl
    obtain ⟨hwf, hspells⟩ := hl
    rw [h] at hspells
    obtain ⟨hspells, hj⟩ := Text.spells_take_iff.1 hspells
    exact ⟨⟨hwf, hspells⟩, hj⟩
  · intro hl
    obtain ⟨⟨hwf, hspells⟩, hj⟩ := hl
    refine ⟨hwf, ?_⟩
    rw [h]
    exact Text.spells_take_iff.2 ⟨hspells, hj⟩

/-- What starts before the last line ends before it. -/
theorem OccursAt.le_offset {s : List Char} {i j : Nat} {l : Line} (h : OccursAt s i j l) {e : Extraction}
    (he : extract s = some e) (hi : i < e.offset) : j ≤ e.offset := by
  obtain ⟨a, d, hd, hmem, rfl, rfl⟩ := h.exists_mem_occurrences
  obtain ⟨ps, p, hps, rfl⟩ := extract_eq_some_iff.1 he
  have hapart := pairwise_occurrences s 0
  rw [hps] at hmem hapart
  rcases List.mem_append.1 hmem with hmem | hmem
  · exact (List.pairwise_append.1 hapart).2.2 _ hmem p List.mem_cons_self
  · rw [← List.mem_singleton.1 hmem] at hi
    simp only at hi
    omega

/-- **A text cut at the reported offset.**  The two parts are the units before the offset and those from it on.  The part
from the offset on has one line, at its head, with the same summary.  The part before it has all others and no other
ones: one less than the text has, so none exactly if the text has one, and each of them ends at the offset or before. -/
theorem extract_cut {s : List Char} {e : Extraction} (h : extract s = some e) :
    let before := takeUnits e.offset s
    let behind := dropUnits e.offset s
    units before = (units s).take e.offset ∧ units behind = (units s).drop e.offset ∧
    extract behind = some ⟨e.summary, 1, 0⟩ ∧
    lineCount before + 1 = e.matchCount ∧ (extract before = none ↔ e.matchCount = 1) ∧
    (∀ i j l, OccursAt before i j l ↔ OccursAt s i j l ∧ i < e.offset) ∧
    ∀ i j l, OccursAt s i j l → i < e.offset → j ≤ e.offset := by
  have hends : ∀ i j l, OccursAt s i j l → i < e.offset → j ≤ e.offset := fun i j l hl => hl.le_offset h
  obtain ⟨pre, l, post, rfl, hoffset, hsummary, hcount, hbehind⟩ := exists_split_of_extract h
  have htake := Text.units_takeUnits_unitLength pre (l.text ++ post)
  have hdrop := Text.units_dropUnits_unitLength pre (l.text ++ post)
  rw [← hoffset] at htake hdrop
  have hbefore : takeUnits e.offset (pre ++ (l.text ++ post)) = pre := by
    rw [hoffset, Text.takeUnits_unitLength]
  intro before behind
  refine ⟨htake, hdrop, ?_, ?_, ?_, fun i j m => ?_, hends⟩
  · simp only [behind, hoffset, Text.dropUnits_unitLength_append]
    exact extract_eq_some_iff.2 ⟨[], _, hbehind, by rw [hsummary]; rfl⟩
  · simp only [before, hbefore]
    rw [lineCount_eq, hcount]
  · simp only [before, hbefore]
    rw [extract_eq_none_iff, hcount, ← List.length_eq_zero_iff]
    omega
  · rw [occursAt_takeUnits_iff htake]
    refine and_congr_right fun hm => ⟨fun hj => ?_, hends i j m hm⟩
    exact Nat.lt_of_lt_of_le hm.lt hj

/-- Two lines with nothing between them. -/
theorem extract_cut_glued :
    let s := "1 Tests 0 Failures 0 Ignored2 Tests 3 Failures 4 Ignored".toList
    extract s = some ⟨⟨2, 3, 4⟩, 2, 28⟩ ∧ extract (dropUnits 28 s) = some ⟨⟨2, 3, 4⟩, 1, 0⟩ ∧
      lineCount (takeUnits 28 s) + 1 = 2 ∧ ∀ i j l, OccursAt s i j l → i < 28 → j ≤ 28 := by
  intro s
  have hextract : extract s = some ⟨⟨2, 3, 4⟩, 2, 28⟩ := by decide +kernel
  obtain ⟨-, -, hbehind, hcount, -, -, hends⟩ := extract_cut hextract
  exact ⟨hextract, hbehind, hcount, hends⟩

end Summary
end LogVerdict
