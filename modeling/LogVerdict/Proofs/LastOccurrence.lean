import LogVerdict.Proofs.UnitIndex
/-!
# LastOccurrence — what is extracted, said about all occurrences

The extracted offset is the greatest index that starts an occurrence behind no digit, the count is the number of those
indices, and the summary states the counts of the line at the greatest one (`extract_last_occurrence`).  Every
occurrence can be stretched to the left over the digits in front of it and keeps its end, so there are as many ends as
starts (`ncard_ends`).
-/
namespace LogVerdict
namespace Summary

open Text (units unitLength unitLength_append After)

/-- **The last line of a text**: the one that occurs at the greatest start. -/
def LastLine (s : List Char) (l : Line) : Prop := ∃ i j, OccursAt s i j l ∧ IsGreatest {i | StartsAt s i} i

theorem ncard_eq_length {α : Type} {ps : List α} {f : α → Nat} (h : (ps.map f).Nodup) :
    {n | ∃ p ∈ ps, f p = n}.ncard = ps.length := by
  have hset : {n | ∃ p ∈ ps, f p = n} = ((ps.map f).toFinset : Set Nat) := by
    ext n
    simp
  rw [hset, Set.ncard_coe_finset, List.toFinset_card_of_nodup h, List.length_map]

/-! ## Starts -/

theorem exists_occursAt_iff {s : List Char} : (∃ i j l, OccursAt s i j l) ↔ occurrences false 0 s ≠ [] := by
  constructor
  · intro h
    obtain ⟨i, j, l, h⟩ := h
    obtain ⟨a, d, -, hmem, -⟩ := h.exists_mem_occurrences
    exact List.ne_nil_of_mem hmem
  · intro h
    obtain ⟨⟨i, l⟩, ps, hps⟩ := List.exists_cons_of_ne_nil h
    have hmem : (i, l) ∈ occurrences false 0 s := by rw [hps]; exact List.mem_cons_self
    obtain ⟨⟨j, hj⟩, -⟩ := mem_occurrences_iff_occursAt.1 hmem
    exact ⟨i, j, l, hj⟩

theorem setOf_startsAt (s : List Char) : {i | StartsAt s i} = {i | ∃ p ∈ occurrences false 0 s, p.1 = i} := by
  ext i
  simp only [Set.mem_ofPred_eq, startsAt_iff, Prod.exists]
  constructor
  · intro h
    obtain ⟨l, h⟩ := h
    exact ⟨i, l, h, rfl⟩
  · intro h
    obtain ⟨i, l, h, rfl⟩ := h
    exact ⟨l, h⟩

theorem ncard_starts (s : List Char) : {i | StartsAt s i}.ncard = (occurrences false 0 s).length := by
  rw [setOf_startsAt]
  refine ncard_eq_length (List.pairwise_map.2 ((pairwise_occurrences s 0).imp ?_))
  intro p q h
  have hpos := p.2.unitLength_text_pos
  omega

theorem isGreatest_of_occurrences {s : List Char} {ps : List (Nat × Line)} {p : Nat × Line}
    (h : occurrences false 0 s = ps ++ [p]) : IsGreatest {i | StartsAt s i} p.1 := by
  have hsorted := pairwise_occurrences s 0
  rw [setOf_startsAt, h] at *
  constructor
  · exact ⟨p, by simp, rfl⟩
  · rintro i ⟨q, hq, rfl⟩
    rcases List.mem_append.1 hq with hq | hq
    · have hle := (List.pairwise_append.1 hsorted).2.2 q hq p (by simp)
      omega
    · rw [List.mem_singleton.1 hq]

/-- **Extraction by its occurrences**, with the counts as the line states them. -/
theorem extract_eq_some_iff_occursAt {s : List Char} {e : Extraction} :
    extract s = some e ↔ IsGreatest {i | StartsAt s i} e.offset ∧ e.matchCount = {i | StartsAt s i}.ncard ∧
      ∃ j l, OccursAt s e.offset j l ∧ e.summary = l.summary := by
  constructor
  · intro h
    obtain ⟨ps, p, hps, rfl⟩ := extract_eq_some_iff.1 h
    have hmem : (p.1, p.2) ∈ occurrences false 0 s := by rw [hps]; simp
    obtain ⟨⟨j, hj⟩, -⟩ := mem_occurrences_iff_occursAt.1 hmem
    refine ⟨isGreatest_of_occurrences hps, ?_, j, p.2, hj, rfl⟩
    rw [ncard_starts, hps, List.length_append, List.length_singleton]
  · intro h
    obtain ⟨hgreatest, hcount, j, l, hl, hsummary⟩ := h
    have hne := exists_occursAt_iff.1 ⟨e.offset, j, l, hl⟩
    obtain ⟨ps, p, hps⟩ := (List.eq_nil_or_concat _).resolve_left hne
    rw [List.concat_eq_append] at hps
    have hoffset : e.offset = p.1 := hgreatest.unique (isGreatest_of_occurrences hps)
    have hmem : (p.1, p.2) ∈ occurrences false 0 s := by rw [hps]; simp
    obtain ⟨⟨j', hj'⟩, -⟩ := mem_occurrences_iff_occursAt.1 hmem
    rw [hoffset] at hl
    have hline : l = p.2 := (hl.unique hj').1
    refine extract_eq_some_iff.2 ⟨ps, p, hps, ?_⟩
    rw [ncard_starts, hps, List.length_append, List.length_singleton] at hcount
    cases e
    simp_all

theorem extract_eq_none_iff_occursAt {s : List Char} : extract s = none ↔ ¬ ∃ i j l, OccursAt s i j l := by
  rw [extract_eq_none_iff, exists_occursAt_iff, not_not]

/-! ## Ends -/

theorem setOf_ends (s : List Char) :
    {j | ∃ i l, OccursAt s i j l} = {j | ∃ p ∈ occurrences false 0 s, p.1 + unitLength p.2.text = j} := by
  ext j
  constructor
  · intro h
    obtain ⟨i, l, h⟩ := h
    obtain ⟨a, d, -, hmem, -, rfl⟩ := h.exists_mem_occurrences
    exact ⟨(a, l.extend d), hmem, rfl⟩
  · intro h
    obtain ⟨⟨i, l⟩, hp, rfl⟩ := h
    obtain ⟨pre, post, rfl, hl, -, hi⟩ := mem_occurrences.1 hp
    refine ⟨i, l, occursAt_iff.2 ⟨pre, post, rfl, hl, ?_, ?_⟩⟩
    · simpa using hi
    · simp only [Nat.zero_add] at hi
      rw [unitLength_append, hi]

theorem ncard_ends (s : List Char) : {j | ∃ i l, OccursAt s i j l}.ncard = {i | StartsAt s i}.ncard := by
  rw [setOf_ends, ncard_starts]
  refine ncard_eq_length (List.pairwise_map.2 ((pairwise_occurrences s 0).imp ?_))
  intro p q h
  have hpos := q.2.unitLength_text_pos
  omega

/-! ## Counts -/

theorem value_eq_decimal (ds : List Char) : Text.Decimal.value ds = decimal ds := by
  unfold Text.Decimal.value decimal
  induction ds using List.reverseRecOn with
  | nil => rfl
  | append_singleton ds c ih =>
    rw [Nat.ofDigitChars_append, Nat.ofDigitChars_cons, Nat.ofDigitChars_nil, ih, List.reverse_append,
      List.reverse_singleton, List.singleton_append, List.map_cons, Nat.ofDigits_cons]
    omega

theorem Line.summary_eq_decimal (l : Line) :
    l.summary = ⟨decimal l.tests.count, decimal l.failures.count, decimal l.ignored.count⟩ := by
  unfold Line.summary
  rw [value_eq_decimal, value_eq_decimal, value_eq_decimal]

/-- **Extraction, characterised by occurrences**: there is a result exactly if there is an occurrence; its offset is the
greatest start, its count the number of starts, which is the number of ends, and its summary gives the exact values of
the three digit runs at the offset.  Reading returns that summary, and fails only where nothing occurs. -/
theorem extract_last_occurrence (s : List Char) :
    ((extract s).isSome = true ↔ ∃ i j l, OccursAt s i j l) ∧
    (∀ e, extract s = some e ↔ IsGreatest {i | StartsAt s i} e.offset ∧ e.matchCount = {i | StartsAt s i}.ncard ∧
      ∃ j l, OccursAt s e.offset j l ∧
        e.summary = ⟨decimal l.tests.count, decimal l.failures.count, decimal l.ignored.count⟩) ∧
    {j | ∃ i l, OccursAt s i j l}.ncard = {i | StartsAt s i}.ncard ∧
    (∀ counts, read s = .ok counts ↔ ∃ e, extract s = some e ∧ e.summary = counts) ∧
    (∀ f, read s = .error f ↔ f = ⟨"Unity test summary not found in output"⟩ ∧ ¬ ∃ i j l, OccursAt s i j l) := by
  refine ⟨?_, fun e => ?_, ncard_ends s, fun counts => ?_, fun f => ?_⟩
  · rw [exists_occursAt_iff, ← not_iff_not, Bool.not_eq_true, Option.isSome_eq_false_iff, Option.isNone_iff_eq_none,
      extract_eq_none_iff, not_not]
  · rw [extract_eq_some_iff_occursAt]
    simp only [Line.summary_eq_decimal]
  · unfold read
    cases extract s with
    | none => simp
    | some e => simp
  · rw [← extract_eq_none_iff_occursAt]
    unfold read
    cases extract s with
    | none => simp [eq_comm]
    | some e => simp

end Summary
end LogVerdict
