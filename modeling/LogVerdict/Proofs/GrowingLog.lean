import LogVerdict.Proofs.RawBytes
/-!
# GrowingLog — what the beginning of a log decides

Wherever a log is cut, through a character or through a digit run, what is left has the matches of the whole log that
end before the cut, and no other ones (`matchAt_take_iff`).  So what the beginning of a log yields can be said by the
whole log (`Yields`), and as a log grows it keeps the matches it has (`Yields.grow`).  Bytes in which no line can end
add none (`extract_append_of_notMem`).
-/
namespace LogVerdict

/-- An outcome with another number of bytes read, where it has one. -/
def Outcome.withBytes (o : Outcome) (bytes : Nat) : Outcome :=
  match o with
  | .summaryNotFound path _ => .summaryNotFound path bytes
  | .completed status path e _ => .completed status path e bytes
  | o => o

namespace Summary

open Text (After)
open Text.Utf8 (decode encode)

/-- **A match in a log**: the bytes from `i` to `j` spell a summary line, and no digit stands right before them. -/
structure MatchAt (b : List UInt8) (i j : Nat) (l : Line) : Prop where
  occurs : ByteOccursAt b i j l
  clear : ¬ After isDigitByte b i

/-- **What the first `n` bytes of a log yield**, by the matches of the whole log that end there or before: their number,
and the counts and the place of the last one of them. -/
structure Yields (b : List UInt8) (n : Nat) (e : Extraction) : Prop where
  count : e.matchCount = {p : Nat × Nat | (∃ l, MatchAt b p.1 p.2 l) ∧ p.2 ≤ n}.ncard
  last : ∃ i j l, MatchAt b i j l ∧ j ≤ n ∧ (∀ i' j' l', MatchAt b i' j' l' → j' ≤ n → i' ≤ i) ∧
    e.summary = ⟨decimal l.tests.count, decimal l.failures.count, decimal l.ignored.count⟩ ∧ e.offset = textOffset b i

/-! ## Cuts -/

theorem ByteOccursAt.lt {b : List UInt8} {i j : Nat} {l : Line} (h : ByteOccursAt b i j l) : i < j := by
  obtain ⟨x, y, -, hl, -, hj⟩ := byteOccursAt_iff.1 h
  obtain ⟨d, r, hd, -⟩ := hl.encode_eq_cons
  rw [hj, hd, List.length_cons]
  omega

/-- **A cut leaves the matches that end before it**, and makes no other ones. -/
theorem matchAt_take_iff {b : List UInt8} {n i j : Nat} {l : Line} :
    MatchAt (b.take n) i j l ↔ MatchAt b i j l ∧ j ≤ n := by
  constructor
  · intro h
    obtain ⟨hl, hspells⟩ := h.occurs
    obtain ⟨hspells, hj⟩ := Text.spells_take_iff.1 hspells
    have hoccurs : ByteOccursAt b i j l := ⟨hl, hspells⟩
    have hlt := hoccurs.lt
    exact ⟨⟨hoccurs, (not_congr (Text.after_take_iff (by omega))).1 h.clear⟩, hj⟩
  · intro h
    obtain ⟨⟨hoccurs, hclear⟩, hj⟩ := h
    have hlt := hoccurs.lt
    exact ⟨⟨hoccurs.wellFormed, Text.spells_take_iff.2 ⟨hoccurs.spells, hj⟩⟩,
      (not_congr (Text.after_take_iff (by omega))).2 hclear⟩

theorem textOffset_take {b : List UInt8} {n i : Nat} (h : i ≤ n) : textOffset (b.take n) i = textOffset b i := by
  unfold textOffset
  rw [List.take_take, Nat.min_eq_left h]

theorem byteStartsAt_iff {b : List UInt8} {i : Nat} : ByteStartsAt b i ↔ ∃ j l, MatchAt b i j l := by
  constructor
  · intro h
    obtain ⟨⟨j, l, hl⟩, hclear⟩ := h
    exact ⟨j, l, hl, hclear⟩
  · intro h
    obtain ⟨j, l, hl, hclear⟩ := h
    exact ⟨⟨j, l, hl⟩, hclear⟩

theorem setOf_matchAt (b : List UInt8) (n : Nat) :
    {p : Nat × Nat | (∃ l, ByteOccursAt (b.take n) p.1 p.2 l) ∧ ¬ After isDigitByte (b.take n) p.1}
      = {p : Nat × Nat | (∃ l, MatchAt b p.1 p.2 l) ∧ p.2 ≤ n} := by
  ext p
  constructor
  · intro h
    obtain ⟨⟨l, hl⟩, hclear⟩ := h
    obtain ⟨hmatch, hn⟩ := matchAt_take_iff.1 ⟨hl, hclear⟩
    exact ⟨⟨l, hmatch⟩, hn⟩
  · intro h
    obtain ⟨⟨l, hmatch⟩, hn⟩ := h
    obtain ⟨hl, hclear⟩ := matchAt_take_iff.2 ⟨hmatch, hn⟩
    exact ⟨⟨l, hl⟩, hclear⟩

/-- **What is extracted from the beginning of a log is said by the whole log.** -/
theorem extract_decode_take_eq_some_iff {b : List UInt8} {n : Nat} {e : Extraction} :
    extract (decode (b.take n)) = some e ↔ Yields b n e := by
  have hplace : ∀ {i j l}, MatchAt b i j l → j ≤ n → textOffset (b.take n) i = textOffset b i := by
    intro i j l h hj
    have hlt := h.occurs.lt
    exact textOffset_take (by omega)
  rw [extract_decode_eq_some_iff, ← ncard_byteOccurrences, setOf_matchAt]
  simp only [Line.summary_eq_decimal]
  constructor
  · intro h
    obtain ⟨hcount, i, j, l, hl, hgreatest, hsummary, hoffset⟩ := h
    obtain ⟨hmatch, hj⟩ := matchAt_take_iff.1 ⟨hl, hgreatest.1.2⟩
    refine ⟨hcount, i, j, l, hmatch, hj, fun i' j' l' h' hj' => ?_, hsummary, hoffset.trans (hplace hmatch hj)⟩
    exact hgreatest.2 (byteStartsAt_iff.2 ⟨j', l', matchAt_take_iff.2 ⟨h', hj'⟩⟩)
  · intro h
    obtain ⟨hcount, i, j, l, hmatch, hj, hlast, hsummary, hoffset⟩ := h
    have hcut := matchAt_take_iff.2 ⟨hmatch, hj⟩
    refine ⟨hcount, i, j, l, hcut.occurs, ⟨byteStartsAt_iff.2 ⟨j, l, hcut⟩, fun i' h' => ?_⟩, hsummary,
      hoffset.trans (hplace hmatch hj).symm⟩
    obtain ⟨j', l', h'⟩ := byteStartsAt_iff.1 h'
    obtain ⟨h', hj'⟩ := matchAt_take_iff.1 h'
    exact hlast i' j' l' h' hj'

theorem extract_decode_eq_some_iff_yields {b : List UInt8} {e : Extraction} :
    extract (decode b) = some e ↔ Yields b b.length e := by
  rw [← extract_decode_take_eq_some_iff, List.take_length]

theorem extract_decode_eq_some_iff_yields_append {b : List UInt8} (c : List UInt8) {e : Extraction} :
    extract (decode b) = some e ↔ Yields (b ++ c) b.length e := by
  rw [← extract_decode_take_eq_some_iff, List.take_left]

theorem extract_decode_take_eq_none_iff {b : List UInt8} {n : Nat} :
    extract (decode (b.take n)) = none ↔ ¬ ∃ i j l, MatchAt b i j l ∧ j ≤ n := by
  cases h : extract (decode (b.take n)) with
  | none =>
    rw [extract_decode_eq_none_iff] at h
    refine iff_of_true rfl fun hmatch => ?_
    obtain ⟨i, j, l, hmatch⟩ := hmatch
    exact h ⟨i, j, l, (matchAt_take_iff.2 hmatch).occurs⟩
  | some e =>
    obtain ⟨i, j, l, hmatch, hj, -⟩ := (extract_decode_take_eq_some_iff.1 h).last
    exact iff_of_false nofun (not_not_intro ⟨i, j, l, hmatch, hj⟩)

/-! ## Growth -/

theorem finite_matches (b : List UInt8) (n : Nat) : {p : Nat × Nat | (∃ l, MatchAt b p.1 p.2 l) ∧ p.2 ≤ n}.Finite := by
  refine ((Set.finite_le_nat n).prod (Set.finite_le_nat n)).subset ?_
  rintro p ⟨⟨l, h⟩, hn⟩
  have hlt := h.occurs.lt
  exact ⟨(Nat.le_of_lt hlt).trans hn, hn⟩

/-- **A log that grows keeps what it yields**: there are no fewer matches, and the last one is no earlier. -/
theorem Yields.grow {b : List UInt8} {n m : Nat} {e : Extraction} (h : Yields b n e) (hnm : n ≤ m) :
    ∃ e', Yields b m e' ∧ e.matchCount ≤ e'.matchCount ∧ e.offset ≤ e'.offset := by
  obtain ⟨hcount, i, j, l, hmatch, hj, -, -, hoffset⟩ := h
  cases hm : extract (decode (b.take m)) with
  | none => exact absurd ⟨i, j, l, hmatch, hj.trans hnm⟩ (extract_decode_take_eq_none_iff.1 hm)
  | some e' =>
    have h' := extract_decode_take_eq_some_iff.1 hm
    obtain ⟨i', j', l', hmatch', hj', hlast, -, hoffset'⟩ := h'.last
    refine ⟨e', h', ?_, ?_⟩
    · rw [hcount, h'.count]
      exact Set.ncard_le_ncard (fun p hp => ⟨hp.1, hp.2.trans hnm⟩) (finite_matches b m)
    · rw [hoffset, hoffset']
      exact (strictMonoOn_textOffset b).monotoneOn (byteStartsAt_iff.2 ⟨j, l, hmatch⟩)
        (byteStartsAt_iff.2 ⟨j', l', hmatch'⟩) (hlast i j l hmatch (hj.trans hnm))

theorem Yields.congr {b : List UInt8} {n m : Nat} {e : Extraction} (h : Yields b n e)
    (hnm : ∀ i j l, MatchAt b i j l → (j ≤ n ↔ j ≤ m)) : Yields b m e := by
  obtain ⟨hcount, i, j, l, hmatch, hj, hlast, hrest⟩ := h
  refine ⟨?_, i, j, l, hmatch, (hnm i j l hmatch).1 hj, fun i' j' l' h' hj' => ?_, hrest⟩
  · rw [hcount]
    congr 1
    ext p
    exact and_congr_right fun hp => hp.elim fun l hl => hnm p.1 p.2 l hl
  · exact hlast i' j' l' h' ((hnm i' j' l' h').2 hj')

/-- The byte of the letter that a summary line ends in. -/
def lastByte : UInt8 := 0x64

theorem ByteOccursAt.getElem?_last {b : List UInt8} {i j : Nat} {l : Line} (h : ByteOccursAt b i j l) :
    b[j - 1]? = some lastByte := by
  obtain ⟨x, y, rfl, -, rfl, rfl⟩ := byteOccursAt_iff.1 h
  obtain ⟨s, hs⟩ := l.exists_text_eq_concat
  have hencode : encode l.text = encode s ++ [lastByte] := by
    rw [hs, encode, List.flatMap_append]
    rfl
  rw [hencode]
  simp

/-- **Bytes in which no line can end add nothing.** -/
theorem extract_append_of_notMem (b : List UInt8) {c : List UInt8} (hc : lastByte ∉ c) :
    extract (decode (b ++ c)) = extract (decode b) := by
  have hends : ∀ i j l, MatchAt (b ++ c) i j l → (j ≤ b.length ↔ j ≤ (b ++ c).length) := by
    intro i j l h
    refine iff_of_true ?_ h.occurs.spells.inside
    by_contra hj
    have hlast := h.occurs.getElem?_last
    rw [List.getElem?_append_right (by omega)] at hlast
    exact hc (List.mem_of_getElem? hlast)
  apply Option.ext
  intro e
  rw [extract_decode_eq_some_iff_yields, extract_decode_eq_some_iff_yields_append c]
  exact ⟨fun h => h.congr fun i j l hmatch => (hends i j l hmatch).symm, fun h => h.congr hends⟩

theorem ofReading_eq_withBytes (path : String) {b b' : List UInt8} (h : extract (decode b') = extract (decode b)) :
    Outcome.ofReading path (.ok b') = (Outcome.ofReading path (.ok b)).withBytes b'.length := by
  unfold Outcome.ofReading
  simp only [h]
  cases extract (decode b) with
  | none => rfl
  | some e => rfl

/-- **Growing and cut logs.**  The first bytes of a log are judged by the matches of the whole log that end within them,
whatever the cut goes through: their number, the counts and the place of the last one, and no summary where there are
none.  A completed log stays completed whatever is appended to it, with no fewer matches and no earlier offset, and zero
bytes behind a log change nothing but the number of bytes. -/
theorem ofReading_growing (path : String) (b : List UInt8) :
    (∀ n,
      (Outcome.ofReading path (.ok (b.take n)) = .summaryNotFound path (min n b.length) ↔
        ¬ ∃ i j l, MatchAt b i j l ∧ j ≤ n) ∧
      ∀ status e bytes, Outcome.ofReading path (.ok (b.take n)) = .completed status path e bytes ↔
        Yields b n e ∧ status = .ofFailures e.summary.failures ∧ bytes = min n b.length) ∧
    (∀ c status e bytes, Outcome.ofReading path (.ok b) = .completed status path e bytes →
      ∃ status' e', Outcome.ofReading path (.ok (b ++ c)) = .completed status' path e' (bytes + c.length) ∧
        e.matchCount ≤ e'.matchCount ∧ e.offset ≤ e'.offset) ∧
    ∀ k, Outcome.ofReading path (.ok (b ++ List.replicate k 0)) =
      (Outcome.ofReading path (.ok b)).withBytes (b.length + k) := by
  refine ⟨fun n => ⟨?_, fun status e bytes => ?_⟩, fun c status e bytes h => ?_, fun k => ?_⟩
  · rw [← List.length_take, Outcome.ofReading_ok_eq_summaryNotFound_iff, extract_decode_take_eq_none_iff]
  · rw [Outcome.ofReading_ok_eq_completed_iff, extract_decode_take_eq_some_iff, List.length_take]
  · obtain ⟨hextract, -, rfl⟩ := Outcome.ofReading_ok_eq_completed_iff.1 h
    have hle : b.length ≤ (b ++ c).length := (List.prefix_append b c).length_le
    obtain ⟨e', hyields, hcount, hoffset⟩ := ((extract_decode_eq_some_iff_yields_append c).1 hextract).grow hle
    have hextract' := extract_decode_eq_some_iff_yields.2 hyields
    exact ⟨_, e', Outcome.ofReading_ok_eq_completed_iff.2 ⟨hextract', rfl, List.length_append.symm⟩, hcount, hoffset⟩
  · have hzero : lastByte ∉ List.replicate k (0 : UInt8) := by
      intro h
      exact absurd (List.eq_of_mem_replicate h) (by decide)
    rw [ofReading_eq_withBytes path (extract_append_of_notMem b hzero), List.length_append, List.length_replicate]

/-- A line keeps a log completed with half a character behind it. -/
theorem ofReading_growing_half :
    let b := encode "1 Tests 0 Failures 0 Ignored".toList
    Outcome.ofReading "log" (.ok b) = .completed .allPassed "log" ⟨⟨1, 0, 0⟩, 1, 0⟩ 28 ∧
      ∃ status e, Outcome.ofReading "log" (.ok (b ++ [0xE2])) = .completed status "log" e 29 ∧ 1 ≤ e.matchCount := by
  have hline : Outcome.ofReading "log" (.ok (encode "1 Tests 0 Failures 0 Ignored".toList)) =
      .completed .allPassed "log" ⟨⟨1, 0, 0⟩, 1, 0⟩ 28 := by
    decide +kernel
  obtain ⟨-, hgrow, -⟩ := ofReading_growing "log" (encode "1 Tests 0 Failures 0 Ignored".toList)
  obtain ⟨status, e, h, hcount, -⟩ := hgrow [0xE2] _ _ _ hline
  exact ⟨hline, status, e, h, hcount⟩

end Summary
end LogVerdict
