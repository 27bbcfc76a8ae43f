import LogVerdict.Outcome
import LogVerdict.Proofs.Decoding
import LogVerdict.Proofs.LastOccurrence
/-!
# RawBytes — summary lines in the bytes of a log

`ByteOccursAt b i j l` says that the bytes of `b` from `i` to `j` are the encoding of the summary line `l`.  Decoding
carries these occurrences over to those of the text, one to one and in their order (`image_textOffset`,
`strictMonoOn_textOffset`), whatever the other bytes are; so a log can be judged by its bytes alone
(`ofReading_byteOccursAt`).
-/
namespace LogVerdict
namespace Summary

open Text (unitLength unitLength_append unitLength_nil After Spells)
open Text.Utf8 (encode decode decode_append decode_encode_append decode_eq_nil_iff exists_split_of_decode
  IsContinuation replacement encodeChar_eq)

/-- **A byte occurrence**: the bytes from `i` to `j` spell a summary line. -/
structure ByteOccursAt (b : List UInt8) (i j : Nat) (l : Line) : Prop where
  wellFormed : l.WellFormed
  spells : Spells b i j (encode l.text)

def isDigitByte (b : UInt8) : Bool := decide (0x30 ≤ b.toNat ∧ b.toNat ≤ 0x39)

def ByteStartsAt (b : List UInt8) (i : Nat) : Prop := (∃ j l, ByteOccursAt b i j l) ∧ ¬ After isDigitByte b i

/-- Where the text of a log goes on with the bytes from `i`, in UTF-16 code units. -/
def textOffset (b : List UInt8) (i : Nat) : Nat := unitLength (decode (b.take i))

/-! ## Digits -/

theorem digit_bounds {c : Char} (h : c.isDigit = true) : 0x30 ≤ c.toNat ∧ c.toNat ≤ 0x39 := Char.isDigit_iff_toNat.1 h

theorem encodeChar_of_isDigit {c : Char} (h : c.isDigit = true) :
    String.utf8EncodeChar c = [UInt8.ofNat c.toNat] ∧ (UInt8.ofNat c.toNat).toNat = c.toNat := by
  have hc := digit_bounds h
  rw [encodeChar_eq, if_pos (by omega)]
  exact ⟨rfl, Text.Utf8.toNat_ofNat_of_lt (by omega)⟩

theorem ne_replacement_of_isDigit {c : Char} (h : c.isDigit = true) : c ≠ replacement := by
  rintro rfl
  exact absurd h (by decide)

theorem Line.WellFormed.ne_replacement {l : Line} (h : l.WellFormed) : ∀ c ∈ l.text, c ≠ replacement := by
  intro c hc
  have hblank : ∀ b ∈ Text.blanks, b ≠ replacement := by simp [Text.blanks, replacement]
  have hword : ∀ b ∈ testsWord ++ (failuresWord ++ ignoredWord), b ≠ replacement := by
    simp [testsWord, failuresWord, ignoredWord, replacement]
  rcases h.mem_text hc with hc | hc | hc
  · exact ne_replacement_of_isDigit hc
  · exact hblank c (Text.isBlank_iff.1 hc)
  · exact hword c hc

theorem Line.WellFormed.encode_eq_cons {l : Line} (h : l.WellFormed) :
    ∃ d r, encode l.text = d :: r ∧ ¬ IsContinuation d := by
  obtain ⟨c, s, hc, hd⟩ := h.text_eq_cons
  obtain ⟨henc, hn⟩ := encodeChar_of_isDigit hd
  refine ⟨UInt8.ofNat c.toNat, encode s, ?_, ?_⟩
  · rw [hc]
    unfold encode
    rw [List.flatMap_cons, henc]
    rfl
  · have hb := digit_bounds hd
    unfold IsContinuation
    omega

theorem decode_digit {d : UInt8} (h : isDigitByte d = true) : ∃ c, decode [d] = [c] ∧ c.isDigit = true := by
  have hd : 0x30 ≤ d.toNat ∧ d.toNat ≤ 0x39 := by simpa [isDigitByte] using h
  refine ⟨Char.ofNat d.toNat, ?_, ?_⟩
  · rw [Text.Utf8.decode_eq, Text.Utf8.decodeFrom]
    simp only [Text.Utf8.step, Text.Utf8.lead_of_ascii (b := d) (by omega)]
    rfl
  · have hn : (Char.ofNat d.toNat).toNat = d.toNat := Text.Utf8.toNat_charOfNat (by omega)
    rw [Char.isDigit_iff_toNat, hn]
    exact hd

/-- **Bytes end in a digit exactly if their text does.** -/
theorem getLast_isDigitByte_iff (x : List UInt8) :
    (∃ d ∈ x.getLast?, isDigitByte d = true) ↔ endsInDigit false (decode x) = true := by
  constructor
  · intro h
    obtain ⟨d, hd, hdigit⟩ := h
    obtain ⟨y, rfl⟩ := List.getLast?_eq_some_iff.1 hd
    have hcut : ∀ e ∈ [d].head?, ¬ IsContinuation e := by
      intro e he
      cases he
      have hb : 0x30 ≤ d.toNat ∧ d.toNat ≤ 0x39 := by simpa [isDigitByte] using hdigit
      unfold IsContinuation
      omega
    obtain ⟨c, hc, hcd⟩ := decode_digit hdigit
    rw [decode_append hcut, hc, endsInDigit_append]
    exact hcd
  · intro h
    rcases List.eq_nil_or_concat (decode x) with hnil | ⟨pre, c, hpre⟩
    · rw [hnil] at h
      cases h
    · rw [List.concat_eq_append] at hpre
      have hdigit : c.isDigit = true := by
        rw [hpre, endsInDigit_append] at h
        exact h
      have hne : ∀ e ∈ [c], e ≠ replacement := by
        intro e he
        rw [List.mem_singleton.1 he]
        exact ne_replacement_of_isDigit hdigit
      have hsplit : decode x = pre ++ ([c] ++ []) := by rw [hpre]; rfl
      obtain ⟨y, z, rfl, -, hz⟩ := exists_split_of_decode (List.cons_ne_nil c []) hne hsplit
      obtain ⟨henc, hn⟩ := encodeChar_of_isDigit hdigit
      have hc : encode [c] = [UInt8.ofNat c.toNat] := by
        unfold encode
        rw [List.flatMap_cons, List.flatMap_nil, List.append_nil, henc]
      rw [decode_eq_nil_iff.1 hz, List.append_nil, hc]
      refine ⟨UInt8.ofNat c.toNat, by simp, ?_⟩
      have hb := digit_bounds hdigit
      unfold isDigitByte
      rw [hn]
      exact decide_eq_true hb

/-! ## Occurrences -/

theorem byteOccursAt_iff {b : List UInt8} {i j : Nat} {l : Line} :
    ByteOccursAt b i j l ↔ ∃ x y, b = x ++ (encode l.text ++ y) ∧ l.WellFormed ∧ x.length = i ∧
      j = i + (encode l.text).length := by
  constructor
  · intro h
    obtain ⟨hl, hs⟩ := h
    obtain ⟨d, r, hd, -⟩ := hl.encode_eq_cons
    have hne : encode l.text ≠ [] := by rw [hd]; exact List.cons_ne_nil d r
    obtain ⟨x, y, hb, hi, hj⟩ := (Text.spells_iff hne).1 hs
    exact ⟨x, y, hb, hl, hi, hj⟩
  · intro h
    obtain ⟨x, y, hb, hl, hi, hj⟩ := h
    obtain ⟨d, r, hd, -⟩ := hl.encode_eq_cons
    have hne : encode l.text ≠ [] := by rw [hd]; exact List.cons_ne_nil d r
    exact ⟨hl, (Text.spells_iff hne).2 ⟨x, y, hb, hi, hj⟩⟩

theorem decode_around_line {x y : List UInt8} {l : Line} (hl : l.WellFormed) :
    decode (x ++ (encode l.text ++ y)) = decode x ++ (l.text ++ decode y) := by
  obtain ⟨d, r, hd, hcut⟩ := hl.encode_eq_cons
  rw [decode_append, decode_encode_append]
  intro e he
  rw [hd] at he
  cases he
  exact hcut

/-- **A byte occurrence is an occurrence in the text**, at the offset its start is carried to. -/
theorem ByteOccursAt.occursAt {b : List UInt8} {i j : Nat} {l : Line} (h : ByteOccursAt b i j l) :
    ∃ k, OccursAt (decode b) (textOffset b i) k l := by
  obtain ⟨x, y, rfl, hl, rfl, -⟩ := byteOccursAt_iff.1 h
  refine ⟨_, occursAt_iff.2 ⟨decode x, decode y, decode_around_line hl, hl, ?_, rfl⟩⟩
  unfold textOffset
  rw [List.take_left]

/-- **Every occurrence in the text is one in the bytes.** -/
theorem OccursAt.exists_byteOccursAt {b : List UInt8} {n k : Nat} {l : Line} (h : OccursAt (decode b) n k l) :
    ∃ i j, ByteOccursAt b i j l ∧ textOffset b i = n := by
  obtain ⟨pre, post, hs, hl, rfl, -⟩ := occursAt_iff.1 h
  obtain ⟨x, y, rfl, hx, -⟩ := exists_split_of_decode hl.text_ne_nil hl.ne_replacement hs
  refine ⟨x.length, _, byteOccursAt_iff.2 ⟨x, y, rfl, hl, rfl, rfl⟩, ?_⟩
  unfold textOffset
  rw [List.take_left, hx]

theorem ByteOccursAt.unique {b : List UInt8} {i j j' : Nat} {l l' : Line} (h : ByteOccursAt b i j l)
    (h' : ByteOccursAt b i j' l') : l = l' ∧ j = j' := by
  obtain ⟨k, hk⟩ := h.occursAt
  obtain ⟨k', hk'⟩ := h'.occursAt
  obtain ⟨rfl, -⟩ := hk.unique hk'
  obtain ⟨-, -, -, -, -, rfl⟩ := byteOccursAt_iff.1 h
  obtain ⟨-, -, -, -, -, rfl⟩ := byteOccursAt_iff.1 h'
  exact ⟨rfl, rfl⟩

theorem ByteOccursAt.after_iff {b : List UInt8} {i j : Nat} {l : Line} (h : ByteOccursAt b i j l) :
    After isDigitByte b i ↔ After isDigitUnit (Text.units (decode b)) (textOffset b i) := by
  obtain ⟨x, y, rfl, hl, rfl, -⟩ := byteOccursAt_iff.1 h
  unfold textOffset
  rw [Text.after_length_iff, List.take_left, decode_around_line hl, after_isDigitUnit_iff]
  exact getLast_isDigitByte_iff x

/-! ## Starts -/

/-- **The starts in the text are the starts in the bytes**, carried over. -/
theorem image_textOffset (b : List UInt8) :
    textOffset b '' {i | ByteStartsAt b i} = {n | StartsAt (decode b) n} := by
  ext n
  constructor
  · intro h
    obtain ⟨i, ⟨⟨j, l, h⟩, hclear⟩, rfl⟩ := h
    obtain ⟨k, hk⟩ := h.occursAt
    exact ⟨⟨k, l, hk⟩, fun hafter => hclear (h.after_iff.2 hafter)⟩
  · intro h
    obtain ⟨⟨k, l, h⟩, hclear⟩ := h
    obtain ⟨i, j, hb, rfl⟩ := h.exists_byteOccursAt
    exact ⟨i, ⟨⟨j, l, hb⟩, fun hafter => hclear (hb.after_iff.1 hafter)⟩, rfl⟩

/-- **Carrying over keeps the order**: between two starts there is text. -/
theorem strictMonoOn_textOffset (b : List UInt8) : StrictMonoOn (textOffset b) {i | ByteStartsAt b i} := by
  rintro i ⟨⟨j, l, h⟩, -⟩ i' ⟨⟨j', l', h'⟩, -⟩ hlt
  obtain ⟨x, y, rfl, hl, rfl, -⟩ := byteOccursAt_iff.1 h
  obtain ⟨x', y', hb, hl', rfl, -⟩ := byteOccursAt_iff.1 h'
  obtain ⟨d, r, hd, hcut⟩ := hl.encode_eq_cons
  -- what lies between the starts is not empty and begins as the first line does
  have htake : (x ++ (encode l.text ++ y)).take x'.length = x ++ (encode l.text ++ y).take (x'.length - x.length) := by
    rw [List.take_append, List.take_of_length_le (Nat.le_of_lt hlt)]
  obtain ⟨m, hm⟩ : ∃ m, x'.length - x.length = m + 1 := ⟨x'.length - x.length - 1, by omega⟩
  have hne : (encode l.text ++ y).take (x'.length - x.length) ≠ [] := by
    rw [hm, hd]
    exact List.cons_ne_nil d _
  have hhead : ∀ e ∈ ((encode l.text ++ y).take (x'.length - x.length)).head?, ¬ IsContinuation e := by
    intro e he
    rw [hm, hd] at he
    cases he
    exact hcut
  have hpos : 0 < unitLength (decode ((encode l.text ++ y).take (x'.length - x.length))) := by
    rw [Nat.pos_iff_ne_zero]
    intro hzero
    cases hdec : decode ((encode l.text ++ y).take (x'.length - x.length)) with
    | nil => exact hne (decode_eq_nil_iff.1 hdec)
    | cons c s =>
      have hw := Text.width_pos c
      rw [hdec, Text.unitLength_cons] at hzero
      omega
  unfold textOffset
  rw [List.take_left, htake, decode_append hhead, unitLength_append]
  omega

theorem ncard_byteStarts (b : List UInt8) :
    {i | ByteStartsAt b i}.ncard = {n | StartsAt (decode b) n}.ncard := by
  rw [← image_textOffset, (strictMonoOn_textOffset b).injOn.ncard_image]

theorem ncard_byteOccurrences (b : List UInt8) :
    {p : Nat × Nat | (∃ l, ByteOccursAt b p.1 p.2 l) ∧ ¬ After isDigitByte b p.1}.ncard
      = {i | ByteStartsAt b i}.ncard := by
  have himage : Prod.fst '' {p : Nat × Nat | (∃ l, ByteOccursAt b p.1 p.2 l) ∧ ¬ After isDigitByte b p.1}
      = {i | ByteStartsAt b i} := by
    ext i
    constructor
    · intro h
      obtain ⟨⟨i, j⟩, ⟨⟨l, h⟩, hclear⟩, rfl⟩ := h
      exact ⟨⟨j, l, h⟩, hclear⟩
    · intro h
      obtain ⟨⟨j, l, h⟩, hclear⟩ := h
      exact ⟨(i, j), ⟨⟨l, h⟩, hclear⟩, rfl⟩
  rw [← himage, Set.InjOn.ncard_image]
  rintro ⟨i, j⟩ ⟨⟨l, h⟩, -⟩ ⟨i', j'⟩ ⟨⟨l', h'⟩, -⟩ hi
  cases hi
  have hj : j = j' := (h.unique h').2
  rw [hj]

/-- **Extraction from the text of a log, by the bytes of the log.** -/
theorem extract_decode_eq_some_iff {b : List UInt8} {e : Extraction} :
    extract (decode b) = some e ↔ e.matchCount = {i | ByteStartsAt b i}.ncard ∧
      ∃ i j l, ByteOccursAt b i j l ∧ IsGreatest {i | ByteStartsAt b i} i ∧ e.summary = l.summary ∧
        e.offset = textOffset b i := by
  rw [extract_eq_some_iff_occursAt, ncard_byteStarts]
  have hmono := strictMonoOn_textOffset b
  constructor
  · intro h
    obtain ⟨hgreatest, hcount, k, l, hl, hsummary⟩ := h
    rw [← image_textOffset] at hgreatest
    obtain ⟨i, hi, hoffset⟩ := hgreatest.1
    obtain ⟨j, l', hl'⟩ := hi.1
    obtain ⟨k', hk'⟩ := hl'.occursAt
    rw [hoffset] at hk'
    obtain ⟨rfl, -⟩ := hk'.unique hl
    refine ⟨hcount, i, j, l', hl', ⟨hi, fun i' hi' => ?_⟩, hsummary, hoffset.symm⟩
    have hle : textOffset b i' ≤ e.offset := hgreatest.2 ⟨i', hi', rfl⟩
    rw [← hoffset] at hle
    exact (hmono.le_iff_le hi' hi).1 hle
  · intro h
    obtain ⟨hcount, i, j, l, hl, hgreatest, hsummary, hoffset⟩ := h
    obtain ⟨k, hk⟩ := hl.occursAt
    rw [hoffset]
    refine ⟨?_, hcount, k, l, hk, hsummary⟩
    rw [← image_textOffset]
    exact hmono.monotoneOn.map_isGreatest hgreatest

theorem extract_decode_eq_none_iff {b : List UInt8} :
    extract (decode b) = none ↔ ¬ ∃ i j l, ByteOccursAt b i j l := by
  rw [extract_eq_none_iff_occursAt, not_iff_not]
  constructor
  · intro h
    obtain ⟨n, k, l, h⟩ := h
    obtain ⟨i, j, hb, -⟩ := h.exists_byteOccursAt
    exact ⟨i, j, l, hb⟩
  · intro h
    obtain ⟨i, j, l, h⟩ := h
    obtain ⟨k, hk⟩ := h.occursAt
    exact ⟨_, k, l, hk⟩

/-- **A log is judged by its bytes**: it is complete exactly if a byte occurrence is in it.  The counts are those of the
byte occurrence at the greatest start, the number of lines is that of the byte occurrences behind no digit, and the
offset is the length of what the bytes before the last one decode to. -/
theorem ofReading_byteOccursAt (path : String) (b : List UInt8) :
    ((∃ status e n, Outcome.ofReading path (.ok b) = .completed status path e n) ↔ ∃ i j l, ByteOccursAt b i j l) ∧
    (∀ status e n, Outcome.ofReading path (.ok b) = .completed status path e n ↔
      status = .ofFailures e.summary.failures ∧ n = b.length ∧
      e.matchCount = {p : Nat × Nat | (∃ l, ByteOccursAt b p.1 p.2 l) ∧ ¬ After isDigitByte b p.1}.ncard ∧
      ∃ i j l, ByteOccursAt b i j l ∧ IsGreatest {i | ByteStartsAt b i} i ∧
        e.summary = ⟨decimal l.tests.count, decimal l.failures.count, decimal l.ignored.count⟩ ∧
        e.offset = unitLength (decode (b.take i))) ∧
    (Outcome.ofReading path (.ok b) = .summaryNotFound path b.length ↔ ¬ ∃ i j l, ByteOccursAt b i j l) := by
  refine ⟨?_, fun status e n => ?_, ?_⟩
  · rw [← not_iff_not, ← extract_decode_eq_none_iff, Option.eq_none_iff_forall_ne_some]
    simp only [Outcome.ofReading_ok_eq_completed_iff]
    constructor
    · intro h e he
      exact h ⟨_, e, _, he, rfl, rfl⟩
    · rintro h ⟨status, e, n, he, -, -⟩
      exact h e he
  · rw [Outcome.ofReading_ok_eq_completed_iff, extract_decode_eq_some_iff, ncard_byteOccurrences]
    simp only [Line.summary_eq_decimal, textOffset]
    constructor
    · intro h
      obtain ⟨⟨hcount, hlast⟩, hstatus, hn⟩ := h
      exact ⟨hstatus, hn, hcount, hlast⟩
    · intro h
      obtain ⟨hstatus, hn, hcount, hlast⟩ := h
      exact ⟨⟨hcount, hlast⟩, hstatus, hn⟩
  · rw [← extract_decode_eq_none_iff, Outcome.ofReading_ok_eq_summaryNotFound_iff]

end Summary
end LogVerdict
