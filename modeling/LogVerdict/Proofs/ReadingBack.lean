import LogVerdict.Outcome
import LogVerdict.Proofs.Decoding
/-!
# ReadingBack — reading what was written

The text of a log that holds the encoding of a text is that text, whatever characters it has.  The other way round, the
text of a log encodes to the log again exactly if the log is valid UTF-8.  Validity is said by a grammar (`Sequence`,
`Valid`) that neither the decoder nor the encoder has a part in: it allows exactly the sequences that are the encoding
of a character (`sequence_iff`).
-/
namespace LogVerdict

namespace Text
namespace Utf8

/-! ## Valid bytes -/

/-- **The bytes of one character.**  The first byte says how many follow.  Behind some first bytes, the second one is
kept out of a part of its range, where it would spell a character that has a shorter sequence, a surrogate, or a number
above the last character. -/
inductive Sequence : List UInt8 → Prop
  | one {a : UInt8} (ha : a.toNat ≤ 0x7F) : Sequence [a]
  | two {a b : UInt8} (ha : 0xC2 ≤ a.toNat ∧ a.toNat ≤ 0xDF) (hb : IsContinuation b) : Sequence [a, b]
  | three {a b c : UInt8} (ha : 0xE0 ≤ a.toNat ∧ a.toNat ≤ 0xEF) (hb : IsContinuation b) (hc : IsContinuation c)
      (hlow : a.toNat = 0xE0 → 0xA0 ≤ b.toNat) (hhigh : a.toNat = 0xED → b.toNat ≤ 0x9F) : Sequence [a, b, c]
  | four {a b c d : UInt8} (ha : 0xF0 ≤ a.toNat ∧ a.toNat ≤ 0xF4) (hb : IsContinuation b) (hc : IsContinuation c)
      (hd : IsContinuation d) (hlow : a.toNat = 0xF0 → 0x90 ≤ b.toNat) (hhigh : a.toNat = 0xF4 → b.toNat ≤ 0x8F) :
      Sequence [a, b, c, d]

/-- **Valid UTF-8**: the sequences of some characters, one after the other. -/
inductive Valid : List UInt8 → Prop
  | nil : Valid []
  | append {x y : List UInt8} (hx : Sequence x) (hy : Valid y) : Valid (x ++ y)

theorem range_of_second {n : Nat} {b : UInt8} (hb : IsContinuation b) (hE0 : n = 0xE0 → 0xA0 ≤ b.toNat)
    (hF0 : n = 0xF0 → 0x90 ≤ b.toNat) (hED : n = 0xED → b.toNat ≤ 0x9F) (hF4 : n = 0xF4 → b.toNat ≤ 0x8F) :
    secondLow n ≤ b ∧ b ≤ secondHigh n := by
  obtain ⟨hlow, hhigh⟩ := range_of_isContinuation hb
  unfold secondLow secondHigh
  constructor
  · split
    · rename_i hn
      exact UInt8.le_iff_toNat_le.2 (hE0 hn)
    · split
      · rename_i hn
        exact UInt8.le_iff_toNat_le.2 (hF0 hn)
      · exact hlow
  · split
    · rename_i hn
      exact UInt8.le_iff_toNat_le.2 (hED hn)
    · split
      · rename_i hn
        exact UInt8.le_iff_toNat_le.2 (hF4 hn)
      · exact hhigh

/-- A valid sequence of more than one byte is what the first byte announces. -/
theorem Sequence.exists_encodeChar {x : List UInt8} (h : Sequence x) : ∃ c, String.utf8EncodeChar c = x := by
  cases h with
  | @one a ha =>
    refine ⟨Char.ofNat a.toNat, ?_⟩
    rw [encodeChar_eq, toNat_charOfNat (by omega), if_pos ha, UInt8.ofNat_toNat]
  | @two a b ha hb =>
    refine ⟨_, (pending_of_two ha).completes [b] ⟨rfl, by simpa using hb, ?_⟩⟩
    simpa using range_of_isContinuation hb
  | @three a b c ha hb hc hlow hhigh =>
    refine ⟨_, (pending_of_three ha).completes [b, c] ⟨rfl, by simpa using ⟨hb, hc⟩, ?_⟩⟩
    simpa using range_of_second hb hlow (by omega) hhigh (by omega)
  | @four a b c d ha hb hc hd hlow hhigh =>
    refine ⟨_, (pending_of_four ha).completes [b, c, d] ⟨rfl, by simpa using ⟨hb, hc, hd⟩, ?_⟩⟩
    simpa using range_of_second hb (by omega) hlow (by omega) hhigh

/-- What finishes the character that a first byte announces makes a sequence with it. -/
theorem sequence_of_finishes {a : UInt8} {later bits : Nat} {low high : UInt8} {cs : List UInt8}
    (ha : lead a = ([], .inside later bits low high)) (h : Finishes later low high cs) : Sequence (a :: cs) := by
  by_cases h1 : a.toNat < 0x80
  · rw [lead_of_ascii h1] at ha
    cases ha
  by_cases h2 : 0xC2 ≤ a.toNat ∧ a.toNat ≤ 0xDF
  · rw [lead_of_two h2] at ha
    cases ha
    obtain ⟨b, rfl⟩ := List.length_eq_one_iff.1 h.length
    exact .two h2 (h.continuation b (by simp))
  by_cases h3 : 0xE0 ≤ a.toNat ∧ a.toNat ≤ 0xEF
  · rw [lead_of_three h3] at ha
    cases ha
    obtain ⟨b, c, rfl⟩ := List.length_eq_two.1 h.length
    obtain ⟨hE0, -, hED, -⟩ := second_range (h.range b rfl)
    exact .three h3 (h.continuation b (by simp)) (h.continuation c (by simp)) hE0 hED
  by_cases h4 : 0xF0 ≤ a.toNat ∧ a.toNat ≤ 0xF4
  · rw [lead_of_four h4] at ha
    cases ha
    obtain ⟨b, c, d, rfl⟩ := List.length_eq_three.1 h.length
    obtain ⟨-, hF0, -, hF4⟩ := second_range (h.range b rfl)
    exact .four h4 (h.continuation b (by simp)) (h.continuation c (by simp)) (h.continuation d (by simp)) hF0 hF4
  · rw [lead_of_stray (by omega)] at ha
    cases ha

theorem sequence_encodeChar (c : Char) : Sequence (String.utf8EncodeChar c) := by
  by_cases h : 0x7F < c.toNat
  · obtain ⟨a, later, bits, low, high, cs, hcs, hlead, hfinishes, -⟩ := exists_finishes_of_encodeChar h
    rw [hcs]
    exact sequence_of_finishes hlead hfinishes
  · rw [encodeChar_eq, if_pos (by omega)]
    refine .one ?_
    rw [toNat_ofNat_of_lt (by omega)]
    omega

/-- **The sequences are the encodings of characters.** -/
theorem sequence_iff {x : List UInt8} : Sequence x ↔ ∃ c, String.utf8EncodeChar c = x := by
  constructor
  · exact Sequence.exists_encodeChar
  · rintro ⟨c, rfl⟩
    exact sequence_encodeChar c

theorem encode_cons (c : Char) (s : List Char) : encode (c :: s) = String.utf8EncodeChar c ++ encode s := rfl

theorem valid_iff {b : List UInt8} : Valid b ↔ ∃ s, encode s = b := by
  constructor
  · intro h
    induction h with
    | nil => exact ⟨[], rfl⟩
    | append hx _ ih =>
      obtain ⟨c, rfl⟩ := sequence_iff.1 hx
      obtain ⟨s, rfl⟩ := ih
      exact ⟨c :: s, encode_cons c s⟩
  · rintro ⟨s, rfl⟩
    induction s with
    | nil => exact .nil
    | cons c s ih =>
      rw [encode_cons]
      exact .append (sequence_encodeChar c) ih

/-! ## There and back -/

theorem decode_encode (s : List Char) : decode (encode s) = s := by
  have h := decode_encode_append s []
  rw [List.append_nil, decode_eq_nil_iff.2 rfl, List.append_nil] at h
  exact h

/-- **Exactly valid bytes come back** from the text they decode to. -/
theorem encode_decode_iff {b : List UInt8} : encode (decode b) = b ↔ Valid b := by
  rw [valid_iff]
  constructor
  · intro h
    exact ⟨decode b, h⟩
  · rintro ⟨s, rfl⟩
    rw [decode_encode]

/-- A surrogate is no character, and neither is a longer sequence for one than its own. -/
example : encode (decode [0xED, 0xA0, 0x80]) ≠ [0xED, 0xA0, 0x80] ∧ encode (decode [0xC0, 0x80]) ≠ [0xC0, 0x80] := by
  decide

end Utf8
end Text

namespace LogText

open Text.Utf8 (encode decode Valid IsContinuation decode_encode encode_decode_iff decode_append)

/-- **Reading gives back what was written.**  A log that holds the encoding of a text is read as that text, with the
number of bytes of the encoding.  Whatever bytes a log holds, they are the encoding of the text that is read exactly if
they are valid.  And a log is read as the texts of its two parts wherever it is cut, if not in front of a byte that
continues a character. -/
theorem ofReading_inverts :
    (∀ s : List Char, ofReading (.ok (encode s)) = .ok ⟨s, (encode s).length⟩) ∧
    (∀ b, ∃ log, ofReading (.ok b) = .ok log ∧ (encode log.content = b ↔ Valid b)) ∧
    ∀ x y : List UInt8, (y = [] ∨ ∃ b r, y = b :: r ∧ ¬ IsContinuation b) →
      ∃ front back log, ofReading (.ok x) = .ok front ∧ ofReading (.ok y) = .ok back ∧
        ofReading (.ok (x ++ y)) = .ok log ∧ log.content = front.content ++ back.content := by
  refine ⟨fun s => ?_, fun b => ⟨_, rfl, encode_decode_iff⟩, fun x y hcut => ?_⟩
  · rw [ofReading, decode_encode]
  · have hhead : ∀ b ∈ y.head?, ¬ IsContinuation b := by
      rcases hcut with rfl | ⟨b, r, rfl, hb⟩
      · simp
      · simpa using hb
    exact ⟨_, _, _, rfl, rfl, rfl, decode_append hhead⟩

/-- A cut through a character, in front of a letter. -/
theorem ofReading_inverts_cut :
    (([0x41] : List UInt8) = [] ∨ ∃ b r, ([0x41] : List UInt8) = b :: r ∧ ¬ IsContinuation b) ∧
      ∃ log, ofReading (.ok ([0xE2, 0x82] ++ [0x41])) = .ok log ∧ log.content = ['\ufffd', 'A'] := by
  have hcut : ([0x41] : List UInt8) = [] ∨ ∃ b r, ([0x41] : List UInt8) = b :: r ∧ ¬ IsContinuation b :=
    .inr ⟨0x41, [], rfl, by unfold IsContinuation; decide⟩
  obtain ⟨front, back, log, hfront, hback, hlog, hcontent⟩ := ofReading_inverts.2.2 [0xE2, 0x82] [0x41] hcut
  cases hfront
  cases hback
  exact ⟨hcut, log, hlog, hcontent⟩

end LogText
end LogVerdict
