import LogVerdict.Text.Utf8
/-!
# Encoding — what was encoded is decoded again

The first byte of a character puts the decoder into a state that says how many bytes follow and which ones may come next;
bytes that fit it give their character (`decodeFrom_finishes`), and those of an encoding do
(`exists_finishes_of_encodeChar`).  So decoding text that was encoded gives it back, whatever follows
(`decode_encode_append`).
-/
namespace LogVerdict
namespace Text
namespace Utf8

/-- A byte that only continues a character. -/
def IsContinuation (b : UInt8) : Prop := 0x80 ≤ b.toNat ∧ b.toNat ≤ 0xBF

/-! ## First bytes -/

theorem lead_of_ascii {b : UInt8} (h : b.toNat < 0x80) : lead b = ([Char.ofNat b.toNat], .between) := by
  unfold lead
  simp only
  rw [if_pos h]

theorem lead_of_stray {b : UInt8} (h : (0x80 ≤ b.toNat ∧ b.toNat < 0xC2) ∨ 0xF4 < b.toNat) :
    lead b = ([replacement], .between) := by
  unfold lead
  simp only
  repeat rw [if_neg (by omega)]

theorem lead_of_two {b : UInt8} (h : 0xC2 ≤ b.toNat ∧ b.toNat ≤ 0xDF) :
    lead b = ([], .inside 0 (b.toNat - 0xC0) 0x80 0xBF) := by
  unfold lead
  simp only
  rw [if_neg (by omega), if_pos h]

/-- The least second byte behind a first byte of three or four. -/
def secondLow (n : Nat) : UInt8 := if n = 0xE0 then 0xA0 else if n = 0xF0 then 0x90 else 0x80

/-- The greatest second byte behind a first byte of three or four. -/
def secondHigh (n : Nat) : UInt8 := if n = 0xED then 0x9F else if n = 0xF4 then 0x8F else 0xBF

theorem lead_of_three {b : UInt8} (h : 0xE0 ≤ b.toNat ∧ b.toNat ≤ 0xEF) :
    lead b = ([], .inside 1 (b.toNat - 0xE0) (secondLow b.toNat) (secondHigh b.toNat)) := by
  unfold lead secondLow secondHigh
  simp only
  rw [if_neg (by omega), if_neg (by omega)]
  by_cases h0 : b.toNat = 0xE0
  · rw [if_pos h0, if_pos h0, if_neg (by omega), if_neg (by omega)]
  · have hf : ¬ b.toNat = 0xF0 := by omega
    have h4 : ¬ b.toNat = 0xF4 := by omega
    rw [if_neg h0, if_neg h0]
    by_cases hd : b.toNat = 0xED
    · rw [if_pos hd, if_pos hd, if_neg hf]
    · rw [if_neg hd, if_neg hd, if_pos (by omega), if_neg hf, if_neg h4]

theorem lead_of_four {b : UInt8} (h : 0xF0 ≤ b.toNat ∧ b.toNat ≤ 0xF4) :
    lead b = ([], .inside 2 (b.toNat - 0xF0) (secondLow b.toNat) (secondHigh b.toNat)) := by
  unfold lead secondLow secondHigh
  simp only
  rw [if_neg (by omega), if_neg (by omega), if_neg (by omega), if_neg (by omega), if_neg (by omega)]
  by_cases h0 : b.toNat = 0xF0
  · simp [h0]
  · by_cases h4 : b.toNat = 0xF4
    · simp [h4]
    · have h1 : 0xF1 ≤ b.toNat ∧ b.toNat ≤ 0xF3 := by omega
      rw [if_neg h0, if_pos h1, if_neg (by omega), if_neg h0, if_neg (by omega), if_neg h4]

theorem secondLow_ge (n : Nat) : 0x80 ≤ (secondLow n).toNat := by
  unfold secondLow
  split
  · decide
  · split <;> decide

theorem secondHigh_le (n : Nat) : (secondHigh n).toNat ≤ 0xBF := by
  unfold secondHigh
  split
  · decide
  · split <;> decide

/-! ## Continuations -/

/-- The number that continuation bytes make of the bits before them. -/
def continued (bits : Nat) (cs : List UInt8) : Nat := cs.foldl (fun n c => n * 0x40 + (c.toNat - 0x80)) bits

/-- Bytes that finish a character, `later` of them behind the first one, which lies between `low` and `high`. -/
structure Finishes (later : Nat) (low high : UInt8) (cs : List UInt8) : Prop where
  length : cs.length = later + 1
  continuation : ∀ c ∈ cs, IsContinuation c
  range : ∀ c ∈ cs.head?, low ≤ c ∧ c ≤ high

theorem step_of_not_range {later bits : Nat} {low high b : UInt8} (h : ¬ (low ≤ b ∧ b ≤ high)) :
    step (.inside later bits low high) b = (replacement :: (lead b).1, (lead b).2) := by
  simp only [step]
  rw [if_neg h]

theorem step_of_range_zero {bits : Nat} {low high b : UInt8} (h : low ≤ b ∧ b ≤ high) :
    step (.inside 0 bits low high) b = ([Char.ofNat (bits * 0x40 + (b.toNat - 0x80))], .between) := by
  simp only [step]
  rw [if_pos h]

theorem step_of_range_succ {later bits : Nat} {low high b : UInt8} (h : low ≤ b ∧ b ≤ high) :
    step (.inside (later + 1) bits low high) b
      = ([], .inside later (bits * 0x40 + (b.toNat - 0x80)) 0x80 0xBF) := by
  simp only [step]
  rw [if_pos h]

theorem range_of_isContinuation {c : UInt8} (h : IsContinuation c) : (0x80 : UInt8) ≤ c ∧ c ≤ (0xBF : UInt8) := by
  rw [UInt8.le_iff_toNat_le, UInt8.le_iff_toNat_le]
  exact h

theorem Finishes.tail {later : Nat} {low high c : UInt8} {cs : List UInt8} (h : Finishes (later + 1) low high (c :: cs)) :
    Finishes later 0x80 0xBF cs := by
  refine ⟨by simpa using h.length, fun d hd => h.continuation d (List.mem_cons_of_mem _ hd), fun d hd => ?_⟩
  exact range_of_isContinuation (h.continuation d (List.mem_cons_of_mem _ (List.mem_of_mem_head? hd)))

/-- **Bytes that finish a character give it**, whatever follows. -/
theorem decodeFrom_finishes (y : List UInt8) : ∀ (later bits : Nat) (low high : UInt8) (cs : List UInt8),
    Finishes later low high cs →
      decodeFrom (.inside later bits low high) (cs ++ y) = Char.ofNat (continued bits cs) :: decodeFrom .between y
  | 0, bits, low, high, cs, h => by
    obtain ⟨c, rfl⟩ := List.length_eq_one_iff.1 h.length
    rw [List.singleton_append, decodeFrom, step_of_range_zero (h.range c rfl)]
    simp only [continued, List.foldl_cons, List.foldl_nil, List.singleton_append]
  | later + 1, bits, low, high, [], h => by cases h.length
  | later + 1, bits, low, high, c :: cs, h => by
    rw [List.cons_append, decodeFrom, step_of_range_succ (h.range c rfl),
      decodeFrom_finishes y later _ _ _ cs h.tail]
    simp only [continued, List.foldl_cons, List.nil_append]

/-! ## Encodings -/

theorem toNat_ofNat_of_lt {n : Nat} (h : n < 256) : (UInt8.ofNat n).toNat = n := by
  rw [UInt8.toNat_ofNat']
  exact Nat.mod_eq_of_lt h

/-- A byte that continues a character with the last six bits of a number. -/
def tail (n : Nat) : UInt8 := UInt8.ofNat (n % 0x40 + 0x80)

theorem toNat_tail (n : Nat) : (tail n).toNat = n % 0x40 + 0x80 := toNat_ofNat_of_lt (by omega)

theorem isContinuation_tail (n : Nat) : IsContinuation (tail n) := by
  unfold IsContinuation
  rw [toNat_tail]
  omega

/-- The bytes of a character, by the size of its number. -/
theorem encodeChar_eq (c : Char) : String.utf8EncodeChar c =
    if c.toNat ≤ 0x7F then [UInt8.ofNat c.toNat]
    else if c.toNat ≤ 0x7FF then [UInt8.ofNat (c.toNat / 64 % 0x20 + 0xC0), tail c.toNat]
    else if c.toNat ≤ 0xFFFF then
      [UInt8.ofNat (c.toNat / 4096 % 0x10 + 0xE0), tail (c.toNat / 64), tail c.toNat]
    else
      [UInt8.ofNat (c.toNat / 262144 % 0x08 + 0xF0), tail (c.toNat / 4096), tail (c.toNat / 64), tail c.toNat] := rfl

theorem finishes_two (n : Nat) : Finishes 0 0x80 0xBF [tail n] := by
  refine ⟨rfl, by simp [isContinuation_tail], ?_⟩
  intro d hd
  cases hd
  exact range_of_isContinuation (isContinuation_tail n)

theorem finishes_three {n : Nat} (h : 0x7FF < n) (hn : n < 0xD800 ∨ (0xDFFF < n ∧ n ≤ 0xFFFF)) :
    Finishes 1 (secondLow (n / 4096 % 0x10 + 0xE0)) (secondHigh (n / 4096 % 0x10 + 0xE0)) [tail (n / 64), tail n] := by
  refine ⟨rfl, by simp [isContinuation_tail], ?_⟩
  intro d hd
  cases hd
  rw [UInt8.le_iff_toNat_le, UInt8.le_iff_toNat_le, toNat_tail]
  have hA0 : (0xA0 : UInt8).toNat = 0xA0 := rfl
  have h80 : (0x80 : UInt8).toNat = 0x80 := rfl
  have h9F : (0x9F : UInt8).toNat = 0x9F := rfl
  have hBF : (0xBF : UInt8).toNat = 0xBF := rfl
  unfold secondLow secondHigh
  constructor
  · split
    · omega
    · rw [if_neg (by omega)]
      omega
  · split
    · omega
    · rw [if_neg (by omega)]
      omega

theorem finishes_four {n : Nat} (h : 0xFFFF < n) (hn : n < 0x110000) :
    Finishes 2 (secondLow (n / 262144 % 0x08 + 0xF0)) (secondHigh (n / 262144 % 0x08 + 0xF0))
      [tail (n / 4096), tail (n / 64), tail n] := by
  refine ⟨rfl, by simp [isContinuation_tail], ?_⟩
  intro d hd
  cases hd
  rw [UInt8.le_iff_toNat_le, UInt8.le_iff_toNat_le, toNat_tail]
  have h90 : (0x90 : UInt8).toNat = 0x90 := rfl
  have h80 : (0x80 : UInt8).toNat = 0x80 := rfl
  have h8F : (0x8F : UInt8).toNat = 0x8F := rfl
  have hBF : (0xBF : UInt8).toNat = 0xBF := rfl
  unfold secondLow secondHigh
  constructor
  · rw [if_neg (by omega)]
    split <;> omega
  · rw [if_neg (by omega)]
    split <;> omega

/-- **The first byte of a longer encoding announces the others**, and they make up the character. -/
theorem exists_finishes_of_encodeChar {c : Char} (h : 0x7F < c.toNat) :
    ∃ b later bits low high cs, String.utf8EncodeChar c = b :: cs ∧ lead b = ([], .inside later bits low high) ∧
      Finishes later low high cs ∧ continued bits cs = c.toNat := by
  have hc : c.toNat < 0xD800 ∨ (0xDFFF < c.toNat ∧ c.toNat < 0x110000) := c.valid
  rw [encodeChar_eq, if_neg (by omega)]
  generalize c.toNat = n at h hc
  by_cases h2 : n ≤ 0x7FF
  · have hb : (UInt8.ofNat (n / 64 % 0x20 + 0xC0)).toNat = n / 64 % 0x20 + 0xC0 := toNat_ofNat_of_lt (by omega)
    rw [if_pos h2]
    refine ⟨_, _, _, _, _, _, rfl, lead_of_two (by omega), finishes_two n, ?_⟩
    simp only [continued, List.foldl_cons, List.foldl_nil, hb, toNat_tail]
    omega
  by_cases h3 : n ≤ 0xFFFF
  · have hb : (UInt8.ofNat (n / 4096 % 0x10 + 0xE0)).toNat = n / 4096 % 0x10 + 0xE0 := toNat_ofNat_of_lt (by omega)
    rw [if_neg h2, if_pos h3]
    refine ⟨_, _, _, _, _, _, rfl, lead_of_three (by omega), ?_, ?_⟩
    · rw [hb]
      exact finishes_three (by omega) (by omega)
    · simp only [continued, List.foldl_cons, List.foldl_nil, hb, toNat_tail]
      omega
  · have hb : (UInt8.ofNat (n / 262144 % 0x08 + 0xF0)).toNat = n / 262144 % 0x08 + 0xF0 :=
      toNat_ofNat_of_lt (by omega)
    rw [if_neg h2, if_neg h3]
    refine ⟨_, _, _, _, _, _, rfl, lead_of_four (by omega), ?_, ?_⟩
    · rw [hb]
      exact finishes_four (by omega) (by omega)
    · simp only [continued, List.foldl_cons, List.foldl_nil, hb, toNat_tail]
      omega

theorem decode_encodeChar_append (c : Char) (y : List UInt8) :
    decodeFrom .between (String.utf8EncodeChar c ++ y) = c :: decodeFrom .between y := by
  by_cases h : 0x7F < c.toNat
  · obtain ⟨b, later, bits, low, high, cs, hcs, hlead, hfin, hbits⟩ := exists_finishes_of_encodeChar h
    rw [hcs, List.cons_append, decodeFrom]
    simp only [step, hlead, List.nil_append]
    rw [decodeFrom_finishes y later bits low high cs hfin, hbits, Char.ofNat_toNat]
  · have hb : (UInt8.ofNat c.toNat).toNat = c.toNat := toNat_ofNat_of_lt (by omega)
    rw [encodeChar_eq, if_pos (by omega), List.singleton_append, decodeFrom]
    simp only [step]
    rw [lead_of_ascii (by omega), hb, Char.ofNat_toNat]
    rfl

/-- **What was encoded is decoded again**, whatever bytes follow. -/
theorem decode_encode_append (s : List Char) (y : List UInt8) : decode (encode s ++ y) = s ++ decode y := by
  rw [decode_eq, decode_eq]
  induction s with
  | nil => rfl
  | cons c s ih =>
    unfold encode at ih ⊢
    rw [List.flatMap_cons, List.append_assoc, decode_encodeChar_append, ih, List.cons_append]

end Utf8
end Text
end LogVerdict
