import LogVerdict.Proofs.Encoding
import Mathlib.Data.List.Basic
/-!
# Decoding — where the decoder falls back into step

Bytes can be cut anywhere but in front of a continuation byte, and the two parts decode on their own (`decode_append`).
And every decoded character that is no replacement stands in the bytes as its own encoding, at a place where they can be
cut (`exists_split_of_decode`): bytes that are no character neither swallow nor make one.  The invariant behind both is
`Pending`, what the decoder has read of a character so far.
-/
namespace LogVerdict
namespace Text
namespace Utf8

/-! ## Characters at hand -/

/-- **What the decoder has read of a character**: the bytes `p` lead to the state without output, and whatever finishes
the state finishes `p` to the encoding of the character that is put out then. -/
structure Pending (p : List UInt8) (later bits : Nat) (low high : UInt8) : Prop where
  reaches : ∀ z, decodeFrom .between (p ++ z) = decodeFrom (.inside later bits low high) z
  completes : ∀ cs, Finishes later low high cs →
    String.utf8EncodeChar (Char.ofNat (continued bits cs)) = p ++ cs
  low_ge : 0x80 ≤ low.toNat
  high_le : high.toNat ≤ 0xBF

theorem second_range {n : Nat} {c : UInt8} (h : secondLow n ≤ c ∧ c ≤ secondHigh n) :
    (n = 0xE0 → 0xA0 ≤ c.toNat) ∧ (n = 0xF0 → 0x90 ≤ c.toNat) ∧ (n = 0xED → c.toNat ≤ 0x9F) ∧
      (n = 0xF4 → c.toNat ≤ 0x8F) := by
  rw [UInt8.le_iff_toNat_le, UInt8.le_iff_toNat_le] at h
  obtain ⟨hlow, hhigh⟩ := h
  refine ⟨?_, ?_, ?_, ?_⟩ <;> intro hn <;> subst hn
  · exact hlow
  · exact hlow
  · exact hhigh
  · exact hhigh

theorem toNat_charOfNat {n : Nat} (h : n < 0xD800 ∨ (0xDFFF < n ∧ n < 0x110000)) : (Char.ofNat n).toNat = n := by
  have hn : n.isValidChar := h
  unfold Char.ofNat
  rw [dif_pos hn]
  rfl

theorem ofNat_eq_of_toNat {n : Nat} {b : UInt8} (h : n = b.toNat) : UInt8.ofNat n = b := by
  rw [h, UInt8.ofNat_toNat]

theorem tail_eq {n : Nat} {c : UInt8} (hc : IsContinuation c) (h : n % 0x40 = c.toNat - 0x80) : tail n = c := by
  unfold IsContinuation at hc
  exact ofNat_eq_of_toNat (by omega)

theorem pending_of_two {b : UInt8} (h : 0xC2 ≤ b.toNat ∧ b.toNat ≤ 0xDF) :
    Pending [b] 0 (b.toNat - 0xC0) 0x80 0xBF := by
  refine ⟨fun z => ?_, fun cs hcs => ?_, by decide, by decide⟩
  · rw [List.singleton_append, decodeFrom]
    simp only [step, lead_of_two h, List.nil_append]
  · obtain ⟨c, rfl⟩ := List.length_eq_one_iff.1 hcs.length
    have hc : IsContinuation c := hcs.continuation c (by simp)
    have hc' := hc
    unfold IsContinuation at hc'
    simp only [continued, List.foldl_cons, List.foldl_nil]
    generalize hn : (b.toNat - 0xC0) * 0x40 + (c.toNat - 0x80) = n
    rw [encodeChar_eq, toNat_charOfNat (by omega), if_neg (by omega), if_pos (by omega),
      ofNat_eq_of_toNat (b := b) (by omega), tail_eq hc (by omega)]
    rfl

theorem pending_of_three {b : UInt8} (h : 0xE0 ≤ b.toNat ∧ b.toNat ≤ 0xEF) :
    Pending [b] 1 (b.toNat - 0xE0) (secondLow b.toNat) (secondHigh b.toNat) := by
  refine ⟨fun z => ?_, fun cs hcs => ?_, secondLow_ge _, secondHigh_le _⟩
  · rw [List.singleton_append, decodeFrom]
    simp only [step, lead_of_three h, List.nil_append]
  · obtain ⟨c, d, rfl⟩ := List.length_eq_two.1 hcs.length
    have hc : IsContinuation c := hcs.continuation c (by simp)
    have hd : IsContinuation d := hcs.continuation d (by simp)
    obtain ⟨hE0, -, hED, -⟩ := second_range (hcs.range c rfl)
    have hc' := hc
    have hd' := hd
    unfold IsContinuation at hc' hd'
    simp only [continued, List.foldl_cons, List.foldl_nil]
    generalize hn : ((b.toNat - 0xE0) * 0x40 + (c.toNat - 0x80)) * 0x40 + (d.toNat - 0x80) = n
    rw [encodeChar_eq, toNat_charOfNat (by omega), if_neg (by omega), if_neg (by omega), if_pos (by omega),
      ofNat_eq_of_toNat (b := b) (by omega), tail_eq hc (by omega), tail_eq hd (by omega)]
    rfl

theorem pending_of_four {b : UInt8} (h : 0xF0 ≤ b.toNat ∧ b.toNat ≤ 0xF4) :
    Pending [b] 2 (b.toNat - 0xF0) (secondLow b.toNat) (secondHigh b.toNat) := by
  refine ⟨fun z => ?_, fun cs hcs => ?_, secondLow_ge _, secondHigh_le _⟩
  · rw [List.singleton_append, decodeFrom]
    simp only [step, lead_of_four h, List.nil_append]
  · obtain ⟨c, d, e, rfl⟩ := List.length_eq_three.1 hcs.length
    have hc : IsContinuation c := hcs.continuation c (by simp)
    have hd : IsContinuation d := hcs.continuation d (by simp)
    have he : IsContinuation e := hcs.continuation e (by simp)
    obtain ⟨-, hF0, -, hF4⟩ := second_range (hcs.range c rfl)
    have hc' := hc
    have hd' := hd
    have he' := he
    unfold IsContinuation at hc' hd' he'
    simp only [continued, List.foldl_cons, List.foldl_nil]
    generalize hn : (((b.toNat - 0xF0) * 0x40 + (c.toNat - 0x80)) * 0x40 + (d.toNat - 0x80)) * 0x40
      + (e.toNat - 0x80) = n
    rw [encodeChar_eq, toNat_charOfNat (by omega), if_neg (by omega), if_neg (by omega), if_neg (by omega),
      ofNat_eq_of_toNat (b := b) (by omega), tail_eq hc (by omega), tail_eq hd (by omega), tail_eq he (by omega)]
    rfl

/-- **A first byte** is a character by itself, or stands for nothing, or starts a longer character. -/
theorem lead_cases (b : UInt8) :
    (∃ c, lead b = ([c], .between) ∧ String.utf8EncodeChar c = [b]) ∨
    lead b = ([replacement], .between) ∨
    ∃ later bits low high, lead b = ([], .inside later bits low high) ∧ Pending [b] later bits low high := by
  have hb : b.toNat < 256 := b.toNat_lt
  by_cases h1 : b.toNat < 0x80
  · refine Or.inl ⟨_, lead_of_ascii h1, ?_⟩
    rw [encodeChar_eq, toNat_charOfNat (by omega), if_pos (by omega), UInt8.ofNat_toNat]
  by_cases h2 : 0xC2 ≤ b.toNat ∧ b.toNat ≤ 0xDF
  · exact Or.inr (Or.inr ⟨_, _, _, _, lead_of_two h2, pending_of_two h2⟩)
  by_cases h3 : 0xE0 ≤ b.toNat ∧ b.toNat ≤ 0xEF
  · exact Or.inr (Or.inr ⟨_, _, _, _, lead_of_three h3, pending_of_three h3⟩)
  by_cases h4 : 0xF0 ≤ b.toNat ∧ b.toNat ≤ 0xF4
  · exact Or.inr (Or.inr ⟨_, _, _, _, lead_of_four h4, pending_of_four h4⟩)
  · exact Or.inr (Or.inl (lead_of_stray (by omega)))

theorem Pending.isContinuation {p : List UInt8} {later bits : Nat} {low high b : UInt8}
    (h : Pending p later bits low high) (hb : low ≤ b ∧ b ≤ high) : IsContinuation b := by
  have hl := UInt8.le_iff_toNat_le.1 hb.1
  have hh := UInt8.le_iff_toNat_le.1 hb.2
  have h80 := h.low_ge
  have hBF := h.high_le
  unfold IsContinuation
  omega

theorem Pending.step_succ {p : List UInt8} {later bits : Nat} {low high b : UInt8}
    (h : Pending p (later + 1) bits low high) (hb : low ≤ b ∧ b ≤ high) :
    Pending (p ++ [b]) later (bits * 0x40 + (b.toNat - 0x80)) 0x80 0xBF := by
  refine ⟨fun z => ?_, fun cs hcs => ?_, by decide, by decide⟩
  · rw [List.append_assoc, h.reaches, List.singleton_append, decodeFrom, step_of_range_succ hb]
    rfl
  · have hfin : Finishes (later + 1) low high (b :: cs) := by
      refine ⟨by simp [hcs.length], fun c hc => ?_, fun c hc => ?_⟩
      · rcases List.mem_cons.1 hc with rfl | hc
        · exact h.isContinuation hb
        · exact hcs.continuation c hc
      · cases hc
        exact hb
    have henc := h.completes (b :: cs) hfin
    rw [List.append_assoc, List.singleton_append, ← henc]
    simp only [continued, List.foldl_cons]

theorem Pending.encode_zero {p : List UInt8} {bits : Nat} {low high b : UInt8} (h : Pending p 0 bits low high)
    (hb : low ≤ b ∧ b ≤ high) :
    String.utf8EncodeChar (Char.ofNat (bits * 0x40 + (b.toNat - 0x80))) = p ++ [b] := by
  refine h.completes [b] ⟨rfl, fun c hc => ?_, fun c hc => ?_⟩
  · rw [List.mem_singleton.1 hc]
    exact h.isContinuation hb
  · cases hc
    exact hb

/-- **A byte inside a character** goes on with it, or finishes it, or breaks it off and is read as a first byte. -/
theorem Pending.step_cases {p : List UInt8} {later bits : Nat} {low high : UInt8} (h : Pending p later bits low high)
    (b : UInt8) :
    (∃ later' bits' low' high', step (.inside later bits low high) b = ([], .inside later' bits' low' high') ∧
      Pending (p ++ [b]) later' bits' low' high') ∨
    (∃ c, step (.inside later bits low high) b = ([c], .between) ∧ String.utf8EncodeChar c = p ++ [b]) ∨
    step (.inside later bits low high) b = (replacement :: (lead b).1, (lead b).2) := by
  by_cases hb : low ≤ b ∧ b ≤ high
  · cases later with
    | zero => exact Or.inr (Or.inl ⟨_, step_of_range_zero hb, h.encode_zero hb⟩)
    | succ later => exact Or.inl ⟨_, _, _, _, step_of_range_succ hb, h.step_succ hb⟩
  · exact Or.inr (Or.inr (step_of_not_range hb))

/-! ## Cutting -/

/-- The states that bytes lead to. -/
def Reached : State → Prop
  | .between => True
  | .inside later bits low high => ∃ p, Pending p later bits low high

theorem reached_lead (b : UInt8) : Reached (lead b).2 := by
  rcases lead_cases b with ⟨c, h, -⟩ | h | ⟨later, bits, low, high, h, hp⟩
  · rw [h]; trivial
  · rw [h]; trivial
  · rw [h]
    exact ⟨[b], hp⟩

theorem reached_step {q : State} (h : Reached q) (b : UInt8) : Reached (step q b).2 := by
  cases q with
  | between => exact reached_lead b
  | inside later bits low high =>
    obtain ⟨p, hp⟩ := h
    rcases hp.step_cases b with ⟨later', bits', low', high', hs, hp'⟩ | ⟨c, hs, -⟩ | hs
    · rw [hs]
      exact ⟨p ++ [b], hp'⟩
    · rw [hs]; trivial
    · rw [hs]
      exact reached_lead b

theorem decodeFrom_of_not_isContinuation {q : State} (hq : Reached q) {y : List UInt8}
    (hy : ∀ b ∈ y.head?, ¬ IsContinuation b) : decodeFrom q y = finish q ++ decodeFrom .between y := by
  cases q with
  | between => rfl
  | inside later bits low high =>
    obtain ⟨p, hp⟩ := hq
    cases y with
    | nil => rfl
    | cons b y =>
      have hb : ¬ (low ≤ b ∧ b ≤ high) := fun h => hy b rfl (hp.isContinuation h)
      rw [decodeFrom, step_of_not_range hb, decodeFrom]
      rfl

theorem decodeFrom_append {y : List UInt8} (hy : ∀ b ∈ y.head?, ¬ IsContinuation b) : ∀ (x : List UInt8) (q : State),
    Reached q → decodeFrom q (x ++ y) = decodeFrom q x ++ decodeFrom .between y
  | [], q, hq => decodeFrom_of_not_isContinuation hq hy
  | b :: x, q, hq => by
    rw [List.cons_append, decodeFrom, decodeFrom_append hy x _ (reached_step hq b), decodeFrom, List.append_assoc]

/-- **Bytes can be cut in front of any byte that is no continuation**, and both parts decode on their own. -/
theorem decode_append {x y : List UInt8} (hy : ∀ b ∈ y.head?, ¬ IsContinuation b) :
    decode (x ++ y) = decode x ++ decode y := by
  rw [decode_eq, decode_eq, decode_eq]
  exact decodeFrom_append hy x .between trivial

theorem step_ne_nil_between (q : State) (b : UInt8) (h : (step q b).2 = .between) : (step q b).1 ≠ [] := by
  have hlead : (lead b).2 = .between → (lead b).1 ≠ [] := by
    intro h
    rcases lead_cases b with ⟨c, hl, -⟩ | hl | ⟨later, bits, low, high, hl, -⟩
    · rw [hl]; exact List.cons_ne_nil _ _
    · rw [hl]; exact List.cons_ne_nil _ _
    · rw [hl] at h; cases h
  cases q with
  | between => exact hlead h
  | inside later bits low high =>
    by_cases hb : low ≤ b ∧ b ≤ high
    · cases later with
      | zero => rw [step_of_range_zero hb]; exact List.cons_ne_nil _ _
      | succ later => rw [step_of_range_succ hb] at h; cases h
    · rw [step_of_not_range hb]
      exact List.cons_ne_nil _ _

theorem eq_nil_of_decodeFrom_eq_nil : ∀ {bs : List UInt8} {q : State}, decodeFrom q bs = [] → q = .between ∧ bs = []
  | [], q, h => by
    cases q with
    | between => exact ⟨rfl, rfl⟩
    | inside => cases h
  | b :: bs, q, h => by
    rw [decodeFrom, List.append_eq_nil_iff] at h
    exact absurd h.1 (step_ne_nil_between q b (eq_nil_of_decodeFrom_eq_nil h.2).1)

/-- No bytes but none decode to no text. -/
theorem decode_eq_nil_iff {bs : List UInt8} : decode bs = [] ↔ bs = [] := by
  rw [decode_eq]
  constructor
  · intro h
    exact (eq_nil_of_decodeFrom_eq_nil h).2
  · rintro rfl
    rfl

/-- The encoding of a character stands in bytes, between bytes that decode to one text and bytes that decode to
another. -/
def SplitsAt (bs : List UInt8) (pre : List Char) (c : Char) (post : List Char) : Prop :=
  ∃ x y, bs = x ++ (String.utf8EncodeChar c ++ y) ∧ decodeFrom .between x = pre ∧ decodeFrom .between y = post

theorem splitsAt_head (c : Char) (bs : List UInt8) :
    SplitsAt (String.utf8EncodeChar c ++ bs) [] c (decodeFrom .between bs) := ⟨[], bs, rfl, rfl, rfl⟩

theorem SplitsAt.encoded {bs : List UInt8} {pre post : List Char} {c : Char} (d : Char) (h : SplitsAt bs pre c post) :
    SplitsAt (String.utf8EncodeChar d ++ bs) (d :: pre) c post := by
  obtain ⟨x, y, rfl, hx, hy⟩ := h
  refine ⟨String.utf8EncodeChar d ++ x, y, by rw [List.append_assoc], ?_, hy⟩
  rw [decode_encodeChar_append, hx]

theorem SplitsAt.stray {b : UInt8} {bs : List UInt8} {pre post : List Char} {c : Char}
    (hb : lead b = ([replacement], .between)) (h : SplitsAt bs pre c post) :
    SplitsAt (b :: bs) (replacement :: pre) c post := by
  obtain ⟨x, y, rfl, hx, hy⟩ := h
  refine ⟨b :: x, y, rfl, ?_, hy⟩
  rw [decodeFrom]
  simp only [step, hb]
  rw [hx]
  rfl

theorem SplitsAt.broken {p bs : List UInt8} {b : UInt8} {pre post : List Char} {c : Char} {later bits : Nat}
    {low high : UInt8} (hp : Pending p later bits low high)
    (hs : step (.inside later bits low high) b = (replacement :: (lead b).1, (lead b).2))
    (h : SplitsAt (b :: bs) pre c post) : SplitsAt (p ++ b :: bs) (replacement :: pre) c post := by
  obtain ⟨x, y, hxy, hx, hy⟩ := h
  refine ⟨p ++ x, y, by rw [hxy, List.append_assoc], ?_, hy⟩
  rw [hp.reaches]
  cases x with
  | nil =>
    rw [← hx]
    rfl
  | cons b' x =>
    obtain ⟨rfl, -⟩ := List.cons.inj hxy
    rw [← hx, decodeFrom, hs, decodeFrom]
    rfl

/-- One character is put out, and the rest of the text after it. -/
theorem splitsAt_of_cons {bs : List UInt8} {pre post : List Char} {c d : Char}
    (ih : ∀ pre, decodeFrom .between bs = pre ++ c :: post → SplitsAt bs pre c post)
    (h : d :: decodeFrom .between bs = pre ++ c :: post) :
    SplitsAt (String.utf8EncodeChar d ++ bs) pre c post := by
  cases pre with
  | nil =>
    obtain ⟨rfl, hpost⟩ := List.cons.inj h
    rw [← hpost]
    exact splitsAt_head d bs
  | cons e pre =>
    obtain ⟨rfl, hrest⟩ := List.cons.inj h
    exact (ih pre hrest).encoded d

theorem exists_of_replacement_cons {s pre post : List Char} {c : Char} (hc : c ≠ replacement)
    (h : replacement :: s = pre ++ c :: post) : ∃ pre', pre = replacement :: pre' ∧ s = pre' ++ c :: post := by
  cases pre with
  | nil => exact absurd (List.cons.inj h).1.symm hc
  | cons e pre =>
    obtain ⟨rfl, hrest⟩ := List.cons.inj h
    exact ⟨pre, rfl, hrest⟩

/-- The induction goes over the bytes, in both kinds of state at once: a broken character falls back to the first. -/
theorem splitsAt_of_decodeFrom {c : Char} (post : List Char) (hc : c ≠ replacement) : ∀ (bs : List UInt8),
    (∀ pre, decodeFrom .between bs = pre ++ c :: post → SplitsAt bs pre c post) ∧
    ∀ p later bits low high pre, Pending p later bits low high →
      decodeFrom (.inside later bits low high) bs = pre ++ c :: post → SplitsAt (p ++ bs) pre c post
  | [] => by
    refine ⟨fun pre h => ?_, fun p later bits low high pre _ h => ?_⟩
    · have hne : pre ++ c :: post ≠ [] := by simp
      exact absurd h.symm hne
    · obtain ⟨pre', -, hrest⟩ := exists_of_replacement_cons hc h
      have hne : pre' ++ c :: post ≠ [] := by simp
      exact absurd hrest.symm hne
  | b :: bs => by
    obtain ⟨ihb, ihi⟩ := splitsAt_of_decodeFrom post hc bs
    have hbetween : ∀ pre, decodeFrom .between (b :: bs) = pre ++ c :: post → SplitsAt (b :: bs) pre c post := by
      intro pre h
      rw [decodeFrom] at h
      simp only [step] at h
      rcases lead_cases b with ⟨d, hl, hd⟩ | hl | ⟨later, bits, low, high, hl, hp⟩
      · rw [hl] at h
        have hsplit := splitsAt_of_cons ihb h
        rw [hd] at hsplit
        exact hsplit
      · rw [hl] at h
        obtain ⟨pre', rfl, hrest⟩ := exists_of_replacement_cons hc h
        exact (ihb pre' hrest).stray hl
      · rw [hl] at h
        exact ihi [b] later bits low high pre hp h
    refine ⟨hbetween, fun p later bits low high pre hp h => ?_⟩
    rw [decodeFrom] at h
    rcases hp.step_cases b with ⟨later', bits', low', high', hs, hp'⟩ | ⟨d, hs, hd⟩ | hs
    · rw [hs] at h
      have hsplit := ihi (p ++ [b]) later' bits' low' high' pre hp' h
      rwa [List.append_assoc, List.singleton_append] at hsplit
    · rw [hs] at h
      have hsplit := splitsAt_of_cons ihb h
      rw [hd, List.append_assoc] at hsplit
      exact hsplit
    · rw [hs] at h
      obtain ⟨pre', rfl, hrest⟩ := exists_of_replacement_cons hc h
      exact (hbetween pre' (by rw [decodeFrom]; exact hrest)).broken hp hs

/-- **Decoded text stands in the bytes as its own encoding**, if no character of it is a replacement: the bytes can be
cut in front of it and behind it. -/
theorem exists_split_of_decode {post : List Char} : ∀ {t : List Char} {bs : List UInt8} {pre : List Char},
    t ≠ [] → (∀ c ∈ t, c ≠ replacement) → decode bs = pre ++ (t ++ post) →
      ∃ x y, bs = x ++ (encode t ++ y) ∧ decode x = pre ∧ decode y = post
  | [], _, _, hne, _, _ => absurd rfl hne
  | [c], bs, pre, _, hc, h => by
    rw [decode_eq] at h
    have h : decodeFrom .between bs = pre ++ c :: post := h
    obtain ⟨x, y, hbs, hx, hy⟩ := (splitsAt_of_decodeFrom _ (hc c (by simp)) bs).1 pre h
    refine ⟨x, y, ?_, by rw [decode_eq, hx], by rw [decode_eq, hy]⟩
    rw [hbs]
    simp [encode]
  | c :: d :: t, bs, pre, _, hc, h => by
    rw [decode_eq] at h
    obtain ⟨x, z, hbs, hx, hz⟩ := (splitsAt_of_decodeFrom _ (hc c (by simp)) bs).1 pre h
    rw [← decode_eq] at hx hz
    have hz' : decode z = [] ++ (d :: t ++ post) := hz
    obtain ⟨w, y, rfl, hw, hy⟩ :=
      exists_split_of_decode (List.cons_ne_nil d t) (fun e he => hc e (List.mem_cons_of_mem _ he)) hz'
    rw [decode_eq_nil_iff.1 hw] at hbs
    refine ⟨x, y, ?_, hx, hy⟩
    rw [hbs]
    simp [encode]

end Utf8
end Text
end LogVerdict
