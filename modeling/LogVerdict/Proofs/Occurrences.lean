import LogVerdict.Summary.Extraction
import Mathlib.Data.List.Induction
/-!
# Occurrences — the summary lines of a text, and what a scan makes of them

`occurrences` goes through a text character by character and lists every place at which a summary line starts with no
digit in front of it (`mem_occurrences`).  A scan jumps: over a line it has read, and over a digit run that starts none.
It still takes up exactly what is listed, in the same order (`scan_eq_foldl`), because no line starts inside another one
(`occurrences_line`); so the result of a scan can be read off the list (`extract_eq`).
-/
namespace LogVerdict
namespace Summary

open Text (unitLength width width_pos isBlank IsRun StopsAt run?_eq_some_iff unitLength_cons unitLength_append
  not_isBlank_of_isDigit stopsAt_of_head head?_run takeWhile_append_of_isRun)

/-! ## The list -/

def endsInDigit (late : Bool) (s : List Char) : Bool := s.foldl (fun _ c => c.isDigit) late

def headLine (late : Bool) (s : List Char) : Option Line := if late then none else (Line.read? s).map Prod.fst

/-- **The summary lines of a text that start behind no digit**, each with its offset.  `late` says whether a digit comes
before the text. -/
def occurrences (late : Bool) (offset : Nat) : List Char → List (Nat × Line)
  | [] => []
  | c :: s => ((headLine late (c :: s)).map (offset, ·)).toList ++ occurrences c.isDigit (offset + width c) s

theorem endsInDigit_append (late : Bool) (s t : List Char) :
    endsInDigit late (s ++ t) = endsInDigit (endsInDigit late s) t := by
  unfold endsInDigit
  rw [List.foldl_append]

theorem Line.WellFormed.text_eq_cons {l : Line} (h : l.WellFormed) : ∃ c s, l.text = c :: s ∧ c.isDigit = true := by
  obtain ⟨c, r, hc⟩ := List.exists_cons_of_ne_nil h.tests.count.1
  refine ⟨c, r ++ (l.tests.gap ++ testsWord) ++ (l.beforeFailures ++ (l.failures.text failuresWord ++
    (l.beforeIgnored ++ l.ignored.text ignoredWord))), ?_, h.tests.count.2 c (by simp [hc])⟩
  simp [Line.text, Tally.text, hc]

theorem Line.WellFormed.mem_text {l : Line} (h : l.WellFormed) {c : Char} (hc : c ∈ l.text) :
    c.isDigit = true ∨ isBlank c = true ∨ c ∈ testsWord ++ (failuresWord ++ ignoredWord) := by
  simp only [Line.text, Tally.text, List.mem_append] at hc
  simp only [List.mem_append]
  rcases hc with (hc | hc | hc) | hc | (hc | hc | hc) | hc | hc | hc | hc
  · exact Or.inl (h.tests.count.2 c hc)
  · exact Or.inr (Or.inl (h.tests.gap.2 c hc))
  · exact Or.inr (Or.inr (Or.inl hc))
  · exact Or.inr (Or.inl (h.beforeFailures.2 c hc))
  · exact Or.inl (h.failures.count.2 c hc)
  · exact Or.inr (Or.inl (h.failures.gap.2 c hc))
  · exact Or.inr (Or.inr (Or.inr (Or.inl hc)))
  · exact Or.inr (Or.inl (h.beforeIgnored.2 c hc))
  · exact Or.inl (h.ignored.count.2 c hc)
  · exact Or.inr (Or.inl (h.ignored.gap.2 c hc))
  · exact Or.inr (Or.inr (Or.inr (Or.inr hc)))

theorem Line.unitLength_text_pos (l : Line) : 0 < unitLength l.text := by
  have hT := width_pos 'T'
  simp only [Line.text, Tally.text, testsWord, unitLength_append, unitLength_cons]
  omega

/-- A line ends in a letter. -/
theorem Line.exists_text_eq_concat (l : Line) : ∃ s, l.text = s ++ ['d'] := by
  refine ⟨l.tests.text testsWord ++ (l.beforeFailures ++ (l.failures.text failuresWord ++
    (l.beforeIgnored ++ l.ignored.text ['I', 'g', 'n', 'o', 'r', 'e']))), ?_⟩
  simp [Line.text, Tally.text, ignoredWord]

/-- A line with more digits in front of its first count. -/
def Line.extend (digits : List Char) (l : Line) : Line := { l with tests := ⟨digits ++ l.tests.count, l.tests.gap⟩ }

theorem Line.text_extend (d : List Char) (l : Line) : (l.extend d).text = d ++ l.text := by
  simp [Line.extend, Line.text, Tally.text]

theorem Line.WellFormed.extend {d : List Char} {l : Line} (h : l.WellFormed) (hd : ∀ c ∈ d, c.isDigit = true) :
    (l.extend d).WellFormed := by
  refine ⟨⟨⟨?_, fun c hc => ?_⟩, h.tests.gap⟩, h.beforeFailures, h.failures, h.beforeIgnored, h.ignored⟩
  · have hne := h.tests.count.1
    simp [Line.extend, hne]
  · rcases List.mem_append.1 hc with hc | hc
    · exact hd c hc
    · exact h.tests.count.2 c hc

theorem exists_append_digits (s : List Char) :
    ∃ t d, s = t ++ d ∧ endsInDigit false t = false ∧ ∀ c ∈ d, c.isDigit = true := by
  induction s using List.reverseRecOn with
  | nil => exact ⟨[], [], rfl, rfl, by simp⟩
  | append_singleton s c ih =>
    by_cases hc : c.isDigit = true
    · obtain ⟨t, d, rfl, ht, hd⟩ := ih
      refine ⟨t, d ++ [c], by simp, ht, fun e he => ?_⟩
      rcases List.mem_append.1 he with he | he
      · exact hd e he
      · rw [List.mem_singleton.1 he]
        exact hc
    · refine ⟨s ++ [c], [], by simp, ?_, by simp⟩
      rw [endsInDigit_append]
      simpa [endsInDigit] using hc

theorem headLine_eq_some_iff {late : Bool} {s : List Char} {l : Line} :
    headLine late s = some l ↔ late = false ∧ l.WellFormed ∧ ∃ t, s = l.text ++ t := by
  unfold headLine
  cases late with
  | true => simp
  | false =>
    simp only [Bool.false_eq_true, if_false, Option.map_eq_some_iff, Prod.exists, true_and]
    constructor
    · intro h
      obtain ⟨l', t, hr, rfl⟩ := h
      obtain ⟨hl, hs⟩ := Line.read?_eq_some_iff.1 hr
      exact ⟨hl, t, hs⟩
    · intro h
      obtain ⟨hl, t, hs⟩ := h
      exact ⟨l, t, Line.read?_eq_some_iff.2 ⟨hl, hs⟩, rfl⟩

theorem headLine_digits_append {d s : List Char} {l : Line} (hd : ∀ c ∈ d, c.isDigit = true)
    (h : headLine false s = some l) : headLine false (d ++ s) = some (l.extend d) := by
  obtain ⟨-, hl, t, rfl⟩ := headLine_eq_some_iff.1 h
  refine headLine_eq_some_iff.2 ⟨rfl, hl.extend hd, t, ?_⟩
  rw [Line.text_extend, List.append_assoc]

/-- **What is listed**: every well-formed line that the text spells somewhere with no digit in front of it. -/
theorem mem_occurrences : ∀ {s : List Char} {late : Bool} {offset : Nat} {p : Nat × Line},
    p ∈ occurrences late offset s ↔ ∃ pre post, s = pre ++ (p.2.text ++ post) ∧ p.2.WellFormed ∧
      endsInDigit late pre = false ∧ p.1 = offset + unitLength pre
  | [], late, offset, p => by
    constructor
    · intro h; cases h
    · intro h
      obtain ⟨pre, post, hs, hl, -, -⟩ := h
      obtain ⟨c, s, hc, -⟩ := hl.text_eq_cons
      rw [hc] at hs
      simp at hs
  | c :: s, late, offset, (i, l) => by
    rw [occurrences, List.mem_append, mem_occurrences]
    constructor
    · intro h
      rcases h with h | ⟨pre, post, rfl, hl, hd, hi⟩
      · simp only [Option.mem_toList, Option.map_eq_some_iff, Prod.mk.injEq] at h
        obtain ⟨l', hl', rfl, rfl⟩ := h
        obtain ⟨hlate, hl, t, ht⟩ := headLine_eq_some_iff.1 hl'
        exact ⟨[], t, ht, hl, hlate, rfl⟩
      · refine ⟨c :: pre, post, rfl, hl, hd, ?_⟩
        rw [hi, unitLength_cons]; omega
    · intro h
      obtain ⟨pre, post, hs, hl, hd, hi⟩ := h
      cases pre with
      | nil =>
        left
        have hh : headLine late (c :: s) = some l := headLine_eq_some_iff.2 ⟨hd, hl, post, hs⟩
        have hi0 : i = offset := hi
        rw [hh, hi0]
        simp
      | cons d pre =>
        right
        obtain ⟨rfl, hs'⟩ := List.cons.inj hs
        refine ⟨pre, post, hs', hl, hd, ?_⟩
        rw [hi, unitLength_cons]; omega

theorem le_of_mem_occurrences {s : List Char} {late : Bool} {offset : Nat} {p : Nat × Line}
    (h : p ∈ occurrences late offset s) : offset ≤ p.1 := by
  obtain ⟨pre, post, -, -, -, hi⟩ := mem_occurrences.1 h
  omega

theorem occurrences_add (n : Nat) : ∀ (s : List Char) (late : Bool) (offset : Nat),
    occurrences late (n + offset) s = (occurrences late offset s).map fun p => (n + p.1, p.2)
  | [], _, _ => rfl
  | c :: s, late, offset => by
    rw [occurrences, occurrences, Nat.add_assoc, occurrences_add n s, List.map_append]
    cases headLine late (c :: s) <;> rfl

theorem append_inj_of_unitLength {a b s t : List Char} (h : a ++ s = b ++ t) (hl : unitLength a = unitLength b) :
    a = b ∧ s = t := by
  have hs : s = t := by
    rw [← Text.dropUnits_unitLength_append a s, h, hl, Text.dropUnits_unitLength_append]
  rw [hs] at h
  exact ⟨List.append_cancel_right h, hs⟩

/-! ## Where no line starts -/

theorem headLine_of_not_isDigit (late : Bool) {c : Char} (s : List Char) (hc : c.isDigit = false) :
    headLine late (c :: s) = none := by
  rw [Option.eq_none_iff_forall_ne_some]
  intro l hl
  obtain ⟨-, hwf, t, ht⟩ := headLine_eq_some_iff.1 hl
  obtain ⟨d, r, hd, hdig⟩ := hwf.text_eq_cons
  rw [hd] at ht
  rw [(List.cons.inj ht).1, hdig] at hc
  cases hc

theorem occurrences_cons_of_not_isDigit (late : Bool) (offset : Nat) {c : Char} (s : List Char) (hc : c.isDigit = false) :
    occurrences late offset (c :: s) = occurrences false (offset + width c) s := by
  rw [occurrences, headLine_of_not_isDigit late s hc, hc]
  rfl

theorem occurrences_of_stopsAt (late : Bool) (offset : Nat) {s : List Char} (h : StopsAt Char.isDigit s) :
    occurrences late offset s = occurrences false offset s := by
  cases s with
  | nil => rfl
  | cons c s =>
    have hc : c.isDigit = false := h c rfl
    rw [occurrences_cons_of_not_isDigit late offset s hc, occurrences_cons_of_not_isDigit false offset s hc]

theorem occurrences_append_of_not_isDigit (t : List Char) : ∀ (r : List Char) (offset : Nat),
    (∀ c ∈ r, c.isDigit = false) → occurrences false offset (r ++ t) = occurrences false (offset + unitLength r) t
  | [], _, _ => rfl
  | c :: r, offset, h => by
    have hc : c.isDigit = false := h c (by simp)
    rw [List.cons_append, occurrences_cons_of_not_isDigit false offset _ hc,
      occurrences_append_of_not_isDigit t r _ (fun d hd => h d (List.mem_cons_of_mem _ hd)), unitLength_cons,
      Nat.add_assoc]

theorem occurrences_append_of_isDigit (t : List Char) : ∀ (r : List Char) (offset : Nat),
    (∀ c ∈ r, c.isDigit = true) → occurrences true offset (r ++ t) = occurrences true (offset + unitLength r) t
  | [], _, _ => rfl
  | c :: r, offset, h => by
    have hc : c.isDigit = true := h c (by simp)
    rw [List.cons_append, occurrences, hc,
      occurrences_append_of_isDigit t r _ (fun d hd => h d (List.mem_cons_of_mem _ hd)), unitLength_cons,
      Nat.add_assoc]
    rfl

theorem occurrences_digits (offset : Nat) {r t : List Char} (hr : IsRun Char.isDigit r) (ht : StopsAt Char.isDigit t) :
    occurrences false offset (r ++ t)
      = ((headLine false (r ++ t)).map (offset, ·)).toList ++ occurrences false (offset + unitLength r) t := by
  obtain ⟨c, r, rfl⟩ := List.exists_cons_of_ne_nil hr.1
  have hc : c.isDigit = true := hr.2 c (by simp)
  rw [List.cons_append, occurrences, hc,
    occurrences_append_of_isDigit t r _ (fun d hd => hr.2 d (List.mem_cons_of_mem _ hd)),
    occurrences_of_stopsAt true _ ht, unitLength_cons, Nat.add_assoc]

theorem not_isDigit_of_isBlank {c : Char} (h : isBlank c = true) : c.isDigit = false := by
  rw [Bool.eq_false_iff]
  intro hd
  rw [not_isBlank_of_isDigit hd] at h
  cases h

theorem read?_tally_eq_none {x : Tally} {w : Char} {word : List Char} (t : List Char) (hx : x.WellFormed)
    (hb : isBlank w = false) (hw : w ≠ 'T') : Line.read? (x.text (w :: word) ++ t) = none := by
  have h1 : Text.run? Char.isDigit (x.text (w :: word) ++ t) = some (x.count, x.gap ++ (w :: word ++ t)) :=
    run?_eq_some_iff.2 ⟨by simp [Tally.text], hx.count, stopsAt_isDigit_blanks hx.gap⟩
  have h2 : Text.run? isBlank (x.gap ++ (w :: word ++ t)) = some (x.gap, w :: word ++ t) :=
    run?_eq_some_iff.2 ⟨rfl, hx.gap, stopsAt_of_head rfl hb⟩
  have h3 : Text.after? testsWord (w :: word ++ t) = none := by
    rw [testsWord, List.cons_append, Text.after?, if_neg hw]
  have h4 : Tally.read? testsWord (x.text (w :: word) ++ t) = none := by
    simp only [Tally.read?, h1, h2, h3, Option.bind_eq_bind, Option.bind_some, Option.bind_none]
  simp [Line.read?, h4]

theorem occurrences_tally (offset : Nat) {x : Tally} {w : Char} {word : List Char} (t : List Char) (hx : x.WellFormed)
    (hb : isBlank w = false) (hw : w ≠ 'T') (hd : ∀ c ∈ w :: word, c.isDigit = false) :
    occurrences false offset (x.text (w :: word) ++ t)
      = occurrences false (offset + unitLength (x.text (w :: word))) t := by
  have hnone : headLine false (x.text (w :: word) ++ t) = none := by
    simp [headLine, read?_tally_eq_none t hx hb hw]
  have hsplit : x.text (w :: word) ++ t = x.count ++ (x.gap ++ (w :: word ++ t)) := by
    simp [Tally.text]
  rw [hsplit, occurrences_digits offset hx.count (stopsAt_isDigit_blanks hx.gap), ← hsplit, hnone,
    occurrences_append_of_not_isDigit _ x.gap _ (fun c hc => not_isDigit_of_isBlank (hx.gap.2 c hc)),
    occurrences_append_of_not_isDigit _ (w :: word) _ hd]
  simp [Tally.text, Nat.add_assoc]

/-- **No line starts inside another one**: behind the head of a line the list goes on where the line ends. -/
theorem occurrences_line (offset : Nat) {l : Line} (t : List Char) (hl : l.WellFormed) :
    occurrences false offset (l.text ++ t) = (offset, l) :: occurrences false (offset + unitLength l.text) t := by
  have hhead : headLine false (l.text ++ t) = some l := headLine_eq_some_iff.2 ⟨rfl, hl, t, rfl⟩
  have hT : ∀ c ∈ testsWord, c.isDigit = false := by simp [testsWord]
  have hF : ∀ c ∈ failuresWord, c.isDigit = false := by simp [failuresWord]
  have hI : ∀ c ∈ ignoredWord, c.isDigit = false := by simp [ignoredWord]
  have hsplit : l.text ++ t = l.tests.count ++ (l.tests.gap ++ (testsWord ++ (l.beforeFailures ++
      (l.failures.text failuresWord ++ (l.beforeIgnored ++ (l.ignored.text ignoredWord ++ t)))))) := by
    simp [Line.text, Tally.text]
  rw [hsplit, occurrences_digits offset hl.tests.count (stopsAt_isDigit_blanks hl.tests.gap), ← hsplit, hhead]
  -- behind the first digit run, every piece is free of digits or a tally of another word
  rw [occurrences_append_of_not_isDigit _ l.tests.gap _ (fun c hc => not_isDigit_of_isBlank (hl.tests.gap.2 c hc)),
    occurrences_append_of_not_isDigit _ testsWord _ hT,
    occurrences_append_of_not_isDigit _ l.beforeFailures _
      (fun c hc => not_isDigit_of_isBlank (hl.beforeFailures.2 c hc)),
    failuresWord, occurrences_tally _ _ hl.failures (by decide) (by decide) hF,
    occurrences_append_of_not_isDigit _ l.beforeIgnored _
      (fun c hc => not_isDigit_of_isBlank (hl.beforeIgnored.2 c hc)),
    ignoredWord, occurrences_tally _ _ hl.ignored (by decide) (by decide) hI]
  simp [Line.text, Tally.text, failuresWord, ignoredWord, Nat.add_assoc]

/-! ## The scan -/

/-- **A text taken apart as a scan takes it apart**: by single characters that are no digits, by summary lines, and by
whole digit runs that start none. -/
theorem scanInduction {P : List Char → Prop} (nil : P [])
    (plain : ∀ c s, c.isDigit = false → P s → P (c :: s))
    (line : ∀ l t, l.WellFormed → P t → P (Line.text l ++ t))
    (digits : ∀ r t, IsRun Char.isDigit r → StopsAt Char.isDigit t → Line.read? (r ++ t) = none → P t → P (r ++ t))
    (s : List Char) : P s := by
  match s with
  | [] => exact nil
  | c :: r =>
    by_cases hc : c.isDigit = true
    · cases hr : Line.read? (c :: r) with
      | some p =>
        obtain ⟨l, t⟩ := p
        have hlt := Line.length_lt_of_read? hr
        obtain ⟨hl, hs⟩ := Line.read?_eq_some_iff.1 hr
        rw [hs]
        exact line l t hl (scanInduction nil plain line digits t)
      | none =>
        have hrun : IsRun Char.isDigit (c :: r.takeWhile Char.isDigit) := by
          refine ⟨by simp, fun d hd => ?_⟩
          rcases List.mem_cons.1 hd with rfl | hd
          · exact hc
          · exact List.all_eq_true.1 List.all_takeWhile d hd
        have hs : c :: r = c :: r.takeWhile Char.isDigit ++ r.dropWhile Char.isDigit := by simp
        have hlt : (r.dropWhile Char.isDigit).length < (c :: r).length :=
          Nat.lt_succ_of_le (List.dropWhile_sublist _).length_le
        rw [hs] at hr ⊢
        exact digits _ _ hrun (Text.stopsAt_dropWhile _ _) hr (scanInduction nil plain line digits _)
    · exact plain c r (by simpa using hc) (scanInduction nil plain line digits r)
termination_by s.length
decreasing_by
  · exact hlt
  · exact hlt
  · exact Nat.lt_succ_self _

theorem scan_digits (found : Option Extraction) (offset : Nat) {r t : List Char} (hr : IsRun Char.isDigit r)
    (ht : StopsAt Char.isDigit t) (hn : Line.read? (r ++ t) = none) :
    scan found offset (r ++ t) = scan found (offset + unitLength r) t := by
  obtain ⟨c, r, rfl⟩ := List.exists_cons_of_ne_nil hr.1
  obtain ⟨h1, h2⟩ := takeWhile_append_of_isRun (fun d hd => hr.2 d (List.mem_cons_of_mem _ hd)) ht
  rw [List.cons_append] at hn ⊢
  rw [scan_of_read?_eq_none found offset (hr.2 c (by simp)) hn, h1, h2]

/-- **A scan takes up exactly what is listed**, from left to right. -/
theorem scan_eq_foldl (s : List Char) : ∀ (found : Option Extraction) (offset : Nat),
    scan found offset s = (occurrences false offset s).foldl (fun f p => some (.next f p.1 p.2)) found := by
  induction s using scanInduction with
  | nil =>
    intro found offset
    rw [scan_nil]
    rfl
  | plain c s hc ih =>
    intro found offset
    rw [scan_of_not_isDigit found offset s hc, ih, occurrences_cons_of_not_isDigit false offset s hc]
  | line l t hl ih =>
    intro found offset
    rw [scan_of_read? found offset (Line.read?_eq_some_iff.2 ⟨hl, rfl⟩), ih, occurrences_line offset t hl,
      List.foldl_cons]
  | digits r t hr ht hn ih =>
    intro found offset
    rw [scan_digits found offset hr ht hn, ih, occurrences_digits offset hr ht]
    simp [headLine, hn]

theorem matchCount_foldl : ∀ (ps : List (Nat × Line)) (found : Option Extraction),
    (ps.foldl (fun f p => some (Extraction.next f p.1 p.2)) found).elim 0 (·.matchCount)
      = found.elim 0 (·.matchCount) + ps.length
  | [], _ => rfl
  | p :: ps, found => by
    rw [List.foldl_cons, matchCount_foldl ps, List.length_cons]
    simp only [Option.elim_some, Extraction.next]
    omega

/-- **The result of a scan, read off the list**: the last line, its offset, and how many lines there are. -/
theorem extract_eq (s : List Char) :
    extract s = (occurrences false 0 s).getLast?.map
      fun p => ⟨p.2.summary, (occurrences false 0 s).length, p.1⟩ := by
  rw [extract, scan_eq_foldl]
  generalize occurrences false 0 s = ps
  rcases List.eq_nil_or_concat ps with rfl | ⟨qs, p, rfl⟩
  · rfl
  · have hcount := matchCount_foldl qs none
    simp only [Option.elim_none, Nat.zero_add] at hcount
    rw [List.concat_eq_append, List.foldl_append, List.getLast?_concat]
    simp only [List.foldl_cons, List.foldl_nil, Option.map_some, List.length_append, List.length_singleton]
    rw [Extraction.next, hcount]

theorem extract_eq_some_iff {s : List Char} {e : Extraction} :
    extract s = some e ↔ ∃ ps p, occurrences false 0 s = ps ++ [p] ∧ e = ⟨p.2.summary, ps.length + 1, p.1⟩ := by
  rw [extract_eq]
  constructor
  · intro h
    obtain ⟨p, hp, rfl⟩ := Option.map_eq_some_iff.1 h
    obtain ⟨ps, hps⟩ := List.getLast?_eq_some_iff.1 hp
    exact ⟨ps, p, hps, by rw [hps, List.length_append, List.length_singleton]⟩
  · intro h
    obtain ⟨ps, p, hps, rfl⟩ := h
    rw [hps, List.getLast?_concat, Option.map_some, List.length_append, List.length_singleton]

theorem extract_eq_none_iff {s : List Char} : extract s = none ↔ occurrences false 0 s = [] := by
  rw [extract_eq, Option.map_eq_none_iff, List.getLast?_eq_none_iff]

/-- **Listed lines lie apart**: each ends before the next one starts. -/
theorem pairwise_occurrences (s : List Char) : ∀ (offset : Nat),
    (occurrences false offset s).Pairwise fun p q => p.1 + unitLength p.2.text ≤ q.1 := by
  induction s using scanInduction with
  | nil => exact fun _ => List.Pairwise.nil
  | plain c s hc ih =>
    intro offset
    rw [occurrences_cons_of_not_isDigit false offset s hc]
    exact ih _
  | line l t hl ih =>
    intro offset
    rw [occurrences_line offset t hl]
    exact List.Pairwise.cons (fun q hq => le_of_mem_occurrences hq) (ih _)
  | digits r t hr ht hn ih =>
    intro offset
    rw [occurrences_digits offset hr ht]
    simpa [headLine, hn] using ih _

end Summary
end LogVerdict
