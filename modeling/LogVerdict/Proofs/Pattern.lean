import LogVerdict.Proofs.UnitIndex
/-!
# Pattern — the summary line as a pattern, and searches for it

A search with backtracking tries the ways in which a pattern matches at the head of a text, one after the other
(`ways`), and takes the first; it prefers the longest runs or the shortest.  For the pattern of a summary line there is
never more than one way (`mem_ways_linePattern_iff`), so every search finds what reading without looking back finds, and
going through a text from match to match visits exactly the listed lines (`matchAll_eq`).  Two matches that overlap
differ only in how many digits of the first count they take in (`OccursAt.apart_or_joined`).
-/
namespace LogVerdict
namespace Summary

open Text (IsRun isBlank unitLength unitLength_append unitLength_cons units width Spells after?_eq_some_iff)

/-! ## Specification -/

/-- A piece of a pattern: at least one character of a kind, or a word. -/
inductive Piece
  | run (kind : Char → Bool)
  | word (letters : List Char)

def Piece.Matches : Piece → List Char → Prop
  | .run kind, s => IsRun kind s
  | .word letters, s => s = letters

/-- The pattern of a summary line.  The first, the fifth and the ninth piece are its counts. -/
def linePattern : List Piece :=
  [.run Char.isDigit, .run isBlank, .word testsWord, .run isBlank,
   .run Char.isDigit, .run isBlank, .word failuresWord, .run isBlank,
   .run Char.isDigit, .run isBlank, .word ignoredWord]

inductive Preference
  | greedy
  | lazy
  deriving DecidableEq, Repr

/-- Every run of a kind at the head of a text with what follows it, the shortest first. -/
def runs (kind : Char → Bool) : List Char → List (List Char × List Char)
  | [] => []
  | c :: s => if kind c then ([c], s) :: (runs kind s).map fun x => (c :: x.1, x.2) else []

def Piece.ways (preference : Preference) : Piece → List Char → List (List Char × List Char)
  | .run kind, s =>
    match preference with
    | .greedy => (runs kind s).reverse
    | .lazy => runs kind s
  | .word letters, s => ((Text.after? letters s).map (letters, ·)).toList

/-- **The ways in which a pattern matches at the head of a text**, in the order in which a search with backtracking comes
to them: what is taken for each piece, and what follows. -/
def ways (preference : Preference) : List Piece → List Char → List (List (List Char) × List Char)
  | [], s => [([], s)]
  | piece :: pieces, s =>
    (piece.ways preference s).flatMap fun x => (ways preference pieces x.2).map fun y => (x.1 :: y.1, y.2)

/-- What a summary line gives for each piece of the pattern. -/
def Line.pieces (l : Line) : List (List Char) :=
  [l.tests.count, l.tests.gap, testsWord, l.beforeFailures,
   l.failures.count, l.failures.gap, failuresWord, l.beforeIgnored,
   l.ignored.count, l.ignored.gap, ignoredWord]

/-! ## Every way -/

theorem isRun_cons_iff {kind : Char → Bool} {c : Char} {r : List Char} :
    IsRun kind (c :: r) ↔ kind c = true ∧ (r = [] ∨ IsRun kind r) := by
  unfold IsRun
  rw [List.forall_mem_cons]
  by_cases hr : r = []
  · simp [hr]
  · simp [hr]

theorem mem_runs_iff {kind : Char → Bool} : ∀ {s r t : List Char},
    (r, t) ∈ runs kind s ↔ IsRun kind r ∧ s = r ++ t
  | [], r, t => by
    refine iff_of_false List.not_mem_nil ?_
    rintro ⟨hr, hs⟩
    exact hr.1 (List.append_eq_nil_iff.1 hs.symm).1
  | c :: s, r, t => by
    by_cases hc : kind c = true
    · rw [runs, if_pos hc, List.mem_cons, List.mem_map]
      constructor
      · rintro (h | ⟨⟨r', t'⟩, h, heq⟩)
        · cases h
          exact ⟨isRun_cons_iff.2 ⟨hc, .inl rfl⟩, rfl⟩
        · cases heq
          obtain ⟨hr, rfl⟩ := mem_runs_iff.1 h
          exact ⟨isRun_cons_iff.2 ⟨hc, .inr hr⟩, rfl⟩
      · rintro ⟨hr, hs⟩
        obtain ⟨d, r, rfl⟩ := List.exists_cons_of_ne_nil hr.1
        obtain ⟨rfl, rfl⟩ := List.cons.inj hs
        rcases (isRun_cons_iff.1 hr).2 with rfl | hr
        · exact .inl rfl
        · exact .inr ⟨(r, t), mem_runs_iff.2 ⟨hr, rfl⟩, rfl⟩
    · rw [runs, if_neg hc]
      refine iff_of_false List.not_mem_nil ?_
      rintro ⟨hr, hs⟩
      obtain ⟨d, r, rfl⟩ := List.exists_cons_of_ne_nil hr.1
      rw [(List.cons.inj hs).1] at hc
      exact hc (isRun_cons_iff.1 hr).1

theorem Piece.mem_ways_iff {preference : Preference} {piece : Piece} {s r t : List Char} :
    (r, t) ∈ piece.ways preference s ↔ piece.Matches r ∧ s = r ++ t := by
  cases piece with
  | run kind =>
    cases preference with
    | greedy => rw [Piece.ways, List.mem_reverse, mem_runs_iff, Piece.Matches]
    | lazy => rw [Piece.ways, mem_runs_iff, Piece.Matches]
  | word letters =>
    rw [Piece.ways, Option.mem_toList, Option.map_eq_some_iff, Piece.Matches]
    simp only [after?_eq_some_iff, Prod.mk.injEq]
    constructor
    · rintro ⟨t, hs, rfl, rfl⟩
      exact ⟨rfl, hs⟩
    · rintro ⟨rfl, hs⟩
      exact ⟨t, hs, rfl, rfl⟩

/-- **A search comes to every way and to nothing else**, whatever it prefers. -/
theorem mem_ways_iff {preference : Preference} : ∀ {pieces : List Piece} {s t : List Char} {ts : List (List Char)},
    (ts, t) ∈ ways preference pieces s ↔ List.Forall₂ Piece.Matches pieces ts ∧ s = ts.flatten ++ t
  | [], s, t, ts => by
    rw [ways, List.mem_singleton, Prod.mk.injEq, List.forall₂_nil_left_iff]
    constructor
    · rintro ⟨rfl, rfl⟩
      exact ⟨rfl, rfl⟩
    · rintro ⟨rfl, rfl⟩
      exact ⟨rfl, rfl⟩
  | piece :: pieces, s, t, ts => by
    simp only [ways, List.mem_flatMap, List.mem_map, Prod.exists, Piece.mem_ways_iff, mem_ways_iff,
      Prod.mk.injEq, List.forall₂_cons_left_iff]
    constructor
    · rintro ⟨r, u, ⟨hr, rfl⟩, rs, t, ⟨hrs, rfl⟩, rfl, rfl⟩
      exact ⟨⟨r, rs, hr, hrs, rfl⟩, by rw [List.flatten_cons, List.append_assoc]⟩
    · rintro ⟨⟨r, rs, hr, hrs, rfl⟩, rfl⟩
      exact ⟨r, rs.flatten ++ t, ⟨hr, by rw [List.flatten_cons, List.append_assoc]⟩, rs, t, ⟨hrs, rfl⟩, rfl, rfl⟩

theorem Line.flatten_pieces (l : Line) : l.pieces.flatten = l.text := by
  simp [Line.pieces, Line.text, Tally.text]

theorem Line.pieces_inj {l l' : Line} (h : l.pieces = l'.pieces) : l = l' := by
  obtain ⟨⟨tests, testsGap⟩, beforeFailures, ⟨failures, failuresGap⟩, beforeIgnored, ⟨ignored, ignoredGap⟩⟩ := l
  obtain ⟨⟨tests', testsGap'⟩, beforeFailures', ⟨failures', failuresGap'⟩, beforeIgnored', ⟨ignored', ignoredGap'⟩⟩ := l'
  simp only [Line.pieces, List.cons.injEq] at h
  simp [h]

/-- What matches the pattern is what a summary line gives for its pieces. -/
theorem forall₂_linePattern_iff {ts : List (List Char)} :
    List.Forall₂ Piece.Matches linePattern ts ↔ ∃ l : Line, l.WellFormed ∧ ts = l.pieces := by
  unfold linePattern
  constructor
  · intro h
    match h with
    | .cons htests (.cons htestsGap (.cons hT (.cons hbeforeFailures (.cons hfailures (.cons hfailuresGap (.cons hF
        (.cons hbeforeIgnored (.cons hignored (.cons hignoredGap (.cons hI .nil)))))))))) =>
      refine ⟨⟨⟨_, _⟩, _, ⟨_, _⟩, _, ⟨_, _⟩⟩,
        ⟨⟨htests, htestsGap⟩, hbeforeFailures, ⟨hfailures, hfailuresGap⟩, hbeforeIgnored, ⟨hignored, hignoredGap⟩⟩, ?_⟩
      rw [Line.pieces, hT, hF, hI]
  · rintro ⟨l, hl, rfl⟩
    exact .cons hl.tests.count (.cons hl.tests.gap (.cons rfl (.cons hl.beforeFailures (.cons hl.failures.count
      (.cons hl.failures.gap (.cons rfl (.cons hl.beforeIgnored (.cons hl.ignored.count (.cons hl.ignored.gap
        (.cons rfl .nil))))))))))

/-- **There is one way at most**, and it is the one that is read without looking back. -/
theorem mem_ways_linePattern_iff {preference : Preference} {s t : List Char} {ts : List (List Char)} :
    (ts, t) ∈ ways preference linePattern s ↔ ∃ l, Line.read? s = some (l, t) ∧ ts = l.pieces := by
  rw [mem_ways_iff, forall₂_linePattern_iff]
  constructor
  · rintro ⟨⟨l, hl, rfl⟩, rfl⟩
    exact ⟨l, Line.read?_eq_some_iff.2 ⟨hl, by rw [l.flatten_pieces]⟩, rfl⟩
  · rintro ⟨l, hread, rfl⟩
    obtain ⟨hl, rfl⟩ := Line.read?_eq_some_iff.1 hread
    exact ⟨⟨l, hl, rfl⟩, by rw [l.flatten_pieces]⟩

/-- The first way that a search comes to. -/
def firstMatch? (preference : Preference) (s : List Char) : Option (List (List Char) × List Char) :=
  (ways preference linePattern s).head?

theorem firstMatch?_eq (preference : Preference) (s : List Char) :
    firstMatch? preference s = (Line.read? s).map fun x => (x.1.pieces, x.2) := by
  unfold firstMatch?
  cases hread : Line.read? s with
  | none =>
    rw [Option.map_none, List.head?_eq_none_iff, List.eq_nil_iff_forall_not_mem]
    rintro ⟨ts, t⟩ hmem
    obtain ⟨l, hl, -⟩ := mem_ways_linePattern_iff.1 hmem
    rw [hread] at hl
    cases hl
  | some x =>
    obtain ⟨l, t⟩ := x
    have hmem : (l.pieces, t) ∈ ways preference linePattern s := mem_ways_linePattern_iff.2 ⟨l, hread, rfl⟩
    have hall : ∀ y ∈ ways preference linePattern s, y = (l.pieces, t) := by
      rintro ⟨ts, u⟩ hy
      obtain ⟨m, hm, rfl⟩ := mem_ways_linePattern_iff.1 hy
      rw [hread] at hm
      cases hm
      rfl
    obtain ⟨y, ys, hys⟩ := List.exists_cons_of_ne_nil (List.ne_nil_of_mem hmem)
    rw [hys, List.head?_cons, hall y (by rw [hys]; exact List.mem_cons_self), Option.map_some]

theorem firstMatch?_eq_some_of_mem {preference : Preference} {s : List Char} {m : List (List Char) × List Char}
    (h : m ∈ ways preference linePattern s) : firstMatch? preference s = some m := by
  obtain ⟨ts, t⟩ := m
  obtain ⟨l, hread, rfl⟩ := mem_ways_linePattern_iff.1 h
  rw [firstMatch?_eq, hread]
  rfl

/-- **An occurrence is what a search from its start finds**, whatever it prefers. -/
theorem occursAt_iff_firstMatch? (preference : Preference) {s : List Char} {i j : Nat} {l : Line} :
    OccursAt s i j l ↔ ∃ pre t rest, s = pre ++ t ∧ i = unitLength pre ∧ j = i + unitLength l.text ∧
      firstMatch? preference t = some (l.pieces, rest) := by
  rw [occursAt_iff]
  constructor
  · rintro ⟨pre, post, rfl, hl, rfl, rfl⟩
    refine ⟨pre, l.text ++ post, post, rfl, rfl, unitLength_append .., ?_⟩
    rw [firstMatch?_eq, Line.read?_eq_some_iff.2 ⟨hl, rfl⟩]
    rfl
  · rintro ⟨pre, t, rest, rfl, rfl, rfl, hmatch⟩
    rw [firstMatch?_eq, Option.map_eq_some_iff] at hmatch
    obtain ⟨⟨m, u⟩, hread, heq⟩ := hmatch
    obtain ⟨hpieces, rfl⟩ := Prod.mk.inj heq
    obtain ⟨hm, rfl⟩ := Line.read?_eq_some_iff.1 hread
    rw [← Line.pieces_inj hpieces]
    exact ⟨pre, u, rfl, hm, rfl, (unitLength_append ..).symm⟩

/-! ## From match to match -/

theorem headLine_false_eq_none_iff {s : List Char} : headLine false s = none ↔ Line.read? s = none := by
  simp [headLine]

theorem length_lt_of_firstMatch? {preference : Preference} {s t : List Char} {ts : List (List Char)}
    (h : firstMatch? preference s = some (ts, t)) : t.length < s.length := by
  rw [firstMatch?_eq, Option.map_eq_some_iff] at h
  obtain ⟨⟨l, u⟩, hread, heq⟩ := h
  cases heq
  exact Line.length_lt_of_read? hread

/-- **The matches in a text**, each with its offset: the search goes on behind a match, and where there is none, behind
the next character. -/
def matchAll (preference : Preference) (offset : Nat) (s : List Char) : List (Nat × List (List Char)) :=
  match s with
  | [] => []
  | c :: r =>
    match _h : firstMatch? preference (c :: r) with
    | some (ts, t) => (offset, ts) :: matchAll preference (offset + unitLength ts.flatten) t
    | none => matchAll preference (offset + width c) r
termination_by s.length
decreasing_by
  · exact length_lt_of_firstMatch? _h
  · exact Nat.lt_succ_self _

theorem matchAll_of_read? (preference : Preference) (offset : Nat) {s t : List Char} {l : Line}
    (h : Line.read? s = some (l, t)) :
    matchAll preference offset s = (offset, l.pieces) :: matchAll preference (offset + unitLength l.text) t := by
  have hmatch : firstMatch? preference s = some (l.pieces, t) := by rw [firstMatch?_eq, h]; rfl
  cases s with
  | nil => cases h
  | cons c r =>
    rw [matchAll]
    split
    · rename_i heq
      rw [hmatch] at heq
      cases heq
      rw [l.flatten_pieces]
    · rename_i heq
      rw [hmatch] at heq
      cases heq

theorem matchAll_of_read?_eq_none (preference : Preference) (offset : Nat) {c : Char} {s : List Char}
    (h : Line.read? (c :: s) = none) :
    matchAll preference offset (c :: s) = matchAll preference (offset + width c) s := by
  have hmatch : firstMatch? preference (c :: s) = none := by rw [firstMatch?_eq, h]; rfl
  rw [matchAll]
  split
  · rename_i heq
    rw [hmatch] at heq
    cases heq
  · rfl

/-- Digits that start no line have no other place at which one starts. -/
theorem read?_eq_none_of_digits_append {d s : List Char} (hd : ∀ c ∈ d, c.isDigit = true)
    (h : Line.read? (d ++ s) = none) : Line.read? s = none := by
  rw [← headLine_false_eq_none_iff, Option.eq_none_iff_forall_ne_some] at h ⊢
  intro l hl
  exact h _ (headLine_digits_append hd hl)

theorem matchAll_digits_append (preference : Preference) {t : List Char} : ∀ {r : List Char} (offset : Nat),
    (∀ c ∈ r, c.isDigit = true) → Line.read? (r ++ t) = none →
      matchAll preference offset (r ++ t) = matchAll preference (offset + unitLength r) t
  | [], _, _, _ => rfl
  | c :: r, offset, hr, h => by
    have hrest : Line.read? (r ++ t) = none := by
      apply read?_eq_none_of_digits_append (d := [c])
      · simpa using hr c List.mem_cons_self
      · exact h
    rw [List.cons_append] at h ⊢
    rw [matchAll_of_read?_eq_none preference offset h,
      matchAll_digits_append preference _ (fun d hd => hr d (List.mem_cons_of_mem c hd)) hrest, unitLength_cons,
      Nat.add_assoc]

/-- **Going from match to match visits the listed lines**, whatever a search prefers. -/
theorem matchAll_eq (preference : Preference) (s : List Char) : ∀ (offset : Nat),
    matchAll preference offset s = (occurrences false offset s).map fun p => (p.1, p.2.pieces) := by
  induction s using scanInduction with
  | nil =>
    intro offset
    rw [matchAll]
    rfl
  | plain c s hc ih =>
    intro offset
    have hnone := headLine_false_eq_none_iff.1 (headLine_of_not_isDigit false s hc)
    rw [matchAll_of_read?_eq_none preference offset hnone, ih, occurrences_cons_of_not_isDigit false offset s hc]
  | line l t hl ih =>
    intro offset
    rw [matchAll_of_read? preference offset (Line.read?_eq_some_iff.2 ⟨hl, rfl⟩), ih, occurrences_line offset t hl,
      List.map_cons]
  | digits r t hr ht hn ih =>
    intro offset
    rw [matchAll_digits_append preference offset hr.2 hn, ih, occurrences_digits offset hr ht,
      headLine_false_eq_none_iff.2 hn]
    rfl

/-- The three counts that a match has taken. -/
def captured (ts : List (List Char)) : Summary :=
  ⟨Text.Decimal.value (ts.getD 0 []), Text.Decimal.value (ts.getD 4 []), Text.Decimal.value (ts.getD 8 [])⟩

/-- What is extracted are the counts of the last match, the number of all, and where the last one starts. -/
theorem extract_eq_matchAll (preference : Preference) (s : List Char) :
    extract s = (matchAll preference 0 s).getLast?.map
      fun m => ⟨captured m.2, (matchAll preference 0 s).length, m.1⟩ := by
  rw [extract_eq, matchAll_eq, List.getLast?_map, List.length_map, Option.map_map]
  rfl

/-! ## Matches that overlap -/

/-- Two indices in one digit run. -/
def InOneRun (s : List Char) (i i' : Nat) : Prop :=
  ∃ a b r, Spells (units s) a b (units r) ∧ IsRun Char.isDigit r ∧ (a ≤ i ∧ i < b) ∧ a ≤ i' ∧ i' < b

theorem eq_or_rel_of_pairwise {α : Type} {R : α → α → Prop} {xs : List α} (h : xs.Pairwise R) {x y : α} (hx : x ∈ xs)
    (hy : y ∈ xs) : x = y ∨ R x y ∨ R y x := by
  rw [List.pairwise_iff_getElem] at h
  obtain ⟨m, hm, rfl⟩ := List.getElem_of_mem hx
  obtain ⟨n, hn, rfl⟩ := List.getElem_of_mem hy
  rcases Nat.lt_trichotomy m n with hlt | rfl | hlt
  · exact .inr (.inl (h m n hm hn hlt))
  · exact .inl rfl
  · exact .inr (.inr (h n m hn hm hlt))

/-- At the offset of a listed line the text spells its first count. -/
theorem spells_count {s : List Char} {a : Nat} {l : Line} (h : (a, l) ∈ occurrences false 0 s) :
    Spells (units s) a (a + unitLength l.tests.count) (units l.tests.count) := by
  obtain ⟨pre, post, rfl, hl, -, ha⟩ := mem_occurrences.1 h
  simp only [Nat.zero_add] at ha hl
  have hnarrow : ∀ c ∈ l.tests.count, c.toNat ≤ 0xFFFF := by
    intro c hc
    exact hl.narrow c (by simp [Line.text, Tally.text, hc])
  obtain ⟨u, hu⟩ : ∃ u, l.text = l.tests.count ++ u := ⟨_, List.append_assoc ..⟩
  rw [Text.spells_units_iff hl.tests.count.1 hnarrow, ha]
  exact ⟨pre, u ++ post, by rw [hu, List.append_assoc], rfl, (unitLength_append ..).symm⟩

theorem unitLength_lt_count_extend {l : Line} (h : l.WellFormed) (d : List Char) :
    unitLength d < unitLength (l.extend d).tests.count := by
  have hpos : unitLength l.tests.count ≠ 0 := fun hzero => h.tests.count.1 (Text.eq_nil_of_unitLength_eq_zero hzero)
  rw [Line.extend, unitLength_append]
  omega

/-- **Two occurrences lie apart, or they are one line from its end back to within its first count.** -/
theorem OccursAt.apart_or_joined {s : List Char} {i j i' j' : Nat} {l l' : Line} (h : OccursAt s i j l)
    (h' : OccursAt s i' j' l') : (j ≤ i' ∨ j' ≤ i) ∨
      (j = j' ∧ l.failures = l'.failures ∧ l.ignored = l'.ignored ∧ InOneRun s i i') := by
  have hwf := h.wellFormed
  have hwf' := h'.wellFormed
  obtain ⟨a, d, hd, hmem, rfl, rfl⟩ := h.exists_mem_occurrences
  obtain ⟨a', d', -, hmem', rfl, rfl⟩ := h'.exists_mem_occurrences
  rcases eq_or_rel_of_pairwise (pairwise_occurrences s 0) hmem hmem' with heq | hapart | hapart
  · obtain ⟨rfl, hline⟩ := Prod.mk.inj heq
    have hlt := unitLength_lt_count_extend hwf d
    have hlt' := unitLength_lt_count_extend hwf' d'
    have hfailures : (l.extend d).failures = (l'.extend d').failures := by rw [hline]
    have hignored : (l.extend d).ignored = (l'.extend d').ignored := by rw [hline]
    rw [← hline] at hlt'
    refine .inr ⟨by rw [hline], hfailures, hignored, a, _, _, spells_count hmem, (hwf.extend hd).tests.count, ?_, ?_⟩
    · omega
    · omega
  · simp only at hapart
    exact .inl (.inl (by omega))
  · simp only at hapart
    exact .inl (.inr (by omega))

/-- **The pattern of a summary line is unambiguous, and its matches do not overlap.**  Occurrences that start at one index
are one line and end at one index.  Whether a search prefers long runs or short ones, from an index on it finds the
occurrence there, the only way in which the pattern matches, and what reading without looking back finds.  So going from
match to match and keeping the last is extraction.  Two occurrences lie apart, or they end together, with the same
failures and ignored tests, and start within one digit run. -/
theorem linePattern_unambiguous (s : List Char) :
    (∀ i j j' l l', OccursAt s i j l → OccursAt s i j' l' → l = l' ∧ j = j') ∧
    (∀ preference i j l, OccursAt s i j l ↔ ∃ pre t rest, s = pre ++ t ∧ i = unitLength pre ∧
      j = i + unitLength l.text ∧ firstMatch? preference t = some (l.pieces, rest)) ∧
    (∀ preference n, firstMatch? preference (s.drop n) = (Line.read? (s.drop n)).map (fun x => (x.1.pieces, x.2)) ∧
      ∀ m ∈ ways preference linePattern (s.drop n), firstMatch? preference (s.drop n) = some m) ∧
    (∀ preference, extract s = (matchAll preference 0 s).getLast?.map
      fun m => ⟨captured m.2, (matchAll preference 0 s).length, m.1⟩) ∧
    ∀ i j i' j' l l', OccursAt s i j l → OccursAt s i' j' l' → (j ≤ i' ∨ j' ≤ i) ∨
      (j = j' ∧ l.failures.count = l'.failures.count ∧ l.ignored.count = l'.ignored.count ∧ InOneRun s i i') := by
  refine ⟨fun i j j' l l' h h' => h.unique h', fun preference i j l => occursAt_iff_firstMatch? preference,
    fun preference n => ⟨firstMatch?_eq preference _, fun m hm => firstMatch?_eq_some_of_mem hm⟩,
    fun preference => extract_eq_matchAll preference s, fun i j i' j' l l' h h' => ?_⟩
  rcases h.apart_or_joined h' with hapart | ⟨hend, hfailures, hignored, hrun⟩
  · exact .inl hapart
  · exact .inr ⟨hend, by rw [hfailures], by rw [hignored], hrun⟩

/-- A line, and the same line without its first digit. -/
theorem linePattern_unambiguous_inside :
    let s := "12 Tests 3 Failures 4 Ignored".toList
    let l : Line := ⟨⟨['1', '2'], [' ']⟩, [' '], ⟨['3'], [' ']⟩, [' '], ⟨['4'], [' ']⟩⟩
    let l' : Line := ⟨⟨['2'], [' ']⟩, [' '], ⟨['3'], [' ']⟩, [' '], ⟨['4'], [' ']⟩⟩
    OccursAt s 0 29 l ∧ OccursAt s 1 29 l' ∧ l.failures.count = l'.failures.count ∧ InOneRun s 0 1 := by
  intro s l l'
  have hl : Line.read? s = some (l, []) := by decide
  have hl' : Line.read? (s.drop 1) = some (l', []) := by decide
  have hoccurs : OccursAt s 0 29 l := occursAt_iff.2 ⟨[], [], by decide, (Line.read?_eq_some_iff.1 hl).1, rfl, by decide⟩
  have hoccurs' : OccursAt s 1 29 l' :=
    occursAt_iff.2 ⟨['1'], [], by decide, (Line.read?_eq_some_iff.1 hl').1, rfl, by decide⟩
  obtain ⟨-, -, -, -, hoverlap⟩ := linePattern_unambiguous s
  rcases hoverlap 0 29 1 29 l l' hoccurs hoccurs' with hapart | ⟨-, hfailures, -, hrun⟩
  · omega
  · exact ⟨hoccurs, hoccurs', hfailures, hrun⟩

end Summary
end LogVerdict
