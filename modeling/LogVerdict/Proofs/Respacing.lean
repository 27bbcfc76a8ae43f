import LogVerdict.Proofs.Occurrences
import Mathlib.Data.Stream.Init
/-!
# Respacing — other blanks between the words of a log

`respace` replaces each longest run of blanks in a text by another run of blanks, possibly a different one at each
place.  Reading a summary line goes along with it (`Line.read?_respace`): the words and the counts stay, the gaps are the
new ones.  So the extracted summary and the number of lines stay, and the offset is carried to where the line now stands
(`extract_respace`).
-/
namespace LogVerdict

namespace Text

/-- A run of blanks. -/
structure Gap where
  text : List Char
  isRun : IsRun isBlank text

/-- **A text with other gaps**: each longest run of blanks is replaced by the next one of the given gaps. -/
def respace (gaps : Stream' Gap) : List Char → List Char
  | [] => []
  | c :: s =>
    if isBlank c then gaps.head.text ++ respace gaps.tail (s.dropWhile isBlank) else c :: respace gaps s
termination_by s => s.length
decreasing_by
  · exact Nat.lt_succ_of_le (List.dropWhile_sublist _).length_le
  · exact Nat.lt_succ_self _

/-- Where the replacement carries an index: what stands before it takes up that many units afterwards. -/
def carried (gaps : Stream' Gap) (s : List Char) (i : Nat) : Nat := unitLength (respace gaps (takeUnits i s))

theorem respace_nil (gaps : Stream' Gap) : respace gaps [] = [] := by
  rw [respace]

theorem respace_cons (gaps : Stream' Gap) {c : Char} (s : List Char) (hc : isBlank c = false) :
    respace gaps (c :: s) = c :: respace gaps s := by
  rw [respace, if_neg (by simp [hc])]

theorem respace_gap (gaps : Stream' Gap) {g s : List Char} (hg : IsRun isBlank g) (hs : StopsAt isBlank s) :
    respace gaps (g ++ s) = gaps.head.text ++ respace gaps.tail s := by
  obtain ⟨c, g, rfl⟩ := List.exists_cons_of_ne_nil hg.1
  obtain ⟨-, hdrop⟩ := takeWhile_append_of_isRun (fun d hd => hg.2 d (List.mem_cons_of_mem _ hd)) hs
  rw [List.cons_append, respace, if_pos (hg.2 c List.mem_cons_self), hdrop]

theorem respace_append (gaps : Stream' Gap) (t : List Char) : ∀ (s : List Char), (∀ c ∈ s, isBlank c = false) →
    respace gaps (s ++ t) = s ++ respace gaps t
  | [], _ => rfl
  | c :: s, h => by
    rw [List.forall_mem_cons] at h
    rw [List.cons_append, respace_cons gaps _ h.1, respace_append gaps t s h.2, List.cons_append]

/-- **A text taken apart into its gaps** and the characters between them. -/
theorem gapInduction {P : List Char → Prop} (nil : P []) (char : ∀ c s, isBlank c = false → P s → P (c :: s))
    (gap : ∀ g s, IsRun isBlank g → StopsAt isBlank s → P s → P (g ++ s)) (s : List Char) : P s := by
  match s with
  | [] => exact nil
  | c :: r =>
    by_cases hc : isBlank c = true
    · have hrun : IsRun isBlank (c :: r.takeWhile isBlank) := by
        refine ⟨List.cons_ne_nil _ _, List.forall_mem_cons.2 ⟨hc, fun d hd => ?_⟩⟩
        exact List.all_eq_true.1 List.all_takeWhile d hd
      have hs : c :: r = c :: r.takeWhile isBlank ++ r.dropWhile isBlank := by simp
      have hlt : (r.dropWhile isBlank).length < (c :: r).length :=
        Nat.lt_succ_of_le (List.dropWhile_sublist _).length_le
      rw [hs]
      exact gap _ _ hrun (stopsAt_dropWhile _ _) (gapInduction nil char gap _)
    · exact char c r (by simpa using hc) (gapInduction nil char gap r)
termination_by s.length
decreasing_by
  · exact hlt
  · exact Nat.lt_succ_self _

/-! ## Reading a respaced text -/

/-- A text goes on with a character of a kind as before, if the kind has all blanks in it or none. -/
theorem stopsAt_respace {p : Char → Bool} (hp : ∀ b c, isBlank b = true → isBlank c = true → p b = p c)
    (gaps : Stream' Gap) {s : List Char} (h : StopsAt p s) : StopsAt p (respace gaps s) := by
  induction s using gapInduction with
  | nil =>
    rw [respace_nil]
    exact h
  | char c s hc _ =>
    rw [respace_cons gaps s hc]
    exact stopsAt_of_head rfl (h c rfl)
  | gap g s hg hs _ =>
    obtain ⟨b, hb, hblank⟩ := head?_run (t := s) hg
    obtain ⟨c, hc, hcblank⟩ := head?_run (t := respace gaps.tail s) gaps.head.isRun
    rw [respace_gap gaps hg hs]
    refine stopsAt_of_head hc ?_
    rw [← hp b c hblank hcblank]
    exact h b hb

/-- A run of another kind than blanks is read as before. -/
theorem run?_respace {p : Char → Bool} (hp : ∀ c, p c = true → isBlank c = false) (gaps : Stream' Gap)
    (s : List Char) : run? p (respace gaps s) = (run? p s).map fun x => (x.1, respace gaps x.2) := by
  have hblanks : ∀ b c, isBlank b = true → isBlank c = true → p b = p c := by
    intro b c hb hc
    have hnot : ∀ d, isBlank d = true → p d = false := by
      intro d hd
      rw [Bool.eq_false_iff]
      intro hpd
      rw [hp d hpd] at hd
      cases hd
    rw [hnot b hb, hnot c hc]
  cases h : run? p s with
  | none => exact run?_eq_none_iff.2 (stopsAt_respace hblanks gaps (run?_eq_none_iff.1 h))
  | some x =>
    obtain ⟨rfl, hr, ht⟩ := run?_eq_some_iff.1 (show run? p s = some (x.1, x.2) from h)
    refine run?_eq_some_iff.2 ⟨?_, hr, stopsAt_respace hblanks gaps ht⟩
    exact respace_append gaps x.2 x.1 fun c hc => hp c (hr.2 c hc)

/-- Where a gap is read, the new one is. -/
theorem run?_isBlank_respace (gaps : Stream' Gap) (s : List Char) :
    run? isBlank (respace gaps s)
      = (run? isBlank s).map fun x => (gaps.head.text, respace gaps.tail x.2) := by
  have hblanks : ∀ b c, isBlank b = true → isBlank c = true → isBlank b = isBlank c :=
    fun b c hb hc => hb.trans hc.symm
  cases h : run? isBlank s with
  | none => exact run?_eq_none_iff.2 (stopsAt_respace hblanks gaps (run?_eq_none_iff.1 h))
  | some x =>
    obtain ⟨rfl, hg, ht⟩ := run?_eq_some_iff.1 (show run? isBlank s = some (x.1, x.2) from h)
    exact run?_eq_some_iff.2 ⟨respace_gap gaps hg ht, gaps.head.isRun, stopsAt_respace hblanks gaps.tail ht⟩

theorem after?_respace (gaps : Stream' Gap) : ∀ {word : List Char} (s : List Char), (∀ c ∈ word, isBlank c = false) →
    after? word (respace gaps s) = (after? word s).map (respace gaps)
  | [], s, _ => rfl
  | w :: word, [], _ => by
    rw [respace_nil]
    rfl
  | w :: word, c :: s, h => by
    rw [List.forall_mem_cons] at h
    by_cases hc : isBlank c = true
    · have hw : ∀ d, isBlank d = true → d ≠ w := by
        rintro d hd rfl
        rw [h.1] at hd
        cases hd
      -- both texts go on with a blank, and the word does not
      obtain ⟨b, g, hg⟩ := List.exists_cons_of_ne_nil gaps.head.isRun.1
      have hb : isBlank b = true := gaps.head.isRun.2 b (by rw [hg]; exact List.mem_cons_self)
      rw [respace, if_pos hc, hg, List.cons_append, after?, if_neg (hw b hb), after?, if_neg (hw c hc)]
      rfl
    · rw [respace_cons gaps s (by simpa using hc), after?, after?]
      split
      · exact after?_respace gaps s h.2
      · rfl

/-! ## Carried indices -/

theorem stopsAt_takeUnits {p : Char → Bool} {s : List Char} (h : StopsAt p s) (n : Nat) : StopsAt p (takeUnits n s) := by
  intro c hc
  cases n with
  | zero =>
    rw [takeUnits] at hc
    cases hc
  | succ n =>
    cases s with
    | nil => cases hc
    | cons d s => exact h c hc

theorem carried_zero (gaps : Stream' Gap) (s : List Char) : carried gaps s 0 = 0 := by
  rw [carried, takeUnits, respace_nil]
  rfl

theorem carried_cons (gaps : Stream' Gap) {c : Char} (hc : isBlank c = false) (s : List Char) (n : Nat) :
    carried gaps (c :: s) (width c + n) = width c + carried gaps s n := by
  have htake : takeUnits (width c + n) (c :: s) = c :: takeUnits n s := by
    simpa using takeUnits_unitLength_append n [c] s
  rw [carried, htake, respace_cons gaps _ hc, unitLength_cons, carried]

theorem carried_gap (gaps : Stream' Gap) {g s : List Char} (hg : IsRun isBlank g) (hs : StopsAt isBlank s) (n : Nat) :
    carried gaps (g ++ s) (unitLength g + n) = unitLength gaps.head.text + carried gaps.tail s n := by
  rw [carried, takeUnits_unitLength_append, respace_gap gaps hg (stopsAt_takeUnits hs n), unitLength_append, carried]

/-- A text that is cut in front of a character that is no blank is cut in two when it is respaced as well. -/
theorem exists_respace_append {t : List Char} (ht : StopsAt isBlank t) (s : List Char) : ∀ (gaps : Stream' Gap),
    ∃ later, respace gaps (s ++ t) = respace gaps s ++ respace later t := by
  induction s using gapInduction with
  | nil =>
    intro gaps
    refine ⟨gaps, ?_⟩
    rw [respace_nil]
    rfl
  | char c s hc ih =>
    intro gaps
    obtain ⟨later, hlater⟩ := ih gaps
    refine ⟨later, ?_⟩
    rw [List.cons_append, respace_cons gaps _ hc, respace_cons gaps s hc, hlater, List.cons_append]
  | gap g s hg hs ih =>
    intro gaps
    obtain ⟨later, hlater⟩ := ih gaps.tail
    have hst : StopsAt isBlank (s ++ t) := by
      cases s with
      | nil => exact ht
      | cons c s => exact stopsAt_of_head rfl (hs c rfl)
    refine ⟨later, ?_⟩
    rw [List.append_assoc, respace_gap gaps hg hst, respace_gap gaps hg hs, hlater, List.append_assoc]

end Text

namespace Summary

open Text (Gap carried run?_respace run?_isBlank_respace after?_respace isBlank IsRun unitLength width
  respace_nil respace_cons respace_gap carried_zero carried_cons carried_gap gapInduction not_isBlank_of_isDigit)

/-! ## Lines of a respaced text -/

/-- A summary line with the first five of the given gaps. -/
def Line.respace (gaps : Stream' Gap) (l : Line) : Line :=
  ⟨⟨l.tests.count, (gaps.get 0).text⟩, (gaps.get 1).text, ⟨l.failures.count, (gaps.get 2).text⟩, (gaps.get 3).text,
    ⟨l.ignored.count, (gaps.get 4).text⟩⟩

theorem Line.summary_respace (gaps : Stream' Gap) (l : Line) : (l.respace gaps).summary = l.summary := rfl

theorem Tally.read?_respace (gaps : Stream' Gap) {word : List Char} (hw : ∀ c ∈ word, isBlank c = false)
    (s : List Char) : Tally.read? word (Text.respace gaps s)
      = (Tally.read? word s).map fun x => (⟨x.1.count, gaps.head.text⟩, Text.respace gaps.tail x.2) := by
  unfold Tally.read?
  rw [run?_respace (fun _ => not_isBlank_of_isDigit)]
  cases Text.run? Char.isDigit s with
  | none => rfl
  | some x =>
    simp only [Option.map_some, Option.bind_eq_bind, Option.bind_some, run?_isBlank_respace]
    cases Text.run? isBlank x.2 with
    | none => rfl
    | some y =>
      simp only [Option.map_some, Option.bind_some, after?_respace gaps.tail y.2 hw]
      cases Text.after? word y.2 with
      | none => rfl
      | some t => rfl

/-- **Reading a summary line goes along with respacing.** -/
theorem Line.read?_respace (gaps : Stream' Gap) (s : List Char) : Line.read? (Text.respace gaps s)
    = (Line.read? s).map fun x => (x.1.respace gaps, Text.respace (gaps.drop 5) x.2) := by
  have hT : ∀ c ∈ testsWord, isBlank c = false := by simp [testsWord, isBlank, Text.blanks]
  have hF : ∀ c ∈ failuresWord, isBlank c = false := by simp [failuresWord, isBlank, Text.blanks]
  have hI : ∀ c ∈ ignoredWord, isBlank c = false := by simp [ignoredWord, isBlank, Text.blanks]
  unfold Line.read?
  rw [Tally.read?_respace gaps hT]
  cases Tally.read? testsWord s with
  | none => rfl
  | some x =>
    simp only [Option.map_some, Option.bind_eq_bind, Option.bind_some, run?_isBlank_respace]
    cases Text.run? isBlank x.2 with
    | none => rfl
    | some g =>
      simp only [Option.map_some, Option.bind_some, Tally.read?_respace _ hF]
      cases Tally.read? failuresWord g.2 with
      | none => rfl
      | some y =>
        simp only [Option.map_some, Option.bind_some, run?_isBlank_respace]
        cases Text.run? isBlank y.2 with
        | none => rfl
        | some k =>
          simp only [Option.map_some, Option.bind_some, Tally.read?_respace _ hI]
          cases Tally.read? ignoredWord k.2 with
          | none => rfl
          | some z => rfl

theorem headLine_respace (gaps : Stream' Gap) (late : Bool) (s : List Char) :
    headLine late (Text.respace gaps s) = (headLine late s).map (·.respace gaps) := by
  unfold headLine
  split
  · rfl
  · rw [Line.read?_respace, Option.map_map, Option.map_map]
    rfl

/-- What extraction takes from the lines of a text: where each starts, and what it states. -/
def sightings (late : Bool) (s : List Char) : List (Nat × Summary) :=
  (occurrences late 0 s).map fun p => (p.1, p.2.summary)

/-- Sightings in what comes behind so many units. -/
def moved (n : Nat) (q : Nat × Summary) : Nat × Summary := (n + q.1, q.2)

theorem extract_eq_sightings (s : List Char) :
    extract s = (sightings false s).getLast?.map fun q => ⟨q.2, (sightings false s).length, q.1⟩ := by
  rw [extract_eq, sightings, List.getLast?_map, List.length_map, Option.map_map]
  rfl

theorem sightings_eq_moved (late : Bool) (n : Nat) (s : List Char) :
    (occurrences late n s).map (fun p => (p.1, p.2.summary)) = (sightings late s).map (moved n) := by
  rw [← Nat.add_zero n, occurrences_add, sightings, List.map_map, List.map_map]
  rfl

theorem sightings_cons (late : Bool) (c : Char) (s : List Char) :
    sightings late (c :: s) = ((headLine late (c :: s)).map (0, ·.summary)).toList
      ++ (sightings c.isDigit s).map (moved (width c)) := by
  rw [sightings, occurrences, List.map_append, Nat.zero_add, sightings_eq_moved]
  cases headLine late (c :: s) <;> rfl

theorem sightings_gap (late : Bool) {g : List Char} (hg : IsRun isBlank g) (s : List Char) :
    sightings late (g ++ s) = (sightings false s).map (moved (unitLength g)) := by
  have hdigits : ∀ c ∈ g, c.isDigit = false := fun c hc => not_isDigit_of_isBlank (hg.2 c hc)
  rw [sightings, occurrences_of_stopsAt late 0 (stopsAt_isDigit_blanks hg),
    occurrences_append_of_not_isDigit s g 0 hdigits, Nat.zero_add, sightings_eq_moved]

/-- **The lines of a respaced text** state what those of the text do, at the places they are carried to. -/
theorem sightings_respace (s : List Char) : ∀ (gaps : Stream' Gap) (late : Bool),
    sightings late (Text.respace gaps s) = (sightings late s).map fun q => (carried gaps s q.1, q.2) := by
  induction s using gapInduction with
  | nil =>
    intro gaps late
    rw [respace_nil]
    rfl
  | char c s hc ih =>
    intro gaps late
    have hhead := headLine_respace gaps late (c :: s)
    rw [respace_cons gaps s hc] at hhead ⊢
    rw [sightings_cons, sightings_cons, hhead, ih, List.map_append, List.map_map, List.map_map]
    congr 1
    · cases headLine late (c :: s) with
      | none => rfl
      | some l => simp [carried_zero, Line.summary_respace]
    · apply List.map_congr_left
      intro q _
      simp only [Function.comp_apply, moved, carried_cons gaps hc]
  | gap g s hg hs ih =>
    intro gaps late
    -- no line starts in a gap, and behind one it no longer matters whether a digit came before
    rw [respace_gap gaps hg hs, sightings_gap late gaps.head.isRun, sightings_gap late hg, ih, List.map_map, List.map_map]
    apply List.map_congr_left
    intro q _
    simp only [Function.comp_apply, moved, carried_gap gaps hg hs]

theorem exists_respace_at_line (gaps : Stream' Gap) {s : List Char} {p : Nat × Line}
    (h : p ∈ occurrences false 0 s) : ∃ later, Text.respace gaps s
      = Text.respace gaps (Text.takeUnits p.1 s) ++ Text.respace later (Text.dropUnits p.1 s) := by
  obtain ⟨pre, post, rfl, hl, -, hoffset⟩ := mem_occurrences.1 h
  obtain ⟨c, r, hc, hdigit⟩ := hl.text_eq_cons
  have hstops : Text.StopsAt isBlank (p.2.text ++ post) := by
    rw [hc]
    exact Text.stopsAt_of_head rfl (not_isBlank_of_isDigit hdigit)
  have htake : Text.takeUnits p.1 (pre ++ (p.2.text ++ post)) = pre := by
    rw [hoffset, Nat.zero_add, Text.takeUnits_unitLength]
  have hdrop : Text.dropUnits p.1 (pre ++ (p.2.text ++ post)) = p.2.text ++ post := by
    rw [hoffset, Nat.zero_add, Text.dropUnits_unitLength_append]
  rw [htake, hdrop]
  exact Text.exists_respace_append hstops pre gaps

/-- **Only the words and the counts matter, not the blanks between them.**  Whatever runs of blanks are put in the place
of those of a text, a summary is found exactly if one was, it is the same, and so is the number of lines.  The offset is
carried to where the text, cut in two at the old offset, is cut in two now: on either side stands what stood there, with
other gaps. -/
theorem extract_respace (gaps : Stream' Gap) (s : List Char) :
    extract (Text.respace gaps s) = (extract s).map (fun e => { e with offset := carried gaps s e.offset }) ∧
    ∀ e, extract s = some e → ∃ later, Text.respace gaps s
      = Text.respace gaps (Text.takeUnits e.offset s) ++ Text.respace later (Text.dropUnits e.offset s) := by
  constructor
  · rw [extract_eq_sightings, extract_eq_sightings, sightings_respace, List.getLast?_map, List.length_map,
      Option.map_map, Option.map_map]
    rfl
  · intro e he
    obtain ⟨ps, p, hps, rfl⟩ := extract_eq_some_iff.1 he
    have hmem : p ∈ occurrences false 0 s := by rw [hps]; exact List.mem_concat_self
    exact exists_respace_at_line gaps hmem

/-- A log with other line ends, and a line that is spread over them. -/
theorem extract_respace_newlines :
    let gaps : Stream' Gap := Stream'.const ⟨['\n'], by decide, by simp [isBlank, Text.blanks]⟩
    let s := "boot\r\n12\tTests\r\n 3  Failures\r\n1 Ignored".toList
    Text.respace gaps s = "boot\n12\nTests\n3\nFailures\n1\nIgnored".toList ∧
      extract s = some ⟨⟨12, 3, 1⟩, 1, 6⟩ ∧ extract (Text.respace gaps s) = some ⟨⟨12, 3, 1⟩, 1, 5⟩ ∧
      ∃ later, Text.respace gaps s
        = "boot\n".toList ++ Text.respace later "12\tTests\r\n 3  Failures\r\n1 Ignored".toList := by
  intro gaps s
  have hspread : extract s = some ⟨⟨12, 3, 1⟩, 1, 6⟩ := by decide +kernel
  obtain ⟨hextract, hcut⟩ := extract_respace gaps s
  refine ⟨by decide +kernel, hspread, ?_, ?_⟩
  · rw [hextract, hspread]
    decide +kernel
  · obtain ⟨later, hlater⟩ := hcut _ hspread
    have hbefore : Text.respace gaps (Text.takeUnits 6 s) = "boot\n".toList := by decide +kernel
    have hbehind : Text.dropUnits 6 s = "12\tTests\r\n 3  Failures\r\n1 Ignored".toList := by decide
    refine ⟨later, ?_⟩
    rw [hlater, hbefore, hbehind]

end Summary
end LogVerdict
