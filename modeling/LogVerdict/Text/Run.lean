/-!
# Text.Run — runs of characters, and words, at the head of a text

`run?` takes the longest run of one kind off a text and `after?` a given word.  Both say exactly when they succeed
(`run?_eq_some_iff`, `after?_eq_some_iff`).
-/
namespace LogVerdict.Text

/-- At least one character, and all of one kind. -/
def IsRun (p : Char → Bool) (s : List Char) : Prop := s ≠ [] ∧ ∀ c ∈ s, p c = true

/-- The longest run of one kind at the head of a text, and what follows it. -/
def run? (p : Char → Bool) : List Char → Option (List Char × List Char)
  | [] => none
  | c :: s => if p c then some (c :: s.takeWhile p, s.dropWhile p) else none

def after? : (word text : List Char) → Option (List Char)
  | [], s => some s
  | _ :: _, [] => none
  | w :: word, c :: s => if c = w then after? word s else none

/-- A text that does not go on with a character of a kind. -/
def StopsAt (p : Char → Bool) (s : List Char) : Prop := ∀ c ∈ s.head?, p c = false

theorem stopsAt_dropWhile (p : Char → Bool) (s : List Char) : StopsAt p (s.dropWhile p) := by
  intro c hc
  have := List.head?_dropWhile_not p s
  rw [Option.mem_def.1 hc] at this
  simpa using this

theorem dropWhile_of_stopsAt {p : Char → Bool} {s : List Char} (h : StopsAt p s) : s.dropWhile p = s := by
  cases s with
  | nil => rfl
  | cons c s => simp [h c rfl]

theorem takeWhile_append_of_isRun {p : Char → Bool} {r t : List Char} (hr : ∀ c ∈ r, p c = true) (ht : StopsAt p t) :
    (r ++ t).takeWhile p = r ∧ (r ++ t).dropWhile p = t := by
  have htake : t.takeWhile p = [] := by
    cases t with
    | nil => rfl
    | cons c t => simp [ht c rfl]
  rw [List.takeWhile_append_of_pos hr, List.dropWhile_append_of_pos hr, htake, dropWhile_of_stopsAt ht, List.append_nil]
  exact ⟨rfl, rfl⟩

theorem run?_eq_some_iff {p : Char → Bool} {s r t : List Char} :
    run? p s = some (r, t) ↔ s = r ++ t ∧ IsRun p r ∧ StopsAt p t := by
  constructor
  · intro h
    cases s with
    | nil => cases h
    | cons c s =>
      by_cases hc : p c = true
      · rw [run?, if_pos hc] at h
        cases h
        refine ⟨by simp, ⟨by simp, fun d hd => ?_⟩, stopsAt_dropWhile p s⟩
        rcases List.mem_cons.1 hd with rfl | hd
        · exact hc
        · exact List.all_eq_true.1 List.all_takeWhile d hd
      · rw [run?, if_neg hc] at h; cases h
  · rintro ⟨rfl, ⟨hne, hr⟩, ht⟩
    obtain ⟨c, r, rfl⟩ := List.exists_cons_of_ne_nil hne
    obtain ⟨h1, h2⟩ := takeWhile_append_of_isRun (fun d hd => hr d (List.mem_cons_of_mem _ hd)) ht
    rw [List.cons_append, run?, if_pos (hr c (by simp)), h1, h2]

theorem run?_eq_none_iff {p : Char → Bool} {s : List Char} : run? p s = none ↔ StopsAt p s := by
  cases s with
  | nil => simp [run?, StopsAt]
  | cons c s => simp [run?, StopsAt]

theorem after?_eq_some_iff : ∀ {word s t : List Char}, after? word s = some t ↔ s = word ++ t
  | [], s, t => by simp [after?]
  | w :: word, [], t => by simp [after?]
  | w :: word, c :: s, t => by
    by_cases h : c = w
    · rw [after?, if_pos h, after?_eq_some_iff, h]; simp
    · rw [after?, if_neg h]; simp [h]

theorem stopsAt_of_head {p : Char → Bool} {s : List Char} {c : Char} (hs : s.head? = some c) (hc : p c = false) :
    StopsAt p s := by
  intro d hd
  rw [hs] at hd
  cases hd
  exact hc

theorem head?_run {p : Char → Bool} {r t : List Char} (hr : IsRun p r) : ∃ c, (r ++ t).head? = some c ∧ p c = true := by
  obtain ⟨c, r, rfl⟩ := List.exists_cons_of_ne_nil hr.1
  exact ⟨c, rfl, hr.2 c (by simp)⟩

end LogVerdict.Text
