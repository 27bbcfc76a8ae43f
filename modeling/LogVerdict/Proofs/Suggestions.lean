import LogVerdict.Proofs.Precedence
import Mathlib.Order.Bounds.Defs
/-!
# Suggestions — the options an unknown one may stand for

The distance of two words is the least number of edits that lead from one to the other (`isLeast_alignment`), so it is
never less than what their lengths differ by, and words too different in length to be compared are too far apart anyway
(`agrees_wordDistance`).  The search for the nearest options goes through the long options with a running best; what it
has found is the nearest of those it has seen (`Best`), whatever their order.  So the options named are the nearest of
all that are near and similar enough (`attempt_suggests`).
-/
namespace LogVerdict

namespace Arguments

open Text (units)

/-! ## Edits -/

section Edits

variable {α : Type}

/-- **How many edits lead from one word to another**, from left to right.  What is swapped is not edited again. -/
inductive Edits : List α → List α → Nat → Prop
  | nil : Edits [] [] 0
  | keep (x : α) {s t : List α} {n : Nat} : Edits s t n → Edits (x :: s) (x :: t) n
  | substitute (x y : α) {s t : List α} {n : Nat} : Edits s t n → Edits (x :: s) (y :: t) (n + 1)
  | delete (x : α) {s t : List α} {n : Nat} : Edits s t n → Edits (x :: s) t (n + 1)
  | insert (y : α) {s t : List α} {n : Nat} : Edits s t n → Edits s (y :: t) (n + 1)
  | swap (x y : α) {s t : List α} {n : Nat} : Edits s t n → Edits (x :: y :: s) (y :: x :: t) (n + 1)

/-- An edit changes the length of a word by one at most. -/
theorem Edits.length_le {s t : List α} {n : Nat} (h : Edits s t n) :
    s.length ≤ t.length + n ∧ t.length ≤ s.length + n := by
  induction h with
  | nil => exact ⟨Nat.le_refl _, Nat.le_refl _⟩
  | keep | substitute | delete | insert | swap =>
    simp only [List.length_cons]
    omega

theorem edits_nil_left : ∀ t : List α, Edits [] t t.length
  | [] => .nil
  | y :: t => .insert y (edits_nil_left t)

theorem edits_nil_right : ∀ s : List α, Edits s [] s.length
  | [] => .nil
  | x :: s => .delete x (edits_nil_right s)

variable [DecidableEq α]

/-! ## The distance is the least number of edits -/

theorem orSwap_le (x y : α) (edit : Nat) (swap : Option (α × α × Nat)) : orSwap x y edit swap ≤ edit := by
  fun_cases orSwap x y edit swap with
  | case1 => exact Nat.le_refl _
  | case2 => exact Nat.min_le_left _ _
  | case3 => exact Nat.le_refl _

theorem orSwap_eq (x y : α) (edit : Nat) (swap : Option (α × α × Nat)) :
    orSwap x y edit swap = edit ∨ ∃ after, swap = some (y, x, after) ∧ orSwap x y edit swap = after + 1 := by
  fun_cases orSwap x y edit swap with
  | case1 => exact .inl rfl
  | case2 y' x' after hswap =>
    obtain ⟨rfl, rfl⟩ := hswap
    rcases Nat.le_total edit (after + 1) with h | h
    · exact .inl (Nat.min_eq_left h)
    · exact .inr ⟨after, rfl, Nat.min_eq_right h⟩
  | case3 => exact .inl rfl

theorem leastEdit_le (x y : α) (delete insert keep : Nat) :
    leastEdit x y delete insert keep ≤ delete + 1 ∧ leastEdit x y delete insert keep ≤ insert + 1 ∧
      leastEdit x y delete insert keep ≤ keep + if x = y then 0 else 1 := by
  unfold leastEdit
  omega

theorem leastEdit_eq (x y : α) (delete insert keep : Nat) :
    leastEdit x y delete insert keep = delete + 1 ∨ leastEdit x y delete insert keep = insert + 1 ∨
      leastEdit x y delete insert keep = keep + if x = y then 0 else 1 := by
  unfold leastEdit
  omega

theorem alignment_cons_le (x y : α) (s t : List α) :
    alignment (x :: s) (y :: t) ≤ alignment s (y :: t) + 1 ∧ alignment (x :: s) (y :: t) ≤ alignment (x :: s) t + 1 ∧
      alignment (x :: s) (y :: t) ≤ alignment s t + if x = y then 0 else 1 := by
  have hedit : alignment (x :: s) (y :: t) ≤
      leastEdit x y (alignment s (y :: t)) (alignment (x :: s) t) (alignment s t) := by
    rw [alignment.eq_def]
    exact orSwap_le _ _ _ _
  obtain ⟨hdelete, hinsert, hkeep⟩ := leastEdit_le x y (alignment s (y :: t)) (alignment (x :: s) t) (alignment s t)
  exact ⟨Nat.le_trans hedit hdelete, Nat.le_trans hedit hinsert, Nat.le_trans hedit hkeep⟩

theorem alignment_delete_le (x : α) (s t : List α) : alignment (x :: s) t ≤ alignment s t + 1 := by
  cases t with
  | nil => simp only [alignment_nil_right, List.length_cons, Nat.le_refl]
  | cons y t => exact (alignment_cons_le x y s t).1

theorem alignment_insert_le (y : α) (s t : List α) : alignment s (y :: t) ≤ alignment s t + 1 := by
  cases s with
  | nil => simp only [alignment_nil_left, List.length_cons, Nat.le_refl]
  | cons x s => exact (alignment_cons_le x y s t).2.1

theorem alignment_cons_eq (x y : α) (s t : List α) :
    alignment (x :: s) (y :: t) = leastEdit x y (alignment s (y :: t)) (alignment (x :: s) t) (alignment s t) ∨
      ∃ s' t', s = y :: s' ∧ t = x :: t' ∧ alignment (x :: s) (y :: t) = alignment s' t' + 1 := by
  rw [alignment.eq_def]
  refine (orSwap_eq _ _ _ _).imp_right ?_
  rintro ⟨after, hswap, h⟩
  cases s with
  | nil => cases hswap
  | cons x' s' =>
    cases t with
    | nil => cases hswap
    | cons y' t' =>
      cases hswap
      exact ⟨s', t', rfl, rfl, h⟩

theorem edits_alignment : ∀ s t : List α, Edits s t (alignment s t)
  | [], t => by
    rw [alignment_nil_left]
    exact edits_nil_left t
  | x :: s, [] => by
    rw [alignment_nil_right]
    exact edits_nil_right _
  | x :: s, y :: t => by
    rcases alignment_cons_eq x y s t with h | ⟨s', t', rfl, rfl, h⟩
    · rw [h]
      rcases leastEdit_eq x y (alignment s (y :: t)) (alignment (x :: s) t) (alignment s t) with h | h | h
      · rw [h]
        exact .delete x (edits_alignment s (y :: t))
      · rw [h]
        exact .insert y (edits_alignment (x :: s) t)
      · rw [h]
        split
        case isTrue hxy =>
          rw [hxy]
          exact .keep y (edits_alignment s t)
        case isFalse => exact .substitute x y (edits_alignment s t)
    · rw [h]
      exact .swap x y (edits_alignment s' t')
termination_by s t => s.length + t.length

theorem Edits.alignment_le {s t : List α} {n : Nat} (h : Edits s t n) : alignment s t ≤ n := by
  induction h with
  | nil => exact Nat.le_of_eq (alignment_nil_left [])
  | @keep x s t n _ ih =>
    have hkeep := (alignment_cons_le x x s t).2.2
    rw [if_pos rfl] at hkeep
    exact Nat.le_trans hkeep ih
  | @substitute x y s t n _ ih =>
    have hsubstitute := (alignment_cons_le x y s t).2.2
    split at hsubstitute <;> omega
  | @delete x s t n _ ih => exact Nat.le_trans (alignment_delete_le x s t) (Nat.succ_le_succ ih)
  | @insert y s t n _ ih => exact Nat.le_trans (alignment_insert_le y s t) (Nat.succ_le_succ ih)
  | swap x y _ ih =>
    rw [alignment, orSwap, if_pos ⟨rfl, rfl⟩]
    exact Nat.le_trans (Nat.min_le_right _ _) (Nat.succ_le_succ ih)

/-- **The distance is the least number of edits.** -/
theorem isLeast_alignment (s t : List α) : IsLeast {n | Edits s t n} (alignment s t) :=
  ⟨edits_alignment s t, fun _ h => Edits.alignment_le h⟩

end Edits

/-! ## Words too different in length -/

/-- **A measure as good as the distance**: whatever it gives for words that are not too far apart is the distance. -/
def Agrees (measure : List UInt16 → List UInt16 → Nat) : Prop :=
  ∀ s t, measure s t = alignment s t ∨ (farthest < measure s t ∧ farthest < alignment s t)

theorem agrees_alignment : Agrees alignment := fun _ _ => .inl rfl

theorem agrees_distance : Agrees distance := fun s t => .inl (distance_eq_alignment s t)

/-- Words that differ too much in length to be compared are too far apart. -/
theorem agrees_wordDistance : Agrees wordDistance := by
  intro s t
  unfold wordDistance
  split
  case isTrue hlength =>
    have hedits := (edits_alignment s t).length_le
    right
    omega
  case isFalse => exact .inl (distance_eq_alignment s t)

/-! ## The nearest options -/

/-- **An option near and similar enough to a word**: it is three edits away at most, and more than two fifths of the
longer of the two stay. -/
def IsNear (measure : List UInt16 → List UInt16 → Nat) (word : List UInt16) (option : String) : Prop :=
  measure word (units option.toList) ≤ 3 ∧
    2 * max word.length (units option.toList).length <
      5 * (max word.length (units option.toList).length - measure word (units option.toList))

/-- **A candidate that none is nearer than**, of those that are near and similar enough. -/
structure IsNearest (measure : List UInt16 → List UInt16 → Nat) (candidates : List String) (word : List UInt16)
    (option : String) : Prop where
  mem : option ∈ candidates
  isNear : IsNear measure word option
  le : ∀ other ∈ candidates, IsNear measure word other →
    measure word (units option.toList) ≤ measure word (units other.toList)

variable {measure : List UInt16 → List UInt16 → Nat} {candidates : List String} {word : List UInt16} {option : String}

theorem isNear_iff_similar : IsNear measure word option ↔ measure word (units option.toList) ≤ farthest ∧
    similar word (units option.toList) (measure word (units option.toList)) = true := by
  rw [similar, decide_eq_true_iff]
  rfl

theorem Agrees.isNear_iff (h : Agrees measure) : IsNear measure word option ↔ IsNear alignment word option := by
  rw [isNear_iff_similar, isNear_iff_similar]
  rcases h word (units option.toList) with heq | ⟨hfar, hfar'⟩
  · rw [heq]
  · constructor
    · intro hnear
      exact absurd hnear.1 (Nat.not_le.2 hfar)
    · intro hnear
      exact absurd hnear.1 (Nat.not_le.2 hfar')

theorem Agrees.eq_of_isNear (h : Agrees measure) (hnear : IsNear alignment word option) :
    measure word (units option.toList) = alignment word (units option.toList) :=
  (h word (units option.toList)).resolve_right fun hfar => absurd hnear.1 (Nat.not_le.2 hfar.2)

/-- Whatever the measure and the order, the nearest are the same. -/
theorem Agrees.isNearest_iff (h : Agrees measure) {order : List String} (horder : order.Perm candidates) :
    IsNearest measure order word option ↔ IsNearest alignment candidates word option := by
  constructor
  · rintro ⟨hmem, hnear, hle⟩
    refine ⟨horder.mem_iff.1 hmem, h.isNear_iff.1 hnear, fun other hother hnear' => ?_⟩
    have := hle other (horder.mem_iff.2 hother) (h.isNear_iff.2 hnear')
    rwa [h.eq_of_isNear (h.isNear_iff.1 hnear), h.eq_of_isNear hnear'] at this
  · rintro ⟨hmem, hnear, hle⟩
    refine ⟨horder.mem_iff.2 hmem, h.isNear_iff.2 hnear, fun other hother hnear' => ?_⟩
    rw [h.eq_of_isNear hnear, h.eq_of_isNear (h.isNear_iff.1 hnear')]
    exact hle other (horder.mem_iff.1 hother) (h.isNear_iff.1 hnear')

/-! ## The search -/

/-- One step of the search, by some measure. -/
def Nearest.considerBy (measure : List UInt16 → List UInt16 → Nat) (word : List UInt16) (best : Nearest)
    (option : String) : Nearest :=
  let d := measure word (units option.toList)
  if similar word (units option.toList) d then
    if d < best.distance then ⟨d, [option]⟩
    else if d = best.distance then ⟨d, best.options ++ [option]⟩
    else best
  else best

/-- The search by some measure and in some order. -/
def nearestBy (measure : List UInt16 → List UInt16 → Nat) (order : List String) (word : List UInt16) : List String :=
  sortedOptions.filter (· ∈ (order.foldl (Nearest.considerBy measure word) ⟨farthest, []⟩).options)

theorem nearestOptions_eq (word : List UInt16) : nearestOptions word = nearestBy wordDistance longOptions word := rfl

/-- **What the search has found among the options it has seen.**  Its distance is the farthest allowed or one that was
found, and none that is near is nearer. -/
structure Best (measure : List UInt16 → List UInt16 → Nat) (word : List UInt16) (seen : List String) (best : Nearest) :
    Prop where
  attained : best.distance = farthest ∨ best.options ≠ []
  least : ∀ x ∈ seen, IsNear measure word x → best.distance ≤ measure word (units x.toList)
  mem_iff : ∀ x, x ∈ best.options ↔
    x ∈ seen ∧ IsNear measure word x ∧ measure word (units x.toList) = best.distance

theorem Best.start : Best measure word [] ⟨farthest, []⟩ := ⟨.inl rfl, by simp, by simp⟩

theorem Best.distance_le {seen : List String} {best : Nearest} (h : Best measure word seen best) :
    best.distance ≤ farthest := by
  rcases h.attained with hfar | hne
  · exact Nat.le_of_eq hfar
  · obtain ⟨x, hx⟩ := List.exists_mem_of_ne_nil _ hne
    obtain ⟨-, hnear, heq⟩ := (h.mem_iff x).1 hx
    rw [← heq]
    exact hnear.1

/-- An option that is not near, or less near than what was found, changes nothing. -/
theorem Best.skip {seen : List String} {best : Nearest} (h : Best measure word seen best)
    (hfarther : IsNear measure word option → best.distance < measure word (units option.toList)) :
    Best measure word (seen ++ [option]) best := by
  refine ⟨h.attained, List.forall_mem_append.2 ⟨h.least, ?_⟩, fun x => ?_⟩
  · rw [List.forall_mem_singleton]
    exact fun hnear => Nat.le_of_lt (hfarther hnear)
  · rw [h.mem_iff, List.mem_append, List.mem_singleton]
    constructor
    · rintro ⟨hx, hnear⟩
      exact ⟨.inl hx, hnear⟩
    · rintro ⟨hx | rfl, hnear, heq⟩
      · exact ⟨hx, hnear, heq⟩
      · exact absurd heq (Nat.ne_of_gt (hfarther hnear))

/-- An option nearer than all that was found takes its place. -/
theorem Best.replace {seen : List String} {best : Nearest} (h : Best measure word seen best)
    (hnear : IsNear measure word option) (hnearer : measure word (units option.toList) < best.distance) :
    Best measure word (seen ++ [option]) ⟨measure word (units option.toList), [option]⟩ := by
  refine ⟨.inr (List.cons_ne_nil _ _), List.forall_mem_append.2 ⟨fun x hx hnear' => ?_, ?_⟩, fun x => ?_⟩
  · exact Nat.le_trans (Nat.le_of_lt hnearer) (h.least x hx hnear')
  · rw [List.forall_mem_singleton]
    exact fun _ => Nat.le_refl _
  · rw [List.mem_append, List.mem_singleton]
    constructor
    · rintro rfl
      exact ⟨.inr rfl, hnear, rfl⟩
    · rintro ⟨hx | hx, hnear', heq⟩
      · have hleast := h.least x hx hnear'
        rw [heq] at hleast
        exact absurd hleast (Nat.not_le.2 hnearer)
      · exact hx

/-- An option as near as what was found joins it. -/
theorem Best.join {seen : List String} {best : Nearest} (h : Best measure word seen best)
    (hnear : IsNear measure word option) (heq : measure word (units option.toList) = best.distance) :
    Best measure word (seen ++ [option]) ⟨measure word (units option.toList), best.options ++ [option]⟩ := by
  refine ⟨.inr (List.concat_ne_nil _ _), List.forall_mem_append.2 ⟨?_, ?_⟩, fun x => ?_⟩
  · rw [heq]
    exact h.least
  · rw [List.forall_mem_singleton]
    exact fun _ => Nat.le_refl _
  · rw [List.mem_append, List.mem_append, List.mem_singleton, h.mem_iff, heq]
    constructor
    · rintro (⟨hx, hnear', heq'⟩ | rfl)
      · exact ⟨.inl hx, hnear', heq'⟩
      · exact ⟨.inr rfl, hnear, heq⟩
    · rintro ⟨hx | hx, hnear', heq'⟩
      · exact .inl ⟨hx, hnear', heq'⟩
      · exact .inr hx

/-- Each step of the search takes one more option into account. -/
theorem Best.considerBy {seen : List String} {best : Nearest} (h : Best measure word seen best) (option : String) :
    Best measure word (seen ++ [option]) (best.considerBy measure word option) := by
  have hle := h.distance_le
  fun_cases Nearest.considerBy measure word best option with
  | case1 d hsimilar hlt => exact h.replace (isNear_iff_similar.2 ⟨by omega, hsimilar⟩) hlt
  | case2 d hsimilar _ heq => exact h.join (isNear_iff_similar.2 ⟨by omega, hsimilar⟩) heq
  | case3 d _ hlt hne => exact h.skip fun _ => by omega
  | case4 d hsimilar => exact h.skip fun hnear => absurd (isNear_iff_similar.1 hnear).2 hsimilar

theorem Best.foldl {seen : List String} {best : Nearest} (h : Best measure word seen best) (order : List String) :
    Best measure word (seen ++ order) (order.foldl (Nearest.considerBy measure word) best) := by
  induction order generalizing seen best with
  | nil => rwa [List.append_nil]
  | cons option order ih =>
    have hstep := ih (h.considerBy option)
    rwa [List.append_assoc, List.singleton_append] at hstep

/-- What the search has found is what is nearest of all it has seen. -/
theorem Best.mem_options_iff {seen : List String} {best : Nearest} (h : Best measure word seen best) :
    option ∈ best.options ↔ IsNearest measure seen word option := by
  rw [h.mem_iff]
  constructor
  · rintro ⟨hmem, hnear, heq⟩
    exact ⟨hmem, hnear, fun other hother hnear' => heq ▸ h.least other hother hnear'⟩
  · rintro ⟨hmem, hnear, hle⟩
    refine ⟨hmem, hnear, Nat.le_antisymm ?_ (h.least option hmem hnear)⟩
    rcases h.attained with hfar | hne
    · rw [hfar]
      exact hnear.1
    · obtain ⟨other, hother⟩ := List.exists_mem_of_ne_nil _ hne
      obtain ⟨hmem', hnear', heq⟩ := (h.mem_iff other).1 hother
      rw [← heq]
      exact hle other hmem' hnear'

/-- What the search finds, whatever the measure and the order. -/
theorem mem_foldl_iff (h : Agrees measure) {order : List String} (horder : order.Perm longOptions) :
    option ∈ (order.foldl (Nearest.considerBy measure word) ⟨farthest, []⟩).options ↔
      IsNearest alignment longOptions word option := by
  have hbest : Best measure word order (order.foldl (Nearest.considerBy measure word) ⟨farthest, []⟩) :=
    Best.start.foldl order
  rw [hbest.mem_options_iff, h.isNearest_iff horder]

theorem mem_nearestOptions_iff : option ∈ nearestOptions word ↔ IsNearest alignment longOptions word option := by
  have hsorted : sortedOptions.Perm longOptions := by decide
  rw [nearestOptions_eq, nearestBy, List.mem_filter, decide_eq_true_iff,
    mem_foldl_iff agrees_wordDistance (List.Perm.refl _)]
  exact ⟨And.right, fun hnearest => ⟨hsorted.mem_iff.2 hnearest.mem, hnearest⟩⟩

theorem pairwise_nearestOptions (word : List UInt16) : (nearestOptions word).Pairwise (· < ·) := by
  have hsorted : sortedOptions.Pairwise (· < ·) := by decide
  exact List.Pairwise.filter _ hsorted

/-- **Neither the measure nor the order changes what is found.** -/
theorem nearestBy_eq (h : Agrees measure) {order : List String} (horder : order.Perm longOptions) :
    nearestBy measure order word = nearestOptions word := by
  rw [nearestOptions_eq, nearestBy, nearestBy]
  refine List.filter_congr fun option _ => ?_
  rw [decide_eq_decide, mem_foldl_iff h horder, mem_foldl_iff agrees_wordDistance (List.Perm.refl _)]

/-! ## The line below the error -/

/-- The options that a suggestion names. -/
def suggestedOptions (unknown : String) : List String :=
  match unknown.toList with
  | '-' :: '-' :: word => nearestOptions (units word)
  | _ => []

/-- **The options an unknown one may stand for**, in alphabetical order: the nearest, if it is written as a long one. -/
structure Suggests (unknown : String) (options : List String) : Prop where
  sorted : options.Pairwise (· < ·)
  mem_iff : ∀ option, option ∈ options ↔ ∃ word, unknown.toList = '-' :: '-' :: word ∧
    IsNearest alignment ["version", "verbose", "debug", "help"] (units word) option

/-- The line that suggests options, if there are any. -/
def hint : List String → List String
  | [] => []
  | [option] => ["(Did you mean --" ++ option ++ "?)"]
  | options => ["(Did you mean one of " ++ String.intercalate ", " (options.map ("--" ++ ·)) ++ "?)"]

theorem suggestedOptions_of_long {unknown : String} {word : List Char} (h : unknown.toList = '-' :: '-' :: word) :
    suggestedOptions unknown = nearestOptions (units word) := by
  unfold suggestedOptions
  rw [h]
  rfl

theorem suggestedOptions_of_not_long {unknown : String} (h : ∀ word, unknown.toList ≠ '-' :: '-' :: word) :
    suggestedOptions unknown = [] := by
  unfold suggestedOptions
  split
  case h_1 word hword => exact absurd hword (h word)
  case h_2 => rfl

theorem suggestion_eq (unknown : String) : suggestion unknown = didYouMean (suggestedOptions unknown) := by
  fun_cases suggestion unknown with
  | case1 word hword => rw [suggestedOptions_of_long hword]
  | case2 hword =>
    rw [suggestedOptions_of_not_long hword]
    rfl

theorem suggests_suggestedOptions (unknown : String) : Suggests unknown (suggestedOptions unknown) := by
  by_cases h : ∃ word, unknown.toList = '-' :: '-' :: word
  · obtain ⟨word, hword⟩ := h
    rw [suggestedOptions_of_long hword]
    refine ⟨pairwise_nearestOptions _, fun option => ?_⟩
    rw [mem_nearestOptions_iff, hword]
    simp only [List.cons.injEq, true_and, exists_eq_left']
    rfl
  · rw [suggestedOptions_of_not_long fun word hword => h ⟨word, hword⟩]
    refine ⟨List.Pairwise.nil, fun option => ?_⟩
    simp only [List.not_mem_nil, false_iff]
    rintro ⟨word, hword, -⟩
    exact h ⟨word, hword⟩

theorem joinLines_concat (lines : List String) (line : String) :
    joinLines (lines ++ [line]) = joinLines lines ++ line ++ "\n" := by
  simp [joinLines, String.append_assoc]

theorem joinLines_pair (error line : String) : joinLines [error, line] = error ++ ("\n" ++ line) ++ "\n" := by
  simp [joinLines, String.append_assoc]

/-- The suggestion stands on a line of its own below the error. -/
theorem append_didYouMean (error : String) :
    ∀ options : List String, error ++ didYouMean options ++ "\n" = joinLines (error :: hint options)
  | [] => by
    change error ++ "" ++ "\n" = joinLines [error]
    simp [joinLines]
  | [option] => by
    have hopen : "\n(Did you mean --" = "\n" ++ "(Did you mean --" := by decide
    change error ++ ("\n(Did you mean --" ++ option ++ "?)") ++ "\n" =
      joinLines [error, "(Did you mean --" ++ option ++ "?)"]
    rw [joinLines_pair, hopen]
    simp only [String.append_assoc]
  | option :: option' :: options => by
    have hopen : "\n(Did you mean one of " = "\n" ++ "(Did you mean one of " := by decide
    change error ++ ("\n(Did you mean one of " ++
        String.intercalate ", " ((option :: option' :: options).map ("--" ++ ·)) ++ "?)") ++ "\n" =
      joinLines [error, "(Did you mean one of " ++
        String.intercalate ", " ((option :: option' :: options).map ("--" ++ ·)) ++ "?)"]
    rw [joinLines_pair, hopen]
    simp only [String.append_assoc]

end Arguments

namespace Check

open Arguments
open Text (units)

/-- **What a run says about an unknown option**: the nearest options, if there are any, are suggested on a line of their
own between the error and the usage.  They do not depend on how the distance is computed, nor on the order in which the
options are gone through. -/
theorem attempt_suggests {argv : List String} {u : String} (h : Invocation.read argv = .rejected (.unknownOption u)) :
    ∃ options, Suggests u options ∧
      (∃ t, t.deliver none =
          ⟨"", joinLines (("error: unknown option '" ++ u ++ "'") :: hint options ++ [usage]), .exited 2⟩ ∧
        ∀ setting read, attempt setting argv read = .ok t) ∧
      ∀ measure ∈ [wordDistance, distance, alignment], ∀ order, order.Perm longOptions →
        ∀ word, u.toList = '-' :: '-' :: word → nearestBy measure order (units word) = options := by
  have hcheck : ∀ path flags, Invocation.read argv ≠ .check path flags := by
    intro path flags hcheck
    rw [h] at hcheck
    cases hcheck
  refine ⟨suggestedOptions u, suggests_suggestedOptions u,
    ⟨perform ⟨fun _ => none, false, false⟩ (fun _ => .ok []) (.rejected (.unknownOption u)), ?_, fun setting read => ?_⟩,
    fun measure hmeasure order horder word hword => ?_⟩
  · have hline : (Arguments.Rejection.unknownOption u).line =
        "error: unknown option '" ++ u ++ "'" ++ didYouMean (suggestedOptions u) := by
      rw [← suggestion_eq]
      rfl
    rw [deliver_rejected, refusal, hline, append_didYouMean, joinLines_concat]
  · rw [attempt_eq_run fun path flags hargv => absurd hargv (hcheck path flags), run, h]
    rfl
  · have hagrees : Agrees measure := by
      simp only [List.mem_cons, List.not_mem_nil, or_false] at hmeasure
      rcases hmeasure with rfl | rfl | rfl
      · exact agrees_wordDistance
      · exact agrees_distance
      · exact agrees_alignment
    rw [nearestBy_eq hagrees horder, suggestedOptions_of_long hword]

/-- Two options can be as near as each other; behind a flag and in front of a path they are suggested all the same. -/
theorem attempt_suggests_two : ∃ t, t.deliver none = ⟨"", joinLines ["error: unknown option '--verboin'",
      "(Did you mean one of --verbose, --version?)", usage], .exited 2⟩ ∧
    ∀ setting read, attempt setting ["-v", "--verboin", "log"] read = .ok t := by
  have hread : Invocation.read ["-v", "--verboin", "log"] = .rejected (.unknownOption "--verboin") := by decide
  obtain ⟨options, -, hrun, hany⟩ := attempt_suggests hread
  have hoptions : nearestBy alignment longOptions (units "verboin".toList) = options :=
    hany alignment (by simp) longOptions (List.Perm.refl _) _ rfl
  have hfound : nearestOptions (units "verboin".toList) = ["verbose", "version"] := by decide +kernel
  rw [nearestBy_eq agrees_alignment (List.Perm.refl _), hfound] at hoptions
  rw [← hoptions] at hrun
  exact hrun

end Check
end LogVerdict
