/-!
# Arguments.Distance — how far apart two words are

The distance of two words is the least number of insertions, deletions, substitutions and swaps of neighbours that
leads from one to the other, where no part of a word is changed twice (`alignment`).  `distance` computes it row by row,
one row for each tail of the first word (`distance_eq_alignment`).
-/
namespace LogVerdict.Arguments

/-- The least of what is left after each way to treat the heads of two words: delete one, insert the other, keep or
substitute. -/
def leastEdit {α : Type} [DecidableEq α] (x y : α) (delete insert keep : Nat) : Nat :=
  min (min (delete + 1) (insert + 1)) (keep + if x = y then 0 else 1)

/-- The lesser of an edit and a swap of the first two characters, `x x'` against `y y'`, where a swap is possible. -/
def orSwap {α : Type} [DecidableEq α] (x y : α) (edit : Nat) : Option (α × α × Nat) → Nat
  | none => edit
  | some (x', y', after) => if x = y' ∧ x' = y then min edit (after + 1) else edit

/-- The distance of two words by its rule: an edit at the head, or a swap of the first two characters. -/
def alignment {α : Type} [DecidableEq α] : List α → List α → Nat
  | [], t => t.length
  | _ :: s, [] => s.length + 1
  | x :: s, y :: t =>
    orSwap x y (leastEdit x y (alignment s (y :: t)) (alignment (x :: s) t) (alignment s t))
      (match s, t with
        | x' :: s, y' :: t => some (x', y', alignment s t)
        | _, _ => none)
termination_by s t => s.length + t.length

def row {α : Type} (f : List α → Nat) : List α → List Nat
  | [] => [f []]
  | y :: t => f (y :: t) :: row f t

/-- The row of a word that starts with `x`, from the row of what follows.  For a swap it also needs the character that
follows and the row of what comes after that. -/
def nextRow {α : Type} [DecidableEq α] (x : α) : (swap : Option (α × List Nat)) → List α → List Nat → List Nat
  | _, [], below => [below.headD 0 + 1]
  | swap, y :: t, below =>
    let rest := nextRow x (swap.map fun p => (p.1, p.2.tail)) t below.tail
    orSwap x y (leastEdit x y (below.headD 0) (rest.headD 0) (below.tail.headD 0))
      (swap.bind fun p => t.head?.map fun y' => (p.1, y', p.2.tail.tail.headD 0)) :: rest

def lastRow {α : Type} [DecidableEq α] : List α → List α → List Nat × Option (α × List Nat)
  | [], t => (row List.length t, none)
  | x :: s, t => (nextRow x (lastRow s t).2 t (lastRow s t).1, some (x, (lastRow s t).1))

def distance {α : Type} [DecidableEq α] (s t : List α) : Nat := (lastRow s t).1.headD 0

theorem headD_row {α : Type} (f : List α → Nat) (t : List α) : (row f t).headD 0 = f t := by cases t <;> rfl

theorem tail_row {α : Type} (f : List α → Nat) (y : α) (t : List α) : (row f (y :: t)).tail = row f t := rfl

def swapRow {α : Type} [DecidableEq α] (s t : List α) : Option (α × List Nat) :=
  s.head?.map fun x => (x, row (alignment s.tail) t)

theorem alignment_nil_left {α : Type} [DecidableEq α] (t : List α) : alignment [] t = t.length := by rw [alignment]

theorem alignment_nil_right {α : Type} [DecidableEq α] (s : List α) : alignment s [] = s.length := by
  cases s <;> simp [alignment]

theorem nextRow_eq {α : Type} [DecidableEq α] (x : α) (s : List α) : ∀ (t : List α),
    nextRow x (swapRow s t) t (row (alignment s) t) = row (alignment (x :: s)) t
  | [] => by
    simp [nextRow, row, alignment_nil_right]
  | y :: t => by
    have hswap : (swapRow s (y :: t)).map (fun p => (p.1, p.2.tail)) = swapRow s t := by
      cases s <;> rfl
    rw [nextRow, hswap, tail_row, nextRow_eq x s t, headD_row, headD_row, headD_row, row]
    cases s with
    | nil => simp [swapRow, alignment]
    | cons x' s =>
      cases t with
      | nil => simp [alignment]
      | cons y' t =>
        simp only [swapRow, List.head?_cons, List.tail_cons, Option.map_some, Option.bind_some, tail_row, headD_row]
        rw [alignment]

theorem lastRow_eq {α : Type} [DecidableEq α] : ∀ (s t : List α), lastRow s t = (row (alignment s) t, swapRow s t)
  | [], t => by
    have h : (alignment ([] : List α)) = List.length := funext alignment_nil_left
    rw [lastRow, h]
    rfl
  | x :: s, t => by
    rw [lastRow, lastRow_eq s t, nextRow_eq]
    rfl

/-- Row by row the distance is the one its rule gives. -/
theorem distance_eq_alignment {α : Type} [DecidableEq α] (s t : List α) : distance s t = alignment s t := by
  rw [distance, lastRow_eq, headD_row]

end LogVerdict.Arguments
