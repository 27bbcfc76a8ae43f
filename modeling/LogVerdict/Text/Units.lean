/-!
# Text.Units — counting and cutting a text in UTF-16 code units

A character is one unit up to U+FFFF and a surrogate pair above it.  Offsets into a log, the length of an escape
sequence and the distance between two options are all measured in these units.
-/
namespace LogVerdict.Text

def width (c : Char) : Nat := if c.toNat ≤ 0xFFFF then 1 else 2

def charUnits (c : Char) : List UInt16 :=
  if c.toNat ≤ 0xFFFF then [c.toNat.toUInt16]
  else [(0xD800 + (c.toNat - 0x10000) / 0x400).toUInt16, (0xDC00 + (c.toNat - 0x10000) % 0x400).toUInt16]

def units (s : List Char) : List UInt16 := s.flatMap charUnits

def unitLength (s : List Char) : Nat := s.foldl (fun n c => n + width c) 0

/-- A text from unit `n` on; a pair that lies across the cut is left out whole. -/
def dropUnits : Nat → List Char → List Char
  | 0, s => s
  | _ + 1, [] => []
  | n + 1, c :: s => dropUnits (n + 1 - width c) s

def takeUnits : Nat → List Char → List Char
  | 0, _ => []
  | _ + 1, [] => []
  | n + 1, c :: s => c :: takeUnits (n + 1 - width c) s

theorem takeUnits_append_dropUnits : ∀ (n : Nat) (s : List Char), takeUnits n s ++ dropUnits n s = s
  | 0, s => by simp [takeUnits, dropUnits]
  | _ + 1, [] => rfl
  | n + 1, c :: s => by
    rw [takeUnits, dropUnits, List.cons_append, takeUnits_append_dropUnits _ s]

theorem notMem_dropUnits {c : Char} {s : List Char} (h : c ∉ s) (n : Nat) : c ∉ dropUnits n s := by
  rw [← takeUnits_append_dropUnits n s] at h
  exact fun hc => h (List.mem_append_right _ hc)

theorem width_pos (c : Char) : 0 < width c := by
  unfold width; split <;> omega

theorem length_charUnits (c : Char) : (charUnits c).length = width c := by
  unfold charUnits width; split <;> rfl

theorem foldl_width (s : List Char) (n : Nat) : s.foldl (fun n c => n + width c) n = n + unitLength s := by
  unfold unitLength
  induction s generalizing n with
  | nil => rfl
  | cons c s ih =>
    rw [List.foldl_cons, List.foldl_cons, ih (n + width c), ih (0 + width c)]
    omega

@[simp] theorem unitLength_nil : unitLength [] = 0 := rfl

@[simp] theorem unitLength_cons (c : Char) (s : List Char) : unitLength (c :: s) = width c + unitLength s := by
  rw [unitLength, List.foldl_cons, foldl_width]; omega

@[simp] theorem unitLength_append (s t : List Char) : unitLength (s ++ t) = unitLength s + unitLength t := by
  induction s with
  | nil => simp
  | cons c s ih => rw [List.cons_append, unitLength_cons, unitLength_cons, ih]; omega

theorem eq_nil_of_unitLength_eq_zero {s : List Char} (h : unitLength s = 0) : s = [] := by
  cases s with
  | nil => rfl
  | cons c s =>
    have hc := width_pos c
    rw [unitLength_cons] at h
    omega

theorem length_units (s : List Char) : (units s).length = unitLength s := by
  induction s with
  | nil => rfl
  | cons c s ih =>
    rw [units, List.flatMap_cons, List.length_append, length_charUnits, unitLength_cons, ← ih, units]

theorem dropUnits_unitLength_append : ∀ (s t : List Char), dropUnits (unitLength s) (s ++ t) = t
  | [], t => by rw [unitLength_nil]; cases t <;> rfl
  | c :: s, t => by
    have hw := width_pos c
    obtain ⟨n, hn⟩ : ∃ n, width c + unitLength s = n + 1 := ⟨width c + unitLength s - 1, by omega⟩
    rw [unitLength_cons, hn, List.cons_append, dropUnits, ← hn]
    rw [Nat.add_sub_cancel_left, dropUnits_unitLength_append s t]

/-- A cut that is not behind a text leaves what follows the text whole. -/
theorem dropUnits_append_of_le : ∀ {n : Nat} {s : List Char}, n ≤ unitLength s → ∀ (t : List Char),
    dropUnits n (s ++ t) = dropUnits n s ++ t
  | 0, s, _, t => by rw [dropUnits, dropUnits]
  | _ + 1, [], h, _ => absurd h (Nat.not_succ_le_zero _)
  | n + 1, c :: s, h, t => by
    rw [unitLength_cons] at h
    rw [List.cons_append, dropUnits, dropUnits, dropUnits_append_of_le (by omega)]

theorem takeUnits_unitLength_append (n : Nat) : ∀ (s t : List Char),
    takeUnits (unitLength s + n) (s ++ t) = s ++ takeUnits n t
  | [], t => by rw [unitLength_nil, Nat.zero_add]; rfl
  | c :: s, t => by
    have hw := width_pos c
    obtain ⟨m, hm⟩ : ∃ m, width c + unitLength s + n = m + 1 := ⟨width c + unitLength s + n - 1, by omega⟩
    have hrest : m + 1 - width c = unitLength s + n := by omega
    rw [unitLength_cons, hm, List.cons_append, takeUnits, hrest, takeUnits_unitLength_append n s t, List.cons_append]

theorem takeUnits_unitLength (s t : List Char) : takeUnits (unitLength s) (s ++ t) = s := by
  have hzero := takeUnits_unitLength_append 0 s t
  rwa [Nat.add_zero, takeUnits, List.append_nil] at hzero

end LogVerdict.Text
