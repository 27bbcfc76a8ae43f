/-!
# Text.Replace — replacing words in one pass

`replaceAll` goes through a text once, from left to right.  Where one of the given words stands it writes what the word
is replaced by and goes on behind the word; what it writes is not looked at again.  For one word, `Replaces` says what
becomes of a text without a count of characters to skip.
-/
namespace LogVerdict.Text

/-- What is left to write of a text whose first `skip` characters belong to a word that is replaced already. -/
def replaceFrom (rules : List (List Char × List Char)) : (skip : Nat) → List Char → List Char
  | _, [] => []
  | skip + 1, _ :: s => replaceFrom rules skip s
  | 0, c :: s =>
    match rules.find? (·.1.isPrefixOf (c :: s)) with
    | some (old, new) => new ++ replaceFrom rules (old.length - 1) s
    | none => c :: replaceFrom rules 0 s

def replaceAll (rules : List (List Char × List Char)) (s : List Char) : List Char := replaceFrom rules 0 s

theorem replaceFrom_length_append (rules : List (List Char × List Char)) :
    ∀ (s t : List Char), replaceFrom rules s.length (s ++ t) = replaceAll rules t
  | [], t => rfl
  | c :: s, t => by
    rw [List.length_cons, List.cons_append, replaceFrom]
    exact replaceFrom_length_append rules s t

@[simp] theorem replaceAll_nil (rules : List (List Char × List Char)) : replaceAll rules [] = [] := rfl

theorem replaceAll_cons_of_find?_eq_none {rules : List (List Char × List Char)} {c : Char} {s : List Char}
    (h : rules.find? (·.1.isPrefixOf (c :: s)) = none) :
    replaceAll rules (c :: s) = c :: replaceAll rules s := by
  rw [replaceAll, replaceFrom, h]
  rfl

/-- A word at the head of a text is replaced, and the rest of the text on its own. -/
theorem replaceAll_append_of_find? {rules : List (List Char × List Char)} {old new s : List Char} (hne : old ≠ [])
    (h : rules.find? (·.1.isPrefixOf (old ++ s)) = some (old, new)) :
    replaceAll rules (old ++ s) = new ++ replaceAll rules s := by
  obtain ⟨c, r, rfl⟩ := List.exists_cons_of_ne_nil hne
  rw [List.cons_append] at h ⊢
  rw [replaceAll, replaceFrom, h]
  simp only [List.length_cons, Nat.add_sub_cancel]
  rw [replaceFrom_length_append]

/-- In a text in which no word starts nothing is replaced, whatever follows it. -/
theorem replaceAll_append_of_notMem {rules : List (List Char × List Char)} {c : Char}
    (hrules : ∀ rule ∈ rules, rule.1.head? = some c) (t : List Char) :
    ∀ {s : List Char}, c ∉ s → replaceAll rules (s ++ t) = s ++ replaceAll rules t
  | [], _ => rfl
  | d :: s, h => by
    obtain ⟨hd, hs⟩ := not_or.1 (mt List.mem_cons.2 h)
    have hnone : rules.find? (·.1.isPrefixOf (d :: (s ++ t))) = none := by
      rw [List.find?_eq_none]
      intro rule hrule hpre
      obtain ⟨r, hr⟩ := List.head?_eq_some_iff.1 (hrules rule hrule)
      rw [hr, List.isPrefixOf_iff_prefix] at hpre
      exact hd (List.cons_prefix_cons.1 hpre).1
    rw [List.cons_append, replaceAll_cons_of_find?_eq_none hnone, replaceAll_append_of_notMem hrules t hs,
      List.cons_append]

/-! ## One word -/

/-- **One word for another**: `t` is `s` with each `old` replaced by `new`, as they are met from left to right. -/
inductive Replaces (old new : List Char) : List Char → List Char → Prop
  | nil : Replaces old new [] []
  | word {s t : List Char} : Replaces old new s t → Replaces old new (old ++ s) (new ++ t)
  | char {c : Char} {s t : List Char} :
    ¬ old <+: c :: s → Replaces old new s t → Replaces old new (c :: s) (c :: t)

theorem replaceAll_word {old : List Char} (hne : old ≠ []) (new s : List Char) :
    replaceAll [(old, new)] (old ++ s) = new ++ replaceAll [(old, new)] s :=
  replaceAll_append_of_find? hne (by simp [List.isPrefixOf_iff_prefix])

theorem replaceAll_char {old : List Char} (new : List Char) {c : Char} {s : List Char} (h : ¬ old <+: c :: s) :
    replaceAll [(old, new)] (c :: s) = c :: replaceAll [(old, new)] s :=
  replaceAll_cons_of_find?_eq_none (by simpa using h)

theorem replaces_replaceAll {old : List Char} (hne : old ≠ []) (new : List Char) :
    ∀ (s : List Char), Replaces old new s (replaceAll [(old, new)] s)
  | [] => .nil
  | c :: s => by
    by_cases hpre : old <+: c :: s
    · obtain ⟨r, hr⟩ := hpre
      have hlt : r.length < (c :: s).length := by
        have hpos := List.length_pos_iff.2 hne
        rw [← hr, List.length_append]
        omega
      rw [← hr, replaceAll_word hne]
      exact .word (replaces_replaceAll hne new r)
    · rw [replaceAll_char new hpre]
      exact .char hpre (replaces_replaceAll hne new s)
termination_by s => s.length
decreasing_by
  · exact hlt
  · exact Nat.lt_succ_self _

theorem replaces_iff {old : List Char} (hne : old ≠ []) {new s t : List Char} :
    Replaces old new s t ↔ replaceAll [(old, new)] s = t := by
  constructor
  · intro h
    induction h with
    | nil => rfl
    | word _ ih => rw [replaceAll_word hne, ih]
    | char hpre _ ih => rw [replaceAll_char new hpre, ih]
  · rintro rfl
    exact replaces_replaceAll hne new s

end LogVerdict.Text
