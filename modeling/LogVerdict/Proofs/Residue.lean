import LogVerdict.Proofs.ArgumentForms
/-!
# Residue — a command line without its bundles

What is left of an argument when the short flags in front are taken off (`residue`) decides what the argument means
(`read_meaning`).  So a command line can be sorted without taking it apart step by step: the residues before the
terminator that are no flags (`words`) give its operands up to the first option, and everything from there on is not
understood (`exists_ofArguments`).
-/
namespace LogVerdict
namespace Arguments

open Text (unitLength)

/-- What follows a dash, without the short flags in front of anything else. -/
def behindBundle : List Char → List Char
  | 'v' :: c :: body => behindBundle (c :: body)
  | body => body

/-- **What is left of an argument** when each short flag in front of something else is taken off. -/
def residue (a : String) : String :=
  match a.toList with
  | '-' :: body => String.ofList ('-' :: behindBundle body)
  | _ => a

def flagNames : List String := ["-v", "--verbose", "--debug"]

/-- A residue that asks for the version. -/
def AsksVersion (r : String) : Prop := r = "-V" ∨ r = "--version" ∨ "-V".toList <+: r.toList

instance (a : String) : Decidable (IsPlain a) := inferInstanceAs (Decidable (_ ∨ _))

instance (r : String) : Decidable (AsksVersion r) := inferInstanceAs (Decidable (_ ∨ _ ∨ _))

def Meaning.ofResidue (r : String) : Meaning :=
  if r = "--" then .terminator
  else if r ∈ flagNames then .flags
  else if AsksVersion r then .version
  else if IsPlain r then .operand
  else .unknown r

theorem behindBundle_of_head {body : List Char} (h : body.head? ≠ some 'v') : behindBundle body = body := by
  fun_cases behindBundle body <;> simp_all

theorem length_behindBundle_le (body : List Char) : (behindBundle body).length ≤ body.length := by
  fun_induction behindBundle body with
  | case1 c body ih => exact Nat.le_succ_of_le ih
  | case2 body => exact Nat.le_refl _

theorem behindBundle_behindBundle (body : List Char) : behindBundle (behindBundle body) = behindBundle body := by
  fun_induction behindBundle body with
  | case1 c body ih => exact ih
  | case2 body hbody =>
    unfold behindBundle
    split
    · exact absurd rfl (hbody _ _)
    · rfl

theorem toList_residue {a : String} {body : List Char} (h : a.toList = '-' :: body) :
    (residue a).toList = '-' :: behindBundle body := by
  simp [residue, h]

theorem not_isPlain {a : String} {c : Char} {body : List Char} (h : a.toList = '-' :: c :: body) : ¬ IsPlain a := by
  have hdash := Text.width_pos '-'
  have hc := Text.width_pos c
  rw [IsPlain, h, Text.unitLength_cons, Text.unitLength_cons]
  simp only [List.head?_cons, ne_eq, not_true_eq_false, or_false]
  omega

theorem ofResidue_version {r : String} {body : List Char} (h : r.toList = '-' :: 'V' :: body) :
    Meaning.ofResidue r = .version := by
  simp [Meaning.ofResidue, flagNames, AsksVersion, ← String.toList_inj, h]

theorem ofResidue_unknown {r : String} {c : Char} {body : List Char} (h : r.toList = '-' :: c :: body) (hV : c ≠ 'V')
    (hknown : ∀ a ∈ ["--", "-v", "--verbose", "--debug", "--version"], r ≠ a) :
    Meaning.ofResidue r = .unknown r := by
  have hplain := not_isPlain h
  have hprefix : ¬ "-V".toList <+: r.toList := by simp [h, hV.symm]
  have hshort : r ≠ "-V" := by
    rintro rfl
    exact hprefix (List.prefix_refl _)
  simp only [List.forall_mem_cons] at hknown
  simp_all [Meaning.ofResidue, flagNames, AsksVersion]

theorem ofDashed_meaning (flags : Flags) (body : List Char) {r : String} (h : r.toList = '-' :: behindBundle body) :
    (Argument.ofDashed flags body).meaning = .ofResidue r := by
  have hr := congrArg String.ofList h
  rw [String.ofList_toList] at hr
  fun_induction Argument.ofDashed flags body with
  | case1 =>
    rw [hr]
    rfl
  | case2 =>
    rw [hr]
    rfl
  | case3 =>
    rw [hr]
    rfl
  | case4 flags c body ih => exact ih h hr
  | case5 flags body => exact (ofResidue_version h).symm
  | case6 =>
    rw [hr]
    rfl
  | case7 =>
    rw [hr]
    rfl
  | case8 =>
    rw [hr]
    rfl
  | case9 flags body hnil hdash hv hbundle hV hverbose hdebug hversion =>
    obtain ⟨c, body, rfl⟩ := List.exists_cons_of_ne_nil hnil
    have hhead : (c :: body).head? ≠ some 'v' := by
      cases body with
      | nil => simpa using hv
      | cons d body => simpa using hbundle d body
    rw [behindBundle_of_head hhead] at h hr
    rw [ofResidue_unknown h (by simpa using hV), ← hr]
    simp only [List.forall_mem_cons, ne_eq, ← String.toList_inj, h]
    simp_all

theorem IsPlain.ofResidue_eq {r : String} (h : IsPlain r) : Meaning.ofResidue r = .operand := by
  have hname : ∀ a ∈ ["--", "-v", "--verbose", "--debug", "-V", "--version"], r ≠ a := by
    intro a ha hr
    rw [hr] at h
    have hnot : ∀ a ∈ ["--", "-v", "--verbose", "--debug", "-V", "--version"], ¬ IsPlain a := by decide
    exact hnot a ha h
  have hprefix : ¬ "-V".toList <+: r.toList := by
    intro hr
    obtain ⟨body, hbody⟩ := hr
    exact not_isPlain hbody.symm h
  simp only [List.forall_mem_cons] at hname
  simp_all [Meaning.ofResidue, flagNames, AsksVersion]

theorem IsPlain.residue_eq {a : String} (h : IsPlain a) : residue a = a := by
  unfold residue
  split
  · rename_i body hbody
    cases body with
    | nil =>
      change String.ofList ['-'] = a
      rw [← hbody, String.ofList_toList]
    | cons c body => exact absurd h (not_isPlain hbody)
  · rfl

/-- **An argument means what its residue means.** -/
theorem read_meaning (a : String) : (Argument.read a).meaning = .ofResidue (residue a) := by
  by_cases h : a.toList.head? = some '-'
  · obtain ⟨body, hbody⟩ := List.head?_eq_some_iff.1 h
    rw [Argument.read_of_toList hbody]
    exact ofDashed_meaning {} body (toList_residue hbody)
  · have hplain : IsPlain a := .inr h
    rw [hplain.read_eq, hplain.residue_eq, hplain.ofResidue_eq]

theorem residue_residue (a : String) : residue (residue a) = residue a := by
  by_cases h : a.toList.head? = some '-'
  · obtain ⟨body, hbody⟩ := List.head?_eq_some_iff.1 h
    have hresidue := toList_residue hbody
    rw [← String.toList_inj, toList_residue hresidue, hresidue, behindBundle_behindBundle]
  · have hplain : IsPlain a := .inr h
    rw [hplain.residue_eq, hplain.residue_eq]

/-- What is left of an argument sets no flag unless it is one. -/
theorem flags_read_of_residue_eq {a : String} (h : residue a = a) (hflag : a ∉ flagNames) :
    (Argument.read a).flags = {} := by
  by_cases hdash : a.toList.head? = some '-'
  · obtain ⟨body, hbody⟩ := List.head?_eq_some_iff.1 hdash
    have hresidue := toList_residue hbody
    rw [h, hbody, List.cons.injEq] at hresidue
    have hname : ∀ f ∈ flagNames, '-' :: body ≠ f.toList := by
      intro f hf heq
      rw [← hbody, String.toList_inj] at heq
      exact hflag (heq ▸ hf)
    rw [Argument.read_of_toList hbody]
    fun_cases Argument.ofDashed {} body with
    | case1 => rfl
    | case2 => rfl
    | case3 => exact absurd rfl (hname "-v" (by decide))
    | case4 c body =>
      have hle := length_behindBundle_le (c :: body)
      rw [behindBundle] at hresidue
      rw [← hresidue.2, List.length_cons] at hle
      omega
    | case5 => rfl
    | case6 => exact absurd rfl (hname "--verbose" (by decide))
    | case7 => exact absurd rfl (hname "--debug" (by decide))
    | case8 => rfl
    | case9 => rfl
  · have hplain : IsPlain a := .inr hdash
    rw [hplain.read_eq]

/-- An argument has the form that goes with what it means. -/
theorem meaning_cases (a : String) :
    (IsPlain a ∧ (Argument.read a).meaning = .operand) ∨ (IsFlag a ∧ (Argument.read a).meaning = .flags) ∨
      (IsTerminator a ∧ (Argument.read a).meaning = .terminator) ∨ (Argument.read a).meaning = .version ∨
      ∃ option, (Argument.read a).meaning = .unknown option := by
  rcases Argument.read_cases a with h | h | h | h
  · exact .inl ⟨h, by rw [h.read_eq]⟩
  · obtain ⟨flags, hread, -⟩ := h.read_eq
    exact .inr (.inl ⟨h, by rw [hread]⟩)
  · obtain ⟨flags, hread, -⟩ := h.read_eq
    exact .inr (.inr (.inl ⟨h, by rw [hread]⟩))
  · exact .inr (.inr (.inr h))

theorem isPlain_of_isPlain_residue {a : String} (h : IsPlain (residue a)) : IsPlain a := by
  have hmeaning := (read_meaning a).trans h.ofResidue_eq
  rcases meaning_cases a with ⟨ha, -⟩ | ⟨-, ha⟩ | ⟨-, ha⟩ | ha | ⟨option, ha⟩ <;> simp_all

theorem eq_of_ofResidue_eq_terminator {r : String} : Meaning.ofResidue r = .terminator → r = "--" := by
  fun_cases Meaning.ofResidue r <;> simp_all

theorem isTerminator_iff {a : String} : IsTerminator a ↔ residue a = "--" := by
  constructor
  · intro h
    obtain ⟨flags, hread, -⟩ := h.read_eq
    apply eq_of_ofResidue_eq_terminator
    rw [← read_meaning, hread]
  · intro h
    have hmeaning : (Argument.read a).meaning = .terminator := by
      rw [read_meaning, h]
      rfl
    rcases meaning_cases a with ⟨-, ha⟩ | ⟨-, ha⟩ | ⟨ha, -⟩ | ha | ⟨option, ha⟩ <;> simp_all

/-! ## Sorting a command line -/

/-- The residues in front of the terminator that are no flags. -/
def words (argv : List String) : List String :=
  ((argv.takeWhile (residue · ≠ "--")).map residue).filter (· ∉ flagNames)

/-- What follows the terminator, if there is one. -/
def behindTerminator (argv : List String) : Option (List String) := (argv.dropWhile (residue · ≠ "--")).tail?

/-- The terminator, as it is written where it is not understood, and what follows it. -/
def rest (argv : List String) : List String := (behindTerminator argv).elim [] ("--" :: ·)

/-- **What is not understood**: the words from the first option on, and the terminator and all that follows it. -/
def unknownArguments (argv : List String) : List String :=
  match (words argv).dropWhile (IsPlain ·) with
  | [] => []
  | u :: us => u :: us ++ rest argv

/-- **The operands**: the words in front of the first option, and what follows the terminator if no option comes. -/
def operands (argv : List String) : List String :=
  (words argv).takeWhile (IsPlain ·) ++ if unknownArguments argv = [] then (behindTerminator argv).getD [] else []

def WantsVersion (argv : List String) : Prop := ∃ r ∈ words argv, AsksVersion r

instance (argv : List String) : Decidable (WantsVersion argv) := inferInstanceAs (Decidable (∃ r ∈ _, _))

theorem words_of_terminator {a : String} (argv : List String) (h : residue a = "--") : words (a :: argv) = [] := by
  simp [words, h]

theorem behindTerminator_of_terminator {a : String} (argv : List String) (h : residue a = "--") :
    behindTerminator (a :: argv) = some argv := by
  simp [behindTerminator, h]

theorem words_cons {a : String} (argv : List String) (h : residue a ≠ "--") :
    words (a :: argv) = if residue a ∈ flagNames then words argv else residue a :: words argv := by
  simp [words, h, List.filter_cons]

theorem behindTerminator_cons {a : String} (argv : List String) (h : residue a ≠ "--") :
    behindTerminator (a :: argv) = behindTerminator argv := by
  simp [behindTerminator, h]

/-- How an argument in front joins what follows it, by what it means. -/
inductive Joins (a : String) (argv : List String) : Meaning → Prop
  | terminator : words (a :: argv) = [] → behindTerminator (a :: argv) = some argv → Joins a argv .terminator
  | flags : words (a :: argv) = words argv → behindTerminator (a :: argv) = behindTerminator argv →
    Joins a argv .flags
  | version {r : String} : AsksVersion r → words (a :: argv) = r :: words argv → Joins a argv .version
  | operand : IsPlain a → ¬ AsksVersion a → words (a :: argv) = a :: words argv →
    behindTerminator (a :: argv) = behindTerminator argv → Joins a argv .operand
  | unknown {r : String} : ¬ IsPlain r → ¬ AsksVersion r → words (a :: argv) = r :: words argv →
    behindTerminator (a :: argv) = behindTerminator argv → Joins a argv (.unknown r)

theorem joins (a : String) (argv : List String) : Joins a argv (Argument.read a).meaning := by
  rw [read_meaning]
  unfold Meaning.ofResidue
  by_cases hterminator : residue a = "--"
  · rw [if_pos hterminator]
    exact .terminator (words_of_terminator argv hterminator) (behindTerminator_of_terminator argv hterminator)
  have hwords := words_cons argv hterminator
  have hbehind := behindTerminator_cons argv hterminator
  rw [if_neg hterminator]
  by_cases hflag : residue a ∈ flagNames
  · rw [if_pos hflag] at hwords ⊢
    exact .flags hwords hbehind
  rw [if_neg hflag] at hwords ⊢
  by_cases hversion : AsksVersion (residue a)
  · rw [if_pos hversion]
    exact .version hversion hwords
  rw [if_neg hversion]
  by_cases hplain : IsPlain (residue a)
  · have ha := isPlain_of_isPlain_residue hplain
    rw [if_pos hplain]
    rw [ha.residue_eq] at hversion hwords
    exact .operand ha hversion hwords hbehind
  · rw [if_neg hplain]
    exact .unknown hplain hversion hwords hbehind

theorem rest_congr {argv argv' : List String} (h : behindTerminator argv' = behindTerminator argv) :
    rest argv' = rest argv := by
  unfold rest
  rw [h]

theorem sorting_of_words_eq {argv argv' : List String} (hwords : words argv' = words argv)
    (hbehind : behindTerminator argv' = behindTerminator argv) :
    (WantsVersion argv' ↔ WantsVersion argv) ∧ unknownArguments argv' = unknownArguments argv ∧
      operands argv' = operands argv := by
  have hunknown : unknownArguments argv' = unknownArguments argv := by
    unfold unknownArguments
    rw [hwords, rest_congr hbehind]
  refine ⟨?_, hunknown, ?_⟩
  · unfold WantsVersion
    rw [hwords]
  · unfold operands
    rw [hwords, hbehind, hunknown]

theorem sorting_of_plain {a : String} {argv : List String} (h : IsPlain a)
    (hwords : words (a :: argv) = a :: words argv) (hbehind : behindTerminator (a :: argv) = behindTerminator argv) :
    unknownArguments (a :: argv) = unknownArguments argv ∧ operands (a :: argv) = a :: operands argv := by
  have hunknown : unknownArguments (a :: argv) = unknownArguments argv := by
    unfold unknownArguments
    rw [hwords, rest_congr hbehind, List.dropWhile_cons_of_pos (by simpa using h)]
  refine ⟨hunknown, ?_⟩
  unfold operands
  rw [hunknown, hwords, hbehind, List.takeWhile_cons_of_pos (by simpa using h), List.cons_append]

theorem sorting_of_option {r : String} {ws argv : List String} (h : ¬ IsPlain r) (hwords : words argv = r :: ws) :
    unknownArguments argv = r :: ws ++ rest argv ∧ operands argv = [] := by
  simp [unknownArguments, operands, hwords, h]

theorem wantsVersion_cons {r : String} {argv argv' : List String} (h : words argv' = r :: words argv) :
    WantsVersion argv' ↔ AsksVersion r ∨ WantsVersion argv := by
  simp [WantsVersion, h]

theorem ofArguments_of_wantsVersion : ∀ {argv : List String} (late : Bool), WantsVersion argv →
    CommandLine.ofArguments late argv = none
  | [], _, h => by
    obtain ⟨r, hr, -⟩ := h
    cases hr
  | a :: argv, late, h => by
    have hjoins := joins a argv
    rw [CommandLine.ofArguments]
    generalize (Argument.read a).meaning = meaning at hjoins ⊢
    cases hjoins with
    | terminator hwords hbehind =>
      obtain ⟨r, hr, -⟩ := h
      rw [hwords] at hr
      cases hr
    | flags hwords hbehind =>
      have hargv := (sorting_of_words_eq hwords hbehind).1.1 h
      rw [ofArguments_of_wantsVersion late hargv]
      rfl
    | version hversion hwords => rfl
    | operand hplain hversion hwords hbehind =>
      have hargv := ((wantsVersion_cons hwords).1 h).resolve_left hversion
      rw [ofArguments_of_wantsVersion late hargv]
      rfl
    | unknown hoption hversion hwords hbehind =>
      have hargv := ((wantsVersion_cons hwords).1 h).resolve_left hversion
      rw [ofArguments_of_wantsVersion true hargv]
      rfl

/-- Behind an option, everything but the flags is not understood. -/
theorem exists_ofArguments_late : ∀ {argv : List String}, ¬ WantsVersion argv →
    ∃ flags, CommandLine.ofArguments true argv = some ⟨flags, [], words argv ++ rest argv⟩
  | [], _ => ⟨{}, rfl⟩
  | a :: argv, h => by
    have hjoins := joins a argv
    rw [CommandLine.ofArguments]
    generalize (Argument.read a).meaning = meaning at hjoins ⊢
    cases hjoins with
    | terminator hwords hbehind =>
      rw [hwords, rest, hbehind]
      exact ⟨_, rfl⟩
    | flags hwords hbehind =>
      rw [(sorting_of_words_eq hwords hbehind).1] at h
      obtain ⟨flags, hargv⟩ := exists_ofArguments_late h
      rw [hargv, hwords, rest_congr hbehind]
      exact ⟨_, rfl⟩
    | version hversion hwords => exact absurd ((wantsVersion_cons hwords).2 (.inl hversion)) h
    | operand hplain hversion hwords hbehind =>
      rw [wantsVersion_cons hwords, not_or] at h
      obtain ⟨flags, hargv⟩ := exists_ofArguments_late h.2
      rw [hargv, hwords, rest_congr hbehind]
      exact ⟨_, rfl⟩
    | unknown hoption hversion hwords hbehind =>
      rw [wantsVersion_cons hwords, not_or] at h
      obtain ⟨flags, hargv⟩ := exists_ofArguments_late h.2
      rw [hargv, hwords, rest_congr hbehind]
      exact ⟨_, rfl⟩

/-- **A command line sorted by its words.** -/
theorem exists_ofArguments : ∀ {argv : List String}, ¬ WantsVersion argv →
    ∃ flags, CommandLine.ofArguments false argv = some ⟨flags, operands argv, unknownArguments argv⟩
  | [], _ => ⟨{}, rfl⟩
  | a :: argv, h => by
    have hjoins := joins a argv
    rw [CommandLine.ofArguments]
    generalize (Argument.read a).meaning = meaning at hjoins ⊢
    cases hjoins with
    | terminator hwords hbehind =>
      have hunknown : unknownArguments (a :: argv) = [] := by simp [unknownArguments, hwords]
      rw [operands, hunknown, hwords, hbehind]
      exact ⟨_, rfl⟩
    | flags hwords hbehind =>
      obtain ⟨hversion, hunknown, hoperands⟩ := sorting_of_words_eq hwords hbehind
      rw [hversion] at h
      obtain ⟨flags, hargv⟩ := exists_ofArguments h
      rw [hargv, hunknown, hoperands]
      exact ⟨_, rfl⟩
    | version hversion hwords => exact absurd ((wantsVersion_cons hwords).2 (.inl hversion)) h
    | operand hplain hversion hwords hbehind =>
      obtain ⟨hunknown, hoperands⟩ := sorting_of_plain hplain hwords hbehind
      rw [wantsVersion_cons hwords, not_or] at h
      obtain ⟨flags, hargv⟩ := exists_ofArguments h.2
      rw [hargv, hunknown, hoperands]
      exact ⟨_, rfl⟩
    | unknown hoption hversion hwords hbehind =>
      obtain ⟨hunknown, hoperands⟩ := sorting_of_option hoption hwords
      rw [wantsVersion_cons hwords, not_or] at h
      obtain ⟨flags, hargv⟩ := exists_ofArguments_late h.2
      rw [hargv, hunknown, hoperands, rest_congr hbehind]
      exact ⟨_, rfl⟩

end Arguments
end LogVerdict
