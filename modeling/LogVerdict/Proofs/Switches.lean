import LogVerdict.Options
import LogVerdict.Proofs.Decoding
import LogVerdict.Text.Run
import Mathlib.Data.List.DropRight
/-!
# Switches — which values turn a variable on

A value counts by what is left when the blanks at both its ends are taken off (`Trims`, `trims_iff`).  Of what is left,
only the case of ASCII letters is overlooked: lower-casing reaches all of Unicode, but it takes no character beyond ASCII
to a letter that tells "false" or "0" from anything else (`mem_lowerChar`, `lowerCase_eq_iff`).  So details are told for
a flag, or for a variable whose value is neither empty nor "0" nor a spelling of "false" (`resolve_by_value`).
-/
namespace LogVerdict

namespace Text

/-! ## Specification -/

/-- **What is left of a text without the blanks at both ends.** -/
structure Trims (s core : List Char) : Prop where
  around : ∃ before after, s = before ++ (core ++ after) ∧ ∀ c ∈ before ++ after, isBlank c = true
  first : ∀ c ∈ core.head?, isBlank c = false
  last : ∀ c ∈ core.getLast?, isBlank c = false

/-- Two texts that differ in the case of ASCII letters only. -/
def SameLetters (s t : List Char) : Prop := s.map Char.toLower = t.map Char.toLower

instance (s t : List Char) : Decidable (SameLetters s t) := inferInstanceAs (Decidable (_ = _))

/-! ## Trimming -/

/-- Trimming leaves what is between the blanks. -/
theorem Trims.trim_eq {s core : List Char} (h : Trims s core) : trim s = core := by
  obtain ⟨⟨before, after, rfl, hblank⟩, hfirst, hlast⟩ := h
  rw [List.forall_mem_append] at hblank
  have hafter : ∀ c ∈ after.reverse, isBlank c = true := by simpa using hblank.2
  rw [trim, List.dropWhile_append_of_pos hblank.1]
  cases core with
  | nil =>
    have hnone : after.dropWhile isBlank = [] := List.dropWhile_eq_nil_iff.2 hblank.2
    rw [List.nil_append, hnone]
    rfl
  | cons c core =>
    have hstops : StopsAt isBlank (c :: core).reverse := by
      intro d hd
      rw [List.head?_reverse] at hd
      exact hlast d hd
    rw [dropWhile_of_stopsAt (stopsAt_of_head rfl (hfirst c rfl)), trimEnd, List.reverse_append,
      List.dropWhile_append_of_pos hafter, dropWhile_of_stopsAt hstops, List.reverse_reverse]

theorem trims_trim (s : List Char) : Trims s (trim s) := by
  have htrim : trim s = (s.dropWhile isBlank).rdropWhile isBlank := rfl
  have hrest : (s.dropWhile isBlank).rdropWhile isBlank ++ (s.dropWhile isBlank).rtakeWhile isBlank
      = s.dropWhile isBlank := List.rdropWhile_append_rtakeWhile
  rw [htrim]
  refine ⟨⟨s.takeWhile isBlank, (s.dropWhile isBlank).rtakeWhile isBlank, ?_, ?_⟩, fun c hc => ?_, fun c hc => ?_⟩
  · rw [hrest, List.takeWhile_append_dropWhile]
  · rw [List.forall_mem_append]
    exact ⟨fun c hc => List.mem_takeWhile_imp hc, fun c hc => List.mem_rtakeWhile_imp hc⟩
  · have hhead : c ∈ (s.dropWhile isBlank).head? := by
      rw [← hrest, List.head?_append, Option.mem_def.1 hc]
      rfl
    exact stopsAt_dropWhile isBlank s c hhead
  · obtain ⟨hne, hlast⟩ := List.mem_getLast?_eq_getLast hc
    rw [Bool.eq_false_iff, hlast]
    exact List.rdropWhile_last_not isBlank _ hne

theorem trims_iff {s core : List Char} : Trims s core ↔ trim s = core := by
  constructor
  · exact Trims.trim_eq
  · rintro rfl
    exact trims_trim s

/-- Blanks around a text are taken off with its own. -/
theorem Trims.blanks_append {s core before after : List Char} (h : Trims s core)
    (hblank : ∀ c ∈ before ++ after, isBlank c = true) : Trims (before ++ (s ++ after)) core := by
  obtain ⟨⟨before', after', rfl, hblank'⟩, hfirst, hlast⟩ := h
  refine ⟨⟨before ++ before', after' ++ after, by simp only [List.append_assoc], ?_⟩, hfirst, hlast⟩
  simp only [List.forall_mem_append] at hblank hblank' ⊢
  exact ⟨⟨hblank.1, hblank'.1⟩, hblank'.2, hblank.2⟩

/-! ## Lower-casing -/

theorem ascii_lower : ∀ n < 0x80, lowerChar (Char.ofNat n) = [(Char.ofNat n).toLower] ∧
    isBlank (Char.ofNat n).toLower = isBlank (Char.ofNat n) := by
  decide +kernel

theorem lowerChar_of_ascii {c : Char} (h : c.toNat < 0x80) : lowerChar c = [c.toLower] := by
  have hc := (ascii_lower c.toNat h).1
  rwa [Char.ofNat_toNat] at hc

theorem toLower_of_wide {c : Char} (h : 0x80 ≤ c.toNat) : c.toLower = c := by
  have hupper : ¬ (c.val ≥ 'A'.val ∧ c.val ≤ 'Z'.val) := by
    rintro ⟨-, hlast⟩
    have : c.toNat ≤ 'Z'.toNat := UInt32.le_iff_toNat_le.1 hlast
    have : 'Z'.toNat < 0x80 := by decide
    omega
  exact dif_neg hupper

theorem isBlank_toLower (c : Char) : isBlank c.toLower = isBlank c := by
  by_cases h : c.toNat < 0x80
  · have hc := (ascii_lower c.toNat h).2
    rwa [Char.ofNat_toNat] at hc
  · rw [toLower_of_wide (by omega)]

/-- Where the table of lower-case forms leads from beyond ASCII: beyond ASCII, but for one sign that is a letter "k". -/
theorem caseRanges_wide : ∀ r ∈ caseRanges, r.last < 0x80 ∨ (r.first = r.last ∧ r.lower = 'k'.toNat) ∨
    (0x80 ≤ r.lower ∧ (r.lower + (r.last - r.first) < 0xD800 ∨
      (0xDFFF < r.lower ∧ r.lower + (r.last - r.first) < 0x110000))) := by
  decide +kernel

/-- **No character beyond ASCII has a lower-case form in ASCII**, but for those that have an "i" or a "k" in it. -/
theorem mem_lowerChar {c d : Char} (hc : 0x80 ≤ c.toNat) (hd : d ∈ lowerChar c) :
    d = 'i' ∨ d = 'k' ∨ 0x80 ≤ d.toNat := by
  unfold lowerChar at hd
  split at hd
  case isTrue =>
    rcases List.mem_pair.1 hd with rfl | rfl
    · exact Or.inl rfl
    · exact Or.inr (Or.inr (by decide))
  case isFalse =>
    split at hd
    case h_2 =>
      rw [List.mem_singleton.1 hd]
      exact Or.inr (Or.inr hc)
    case h_1 r hr =>
      have hcovers := List.find?_some hr
      simp only [CaseRange.covers, Bool.and_eq_true, decide_eq_true_eq] at hcovers
      obtain ⟨⟨hfirst, hlast⟩, -⟩ := hcovers
      have hd := List.mem_singleton.1 hd
      rcases caseRanges_wide r (List.mem_of_find?_eq_some hr) with hascii | ⟨hone, hk⟩ | ⟨hlower, hvalid⟩
      · omega
      · have hat : r.lower + (c.toNat - r.first) = 'k'.toNat := by omega
        rw [hat, Char.ofNat_toNat] at hd
        exact Or.inr (Or.inl hd)
      · right; right
        rw [hd, Utf8.toNat_charOfNat (by omega)]
        omega

theorem lowerChar_ne_nil (c : Char) : lowerChar c ≠ [] := by
  unfold lowerChar
  split
  · exact List.cons_ne_nil _ _
  · split
    · exact List.cons_ne_nil _ _
    · exact List.cons_ne_nil _ _

/-- **Lower-casing gives a word exactly if the ASCII letters do**, for a word in ASCII without "i" and "k". -/
theorem lowerCase_eq_iff : ∀ {s word : List Char}, (∀ d ∈ word, d.toNat < 0x80 ∧ d ≠ 'i' ∧ d ≠ 'k') →
    (lowerCase s = word ↔ s.map Char.toLower = word)
  | [], _, _ => Iff.rfl
  | c :: s, word, h => by
    have hcons : lowerCase (c :: s) = lowerChar c ++ lowerCase s := List.flatMap_cons
    by_cases hc : c.toNat < 0x80
    · rw [hcons, lowerChar_of_ascii hc, List.singleton_append, List.map_cons]
      cases word with
      | nil => simp
      | cons w word =>
        rw [List.cons.injEq, List.cons.injEq, lowerCase_eq_iff fun d hd => h d (List.mem_cons_of_mem _ hd)]
    · -- no word in ASCII starts with a form of this character, nor with the character itself
      have hwide : 0x80 ≤ c.toNat := by omega
      constructor
      · rintro rfl
        obtain ⟨d, hd⟩ := List.exists_mem_of_ne_nil _ (lowerChar_ne_nil c)
        have hword : d ∈ lowerCase (c :: s) := hcons ▸ List.mem_append_left _ hd
        have := h d hword
        rcases mem_lowerChar hwide hd with hi | hk | hfar
        · exact absurd hi this.2.1
        · exact absurd hk this.2.2
        · omega
      · rintro rfl
        have hhead : c ∈ (c :: s).map Char.toLower := by simp [toLower_of_wide hwide]
        have := (h c hhead).1
        omega

theorem map_toLower_trim (s : List Char) : (trim s).map Char.toLower = trim (s.map Char.toLower) := by
  have hblank : isBlank ∘ Char.toLower = isBlank := funext isBlank_toLower
  have hdrop : ∀ t : List Char, (t.map Char.toLower).dropWhile isBlank = (t.dropWhile isBlank).map Char.toLower := by
    intro t
    rw [List.dropWhile_map, hblank]
  rw [trim, trim, trimEnd, trimEnd, hdrop, ← List.map_reverse, hdrop, List.map_reverse]

/-- Texts in the same letters are trimmed to texts in the same letters. -/
theorem SameLetters.trim {s t : List Char} (h : SameLetters s t) : SameLetters (Text.trim s) (Text.trim t) := by
  rw [SameLetters, map_toLower_trim, map_toLower_trim, h]

theorem toLower_eq_zero_iff {c : Char} : c.toLower = '0' ↔ c = '0' := by
  have hascii : ∀ n < 0x80, (Char.ofNat n).toLower = '0' ↔ Char.ofNat n = '0' := by decide +kernel
  by_cases h : c.toNat < 0x80
  · have hc := hascii c.toNat h
    rwa [Char.ofNat_toNat] at hc
  · rw [toLower_of_wide (by omega)]

end Text

open Text

/-! ## Specification of the switches -/

/-- **A value that turns a variable on**: between the blanks at its ends there is something, but neither "0" nor
"false" in capital or small letters. -/
def TurnsOn (value : String) : Prop :=
  ∃ core, Trims value.toList core ∧ core ≠ [] ∧ core ≠ ['0'] ∧ ¬ SameLetters core "false".toList

/-- The variables that ask for details. -/
def switches : List String := ["UNITY_SUMMARY_DEBUG", "DEBUG"]

/-- **A value written another way**, if there is one: in capital or small letters, and with blanks around it. -/
inductive Restyled : Option String → Option String → Prop
  | unset : Restyled none none
  | set {value : String} {letters before after : List Char} (hletters : SameLetters letters value.toList)
      (hblank : ∀ c ∈ before ++ after, isBlank c = true) :
      Restyled (some value) (some (String.ofList (before ++ (letters ++ after))))

/-! ## What turns a variable on -/

/-- What turns a variable on is told by its value trimmed and in small ASCII letters. -/
theorem isOn_iff_small {value : String} : isOn value = true ↔
    (trim value.toList).map Char.toLower ≠ [] ∧ (trim value.toList).map Char.toLower ≠ ['0'] ∧
      (trim value.toList).map Char.toLower ≠ "false".toList := by
  have hplain : ∀ word ∈ [[], ['0'], "false".toList], ∀ d ∈ word, d.toNat < 0x80 ∧ d ≠ 'i' ∧ d ≠ 'k' := by simp
  have hsmall : ∀ word ∈ [[], ['0'], "false".toList], lowerCase (trim value.toList) ≠ word ↔
      (trim value.toList).map Char.toLower ≠ word := fun word hword =>
    not_congr (lowerCase_eq_iff (hplain word hword))
  rw [← hsmall [] (by simp), ← hsmall ['0'] (by simp), ← hsmall "false".toList (by simp)]
  simp only [isOn, Bool.and_eq_true, bne_iff_ne, and_assoc]
  rfl

theorem isOn_iff {value : String} : isOn value = true ↔ TurnsOn value := by
  have hzero : (trim value.toList).map Char.toLower = ['0'] ↔ trim value.toList = ['0'] := by
    simp only [List.map_eq_singleton_iff, toLower_eq_zero_iff, exists_eq_right]
  rw [isOn_iff_small, ne_eq, ne_eq, hzero, List.map_eq_nil_iff]
  simp only [TurnsOn, trims_iff, exists_eq_left']
  rfl

/-- However a value is written, it turns the same on. -/
theorem any_isOn_restyled {value value' : Option String} (h : Restyled value value') :
    value'.any isOn = value.any isOn := by
  cases h with
  | unset => rfl
  | @set value letters before after hletters hblank =>
    have hcore : Trims (before ++ (letters ++ after)) (trim letters) := (trims_trim letters).blanks_append hblank
    have hsame : (trim letters).map Char.toLower = (trim value.toList).map Char.toLower := hletters.trim
    rw [Option.any_some, Option.any_some, Bool.eq_iff_iff, isOn_iff_small, isOn_iff_small, String.toList_ofList,
      hcore.trim_eq, hsame]

/-! ## The theorem -/

namespace Options

/-- **Details are told for a flag or for a variable that is on**, and for nothing else; colour is left as it was.  How a
value is written changes nothing, and no character beyond ASCII stands for a letter of "false". -/
theorem resolve_by_value (flags : Flags) (env : Environment) (color : Bool) :
    ((resolve flags env color).verbose = true ↔
        flags.verbose = true ∨ flags.debug = true ∨ ∃ name ∈ switches, ∃ value, env name = some value ∧ TurnsOn value) ∧
      (resolve flags env color).color = color ∧
      (∀ env', (∀ name ∈ switches, Restyled (env name) (env' name)) →
        resolve flags env' color = resolve flags env color) ∧
      ∀ c, 0x80 ≤ c.toNat → ∀ d ∈ lowerChar c, d ∉ "false".toList := by
  refine ⟨?_, rfl, fun env' h => ?_, fun c hc d hd hword => ?_⟩
  · have hon : ∀ name, env.turnsOn name = true ↔ ∃ value, env name = some value ∧ TurnsOn value := by
      intro name
      simp only [Environment.turnsOn, Option.any_eq_true, isOn_iff]
    simp only [resolve, switches, Bool.or_eq_true, or_assoc, hon, List.exists_mem_cons_iff, List.not_mem_nil, false_and,
      exists_false, or_false]
  · have hon : ∀ name ∈ switches, env'.turnsOn name = env.turnsOn name := fun name hname =>
      any_isOn_restyled (h name hname)
    rw [resolve, resolve, hon "UNITY_SUMMARY_DEBUG" (by decide), hon "DEBUG" (by decide)]
  · have hplain : ∀ d ∈ "false".toList, d ≠ 'i' ∧ d ≠ 'k' ∧ d.toNat < 0x80 := by simp
    obtain ⟨hi, hk, hascii⟩ := hplain d hword
    rcases mem_lowerChar hc hd with hd | hd | hd
    · exact hi hd
    · exact hk hd
    · omega

/-- A "false" in mixed letters between a tab and a no-break space does not turn a variable on. -/
theorem resolve_by_value_padded :
    (resolve {} (Environment.ofList [("DEBUG", "\tFaLsE\u00a0")]) true) =
        resolve {} (Environment.ofList [("DEBUG", "false")]) true ∧
      ∀ d ∈ lowerChar '\u017f', d ∉ "false".toList := by
  obtain ⟨-, -, hstyle, hfold⟩ := resolve_by_value {} (Environment.ofList [("DEBUG", "false")]) true
  refine ⟨hstyle _ fun name hname => ?_, hfold '\u017f' (by decide)⟩
  rcases List.mem_pair.1 hname with rfl | rfl
  · exact Restyled.unset
  · exact @Restyled.set "false" "FaLsE".toList ['\t'] ['\u00a0'] (by decide) (List.all_eq_true.1 (by decide))

end Options

end LogVerdict
