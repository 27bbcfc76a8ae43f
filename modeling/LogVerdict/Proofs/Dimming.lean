import LogVerdict.Attempt
import LogVerdict.Proofs.Slice
import Mathlib.Data.List.Forall2
/-!
# Dimming — details that are dimmed to their end

A path may hold the sequence that ends a dimmed text, whole or in part and as often as one likes.  `Style.paint` looks
for it behind the head of the text only, but a detail starts with a label that is longer than that, so every one is
found (`Style.paint_of_label`).  Each sequence begins with an escape and has no other one, so none comes about where
what is written meets what is kept: in what `Replaces` makes of a text every closing sequence is a written one
(`Replaces.followed`), and the reverse replacement gives the text back (`Replaces.undo`).
-/
namespace LogVerdict
namespace Text

/-! ## Marked words -/

/-- **Two marked words that are told apart**: each has the mark at its head and nowhere else, and neither is the head of
the other. -/
structure ToldApart (e : Char) (on off : List Char) : Prop where
  on_notMem : e ∉ on
  off_notMem : e ∉ off
  not_off_prefix : ¬ off <+: on
  not_on_prefix : ¬ on <+: off

theorem ToldApart.not_prefix_append {e : Char} {on off : List Char} (h : ToldApart e on off) (s : List Char) :
    ¬ off <+: on ++ s := by
  intro hpre
  rcases List.prefix_or_prefix_of_prefix hpre (List.prefix_append on s) with hoff | hon
  · exact h.not_off_prefix hoff
  · exact h.not_on_prefix hon

/-- A marked place in a text that starts with a marked word is at its head or behind the word. -/
theorem eq_nil_or_exists_append {e : Char} {s t u v : List Char} (hs : e ∉ s) (h : e :: s ++ t = u ++ e :: v) :
    (u = [] ∧ s ++ t = v) ∨ ∃ r, u = e :: s ++ r ∧ t = r ++ e :: v := by
  cases u with
  | nil => exact .inl ⟨rfl, (List.cons.inj h).2⟩
  | cons d u =>
    obtain ⟨rfl, hu⟩ := List.cons.inj h
    obtain ⟨r, rfl, ht⟩ := exists_append_of_notMem hs hu
    exact .inr ⟨r, rfl, ht⟩

/-! ## Marked words that are replaced -/

namespace Replaces

variable {e : Char} {on off new s t : List Char}

/-- Up to the next mark a text is what replacing makes of it. -/
theorem prefix_iff {w : List Char} (hw : e ∉ w) (hnew : new.head? = some e) (h : Replaces (e :: off) new s t) :
    w <+: t ↔ w <+: s := by
  induction h generalizing w with
  | nil => rfl
  | @word s t _ _ =>
    obtain ⟨new, rfl⟩ := List.head?_eq_some_iff.1 hnew
    cases w with
    | nil => simp
    | cons d w =>
      have hd : d ≠ e := (List.ne_of_not_mem_cons hw).symm
      simp [List.cons_prefix_cons, hd]
  | @char c s t _ _ ih =>
    cases w with
    | nil => simp
    | cons d w => rw [List.cons_prefix_cons, List.cons_prefix_cons, ih (List.not_mem_of_not_mem_cons hw)]

/-- Where a letter is kept, what is written behind it does not make it the head of a word. -/
theorem not_prefix_cons {c : Char} {more : List Char} (hoff : e ∉ off) (hpre : ¬ e :: off <+: c :: s)
    (h : Replaces (e :: off) (e :: off ++ more) s t) : ¬ e :: off <+: c :: t := by
  intro hword
  obtain ⟨rfl, hoff'⟩ := List.cons_prefix_cons.1 hword
  exact hpre (List.cons_prefix_cons.2 ⟨rfl, (h.prefix_iff hoff rfl).1 hoff'⟩)

/-- **Replacing a marked word by more than itself is undone by the reverse replacement.** -/
theorem undo {more : List Char} (hoff : e ∉ off) (h : Replaces (e :: off) (e :: off ++ more) s t) :
    Replaces (e :: off ++ more) (e :: off) t s := by
  induction h with
  | nil => exact .nil
  | word _ ih => exact .word ih
  | @char c s t hpre h ih =>
    refine .char (fun hmore => ?_) ih
    exact h.not_prefix_cons hoff hpre ((List.prefix_append _ more).trans hmore)

/-- **A word that is found in what replacing made of a text was written there**, so what was written with it follows,
unless the word lies behind the text. -/
theorem followed {v a b : List Char} (hapart : ToldApart e on off) (h : Replaces (e :: off) (e :: off ++ e :: on) s t)
    (hab : t ++ e :: v = a ++ e :: (off ++ b)) : e :: on <+: b ∨ t <+: a := by
  induction h generalizing a with
  | nil => exact .inr List.nil_prefix
  | @word s t _ ih =>
    rw [List.append_assoc, List.append_assoc] at hab
    rcases eq_nil_or_exists_append hapart.off_notMem hab with ⟨-, hb⟩ | ⟨a, rfl, ha⟩
    · rw [← List.append_cancel_left hb]
      exact .inl (List.prefix_append _ _)
    · rcases eq_nil_or_exists_append hapart.on_notMem ha with ⟨-, hb⟩ | ⟨a', rfl, ha'⟩
      · exact absurd ⟨b, hb.symm⟩ (hapart.not_prefix_append _)
      · refine (ih ha').imp_right fun hpre => ?_
        rwa [List.append_assoc, List.prefix_append_right_inj, List.prefix_append_right_inj]
  | @char c s t hpre h ih =>
    cases a with
    | nil =>
      -- the word ends before the mark behind the text, so a kept letter would be its head
      obtain ⟨rfl, hb⟩ := List.cons.inj hab
      have hoff : off <+: t := (prefix_append_cons_iff hapart.off_notMem).1 ⟨b, hb.symm⟩
      exact absurd (List.cons_prefix_cons.2 ⟨rfl, hoff⟩) (h.not_prefix_cons hapart.off_notMem hpre)
    | cons d a =>
      obtain ⟨rfl, ha⟩ := List.cons.inj hab
      exact (ih ha).imp_right fun hpre => List.cons_prefix_cons.2 ⟨rfl, hpre⟩

end Replaces
end Text

/-! ## Styles that last -/

open Text (Replaces ToldApart replaceAll unitLength)

/-- **A style that lasts.**  An entry is put between what turns the style on and what turns it off.  Anywhere else that
it is turned off it is turned on again at once, and without that the entry says the line. -/
structure Lasts (on off line entry : List Char) : Prop where
  framed : ∃ inner, entry = on ++ (inner ++ off) ∧ replaceAll [(off ++ on, off)] inner = line
  reopened : ∀ a b, entry = a ++ (off ++ b) → b = [] ∨ on <+: b

theorem Text.Replaces.lasts {e : Char} {on off s t : List Char} (hapart : ToldApart e on off)
    (h : Replaces (e :: off) (e :: off ++ e :: on) s t) : Lasts (e :: on) (e :: off) s (e :: on ++ (t ++ e :: off)) := by
  have hundo : replaceAll [(e :: off ++ e :: on, e :: off)] t = s :=
    (Text.replaces_iff (List.cons_ne_nil _ _)).1 (h.undo hapart.off_notMem)
  refine ⟨⟨t, rfl, hundo⟩, fun a b hab => ?_⟩
  have hplace : e :: on ++ (t ++ e :: off) = a ++ e :: (off ++ b) := hab
  rcases Text.eq_nil_or_exists_append hapart.on_notMem hplace with ⟨-, hb⟩ | ⟨a, rfl, ha⟩
  · exact absurd ⟨b, hb.symm⟩ (hapart.not_prefix_append _)
  · rcases h.followed hapart ha with hb | ⟨a, rfl⟩
    · exact .inr hb
    · have hlength := congrArg List.length ha
      simp only [List.length_append, List.length_cons] at hlength
      exact .inl (List.eq_nil_of_length_eq_zero (by omega))

namespace Style

/-- **Behind a label all that would end the style is replaced**: the head of the text, which is kept as it is, lies in
the label. -/
theorem paint_of_label (style : Style) {label : List Char} (hlen : unitLength style.opening ≤ unitLength label)
    (hlabel : '\x1b' ∉ label) (s : List Char) :
    style.paint (label ++ s)
      = style.opening ++ (replaceAll [(style.closing, style.reopening)] (label ++ s) ++ style.closing) := by
  have hrest := Text.dropUnits_append_of_le hlen s
  have hsplit := Text.takeUnits_append_dropUnits (unitLength style.opening) (label ++ s)
  rw [hrest, ← List.append_assoc] at hsplit
  have hhead := List.append_cancel_right hsplit
  unfold paint
  simp only [hrest]
  rw [style.replaceAll_closing_append (Text.notMem_dropUnits hlabel _), style.replaceAll_closing_append hlabel,
    List.append_assoc, ← List.append_assoc (Text.takeUnits _ _), hhead, List.append_assoc]

/-- What turns a style on and what turns it off are told apart. -/
theorem exists_toldApart (style : Style) :
    ∃ on off, style.opening = '\x1b' :: on ∧ style.closing = '\x1b' :: off ∧ ToldApart '\x1b' on off := by
  cases style <;> exact ⟨_, _, rfl, rfl, by decide, by decide, by decide, by decide⟩

/-- **Behind a label an intensity lasts**, whatever follows the label. -/
theorem lasts_paint {style : Style} (hstyle : style.reopening = style.closing ++ style.opening) {label : List Char}
    (hlen : unitLength style.opening ≤ unitLength label) (hlabel : '\x1b' ∉ label) (s : List Char) :
    Lasts style.opening style.closing (label ++ s) (style.paint (label ++ s)) := by
  obtain ⟨on, off, hopening, hclosing, hapart⟩ := style.exists_toldApart
  have hreplaced := Text.replaces_replaceAll (List.cons_ne_nil '\x1b' off) ('\x1b' :: off ++ '\x1b' :: on) (label ++ s)
  rw [style.paint_of_label hlen hlabel, hstyle, hopening, hclosing]
  exact hreplaced.lasts hapart

/-- Without a label a sequence at the head of the text ends the style. -/
example : ¬ Lasts dim.opening dim.closing dim.closing (dim.paint dim.closing) := by
  intro h
  have hends := h.reopened dim.opening dim.closing (by decide)
  revert hends
  decide

end Style

/-! ## Details -/

namespace Check

open Arguments (Invocation)

/-- **An entry that shows a line dimmed**, from its start to its end. -/
def ShowsDimmed (line entry : String) : Prop := Lasts "\x1b[2m".toList "\x1b[22m".toList line.toList entry.toList

theorem showsDimmed_debugLine (detail : String) : ShowsDimmed ("debug: " ++ detail) (Report.debugLine true detail) := by
  have hopening : "\x1b[2m".toList = Style.dim.opening := by decide
  have hclosing : "\x1b[22m".toList = Style.dim.closing := by decide
  have hstyle : Style.dim.reopening = Style.dim.closing ++ Style.dim.opening := rfl
  have hlen : unitLength Style.dim.opening ≤ unitLength "debug: ".toList := by decide
  unfold ShowsDimmed
  rw [hopening, hclosing, Report.debugLine, Style.toList_paintIf, if_pos rfl, String.toList_append]
  exact Style.lasts_paint hstyle hlen (by decide) detail.toList

/-- With colour each detail of an outcome is one entry that shows it dimmed. -/
theorem forall₂_showsDimmed (o : Outcome) :
    List.Forall₂ ShowsDimmed ((Report.details o).map ("debug: " ++ ·)) ((Report.details o).map (Report.debugLine true)) := by
  rw [List.forall₂_map_left_iff, List.forall₂_map_right_iff, List.forall₂_same]
  exact fun detail _ => showsDimmed_debugLine detail

/-- **The details of a check are dimmed to their end**, whatever the outcome is and whatever sequences the path holds:
whole or cut short, one behind the other, at the head or at the end.  With colour, a run that tells details writes each
of them as one entry, which the sequence for dimmed text starts and the one that ends it ends.  Anywhere else that the
ending sequence stands in the entry the starting one follows it, and without these the entry says the detail.  No path
is left out, not even one that has the two sequences one behind the other itself. -/
theorem attempt_dims :
    (∀ o : Outcome, ∃ entries, debugWrites ⟨true, true⟩ o = Write.lines .err entries ∧
      List.Forall₂ ShowsDimmed ((Report.details o).map ("debug: " ++ ·)) entries) ∧
    ∀ env interactive argv path flags (read : String → Reading), Invocation.read argv = .check path flags →
      read path ≠ .error "" →
      let o := Outcome.ofReading path (read path)
      ∃ entries, List.Forall₂ ShowsDimmed ((Report.details o).map ("debug: " ++ ·)) entries ∧
        attempt ⟨env, true, interactive⟩ argv read = .ok
          ⟨announcement interactive path ++
            ((if (Options.resolve flags env true).verbose then Write.lines .err entries else []) ++
              reportWrites true o), o.exitCode⟩ := by
  refine ⟨fun o => ⟨_, rfl, forall₂_showsDimmed o⟩, fun env interactive argv path flags read hargv hread => ?_⟩
  refine ⟨_, forall₂_showsDimmed _, ?_⟩
  rw [attempt_of_coded hargv hread, run, hargv]
  rfl

/-- A path with the ending sequence twice in a row, and then one that is cut short. -/
theorem attempt_dims_cut :
    let path := "\x1b[22m\x1b[22mlog\x1b[22"
    ∃ entry, ShowsDimmed ("debug: could not read " ++ path ++ " (ENOENT)") entry ∧
      attempt ⟨.ofList [], true, false⟩ ["-v", path] (fun _ => .error "ENOENT") = .ok
        ⟨Write.lines .err [entry] ++ reportWrites true (.fileMissing path .notFound (some "ENOENT")), 2⟩ := by
  intro path
  have hargv : Invocation.read ["-v", path] = .check path { verbose := true } := by
    unfold path
    decide
  obtain ⟨entries, hentries, hattempt⟩ :=
    attempt_dims.2 (.ofList []) false ["-v", path] path _ (fun _ => .error "ENOENT") hargv (by simp)
  have hdetails : List.Forall₂ ShowsDimmed ["debug: could not read " ++ path ++ " (ENOENT)"] entries := hentries
  obtain ⟨entry, rest, hentry, hrest, rfl⟩ := List.forall₂_cons_left_iff.1 hdetails
  cases hrest
  exact ⟨entry, hentry, hattempt⟩

end Check
end LogVerdict
