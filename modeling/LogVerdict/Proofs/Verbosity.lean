import LogVerdict.Proofs.Precedence
/-!
# Verbosity — what telling details changes

Flags and the environment decide whether a check tells details, and nothing else.  Two command lines that differ in flags
only (`SameButFlags`) ask for the same (`read_sameButFlags`), so the exit code and standard output of their runs agree,
in any two environments; and on standard error the details stand as one block between what is said before the log is
read and the report (`attempt_sameButFlags`).  Each command line has one with no flags at all to be held against
(`withoutFlags`).
-/
namespace LogVerdict

namespace Arguments

/-- **Two command lines that differ in flags only**: they have the same words, and the same follows the terminator. -/
structure SameButFlags (argv argv' : List String) : Prop where
  words : words argv' = words argv
  behind : behindTerminator argv' = behindTerminator argv

theorem SameButFlags.refl (argv : List String) : SameButFlags argv argv := ⟨rfl, rfl⟩

theorem SameButFlags.flag {f : String} {argv argv' : List String} (h : SameButFlags argv argv')
    (hne : residue f ≠ "--") (hflag : residue f ∈ flagNames) : SameButFlags argv (f :: argv') := by
  refine ⟨?_, ?_⟩
  · rw [words_cons argv' hne, if_pos hflag, h.words]
  · rw [behindTerminator_cons argv' hne, h.behind]

theorem SameButFlags.cons {a a' : String} {argv argv' : List String} (h : SameButFlags argv argv')
    (hne : residue a ≠ "--") (hsame : residue a' = residue a) : SameButFlags (a :: argv) (a' :: argv') := by
  have hne' : residue a' ≠ "--" := by rwa [hsame]
  refine ⟨?_, ?_⟩
  · rw [words_cons argv hne, words_cons argv' hne', hsame, h.words]
  · rw [behindTerminator_cons argv hne, behindTerminator_cons argv' hne', h.behind]

/-- Flags may be put anywhere but behind the terminator. -/
theorem sameButFlags_insert {fs : List String} (post : List String) (hfs : ∀ f ∈ fs, f ∈ flagNames) :
    ∀ {pre : List String}, (∀ a ∈ pre, ¬ IsTerminator a) → SameButFlags (pre ++ post) (pre ++ (fs ++ post))
  | [], _ => by
    have hresidue : ∀ f ∈ flagNames, residue f ≠ "--" ∧ residue f ∈ flagNames := by decide
    induction fs with
    | nil => exact .refl post
    | cons f fs ih =>
      rw [List.forall_mem_cons] at hfs
      obtain ⟨hne, hflag⟩ := hresidue f hfs.1
      exact (ih hfs.2).flag hne hflag
  | a :: pre, hpre => by
    rw [List.forall_mem_cons, isTerminator_iff] at hpre
    exact (sameButFlags_insert post hfs hpre.2).cons hpre.1 rfl

/-- What is asked for is the same but for the flags of a check. -/
theorem read_sameButFlags {argv argv' : List String} (h : SameButFlags argv argv') :
    (Invocation.read argv' = Invocation.read argv ∧ ∀ path flags, Invocation.read argv ≠ .check path flags) ∨
      ∃ path flags flags', Invocation.read argv = .check path flags ∧ Invocation.read argv' = .check path flags' := by
  obtain ⟨hversion, hunknown, hoperands⟩ := sorting_of_words_eq h.words h.behind
  by_cases hasks : WantsVersion argv
  · left
    rw [Invocation.read_of_wantsVersion hasks, Invocation.read_of_wantsVersion (hversion.2 hasks)]
    exact ⟨rfl, nofun⟩
  obtain ⟨flags, hread⟩ := Invocation.exists_read_eq hasks
  obtain ⟨flags', hread'⟩ := Invocation.exists_read_eq (mt hversion.1 hasks)
  rw [hread, hread', hunknown, hoperands]
  unfold Invocation.ofCommandLine
  simp only
  split
  · exact .inl ⟨rfl, nofun⟩
  · split
    · exact .inl ⟨rfl, nofun⟩
    · exact .inl ⟨rfl, nofun⟩
    · exact .inr ⟨_, _, _, rfl, rfl⟩
    · exact .inl ⟨rfl, nofun⟩

/-! ## Without flags -/

/-- **A command line without its flags**: its words, the terminator, and what follows it. -/
def withoutFlags (argv : List String) : List String := words argv ++ rest argv

/-- How what is without flags goes on with an argument in front. -/
theorem withoutFlags_cons (a : String) (argv : List String) :
    (residue a = "--" ∧ withoutFlags (a :: argv) = "--" :: argv) ∨
      (residue a ≠ "--" ∧ residue a ∈ flagNames ∧ withoutFlags (a :: argv) = withoutFlags argv) ∨
      (residue a ≠ "--" ∧ residue a ∉ flagNames ∧ withoutFlags (a :: argv) = residue a :: withoutFlags argv) := by
  by_cases hterminator : residue a = "--"
  · refine .inl ⟨hterminator, ?_⟩
    simp [withoutFlags, rest, words_of_terminator argv hterminator, behindTerminator_of_terminator argv hterminator]
  · have hrest := rest_congr (behindTerminator_cons argv hterminator)
    by_cases hflag : residue a ∈ flagNames
    · refine .inr (.inl ⟨hterminator, hflag, ?_⟩)
      rw [withoutFlags, words_cons argv hterminator, if_pos hflag, hrest, withoutFlags]
    · refine .inr (.inr ⟨hterminator, hflag, ?_⟩)
      rw [withoutFlags, words_cons argv hterminator, if_neg hflag, hrest, withoutFlags, List.cons_append]

theorem sameButFlags_withoutFlags : ∀ (argv : List String), SameButFlags (withoutFlags argv) argv
  | [] => .refl []
  | a :: argv => by
    have hargv := sameButFlags_withoutFlags argv
    rcases withoutFlags_cons a argv with ⟨h, heq⟩ | ⟨h, hflag, heq⟩ | ⟨h, -, heq⟩
    · have hterminator : residue "--" = "--" := by decide
      rw [heq]
      refine ⟨?_, ?_⟩
      · rw [words_of_terminator argv h, words_of_terminator argv hterminator]
      · rw [behindTerminator_of_terminator argv h, behindTerminator_of_terminator argv hterminator]
    · rw [heq]
      exact hargv.flag h hflag
    · have hsame := residue_residue a
      rw [heq]
      exact hargv.cons (by rwa [hsame]) hsame.symm

theorem flags_setFlags (l : CommandLine) : (l.setFlags {}).flags = l.flags := by
  simp [CommandLine.setFlags, Flags.join]

theorem flags_put (l : CommandLine) (late : Bool) (a : String) : (l.put late a).flags = l.flags := by
  cases late <;> rfl

theorem flags_ofArguments_withoutFlags : ∀ {argv : List String} {late : Bool} {l : CommandLine},
    CommandLine.ofArguments late (withoutFlags argv) = some l → l.flags = {}
  | [], _, l, h => by
    cases h
    rfl
  | a :: argv, late, l, h => by
    rcases withoutFlags_cons a argv with ⟨-, heq⟩ | ⟨-, -, heq⟩ | ⟨-, hflag, heq⟩
    · rw [heq] at h
      cases late <;> cases h <;> rfl
    · rw [heq] at h
      exact flags_ofArguments_withoutFlags h
    · have hflags := flags_read_of_residue_eq (residue_residue a) hflag
      rw [heq, CommandLine.ofArguments] at h
      simp only [hflags] at h
      split at h
      · cases h
      · cases late <;> cases h <;> rfl
      · obtain ⟨l', hl', rfl⟩ := Option.map_eq_some_iff.1 h
        rw [flags_setFlags, flags_ofArguments_withoutFlags hl']
      · obtain ⟨l', hl', rfl⟩ := Option.map_eq_some_iff.1 h
        rw [flags_put, flags_ofArguments_withoutFlags hl']
      · obtain ⟨l', hl', rfl⟩ := Option.map_eq_some_iff.1 h
        rw [flags_setFlags, flags_put, flags_ofArguments_withoutFlags hl']

theorem flags_read_withoutFlags {argv : List String} {path : String} {flags : Flags}
    (h : Invocation.read (withoutFlags argv) = .check path flags) : flags = {} :=
  flags_ofArguments_withoutFlags (Invocation.read_eq_check_iff.1 h)

end Arguments
namespace Check

open Arguments (Invocation IsTerminator SameButFlags withoutFlags)

/-- How many details there are to tell of an outcome. -/
def detailCount : Outcome → Nat
  | .completed .. | .summaryNotFound .. => 2
  | .fileMissing .. => 1
  | .invalidArguments .. => 0

theorem length_details (o : Outcome) : (Report.details o).length = detailCount o := by
  cases o <;> rfl

/-- One text, and the same with lines put in between two parts of it. -/
structure PutIn (lines : List String) (before after text text' : String) : Prop where
  without : text = before ++ after
  within : text' = before ++ (joinLines lines ++ after)

/-- **Verbosity decides nothing**: flags put in anywhere but behind the terminator, and any change of the environment,
leave the exit code and standard output as they are.  A run without a check is the same in all it does, and tells no
details.  A check whose log cannot be read and that has no code for it breaks off in both runs.  In any other check the
details of the outcome stand as one block on standard error where they are told, between what is said before the log is
read and the report: an entry for each, with "debug: " in front of it, and dimmed where there is colour.  And every
command line has another one without flags to be held against. -/
theorem attempt_sameButFlags (setting : Setting) (env' : Environment) (read : String → Reading) :
    (∀ pre fs post : List String, (∀ a ∈ pre, ¬ IsTerminator a) → (∀ f ∈ fs, f ∈ ["-v", "--verbose", "--debug"]) →
      SameButFlags (pre ++ post) (pre ++ (fs ++ post))) ∧
    (∀ argv, SameButFlags (withoutFlags argv) argv ∧
      ∀ path flags, Invocation.read (withoutFlags argv) = .check path flags → flags = {}) ∧
    ∀ argv argv', SameButFlags argv argv' →
      let quiet := (attempt setting argv read).map (·.deliver none)
      let loud := (attempt { setting with environment := env' } argv' read).map (·.deliver none)
      ((∀ path flags, Invocation.read argv ≠ .check path flags) → ∃ d, quiet = .ok d ∧ loud = .ok d) ∧
      ∀ path flags, Invocation.read argv = .check path flags →
        let o := Outcome.ofReading path (read path)
        let entries := (Report.details o).map fun detail => Style.dim.paintIf setting.color ("debug: " ++ detail)
        ∃ flags', Invocation.read argv' = .check path flags' ∧ entries.length = detailCount o ∧
          (read path = .error "" → quiet = .error .uncoded ∧ loud = .error .uncoded) ∧
          (read path ≠ .error "" → ∃ d d', quiet = .ok d ∧ loud = .ok d' ∧ d'.out = d.out ∧ d'.ending = d.ending ∧
            let tells := (Options.resolve flags setting.environment setting.color).verbose
            let tells' := (Options.resolve flags' env' setting.color).verbose
            (tells' = tells → d'.err = d.err) ∧
            (tells = false → tells' = true → PutIn entries
              (if setting.interactive then "- Reading " ++ path ++ "\n" else "")
              (joinLines (Report.ofOutcome setting.color o).err) d.err d'.err)) := by
  refine ⟨fun pre fs post hpre hfs => Arguments.sameButFlags_insert post hfs hpre, fun argv => ?_, fun argv argv' h => ?_⟩
  · exact ⟨Arguments.sameButFlags_withoutFlags argv, fun path flags h => Arguments.flags_read_withoutFlags h⟩
  intro quiet loud
  rcases Arguments.read_sameButFlags h with ⟨hsame, hread⟩ | ⟨path, flags, flags', hargv, hargv'⟩
  · have hrun : run { setting with environment := env' } argv' read = run setting argv read := by
      unfold run
      rw [hsame]
      exact perform_of_ne_check hread _ _ _ _
    have hread' : ∀ path flags, Invocation.read argv' ≠ .check path flags := by rwa [hsame]
    refine ⟨fun _ => ⟨(run setting argv read).deliver none, ?_, ?_⟩, fun path flags hargv => ?_⟩
    · unfold quiet
      rw [attempt_of_ne_check hread]
      rfl
    · unfold loud
      rw [attempt_of_ne_check hread', hrun]
      rfl
    · exact absurd hargv (hread path flags)
  · refine ⟨fun hnone => absurd hargv (hnone path flags), fun path' flags'' hcheck => ?_⟩
    rw [hargv] at hcheck
    cases hcheck
    have hlength := length_details (Outcome.ofReading path (read path))
    refine ⟨flags', hargv', by rwa [List.length_map], fun huncoded => ⟨?_, ?_⟩, fun hcoded => ?_⟩
    · unfold quiet
      rw [attempt_of_uncoded hargv huncoded]
      rfl
    · unfold loud
      rw [attempt_of_uncoded hargv' huncoded]
      rfl
    · have hquiet := delivered_of_coded setting hargv hcoded
      have hloud := delivered_of_coded { setting with environment := env' } hargv' hcoded
      rw [deliver_perform_check] at hquiet hloud
      refine ⟨_, _, hquiet, hloud, rfl, rfl, fun hsame => ?_, fun hfalse htrue => ⟨?_, ?_⟩⟩
      · simp only [hsame]
      · simp only [hfalse, Bool.false_eq_true, if_false, String.empty_append]
      · simp only [htrue, if_true]
        rfl

/-- A flag in front of the path tells the two details of a log with one summary line, dimmed. -/
theorem attempt_sameButFlags_completed :
    let read : String → Reading := fun _ => .ok (Text.Utf8.encode "1 Tests 0 Failures 0 Ignored".toList)
    ∃ d d', (attempt ⟨.ofList [], true, true⟩ ["log"] read).map (·.deliver none) = .ok d ∧
      (attempt ⟨.ofList [], true, true⟩ ["--debug", "log"] read).map (·.deliver none) = .ok d' ∧
      d'.out = d.out ∧ d'.ending = d.ending ∧
      d.err = "- Reading log\n" ∧
      d'.err = "- Reading log\n" ++ "\x1b[2mdebug: read 28 bytes from log\x1b[22m\n" ++
        "\x1b[2mdebug: found 1 summary line, using the one at offset 0\x1b[22m\n" := by
  intro read
  have houtcome : Outcome.ofReading "log" (read "log") = .completed .allPassed "log" ⟨⟨1, 0, 0⟩, 1, 0⟩ 28 := by
    decide +kernel
  obtain ⟨hinsert, -, hruns⟩ := attempt_sameButFlags ⟨.ofList [], true, true⟩ (.ofList []) read
  obtain ⟨-, hcheck⟩ := hruns _ _ (hinsert [] ["--debug"] ["log"] (by simp) (by simp))
  obtain ⟨flags', hargv', -, -, hcoded⟩ := hcheck "log" {} rfl
  have hflags : flags' = { debug := true } := by
    have hasked : Invocation.read ["--debug", "log"] = .check "log" { debug := true } := by decide
    cases hasked.symm.trans hargv'
    rfl
  obtain ⟨d, d', hquiet, hloud, hout, hending, -, hblock⟩ := hcoded nofun
  obtain ⟨hwithout, hwithin⟩ := hblock (by decide) (by rw [hflags]; decide)
  rw [houtcome] at hwithout hwithin
  refine ⟨d, d', hquiet, hloud, hout, hending, ?_, ?_⟩
  · rw [hwithout]
    decide
  · rw [hwithin]
    decide

end Check
end LogVerdict
