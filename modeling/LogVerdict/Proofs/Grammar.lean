import LogVerdict.Attempt
import LogVerdict.Proofs.ArgumentForms
/-!
# Grammar — the command lines that ask for a check

`Splits` goes through a command line argument by argument and sorts it into options and operands; a command line is
taken apart without anything unknown exactly if it splits (`splits_of_ofArguments`, `Splits.ofArguments`).  A check is
asked for by those with one operand, and these have one of three shapes (`Accepts`): flags around a plain argument, the
same with a terminator behind it all, or flags and a terminator in front of an argument of any form.
-/
namespace LogVerdict
namespace Arguments

/-- A command line, its operands, and the arguments in front of or among them that are read as options. -/
inductive Splits : List String → List String → List String → Prop
  | nil : Splits [] [] []
  | flag {a : String} {argv operands options : List String} :
    IsFlag a → Splits argv operands options → Splits (a :: argv) operands (a :: options)
  | plain {a : String} {argv operands options : List String} :
    IsPlain a → Splits argv operands options → Splits (a :: argv) (a :: operands) options
  | terminator {a : String} {argv : List String} : IsTerminator a → Splits (a :: argv) argv [a]

/-- **The grammar of a check**: a command line, the path it asks for, and the arguments that are read as options. -/
inductive Accepts : List String → String → List String → Prop
  | alone (fs gs : List String) {p : String} :
    (∀ a ∈ fs ++ gs, IsFlag a) → IsPlain p → Accepts (fs ++ p :: gs) p (fs ++ gs)
  | closed (fs gs : List String) {p t : String} :
    (∀ a ∈ fs ++ gs, IsFlag a) → IsPlain p → IsTerminator t → Accepts (fs ++ p :: (gs ++ [t])) p (fs ++ gs ++ [t])
  | behind (fs : List String) {p t : String} :
    (∀ a ∈ fs, IsFlag a) → IsTerminator t → Accepts (fs ++ [t, p]) p (fs ++ [t])

/-- Whether an option asks for details: any does, but for a bare terminator. -/
def AsksDetails (options : List String) : Prop := ∃ a ∈ options, a ≠ "--"

theorem IsFlag.ne_terminator {a : String} (h : IsFlag a) : a ≠ "--" := by
  intro ha
  obtain ⟨flags, hread, -⟩ := h.read_eq
  obtain ⟨flags', hread', -⟩ := IsTerminator.read_eq (.inl ha)
  rw [hread] at hread'
  cases hread'

/-! ## Splitting -/

theorem Splits.flags_append {argv operands options : List String} (h : Splits argv operands options) :
    ∀ (fs : List String), (∀ a ∈ fs, IsFlag a) → Splits (fs ++ argv) operands (fs ++ options)
  | [], _ => h
  | a :: fs, hfs => .flag (hfs a List.mem_cons_self) (h.flags_append fs fun b hb => hfs b (List.mem_cons_of_mem a hb))

theorem Splits.of_flags {fs : List String} (h : ∀ a ∈ fs, IsFlag a) : Splits fs [] fs := by
  have hsplits := Splits.nil.flags_append fs h
  rwa [List.append_nil] at hsplits

theorem Splits.shape_nil {argv options : List String} (h : Splits argv [] options) :
    argv = options ∧ ∃ fs, (∀ a ∈ fs, IsFlag a) ∧ (options = fs ∨ ∃ t, IsTerminator t ∧ options = fs ++ [t]) := by
  generalize hoperands : ([] : List String) = operands at h
  induction h with
  | nil => exact ⟨rfl, [], by simp, .inl rfl⟩
  | @flag a argv operands options ha _ ih =>
    obtain ⟨rfl, fs, hfs, hshape⟩ := ih hoperands
    have hall : ∀ b ∈ a :: fs, IsFlag b := List.forall_mem_cons.2 ⟨ha, hfs⟩
    refine ⟨rfl, a :: fs, hall, ?_⟩
    obtain rfl | ⟨t, ht, rfl⟩ := hshape
    · exact .inl rfl
    · exact .inr ⟨t, ht, rfl⟩
  | plain => cases hoperands
  | @terminator t argv ht =>
    rw [← hoperands]
    exact ⟨rfl, [], by simp, .inr ⟨t, ht, rfl⟩⟩

theorem Accepts.flag {a p : String} {argv options : List String} (ha : IsFlag a) (h : Accepts argv p options) :
    Accepts (a :: argv) p (a :: options) := by
  cases h with
  | alone fs gs hfs hp => exact .alone (a :: fs) gs (List.forall_mem_cons.2 ⟨ha, hfs⟩) hp
  | closed fs gs hfs hp ht => exact .closed (a :: fs) gs (List.forall_mem_cons.2 ⟨ha, hfs⟩) hp ht
  | behind fs hfs ht => exact .behind (a :: fs) (List.forall_mem_cons.2 ⟨ha, hfs⟩) ht

theorem Splits.accepts {argv options : List String} {p : String} (h : Splits argv [p] options) :
    Accepts argv p options := by
  generalize hoperands : [p] = operands at h
  induction h with
  | nil => cases hoperands
  | flag ha _ ih => exact (ih hoperands).flag ha
  | plain ha h =>
    cases hoperands
    obtain ⟨rfl, fs, hfs, rfl | ⟨t, ht, rfl⟩⟩ := h.shape_nil
    · exact .alone [] _ hfs ha
    · exact .closed [] _ hfs ha ht
  | terminator ha =>
    rw [← hoperands]
    exact .behind [] (by simp) ha

theorem Accepts.splits {argv options : List String} {p : String} (h : Accepts argv p options) :
    Splits argv [p] options := by
  cases h with
  | alone fs gs hfs hp =>
    rw [List.forall_mem_append] at hfs
    exact (Splits.plain hp (.of_flags hfs.2)).flags_append fs hfs.1
  | closed fs gs hfs hp ht =>
    rw [List.forall_mem_append] at hfs
    rw [List.append_assoc]
    exact (Splits.plain hp ((Splits.terminator ht).flags_append gs hfs.2)).flags_append fs hfs.1
  | behind fs hfs ht => exact (Splits.terminator ht).flags_append fs hfs

/-! ## Taking a command line apart -/

theorem asksDetails_cons {a : String} {options : List String} :
    AsksDetails (a :: options) ↔ a ≠ "--" ∨ AsksDetails options := by
  unfold AsksDetails
  simp only [List.mem_cons, exists_eq_or_imp]

theorem asksDetails_singleton {a : String} : AsksDetails [a] ↔ a ≠ "--" := by
  unfold AsksDetails
  simp

/-- A command line that splits is taken apart into its operands, with nothing unknown. -/
theorem Splits.ofArguments {argv operands options : List String} (h : Splits argv operands options) :
    ∃ flags, CommandLine.ofArguments false argv = some ⟨flags, operands, []⟩ ∧
      (flags.asks = true ↔ AsksDetails options) := by
  induction h with
  | nil => exact ⟨{}, rfl, by simp [Flags.asks, AsksDetails]⟩
  | @flag a argv operands options ha _ ih =>
    obtain ⟨flags, happart, -⟩ := ih
    obtain ⟨set, hread, hset⟩ := ha.read_eq
    refine ⟨set.join flags, ?_, ?_⟩
    · simp [CommandLine.ofArguments, hread, happart, CommandLine.setFlags]
    · simp [hset, asksDetails_cons, ha.ne_terminator]
  | @plain a argv operands options ha _ ih =>
    obtain ⟨flags, happart, hasks⟩ := ih
    refine ⟨flags, ?_, hasks⟩
    simp [CommandLine.ofArguments, ha.read_eq, happart, CommandLine.put]
  | @terminator t argv ht =>
    obtain ⟨set, hread, hset⟩ := ht.read_eq
    refine ⟨set.join {}, ?_, ?_⟩
    · simp [CommandLine.ofArguments, hread, CommandLine.afterTerminator, CommandLine.setFlags]
    · rw [asksDetails_singleton, ← hset]
      simp [Flags.asks, Flags.join]

/-- A command line in which nothing is unknown splits. -/
theorem splits_of_ofArguments : ∀ (argv : List String) {l : CommandLine},
    CommandLine.ofArguments false argv = some l → l.unknown = [] → ∃ options, Splits argv l.operands options
  | [], l, h, _ => by
    cases h
    exact ⟨[], .nil⟩
  | a :: argv, l, h, hknown => by
    rcases Argument.read_cases a with ha | ha | ha | ha | ⟨option, ha⟩
    · rw [CommandLine.ofArguments, ha.read_eq] at h
      obtain ⟨l', hl', rfl⟩ := Option.map_eq_some_iff.1 h
      obtain ⟨options, hsplits⟩ := splits_of_ofArguments argv hl' hknown
      exact ⟨options, .plain ha hsplits⟩
    · obtain ⟨set, hread, -⟩ := ha.read_eq
      rw [CommandLine.ofArguments, hread] at h
      obtain ⟨l', hl', rfl⟩ := Option.map_eq_some_iff.1 h
      obtain ⟨options, hsplits⟩ := splits_of_ofArguments argv hl' hknown
      exact ⟨a :: options, .flag ha hsplits⟩
    · obtain ⟨set, hread, -⟩ := ha.read_eq
      rw [CommandLine.ofArguments, hread] at h
      cases h
      exact ⟨[a], .terminator ha⟩
    · rw [CommandLine.ofArguments, ha] at h
      cases h
    · rw [CommandLine.ofArguments, ha] at h
      obtain ⟨l', -, rfl⟩ := Option.map_eq_some_iff.1 h
      cases hknown

theorem Invocation.ofCommandLine_eq_check_iff {l : CommandLine} {path : String} {flags : Flags} :
    Invocation.ofCommandLine l = .check path flags ↔ l = ⟨flags, [path], []⟩ := by
  constructor
  · intro h
    obtain ⟨set, operands, unknown⟩ := l
    unfold ofCommandLine at h
    split at h
    · cases h
    · split at h <;> simp_all
  · intro h
    rw [h]
    rfl

theorem Invocation.read_eq_check_iff {argv : List String} {path : String} {flags : Flags} :
    Invocation.read argv = .check path flags ↔ CommandLine.ofArguments false argv = some ⟨flags, [path], []⟩ := by
  unfold Invocation.read
  cases CommandLine.ofArguments false argv with
  | none => simp
  | some l =>
    rw [Option.some.injEq]
    exact ofCommandLine_eq_check_iff

/-- Every command line of the grammar asks for a check, of the path that the grammar names. -/
theorem Accepts.read_eq {argv options : List String} {path : String} (h : Accepts argv path options) :
    ∃ flags, Invocation.read argv = .check path flags ∧ (flags.asks = true ↔ AsksDetails options) := by
  obtain ⟨flags, happart, hasks⟩ := h.splits.ofArguments
  exact ⟨flags, Invocation.read_eq_check_iff.2 happart, hasks⟩

theorem read_eq_check_iff_accepts {argv : List String} {path : String} :
    (∃ flags, Invocation.read argv = .check path flags) ↔ ∃ options, Accepts argv path options := by
  constructor
  · intro h
    obtain ⟨flags, hread⟩ := h
    obtain ⟨options, hsplits⟩ := splits_of_ofArguments argv (Invocation.read_eq_check_iff.1 hread) rfl
    exact ⟨options, hsplits.accepts⟩
  · intro h
    obtain ⟨options, haccepts⟩ := h
    obtain ⟨flags, hread, -⟩ := haccepts.read_eq
    exact ⟨flags, hread⟩

end Arguments

namespace Check

open Arguments (Invocation Accepts AsksDetails bundle)

/-- Whether a check tells details: an option asks for them, or the environment does. -/
def TellsDetails (env : Environment) (options : List String) : Prop :=
  AsksDetails options ∨ env.turnsOn "UNITY_SUMMARY_DEBUG" = true ∨ env.turnsOn "DEBUG" = true

instance (env : Environment) (options : List String) : Decidable (TellsDetails env options) :=
  inferInstanceAs (Decidable ((∃ a ∈ options, a ≠ "--") ∨ _ ∨ _))

theorem resolve_verbose_iff {flags : Flags} {options : List String} {env : Environment} {color : Bool}
    (h : flags.asks = true ↔ AsksDetails options) :
    (Options.resolve flags env color).verbose = true ↔ TellsDetails env options := by
  unfold TellsDetails
  rw [← h]
  simp only [Options.resolve, Flags.asks, Bool.or_eq_true, or_assoc]

/-- **The grammar decides over a check**: a check of a path is made exactly for the command lines that the grammar
accepts with that path, and where reading the path gives an outcome, the exit code and all that arrives are those of
this outcome. -/
theorem attempt_of_grammar (setting : Setting) (argv : List String) (path : String) (read : String → Reading) :
    ((∃ flags, Invocation.read argv = .check path flags) ↔ ∃ options, Accepts argv path options) ∧
    ∀ options o, Accepts argv path options → attemptOutcome path (read path) = .ok o →
      attempt setting argv read = .ok (run setting argv read) ∧ exitCodeOf o.kind o.status = .ok o.exitCode ∧
      (run setting argv read).deliver none =
        { out := joinLines (Report.ofOutcome setting.color o).out
          err := (if setting.interactive then "- Reading " ++ path ++ "\n" else "") ++
            ((if TellsDetails setting.environment options
              then joinLines ((Report.details o).map (Report.debugLine setting.color)) else "") ++
            joinLines (Report.ofOutcome setting.color o).err)
          ending := .exited o.exitCode } := by
  refine ⟨Arguments.read_eq_check_iff_accepts, fun options o haccepts ho => ?_⟩
  obtain ⟨flags, hread, hasks⟩ := haccepts.read_eq
  obtain ⟨hreading, ho⟩ := attemptOutcome_eq_ok_iff.1 ho
  have hverbose : (Options.resolve flags setting.environment setting.color).verbose = true ↔ _ :=
    resolve_verbose_iff hasks
  refine ⟨?_, exitCodeOf_kind o, ?_⟩
  · apply attempt_eq_run
    intro path' flags' hread'
    rw [hread] at hread'
    cases hread'
    exact hreading
  · unfold run
    rw [hread, deliver_perform_check, ho]
    simp only [hverbose]

/-- A path that looks like an option, behind a terminator that ends a bundle. -/
theorem attempt_of_grammar_help :
    (attempt ⟨.ofList [], false, true⟩ ["-v-", "-h"] fun _ => .error "ENOENT") =
        .ok (run ⟨.ofList [], false, true⟩ ["-v-", "-h"] fun _ => .error "ENOENT") ∧
      ((run ⟨.ofList [], false, true⟩ ["-v-", "-h"] fun _ => .error "ENOENT").deliver none).err =
        "- Reading -h\ndebug: could not read -h (ENOENT)\nError: Log file not found: -h\n" := by
  have haccepts : Accepts ["-v-", "-h"] "-h" ["-v-"] := .behind [] (by simp) (.inr ⟨0, by decide⟩)
  have houtcome : attemptOutcome "-h" (.error "ENOENT") = .ok (.fileMissing "-h" .notFound (some "ENOENT")) := rfl
  obtain ⟨hrun, -, hdelivery⟩ :=
    (attempt_of_grammar ⟨.ofList [], false, true⟩ ["-v-", "-h"] "-h" fun _ => .error "ENOENT").2 _ _ haccepts houtcome
  refine ⟨hrun, ?_⟩
  rw [hdelivery]
  decide

end Check
end LogVerdict
