import LogVerdict.Execution
import LogVerdict.Proofs.Color
/-!
# BrokenChannel — runs that cannot write

Whatever a run writes, everything on standard error comes before everything on standard output (`errFirst_perform`).  So
where one of the two is broken, a run that writes nothing to it is the run it would have been, and any other ends with
the broken channel: before its report where that is standard output, and before anything has arrived where it is standard
error (`execution_broken`).
-/
namespace LogVerdict

/-- **Standard error before standard output.** -/
def ErrFirst (ws : List Write) : Prop :=
  ∃ es os, ws = es ++ os ∧ (∀ w ∈ es, w.channel = .err) ∧ ∀ w ∈ os, w.channel = .out

theorem errFirst_of_out {ws : List Write} (h : ∀ w ∈ ws, w.channel = .out) : ErrFirst ws :=
  ⟨[], ws, rfl, by simp, h⟩

theorem errFirst_of_err {ws : List Write} (h : ∀ w ∈ ws, w.channel = .err) : ErrFirst ws :=
  ⟨ws, [], (List.append_nil ws).symm, h, by simp⟩

theorem ErrFirst.behind_err {es ws : List Write} (h : ErrFirst ws) (hes : ∀ w ∈ es, w.channel = .err) :
    ErrFirst (es ++ ws) := by
  obtain ⟨es', os, rfl, hes', hos⟩ := h
  exact ⟨es ++ es', os, (List.append_assoc es es' os).symm, List.forall_mem_append.2 ⟨hes, hes'⟩, hos⟩

theorem channel_of_mem_lines {channel : Channel} {ls : List String} {w : Write} (h : w ∈ Write.lines channel ls) :
    w.channel = channel := by
  obtain ⟨l, -, rfl⟩ := List.mem_map.1 h
  rfl

/-! ## Delivery -/

theorem textOn_cons (x : Channel) (w : Write) (ws : List Write) :
    textOn x (w :: ws) = (if w.channel = x then w.text else "") ++ textOn x ws := by
  unfold textOn
  by_cases h : w.channel = x <;> simp [h]

theorem textOn_eq_empty_of_ne {x : Channel} {ws : List Write} (h : ∀ w ∈ ws, w.channel ≠ x) : textOn x ws = "" := by
  unfold textOn
  rw [List.filter_eq_nil_iff.2 (by simpa using h)]
  rfl

/-- Where no write is empty, nothing arrives on a channel only if nothing is written to it. -/
theorem ne_of_textOn_eq_empty {x : Channel} : ∀ {ws : List Write}, (∀ w ∈ ws, w.text ≠ "") → textOn x ws = "" →
    ∀ w ∈ ws, w.channel ≠ x
  | [], _, _ => by simp
  | w :: ws, hne, h => by
    rw [List.forall_mem_cons] at hne ⊢
    rw [textOn_cons, String.append_eq_empty_iff] at h
    refine ⟨fun hx => ?_, ne_of_textOn_eq_empty hne.2 h.2⟩
    rw [if_pos hx] at h
    exact hne.1 h.1

theorem deliver_of_ne {x : Channel} (exitCode : Nat) {ws : List Write} (h : ∀ w ∈ ws, w.channel ≠ x) :
    deliver (some x) exitCode ws = deliver none exitCode ws := by
  induction ws with
  | nil => rfl
  | cons w ws ih =>
    rw [List.forall_mem_cons] at h
    rw [deliver, deliver, if_neg (by simpa using h.1.symm), if_neg (Option.some_ne_none _).symm, ih h.2]

/-- The first write to a broken channel ends a run: what was written before it has arrived. -/
theorem deliver_append_broken (exitCode : Nat) (w : Write) (post : List Write) : ∀ (pre : List Write),
    (∀ v ∈ pre, v.channel ≠ w.channel) → deliver (some w.channel) exitCode (pre ++ w :: post)
      = ⟨textOn .out pre, textOn .err pre, .broken w.channel⟩
  | [], _ => by
    rw [List.nil_append, deliver, if_pos rfl]
    rfl
  | v :: pre, h => by
    rw [List.forall_mem_cons] at h
    rw [List.cons_append, deliver, if_neg (by simpa using h.1.symm), deliver_append_broken exitCode w post pre h.2,
      textOn_cons, textOn_cons]
    cases hv : v.channel <;> simp [Delivery.after, hv]

/-! ## Runs -/

namespace Check

open Arguments (Invocation)

/-- A run that is cut off at a broken channel: it ends with that channel.  Nothing arrives there, and of the other channel
all of standard error, or nothing of standard output. -/
def Execution.cut (e : Execution) : Channel → Execution
  | .out => ⟨.error (.broken .out), ⟨"", e.received.err⟩⟩
  | .err => ⟨.error (.broken .err), ⟨"", ""⟩⟩

/-- **What a broken channel makes of a run**: nothing at all where the run writes nothing to it, and else it is cut off
there. -/
structure CutOff (x : Channel) (plain cut : Execution) : Prop where
  same : plain.received.on x = "" → cut = plain
  broken : plain.received.on x ≠ "" → cut = plain.cut x

theorem received_on_deliver_none (exitCode : Nat) (ws : List Write) (x : Channel) :
    (Execution.ofDelivery (deliver none exitCode ws)).received.on x = textOn x ws := by
  rw [deliver_none]
  cases x <;> rfl

/-- Writes with standard error first are cut off where a channel is broken. -/
theorem cutOff_of_errFirst {ws : List Write} (h : ErrFirst ws) (hne : ∀ w ∈ ws, w.text ≠ "") (exitCode : Nat)
    (x : Channel) :
    CutOff x (.ofDelivery (deliver none exitCode ws)) (.ofDelivery (deliver (some x) exitCode ws)) := by
  refine ⟨fun hempty => ?_, fun hsome => ?_⟩
  · rw [received_on_deliver_none] at hempty
    rw [deliver_of_ne exitCode (ne_of_textOn_eq_empty hne hempty)]
  rw [received_on_deliver_none] at hsome
  obtain ⟨es, os, rfl, hes, hos⟩ := h
  have houtEs : ∀ w ∈ es, w.channel ≠ .out := by simp +contextual [hes]
  have herrOs : ∀ w ∈ os, w.channel ≠ .err := by simp +contextual [hos]
  cases x with
  | out =>
    cases os with
    | nil =>
      rw [List.append_nil] at hsome
      exact absurd (textOn_eq_empty_of_ne houtEs) hsome
    | cons o os =>
      have ho : o.channel = .out := hos o List.mem_cons_self
      have hcut := deliver_append_broken exitCode o os es (by rwa [ho])
      have herr : textOn .err (es ++ o :: os) = textOn .err es := by
        rw [textOn_append, textOn_eq_empty_of_ne herrOs, String.append_empty]
      rw [ho, textOn_eq_empty_of_ne houtEs] at hcut
      rw [hcut, deliver_none, Execution.ofDelivery, Execution.cut, Execution.ofDelivery, herr]
  | err =>
    cases es with
    | nil => exact absurd (textOn_eq_empty_of_ne herrOs) hsome
    | cons e es =>
      have he : e.channel = .err := hes e List.mem_cons_self
      have hcut := deliver_append_broken exitCode e (es ++ os) [] (by simp)
      rw [he] at hcut
      rw [List.cons_append, ← List.nil_append (e :: (es ++ os)), hcut]
      rfl

/-! ### Writes of a run -/

/-- A report is on one channel. -/
theorem out_eq_nil_or_err_eq_nil (color : Bool) (o : Outcome) :
    (Report.ofOutcome color o).out = [] ∨ (Report.ofOutcome color o).err = [] := by
  cases o with
  | completed status path e bytes => exact .inr rfl
  | _ => exact .inl rfl

theorem errFirst_reportWrites (color : Bool) (o : Outcome) : ErrFirst (reportWrites color o) := by
  have hnil : ∀ channel, Write.lines channel [] = [] := fun _ => rfl
  rcases out_eq_nil_or_err_eq_nil color o with h | h
  · simp only [reportWrites, h, hnil, List.nil_append]
    exact errFirst_of_err fun w hw => channel_of_mem_lines hw
  · simp only [reportWrites, h, hnil, List.append_nil]
    exact errFirst_of_out fun w hw => channel_of_mem_lines hw

theorem channel_of_mem_announcement {interactive : Bool} {path : String} :
    ∀ w ∈ announcement interactive path, w.channel = .err := by
  cases interactive <;> simp [announcement]

theorem channel_of_mem_debugWrites {options : Options} {o : Outcome} :
    ∀ w ∈ debugWrites options o, w.channel = .err := by
  intro w hw
  unfold debugWrites at hw
  split at hw
  · exact channel_of_mem_lines hw
  · cases hw

/-- **Every run writes to standard error first.** -/
theorem errFirst_perform (setting : Setting) (read : String → Reading) (asked : Invocation) :
    ErrFirst (perform setting read asked).writes := by
  cases asked with
  | version => exact errFirst_of_out (by simp [perform])
  | help => exact errFirst_of_out (by simp [perform])
  | rejected cause => exact errFirst_reportWrites setting.color _
  | check path flags =>
    have hreport := errFirst_reportWrites setting.color (.ofReading path (read path))
    exact (hreport.behind_err channel_of_mem_debugWrites).behind_err channel_of_mem_announcement

theorem text_ne_empty_of_endsLine {w : Write} (h : w.EndsLine) : w.text ≠ "" := by
  intro htext
  rw [Write.EndsLine, htext] at h
  cases h

theorem cutOff_of_coded {setting : Setting} {argv : List String} {read : String → Reading}
    (hread : ∀ path flags, Invocation.read argv = .check path flags → read path ≠ .error "") (x : Channel) :
    CutOff x (execution none setting argv read) (execution (some x) setting argv read) := by
  rw [execution_eq hread, execution_eq hread]
  refine cutOff_of_errFirst (errFirst_perform setting read _) (fun w hw => ?_) _ x
  exact text_ne_empty_of_endsLine (endsLine_of_mem_perform setting read _ w hw)

theorem cutOff_of_uncoded {setting : Setting} {argv : List String} {read : String → Reading} {path : String}
    {flags : Flags} (h : Invocation.read argv = .check path flags) (hread : read path = .error "") (x : Channel) :
    CutOff x (execution none setting argv read) (execution (some x) setting argv read) := by
  rw [execution_of_uncoded h hread, execution_of_uncoded h hread]
  by_cases hinteractive : setting.interactive = true
  · have htold : "- Reading " ++ path ++ "\n" ≠ "" := by simp [String.append_eq_empty_iff]
    simp only [if_pos hinteractive]
    cases x with
    | out => exact ⟨fun _ => rfl, fun hsome => absurd rfl hsome⟩
    | err => exact ⟨fun hempty => absurd hempty htold, fun _ => rfl⟩
  · simp only [if_neg hinteractive]
    cases x with
    | out => exact ⟨fun _ => rfl, fun hsome => absurd rfl hsome⟩
    | err => exact ⟨fun _ => rfl, fun hsome => absurd rfl hsome⟩

/-- **A broken channel is never taken for a verdict**: it cuts a run off wherever the run first writes to it, and ends it
neither with an exit code nor with the outcome of a refusal.  Whatever is broken, a run that does not fail for itself is
the delivery of its transcript. -/
theorem execution_broken (setting : Setting) (argv : List String) (read : String → Reading) :
    (∀ x, CutOff x (execution none setting argv read) (execution (some x) setting argv read)) ∧
    ∀ t, attempt setting argv read = .ok t →
      ∀ broken, execution broken setting argv read = .ofDelivery (t.deliver broken) := by
  by_cases huncoded : ∃ path flags, Invocation.read argv = .check path flags ∧ read path = .error ""
  · obtain ⟨path, flags, hargv, hread⟩ := huncoded
    refine ⟨cutOff_of_uncoded hargv hread, fun t ht => ?_⟩
    rw [attempt_of_uncoded hargv hread] at ht
    cases ht
  · have hread : ∀ path flags, Invocation.read argv = .check path flags → read path ≠ .error "" :=
      fun path flags hargv hread => huncoded ⟨path, flags, hargv, hread⟩
    refine ⟨cutOff_of_coded hread, fun t ht broken => ?_⟩
    rw [attempt_eq_run hread] at ht
    cases ht
    exact execution_eq hread

/-- A watched check of a log that is not there does not need standard output, and cannot do without standard error. -/
theorem execution_broken_missing :
    let missing : String → Reading := fun _ => .error "ENOENT"
    let setting : Setting := ⟨.ofList [], false, true⟩
    let plain : Execution := ⟨.ok 2, ⟨"", "- Reading log\nError: Log file not found: log\n"⟩⟩
    execution none setting ["log"] missing = plain ∧ execution (some .out) setting ["log"] missing = plain ∧
      execution (some .err) setting ["log"] missing = ⟨.error (.broken .err), ⟨"", ""⟩⟩ := by
  intro missing setting plain
  obtain ⟨hcut, hdelivery⟩ := execution_broken setting ["log"] missing
  have hplain : execution none setting ["log"] missing = plain := by
    have harrived : (run setting ["log"] missing).deliver none
        = ⟨"", "- Reading log\nError: Log file not found: log\n", .exited 2⟩ := by decide
    rw [hdelivery (run setting ["log"] missing) rfl none, harrived]
    rfl
  refine ⟨hplain, ?_, ?_⟩
  · rw [(hcut .out).same (by rw [hplain]; rfl), hplain]
  · rw [(hcut .err).broken (by rw [hplain]; decide)]
    rfl

end Check
end LogVerdict
