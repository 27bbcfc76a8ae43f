/-!
# Transcript — what a run writes, and how it gets out

A run writes texts to two channels in a fixed order and then exits.  `Transcript.deliver` sends the writes out; where a
channel is broken, the first write to it ends the run, and nothing after it is written.
-/
namespace LogVerdict

inductive Channel
  | out
  | err
  deriving DecidableEq, Repr

structure Write where
  channel : Channel
  text : String
  deriving DecidableEq, Repr

/-- One write for each line, with the line's end. -/
def Write.lines (channel : Channel) (lines : List String) : List Write := lines.map fun l => ⟨channel, l ++ "\n"⟩

structure Transcript where
  writes : List Write
  exitCode : Nat
  deriving DecidableEq, Repr

inductive Ending
  | exited (code : Nat)
  | broken (channel : Channel)
  deriving DecidableEq, Repr

structure Delivery where
  out : String
  err : String
  ending : Ending
  deriving DecidableEq, Repr

def Delivery.after (w : Write) (d : Delivery) : Delivery :=
  match w.channel with
  | .out => { d with out := w.text ++ d.out }
  | .err => { d with err := w.text ++ d.err }

/-- Sends writes out, where one channel may be broken. -/
def deliver (broken : Option Channel) (exitCode : Nat) : List Write → Delivery
  | [] => ⟨"", "", .exited exitCode⟩
  | w :: ws => if broken = some w.channel then ⟨"", "", .broken w.channel⟩ else (deliver broken exitCode ws).after w

def Transcript.deliver (broken : Option Channel) (t : Transcript) : Delivery :=
  LogVerdict.deliver broken t.exitCode t.writes

def textOn (channel : Channel) (ws : List Write) : String :=
  String.join ((ws.filter (·.channel = channel)).map (·.text))

def joinLines (lines : List String) : String := String.join (lines.map (· ++ "\n"))

@[simp] theorem textOn_append (channel : Channel) (ws ws' : List Write) :
    textOn channel (ws ++ ws') = textOn channel ws ++ textOn channel ws' := by
  unfold textOn
  rw [List.filter_append, List.map_append, String.join_append]

theorem textOn_map_mk (channel : Channel) (texts : List String) :
    textOn channel (texts.map (.mk channel)) = String.join texts := by
  have hfilter : (texts.map (Write.mk channel)).filter (·.channel = channel) = texts.map (.mk channel) :=
    List.filter_eq_self.2 (by simp)
  unfold textOn
  rw [hfilter, List.map_map]
  exact congrArg String.join texts.map_id

@[simp] theorem textOn_lines_self (channel : Channel) (lines : List String) :
    textOn channel (Write.lines channel lines) = joinLines lines := by
  have hlines : Write.lines channel lines = (lines.map (· ++ "\n")).map (.mk channel) := List.map_map.symm
  rw [hlines, textOn_map_mk]
  rfl

theorem textOn_lines_of_ne {channel channel' : Channel} (h : channel ≠ channel') (lines : List String) :
    textOn channel (Write.lines channel' lines) = "" := by
  unfold textOn Write.lines
  rw [List.filter_eq_nil_iff.2 (by simpa using fun _ _ => h.symm)]
  rfl

theorem deliver_none (exitCode : Nat) : ∀ (ws : List Write),
    deliver none exitCode ws = ⟨textOn .out ws, textOn .err ws, .exited exitCode⟩
  | [] => rfl
  | w :: ws => by
    rw [deliver, if_neg nofun, deliver_none exitCode ws]
    cases h : w.channel <;> simp [Delivery.after, textOn, h]

end LogVerdict
