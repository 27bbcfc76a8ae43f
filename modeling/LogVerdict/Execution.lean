import LogVerdict.Attempt
/-!
# Execution — a run write by write

`Check.execute` goes through a run in the order in which things happen.  Every write goes out at once, and one to a
broken channel throws.  A failure without a code throws too, and so does a command line that asks for no check: that one
alone is caught, and becomes an exit code or the outcome of a refusal.  What a run does can be said without the throwing:
it makes its writes in order, and then it ends (`execute_eq`, `execute_of_uncoded`).
-/
namespace LogVerdict

/-- What has arrived on the two channels. -/
structure Received where
  out : String := ""
  err : String := ""
  deriving DecidableEq, Repr

def Received.on (r : Received) : Channel → String
  | .out => r.out
  | .err => r.err

def Received.add (r : Received) (w : Write) : Received :=
  match w.channel with
  | .out => { r with out := r.out ++ w.text }
  | .err => { r with err := r.err ++ w.text }

namespace Check

open Arguments (Invocation)

/-- What is thrown in a run: the command line was left, with a code and the notice of a refusal, or the run failed, or a
channel was broken. -/
inductive Thrown
  | left (code : Nat) (notice : String)
  | fault (cause : Fault)
  | broken (channel : Channel)
  deriving DecidableEq, Repr

/-- A part of a run.  What has arrived stays when something is thrown. -/
abbrev Act := ExceptT Thrown (StateM Received)

/-- Where a run stands once its command line is worked off: it is over, or an outcome is to be reported. -/
inductive Standing
  | over (code : Nat)
  | settled (outcome : Option Outcome)
  deriving DecidableEq, Repr

def orThrow {α : Type} : Except Fault α → Act α
  | .ok a => pure a
  | .error cause => throw (.fault cause)

/-- What becomes of something thrown.  Leaving the command line ends the run or refuses it, all else is thrown again. -/
def takeUp : Thrown → Act Standing
  | .left 0 _ => return .over 0
  | .left _ notice => return .settled (some (.invalidArguments notice))
  | thrown => throw thrown

section
variable (broken : Option Channel)

def send (w : Write) : Act Unit :=
  if broken = some w.channel then throw (.broken w.channel) else modify (·.add w)

def sendAll (ws : List Write) : Act Unit := forM ws (send broken)

/-- Works off what a command line asks for.  A check settles an outcome; everything else leaves the command line. -/
def workOff (setting : Setting) (read : String → Reading) : Invocation → Act Standing
  | .version => do
    send broken ⟨.out, version ++ "\n"⟩
    throw (.left 0 "")
  | .help => do
    send broken ⟨.out, helpText⟩
    throw (.left 0 "")
  | .rejected cause => throw (.left 1 cause.message)
  | .check path flags => do
    sendAll broken (announcement setting.interactive path)
    let o ← orThrow (attemptOutcome path (read path))
    sendAll broken (debugWrites (Options.resolve flags setting.environment setting.color) o)
    return .settled (some o)

def finish (color : Bool) : Standing → Act Nat
  | .over code => return code
  | .settled none => throw (.fault .noOutcome)
  | .settled (some o) => do
    sendAll broken (reportWrites color o)
    orThrow ((exitCodeOf o.kind o.status).mapError .unknownKind)

def execute (setting : Setting) (argv : List String) (read : String → Reading) : Act Nat :=
  tryCatch (workOff broken setting read (.read argv)) takeUp >>= finish broken setting.color

end

/-- How a run ended, and what arrived of it. -/
structure Execution where
  ended : Except Thrown Nat
  received : Received

/-- A run that is told by what is delivered of it. -/
def Execution.ofDelivery (d : Delivery) : Execution :=
  ⟨match d.ending with
    | .exited code => .ok code
    | .broken channel => .error (.broken channel), ⟨d.out, d.err⟩⟩

/-- A run from its start, when nothing has arrived yet. -/
def execution (broken : Option Channel) (setting : Setting) (argv : List String) (read : String → Reading) : Execution :=
  let result := (execute broken setting argv read).run.run {}
  ⟨result.1, result.2⟩

/-! ## The writes of a run -/

section
variable {broken : Option Channel}

theorem sendAll_append (ws ws' : List Write) :
    sendAll broken (ws ++ ws') = sendAll broken ws >>= fun _ => sendAll broken ws' := by
  unfold sendAll
  rw [List.forM_append]

theorem sendAll_cons (w : Write) (ws : List Write) :
    sendAll broken (w :: ws) = send broken w >>= fun _ => sendAll broken ws := by
  unfold sendAll
  rw [List.forM_cons]

theorem sendAll_singleton (w : Write) : sendAll broken [w] = send broken w := by
  rw [sendAll_cons]
  exact bind_pure_unit

/-- What takes up a departure lets a broken channel through. -/
theorem tryCatch_send (k : Act Standing) (w : Write) :
    tryCatch (send broken w >>= fun _ => k) takeUp = send broken w >>= fun _ => tryCatch k takeUp := by
  unfold send
  split
  · rfl
  · rfl

theorem tryCatch_sendAll (k : Act Standing) : ∀ (ws : List Write),
    tryCatch (sendAll broken ws >>= fun _ => k) takeUp = sendAll broken ws >>= fun _ => tryCatch k takeUp
  | [] => rfl
  | w :: ws => by
    rw [sendAll_cons, bind_assoc, bind_assoc, tryCatch_send, tryCatch_sendAll k ws]

theorem tryCatch_throw (thrown : Thrown) : tryCatch (throw thrown) takeUp = takeUp thrown := rfl

theorem tryCatch_pure (standing : Standing) : tryCatch (pure standing : Act Standing) takeUp = pure standing := rfl

theorem orThrow_ok {α : Type} (a : α) : orThrow (.ok a) = pure a := rfl

theorem finish_settled (color : Bool) (o : Outcome) :
    finish broken color (.settled (some o)) = sendAll broken (reportWrites color o) >>= fun _ => pure o.exitCode := by
  rw [finish, exitCodeOf_kind]
  rfl

/-- **A run whose log is read or fails with a code** makes the writes of its transcript, and exits with its code. -/
theorem execute_eq {setting : Setting} {argv : List String} {read : String → Reading}
    (hread : ∀ path flags, Invocation.read argv = .check path flags → read path ≠ .error "") :
    execute broken setting argv read
      = sendAll broken (run setting argv read).writes >>= fun _ => pure (run setting argv read).exitCode := by
  unfold execute run
  cases hargv : Invocation.read argv with
  | version =>
    rw [workOff, tryCatch_send, tryCatch_throw, bind_assoc, perform, sendAll_singleton]
    rfl
  | help =>
    rw [workOff, tryCatch_send, tryCatch_throw, bind_assoc, perform, sendAll_singleton]
    rfl
  | rejected cause =>
    have htaken : takeUp (.left 1 cause.message) = pure (.settled (some (.invalidArguments cause.message))) := rfl
    rw [workOff, tryCatch_throw, htaken, pure_bind, finish_settled, perform]
  | check path flags =>
    simp only [workOff, attemptOutcome_eq_ok (hread path flags hargv), orThrow_ok, pure_bind, tryCatch_sendAll,
      tryCatch_pure, bind_assoc, finish_settled, perform, sendAll_append]

/-- A run whose log fails without a code has only told that it reads it. -/
theorem execute_of_uncoded {setting : Setting} {argv : List String} {read : String → Reading} {path : String}
    {flags : Flags} (h : Invocation.read argv = .check path flags) (hread : read path = .error "") :
    execute broken setting argv read
      = sendAll broken (announcement setting.interactive path) >>= fun _ => throw (.fault .uncoded) := by
  unfold execute
  rw [h, workOff, hread, tryCatch_sendAll, bind_assoc]
  rfl

/-! ## What arrives -/

theorem run_send_bind (r : Received) (w : Write) (k : Act Nat) (h : broken ≠ some w.channel) :
    (send broken w >>= fun _ => k).run.run r = k.run.run (r.add w) := by
  rw [send, if_neg h]
  rfl

/-- What has arrived of some writes, and how a run ends behind them, is what is delivered of them. -/
theorem run_sendAll_pure (exitCode : Nat) : ∀ (ws : List Write) (r : Received),
    let e := Execution.ofDelivery (deliver broken exitCode ws)
    (sendAll broken ws >>= fun _ => (pure exitCode : Act Nat)).run.run r
      = (e.ended, ⟨r.out ++ e.received.out, r.err ++ e.received.err⟩)
  | [], r => by
    simp only [deliver, Execution.ofDelivery, String.append_empty]
    rfl
  | w :: ws, r => by
    have ih := run_sendAll_pure exitCode ws (r.add w)
    rw [sendAll_cons, bind_assoc]
    by_cases h : broken = some w.channel
    · simp only [deliver, if_pos h, send, Execution.ofDelivery, String.append_empty]
      rfl
    · rw [run_send_bind r w _ h, ih, deliver, if_neg h]
      cases hw : w.channel <;> simp [Received.add, Delivery.after, Execution.ofDelivery, hw, String.append_assoc]

/-- **A run that throws its way out is a run that is delivered**: the writes of its transcript arrive in order, up to
the first one to a broken channel. -/
theorem execution_eq {setting : Setting} {argv : List String} {read : String → Reading}
    (hread : ∀ path flags, Invocation.read argv = .check path flags → read path ≠ .error "") :
    execution broken setting argv read = .ofDelivery ((run setting argv read).deliver broken) := by
  unfold execution
  rw [execute_eq hread, run_sendAll_pure]
  simp only [String.empty_append]
  rfl

/-- What arrives of a run whose log fails without a code. -/
theorem execution_of_uncoded {setting : Setting} {argv : List String} {read : String → Reading} {path : String}
    {flags : Flags} (h : Invocation.read argv = .check path flags) (hread : read path = .error "") :
    execution broken setting argv read =
      if setting.interactive then
        if broken = some .err then ⟨.error (.broken .err), {}⟩
        else ⟨.error (.fault .uncoded), ⟨"", "- Reading " ++ path ++ "\n"⟩⟩
      else ⟨.error (.fault .uncoded), {}⟩ := by
  unfold execution
  rw [execute_of_uncoded h hread, announcement]
  by_cases hinteractive : setting.interactive = true
  · rw [if_pos hinteractive, if_pos hinteractive, sendAll_singleton]
    by_cases hbroken : broken = some .err
    · rw [if_pos hbroken, send, if_pos hbroken]
      rfl
    · rw [if_neg hbroken, run_send_bind {} _ _ hbroken, Received.add]
      simp only [String.empty_append]
      rfl
  · rw [if_neg hinteractive, if_neg hinteractive]
    rfl

end

end Check
end LogVerdict
