import LogVerdict.Proofs.ArgumentForms
/-!
# PushBack — reading a command line as a loop

The loop keeps a list of arguments to be read.  A bundle of short flags is shortened by its first flag and put back, so
that what is left of it is read as an argument of its own, and an option that is not known switches the list that
arguments go to.  Reading by the loop is taking the command line apart (`read_eq_run`): what the loop has sorted, joined
to what the rest is taken apart into, is the same after every turn (`Turns.result_eq`).
-/
namespace LogVerdict
namespace Arguments

/-- The loop between two steps: whether an unknown option came, what is sorted, and what is still to be read. -/
structure Loop where
  late : Bool := false
  sorted : CommandLine := {}
  pending : List String
  deriving DecidableEq, Repr

inductive Turn
  | version
  | finished (l : CommandLine)
  | going (s : Loop)
  deriving DecidableEq, Repr

def CommandLine.pushAll (l : CommandLine) (late : Bool) (as : List String) : CommandLine :=
  if late then { l with unknown := l.unknown ++ as } else { l with operands := l.operands ++ as }

def CommandLine.append (l l' : CommandLine) : CommandLine :=
  ⟨l'.flags.join l.flags, l.operands ++ l'.operands, l.unknown ++ l'.unknown⟩

namespace Loop

def set (s : Loop) (flags : Flags) (pending : List String) : Loop :=
  { s with sorted := s.sorted.setFlags flags, pending }

def push (s : Loop) (late : Bool) (a : String) (pending : List String) : Loop :=
  ⟨late, s.sorted.pushAll late [a], pending⟩

/-- **One turn of the loop**, for the next argument and those behind it. -/
def turn (s : Loop) (a : String) (rest : List String) : Turn :=
  if a = "--" then .finished (s.sorted.pushAll s.late (if s.late then a :: rest else rest))
  else if a = "-v" ∨ a = "--verbose" then .going (s.set { verbose := true } rest)
  else if a = "--debug" then .going (s.set { debug := true } rest)
  else if a = "-V" ∨ a = "--version" then .version
  else
    match a.toList with
    | '-' :: 'v' :: c :: tail => .going (s.set { verbose := true } (String.ofList ('-' :: c :: tail) :: rest))
    | '-' :: 'V' :: _ => .version
    | '-' :: _ :: _ => .going (s.push true a rest)
    | _ => .going (s.push s.late a rest)

/-- What a turn does, by what the argument is read as. -/
inductive Turns (s : Loop) (a : String) (rest : List String) : Turn → Prop
  | terminator :
    a = "--" → Turns s a rest (.finished (s.sorted.pushAll s.late (if s.late then a :: rest else rest)))
  | flags {flags : Flags} : Argument.read a = ⟨flags, .flags⟩ → Turns s a rest (.going (s.set flags rest))
  | version : (Argument.read a).meaning = .version → Turns s a rest .version
  | shortened {a' : String} : a'.toList.length < a.toList.length → (Argument.read a').meaning ≠ .operand →
    Argument.read a = ⟨(Argument.read a').flags.join { verbose := true }, (Argument.read a').meaning⟩ →
    Turns s a rest (.going (s.set { verbose := true } (a' :: rest)))
  | unknown : Argument.read a = ⟨{}, .unknown a⟩ → Turns s a rest (.going (s.push true a rest))
  | operand : Argument.read a = ⟨{}, .operand⟩ → Turns s a rest (.going (s.push s.late a rest))

end Loop

theorem ofDashed_flags_of_head (flags : Flags) {tail : List Char} (h : tail.head? ≠ some 'v') :
    Argument.ofDashed flags tail
      = ⟨(Argument.ofDashed {} tail).flags.join flags, (Argument.ofDashed {} tail).meaning⟩ := by
  fun_cases Argument.ofDashed flags tail <;> simp_all [Argument.ofDashed, Flags.join]

theorem ofDashed_flags (flags : Flags) (body : List Char) :
    Argument.ofDashed flags body
      = ⟨(Argument.ofDashed {} body).flags.join flags, (Argument.ofDashed {} body).meaning⟩ := by
  obtain ⟨n, tail, rfl, htail⟩ := exists_bundle body
  by_cases hne : tail = []
  · rw [hne, List.append_nil]
    cases n with
    | zero => exact ofDashed_flags_of_head flags nofun
    | succ n =>
      rw [ofDashed_replicate_nil, ofDashed_replicate_nil]
      simp [Flags.join]
  · have hflags := ofDashed_flags_of_head ⟨flags.verbose || decide (0 < n), flags.debug⟩ htail
    have hnone := ofDashed_flags_of_head ⟨false || decide (0 < n), false⟩ htail
    rw [ofDashed_replicate hne, ofDashed_replicate hne, hflags, hnone]
    simp [Flags.join, Bool.or_assoc, Bool.or_comm]

theorem ofDashed_unknown (flags : Flags) {body : List Char} (hne : body ≠ []) (hv : body.head? ≠ some 'v')
    (hV : body.head? ≠ some 'V') (hlong : ∀ a ∈ ["--", "--verbose", "--debug", "--version"], '-' :: body ≠ a.toList) :
    Argument.ofDashed flags body = ⟨flags, .unknown (String.ofList ('-' :: body))⟩ := by
  simp only [List.forall_mem_cons] at hlong
  fun_cases Argument.ofDashed flags body <;> simp_all

theorem ofDashed_meaning_ne_operand (flags : Flags) {body : List Char} (h : body ≠ []) :
    (Argument.ofDashed flags body).meaning ≠ .operand := by
  fun_induction Argument.ofDashed flags body with
  | case4 flags c body ih => exact ih nofun
  | _ => simp_all

namespace Loop

theorem turn_turns (s : Loop) (a : String) (rest : List String) : Turns s a rest (s.turn a rest) := by
  unfold turn
  by_cases hterminator : a = "--"
  · rw [if_pos hterminator]
    exact .terminator hterminator
  rw [if_neg hterminator]
  by_cases hverbose : a = "-v" ∨ a = "--verbose"
  · rw [if_pos hverbose]
    obtain rfl | rfl := hverbose
    · exact .flags rfl
    · exact .flags rfl
  rw [if_neg hverbose]
  by_cases hdebug : a = "--debug"
  · rw [if_pos hdebug, hdebug]
    exact .flags rfl
  rw [if_neg hdebug]
  by_cases hversion : a = "-V" ∨ a = "--version"
  · rw [if_pos hversion]
    obtain rfl | rfl := hversion
    · exact .version rfl
    · exact .version rfl
  rw [if_neg hversion]
  split
  · rename_i c tail hlist
    have hshort : Argument.read (String.ofList ('-' :: c :: tail)) = Argument.ofDashed {} (c :: tail) :=
      Argument.read_of_toList String.toList_ofList
    refine .shortened ?_ ?_ ?_
    · simp [hlist]
    · rw [hshort]
      exact ofDashed_meaning_ne_operand _ nofun
    · rw [hshort, ← ofDashed_flags, Argument.read_of_toList hlist, ofDashed_short]
  · rename_i tail hlist
    apply Turns.version
    rw [Argument.read_of_toList hlist, Argument.ofDashed]
  · rename_i c tail hshort hversion' hlist
    apply Turns.unknown
    have hne (b : String) (hb : a ≠ b) : '-' :: c :: tail ≠ b.toList := by
      rwa [← hlist, ne_eq, String.toList_inj]
    have hlong : ∀ b ∈ ["--", "--verbose", "--debug", "--version"], '-' :: c :: tail ≠ b.toList := by
      simp only [List.forall_mem_cons]
      exact ⟨hne _ hterminator, hne _ (hverbose ∘ .inr), hne _ hdebug, hne _ (hversion ∘ .inr), by simp⟩
    have hv : (c :: tail).head? ≠ some 'v' := by
      intro hc
      cases tail with
      | nil => exact hne "-v" (hverbose ∘ .inl) (by simpa using hc)
      | cons d tail => exact hshort d tail (by simpa using hc) rfl
    have hV : (c :: tail).head? ≠ some 'V' := by simpa using hversion'
    rw [Argument.read_of_toList hlist, ofDashed_unknown {} (List.cons_ne_nil c tail) hv hV hlong, ← hlist,
      String.ofList_toList]
  · apply Turns.operand
    unfold Argument.read
    split
    · rename_i body hbody
      cases body with
      | nil => rfl
      | cons c body => simp_all
    · rfl

def weight : List String → Nat
  | [] => 0
  | a :: pending => a.toList.length + 1 + weight pending

theorem Turns.weight_lt {s s' : Loop} {a : String} {rest : List String} (h : Turns s a rest (.going s')) :
    weight s'.pending < weight (a :: rest) := by
  cases h with
  | flags => simp [weight, set]
  | shortened hshort => simpa [weight, set] using hshort
  | unknown => simp [weight, push]
  | operand => simp [weight, push]

/-- **Reading by the loop**; nothing comes out where an argument asks for the version. -/
def run (s : Loop) : Option CommandLine :=
  match _hpending : s.pending with
  | [] => some s.sorted
  | a :: rest =>
    match _hturn : s.turn a rest with
    | .version => none
    | .finished l => some l
    | .going s' => run s'
termination_by weight s.pending
decreasing_by
  have hturns := s.turn_turns a rest
  rw [_hturn] at hturns
  rw [_hpending]
  exact hturns.weight_lt

def result (s : Loop) : Option CommandLine := (CommandLine.ofArguments s.late s.pending).map s.sorted.append

end Loop

def Turn.result : Turn → Option CommandLine
  | .version => none
  | .finished l => some l
  | .going s => s.result

/-! ## What comes out of the loop -/

theorem ofArguments_of_shortened {a a' : String} (late : Bool) (rest : List String)
    (hoperand : (Argument.read a').meaning ≠ .operand)
    (h : Argument.read a = ⟨(Argument.read a').flags.join { verbose := true }, (Argument.read a').meaning⟩) :
    CommandLine.ofArguments late (a :: rest)
      = (CommandLine.ofArguments late (a' :: rest)).map (·.setFlags { verbose := true }) := by
  rw [CommandLine.ofArguments, CommandLine.ofArguments, h]
  cases hmeaning : (Argument.read a').meaning with
  | operand => exact absurd hmeaning hoperand
  | _ => simp [CommandLine.setFlags, Flags.join, Function.comp_def, Bool.or_comm]

theorem CommandLine.append_setFlags (l l' : CommandLine) (flags : Flags) :
    l.append (l'.setFlags flags) = (l.setFlags flags).append l' := by
  simp [append, setFlags, Flags.join, Bool.or_comm, Bool.or_left_comm]

theorem CommandLine.append_put (l l' : CommandLine) (late : Bool) (a : String) :
    l.append (l'.put late a) = (l.pushAll late [a]).append l' := by
  cases late <;> simp [append, put, pushAll]

theorem CommandLine.append_afterTerminator (l : CommandLine) (late : Bool) (rest : List String) :
    l.append (afterTerminator late rest) = l.pushAll late (if late then "--" :: rest else rest) := by
  cases late <;> simp [append, afterTerminator, pushAll, Flags.join]

theorem CommandLine.setFlags_none (l : CommandLine) : l.setFlags {} = l := by
  simp [setFlags, Flags.join]

/-- No turn changes what comes out. -/
theorem Loop.Turns.result_eq {s : Loop} {a : String} {rest : List String} {t : Turn} (h : Turns s a rest t)
    (hpending : s.pending = a :: rest) : s.result = t.result := by
  unfold Loop.result
  rw [hpending]
  cases h with
  | terminator ha =>
    have hread : Argument.read a = ⟨{}, .terminator⟩ := by
      rw [ha]
      rfl
    rw [CommandLine.ofArguments, hread, ha]
    simp only [Option.map_some, CommandLine.setFlags_none, CommandLine.append_afterTerminator]
    rfl
  | flags hread =>
    rw [CommandLine.ofArguments, hread]
    simp only [Option.map_map, Turn.result, Loop.result, Loop.set]
    congr 1
    funext l
    exact CommandLine.append_setFlags _ _ _
  | version hread =>
    rw [CommandLine.ofArguments, hread]
    rfl
  | shortened hshort hoperand hread =>
    rw [ofArguments_of_shortened s.late rest hoperand hread]
    simp only [Option.map_map, Turn.result, Loop.result, Loop.set]
    congr 1
    funext l
    exact CommandLine.append_setFlags _ _ _
  | unknown hread =>
    rw [CommandLine.ofArguments, hread]
    simp only [Option.map_map, Turn.result, Loop.result, Loop.push, CommandLine.setFlags_none]
    congr 1
    funext l
    exact CommandLine.append_put _ _ _ _
  | operand hread =>
    rw [CommandLine.ofArguments, hread]
    simp only [Option.map_map, Turn.result, Loop.result, Loop.push]
    congr 1
    funext l
    exact CommandLine.append_put _ _ _ _

theorem Loop.result_eq_turn {s : Loop} {a : String} {rest : List String} (h : s.pending = a :: rest) :
    s.result = (s.turn a rest).result := (s.turn_turns a rest).result_eq h

theorem Loop.run_eq (s : Loop) : s.run = s.result := by
  fun_induction Loop.run s with
  | case1 s hpending => simp [result, hpending, CommandLine.ofArguments, CommandLine.append, Flags.join]
  | case2 s a rest hpending hturn =>
    rw [result_eq_turn hpending, hturn]
    rfl
  | case3 s a rest hpending l hturn =>
    rw [result_eq_turn hpending, hturn]
    rfl
  | case4 s a rest hpending s' hturn ih =>
    rw [ih, result_eq_turn hpending, hturn]
    rfl

/-- **A command line is read as the loop reads it.** -/
theorem Invocation.read_eq_run (argv : List String) :
    Invocation.read argv = (Loop.run { pending := argv }).elim .version .ofCommandLine := by
  have happend (l : CommandLine) : CommandLine.append {} l = l := by
    simp [CommandLine.append, Flags.join]
  rw [Loop.run_eq, Loop.result, Option.map_congr fun l _ => happend l, Option.map_id']
  unfold Invocation.read
  cases CommandLine.ofArguments false argv <;> rfl

end Arguments
end LogVerdict
