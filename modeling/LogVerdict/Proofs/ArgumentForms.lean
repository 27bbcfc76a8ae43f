import LogVerdict.Arguments.Invocation
/-!
# ArgumentForms — the forms of an argument that a check accepts

An argument is a flag, a terminator or plain, or else it asks for the version or is not known.  Flags and terminators
may stand behind a bundle of short flags (`bundle`), and reading an argument is reading what stands behind its bundle
(`ofDashed_replicate`).  `Argument.read_cases` says once what an argument can be read as.
-/
namespace LogVerdict

def Flags.asks (f : Flags) : Bool := f.verbose || f.debug

@[simp] theorem Flags.asks_join (a b : Flags) : (a.join b).asks = (a.asks || b.asks) := by
  unfold asks join
  cases a.verbose <;> cases a.debug <;> simp

namespace Arguments

open Text (unitLength)

def bundle (n : Nat) (tail : String) : String := "-" ++ String.ofList (List.replicate n 'v') ++ tail

/-- **A flag**: one by its long name, or a bundle that is nothing else or ends in a long name. -/
def IsFlag (a : String) : Prop :=
  a = "--verbose" ∨ a = "--debug" ∨
    ∃ n, a = bundle (n + 1) "" ∨ a = bundle (n + 1) "-verbose" ∨ a = bundle (n + 1) "-debug"

/-- **A terminator**: two dashes, the second one perhaps behind a bundle. -/
def IsTerminator (a : String) : Prop := a = "--" ∨ ∃ n, a = bundle (n + 1) "-"

/-- **A plain argument**: one without a dash in front, or with nothing behind it. -/
def IsPlain (a : String) : Prop := unitLength a.toList ≤ 1 ∨ a.toList.head? ≠ some '-'

theorem toList_bundle (n : Nat) (tail : String) :
    (bundle n tail).toList = '-' :: (List.replicate n 'v' ++ tail.toList) := by
  unfold bundle
  simp

theorem bundle_ne_terminator (n : Nat) : bundle (n + 1) "-" ≠ "--" := by
  intro h
  have hlist := congrArg String.toList h
  rw [toList_bundle] at hlist
  simp [List.replicate_succ] at hlist

theorem Argument.read_of_toList {a : String} {body : List Char} (h : a.toList = '-' :: body) :
    read a = ofDashed {} body := by
  simp only [read, h]

theorem ofDashed_short (flags : Flags) (c : Char) (body : List Char) :
    Argument.ofDashed flags ('v' :: c :: body) = Argument.ofDashed { flags with verbose := true } (c :: body) := by
  rw [Argument.ofDashed]

theorem ofDashed_replicate {tail : List Char} (h : tail ≠ []) : ∀ (n : Nat) (flags : Flags),
    Argument.ofDashed flags (List.replicate n 'v' ++ tail)
      = Argument.ofDashed { flags with verbose := flags.verbose || decide (0 < n) } tail
  | 0, flags => by simp
  | n + 1, flags => by
    obtain ⟨c, body, hbody⟩ : ∃ c body, List.replicate n 'v' ++ tail = c :: body :=
      List.exists_cons_of_ne_nil (by simp [h])
    rw [List.replicate_succ, List.cons_append, hbody, ofDashed_short, ← hbody, ofDashed_replicate h n]
    simp

theorem ofDashed_replicate_nil (flags : Flags) : ∀ (n : Nat),
    Argument.ofDashed flags (List.replicate (n + 1) 'v') = ⟨{ flags with verbose := true }, .flags⟩
  | 0 => rfl
  | n + 1 => by
    rw [List.replicate_succ, List.replicate_succ, ofDashed_short, ← List.replicate_succ, ofDashed_replicate_nil _ n]

theorem read_bundle {tail : String} (h : tail.toList ≠ []) (n : Nat) :
    Argument.read (bundle n tail) = Argument.ofDashed { verbose := decide (0 < n) } tail.toList := by
  rw [Argument.read_of_toList (toList_bundle n tail)]
  exact ofDashed_replicate h n {}

theorem read_bundle_nil (n : Nat) : Argument.read (bundle (n + 1) "") = ⟨{ verbose := true }, .flags⟩ := by
  rw [Argument.read_of_toList (toList_bundle (n + 1) ""), String.toList_empty, List.append_nil]
  exact ofDashed_replicate_nil {} n

/-! ## Reading each form -/

theorem IsFlag.read_eq {a : String} (h : IsFlag a) : ∃ flags, Argument.read a = ⟨flags, .flags⟩ ∧ flags.asks = true := by
  have hverbose (n : Nat) :
      ∃ flags, Argument.read (bundle n "-verbose") = ⟨flags, .flags⟩ ∧ flags.asks = true := by
    rw [read_bundle (by decide)]
    exact ⟨_, rfl, rfl⟩
  have hdebug (n : Nat) : ∃ flags, Argument.read (bundle n "-debug") = ⟨flags, .flags⟩ ∧ flags.asks = true := by
    rw [read_bundle (by decide)]
    refine ⟨_, rfl, ?_⟩
    simp [Flags.asks]
  obtain rfl | rfl | ⟨n, rfl | rfl | rfl⟩ := h
  · exact hverbose 0
  · exact hdebug 0
  · rw [read_bundle_nil]
    exact ⟨_, rfl, rfl⟩
  · exact hverbose (n + 1)
  · exact hdebug (n + 1)

theorem IsTerminator.read_eq {a : String} (h : IsTerminator a) :
    ∃ flags, Argument.read a = ⟨flags, .terminator⟩ ∧ (flags.asks = true ↔ a ≠ "--") := by
  obtain rfl | ⟨n, rfl⟩ := h
  · refine ⟨{}, rfl, ?_⟩
    simp [Flags.asks]
  · rw [read_bundle (by decide)]
    refine ⟨_, rfl, ?_⟩
    simp [Flags.asks, bundle_ne_terminator]

theorem IsPlain.read_eq {a : String} (h : IsPlain a) : Argument.read a = ⟨{}, .operand⟩ := by
  unfold Argument.read
  split
  · rename_i body hbody
    rw [IsPlain, hbody] at h
    have hlength : unitLength ('-' :: body) ≤ 1 := h.resolve_right (by simp)
    cases body with
    | nil => rfl
    | cons c body =>
      have hdash := Text.width_pos '-'
      have hc := Text.width_pos c
      rw [Text.unitLength_cons, Text.unitLength_cons] at hlength
      omega
  · rfl

/-! ## Every argument has a form -/

theorem exists_bundle (body : List Char) :
    ∃ n tail, body = List.replicate n 'v' ++ tail ∧ tail.head? ≠ some 'v' := by
  induction body with
  | nil => exact ⟨0, [], rfl, nofun⟩
  | cons c body ih =>
    by_cases hc : c = 'v'
    · obtain ⟨n, tail, rfl, htail⟩ := ih
      exact ⟨n + 1, tail, by rw [hc]; rfl, htail⟩
    · exact ⟨0, c :: body, rfl, by simpa using hc⟩

theorem ofDashed_cases (flags : Flags) {tail : List Char} (h : tail.head? ≠ some 'v') (hne : tail ≠ []) :
    tail = "-".toList ∨ tail = "-verbose".toList ∨ tail = "-debug".toList ∨
      (Argument.ofDashed flags tail).meaning = .version ∨
      ∃ option, (Argument.ofDashed flags tail).meaning = .unknown option := by
  fun_cases Argument.ofDashed flags tail <;> simp_all

theorem isFlag_bundle (n : Nat) {tail : String} (h : tail = "-verbose" ∨ tail = "-debug") : IsFlag (bundle n tail) := by
  cases n with
  | zero =>
    obtain rfl | rfl := h
    · exact .inl rfl
    · exact .inr (.inl rfl)
  | succ n =>
    obtain rfl | rfl := h
    · exact .inr (.inr ⟨n, .inr (.inl rfl)⟩)
    · exact .inr (.inr ⟨n, .inr (.inr rfl)⟩)

theorem isTerminator_bundle (n : Nat) : IsTerminator (bundle n "-") := by
  cases n with
  | zero => exact .inl rfl
  | succ n => exact .inr ⟨n, rfl⟩

/-- An argument has one of the three forms, or it asks for the version or is not known. -/
theorem Argument.read_cases (a : String) :
    IsPlain a ∨ IsFlag a ∨ IsTerminator a ∨ (read a).meaning = .version ∨
      ∃ option, (read a).meaning = .unknown option := by
  by_cases hhead : a.toList.head? = some '-'
  · obtain ⟨body, hbody⟩ := List.head?_eq_some_iff.1 hhead
    obtain ⟨n, tail, rfl, htail⟩ := exists_bundle body
    have ha : a = bundle n (String.ofList tail) := by
      rw [← String.toList_inj, hbody, toList_bundle, String.toList_ofList]
    by_cases hne : tail = []
    · rw [hne] at ha
      cases n with
      | zero =>
        left
        rw [ha]
        exact .inl (by decide)
      | succ n => exact .inr (.inl (.inr (.inr ⟨n, .inl ha⟩)))
    · have hread : read a = ofDashed { verbose := decide (0 < n) } tail := by
        rw [ha, read_bundle (by simpa using hne), String.toList_ofList]
      rw [hread]
      rcases ofDashed_cases { verbose := decide (0 < n) } htail hne with h | h | h | h
      · rw [h, String.ofList_toList] at ha
        rw [ha]
        exact .inr (.inr (.inl (isTerminator_bundle n)))
      · rw [h, String.ofList_toList] at ha
        rw [ha]
        exact .inr (.inl (isFlag_bundle n (.inl rfl)))
      · rw [h, String.ofList_toList] at ha
        rw [ha]
        exact .inr (.inl (isFlag_bundle n (.inr rfl)))
      · exact .inr (.inr (.inr h))
  · exact .inl (.inr hhead)

end Arguments
end LogVerdict
