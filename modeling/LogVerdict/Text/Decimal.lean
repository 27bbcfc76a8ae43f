/-!
# Text.Decimal — the decimal form of a number

Counts have no size limit.  A number is read off a digit run, leading zeros allowed, and written with none
(`digits_value`).
-/
namespace LogVerdict.Text.Decimal

def value (digits : List Char) : Nat := Nat.ofDigitChars 10 digits 0

def digits (n : Nat) : List Char := Nat.toDigits 10 n

def print : Int → String
  | .ofNat n => String.ofList (digits n)
  | .negSucc n => String.ofList ('-' :: digits (n + 1))

theorem value_digits (n : Nat) : value (digits n) = n := Nat.ofDigitChars_toDigits (by decide) (by decide)

theorem ofDigitChars_eq_zero_iff : ∀ (ds : List Char) (n : Nat), (∀ c ∈ ds, c.isDigit = true) →
    (Nat.ofDigitChars 10 ds n = 0 ↔ n = 0 ∧ ∀ c ∈ ds, c = '0')
  | [], n, _ => by simp
  | c :: ds, n, h => by
    have hc := Char.isDigit_iff_toNat.1 (h c List.mem_cons_self)
    have hzero : c.toNat - '0'.toNat = 0 ↔ c = '0' := by
      rw [← Char.toNat_inj]
      omega
    rw [Nat.ofDigitChars_cons, ofDigitChars_eq_zero_iff ds _ fun d hd => h d (List.mem_cons_of_mem _ hd),
      List.forall_mem_cons, ← hzero, ← and_assoc]
    apply and_congr_left
    intro _
    omega

theorem value_eq_zero_iff {ds : List Char} (h : ∀ c ∈ ds, c.isDigit = true) : value ds = 0 ↔ ∀ c ∈ ds, c = '0' := by
  unfold value
  rw [ofDigitChars_eq_zero_iff ds 0 h]
  exact and_iff_right rfl

theorem notMem_digits {c : Char} (hc : c.isDigit = false) (n : Nat) : c ∉ digits n := by
  intro hmem
  rw [Nat.isDigit_of_mem_toDigits (by decide) (by decide) hmem] at hc
  cases hc

theorem notMem_print {c : Char} (hc : c.isDigit = false) (hminus : c ≠ '-') (n : Int) : c ∉ (print n).toList := by
  cases n with
  | ofNat n =>
    rw [print, String.toList_ofList]
    exact notMem_digits hc n
  | negSucc n =>
    rw [print, String.toList_ofList, List.mem_cons]
    exact not_or.2 ⟨hminus, notMem_digits hc (n + 1)⟩

@[simp] theorem print_natCast (n : Nat) : print n = String.ofList (digits n) := rfl

/-- The digits of a run without the zeros in front; of a run of zeros, one is left. -/
def withoutZeros (ds : List Char) : List Char :=
  match ds.dropWhile (· == '0') with
  | [] => ['0']
  | c :: r => c :: r

theorem digitChar_of_isDigit {c : Char} (h : c.isDigit = true) :
    c.toNat - '0'.toNat < 10 ∧ Nat.digitChar (c.toNat - '0'.toNat) = c := by
  have hc := Char.isDigit_iff_toNat.1 h
  have h0 : '0'.toNat = 48 := rfl
  have h9 : '9'.toNat = 57 := rfl
  have hlt : c.toNat - '0'.toNat < 10 := by omega
  refine ⟨hlt, Char.toNat_inj.1 ?_⟩
  rw [Nat.toNat_digitChar_of_lt_ten hlt]
  omega

/-- Digits behind a number that is not zero are its last digits. -/
theorem toDigits_ofDigitChars : ∀ {ds : List Char} {n : Nat}, 0 < n → (∀ c ∈ ds, c.isDigit = true) →
    Nat.toDigits 10 (Nat.ofDigitChars 10 ds n) = Nat.toDigits 10 n ++ ds
  | [], n, _, _ => by rw [Nat.ofDigitChars_nil, List.append_nil]
  | c :: ds, n, hn, h => by
    rw [List.forall_mem_cons] at h
    obtain ⟨hlt, hc⟩ := digitChar_of_isDigit h.1
    have hlast : Nat.toDigits 10 (10 * n + (c.toNat - '0'.toNat)) = Nat.toDigits 10 n ++ [c] := by
      rw [← Nat.toDigits_append_toDigits (by decide) hn hlt, Nat.toDigits_of_lt_base hlt, hc]
    rw [Nat.ofDigitChars_cons, toDigits_ofDigitChars (by omega) h.2, hlast, List.append_assoc]
    rfl

/-- **A number that was read off a digit run is written as the run without the zeros in front.** -/
theorem digits_value : ∀ {ds : List Char}, (∀ c ∈ ds, c.isDigit = true) → digits (value ds) = withoutZeros ds
  | [], _ => rfl
  | c :: ds, h => by
    rw [List.forall_mem_cons] at h
    by_cases hc : c = '0'
    · have hvalue : value (c :: ds) = value ds := by
        rw [hc, value, Nat.ofDigitChars_cons]
        rfl
      have hzeros : withoutZeros (c :: ds) = withoutZeros ds := by
        simp [withoutZeros, hc]
      rw [hvalue, hzeros, digits_value h.2]
    · obtain ⟨hlt, hdigit⟩ := digitChar_of_isDigit h.1
      have hpos : 0 < c.toNat - '0'.toNat := by
        rw [Nat.pos_iff_ne_zero]
        intro hzero
        rw [hzero] at hdigit
        exact hc hdigit.symm
      have hzeros : withoutZeros (c :: ds) = c :: ds := by
        simp [withoutZeros, hc]
      rw [digits, value, Nat.ofDigitChars_cons, Nat.mul_zero, Nat.zero_add, toDigits_ofDigitChars hpos h.2,
        Nat.toDigits_of_lt_base hlt, hdigit, hzeros]
      rfl

theorem withoutZeros_inj {ds ds' : List Char} (h : ∀ c ∈ ds, c.isDigit = true) (h' : ∀ c ∈ ds', c.isDigit = true) :
    withoutZeros ds = withoutZeros ds' ↔ value ds = value ds' := by
  rw [← digits_value h, ← digits_value h']
  constructor
  · intro heq
    rw [← value_digits (value ds), heq, value_digits]
  · intro heq
    rw [heq]

end LogVerdict.Text.Decimal
