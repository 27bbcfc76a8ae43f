/-!
# Text.Utf8 — bytes to characters and back

`decode` reads any bytes at all, one at a time: a valid sequence becomes its character, and each longest run of bytes
that starts a valid sequence but does not finish it, like each byte that can start none, becomes one replacement
character.  A byte order mark is a character as any other.
-/
namespace LogVerdict.Text.Utf8

def replacement : Char := '\ufffd'

/-- Where the decoder stands: between characters, or inside one, where `later` bytes follow the next one, which must
lie between `low` and `high`, and `bits` is what the bytes so far say of the character. -/
inductive State
  | between
  | inside (later bits : Nat) (low high : UInt8)
  deriving DecidableEq, Repr

/-- The first byte of a character: the characters it completes, and the state after it.  The ranges leave out the
overlong forms, the surrogates and what lies above the last code point. -/
def lead (b : UInt8) : List Char × State :=
  let n := b.toNat
  if n < 0x80 then ([Char.ofNat n], .between)
  else if 0xC2 ≤ n ∧ n ≤ 0xDF then ([], .inside 0 (n - 0xC0) 0x80 0xBF)
  else if n = 0xE0 then ([], .inside 1 (n - 0xE0) 0xA0 0xBF)
  else if n = 0xED then ([], .inside 1 (n - 0xE0) 0x80 0x9F)
  else if 0xE1 ≤ n ∧ n ≤ 0xEF then ([], .inside 1 (n - 0xE0) 0x80 0xBF)
  else if n = 0xF0 then ([], .inside 2 (n - 0xF0) 0x90 0xBF)
  else if 0xF1 ≤ n ∧ n ≤ 0xF3 then ([], .inside 2 (n - 0xF0) 0x80 0xBF)
  else if n = 0xF4 then ([], .inside 2 (n - 0xF0) 0x80 0x8F)
  else ([replacement], .between)

/-- One byte: the characters it completes, and the state after it.  A byte that does not continue the character at
hand ends it as a replacement and is read again as a first byte. -/
def step : State → UInt8 → List Char × State
  | .between, b => lead b
  | .inside later bits low high, b =>
    if low ≤ b ∧ b ≤ high then
      let bits := bits * 0x40 + (b.toNat - 0x80)
      match later with
      | 0 => ([Char.ofNat bits], .between)
      | later + 1 => ([], .inside later bits 0x80 0xBF)
    else
      let (cs, q) := lead b
      (replacement :: cs, q)

def finish : State → List Char
  | .between => []
  | .inside .. => [replacement]

def decodeFrom : State → List UInt8 → List Char
  | q, [] => finish q
  | q, b :: bs => (step q b).1 ++ decodeFrom (step q b).2 bs

/-- The decoder at work: its state, and the characters so far, the last one first. -/
structure Progress where
  state : State
  text : List Char

def Progress.push (p : Progress) (b : UInt8) : Progress :=
  let (cs, q) := step p.state b
  ⟨q, cs.reverse ++ p.text⟩

def decode (bytes : List UInt8) : List Char :=
  let p := bytes.foldl Progress.push ⟨.between, []⟩
  (finish p.state ++ p.text).reverse

def encode (s : List Char) : List UInt8 := s.flatMap String.utf8EncodeChar

theorem reverse_finish (q : State) : (finish q).reverse = finish q := by cases q <;> rfl

theorem foldl_push : ∀ (bs : List UInt8) (p : Progress),
    (finish (bs.foldl Progress.push p).state ++ (bs.foldl Progress.push p).text).reverse
      = p.text.reverse ++ decodeFrom p.state bs
  | [], p => by rw [List.foldl_nil, List.reverse_append, reverse_finish, decodeFrom]
  | b :: bs, p => by
    rw [List.foldl_cons, foldl_push bs, decodeFrom]
    simp [Progress.push]

theorem decode_eq (bs : List UInt8) : decode bs = decodeFrom .between bs := by
  simpa [decode] using foldl_push bs ⟨.between, []⟩

end LogVerdict.Text.Utf8
