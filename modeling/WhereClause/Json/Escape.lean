/-! Escaped characters in JSON strings. -/
namespace WhereClause.Json.Escape

/-- The value of a hexadecimal digit in either case. -/
def hexDigit? (c : Char) : Option Nat :=
  if c.isDigit then some (c.toNat - '0'.toNat)
  else if 'a' ≤ c ∧ c ≤ 'f' then some (c.toNat - 'a'.toNat + 10)
  else if 'A' ≤ c ∧ c ≤ 'F' then some (c.toNat - 'A'.toNat + 10)
  else none

/-- The 16-bit unit that four hexadecimal digits give, and the text after them. -/
def unit? : List Char → Option (Nat × List Char)
  | a :: b :: c :: d :: rest => do
    let a ← hexDigit? a
    let b ← hexDigit? b
    let c ← hexDigit? c
    let d ← hexDigit? d
    return (4096 * a + 256 * b + 16 * c + d, rest)
  | _ => none

/-- The character that a high surrogate and the escaped low surrogate after it stand for. -/
def pair? (high : Nat) : List Char → Option (Char × List Char)
  | '\\' :: 'u' :: text => do
    let (low, rest) ← unit? text
    if 0xDC00 ≤ low ∧ low < 0xE000 then
      some (Char.ofNat (0x10000 + 1024 * (high - 0xD800) + (low - 0xDC00)), rest)
    else none
  | _ => none

/-- The character of one unit, or of two if the first is a high surrogate. A surrogate without its
partner is refused. -/
def numeric? (text : List Char) : Option (Char × List Char) := do
  let (unit, rest) ← unit? text
  if 0xD800 ≤ unit ∧ unit < 0xDC00 then pair? unit rest
  else if 0xDC00 ≤ unit ∧ unit < 0xE000 then none
  else some (Char.ofNat unit, rest)

/-- The character of an escape after its backslash, and the text that follows. -/
def read? : List Char → Option (Char × List Char)
  | '"' :: rest => some ('"', rest)
  | '\\' :: rest => some ('\\', rest)
  | '/' :: rest => some ('/', rest)
  | 'b' :: rest => some ('\x08', rest)
  | 'f' :: rest => some ('\x0c', rest)
  | 'n' :: rest => some ('\n', rest)
  | 'r' :: rest => some ('\r', rest)
  | 't' :: rest => some ('\t', rest)
  | 'u' :: rest => numeric? rest
  | _ => none

theorem length_unit? {text rest : List Char} {unit : Nat} (h : unit? text = some (unit, rest)) :
    rest.length < text.length := by
  unfold unit? at h
  split at h
  · simp only [Option.bind_eq_bind, Option.bind_eq_some_iff, Option.pure_def, Option.some.injEq,
      Prod.mk.injEq] at h
    obtain ⟨_, _, _, _, _, _, _, _, _, rfl⟩ := h
    simp; omega
  · cases h

theorem length_pair? {high : Nat} {text rest : List Char} {c : Char}
    (h : pair? high text = some (c, rest)) : rest.length < text.length := by
  unfold pair? at h
  split at h
  · simp only [Option.bind_eq_bind, Option.bind_eq_some_iff, Prod.exists] at h
    obtain ⟨low, after, hu, h⟩ := h
    have := length_unit? hu
    split at h
    · simp only [Option.some.injEq, Prod.mk.injEq] at h
      simp only [← h.2, List.length_cons]; omega
    · cases h
  · cases h

theorem length_numeric? {text rest : List Char} {c : Char}
    (h : numeric? text = some (c, rest)) : rest.length < text.length := by
  simp only [numeric?, Option.bind_eq_bind, Option.bind_eq_some_iff, Prod.exists] at h
  obtain ⟨unit, after, hu, h⟩ := h
  have := length_unit? hu
  split at h
  · have := length_pair? h; omega
  · split at h
    · cases h
    · simp only [Option.some.injEq, Prod.mk.injEq] at h
      simpa only [← h.2] using this

theorem length_read? {text rest : List Char} {c : Char} (h : read? text = some (c, rest)) :
    rest.length < text.length := by
  unfold read? at h
  split at h <;> try (simp only [Option.some.injEq, Prod.mk.injEq] at h; simp [← h.2])
  · have := length_numeric? h; simp; omega
  · cases h

end WhereClause.Json.Escape
