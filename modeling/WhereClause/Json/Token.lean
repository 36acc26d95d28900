import WhereClause.Json.Escape
import WhereClause.Json.Numeral

/-! The tokens of a JSON text. -/
namespace WhereClause.Json

/-- A token: punctuation, a string, or another scalar value. -/
inductive Token where
  | beginArray
  | endArray
  | beginObject
  | endObject
  | comma
  | colon
  | string (s : String)
  | scalar (value : Json)

namespace Token

/-- The blanks between tokens. -/
def isBlank (c : Char) : Bool :=
  c == ' ' || c == '\n' || c == '\t' || c == '\r'

/-- The rest of a string after its opening quote, up to the closing one, with the characters read so
far in reverse. Control characters are refused. -/
def string? (read : List Char) (text : List Char) : Option (String × List Char) :=
  match text with
  | [] => none
  | '"' :: rest => some (String.ofList read.reverse, rest)
  | '\\' :: rest =>
    match h : Escape.read? rest with
    | some (c, after) =>
      have := Escape.length_read? h
      string? (c :: read) after
    | none => none
  | c :: rest => if c.toNat < 0x20 then none else string? (c :: read) rest
termination_by text.length
decreasing_by
  · exact Nat.lt_succ_of_lt this
  · exact Nat.lt_succ_self rest.length

/-- The digits at the start of a text, of which there must be one. -/
def digits? (text : List Char) : Option (List Char × List Char) :=
  let digits := text.takeWhile Char.isDigit
  if digits = [] then none else some (digits, text.dropWhile Char.isDigit)

/-- The digits before the point. A zero stands alone. -/
def whole? : List Char → Option (List Char × List Char)
  | '0' :: rest => some (['0'], rest)
  | text => digits? text

/-- The digits after a point, if there is a point. -/
def fraction? : List Char → Option (Option (List Char) × List Char)
  | '.' :: text => (digits? text).map fun (digits, rest) => (some digits, rest)
  | text => some (none, text)

/-- The exponent with its sign, if there is a mark for it. -/
def exponent? : List Char → Option (Option (Bool × List Char) × List Char)
  | [] => some (none, [])
  | mark :: text =>
    if mark = 'e' ∨ mark = 'E' then
      let (negative, text) := Decimal.splitSign text
      (digits? text).map fun (digits, rest) => (some (negative, digits), rest)
    else some (none, mark :: text)

/-- The digits of a number after its sign. -/
def unsigned? (negative : Bool) (text : List Char) : Option (Numeral × List Char) := do
  let (whole, text) ← whole? text
  let (fraction, text) ← fraction? text
  let (exponent, text) ← exponent? text
  return (⟨negative, whole, fraction, exponent⟩, text)

/-- The number at the start of a text. -/
def numeral? : List Char → Option (Numeral × List Char)
  | '-' :: text => unsigned? true text
  | text => unsigned? false text

/-- The token at the start of a text, and the text after it. -/
def next? (text : List Char) : Option (Token × List Char) :=
  match text with
  | '[' :: rest => some (beginArray, rest)
  | ']' :: rest => some (endArray, rest)
  | '\x7b' :: rest => some (beginObject, rest)
  | '\x7d' :: rest => some (endObject, rest)
  | ',' :: rest => some (comma, rest)
  | ':' :: rest => some (colon, rest)
  | '"' :: rest => (string? [] rest).map fun (s, rest) => (string s, rest)
  | 't' :: 'r' :: 'u' :: 'e' :: rest => some (scalar (.bool true), rest)
  | 'f' :: 'a' :: 'l' :: 's' :: 'e' :: rest => some (scalar (.bool false), rest)
  | 'n' :: 'u' :: 'l' :: 'l' :: rest => some (scalar .null, rest)
  | text => do
    let (numeral, rest) ← numeral? text
    let n ← numeral.value?
    return (scalar (.number n), rest)

theorem length_string? {read text rest : List Char} {s : String}
    (h : string? read text = some (s, rest)) : rest.length < text.length := by
  fun_induction string? read text with
  | case1 => cases h
  | case2 =>
    simp only [Option.some.injEq, Prod.mk.injEq] at h
    simp [← h.2]
  | case3 _ _ _ _ _ shorter ih => have := ih h; simp; omega
  | case4 => cases h
  | case5 => cases h
  | case6 _ _ _ _ _ _ ih => have := ih h; simp; omega

theorem length_digits? {text digits rest : List Char} (h : digits? text = some (digits, rest)) :
    rest.length < text.length := by
  simp only [digits?] at h
  split at h
  · cases h
  · rename_i hne
    simp only [Option.some.injEq, Prod.mk.injEq] at h
    have hsplit := congrArg List.length (List.takeWhile_append_dropWhile (p := Char.isDigit) (l := text))
    have := List.length_pos_iff.2 hne
    rw [List.length_append] at hsplit
    rw [← h.2]; omega

theorem length_whole? {text digits rest : List Char} (h : whole? text = some (digits, rest)) :
    rest.length < text.length := by
  unfold whole? at h
  split at h
  · simp only [Option.some.injEq, Prod.mk.injEq] at h
    simp [← h.2]
  · exact length_digits? h

theorem length_fraction? {text rest : List Char} {digits : Option (List Char)}
    (h : fraction? text = some (digits, rest)) : rest.length ≤ text.length := by
  unfold fraction? at h
  split at h
  · simp only [Option.map_eq_some_iff, Prod.exists, Prod.mk.injEq] at h
    obtain ⟨_, _, hd, _, rfl⟩ := h
    have := length_digits? hd
    simp; omega
  · simp only [Option.some.injEq, Prod.mk.injEq] at h
    simp [← h.2]

theorem length_splitSign (text : List Char) :
    (Decimal.splitSign text).2.length ≤ text.length := by
  unfold Decimal.splitSign
  split <;> simp

theorem length_exponent? {text rest : List Char} {written : Option (Bool × List Char)}
    (h : exponent? text = some (written, rest)) : rest.length ≤ text.length := by
  unfold exponent? at h
  split at h
  · simp only [Option.some.injEq, Prod.mk.injEq] at h
    simp [← h.2]
  · rename_i mark text
    split at h
    · simp only [Option.map_eq_some_iff, Prod.exists, Prod.mk.injEq] at h
      obtain ⟨_, _, hd, _, rfl⟩ := h
      have := length_digits? hd
      have := length_splitSign text
      simp; omega
    · simp only [Option.some.injEq, Prod.mk.injEq] at h
      simp [← h.2]

theorem length_numeral? {text rest : List Char} {numeral : Numeral}
    (h : numeral? text = some (numeral, rest)) : rest.length < text.length := by
  have key : ∀ {negative : Bool} {text : List Char},
      unsigned? negative text = some (numeral, rest) → rest.length < text.length := by
    intro negative text h
    simp only [unsigned?, Option.bind_eq_bind, Option.bind_eq_some_iff, Prod.exists,
      Option.pure_def, Option.some.injEq, Prod.mk.injEq] at h
    obtain ⟨_, _, hw, _, _, hf, _, _, he, _, rfl⟩ := h
    have := length_whole? hw
    have := length_fraction? hf
    have := length_exponent? he
    omega
  unfold numeral? at h
  split at h
  · have := key h; simp; omega
  · exact key h

/-- A token takes at least one character of the text. -/
theorem length_next? {text rest : List Char} {token : Token}
    (h : next? text = some (token, rest)) : rest.length < text.length := by
  unfold next? at h
  split at h <;> try (simp only [Option.some.injEq, Prod.mk.injEq] at h; simp [← h.2]; try omega)
  · simp only [Option.map_eq_some_iff, Prod.exists, Prod.mk.injEq] at h
    obtain ⟨_, _, hs, _, rfl⟩ := h
    have := length_string? hs
    simp; omega
  · simp only [Option.bind_eq_bind, Option.bind_eq_some_iff, Prod.exists, Option.pure_def,
      Option.some.injEq, Prod.mk.injEq] at h
    obtain ⟨_, _, hn, _, _, _, rfl⟩ := h
    exact length_numeral? hn

/-- The tokens of a text, with those read so far in reverse. -/
def scan (read : List Token) (text : List Char) : Option (List Token) :=
  match text with
  | [] => some read.reverse
  | c :: rest =>
    if isBlank c then scan read rest
    else match h : next? (c :: rest) with
      | some (token, after) =>
        have := length_next? h
        scan (token :: read) after
      | none => none
termination_by text.length
decreasing_by
  · exact Nat.lt_succ_self rest.length
  · exact this

theorem scan_nil (read : List Token) : scan read [] = some read.reverse := by
  rw [scan.eq_def]

theorem scan_cons (read : List Token) (c : Char) (rest : List Char) :
    scan read (c :: rest) = if isBlank c then scan read rest else
      (next? (c :: rest)).bind fun (token, after) => scan (token :: read) after := by
  rw [scan.eq_def]
  dsimp only
  split
  · rfl
  · split
    · rename_i h
      rw [h]
      rfl
    · rename_i h
      rw [h]
      rfl

def ofText? (text : List Char) : Option (List Token) :=
  scan [] text

end Token

end WhereClause.Json
