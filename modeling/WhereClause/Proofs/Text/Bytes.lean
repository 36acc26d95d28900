import Mathlib.Data.UInt
import WhereClause.Proofs.Text.Run

/-! Words in bytes. A window slides over the bytes, and where it shows the word, the bytes around it and
a look backwards decide. In any bytes this scan finds what the runs of word bytes hold, and on the
UTF-8 encoding of a text it is the scan of the text. -/
namespace WhereClause.Text

/-- The bytes of a text in UTF-8. -/
def utf8 (text : String) : List UInt8 :=
  text.toUTF8.data.toList

/-- Bytes as symbols of their own, so that laws of texts apply to bytes that encode no text. The bytes
beyond ASCII are in no word, as symbols beyond ASCII are in none. -/
def symbols (bytes : List UInt8) : List Char :=
  bytes.map UInt8.toChar

theorem symbols_append (a b : List UInt8) : symbols (a ++ b) = symbols a ++ symbols b :=
  List.map_append

theorem toChar_injective : Function.Injective UInt8.toChar := fun _ _ h =>
  UInt8.toNat_inj.mp (congrArg Char.toNat h)

theorem symbols_injective : Function.Injective symbols :=
  List.map_injective_iff.mpr toChar_injective

namespace Bytes

/-- The bytes that words are made of: ASCII letters, digits and the underscore. -/
def isWord (b : UInt8) : Bool :=
  isWordChar b.toChar

def isDigit (b : UInt8) : Bool :=
  b.toChar.isDigit

/-- Whether the run of word bytes that ends before a place begins with a digit. The run is looked for
backwards. -/
def followsNumber (bytes : List UInt8) (place : Nat) : Bool :=
  ((bytes.take place).rtakeWhile isWord).head?.any isDigit

/-- Whether a word may begin at a place: at the beginning, behind a gap, or behind a number. -/
def mayBegin (bytes : List UInt8) (place : Nat) : Bool :=
  place == 0 || bytes[place - 1]?.all (!isWord ·) || followsNumber bytes place

/-- Whether a window at a place shows a word that may begin there, with no word byte behind it. -/
def wordStandsAt (word bytes : List UInt8) (place : Nat) : Bool :=
  (bytes.drop place).take word.length == word && mayBegin bytes place &&
    bytes[place + word.length]?.all (!isWord ·)

/-- Whether a word occurs in bytes as a whole word, by a window at each place at which it fits. The
empty word does not occur. -/
def containsWord (bytes word : List UInt8) : Bool :=
  word ≠ [] && (List.range (bytes.length + 1 - word.length)).any (wordStandsAt word bytes)

/-- The longest runs of word bytes, from left to right. -/
def runs (bytes : List UInt8) : List (List UInt8) :=
  (bytes.splitOnP (!isWord ·)).filter (· ≠ [])

variable {bytes word passed behind : List UInt8}

theorem rtakeWhile_symbols (bytes : List UInt8) :
    (symbols bytes).rtakeWhile isWordChar = symbols (bytes.rtakeWhile isWord) := by
  rw [List.rtakeWhile, symbols, ← List.map_reverse, List.takeWhile_map, ← List.map_reverse]
  rfl

theorem all_head?_symbols (bytes : List UInt8) :
    (symbols bytes).head?.all (!isWordChar ·) = bytes.head?.all (!isWord ·) := by
  cases bytes <;> rfl

theorem mayBegin_append (passed rest : List UInt8) :
    mayBegin (passed ++ rest) passed.length = (Before.lookBack (symbols passed)).allowsWord := by
  rw [mayBegin, followsNumber, List.take_left, Before.lookBack, rtakeWhile_symbols]
  rcases passed.eq_nil_or_concat with rfl | ⟨front, b, rfl⟩
  · rfl
  · have hlast : (front.concat b ++ rest)[(front.concat b).length - 1]? = some b := by simp
    have hplace : ((front.concat b).length == 0) = false := by simp
    rw [hlast, hplace, List.concat_eq_append, List.rtakeWhile_concat]
    cases hb : isWord b with
    | false => simp [symbols, Before.allowsWord, hb]
    | true =>
      cases front.rtakeWhile isWord <;> simp [symbols, Before.allowsWord, hb, isDigit]

theorem wordStandsAt_append :
    wordStandsAt word (passed ++ (word ++ behind)) passed.length = true ↔
      (Before.lookBack (symbols passed)).allowsWord = true ∧
        (symbols behind).head?.all (!isWordChar ·) = true := by
  have hnext : (passed ++ (word ++ behind))[passed.length + word.length]? = behind.head? := by
    rw [List.head?_eq_getElem?, ← List.append_assoc, List.getElem?_append_right (by simp)]
    simp
  rw [wordStandsAt, mayBegin_append, hnext, List.drop_left, List.take_left, all_head?_symbols]
  simp

/-- The windows are the splits of the bytes in three. -/
theorem containsWord_iff_split : containsWord bytes word = true ↔ word ≠ [] ∧
    ∃ passed behind, bytes = passed ++ (word ++ behind) ∧
      (Before.lookBack (symbols passed)).allowsWord = true ∧
      (symbols behind).head?.all (!isWordChar ·) = true := by
  rw [containsWord, Bool.and_eq_true, decide_eq_true_eq, List.any_eq_true]
  refine and_congr_right fun _ => ⟨?_, ?_⟩
  · rintro ⟨place, hplace, hstands⟩
    rw [List.mem_range] at hplace
    have hlength : (bytes.take place).length = place := by
      rw [List.length_take]
      omega
    have hwindow : (bytes.drop place).take word.length = word := by
      simp only [wordStandsAt, Bool.and_eq_true, beq_iff_eq] at hstands
      exact hstands.1.1
    have hsplit : bytes.take place ++ (word ++ (bytes.drop place).drop word.length) = bytes := by
      nth_rewrite 1 [← hwindow]
      rw [List.take_append_drop, List.take_append_drop]
    refine ⟨bytes.take place, (bytes.drop place).drop word.length, hsplit.symm, ?_⟩
    rw [← wordStandsAt_append, hsplit, hlength]
    exact hstands
  · rintro ⟨passed, behind, rfl, hstands⟩
    refine ⟨passed.length, ?_, wordStandsAt_append.mpr hstands⟩
    rw [List.mem_range, List.length_append, List.length_append]
    omega

theorem containsWord_eq_symbols (bytes word : List UInt8) :
    containsWord bytes word = Text.containsWord (symbols bytes) (symbols word) := by
  rw [Bool.eq_iff_iff, containsWord_iff_split, Text.containsWord_iff_split]
  refine and_congr (not_congr List.map_eq_nil_iff.symm) ⟨?_, ?_⟩
  · rintro ⟨passed, behind, rfl, hstands⟩
    exact ⟨symbols passed, symbols behind, by rw [symbols_append, symbols_append], hstands⟩
  · rintro ⟨first, last, hsplit, hstands⟩
    obtain ⟨passed, rest, rfl, rfl, hrest⟩ := List.map_eq_append_iff.mp hsplit
    obtain ⟨middle, behind, rfl, hmiddle, rfl⟩ := List.map_eq_append_iff.mp hrest
    obtain rfl := symbols_injective hmiddle
    exact ⟨passed, behind, rfl, hstands⟩

theorem runs_symbols (bytes : List UInt8) : Text.runs (symbols bytes) = (runs bytes).map symbols :=
  filter_splitOnP_map UInt8.toChar (!isWordChar ·) bytes

theorem holds_symbols_iff (run word : List UInt8) : Holds (symbols run) (symbols word) ↔
    run = word ∨ run.head?.any isDigit = true ∧ word <:+ run := by
  have hdigit : (symbols run).head?.any Char.isDigit = run.head?.any isDigit := by
    cases run <;> rfl
  rw [Holds, symbols_injective.eq_iff, hdigit, symbols, symbols,
    List.suffix_map_iff_of_injective toChar_injective]

theorem containsWord_iff_exists_run (hne : word ≠ []) (hword : ∀ b ∈ word, isWord b = true)
    (bytes : List UInt8) : containsWord bytes word = true ↔
      ∃ run ∈ runs bytes, run = word ∨ run.head?.any isDigit = true ∧ word <:+ run := by
  have hchars : ∀ c ∈ symbols word, isWordChar c = true := by
    rw [symbols, List.forall_mem_map]
    exact hword
  rw [containsWord_eq_symbols,
    Text.containsWord_iff_exists_run hchars (mt List.map_eq_nil_iff.mp hne), runs_symbols]
  simp only [List.mem_map, exists_exists_and_eq_and, holds_symbols_iff]

end Bytes

/-- The symbols of words are ASCII. -/
theorem toNat_lt_of_isWordChar {c : Char} (h : isWordChar c = true) : c.toNat < 0x80 := by
  rw [isWordChar_iff, isAlpha_iff, isUpper_iff, isLower_iff, isDigit_iff] at h
  rcases h with h | rfl
  · omega
  · decide

/-- A symbol of ASCII is its own encoding. -/
theorem symbols_utf8EncodeChar {c : Char} (h : c.toNat < 0x80) :
    symbols (String.utf8EncodeChar c) = [c] := by
  have hone : c.val.toNat ≤ 0x7f := Nat.le_of_lt_succ h
  have hbyte : (UInt8.ofNat c.val.toNat).toChar = c := by
    rw [← Char.toNat_inj]
    exact Nat.mod_eq_of_lt (h.trans (by decide))
  rw [String.utf8EncodeChar, if_pos hone, symbols, List.map_singleton, hbyte]

/-- The encoding of a symbol beyond ASCII has no byte of ASCII. -/
theorem le_of_mem_utf8EncodeChar {c : Char} (h : 0x80 ≤ c.toNat) {b : UInt8}
    (hb : b ∈ String.utf8EncodeChar c) : 0x80 ≤ b.toNat := by
  have hmany : ¬ c.val.toNat ≤ 0x7f := Nat.not_le.mpr h
  rw [String.utf8EncodeChar, if_neg hmany] at hb
  -- The first byte is a remainder with 0xC0, 0xE0 or 0xF0 added, and each byte behind it one with 0x80.
  split at hb
  · simp only [List.mem_cons, List.not_mem_nil, or_false] at hb
    rcases hb with rfl | rfl <;> rw [UInt8.toNat_ofNat'] <;> omega
  · split at hb <;> simp only [List.mem_cons, List.not_mem_nil, or_false] at hb
    · rcases hb with rfl | rfl | rfl <;> rw [UInt8.toNat_ofNat'] <;> omega
    · rcases hb with rfl | rfl | rfl | rfl <;> rw [UInt8.toNat_ofNat'] <;> omega

theorem isWordChar_symbols_utf8EncodeChar {c : Char} (hc : isWordChar c = false) :
    ∀ x ∈ symbols (String.utf8EncodeChar c), isWordChar x = false := by
  rcases Nat.lt_or_ge c.toNat 0x80 with h | h
  · rw [symbols_utf8EncodeChar h, List.forall_mem_singleton]
    exact hc
  · rw [symbols, List.forall_mem_map]
    intro b hb
    rw [Bool.eq_false_iff]
    intro hword
    exact absurd (toNat_lt_of_isWordChar hword) (Nat.not_lt.mpr (le_of_mem_utf8EncodeChar h hb))

theorem runs_gap_append {gap : List Char} (h : ∀ c ∈ gap, isWordChar c = false) (text : List Char) :
    runs (gap ++ text) = runs text := by
  induction gap with
  | nil => rfl
  | cons c gap ih =>
    rw [List.forall_mem_cons] at h
    rw [← ih h.2]
    exact runs_append_cons (a := []) h.1

theorem symbols_flatMap_of_word {a : List Char} (ha : ∀ c ∈ a, isWordChar c = true) :
    symbols (a.flatMap String.utf8EncodeChar) = a := by
  induction a with
  | nil => rfl
  | cons c a ih =>
    rw [List.forall_mem_cons] at ha
    have hc := symbols_utf8EncodeChar (toNat_lt_of_isWordChar ha.1)
    rw [List.flatMap_cons, symbols_append, hc, ih ha.2, List.singleton_append]

/-- A symbol between two runs is encoded as bytes between two runs. -/
theorem runs_symbols_flatMap (text : List Char) :
    runs (symbols (text.flatMap String.utf8EncodeChar)) = runs text := by
  induction text using run_induction with
  | run a ha => rw [symbols_flatMap_of_word ha]
  | gap a c b ha hc ih =>
    have hencoded : symbols (String.utf8EncodeChar c) ≠ [] :=
      mt List.map_eq_nil_iff.mp String.utf8EncodeChar_ne_nil
    have hgap := isWordChar_symbols_utf8EncodeChar hc
    obtain ⟨d, gap, he⟩ := List.exists_cons_of_ne_nil hencoded
    rw [he, List.forall_mem_cons] at hgap
    rw [List.flatMap_append, List.flatMap_cons, symbols_append, symbols_append,
      symbols_flatMap_of_word ha, he, List.cons_append, runs_append_cons hgap.1,
      runs_gap_append hgap.2, ih, runs_append_cons hc]

theorem utf8_eq_flatMap (text : String) : utf8 text = text.toList.flatMap String.utf8EncodeChar := by
  rw [utf8, String.toUTF8_eq_toByteArray, ← String.utf8Encode_toList, List.utf8Encode,
    List.toList_data_toByteArray]

theorem symbols_utf8_of_word {text : String} (h : ∀ c ∈ text.toList, isWordChar c = true) :
    symbols (utf8 text) = text.toList := by
  rw [utf8_eq_flatMap, symbols_flatMap_of_word h]

/-- A text is scanned as its bytes are. -/
theorem containsWord_eq_utf8 {keyword : String} (hne : keyword ≠ "")
    (hword : ∀ c ∈ keyword.toList, isWordChar c = true) (text : String) :
    containsWord text.toList keyword.toList = Bytes.containsWord (utf8 text) (utf8 keyword) := by
  have hnil : keyword.toList ≠ [] := mt String.toList_eq_nil_iff.mp hne
  rw [Bytes.containsWord_eq_symbols, symbols_utf8_of_word hword, Bool.eq_iff_iff,
    containsWord_iff_exists_run hword hnil, containsWord_iff_exists_run hword hnil, utf8_eq_flatMap,
    runs_symbols_flatMap]

namespace Bytes

/-- In any bytes, whether they encode a text or not, the scan for a word finds what the longest runs of
word bytes hold: the word itself, or a run that begins with a digit and ends with it. A text is
scanned as its bytes are. -/
theorem containsWord_iff_runs_hold {keyword : String} (hne : keyword ≠ "")
    (hword : ∀ c ∈ keyword.toList, isWordChar c = true) :
    let word := utf8 keyword
    (∀ bytes : List UInt8, containsWord bytes word = true ↔
      ∃ run ∈ runs bytes, run = word ∨ run.head?.any isDigit = true ∧ word <:+ run) ∧
    ∀ text : String, Text.containsWord text.toList keyword.toList = containsWord (utf8 text) word := by
  have hsymbols := symbols_utf8_of_word hword
  have hnil : utf8 keyword ≠ [] := by
    intro hnil
    rw [hnil] at hsymbols
    exact hne (String.toList_eq_nil_iff.mp hsymbols.symm)
  have hbytes : ∀ b ∈ utf8 keyword, isWord b = true := by
    intro b hb
    exact hword b.toChar (hsymbols ▸ List.mem_map_of_mem hb)
  exact ⟨containsWord_iff_exists_run hnil hbytes, containsWord_eq_utf8 hne hword⟩

/-- A run behind a broken encoding has the keyword twice and is found for its end. Within names the keyword
is not found, and behind a letter beyond ASCII it is. -/
theorem containsWord_iff_runs_hold_garbled :
    let garbled := 0xC3 :: utf8 "1oror" ++ 0xFF :: utf8 "xor"
    "or" ≠ "" ∧ (∀ c ∈ "or".toList, isWordChar c = true) ∧
      runs garbled = [utf8 "1oror", utf8 "xor"] ∧ containsWord garbled (utf8 "or") = true ∧
      Text.containsWord "col_1or or_".toList "or".toList = false ∧
      Text.containsWord "señor".toList "or".toList = true := by
  intro garbled
  have hne : "or" ≠ "" := by decide
  have hword : ∀ c ∈ "or".toList, isWordChar c = true := List.all_eq_true.mp (by decide)
  have hruns : runs garbled = [utf8 "1oror", utf8 "xor"] := by decide
  obtain ⟨hbytes, htext⟩ := containsWord_iff_runs_hold hne hword
  refine ⟨hne, hword, hruns, ?_, ?_, ?_⟩
  · rw [hbytes, hruns]
    exact ⟨utf8 "1oror", by decide, Or.inr (by decide)⟩
  · rw [← Bool.not_eq_true, htext, hbytes]
    decide
  · rw [htext, hbytes]
    exact ⟨utf8 "or", by decide, Or.inl rfl⟩

end Bytes

end WhereClause.Text
