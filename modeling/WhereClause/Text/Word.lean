/-! Words: runs of ASCII letters, digits and underscores. -/
namespace WhereClause.Text

/-- The symbols that words are made of. Letters and digits are ASCII. -/
def isWordChar (c : Char) : Bool :=
  c.isAlphanum || c == '_'

/-- The symbols that a name may begin with. Letters are ASCII. -/
def isNameStart (c : Char) : Bool :=
  c.isAlpha || c == '_'

/-- What stands before a position of a text: a gap, or a run of word symbols, which is numeric if it
began with a digit. -/
inductive Before where
  | gap
  | run (numeric : Bool)
deriving DecidableEq

/-- What stands before the next position, once a symbol has been passed. -/
def Before.pass (before : Before) (c : Char) : Before :=
  if isWordChar c then
    match before with
    | gap => run c.isDigit
    | run numeric => run numeric
  else gap

/-- A word may begin after a gap, and after a number, which ends where the word begins. -/
def Before.allowsWord : Before → Bool
  | gap => true
  | run numeric => numeric

/-- Every position of a text, as what stands before it and what follows it. -/
def positions (before : Before) : List Char → List (Before × List Char)
  | [] => [(before, [])]
  | c :: rest => (before, c :: rest) :: positions (before.pass c) rest

def contains (text part : List Char) : Bool :=
  (positions .gap text).any fun position => part.isPrefixOf position.2

/-- Containing a text is being an extension of it on both sides. -/
theorem contains_iff_infix (text part : List Char) :
    contains text part = true ↔ part <:+: text := by
  have anywhere (before : Before) :
      (positions before text).any (fun position => part.isPrefixOf position.2) = true ↔
        part <:+: text := by
    induction text generalizing before with
    | nil => simp [positions]
    | cons c rest ih =>
      rw [positions, List.any_cons, Bool.or_eq_true, ih, List.infix_cons_iff,
        List.isPrefixOf_iff_prefix]
  exact anywhere .gap

/-- Whether a word stands at a position and ends there, with no word symbol after it. -/
def wordStandsAt (word : List Char) (position : Before × List Char) : Bool :=
  position.1.allowsWord && word.isPrefixOf position.2 &&
    (position.2.drop word.length).head?.all (!isWordChar ·)

/-- Whether a word occurs in a text as a whole word. The empty word does not. -/
def containsWord (text word : List Char) : Bool :=
  word ≠ [] && (positions .gap text).any (wordStandsAt word)

end WhereClause.Text
