import WhereClause.Proofs.Condition
import WhereClause.Text.Case
import WhereClause.Text.Word

/-! The tokens of a condition in SQL. -/
namespace WhereClause

/-- The words of conditions that are no names, in any letter case. -/
inductive Keyword where
  | and
  | or
  | not
  | like
  | isIn
  | between
  | is
  | null
deriving DecidableEq

namespace Keyword

def all : List Keyword :=
  [and, or, not, like, isIn, between, is, null]

def text : Keyword → String
  | and => "and"
  | or => "or"
  | not => "not"
  | like => "like"
  | isIn => "in"
  | between => "between"
  | is => "is"
  | null => "null"

def ofWord? (word : List Char) : Option Keyword :=
  all.find? fun keyword => keyword.text.toList == word.map Char.toLower

end Keyword

/-- A token. A question mark is a placeholder until it has been given its value. -/
inductive Token where
  | keyword (k : Keyword)
  | name (word : List Char)
  | point
  | comma
  | opening
  | closing
  | order (o : Order)
  | quotes
  | mark
  | value (v : Value)
  | stray (c : Char)

namespace Token

/-- The token of a run of word symbols. A run that begins with a digit is none of a condition. -/
def ofRun : List Char → List Token
  | [] => []
  | c :: rest =>
    match Keyword.ofWord? (c :: rest) with
    | some k => [keyword k]
    | none => if Text.isNameStart c then [name (c :: rest)] else (c :: rest).map stray

/-- The token of a symbol on its own. Spaces are none. -/
def ofSymbol : Char → List Token
  | ' ' => []
  | '.' => [point]
  | ',' => [comma]
  | '(' => [opening]
  | ')' => [closing]
  | '=' => [order .equal]
  | '<' => [order .less]
  | '>' => [order .greater]
  | '?' => [mark]
  | c => [stray c]

/-- The tokens of a text after a run of word symbols. Runs are as long as they can be, and so are
comparisons. -/
def lex (run : List Char) : List Char → List Token
  | [] => ofRun run
  | '!' :: '=' :: rest => ofRun run ++ order .notEqual :: lex [] rest
  | '<' :: '=' :: rest => ofRun run ++ order .lessOrEqual :: lex [] rest
  | '>' :: '=' :: rest => ofRun run ++ order .greaterOrEqual :: lex [] rest
  | '\'' :: '\'' :: rest => ofRun run ++ quotes :: lex [] rest
  | c :: rest =>
    if Text.isWordChar c then lex (run ++ [c]) rest
    else ofRun run ++ ofSymbol c ++ lex [] rest

/-- Gives each placeholder its value, the first to the first and so on. There must be as many of the
one as of the other. -/
def supply : List Token → List Value → Option (List Token)
  | [], [] => some []
  | [], _ :: _ => none
  | mark :: _, [] => none
  | mark :: rest, v :: values => (supply rest values).map (value v :: ·)
  | token :: rest, values => (supply rest values).map (token :: ·)

/-- The tokens of a text whose placeholders stand for values. -/
def ofText? (text : List Char) (values : List Value) : Option (List Token) :=
  supply (lex [] text) values

/-- The symbols that end whatever stands before them, and form no token with what follows. -/
def breaks (c : Char) : Bool :=
  !Text.isWordChar c && !(['!', '<', '>', '=', '\''].contains c)

variable {c : Char} {a b run : List Char}

theorem lex_cons (hc : breaks c = true) :
    lex run (c :: b) = ofRun run ++ ofSymbol c ++ lex [] b := by
  have hword : Text.isWordChar c = false := by simp_all [breaks]
  have hne {x : Char} (hx : breaks x = false) : c ≠ x := fun he => by simp [he, hx] at hc
  have hfirst {x y : Char} (hx : breaks x = false) :
      ∀ more, c = x → b = y :: more → False := fun _ he _ => hne hx he
  rw [lex.eq_6 _ _ _ (hfirst (by decide)) (hfirst (by decide)) (hfirst (by decide))
    (hfirst (by decide)), hword, if_neg Bool.false_ne_true]

/-- A text is read in two parts at every symbol that breaks it. -/
theorem lex_append_cons (hc : breaks c = true) :
    lex run (a ++ c :: b) = lex run a ++ (ofSymbol c ++ lex [] b) := by
  -- a symbol that forms no token with the next one does not with the breaking one either
  have hkeep {p : Prop} {rest : List Char} {x : Char} (hx : breaks x = false)
      (h : ∀ more, p → rest = x :: more → False) :
      ∀ more, p → rest ++ c :: b = x :: more → False := by
    intro more hp he
    cases rest with
    | nil =>
      cases he
      rw [hc] at hx
      cases hx
    | cons y rest =>
      cases he
      exact h rest hp rfl
  have hequal : breaks '=' = false := by decide
  have hquote : breaks '\'' = false := by decide
  fun_induction lex run a with
  | case1 run =>
    rw [List.nil_append, lex_cons hc, List.append_assoc]
  | case2 run rest ih | case3 run rest ih | case4 run rest ih | case5 run rest ih =>
    simp [lex, ih]
  | case6 run x rest h h' h'' h''' hx ih =>
    rw [List.cons_append, lex.eq_6 _ _ _ (hkeep hequal h) (hkeep hequal h') (hkeep hequal h'')
      (hkeep hquote h'''), if_pos hx, ih]
  | case7 run x rest h h' h'' h''' hx ih =>
    rw [List.cons_append, lex.eq_6 _ _ _ (hkeep hequal h) (hkeep hequal h') (hkeep hequal h'')
      (hkeep hquote h'''), if_neg hx, ih, ← List.append_assoc _ (lex [] rest)]

theorem lex_run (ha : ∀ x ∈ a, Text.isWordChar x = true) : lex run a = ofRun (run ++ a) := by
  induction a generalizing run with
  | nil => rw [List.append_nil]; rfl
  | cons x a ih =>
    have hx : Text.isWordChar x = true := ha x List.mem_cons_self
    have hfirst {y z : Char} (hy : Text.isWordChar y = false) :
        ∀ more, x = y → a = z :: more → False := by
      rintro _ rfl
      rw [hx] at hy
      cases hy
    rw [lex.eq_6 _ _ _ (hfirst (by decide)) (hfirst (by decide)) (hfirst (by decide))
      (hfirst (by decide)), if_pos hx, ih fun y hy => ha y (List.mem_cons_of_mem x hy),
      List.append_assoc]
    rfl

theorem ofRun_name (hc : Text.isNameStart c = true) (hk : Keyword.ofWord? (c :: a) = none) :
    ofRun (c :: a) = [name (c :: a)] := by
  rw [ofRun, hk]
  exact if_pos hc

theorem supply_cons {token : Token} (h : token ≠ mark) (ts : List Token) (vs : List Value) :
    supply (token :: ts) vs = (supply ts vs).map (token :: ·) :=
  supply.eq_5 vs token ts (fun _ => h) fun _ _ _ => h

variable {ts ts' us us' : List Token} {vs ws : List Value}

theorem supply_append (h : supply ts vs = some ts') (h' : supply us ws = some us') :
    supply (ts ++ us) (vs ++ ws) = some (ts' ++ us') := by
  fun_induction supply ts vs generalizing ts' with
  | case1 =>
    cases h
    exact h'
  | case2 => cases h
  | case3 => cases h
  | case4 rest v vs ih =>
    obtain ⟨ts', hts, rfl⟩ := Option.map_eq_some_iff.mp h
    rw [List.cons_append, List.cons_append, supply, ih hts]
    rfl
  | case5 token rest vs hm hm' ih =>
    obtain ⟨ts', hts, rfl⟩ := Option.map_eq_some_iff.mp h
    have hmark : token ≠ mark := by
      cases vs with
      | nil => exact hm rfl
      | cons v vs => exact hm' v vs rfl
    rw [List.cons_append, supply_cons hmark, ih hts]
    rfl

/-- Tokens without placeholders take no values. -/
theorem supply_nil (h : mark ∉ ts) : supply ts [] = some ts := by
  induction ts with
  | nil => rfl
  | cons token rest ih =>
    rw [supply_cons fun he => h (he ▸ List.mem_cons_self),
      ih fun hm => h (List.mem_cons_of_mem _ hm)]
    rfl

theorem mark_notMem_ofSymbol (hc : c ≠ '?') : mark ∉ ofSymbol c := by
  unfold ofSymbol
  split <;> simp_all

/-- A text is read in two parts at every symbol that breaks it, and so are its values. -/
theorem ofText?_append_cons (ha : ofText? a vs = some ts) (hc : breaks c = true) (hmark : c ≠ '?')
    (hb : ofText? b ws = some us) :
    ofText? (a ++ c :: b) (vs ++ ws) = some (ts ++ (ofSymbol c ++ us)) := by
  rw [ofText?, lex_append_cons hc]
  exact supply_append ha (supply_append (supply_nil (mark_notMem_ofSymbol hmark)) hb)

/-- A space is no token. -/
theorem ofText?_append_space (ha : ofText? a vs = some ts) (hb : ofText? b ws = some us) :
    ofText? (a ++ ' ' :: b) (vs ++ ws) = some (ts ++ us) :=
  ofText?_append_cons (c := ' ') ha (by decide) (by decide) hb

theorem ofText?_space : ofText? (' ' :: b) vs = ofText? b vs := by
  have hspace : breaks ' ' = true := by decide
  rw [ofText?, lex_cons hspace]
  rfl

theorem ofText?_enclosed (ha : ofText? a [] = some ts) (hb : ofText? b vs = some us) :
    ofText? (a ++ '(' :: (b ++ [')'])) vs = some (ts ++ opening :: (us ++ [closing])) := by
  have hnone : ofText? [] [] = some [] := rfl
  have hinner := ofText?_append_cons (c := ')') hb (by decide) (by decide) hnone
  rw [List.append_nil] at hinner
  exact ofText?_append_cons (c := '(') ha (by decide) (by decide) hinner

end Token

end WhereClause
