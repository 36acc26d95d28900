import WhereClause.Proofs.Condition.Token

/-! The grammar of conditions, and why a text can be read in one way only. OR binds weakest, then
AND, then NOT, then parentheses and predicates. -/
namespace WhereClause

/-- A field is spelled by names with points between them. -/
inductive Name : List Char → List Token → Prop where
  | one (word : List Char) : Name word [.name word]
  | qualified {field : List Char} {ts : List Token} (word : List Char) (h : Name field ts) :
      Name (word ++ '.' :: field) (.name word :: .point :: ts)

/-- Values with commas between them. -/
inductive Listing : List Value → List Token → Prop where
  | one (v : Value) : Listing [v] [.value v]
  | cons {vs : List Value} {ts : List Token} (v : Value) (h : Listing vs ts) :
      Listing (v :: vs) (.value v :: .comma :: ts)

/-- The word of a negated comparison. -/
def notIf (negated : Bool) : List Token :=
  if negated then [.keyword .not] else []

/-- How comparisons are spelled after the field. The AND of a range belongs to its predicate. -/
inductive Comparison.Spelled : Comparison → List Value → List Token → Prop where
  | order (o : Order) (v : Value) : Spelled (.order o) [v] [.order o, .value v]
  | like (negated : Bool) (v : Value) :
      Spelled (.like negated) [v] (notIf negated ++ [.keyword .like, .value v])
  | among (negated : Bool) {vs : List Value} {ts : List Token} (h : Listing vs ts) :
      Spelled (.among negated) vs
        (notIf negated ++ .keyword .isIn :: .opening :: (ts ++ [.closing]))
  | between (negated : Bool) (low high : Value) :
      Spelled (.between negated) [low, high]
        (notIf negated ++ [.keyword .between, .value low, .keyword .and, .value high])
  | blank (negated : Bool) :
      Spelled (.blank negated) [] [.order (if negated then .notEqual else .equal), .quotes]
  | null (negated : Bool) :
      Spelled (.null negated) [] (.keyword .is :: (notIf negated ++ [.keyword .null]))

/-- A predicate is spelled as its field and then its comparison. -/
inductive Predicate.Spelled : Predicate → List Token → Prop where
  | mk {field : List Char} {c : Comparison} {vs : List Value} {ts us : List Token}
      (h : Name field ts) (hc : c.Spelled vs us) : Spelled ⟨.ofList field, c, vs⟩ (ts ++ us)

/-- What a part of a condition may be, from what binds weakest to what binds strongest. -/
inductive Level where
  | disjunction
  | conjunction
  | negation
  | primary

/-- The conditions that tokens spell at a level. Chains of AND and of OR are grouped to the right. -/
inductive Derives : Level → Condition → List Token → Prop where
  | predicate {p : Predicate} {ts : List Token} (h : p.Spelled ts) :
      Derives .primary (.predicate p) ts
  | parens {c : Condition} {ts : List Token} (h : Derives .disjunction c ts) :
      Derives .primary (.parens c) (.opening :: (ts ++ [.closing]))
  | primary {c : Condition} {ts : List Token} (h : Derives .primary c ts) : Derives .negation c ts
  | not {c : Condition} {ts : List Token} (h : Derives .negation c ts) :
      Derives .negation (.not c) (.keyword .not :: ts)
  | negation {c : Condition} {ts : List Token} (h : Derives .negation c ts) :
      Derives .conjunction c ts
  | and {c c' : Condition} {ts ts' : List Token} (h : Derives .negation c ts)
      (h' : Derives .conjunction c' ts') :
      Derives .conjunction (.and c c') (ts ++ .keyword .and :: ts')
  | conjunction {c : Condition} {ts : List Token} (h : Derives .conjunction c ts) :
      Derives .disjunction c ts
  | or {c c' : Condition} {ts ts' : List Token} (h : Derives .conjunction c ts)
      (h' : Derives .disjunction c' ts') :
      Derives .disjunction (.or c c') (ts ++ .keyword .or :: ts')

/-- The text, with a value for each placeholder, spells the condition. -/
def Condition.Read (c : Condition) (sql : String) (values : List Value) : Prop :=
  ∃ ts, Token.ofText? sql.toList values = some ts ∧ Derives .disjunction c ts

variable {field field' : List Char} {ts ts' rest rest' : List Token}

/-- A field ends where no point follows. -/
theorem Name.unique (h : Name field ts) (h' : Name field' ts') (he : ts ++ rest = ts' ++ rest')
    (hrest : rest.head? ≠ some .point) (hrest' : rest'.head? ≠ some .point) :
    field = field' ∧ ts = ts' ∧ rest = rest' := by
  induction h generalizing field' ts' with
  | one word =>
    cases h' with
    | one word' =>
      cases he
      exact ⟨rfl, rfl, rfl⟩
    | qualified word' h' =>
      cases he
      exact absurd rfl hrest
  | qualified word h ih =>
    cases h' with
    | one word' =>
      cases he
      exact absurd rfl hrest'
    | @qualified field' ts' word' h' =>
      simp only [List.cons_append, List.cons.injEq, Token.name.injEq, true_and] at he
      obtain ⟨rfl, he⟩ := he
      obtain ⟨rfl, rfl, hr⟩ := ih h' he
      exact ⟨rfl, rfl, hr⟩

theorem Listing.unique {vs vs' : List Value} (h : Listing vs ts) (h' : Listing vs' ts')
    (he : ts ++ .closing :: rest = ts' ++ .closing :: rest') :
    vs = vs' ∧ ts = ts' ∧ rest = rest' := by
  induction h generalizing vs' ts' with
  | one v =>
    cases h' with
    | one v' =>
      cases he
      exact ⟨rfl, rfl, rfl⟩
    | cons v' h' => cases he
  | cons v h ih =>
    cases h' with
    | one v' => cases he
    | @cons vs' ts' v' h' =>
      simp only [List.cons_append, List.cons.injEq, Token.value.injEq, true_and] at he
      obtain ⟨rfl, he⟩ := he
      obtain ⟨rfl, rfl, hr⟩ := ih h' he
      exact ⟨rfl, rfl, hr⟩

theorem Comparison.Spelled.unique {c c' : Comparison} {vs vs' : List Value} (h : c.Spelled vs ts)
    (h' : c'.Spelled vs' ts') (he : ts ++ rest = ts' ++ rest') :
    c = c' ∧ vs = vs' ∧ ts = ts' ∧ rest = rest' := by
  cases h with
  | order o v => cases h' <;> grind [notIf]
  | like negated v => cases h' <;> grind [notIf]
  | among negated hl =>
    cases h' with
    | among negated' hl' =>
      have hn : negated = negated' := by grind [notIf]
      subst hn
      simp only [List.append_assoc, List.cons_append, List.append_cancel_left_eq,
        List.cons.injEq, true_and, List.nil_append] at he
      obtain ⟨rfl, rfl, hr⟩ := hl.unique hl' he
      exact ⟨rfl, rfl, rfl, hr⟩
    | _ => grind [notIf]
  | between negated low high => cases h' <;> grind [notIf]
  | blank negated => cases h' <;> grind [notIf]
  | null negated => cases h' <;> grind [notIf]

theorem Comparison.Spelled.head_ne_point {c : Comparison} {vs : List Value} (h : c.Spelled vs ts) :
    (ts ++ rest).head? ≠ some .point := by
  cases h <;> grind [notIf]

/-- A predicate is no proper beginning of another one. -/
theorem Predicate.Spelled.unique {p p' : Predicate} (h : p.Spelled ts) (h' : p'.Spelled ts')
    (he : ts ++ rest = ts' ++ rest') : p = p' ∧ ts = ts' ∧ rest = rest' := by
  obtain ⟨hn, hc⟩ := h
  obtain ⟨hn', hc'⟩ := h'
  rw [List.append_assoc, List.append_assoc] at he
  obtain ⟨rfl, rfl, hcomparison⟩ := hn.unique hn' he hc.head_ne_point hc'.head_ne_point
  obtain ⟨rfl, rfl, rfl, hr⟩ := hc.unique hc' hcomparison
  exact ⟨rfl, rfl, hr⟩

theorem Predicate.Spelled.head {p : Predicate} (h : p.Spelled ts) :
    ∃ word us, ts = .name word :: us := by
  obtain ⟨hn, hc⟩ := h
  cases hn with
  | one => exact ⟨_, _, rfl⟩
  | qualified => exact ⟨_, _, rfl⟩

/-- What may follow a part of a condition without becoming part of it. -/
def Level.Ends : Level → List Token → Prop
  | .disjunction, rest => rest.head? ≠ some (.keyword .or) ∧ rest.head? ≠ some (.keyword .and)
  | .conjunction, rest => rest.head? ≠ some (.keyword .and)
  | .negation, _ => True
  | .primary, _ => True

/-- Only a negation begins with NOT. -/
theorem Derives.primary_head {c : Condition} (h : Derives .primary c ts) :
    ts ++ rest ≠ .keyword .not :: rest' := by
  intro he
  cases h with
  | predicate h =>
    obtain ⟨word, us, rfl⟩ := h.head
    cases he
  | parens h => cases he

/-- Tokens spell one condition at most, and where it ends is settled by what follows. The induction
is on the first reading; the second takes the same rule each time. -/
theorem Derives.unique {level : Level} {c c' : Condition} (h : Derives level c ts)
    (h' : Derives level c' ts') (he : ts ++ rest = ts' ++ rest') (hr : level.Ends rest)
    (hr' : level.Ends rest') : c = c' ∧ ts = ts' ∧ rest = rest' := by
  induction h generalizing c' ts' rest rest' with
  | predicate hp =>
    cases h' with
    | predicate hp' =>
      obtain ⟨rfl, hts⟩ := hp.unique hp' he
      exact ⟨rfl, hts⟩
    | parens h' =>
      obtain ⟨word, us, rfl⟩ := hp.head
      cases he
  | parens h ih =>
    cases h' with
    | predicate hp' =>
      obtain ⟨word, us, rfl⟩ := hp'.head
      cases he
    | @parens c' ts' h' =>
      simp only [List.cons_append, List.append_assoc, List.cons.injEq, true_and,
        List.nil_append] at he
      obtain ⟨rfl, rfl, hrest⟩ := ih h' he (by simp [Level.Ends]) (by simp [Level.Ends])
      cases hrest
      exact ⟨rfl, rfl, rfl⟩
  | primary h ih =>
    cases h' with
    | primary h' => exact ih h' he trivial trivial
    | not h' => exact absurd he h.primary_head
  | not h ih =>
    cases h' with
    | primary h' => exact absurd he.symm h'.primary_head
    | @not c' ts' h' =>
      rw [List.cons_append, List.cons_append, List.cons.injEq] at he
      obtain ⟨rfl, rfl, hrest⟩ := ih h' he.2 trivial trivial
      exact ⟨rfl, rfl, hrest⟩
  | negation h ih =>
    cases h' with
    | negation h' => exact ih h' he trivial trivial
    | and h' h'' =>
      rw [List.append_assoc] at he
      obtain ⟨_, _, rfl⟩ := ih h' he trivial trivial
      exact absurd rfl hr
  | and h h₂ ih ih₂ =>
    cases h' with
    | negation h' =>
      rw [List.append_assoc] at he
      obtain ⟨_, _, rfl⟩ := ih h' he trivial trivial
      exact absurd rfl hr'
    | and h' h₂' =>
      rw [List.append_assoc, List.append_assoc] at he
      obtain ⟨rfl, rfl, hrest⟩ := ih h' he trivial trivial
      rw [List.cons_append, List.cons_append, List.cons.injEq] at hrest
      obtain ⟨rfl, rfl, hend⟩ := ih₂ h₂' hrest.2 hr hr'
      exact ⟨rfl, rfl, hend⟩
  | conjunction h ih =>
    cases h' with
    | conjunction h' => exact ih h' he hr.2 hr'.2
    | or h' h₂' =>
      rw [List.append_assoc] at he
      obtain ⟨_, _, rfl⟩ := ih h' he hr.2 (by simp [Level.Ends])
      exact absurd rfl hr.1
  | or h h₂ ih ih₂ =>
    cases h' with
    | conjunction h' =>
      rw [List.append_assoc] at he
      obtain ⟨_, _, rfl⟩ := ih h' he (by simp [Level.Ends]) hr'.2
      exact absurd rfl hr'.1
    | or h' h₂' =>
      rw [List.append_assoc, List.append_assoc] at he
      obtain ⟨rfl, rfl, hrest⟩ := ih h' he (by simp [Level.Ends]) (by simp [Level.Ends])
      rw [List.cons_append, List.cons_append, List.cons.injEq] at hrest
      obtain ⟨rfl, rfl, hend⟩ := ih₂ h₂' hrest.2 hr hr'
      exact ⟨rfl, rfl, hend⟩

/-- A text with its values reads as one condition at most. -/
theorem Condition.Read.unique {c c' : Condition} {sql : String} {values : List Value}
    (h : c.Read sql values) (h' : c'.Read sql values) : c = c' := by
  obtain ⟨ts, hts, h⟩ := h
  obtain ⟨ts', hts', h'⟩ := h'
  rw [hts, Option.some.injEq] at hts'
  subst hts'
  have he : ts ++ [] = ts ++ [] := rfl
  exact (h.unique h' he (by simp [Level.Ends]) (by simp [Level.Ends])).1

end WhereClause
