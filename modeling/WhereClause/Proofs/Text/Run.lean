import WhereClause.Proofs.Text.Letter
import WhereClause.Proofs.Text.Position

/-! Whole words in a text, run by run. A gap splits a text into two that are searched on their own,
and a run without gaps holds a word only at its end. -/
namespace WhereClause.Text
variable {c : Char} {word a b : List Char}

theorem prefix_append_cons_iff (hc : c ∉ word) : word <+: a ++ c :: b ↔ word <+: a := by
  induction a generalizing word with
  | nil =>
    cases word with
    | nil => simp
    | cons x rest =>
      have hx : x ≠ c := fun he => hc (he ▸ List.mem_cons_self)
      simp [List.cons_prefix_cons, hx]
  | cons y a ih =>
    cases word with
    | nil => simp
    | cons x rest =>
      rw [List.cons_append, List.cons_prefix_cons, List.cons_prefix_cons]
      exact and_congr_right fun _ => ih fun hmem => hc (List.mem_cons_of_mem x hmem)

/-- After a gap the positions are those of the rest on its own. -/
theorem positions_append_cons (hc : isWordChar c = false) (before : Before) :
    positions before (a ++ c :: b) =
      (positions before a).map (fun position => (position.1, position.2 ++ c :: b)) ++
        positions .gap b := by
  induction a generalizing before with
  | nil => simp [positions, Before.pass, hc]
  | cons x a ih => rw [List.cons_append, positions, positions, ih]; rfl

section
variable (hword : ∀ x ∈ word, isWordChar x = true)
include hword

/-- A word ends at a gap as it ends with the text. -/
theorem wordStandsAt_append_cons (hc : isWordChar c = false) (position : Before × List Char) :
    wordStandsAt word (position.1, position.2 ++ c :: b) = wordStandsAt word position := by
  have hmem : c ∉ word := fun h => by rw [hword c h] at hc; cases hc
  have hp : word.isPrefixOf (position.2 ++ c :: b) = word.isPrefixOf position.2 := by
    rw [Bool.eq_iff_iff, List.isPrefixOf_iff_prefix, List.isPrefixOf_iff_prefix]
    exact prefix_append_cons_iff hmem
  simp only [wordStandsAt, hp]
  by_cases h : word <+: position.2
  · obtain ⟨rest, he⟩ := h
    rw [← he, List.append_assoc, List.drop_left, List.drop_left]
    cases rest with
    | nil => simp [hc]
    | cons x rest => rfl
  · have hfalse : word.isPrefixOf position.2 = false := by
      rwa [← List.isPrefixOf_iff_prefix, Bool.not_eq_true] at h
    rw [hfalse, Bool.and_false, Bool.false_and, Bool.false_and]

theorem containsWord_append_cons (hc : isWordChar c = false) :
    containsWord (a ++ c :: b) word = (containsWord a word || containsWord b word) := by
  have hstands : (wordStandsAt word ∘ fun position : Before × List Char =>
      (position.1, position.2 ++ c :: b)) = wordStandsAt word :=
    funext (wordStandsAt_append_cons hword hc)
  rw [containsWord, positions_append_cons hc, List.any_append, List.any_map, hstands,
    Bool.and_or_distrib_left]
  rfl

end

/-- In a run a word stands only where it is all that is left. -/
theorem wordStandsAt_run (ha : ∀ x ∈ a, isWordChar x = true) (before : Before) :
    wordStandsAt word (before, a) = true ↔ before.allowsWord = true ∧ word = a := by
  rw [wordStandsAt_iff]
  refine and_congr_right fun _ => ⟨?_, ?_⟩
  · rintro ⟨behind, rfl, hend⟩
    cases behind with
    | nil => rw [List.append_nil]
    | cons x behind => simp [ha x (by simp)] at hend
  · rintro rfl
    exact ⟨[], (List.append_nil word).symm, rfl⟩

theorem any_positions_run (ha : ∀ x ∈ a, isWordChar x = true) (numeric : Bool) :
    (positions (.run numeric) a).any (wordStandsAt word) = true ↔ numeric = true ∧ word <:+ a := by
  induction a with
  | nil =>
    rw [positions, List.any_cons, List.any_nil, Bool.or_false, wordStandsAt_run (by simp),
      List.suffix_nil]
    rfl
  | cons x a ih =>
    have hx : isWordChar x = true := ha x List.mem_cons_self
    have hpass : (Before.run numeric).pass x = .run numeric := by simp [Before.pass, hx]
    rw [positions, List.any_cons, Bool.or_eq_true, wordStandsAt_run ha, hpass,
      ih fun y hy => ha y (List.mem_cons_of_mem x hy), List.suffix_cons_iff, and_or_left]
    rfl

/-- A run holds a word if it is that word, or if it begins with a digit and ends with the word. -/
theorem containsWord_run (ha : ∀ x ∈ c :: a, isWordChar x = true) (hne : word ≠ []) :
    containsWord (c :: a) word = true ↔ word = c :: a ∨ c.isDigit = true ∧ word <:+ a := by
  have hc : isWordChar c = true := ha c List.mem_cons_self
  have hpass : Before.gap.pass c = .run c.isDigit := by simp [Before.pass, hc]
  rw [containsWord, positions, List.any_cons, hpass, Bool.and_eq_true, Bool.or_eq_true,
    wordStandsAt_run ha, any_positions_run fun x hx => ha x (List.mem_cons_of_mem c hx)]
  simp [hne, Before.allowsWord]

theorem containsWord_nil (word : List Char) : containsWord [] word = false := by
  cases word <;> rfl

/-- Texts that meet at a gap, on either side, are searched each on its own. -/
theorem containsWord_append (hword : ∀ x ∈ word, isWordChar x = true)
    (h : (∀ x ∈ a.getLast?, isWordChar x = false) ∨ ∀ x ∈ b.head?, isWordChar x = false) :
    containsWord (a ++ b) word = (containsWord a word || containsWord b word) := by
  rcases h with h | h
  · rcases a.eq_nil_or_concat with rfl | ⟨q, x, rfl⟩
    · rw [containsWord_nil, List.nil_append, Bool.false_or]
    · have hx : isWordChar x = false := h x (by simp)
      rw [List.concat_eq_append, List.append_assoc, List.singleton_append,
        containsWord_append_cons hword hx, containsWord_append_cons hword hx, containsWord_nil,
        Bool.or_false]
  · cases b with
    | nil => rw [containsWord_nil, List.append_nil, Bool.or_false]
    | cons x b =>
      have hx : isWordChar x = false := h x (by simp)
      have hb := containsWord_append_cons (a := []) (b := b) hword hx
      rw [containsWord_nil, List.nil_append, Bool.false_or] at hb
      rw [containsWord_append_cons hword hx, hb]

/-- What a run holds as words: itself, and each of its endings if it begins with a digit. -/
def Holds (run word : List Char) : Prop :=
  run = word ∨ run.head?.any Char.isDigit = true ∧ word <:+ run

instance (run word : List Char) : Decidable (Holds run word) :=
  inferInstanceAs (Decidable (_ ∨ _ ∧ _))

theorem holds_cons_iff :
    Holds (c :: a) word ↔ word = c :: a ∨ c.isDigit = true ∧ word <:+ a := by
  rw [Holds, List.head?_cons, Option.any_some, List.suffix_cons_iff, eq_comm]
  constructor
  · rintro (he | ⟨hdigit, hsuffix⟩)
    · exact Or.inl he
    · exact hsuffix.imp_right fun h => ⟨hdigit, h⟩
  · rintro (he | ⟨hdigit, hsuffix⟩)
    · exact Or.inl he
    · exact Or.inr ⟨hdigit, Or.inr hsuffix⟩

/-- A run that begins with no digit holds itself alone. -/
theorem holds_iff_of_head {run word : List Char} (h : ∀ x ∈ run.head?, x.isDigit = false) :
    Holds run word ↔ run = word := by
  refine ⟨fun hholds => hholds.resolve_right ?_, Or.inl⟩
  rintro ⟨hdigit, -⟩
  obtain ⟨x, hx, hdigit⟩ := (Option.any_eq_true _ _).mp hdigit
  rw [h x hx] at hdigit
  cases hdigit

/-- The longest runs of word symbols in a text, from left to right. -/
def runs (text : List Char) : List (List Char) :=
  (text.splitOnP (!isWordChar ·)).filter (· ≠ [])

@[simp] theorem runs_nil : runs [] = [] := rfl

theorem ne_nil_of_mem_runs {run text : List Char} (h : run ∈ runs text) : run ≠ [] :=
  of_decide_eq_true (List.mem_filter.mp h).2

theorem runs_append_cons (hc : isWordChar c = false) : runs (a ++ c :: b) = runs a ++ runs b := by
  rw [runs, List.splitOnP_append_cons a b (by rw [hc]; rfl), List.filter_append]
  rfl

theorem runs_run (ha : ∀ x ∈ a, isWordChar x = true) (hne : a ≠ []) : runs a = [a] := by
  rw [runs, List.splitOnP_eq_singleton (by simpa using ha)]
  simp [hne]

/-- A map takes the pieces of a list to the pieces of its image, if breaks go to breaks. -/
theorem splitOnP_map {α β : Type} (f : α → β) (isBreak : β → Bool) (items : List α) :
    (items.map f).splitOnP isBreak = (items.splitOnP (isBreak ∘ f)).map (List.map f) := by
  induction items with
  | nil => rfl
  | cons x items ih =>
    rw [List.map_cons, List.splitOnP_cons_eq_if_modifyHead, List.splitOnP_cons_eq_if_modifyHead, ih,
      Function.comp_apply]
    split
    · rfl
    · cases items.splitOnP (isBreak ∘ f) <;> rfl

theorem filter_splitOnP_map {α β : Type} (f : α → β) (isBreak : β → Bool) (items : List α) :
    ((items.map f).splitOnP isBreak).filter (· ≠ []) =
      ((items.splitOnP (isBreak ∘ f)).filter (· ≠ [])).map (List.map f) := by
  have hne : (fun run : List β => decide (run ≠ [])) ∘ List.map f = fun run => decide (run ≠ []) := by
    funext run
    simp
  rw [splitOnP_map, List.filter_map, hne]

/-- Runs with a gap between neighbours are the runs of the text. -/
theorem runs_intercalate {words : List (List Char)} (hc : isWordChar c = false)
    (h : ∀ word ∈ words, word ≠ [] ∧ ∀ x ∈ word, isWordChar x = true) :
    runs ([c].intercalate words) = words := by
  induction words with
  | nil => rfl
  | cons word words ih =>
    rw [List.forall_mem_cons] at h
    obtain ⟨⟨hne, hword⟩, hrest⟩ := h
    cases words with
    | nil => rw [List.intercalate_singleton, runs_run hword hne]
    | cons next words =>
      rw [List.intercalate_cons_cons, List.append_assoc, List.singleton_append,
        runs_append_cons hc, runs_run hword hne, ih hrest]
      rfl

/-- A text is a run, or a run up to a gap and another text behind the gap. -/
theorem run_induction {motive : List Char → Prop}
    (run : ∀ a, (∀ x ∈ a, isWordChar x = true) → motive a)
    (gap : ∀ a c b, (∀ x ∈ a, isWordChar x = true) → isWordChar c = false → motive b →
      motive (a ++ c :: b)) (text : List Char) : motive text := by
  have hbehind (a : List Char) (ha : ∀ x ∈ a, isWordChar x = true) : motive (a ++ text) := by
    induction text generalizing a with
    | nil =>
      rw [List.append_nil]
      exact run a ha
    | cons c rest ih =>
      cases hc : isWordChar c with
      | false => exact gap a c rest ha hc (ih [] (List.forall_mem_nil _))
      | true =>
        rw [List.append_cons]
        refine ih (a ++ [c]) ?_
        rw [List.forall_mem_append, List.forall_mem_singleton]
        exact ⟨ha, hc⟩
  exact hbehind [] (List.forall_mem_nil _)

/-- The scan for a word finds what the runs of the text hold. -/
theorem containsWord_iff_exists_run (hword : ∀ x ∈ word, isWordChar x = true) (hne : word ≠ [])
    (text : List Char) : containsWord text word = true ↔ ∃ run ∈ runs text, Holds run word := by
  have hrun (a : List Char) (ha : ∀ x ∈ a, isWordChar x = true) :
      containsWord a word = true ↔ ∃ run ∈ runs a, Holds run word := by
    cases a with
    | nil => simp [containsWord_nil]
    | cons c a =>
      rw [containsWord_run ha hne, runs_run ha (List.cons_ne_nil c a), ← holds_cons_iff]
      simp only [List.mem_singleton, exists_eq_left]
  induction text using run_induction with
  | run a ha => exact hrun a ha
  | gap a c b ha hc ih =>
    rw [containsWord_append_cons hword hc, Bool.or_eq_true, runs_append_cons hc]
    simp only [List.mem_append, or_and_right, exists_or]
    exact or_congr (hrun a ha) ih

theorem infix_of_containsWord {text : List Char} (h : containsWord text word = true) :
    word <:+: text := by
  obtain ⟨-, passed, behind, rfl, -⟩ := containsWord_iff_split.mp h
  exact ⟨passed, behind, List.append_assoc passed word behind⟩

/-- Runs in lower case are the runs of the text in lower case. -/
theorem runs_map_toLower (text : List Char) :
    runs (text.map Char.toLower) = (runs text).map (List.map Char.toLower) := by
  have hbreak : (!isWordChar ·) ∘ Char.toLower = (!isWordChar ·) := by
    funext c
    rw [Function.comp_apply, isWordChar_toLower]
  rw [runs, filter_splitOnP_map, hbreak, runs]

end WhereClause.Text
