import WhereClause.Proofs.Builder.Stages
import WhereClause.Proofs.Dialect.Denylist
import WhereClause.Proofs.Text.Run

/-! Keywords behind numbers. A lexer of SQL ends a number where a letter begins that cannot belong
to it, so a keyword written against a number is still a keyword. -/
namespace WhereClause.Text

/-- One or more digits. -/
def Digits (ds : List Char) : Prop :=
  ds ≠ [] ∧ ∀ c ∈ ds, c.isDigit = true

/-- Digits with an optional point among or around them. -/
inductive Mantissa : List Char → Prop where
  | whole {ds : List Char} (hd : Digits ds) : Mantissa ds
  | point {ds fs : List Char} (hd : Digits ds) (hf : ∀ c ∈ fs, c.isDigit = true) :
      Mantissa (ds ++ '.' :: fs)
  | fraction {fs : List Char} (hf : Digits fs) : Mantissa ('.' :: fs)

/-- A numeric literal of SQL: a mantissa, and an exponent that may have a minus. -/
inductive Numeral : List Char → Prop where
  | plain {m : List Char} (hm : Mantissa m) : Numeral m
  | scaled {m es : List Char} {mark : Char} (hm : Mantissa m) (hmark : mark = 'e' ∨ mark = 'E')
      (he : Digits es) : Numeral (m ++ mark :: es)
  | scaledDown {m es : List Char} {mark : Char} (hm : Mantissa m) (hmark : mark = 'e' ∨ mark = 'E')
      (he : Digits es) : Numeral (m ++ mark :: '-' :: es)

/-- An exponent without a sign right after the point. Its mark begins a run that is no number. -/
def ExponentAtPoint (n : List Char) : Prop :=
  ∃ ds mark es, Digits ds ∧ (mark = 'e' ∨ mark = 'E') ∧ Digits es ∧ n = ds ++ '.' :: mark :: es

/-- The text ends in a gap, or in a run of a number. -/
def EndsInNumber (text : List Char) : Prop :=
  ∃ start run, text = start ++ run ∧ (∀ c ∈ start.getLast?, isWordChar c = false) ∧
    (∀ c ∈ run, isWordChar c = true) ∧ ∀ c ∈ run.head?, c.isDigit = true

namespace Digits
variable {ds : List Char}

theorem singleton {c : Char} (hc : c.isDigit = true) : Digits [c] :=
  ⟨List.cons_ne_nil c [], List.forall_mem_singleton.mpr hc⟩

theorem isDigit_head (hd : Digits ds) (rest : List Char) :
    ∀ c ∈ (ds ++ rest).head?, c.isDigit = true := by
  obtain ⟨d, ds, rfl⟩ := List.exists_cons_of_ne_nil hd.1
  intro c hc
  cases hc
  exact hd.2 d List.mem_cons_self

theorem isWordChar (hd : Digits ds) : ∀ c ∈ ds, Text.isWordChar c = true :=
  fun c hc => isWordChar_of_isDigit (hd.2 c hc)

theorem map_toLower (hd : Digits ds) : ds.map Char.toLower = ds :=
  (List.map_congr_left fun c hc => toLower_of_isDigit (hd.2 c hc)).trans ds.map_id

end Digits

theorem isWordChar_mark {mark : Char} (h : mark = 'e' ∨ mark = 'E') : isWordChar mark = true := by
  rcases h with rfl | rfl <;> rfl

/-- A literal ends in a number unless its exponent follows the point. -/
theorem Numeral.exponentAtPoint_or_endsInNumber {n : List Char} (h : Numeral n) :
    ExponentAtPoint n ∨ EndsInNumber n := by
  have hpoint (ds : List Char) : ∀ c ∈ (ds ++ ['.']).getLast?, isWordChar c = false := by simp; decide
  cases h with
  | plain hm =>
    right
    cases hm with
    | whole hd => exact ⟨[], n, rfl, by simp, hd.isWordChar, by simpa using hd.isDigit_head []⟩
    | @point ds fs hd hf =>
      refine ⟨ds ++ ['.'], fs, by simp, hpoint ds, fun c hc => isWordChar_of_isDigit (hf c hc), ?_⟩
      exact fun c hc => hf c (List.mem_of_mem_head? hc)
    | @fraction fs hf =>
      exact ⟨['.'], fs, rfl, hpoint [], hf.isWordChar, by simpa using hf.isDigit_head []⟩
  | @scaled m es mark hm hmark he =>
    have hrun {ds : List Char} (hd : ∀ c ∈ ds, isWordChar c = true) :
        ∀ c ∈ ds ++ mark :: es, isWordChar c = true := by
      intro c hc
      rcases List.mem_append.mp hc with hc | hc
      · exact hd c hc
      · rcases List.mem_cons.mp hc with rfl | hc
        · exact isWordChar_mark hmark
        · exact he.isWordChar c hc
    cases hm with
    | whole hd => exact Or.inr ⟨[], _, rfl, by simp, hrun hd.isWordChar, hd.isDigit_head _⟩
    | @point ds fs hd hf =>
      by_cases hne : fs = []
      · subst hne
        exact Or.inl ⟨ds, mark, es, hd, hmark, he, by simp⟩
      · have hf : Digits fs := ⟨hne, hf⟩
        exact Or.inr ⟨ds ++ ['.'], fs ++ mark :: es, by simp, hpoint ds, hrun hf.isWordChar,
          hf.isDigit_head _⟩
    | @fraction fs hf =>
      exact Or.inr ⟨['.'], fs ++ mark :: es, rfl, hpoint [], hrun hf.isWordChar, hf.isDigit_head _⟩
  | @scaledDown m es mark hm hmark he =>
    right
    refine ⟨m ++ [mark, '-'], es, by simp, ?_, he.isWordChar, by simpa using he.isDigit_head []⟩
    rw [List.append_cons, List.getLast?_concat]
    intro c hc
    cases hc
    rfl

theorem EndsInNumber.map_toLower {n : List Char} (h : EndsInNumber n) :
    EndsInNumber (n.map Char.toLower) := by
  obtain ⟨start, run, rfl, hstart, hrun, hhead⟩ := h
  refine ⟨start.map Char.toLower, run.map Char.toLower, List.map_append, ?_, ?_, ?_⟩
  · simpa [List.getLast?_map] using hstart
  · simpa using hrun
  · intro c hc
    rw [List.head?_map, Option.mem_def, Option.map_eq_some_iff] at hc
    obtain ⟨d, hd, rfl⟩ := hc
    rw [toLower_of_isDigit (hhead d hd)]
    exact hhead d hd

variable {word : List Char}

/-- A word written against a number is found. -/
theorem EndsInNumber.containsWord {n : List Char} (h : EndsInNumber n) (hne : word ≠ [])
    (hword : ∀ c ∈ word, isWordChar c = true) : containsWord (n ++ word) word = true := by
  obtain ⟨start, run, rfl, hstart, hrun, hhead⟩ := h
  have hall : ∀ c ∈ run ++ word, isWordChar c = true := by
    intro c hc
    exact (List.mem_append.mp hc).elim (hrun c) (hword c)
  rw [List.append_assoc, containsWord_append hword (Or.inl hstart), Bool.or_eq_true]
  right
  cases run with
  | nil =>
    obtain ⟨c, rest, rfl⟩ := List.exists_cons_of_ne_nil hne
    exact (containsWord_run hword hne).mpr (Or.inl rfl)
  | cons d run =>
    rw [List.cons_append] at hall ⊢
    exact (containsWord_run hall hne).mpr (Or.inr ⟨hhead d rfl, List.suffix_append run word⟩)

/-- A literal with its exponent at the point holds no word, and hides the one written against it. -/
theorem ExponentAtPoint.containsWord {n k : List Char} (h : ExponentAtPoint n)
    (hk : ∀ c ∈ k, isWordChar c = true) (hne : word ≠ [])
    (hword : ∀ c ∈ word, isWordChar c = true ∧ c.isDigit = false) :
    containsWord (n.map Char.toLower ++ k) word = false := by
  obtain ⟨ds, mark, es, hd, hmark, he, rfl⟩ := h
  have hdigit {text : List Char} {x : Char} (hx : x ∈ text) (hxd : x.isDigit = true) :
      word ≠ text := by
    rintro rfl
    rw [(hword x hx).2] at hxd
    cases hxd
  have hwhole : Text.containsWord ds word = false := by
    obtain ⟨d, ds, rfl⟩ := List.exists_cons_of_ne_nil hd.1
    rw [← Bool.not_eq_true, containsWord_run hd.isWordChar hne, not_or]
    refine ⟨hdigit List.mem_cons_self (hd.2 d List.mem_cons_self), fun hsuffix => ?_⟩
    obtain ⟨x, rest, rfl⟩ := List.exists_cons_of_ne_nil hne
    have hx : x ∈ ds := hsuffix.2.subset List.mem_cons_self
    exact hdigit List.mem_cons_self (hd.2 x (List.mem_cons_of_mem d hx)) rfl
  have hscaled : Text.containsWord ('e' :: (es ++ k)) word = false := by
    have hrun : ∀ c ∈ 'e' :: (es ++ k), isWordChar c = true := by
      rw [List.forall_mem_cons, List.forall_mem_append]
      exact ⟨rfl, he.isWordChar, hk⟩
    rw [← Bool.not_eq_true, containsWord_run hrun hne, not_or]
    refine ⟨?_, fun hhead => nomatch hhead.1⟩
    obtain ⟨x, rest, rfl⟩ := List.exists_cons_of_ne_nil he.1
    exact hdigit (x := x) (by simp) (he.2 x List.mem_cons_self)
  have hlower : mark.toLower = 'e' := by rcases hmark with rfl | rfl <;> rfl
  have htext : (ds ++ '.' :: mark :: es).map Char.toLower ++ k = ds ++ '.' :: 'e' :: (es ++ k) := by
    have hpoint : '.'.toLower = '.' := rfl
    simp [hd.map_toLower, he.map_toLower, hlower, hpoint]
  rw [htext, containsWord_append_cons (fun c hc => (hword c hc).1) rfl, hwhole, hscaled]
  rfl

end WhereClause.Text

namespace WhereClause

theorem Builder.check_denylist_of_build {d : Dialect} {t : Tree} {c : Clause}
    (h : Builder.build { dialect := d } t = .ok c) {r : Rule} (hr : r ∈ t.rules) :
    Screen.denylist.check d [r.field] = .ok () := by
  rw [Screen.check_eq_ok_iff, List.forall_mem_singleton]
  exact fault?_eq_none_of_build (b := { dialect := d }) rfl h hr List.mem_cons_self

/-- A field that passes the denylist stands in the clause of a tree. -/
theorem Builder.build_isNull {d : Dialect} {field : String} (hne : field ≠ "")
    (h : Screen.denylist.check d [field] = .ok ()) :
    Builder.build { dialect := d } (.rule ⟨field, .isNull, .none⟩) =
      .ok ⟨field ++ " IS NULL", []⟩ := by
  have hempty : field.isEmpty = false := by simpa using hne
  refine build_eq_ok_iff.mpr ⟨?_, (Fragment.empty.field field).keyword " IS NULL", ?_, ?_, ?_⟩
  · simp [Policy.check, Policy.visit, Policy.checkRule, Rule.check, hempty, Policy.permissive,
      Operator.arity, Arity.accepts, Operand.shape, bind, Except.bind, Except.map]
  · change Renderers.standard.render ⟨field, .isNull, .none⟩ = _
    rw [Renderers.render_standard]
    rfl
  · rw [screen_eq_ok_iff, List.forall_mem_singleton]
    exact (Screen.check_eq_ok_iff _ _ _).mp h
  · simp [Fragment.empty, Fragment.field, Fragment.keyword]

namespace Dialect
variable {d : Dialect} {word p n k r : String}

theorem exists_keyword_behind_number_iff (hd : d ∈ known) (hw : word ∈ d.deniedKeywords)
    (hn : Text.Numeral n.toList) (hk : Text.lower k = word.toList)
    (hp : ∀ c ∈ p.toList.getLast?, Text.isWordChar c = false)
    (hr : ∀ c ∈ r.toList.head?, Text.isWordChar c = false) :
    (∃ other ∈ d.deniedKeywords,
        Text.containsWord (Text.lower (p ++ n ++ k ++ r)) other.toList = true) ↔
      ¬ Text.ExponentAtPoint n.toList ∨ ∃ other ∈ d.deniedKeywords,
        Text.containsWord (Text.lower p) other.toList = true ∨
          Text.containsWord (Text.lower r) other.toList = true := by
  have hsplit {other : String} (ho : other ∈ d.deniedKeywords) :
      Text.containsWord (Text.lower (p ++ n ++ k ++ r)) other.toList =
        (Text.containsWord (Text.lower p) other.toList ||
          (Text.containsWord (Text.lower n ++ word.toList) other.toList ||
            Text.containsWord (Text.lower r) other.toList)) := by
    have hchars := fun c hc => ((keyword_chars hd ho).2 c hc).1
    rw [Text.lower_append, Text.lower_append, Text.lower_append, hk, List.append_assoc,
      List.append_assoc, ← List.append_assoc (Text.lower n),
      Text.containsWord_append hchars (Or.inl _), Text.containsWord_append hchars (Or.inr _)]
    · simpa [Text.lower] using hr
    · simpa [Text.lower, List.getLast?_map] using hp
  obtain ⟨hne, hword⟩ := keyword_chars hd hw
  have hall : ∀ c ∈ word.toList, Text.isWordChar c = true := fun c hc => (hword c hc).1
  by_cases hpoint : Text.ExponentAtPoint n.toList
  · have hnone {other : String} (ho : other ∈ d.deniedKeywords) :
        Text.containsWord (Text.lower n ++ word.toList) other.toList = false :=
      hpoint.containsWord hall (keyword_chars hd ho).1 (keyword_chars hd ho).2
    simp only [hpoint, not_true_eq_false, false_or]
    refine exists_congr fun other => and_congr_right fun ho => ?_
    rw [hsplit ho, hnone ho, Bool.false_or, Bool.or_eq_true]
  · have hends := hn.exponentAtPoint_or_endsInNumber.resolve_left hpoint
    refine iff_of_true ⟨word, hw, ?_⟩ (Or.inl hpoint)
    have hfound : Text.containsWord (Text.lower n ++ word.toList) word.toList = true :=
      hends.map_toLower.containsWord hne hall
    rw [hsplit hw, hfound, Bool.true_or, Bool.or_true]

/-- A keyword behind a number is refused, alone or in a tree, with one exception. Where the exponent
follows the point, as in the literal `1.e5`, only some other entry of the denylist is found. -/
theorem keyword_behind_number_iff (hd : d ∈ known) (hw : word ∈ d.deniedKeywords)
    (hn : Text.Numeral n.toList) (hk : Text.lower k = word.toList)
    (hp : ∀ c ∈ p.toList.getLast?, Text.isWordChar c = false)
    (hr : ∀ c ∈ r.toList.head?, Text.isWordChar c = false) :
    let field := p ++ n ++ k ++ r
    let refused : Prop := ¬ Text.ExponentAtPoint n.toList ∨
      (∃ token ∈ d.deniedTokens, Text.contains (Text.lower field) token.toList = true) ∨
      ∃ other ∈ d.deniedKeywords, Text.containsWord (Text.lower p) other.toList = true ∨
        Text.containsWord (Text.lower r) other.toList = true
    (Screen.denylist.check d [field] ≠ .ok () ↔ refused) ∧
      ((∀ t : Tree, (∃ rule ∈ t.rules, rule.field = field) →
        ∃ e, Builder.build { dialect := d } t = .error e) ↔ refused) := by
  intro field refused
  have hcheck : Screen.denylist.check d [field] ≠ .ok () ↔ refused := by
    rw [ne_eq, Screen.check_eq_ok_iff, List.forall_mem_singleton, Screen.fault?,
      denied?_eq_none_iff, Classical.not_and_iff_not_or_not]
    simp only [not_forall, Bool.not_eq_false, exists_prop]
    rw [exists_keyword_behind_number_iff hd hw hn hk hp hr]
    exact or_left_comm
  refine ⟨hcheck, ?_⟩
  rw [← hcheck]
  constructor
  · intro hbuild hok
    have hne : field ≠ "" := by
      have hkne : k ≠ "" := by
        rintro rfl
        exact (keyword_chars hd hw).1 hk.symm
      simp [field, hkne]
    obtain ⟨e, he⟩ := hbuild (.rule ⟨field, .isNull, .none⟩) ⟨_, List.mem_cons_self, rfl⟩
    rw [Builder.build_isNull hne hok] at he
    cases he
  · rintro hrefused t ⟨rule, hrule, hfield⟩
    cases hbuild : Builder.build { dialect := d } t with
    | error e => exact ⟨e, rfl⟩
    | ok c =>
      have hok := Builder.check_denylist_of_build hbuild hrule
      rw [hfield] at hok
      exact absurd hok hrefused

/-- The scan finds a keyword in capitals behind a scaled literal, in the middle of a field. -/
theorem keyword_behind_number_union :
    let field := "x " ++ ".5E-3" ++ "UNION" ++ " y"
    postgres ∈ known ∧ "union" ∈ postgres.deniedKeywords ∧ Text.Numeral ".5E-3".toList ∧
      Text.lower "UNION" = "union".toList ∧ Screen.denylist.check .postgres [field] ≠ .ok () ∧
      ∀ t : Tree, (∃ rule ∈ t.rules, rule.field = field) →
        ∃ e, Builder.build { dialect := .postgres } t = .error e := by
  have hfive : Text.Digits ['5'] := .singleton (by decide)
  have hthree : Text.Digits ['3'] := .singleton (by decide)
  have hnumeral : Text.Numeral ".5E-3".toList := .scaledDown (.fraction hfive) (Or.inr rfl) hthree
  have hpoint : ¬ Text.ExponentAtPoint ".5E-3".toList := by
    rintro ⟨ds, mark, es, hd, _, _, he⟩
    have hhead := hd.isDigit_head ('.' :: mark :: es) '.' (by rw [← he]; rfl)
    exact absurd hhead (by decide)
  have hknown : postgres ∈ known := by decide
  have hunion : "union" ∈ postgres.deniedKeywords := by decide
  have hcase : Text.lower "UNION" = "union".toList := by decide
  have hiff := keyword_behind_number_iff (p := "x ") (r := " y") hknown hunion hnumeral hcase
    (by rintro c ⟨⟩; decide) (by rintro c ⟨⟩; decide)
  exact ⟨hknown, hunion, hnumeral, hcase, hiff.1.mpr (Or.inl hpoint), hiff.2.mpr (Or.inl hpoint)⟩

/-- The keyword in `1.e5or 1` goes unseen, and the field is written into a clause. -/
theorem keyword_behind_number_unseen :
    let field := "" ++ "1.e5" ++ "or" ++ " 1"
    sqlite ∈ known ∧ "or" ∈ sqlite.deniedKeywords ∧ Text.Numeral "1.e5".toList ∧
      Text.lower "or" = "or".toList ∧ Screen.denylist.check .sqlite [field] = .ok () ∧
      Builder.build { dialect := .sqlite } (.rule ⟨field, .equal, .single (.int 1)⟩) =
        .ok ⟨"1.e5or 1 = ?", [.int 1]⟩ := by
  have hone : Text.Digits ['1'] := .singleton (by decide)
  have hfive : Text.Digits ['5'] := .singleton (by decide)
  refine ⟨by decide, by decide, ?_, by decide, by decide, rfl⟩
  exact .scaled (.point hone (List.forall_mem_nil _)) (Or.inl rfl) hfive

end Dialect

end WhereClause
