import Mathlib.Computability.Language
import WhereClause.Proofs.Builder.Stages
import WhereClause.Proofs.Identifier

/-! Plain identifiers as a regular language, and the place at which a text stops being the beginning of
one. What the screen reports about an identifier stands at this place. -/
namespace WhereClause.Identifier
open Computability

/-- The texts of one symbol of a class. -/
def symbols (p : Char → Bool) : Language Char :=
  {text | ∃ c, p c = true ∧ text = [c]}

/-- A letter or an underscore, then letters, digits and underscores. -/
def names : Language Char :=
  symbols Text.isNameStart * (symbols Text.isWordChar)∗

/-- A name, then names with a point before each. -/
def grammar : Language Char :=
  names * (symbols (· == '.') * names)∗

/-- The text is the beginning of an identifier, or all of it. -/
def Viable (text : List Char) : Prop :=
  ∃ rest, text ++ rest ∈ grammar

/-- A name should begin behind a text that is empty or ends in a point. -/
def AwaitsName (passed : List Char) : Prop :=
  ∀ c ∈ passed.getLast?, c = '.'

/-- What is reported of a place, by the text before it and the text from there on. -/
inductive Reports (passed : List Char) : List Char → String → Prop where
  /-- The symbol that stands there, unless it is a point where a name should begin. -/
  | symbol {c : Char} {rest : List Char} (h : ¬ (AwaitsName passed ∧ c = '.')) :
    Reports passed (c :: rest) (String.singleton c)
  | point {rest : List Char} (h : AwaitsName passed) : Reports passed ('.' :: rest) "<empty segment>"
  | ending (h : AwaitsName passed) : Reports passed [] "<empty segment>"

/-- The place at which a text stops being the beginning of an identifier, or its end if it never does. -/
structure Breaks (text passed later : List Char) : Prop where
  split : text = passed ++ later
  viable : Viable passed
  stops : ∀ c ∈ later.head?, ¬ Viable (passed ++ [c])

variable {c : Char} {word text rest : List Char}

theorem mem_kstar_symbols_iff {p : Char → Bool} :
    text ∈ (symbols p)∗ ↔ ∀ c ∈ text, p c = true := by
  constructor
  · rintro ⟨parts, rfl, hparts⟩ c hc
    obtain ⟨part, hpart, hc⟩ := List.mem_flatten.mp hc
    obtain ⟨x, hx, rfl⟩ := hparts part hpart
    rwa [List.mem_singleton.mp hc]
  · intro h
    refine ⟨text.map ([·]), ?_, fun part hpart => ?_⟩
    · rw [← List.flatMap_def, List.flatMap_singleton']
    obtain ⟨c, hc, rfl⟩ := List.mem_map.mp hpart
    exact ⟨c, h c hc, rfl⟩

/-- The names are the segments without a fault. -/
theorem mem_names_iff : word ∈ names ↔ segmentFault? word = none := by
  rw [names, Language.mem_mul]
  constructor
  · rintro ⟨_, ⟨first, hfirst, rfl⟩, rest, hrest, rfl⟩
    exact segmentFault?_cons_eq_none_iff.mpr ⟨hfirst, mem_kstar_symbols_iff.mp hrest⟩
  · intro h
    cases word with
    | nil => cases h
    | cons first rest =>
      obtain ⟨hfirst, hrest⟩ := segmentFault?_cons_eq_none_iff.mp h
      exact ⟨[first], ⟨first, hfirst, rfl⟩, rest, mem_kstar_symbols_iff.mpr hrest, rfl⟩

theorem point_notMem_of_segmentFault? (h : segmentFault? word = none) : '.' ∉ word := by
  intro hmem
  have hpoint : Text.isWordChar '.' = false := by decide
  rw [isWordChar_of_segmentFault? h '.' hmem] at hpoint
  cases hpoint

/-- A text is free of points, or such a text up to a point and another text behind the point. -/
theorem segment_induction {motive : List Char → Prop} (segment : ∀ word, '.' ∉ word → motive word)
    (point : ∀ word text, '.' ∉ word → motive text → motive (word ++ '.' :: text))
    (text : List Char) : motive text := by
  induction hlength : text.length using Nat.strongRecOn generalizing text with
  | ind n ih =>
    by_cases hmem : '.' ∈ text
    · obtain ⟨word, rest, rfl, hword⟩ := List.eq_append_cons_of_mem hmem
      refine point word rest hword (ih rest.length ?_ rest rfl)
      rw [← hlength, List.length_append, List.length_cons]
      omega
    · exact segment text hmem

theorem names_subset_grammar (h : word ∈ names) : word ∈ grammar :=
  Language.mem_mul.mpr ⟨word, h, [], Language.nil_mem_kstar _, List.append_nil word⟩

theorem append_point_mem_grammar (hword : word ∈ names) (htext : text ∈ grammar) :
    word ++ '.' :: text ∈ grammar := by
  obtain ⟨first, hfirst, _, ⟨parts, rfl, hparts⟩, rfl⟩ := Language.mem_mul.mp htext
  have hpart : '.' :: first ∈ symbols (· == '.') * names :=
    Language.mem_mul.mpr ⟨['.'], ⟨'.', rfl, rfl⟩, first, hfirst, rfl⟩
  refine Language.mem_mul.mpr ⟨word, hword, (('.' :: first) :: parts).flatten, ?_, by simp⟩
  exact Language.join_mem_kstar (List.forall_mem_cons.mpr ⟨hpart, hparts⟩)

/-- The identifiers are the texts without a fault between any two of their points. -/
theorem mem_grammar_iff :
    text ∈ grammar ↔ ∀ word ∈ text.splitOn '.', segmentFault? word = none := by
  constructor
  · intro h
    obtain ⟨first, hfirst, _, ⟨parts, rfl, hparts⟩, rfl⟩ := Language.mem_mul.mp h
    clear h
    induction parts generalizing first with
    | nil =>
      have hfault := mem_names_iff.mp hfirst
      have hpoint := point_notMem_of_segmentFault? hfault
      rwa [List.flatten_nil, List.append_nil, List.splitOn_eq_singleton hpoint,
        List.forall_mem_singleton]
    | cons part parts ih =>
      obtain ⟨hpart, hrest⟩ := List.forall_mem_cons.mp hparts
      obtain ⟨_, ⟨c, hc, rfl⟩, name, hname, rfl⟩ := Language.mem_mul.mp hpart
      obtain rfl := eq_of_beq hc
      have hfault := mem_names_iff.mp hfirst
      have hpoint := point_notMem_of_segmentFault? hfault
      rw [List.flatten_cons, List.append_assoc, List.singleton_append,
        List.splitOn_append_cons_self_of_not_mem hpoint, List.forall_mem_cons]
      exact ⟨hfault, ih name hname hrest⟩
  · induction text using segment_induction with
    | segment word hpoint =>
      rw [List.splitOn_eq_singleton hpoint, List.forall_mem_singleton]
      exact fun h => names_subset_grammar (mem_names_iff.mpr h)
    | point word text hpoint ih =>
      rw [List.splitOn_append_cons_self_of_not_mem hpoint, List.forall_mem_cons]
      exact fun h => append_point_mem_grammar (mem_names_iff.mpr h.1) (ih h.2)

/-- A name with the point behind it is passed over. -/
theorem append_point_mem_grammar_iff (h : segmentFault? word = none) :
    word ++ '.' :: text ∈ grammar ↔ text ∈ grammar := by
  rw [mem_grammar_iff, mem_grammar_iff, List.splitOn_append_cons_self_of_not_mem
    (point_notMem_of_segmentFault? h), List.forall_mem_cons, and_iff_right h]

theorem viable_append_point_iff (h : segmentFault? word = none) :
    Viable (word ++ '.' :: text) ↔ Viable text := by
  refine exists_congr fun rest => ?_
  rw [List.append_assoc, List.cons_append, append_point_mem_grammar_iff h]

theorem awaitsName_append_point_iff (word text : List Char) :
    AwaitsName (word ++ '.' :: text) ↔ AwaitsName text := by
  cases hlast : text.getLast? with
  | none => simp [AwaitsName, List.getLast?_append, List.getLast?_cons, hlast]
  | some c => simp [AwaitsName, List.getLast?_append, List.getLast?_cons, hlast]

/-- A segment that does not end there goes on as a segment in every identifier it begins. -/
theorem exists_segment_of_viable (hpoint : '.' ∉ word) (h : Viable word) :
    ∃ more, segmentFault? (word ++ more) = none := by
  obtain ⟨rest, hrest⟩ := h
  rw [mem_grammar_iff] at hrest
  induction rest using segment_induction with
  | segment more hmore =>
    have hnone : '.' ∉ word ++ more := by simp [hpoint, hmore]
    rw [List.splitOn_eq_singleton hnone, List.forall_mem_singleton] at hrest
    exact ⟨more, hrest⟩
  | point more text hmore _ =>
    have hnone : '.' ∉ word ++ more := by simp [hpoint, hmore]
    rw [← List.append_assoc, List.splitOn_append_cons_self_of_not_mem hnone,
      List.forall_mem_cons] at hrest
    exact ⟨more, hrest.1⟩

theorem viable_nil : Viable [] :=
  ⟨['a'], mem_grammar_iff.mpr (by decide)⟩

theorem viable_of_segmentFault? (h : segmentFault? word = none) : Viable word := by
  refine ⟨[], ?_⟩
  rw [List.append_nil]
  exact names_subset_grammar (mem_names_iff.mpr h)

/-- No identifier begins with a point. -/
theorem not_viable_point : ¬ Viable ['.'] := by
  rintro ⟨rest, h⟩
  have hsplit : (['.'] ++ rest).splitOn '.' = [] :: rest.splitOn '.' :=
    List.splitOn_append_cons_self_of_not_mem List.not_mem_nil rest
  rw [mem_grammar_iff, hsplit, List.forall_mem_cons] at h
  cases h.1

/-- A segment with a fault breaks the text where the symbol stands that is reported, or at its beginning
if it is empty. -/
theorem exists_breaks_segment {token : String} (hpoint : '.' ∉ word)
    (h : segmentFault? word = some token) {tail : List Char} (htail : ∀ c ∈ tail.head?, c = '.') :
    ∃ passed later, Breaks (word ++ tail) passed later ∧ Reports passed later token := by
  cases word with
  | nil =>
    cases h
    have hawaits : AwaitsName [] := by simp [AwaitsName]
    refine ⟨[], tail, ⟨rfl, viable_nil, fun c hc => htail c hc ▸ not_viable_point⟩, ?_⟩
    cases tail with
    | nil => exact .ending hawaits
    | cons c tail =>
      obtain rfl := htail c rfl
      exact .point hawaits
  | cons first rest =>
    rw [segmentFault?] at h
    by_cases hfirst : Text.isNameStart first = true
    · rw [if_pos hfirst, Option.map_eq_some_iff] at h
      obtain ⟨c, hfind, rfl⟩ := h
      obtain ⟨hc, before, after, rfl, hbefore⟩ := List.find?_eq_some_iff_append.mp hfind
      have hname : segmentFault? (first :: before) = none :=
        segmentFault?_cons_eq_none_iff.mpr ⟨hfirst, fun x hx => by simpa using hbefore x hx⟩
      have hne : c ≠ '.' := fun he => hpoint (by simp [he])
      refine ⟨first :: before, c :: after ++ tail, ⟨by simp, viable_of_segmentFault? hname, ?_⟩,
        .symbol fun h => hne h.2⟩
      rintro _ ⟨⟩ hviable
      have hnone : '.' ∉ first :: before ++ [c] := fun hmem => hpoint (by
        simp only [List.mem_cons, List.mem_append] at hmem ⊢
        tauto)
      obtain ⟨more, hmore⟩ := exists_segment_of_viable hnone hviable
      have hword := isWordChar_of_segmentFault? hmore c (by simp)
      rw [hword] at hc
      cases hc
    · rw [if_neg hfirst] at h
      cases h
      have hne : first ≠ '.' := fun he => hpoint (by simp [he])
      refine ⟨[], first :: rest ++ tail, ⟨rfl, viable_nil, ?_⟩, .symbol fun h => hne h.2⟩
      rintro _ ⟨⟩ hviable
      have hnone : '.' ∉ [first] := by simpa using hne.symm
      obtain ⟨more, hmore⟩ := exists_segment_of_viable hnone hviable
      exact hfirst (segmentFault?_cons_eq_none_iff.mp hmore).1

theorem Breaks.append_point {passed later : List Char} (hword : segmentFault? word = none)
    (h : Breaks text passed later) :
    Breaks (word ++ '.' :: text) (word ++ '.' :: passed) later where
  split := by simp [h.split]
  viable := (viable_append_point_iff hword).mpr h.viable
  stops c hc hviable := by
    rw [List.append_assoc, List.cons_append, viable_append_point_iff hword] at hviable
    exact h.stops c hc hviable

theorem Reports.append_point {passed later : List Char} {token : String} (word : List Char)
    (h : Reports passed later token) : Reports (word ++ '.' :: passed) later token := by
  cases h with
  | symbol h => exact .symbol (by rwa [awaitsName_append_point_iff])
  | point h => exact .point ((awaitsName_append_point_iff word passed).mpr h)
  | ending h => exact .ending ((awaitsName_append_point_iff word passed).mpr h)

/-- The first fault of a segment is reported where the whole text breaks. -/
theorem exists_breaks {token : String} (h : (text.splitOn '.').findSome? segmentFault? = some token) :
    ∃ passed later, Breaks text passed later ∧ Reports passed later token := by
  induction text using segment_induction with
  | segment word hpoint =>
    rw [List.splitOn_eq_singleton hpoint, List.findSome?_singleton] at h
    have hbreaks := @exists_breaks_segment _ _ hpoint h [] (by simp)
    rwa [List.append_nil] at hbreaks
  | point word text hpoint ih =>
    rw [List.splitOn_append_cons_self_of_not_mem hpoint, List.findSome?_cons] at h
    cases hfault : segmentFault? word with
    | some found =>
      rw [hfault] at h
      cases h
      exact exists_breaks_segment hpoint hfault (by simp)
    | none =>
      rw [hfault] at h
      obtain ⟨passed, later, hbreaks, hreports⟩ := ih h
      exact ⟨_, later, hbreaks.append_point hfault, hreports.append_point word⟩

theorem Viable.of_prefix {passed : List Char} (h : Viable text) (hfront : passed <+: text) :
    Viable passed := by
  obtain ⟨more, rfl⟩ := hfront
  obtain ⟨rest, hrest⟩ := h
  exact ⟨more ++ rest, by rwa [← List.append_assoc]⟩

/-- A text cannot go on behind the place at which it breaks. -/
theorem Breaks.passed_prefix {passed later passed' later' : List Char} (h : Breaks text passed later)
    (h' : Breaks text passed' later') : passed' <+: passed := by
  have hfront : passed <+: text := ⟨later, h.split.symm⟩
  have hfront' : passed' <+: text := ⟨later', h'.split.symm⟩
  rcases List.prefix_or_prefix_of_prefix hfront' hfront with hle | ⟨more, rfl⟩
  · exact hle
  · cases more with
    | nil => rw [List.append_nil]
    | cons c more =>
      have hlater : later = c :: more ++ later' := by
        have hsplit := h.split.symm.trans h'.split
        rwa [List.append_assoc, List.append_cancel_left_eq] at hsplit
      have hgoes : Viable (passed ++ [c]) := h'.viable.of_prefix ⟨more, by simp⟩
      exact absurd hgoes (h.stops c (by rw [hlater]; rfl))

theorem Breaks.unique {passed later passed' later' : List Char} (h : Breaks text passed later)
    (h' : Breaks text passed' later') : passed = passed' ∧ later = later' := by
  obtain rfl := (h'.passed_prefix h).eq_of_length_le (h.passed_prefix h').length_le
  exact ⟨rfl, List.append_cancel_left (h.split.symm.trans h'.split)⟩

theorem Reports.unique {passed later : List Char} {token token' : String}
    (h : Reports passed later token) (h' : Reports passed later token') : token = token' := by
  cases h with
  | symbol h =>
    cases h' with
    | symbol => rfl
    | point h' => exact absurd ⟨h', rfl⟩ h
  | point h =>
    cases h' with
    | symbol h' => exact absurd ⟨h, rfl⟩ h'
    | point => rfl
  | ending =>
    cases h' with
    | ending => rfl

theorem ne_nil_of_mem_grammar (h : text ∈ grammar) : text ≠ [] := by
  rintro rfl
  exact absurd (mem_grammar_iff.mp h) (by decide)

theorem isValid_iff_mem_grammar (identifier : String) :
    isValid identifier = true ↔ identifier.utf8ByteSize ≤ maxBytes ∧ identifier.toList ∈ grammar := by
  rw [isValid, Option.isNone_iff_eq_none, fault?_eq_none_iff, ← mem_grammar_iff, and_iff_right_of_imp]
  rintro ⟨-, h⟩ rfl
  exact ne_nil_of_mem_grammar h rfl

theorem fault?_eq_findSome? {identifier : String} (hne : identifier ≠ "")
    (hsize : identifier.utf8ByteSize ≤ maxBytes) :
    fault? identifier = (identifier.toList.splitOn '.').findSome? segmentFault? := by
  rw [fault?, if_neg (mt String.isEmpty_iff.mp hne), if_neg (Nat.not_lt.mpr hsize)]

/-- An identifier is valid exactly if it belongs to the grammar and is not too long. Of the others, what
is reported stands at the place where the text stops being the beginning of an identifier, unless the
text is too long. -/
theorem check_plain_at_break (identifier : String) :
    (isValid identifier = true ↔
      identifier.utf8ByteSize ≤ 128 ∧ identifier.toList ∈ grammar) ∧
    ∀ d : Dialect,
      (Screen.plain.check d [identifier] = .ok () ↔ isValid identifier = true) ∧
      (128 < identifier.utf8ByteSize →
        Screen.plain.check d [identifier] = .error ⟨"<too long>"⟩) ∧
      (identifier ≠ "" → identifier.utf8ByteSize ≤ 128 → isValid identifier = false → ∀ token,
        Screen.plain.check d [identifier] = .error ⟨token⟩ ↔
          ∃ passed later, Breaks identifier.toList passed later ∧ Reports passed later token) := by
  refine ⟨isValid_iff_mem_grammar identifier, fun d => ⟨?_, fun hlong => ?_, ?_⟩⟩
  · rw [Screen.check_eq_ok_iff, List.forall_mem_singleton, isValid, Option.isNone_iff_eq_none]
    rfl
  · have hne : ¬ identifier.isEmpty = true := by
      intro hempty
      rw [String.isEmpty_iff.mp hempty] at hlong
      exact absurd hlong (by decide)
    have hmax : maxBytes < identifier.utf8ByteSize := hlong
    rw [Screen.check_singleton_eq_error_iff, Screen.fault?, fault?, if_neg hne, if_pos hmax]
  · intro hne hsize hinvalid token
    have hreported (token : String) : Screen.plain.check d [identifier] = .error ⟨token⟩ ↔
        (identifier.toList.splitOn '.').findSome? segmentFault? = some token := by
      rw [Screen.check_singleton_eq_error_iff, Screen.fault?, fault?_eq_findSome? hne hsize]
    rw [isValid, Option.isNone_eq_false_iff, fault?_eq_findSome? hne hsize] at hinvalid
    obtain ⟨found, hfound⟩ := Option.isSome_iff_exists.mp hinvalid
    rw [hreported]
    refine ⟨exists_breaks, ?_⟩
    rintro ⟨passed, later, hbreaks, hreports⟩
    obtain ⟨passed', later', hbreaks', hreports'⟩ := exists_breaks hfound
    obtain ⟨rfl, rfl⟩ := hbreaks.unique hbreaks'
    rw [hfound, hreports.unique hreports']

/-- In bytes the first text is one over the limit and the second is at it, where a letter beyond ASCII is
reported. The digit of the third comes before the empty segment, and the last lacks its end. -/
theorem check_plain_at_break_beyond_ascii :
    let long := String.ofList ('a' :: 'a' :: 'a' :: List.replicate 42 '名')
    let wide := String.ofList ('a' :: 'a' :: List.replicate 42 '名')
    (128 < long.utf8ByteSize ∧ Screen.plain.check .sqlite [long] = .error ⟨"<too long>"⟩) ∧
    (wide ≠ "" ∧ wide.utf8ByteSize ≤ 128 ∧ isValid wide = false ∧
      Screen.plain.check .sqlite [wide] = .error ⟨"名"⟩ ∧
      ∃ passed later, Breaks wide.toList passed later ∧ Reports passed later "名") ∧
    (∃ passed later, Breaks "a.1..b".toList passed later ∧ Reports passed later "1") ∧
    ∃ passed later, Breaks "a.b.".toList passed later ∧ Reports passed later "<empty segment>" := by
  intro long wide
  have hlong : 128 < long.utf8ByteSize := by decide +kernel
  have hwide : wide ≠ "" ∧ wide.utf8ByteSize ≤ 128 ∧ isValid wide = false ∧
    Screen.plain.check .sqlite [wide] = .error ⟨"名"⟩ := by decide +kernel
  obtain ⟨hne, hsize, hinvalid, hcheck⟩ := hwide
  refine ⟨⟨hlong, ((check_plain_at_break long).2 .sqlite).2.1 hlong⟩,
    ⟨hne, hsize, hinvalid, hcheck, ?_⟩, ?_, ?_⟩
  · exact (((check_plain_at_break wide).2 .sqlite).2.2 hne hsize hinvalid _).mp hcheck
  · exact (((check_plain_at_break _).2 .sqlite).2.2 (by decide) (by decide) (by decide) _).mp (by decide)
  · exact (((check_plain_at_break _).2 .sqlite).2.2 (by decide) (by decide) (by decide) _).mp (by decide)

end WhereClause.Identifier
