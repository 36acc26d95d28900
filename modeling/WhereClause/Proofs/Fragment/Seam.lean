import Mathlib.Data.List.Chain
import WhereClause.Proofs.Builder.Placeholders
import WhereClause.Proofs.Rule.Reading
import WhereClause.Proofs.Tree.EmptyGroup
import WhereClause.Proofs.Tree.Preorder

/-! Seams: where the pieces of a fragment meet. Every piece but an identifier comes from a short list
of fixed texts, and wherever two pieces meet, one of them brings a blank, a parenthesis or a
placeholder to the seam. Renaming the fields of a tree leaves all of this as it is. -/
namespace WhereClause

namespace Text

/-- The symbols at which pieces of a fragment meet. -/
def isSeam (c : Char) : Bool :=
  c == ' ' || c == '(' || c == ')' || c == '?'

theorem eq_of_isSeam {c : Char} (h : isSeam c = true) : c = ' ' ∨ c = '(' ∨ c = ')' ∨ c = '?' := by
  simpa only [isSeam, Bool.or_eq_true, beq_iff_eq, or_assoc] using h

/-- A seam on one side or the other, if there is anything on that side. -/
def MeetAtSeam (a b : List Char) : Prop :=
  (∀ c ∈ a.getLast?, isSeam c = true) ∨ ∀ c ∈ b.head?, isSeam c = true

end Text

namespace Segment

/-- Whether the segment ends at a seam, whatever the fields are called. -/
def closes : Segment → Bool
  | text s => s.toList.getLast?.any Text.isSeam
  | field _ => false
  | value _ => true

/-- Whether the segment begins at a seam, whatever the fields are called. -/
def opens : Segment → Bool
  | text s => s.toList.head?.any Text.isSeam
  | field _ => false
  | value _ => true

def Meets (s s' : Segment) : Prop :=
  s.closes = true ∨ s'.opens = true

def rename (g : String → String) : Segment → Segment
  | text s => text s
  | field name => field (g name)
  | value v => value v

theorem meets_rename_iff (g : String → String) (s s' : Segment) :
    (s.rename g).Meets (s'.rename g) ↔ s.Meets s' := by
  cases s <;> cases s' <;> rfl

theorem isChain_map_rename (g : String → String) {ss : List Segment} (h : ss.IsChain Meets) :
    (ss.map (rename g)).IsChain Meets :=
  List.isChain_map_of_isChain _ (fun s s' => (meets_rename_iff g s s').mpr) h

theorem rename_of_field?_eq_none (g : String → String) {s : Segment} (h : s.field? = none) :
    s.rename g = s := by
  cases s with
  | text | value => rfl
  | field name => cases h

theorem eq_of_field_mem_map_rename {name other : String} {ss : List Segment}
    (h : field other ∈ ss.map (rename fun _ => name)) : other = name := by
  obtain ⟨s, _, hs⟩ := List.mem_map.mp h
  cases s with
  | text | value => cases hs
  | field s => cases hs; rfl

theorem isSeam_getLast?_of_closes {s : Segment} (h : s.closes = true) :
    ∀ c ∈ s.symbols.getLast?, Text.isSeam c = true := by
  cases s with
  | text s =>
    intro c hc
    have hlast : s.toList.getLast? = some c := hc
    rwa [closes, hlast] at h
  | field name => cases h
  | value v =>
    intro c hc
    cases hc
    rfl

theorem isSeam_head?_of_opens {s : Segment} (h : s.opens = true) (rest : List Char) :
    ∀ c ∈ (s.symbols ++ rest).head?, Text.isSeam c = true := by
  cases s with
  | text s =>
    rw [symbols]
    rw [opens] at h
    cases hs : s.toList with
    | nil => rw [hs] at h; cases h
    | cons x xs =>
      rw [hs] at h
      intro c hc
      cases hc
      exact h
  | field name => cases h
  | value v =>
    intro c hc
    cases hc
    rfl

/-- Values meet whatever stands beside them, and so do fixed texts between values. -/
theorem isChain_intersperse (a : Segment) (vs : List Value) (s : String) :
    (a :: (vs.map value).intersperse (.text s)).IsChain Meets := by
  induction vs generalizing a with
  | nil => exact .singleton a
  | cons v rest ih =>
    cases rest with
    | nil => exact .cons_cons (Or.inr rfl) (.singleton _)
    | cons w rest =>
      rw [List.map_cons, List.map_cons, List.intersperse_cons_cons, ← List.map_cons]
      exact .cons_cons (Or.inr rfl) (.cons_cons (Or.inl rfl) (ih (.text s)))

theorem isChain_values (a : Segment) (vs : List Value) : (a :: vs.map value).IsChain Meets := by
  induction vs generalizing a with
  | nil => exact .singleton a
  | cons v rest ih => exact .cons_cons (Or.inr rfl) (ih (.value v))

theorem isChain_append_text {ss : List Segment} (h : ss.IsChain Meets) {s : String}
    (hs : (text s).opens = true) : (ss ++ [text s]).IsChain Meets := by
  refine List.isChain_append.mpr ⟨h, .singleton _, fun a _ b hb => Or.inr ?_⟩
  cases hb
  exact hs

/-- What a text comes to piece by piece, if it can be taken apart at seams. -/
theorem foldr_of_isChain {α : Type} (F : List Char → α) (op : α → α → α) {ss : List Segment}
    (h : ss.IsChain Meets) (hF : ∀ s ∈ ss, ∀ rest, Text.MeetAtSeam s.symbols rest →
      F (s.symbols ++ rest) = op (F s.symbols) (F rest)) :
    F (ss.flatMap symbols) = (ss.map fun s => F s.symbols).foldr op (F []) := by
  induction ss with
  | nil => rfl
  | cons s rest ih =>
    have hrest := ih h.tail fun s hs => hF s (List.mem_cons_of_mem _ hs)
    rw [List.flatMap_cons, List.map_cons, List.foldr_cons, ← hrest]
    refine hF s List.mem_cons_self _ ?_
    cases rest with
    | nil => exact Or.inr fun c hc => nomatch hc
    | cons s' rest =>
      rcases (List.isChain_cons_cons.mp h).1 with hs | hs'
      · exact Or.inl (isSeam_getLast?_of_closes hs)
      · exact Or.inr (isSeam_head?_of_opens hs' _)

end Segment

/-- A field meets the text of its predicate, whose own pieces meet at seams. -/
theorem Operator.isChain_segments (op : Operator) (name : String) (vs : List Value) :
    (.field name :: op.form.segments vs).IsChain Segment.Meets := by
  obtain ⟨text, symbols, more, hsegments, htext⟩ := op.segments_eq vs
  have hchain : (op.form.segments vs).IsChain Segment.Meets := by
    cases op.form with
    | comparison text | pattern text before after | test text => exact Segment.isChain_values _ vs
    | membership text =>
      exact Segment.isChain_append_text (Segment.isChain_intersperse (.text text) vs ", ") rfl
    | range text => exact Segment.isChain_intersperse (.text text) vs " AND "
  rw [hsegments] at hchain ⊢
  refine .cons_cons (Or.inr ?_) hchain
  rw [Segment.opens, htext]
  rfl

/-- The texts that are written for every tree alike. -/
def Fragment.IsFixed (s : String) : Prop :=
  s ∈ glue ∨ ∃ op : Operator, s ∈ op.form.texts

namespace Rule

def rename (g : String → String) (r : Rule) : Rule :=
  { r with field := g r.field }

/-- What a rule is written from. -/
def segments (r : Rule) : List Segment :=
  .field r.field :: r.operator.form.segments r.predicate.values

theorem traced_segments_of_render {r : Rule} {f : Fragment} (h : r.render = .ok f) :
    f.Traced r.segments := by
  rw [segments, ← (spelled_of_render h).1]
  exact traced_of_render h

theorem segments_rename (g : String → String) (r : Rule) :
    (r.rename g).segments = r.segments.map (Segment.rename g) := by
  have hform : (r.operator.form.segments r.predicate.values).map (Segment.rename g) =
      r.operator.form.segments r.predicate.values := by
    refine (List.map_congr_left fun s hs => ?_).trans (List.map_id _)
    have hfield := List.filterMap_eq_nil_iff.mp (Form.filterMap_field?_segments _ _) s hs
    exact Segment.rename_of_field?_eq_none g hfield
  rw [segments, segments, List.map_cons, hform]
  rfl

end Rule

/-- A fragment pieced together from the segments of rules, all of which meet at seams, and beside it
the same one with its fields renamed. -/
structure Fragment.Renamed (g : String → String) (rules : List Rule) (ss : List Segment)
    (f f' : Fragment) : Prop where
  traced : f.Traced ss
  renamed : f'.Traced (ss.map (Segment.rename g))
  chain : ss.IsChain Segment.Meets
  woven : Woven (rules.map Rule.segments) ss

namespace Fragment.Renamed
variable {g : String → String} {rules rules' : List Rule} {ss us : List Segment}
  {f f' h h' : Fragment} {s : String}

/-- All text of the fragment is fixed. -/
theorem fixed (hf : Renamed g rules ss f f') (s : String) (hs : .text s ∈ ss) : IsFixed s := by
  refine (hf.woven.mem_text hs).imp_right ?_
  rintro ⟨p, hp, hs⟩
  obtain ⟨r, _, rfl⟩ := List.mem_map.mp hp
  rcases List.mem_cons.mp hs with hs | hs
  · cases hs
  · exact ⟨r.operator, Form.mem_texts_of_mem_segments hs⟩

/-- A rule with another field is written with the other field in its place. -/
theorem rule {r : Rule} (hr : r.render = .ok f) :
    ∃ f', (r.rename g).render = .ok f' ∧ Renamed g [r] r.segments f f' := by
  have haccepts := r.exists_render_iff.mp ⟨f, hr⟩
  obtain ⟨f', hr'⟩ := (r.rename g).exists_render_iff.mpr haccepts
  refine ⟨f', hr', Rule.traced_segments_of_render hr, ?_, r.operator.isChain_segments _ _, ?_⟩
  · rw [← Rule.segments_rename]
    exact Rule.traced_segments_of_render hr'
  · simpa using Woven.part r.segments .done

theorem append (hf : Renamed g rules ss f f') (hh : Renamed g rules' us h h')
    (hmeet : ∀ a ∈ ss.getLast?, ∀ b ∈ us.head?, a.Meets b) :
    Renamed g (rules ++ rules') (ss ++ us) (f ++ h) (f' ++ h') where
  traced := hf.traced.append hh.traced
  renamed := by
    rw [List.map_append]
    exact hf.renamed.append hh.renamed
  chain := List.isChain_append.mpr ⟨hf.chain, hh.chain, hmeet⟩
  woven := by
    rw [List.map_append]
    exact hf.woven.append hh.woven

theorem keyword (hf : Renamed g rules ss f f') (hs : s ∈ glue)
    (hopen : (Segment.text s).opens = true) :
    Renamed g rules (ss ++ [.text s]) (f.keyword s) (f'.keyword s) where
  traced := hf.traced.keyword s
  renamed := by
    rw [List.map_append]
    exact hf.renamed.keyword s
  chain := Segment.isChain_append_text hf.chain hopen
  woven := hf.woven.follow hs

theorem text (hs : s ∈ glue) : Renamed g [] [.text s] ⟨s, [], []⟩ ⟨s, [], []⟩ where
  traced := Traced.text s
  renamed := Traced.text s
  chain := .singleton _
  woven := .glue hs .done

theorem enclose (hf : Renamed g rules ss f f') (hs : s ∈ glue)
    (hclose : (Segment.text s).closes = true) :
    Renamed g rules (.text s :: (ss ++ [.text ")"])) { f with sql := s ++ f.sql ++ ")" }
      { f' with sql := s ++ f'.sql ++ ")" } := by
  have hwhole := (text (g := g) hs).append (hf.keyword (s := ")") (by decide) rfl)
    fun a ha b _ => Or.inl (by cases ha; exact hclose)
  rwa [text_append_keyword, text_append_keyword] at hwhole

theorem parenthesizeIf (hf : Renamed g rules ss f f') (wrapped : Bool) :
    ∃ us, Renamed g rules us (f.parenthesizeIf wrapped) (f'.parenthesizeIf wrapped) := by
  cases wrapped with
  | false => exact ⟨ss, hf⟩
  | true => exact ⟨_, hf.enclose (by decide) rfl⟩

theorem negateIf (hf : Renamed g rules ss f f') (negated : Bool) :
    ∃ us, Renamed g rules us (f.negateIf negated) (f'.negateIf negated) := by
  cases negated with
  | false => exact ⟨ss, hf⟩
  | true => exact ⟨_, hf.enclose (by decide) rfl⟩

theorem join (combinator : Combinator) {lists : List (List Rule)}
    {pairs : List (Fragment × Fragment)}
    (h : List.Forall₂ (fun rules pair => ∃ ss, Renamed g rules ss pair.1 pair.2) lists pairs) :
    ∃ us, Renamed g lists.flatten us (Fragment.join combinator (pairs.map Prod.fst))
      (Fragment.join combinator (pairs.map Prod.snd)) := by
  have hsep : combinator.separator ∈ glue ∧ (Segment.text combinator.separator).opens = true ∧
      (Segment.text combinator.separator).closes = true := by cases combinator <;> decide
  obtain ⟨hmem, hopens, hcloses⟩ := hsep
  induction h with
  | nil => exact ⟨[], .empty, .empty, .nil, .done⟩
  | @cons rules pair lists pairs hf hrest ih =>
    obtain ⟨ss, hf⟩ := hf
    cases hrest with
    | nil =>
      refine ⟨ss, ?_⟩
      rwa [List.flatten_cons, List.flatten_nil, List.append_nil]
    | cons =>
      obtain ⟨us, hus⟩ := ih
      refine ⟨_, (hf.keyword hmem hopens).append hus fun a ha b _ => Or.inl ?_⟩
      rw [List.getLast?_concat] at ha
      cases ha
      exact hcloses

end Fragment.Renamed

/-- A tree with its fields renamed is written as the tree is, with the fields renamed in the text. -/
theorem Tree.exists_renamed_of_renderIn (g : String → String) {nested : Bool} {t : Tree} {f : Fragment}
    (h : t.renderIn .standard nested = .ok f) :
    ∃ ss f', (t.mapRules (Rule.rename g)).renderIn .standard nested = .ok f' ∧
      Fragment.Renamed g t.rules ss f f' := by
  refine Tree.renderIn_induction (motive := fun nested t f => ∃ ss f',
    (t.mapRules (Rule.rename g)).renderIn .standard nested = .ok f' ∧
      Fragment.Renamed g t.rules ss f f') ?_ ?_ ?_ h
  · intro nested r f hr
    rw [Renderers.render_standard] at hr
    obtain ⟨f', hr', hrenamed⟩ := Fragment.Renamed.rule (g := g) hr
    refine ⟨_, f', ?_, hrenamed⟩
    rwa [mapRules, renderIn, Renderers.render_standard]
  · rintro nested combinator negated child f ⟨ss, f', hf', hrenamed⟩
    obtain ⟨us, hus⟩ := hrenamed.negateIf negated
    refine ⟨us, f'.negateIf negated, ?_, ?_⟩
    · rw [mapRules, mapRulesOfAll_eq_map, List.map_singleton, renderIn, hf']
      rfl
    · rwa [rules, rulesOfAll_eq_flatMap, List.flatMap_singleton]
  · intro nested combinator negated children fs hlen hall
    -- The fragments of both trees go in pairs, so that they are joined side by side.
    have hparts : ∃ pairs : List (Fragment × Fragment), pairs.map Prod.fst = fs ∧
        renderAll .standard (children.map (mapRules (Rule.rename g))) = .ok (pairs.map Prod.snd) ∧
        List.Forall₂ (fun rules pair => ∃ ss, Fragment.Renamed g rules ss pair.1 pair.2)
          (children.map rules) pairs := by
      clear hlen
      induction hall with
      | nil => exact ⟨[], rfl, rfl, .nil⟩
      | cons ht _ ih =>
        obtain ⟨ss, f', hf', hrenamed⟩ := ht
        obtain ⟨pairs, rfl, hfs', hrest⟩ := ih
        refine ⟨(_, f') :: pairs, rfl, ?_, .cons ⟨ss, hrenamed⟩ hrest⟩
        rw [List.map_cons, renderAll, hf', hfs']
        rfl
    obtain ⟨pairs, rfl, hfs', hrenamed⟩ := hparts
    obtain ⟨ss, hss⟩ := Fragment.Renamed.join combinator hrenamed
    obtain ⟨us, hus⟩ := hss.parenthesizeIf (nested && !negated)
    obtain ⟨vs, hvs⟩ := hus.negateIf negated
    refine ⟨vs, _, ?_, by rwa [rules, rulesOfAll_eq_flatMap]⟩
    rw [mapRules, mapRulesOfAll_eq_map]
    rcases children with _ | ⟨first, _ | ⟨second, rest⟩⟩
    · simp at hlen
    · simp at hlen
    · rw [List.map_cons, List.map_cons] at hfs' ⊢
      rw [renderIn, hfs']
      rfl

end WhereClause
