import WhereClause.Proofs.Fragment.Trace
import WhereClause.Proofs.Renderers
import WhereClause.Proofs.Tree.Rendering

/-! Where the text of a written tree comes from: the traces of its rules, each whole and in its place,
and fixed glue between and around them. -/
namespace WhereClause

/-- The texts that joining, parenthesizing and negating add to the fragments of rules. -/
def Fragment.glue : List String :=
  [" AND ", " OR ", "(", ")", "NOT ("]

/-- The parts in their order, each of them whole, with nothing but glue between and around them. -/
inductive Woven : List (List Segment) → List Segment → Prop where
  | done : Woven [] []
  | glue {parts : List (List Segment)} {ss : List Segment} {s : String} (hs : s ∈ Fragment.glue)
      (h : Woven parts ss) : Woven parts (.text s :: ss)
  | part {parts : List (List Segment)} {ss : List Segment} (p : List Segment)
      (h : Woven parts ss) : Woven (p :: parts) (p ++ ss)

namespace Woven
variable {parts qs : List (List Segment)} {ss us : List Segment} {s : String}

theorem append (h : Woven parts ss) (h' : Woven qs us) : Woven (parts ++ qs) (ss ++ us) := by
  induction h with
  | done => exact h'
  | glue hs _ ih => exact .glue hs ih
  | part p _ ih =>
    rw [List.append_assoc]
    exact .part p ih

theorem follow (h : Woven parts ss) (hs : s ∈ Fragment.glue) : Woven parts (ss ++ [.text s]) := by
  have hh := h.append (.glue hs .done)
  rwa [List.append_nil] at hh

/-- What is read off the segments, and not off fixed text, is read off the parts one by one. -/
theorem filterMap_eq {α : Type} (h : Woven parts ss) (read : Segment → Option α)
    (htext : ∀ s, read (.text s) = none) :
    ss.filterMap read = parts.flatMap (List.filterMap read) := by
  induction h with
  | done => rfl
  | glue _ _ ih => rw [List.filterMap_cons, htext, ih]
  | part p _ ih => rw [List.filterMap_append, ih, List.flatMap_cons]

theorem flatMap_eq {α : Type} (h : Woven parts ss) (read : Segment → List α)
    (hglue : ∀ s ∈ Fragment.glue, read (.text s) = []) :
    ss.flatMap read = parts.flatMap (List.flatMap read) := by
  induction h with
  | done => rfl
  | glue hs _ ih => rw [List.flatMap_cons, hglue _ hs, ih, List.nil_append]
  | part p _ ih => rw [List.flatMap_append, ih, List.flatMap_cons]

theorem mem_text (h : Woven parts ss) (hs : Segment.text s ∈ ss) :
    s ∈ Fragment.glue ∨ ∃ p ∈ parts, Segment.text s ∈ p := by
  induction h with
  | done => cases hs
  | glue hg _ ih =>
    rcases List.mem_cons.mp hs with he | hs
    · cases he
      exact Or.inl hg
    · exact ih hs
  | part p _ ih =>
    rcases List.mem_append.mp hs with hs | hs
    · exact Or.inr ⟨p, List.mem_cons_self, hs⟩
    · exact (ih hs).imp_right fun ⟨q, hq, hs⟩ => ⟨q, List.mem_cons_of_mem _ hq, hs⟩

end Woven

/-- However the leaves are traced, the fragment has a trace in which theirs are woven together. -/
def Fragment.WovenFrom (leaves : List Fragment) (f : Fragment) : Prop :=
  ∀ parts, List.Forall₂ Traced leaves parts → ∃ ss, f.Traced ss ∧ Woven parts ss

namespace Fragment.WovenFrom
variable {ls ms : List Fragment} {f g : Fragment}

theorem leaf (f : Fragment) : WovenFrom [f] f := by
  intro parts h
  obtain ⟨ss, _, hf, hnil, rfl⟩ := List.forall₂_cons_left_iff.mp h
  rw [List.forall₂_nil_left_iff.mp hnil]
  exact ⟨ss, hf, by simpa using Woven.part ss .done⟩

theorem append (hf : WovenFrom ls f) (hg : WovenFrom ms g) : WovenFrom (ls ++ ms) (f ++ g) := by
  intro parts h
  obtain ⟨ss, ht, hw⟩ := hf _ (List.forall₂_take_append parts ls ms h.flip).flip
  obtain ⟨us, ht', hw'⟩ := hg _ (List.forall₂_drop_append parts ls ms h.flip).flip
  have hh := hw.append hw'
  rw [List.take_append_drop] at hh
  exact ⟨ss ++ us, ht.append ht', hh⟩

theorem keyword (hf : WovenFrom ls f) {s : String} (hs : s ∈ glue) : WovenFrom ls (f.keyword s) := by
  intro parts h
  obtain ⟨ss, ht, hw⟩ := hf parts h
  exact ⟨_, ht.keyword s, hw.follow hs⟩

theorem enclose (hf : WovenFrom ls f) {s : String} (hs : s ∈ glue) :
    WovenFrom ls { f with sql := s ++ f.sql ++ ")" } := by
  intro parts h
  obtain ⟨ss, ht, hw⟩ := hf parts h
  have hclose : ")" ∈ glue := by decide
  refine ⟨_, ?_, .glue hs (hw.follow hclose)⟩
  have htrace := (Traced.text s).append (ht.keyword ")")
  rwa [text_append_keyword] at htrace

theorem join (combinator : Combinator) {lss : List (List Fragment)} {fs : List Fragment}
    (h : List.Forall₂ WovenFrom lss fs) : WovenFrom lss.flatten (Fragment.join combinator fs) := by
  have hsep : combinator.separator ∈ glue := by cases combinator <;> decide
  induction h with
  | nil =>
    intro parts h
    rw [List.flatten_nil, List.forall₂_nil_left_iff] at h
    subst h
    exact ⟨[], .empty, .done⟩
  | @cons ls f lss fs hf hrest ih =>
    rw [List.flatten_cons]
    cases hrest with
    | nil =>
      rw [List.flatten_nil, List.append_nil]
      exact hf
    | cons => exact (hf.keyword hsep).append ih

theorem negateIf (hf : WovenFrom ls f) (negated : Bool) : WovenFrom ls (f.negateIf negated) := by
  cases negated with
  | false => exact hf
  | true => exact hf.enclose (by decide)

theorem parenthesizeIf (hf : WovenFrom ls f) (wrapped : Bool) :
    WovenFrom ls (f.parenthesizeIf wrapped) := by
  cases wrapped with
  | false => exact hf
  | true => exact hf.enclose (by decide)

/-- Values and identifiers come from the leaves alone, leaf by leaf. -/
theorem flatMap_eq {parts : List (List Segment)} (hf : WovenFrom ls f)
    (hp : List.Forall₂ Traced ls parts) :
    f.params = ls.flatMap params ∧ f.identifiers = ls.flatMap identifiers := by
  obtain ⟨ss, ht, hw⟩ := hf parts hp
  rw [ht.params, ht.identifiers, hw.filterMap_eq _ (fun _ => rfl), hw.filterMap_eq _ (fun _ => rfl)]
  clear ht hw hf
  induction hp with
  | nil => exact ⟨rfl, rfl⟩
  | cons hleaf _ ih =>
    simp only [List.flatMap_cons, hleaf.params, hleaf.identifiers, ih.1, ih.2, and_self]

end Fragment.WovenFrom

/-- A written tree is woven from the fragments of its rules, taken from left to right. -/
theorem Tree.wovenFrom_of_renderIn {rs : Renderers} {nested : Bool} {t : Tree} {f : Fragment}
    (h : t.renderIn rs nested = .ok f) :
    ∃ leaves, List.Forall₂ (fun r g => rs.render r = .ok g) t.rules leaves ∧ f.WovenFrom leaves := by
  refine Tree.renderIn_induction (motive := fun _ t f => ∃ leaves,
    List.Forall₂ (fun r g => rs.render r = .ok g) t.rules leaves ∧ f.WovenFrom leaves) ?_ ?_ ?_ h
  · intro _ r f hr
    exact ⟨[f], .cons hr .nil, .leaf f⟩
  · rintro _ combinator negated child f ⟨leaves, hl, hf⟩
    refine ⟨leaves, ?_, hf.negateIf negated⟩
    simpa [rules, rulesOfAll] using hl
  · intro nested combinator negated children fs hlen hall
    clear hlen
    have hparts : ∃ lss, List.Forall₂ (fun r g => rs.render r = .ok g) (rulesOfAll children)
        lss.flatten ∧ List.Forall₂ Fragment.WovenFrom lss fs := by
      induction hall with
      | nil => exact ⟨[], .nil, .nil⟩
      | cons ht _ ih =>
        obtain ⟨leaves, hl, hf⟩ := ht
        obtain ⟨lss, hls, hfs⟩ := ih
        exact ⟨leaves :: lss, List.rel_append hl hls, .cons hf hfs⟩
    obtain ⟨lss, hl, hfs⟩ := hparts
    exact ⟨lss.flatten, hl, ((Fragment.WovenFrom.join combinator hfs).parenthesizeIf _).negateIf _⟩

/-- Every renderer writes fragments that have a trace, whatever rule it is given to write. -/
def Renderers.Traced (rs : Renderers) : Prop :=
  ∀ renderer ∈ rs.entries, ∀ r f, renderer.handles r.operator = true →
    renderer.render r = .ok f → ∃ ss, f.Traced ss

theorem Renderers.Traced.of_render {rs : Renderers} (h : rs.Traced) {r : Rule} {f : Fragment}
    (hr : rs.render r = .ok f) : ∃ ss, f.Traced ss := by
  simp only [render] at hr
  split at hr
  · rename_i renderer hfind
    have hhandles := List.find?_some hfind
    exact h renderer (List.mem_of_find?_eq_some hfind) r f hhandles hr
  · cases hr

theorem Renderers.Traced.of_renderAll {rs : Renderers} (h : rs.Traced) {rules : List Rule}
    {leaves : List Fragment} (hl : List.Forall₂ (fun r g => rs.render r = .ok g) rules leaves) :
    ∃ parts, List.Forall₂ Fragment.Traced leaves parts := by
  induction hl with
  | nil => exact ⟨[], .nil⟩
  | cons hr _ ih =>
    obtain ⟨ss, hs⟩ := h.of_render hr
    obtain ⟨parts, hp⟩ := ih
    exact ⟨ss :: parts, .cons hs hp⟩

theorem Renderers.standard_traced : standard.Traced := by
  intro renderer hmem r f _ hr
  obtain ⟨op, _, rfl⟩ := List.mem_map.mp hmem
  exact ⟨_, Rule.traced_of_render hr⟩

theorem Tree.identifiers_of_renderIn {nested : Bool} {t : Tree} {f : Fragment}
    (h : t.renderIn .standard nested = .ok f) : f.identifiers = t.rules.map Rule.field := by
  obtain ⟨leaves, hl, hwoven⟩ := wovenFrom_of_renderIn h
  obtain ⟨parts, hp⟩ := Renderers.standard_traced.of_renderAll hl
  rw [(hwoven.flatMap_eq hp).2]
  generalize t.rules = rules at hl
  clear hwoven hp h
  induction hl with
  | nil => rfl
  | cons hr _ ih =>
    rw [Renderers.render_standard] at hr
    rw [List.flatMap_cons, List.map_cons, Rule.identifiers_of_render hr, ih]
    rfl

/-- What calls write is traced by the segments they name. From leaves that have traces, a tree is
written with a trace that keeps each of theirs whole and in order and adds glue alone; so its values
and identifiers are those of the leaves. The standard renderers name one field for each rule. -/
theorem Fragment.provenance :
    (∀ calls : List Call, (Fragment.written calls).Traced (calls.flatMap Call.segments)) ∧
    (∀ rs : Renderers, rs.Traced → ∀ (t : Tree) (f : Fragment), t.render rs = .ok f →
      ∃ leaves, List.Forall₂ (fun r g => rs.render r = .ok g) t.rules leaves ∧
        (∃ parts, List.Forall₂ Fragment.Traced leaves parts) ∧
        (∀ parts, List.Forall₂ Fragment.Traced leaves parts →
          ∃ ss, f.Traced ss ∧ Woven parts ss) ∧
        f.params = leaves.flatMap Fragment.params ∧
        f.identifiers = leaves.flatMap Fragment.identifiers) ∧
    Renderers.standard.Traced ∧
    ∀ (t : Tree) (f : Fragment), t.render .standard = .ok f →
      f.identifiers = t.rules.map Rule.field ∧ f.identifiers.length = t.ruleCount := by
  refine ⟨?_, ?_, Renderers.standard_traced, ?_⟩
  · intro calls
    exact Traced.empty.calls calls
  · intro rs hrs t f h
    obtain ⟨leaves, hl, hwoven⟩ := Tree.wovenFrom_of_renderIn h
    obtain ⟨parts, hp⟩ := hrs.of_renderAll hl
    exact ⟨leaves, hl, ⟨parts, hp⟩, hwoven, hwoven.flatMap_eq hp⟩
  · intro t f h
    have hids := Tree.identifiers_of_renderIn h
    exact ⟨hids, by rw [hids, List.length_map, Tree.ruleCount]⟩

/-- A renderer that compares texts without regard to letter case. -/
def Renderer.caseless : Renderer where
  handles := (· == .equal)
  render r :=
    match r.operand with
    | .single v => .ok (Fragment.written
        [.keyword "LOWER(", .field r.field, .keyword ") = LOWER(", .bind v, .keyword ")"])
    | operand => .error (.unsupportedShape r.field r.operator .one operand.shape)

/-- The caseless comparison before the standard renderers. -/
def Renderers.caselessFirst : Renderers :=
  (empty.add .caseless).addStandard

theorem Renderers.caselessFirst_traced : caselessFirst.Traced := by
  intro renderer hmem r f hh hr
  rcases List.mem_cons.mp hmem with rfl | hmem
  · simp only [Renderer.caseless] at hr
    split at hr
    · cases hr
      exact ⟨_, Fragment.Traced.empty.calls _⟩
    · cases hr
  · exact standard_traced renderer hmem r f hh hr

/-- Provenance of a negated group beside a rule that is not written in the standard way. -/
theorem Fragment.provenance_caselessFirst :
    let t : Tree := .group .or false [.rule ⟨"a", .equal, .single (.int 1)⟩,
      .group .and true [.rule ⟨"b", .isNull, .none⟩, .rule ⟨"c", .inList, .list [.int 2, .int 3]⟩]]
    let f : Fragment := ⟨"LOWER(a) = LOWER(?) OR NOT (b IS NULL AND c IN (?, ?))",
      [.int 1, .int 2, .int 3], ["a", "b", "c"]⟩
    Renderers.caselessFirst.Traced ∧ t.render .caselessFirst = .ok f ∧
      ∃ leaves, List.Forall₂ (fun r g => Renderers.caselessFirst.render r = .ok g) t.rules leaves ∧
        (∃ parts, List.Forall₂ Fragment.Traced leaves parts) ∧
        (∀ parts, List.Forall₂ Fragment.Traced leaves parts →
          ∃ ss, f.Traced ss ∧ Woven parts ss) ∧
        f.params = leaves.flatMap Fragment.params ∧
        f.identifiers = leaves.flatMap Fragment.identifiers :=
  ⟨Renderers.caselessFirst_traced, rfl,
    Fragment.provenance.2.1 _ Renderers.caselessFirst_traced _ _ rfl⟩

end WhereClause
