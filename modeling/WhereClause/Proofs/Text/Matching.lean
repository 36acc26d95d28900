import Mathlib.Data.Set.Card
import WhereClause.Proofs.Text.Nesting

/-! Which parentheses of a text belong together. In a balanced text each of them has one partner. A pair
is to spare if it encloses nothing but another pair. -/
namespace WhereClause.Text
variable {a b x y rest : List Char} {i j k : Nat}

/-- No beginning of the text closes more than it has opened, and its end closes everything. -/
structure Balanced (a : List Char) : Prop where
  closed : surplus a = 0
  within : ∀ p, p <+: a → 0 ≤ surplus p

/-- Two parentheses belong together: the text between them is balanced. -/
def Matched (a : List Char) (i j : Nat) : Prop :=
  ∃ before inside after, a = before ++ '(' :: inside ++ ')' :: after ∧ i = before.length ∧
    j = i + inside.length + 1 ∧ Balanced inside

/-- One pair of parentheses encloses the whole text. -/
def IsEnclosed (a : List Char) : Prop :=
  ∃ inside, a = '(' :: inside ++ [')'] ∧ Balanced inside

/-- The parentheses match, and no pair encloses another one with nothing beside it. -/
structure Sparing (a : List Char) : Prop where
  balanced : Balanced a
  single : ∀ inside, Balanced inside → ¬ '(' :: ('(' :: inside ++ [')']) ++ [')'] <:+: a

theorem balanced_iff_exists_nested : Balanced a ↔ ∃ n, Nested n a := by
  constructor
  · intro h
    refine ⟨a.length, h.closed, fun p hp => ⟨h.within p hp, Or.inl ?_⟩⟩
    have hcount : p.count '(' ≤ p.length := List.count_le_length
    have hlength := hp.length_le
    rw [surplus]
    omega
  · rintro ⟨n, h⟩
    exact ⟨h.closed, fun p hp => (h.within p hp).1⟩

theorem Nested.balanced {n : Nat} (h : Nested n a) : Balanced a :=
  balanced_iff_exists_nested.mpr ⟨n, h⟩

theorem IsFlat.balanced (h : IsFlat a) : Balanced a :=
  h.nested.balanced

theorem IsFlat.not_infix (h : IsFlat a) (y : List Char) : ¬ '(' :: y <:+: a := by
  intro hcut
  exact h.1 (hcut.subset List.mem_cons_self)

theorem IsFlat.sparing (h : IsFlat a) : Sparing a where
  balanced := h.balanced
  single _ _ := h.not_infix _

namespace Balanced

theorem append (ha : Balanced a) (hb : Balanced b) : Balanced (a ++ b) := by
  obtain ⟨m, ha⟩ := balanced_iff_exists_nested.mp ha
  obtain ⟨n, hb⟩ := balanced_iff_exists_nested.mp hb
  exact ((ha.mono (Nat.le_max_left m n)).append (hb.mono (Nat.le_max_right m n))).balanced

theorem enclose (h : Balanced a) : Balanced ('(' :: a ++ [')']) := by
  obtain ⟨n, h⟩ := balanced_iff_exists_nested.mp h
  exact h.enclose.balanced

/-- A pair of parentheses is open from its first symbol to its last. -/
theorem eq_of_prefix_enclosed {p : List Char} (h : Balanced a) (hp : p <+: '(' :: a ++ [')'])
    (hzero : surplus p = 0) : p = [] ∨ p = '(' :: a ++ [')'] := by
  rcases prefix_enclosed hp with rfl | ⟨q, hq, rfl⟩ | rfl
  · exact Or.inl rfl
  · have hpos := h.within q hq
    rw [surplus_cons_opening] at hzero
    omega
  · exact Or.inr rfl

/-- A pair that begins in a balanced text ends there, and lies within one of two such texts. -/
theorem infix_append (hx : Balanced x) (ha : Balanced a) (h : '(' :: x ++ [')'] <:+: a ++ b) :
    '(' :: x ++ [')'] <:+: a ∨ '(' :: x ++ [')'] <:+: b := by
  obtain ⟨before, after, hsplit⟩ := h
  rw [List.append_assoc, List.append_eq_append_iff] at hsplit
  rcases hsplit with ⟨across, rfl, hacross⟩ | ⟨across, rfl, rfl⟩
  · rcases prefix_append_cases ⟨b, hacross.symm⟩ with hopen | ⟨q, _, rfl⟩
    · have hbefore := ha.within before (List.prefix_append before across)
      have hpos := hx.enclose.within across hopen
      have hclosed := ha.closed
      rw [surplus_append] at hclosed
      rcases hx.eq_of_prefix_enclosed hopen (by omega) with rfl | rfl
      · exact Or.inr ⟨[], after, hacross⟩
      · exact Or.inl ⟨before, [], List.append_nil _⟩
    · exact Or.inl ⟨before, q, List.append_assoc before _ q⟩
  · exact Or.inr ⟨across, after, List.append_assoc across _ after⟩

/-- A pair within a pair is the same pair or lies in what that one encloses. -/
theorem infix_enclosed (hx : Balanced x) (ha : Balanced a)
    (h : '(' :: x ++ [')'] <:+: '(' :: a ++ [')']) : x = a ∨ '(' :: x ++ [')'] <:+: a := by
  rcases List.infix_cons_iff.mp h with hprefix | hcut
  · rcases ha.eq_of_prefix_enclosed hprefix hx.enclose.closed with hnil | he
    · cases hnil
    · exact Or.inl (List.append_cancel_right (List.cons.inj he).2)
  · refine Or.inr ((hx.infix_append ha hcut).resolve_right fun hlast => ?_)
    have hmem := hlast.subset List.mem_cons_self
    simp at hmem

/-- A text that comes to a blank with all parentheses closed is not enclosed in a pair of them. -/
theorem not_isEnclosed_append (h : Balanced a) (rest : List Char) : ¬ IsEnclosed (a ++ ' ' :: rest) := by
  rintro ⟨inside, he, hinside⟩
  have hprefix : a <+: '(' :: inside ++ [')'] := ⟨_, he⟩
  rcases hinside.eq_of_prefix_enclosed hprefix h.closed with rfl | rfl
  · cases he
  · simp at he

end Balanced

namespace Sparing

theorem append (ha : Sparing a) (hb : Sparing b) : Sparing (a ++ b) where
  balanced := ha.balanced.append hb.balanced
  single inside hinside h :=
    (hinside.enclose.infix_append ha.balanced h).elim (ha.single inside hinside)
      (hb.single inside hinside)

/-- A pair of parentheses is to spare only around a text that has one already. -/
theorem enclose (h : Sparing a) (hopen : ¬ IsEnclosed a) : Sparing ('(' :: a ++ [')']) where
  balanced := h.balanced.enclose
  single inside hinside hdouble := by
    rcases hinside.enclose.infix_enclosed h.balanced hdouble with rfl | hdouble
    · exact hopen ⟨inside, rfl, hinside⟩
    · exact h.single inside hinside hdouble

/-- No two pairs stand directly in one another. -/
theorem not_matched (h : Sparing a) (hij : Matched a i j) : ¬ Matched a (i + 1) (j - 1) := by
  rintro ⟨before', inside', after', he', hi', hj', hinside'⟩
  obtain ⟨before, inside, after, rfl, hi, hj, -⟩ := hij
  have hsplit : (before ++ ['(']) ++ (inside ++ ')' :: after) =
      before' ++ ('(' :: inside' ++ ')' :: after') := by
    simpa using he'
  obtain ⟨-, hrest⟩ := List.append_inj hsplit (by simp; omega)
  have hrest' : inside ++ ')' :: after = ('(' :: inside' ++ [')']) ++ after' := by
    simpa using hrest
  obtain ⟨rfl, -⟩ := List.append_inj hrest' (by simp; omega)
  exact h.single inside' hinside' ⟨before, after, by simp⟩

end Sparing

theorem isEnclosed_of_matched (h : Matched a 0 (a.length - 1)) : IsEnclosed a := by
  obtain ⟨before, inside, after, rfl, hi, hj, hinside⟩ := h
  obtain rfl := List.eq_nil_of_length_eq_zero hi.symm
  have hafter : after.length = 0 := by
    simp only [List.nil_append, List.cons_append, List.length_cons, List.length_append] at hj
    omega
  obtain rfl := List.eq_nil_of_length_eq_zero hafter
  exact ⟨inside, rfl, hinside⟩

/-- A text that closes more than it opens, even after some more are open, has a first parenthesis at which
nothing is left to close. -/
theorem exists_closing {n : Int} (hn : 0 ≤ n) (h : surplus a + n < 0) :
    ∃ inside after, a = inside ++ ')' :: after ∧ surplus inside + n = 0 ∧
      ∀ p, p <+: inside → 0 ≤ surplus p + n := by
  induction a generalizing n with
  | nil =>
    rw [surplus_nil] at h
    omega
  | cons c rest ih =>
    have hcons (q : List Char) : surplus (c :: q) = surplus [c] + surplus q := surplus_append [c] q
    rw [hcons] at h
    by_cases hopen : 0 ≤ surplus [c] + n
    · obtain ⟨inside, after, rfl, hclosed, hwithin⟩ := ih hopen (by omega)
      refine ⟨c :: inside, after, rfl, by rw [hcons]; omega, fun p hp => ?_⟩
      rcases List.prefix_cons_iff.mp hp with rfl | ⟨q, rfl, hq⟩
      · rwa [surplus_nil, Int.zero_add]
      · have hpos := hwithin q hq
        rw [hcons]
        omega
    · have hc : c = ')' := by
        by_contra hc
        have hnone : [c].count ')' = 0 := List.count_eq_zero.mpr (by simpa using Ne.symm hc)
        rw [surplus, hnone] at hopen
        omega
      subst hc
      have hlast : surplus [')'] = -1 := rfl
      refine ⟨[], rest, rfl, by rw [surplus_nil]; omega, fun p hp => ?_⟩
      rw [List.prefix_nil.mp hp, surplus_nil]
      omega

/-- Every opening parenthesis of a balanced text has a partner. -/
theorem Balanced.exists_matched (h : Balanced a) (hi : a[i]? = some '(') : ∃ j, Matched a i j := by
  obtain ⟨hlt, hopening⟩ := List.getElem?_eq_some_iff.mp hi
  have hsplit : a = a.take i ++ '(' :: a.drop (i + 1) := by
    rw [← hopening, ← List.drop_eq_getElem_cons, List.take_append_drop]
  have hbefore := h.within _ (List.take_prefix i a)
  have hclosed := h.closed
  rw [hsplit, surplus_append, surplus_cons_opening] at hclosed
  obtain ⟨inside, after, hrest, hzero, hwithin⟩ :=
    exists_closing (Int.le_refl 0) (a := a.drop (i + 1)) (by omega)
  have hlength : i = (a.take i).length := by
    rw [List.length_take, Nat.min_eq_left (Nat.le_of_lt hlt)]
  refine ⟨_, a.take i, inside, after, ?_, hlength, rfl, ?_, ?_⟩
  · rw [List.append_assoc, List.cons_append, ← hrest]
    exact hsplit
  · omega
  · intro p hp
    have hpos := hwithin p hp
    omega

theorem Balanced.eq_of_append_closing {after after' : List Char} (hx : Balanced x) (hy : Balanced y)
    (h : x ++ ')' :: after = y ++ ')' :: after') (hle : x.length ≤ y.length) : x = y := by
  obtain ⟨more, rfl⟩ := List.prefix_of_prefix_length_le (List.prefix_append x _)
    (h ▸ List.prefix_append y _) hle
  cases more with
  | nil => rw [List.append_nil]
  | cons c more =>
    rw [List.append_assoc, List.append_cancel_left_eq] at h
    cases h
    have hlast : surplus [')'] = -1 := rfl
    have hpos := hy.within (x ++ [')']) ⟨more, by simp⟩
    rw [surplus_append, hx.closed] at hpos
    omega

/-- No opening parenthesis has two partners. -/
theorem Matched.unique (hj : Matched a i j) (hk : Matched a i k) : j = k := by
  obtain ⟨before, x, after, rfl, hi, rfl, hx⟩ := hj
  obtain ⟨before', y, after', he, hi', rfl, hy⟩ := hk
  rw [List.append_assoc, List.append_assoc] at he
  obtain ⟨-, hrest⟩ := List.append_inj he (hi.symm.trans hi')
  have hinside : x ++ ')' :: after = y ++ ')' :: after' := (List.cons.inj hrest).2
  rcases Nat.le_total x.length y.length with hle | hle
  · rw [hx.eq_of_append_closing hy hinside hle]
  · rw [hy.eq_of_append_closing hx hinside.symm hle]

theorem Matched.opening (h : Matched a i j) : a[i]? = some '(' := by
  obtain ⟨before, inside, after, rfl, rfl, -, -⟩ := h
  simp

/-- There are as many pairs as opening parentheses. -/
theorem Balanced.ncard_matched (h : Balanced a) :
    {pair : Nat × Nat | Matched a pair.1 pair.2}.ncard = a.count '(' := by
  have hinj : Set.InjOn Prod.fst {pair : Nat × Nat | Matched a pair.1 pair.2} := by
    rintro ⟨i, j⟩ hj ⟨i', k⟩ hk (rfl : i = i')
    exact Prod.ext rfl (hj.unique hk)
  have himage : Prod.fst '' {pair : Nat × Nat | Matched a pair.1 pair.2} =
      ((a.idxsOf '(').toFinset : Set Nat) := by
    ext i
    have hopening : i ∈ a.idxsOf '(' ↔ a[i]? = some '(' := by
      rw [List.mem_idxsOf_iff_exists_getElem_pos, List.getElem?_eq_some_iff]
      simp
    rw [List.coe_toFinset, Set.mem_ofPred_eq, hopening, Set.mem_image]
    constructor
    · rintro ⟨pair, hpair, rfl⟩
      exact hpair.opening
    · intro hi
      obtain ⟨j, hj⟩ := h.exists_matched hi
      exact ⟨(i, j), hj, rfl⟩
  rw [← hinj.ncard_image, himage, Set.ncard_coe_finset,
    List.toFinset_card_of_nodup List.nodup_idxsOf, List.length_idxsOf]

end WhereClause.Text
