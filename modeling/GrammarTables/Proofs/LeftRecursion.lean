import Mathlib.Order.WellFounded
import GrammarTables.Proofs.CyclicDerivations

/-!
# Left recursion

A nonterminal is left-recursive if it derives a string that begins with itself, and so if left
corners lead back to it. In a grammar that can be parsed by prediction and has no unproductive
nonterminals, they never do (`not_derivesInSteps_cons_of_ll1`). If the symbols of such a loop begin
with a token, the token tells the rule and the place of the next left corner, and each of them is
nearer to it than the one before. If they begin with no token, they vanish together with all that
stands beside them, and the grammar is cyclic.
-/

namespace GrammarTables.Grammar

variable {g : Grammar} {x y z a b : Symbol} {r : Rule} {u v u' v' : List Symbol}

theorem exists_derivesInSteps_cons_iff :
    (∃ s, g.DerivesInSteps [x] (z :: s)) ↔ Relation.TransGen g.LeftCorner x z := by
  refine Iff.trans ?_ (derivesInSteps_standsBetween_iff g.handedUp_nullable g.handedUp_true)
  constructor
  · rintro ⟨s, h⟩
    exact ⟨z :: s, h, [], s, rfl, by simp, by simp⟩
  · rintro ⟨t, h, u, v, rfl, hu, -⟩
    exact ⟨v, h.trans_left ((derives_nil_iff.mpr hu).append (.refl (z :: v)))⟩

/-! ### Loops that begin with a token -/

/-- The second symbol is a left corner of the first and begins with the token. -/
def LeftCornerOn (g : Grammar) (y x z : Symbol) : Prop := g.LeftCorner x z ∧ y ∈ g.first z

theorem mem_first_of_leftCorners (h : Relation.TransGen g.LeftCorner x z) (hy : y ∈ g.first z) :
    y ∈ g.first x := by
  obtain ⟨hcorners, hn⟩ := mem_first_iff_leftCorners.mp hy
  exact mem_first_iff_leftCorners.mpr ⟨h.trans hcorners, hn⟩

theorem transGen_leftCornerOn (h : Relation.TransGen g.LeftCorner x z) (hy : y ∈ g.first z) :
    Relation.TransGen (g.LeftCornerOn y) x z := by
  induction h using Relation.TransGen.head_induction_on with
  | single h => exact .single ⟨h, hy⟩
  | head h hrest ih => exact .head ⟨h, mem_first_of_leftCorners hrest hy⟩ ih

namespace Predictive

private theorem not_begins_behind (h : g.Predictive) (hr : r ∈ g.rules) (hb : r.body = u ++ a :: v)
    (hn : a ∈ g.nullable) (ha : g.Begins [a] y) : ¬g.Begins v y := by
  intro hv
  have hnt := mem_nonterminals_of_nullable hn
  exact h.not_mem_follow a hn y ((mem_first_iff_begins hnt).mpr ha)
    (mem_follow_of_begins hr hb hnt hv)

private theorem eq_of_begins (h : g.Predictive) (hr : r ∈ g.rules) (hb : r.body = u ++ a :: v)
    (hb' : r.body = u' ++ b :: v') (hu : ∀ c ∈ u, c ∈ g.nullable) (hu' : ∀ c ∈ u', c ∈ g.nullable)
    (ha : g.Begins [a] y) (hy : g.Begins [b] y) : a = b := by
  rcases append_eq_append_cons_iff.mp (hb.symm.trans hb') with ⟨m, rfl, rfl⟩ | ⟨m, rfl, hm⟩
  · -- The second symbol stands in front of the first, and vanishes.
    obtain ⟨-, hvanish⟩ := List.forall_mem_append.mp hu
    obtain ⟨hbn, hm⟩ := List.forall_mem_cons.mp hvanish
    exact absurd (ha.of_leading hm) (h.not_begins_behind hr hb' hbn hy)
  · cases m with
    | nil => exact (List.cons_eq_cons.mp hm).1
    | cons c m =>
      -- The first symbol stands in front of the second, and vanishes.
      obtain ⟨rfl, rfl⟩ := List.cons_eq_cons.mp hm
      obtain ⟨-, hvanish⟩ := List.forall_mem_append.mp hu'
      obtain ⟨han, hm⟩ := List.forall_mem_cons.mp hvanish
      exact absurd (hy.of_leading hm) (h.not_begins_behind hr hb han ha)

private theorem acc_leftCornerOn (h : g.Predictive) (y x : Symbol) :
    Acc (Function.swap (g.LeftCornerOn y)) x := by
  by_cases hy : y ∈ g.first x
  · refine first_induction (P := Acc (Function.swap (g.LeftCornerOn y))) ?_ hy
    intro r hr u z v hb hu hz
    refine ⟨_, ?_⟩
    rintro w ⟨hcorner, hw⟩
    obtain ⟨s, hs, hhead, hmem⟩ := leftCorner_iff.mp hcorner
    obtain ⟨u', v', hb', hu'⟩ := mem_leading_iff.mp hmem
    have hzy : g.Begins [z] y := by
      rcases hz with ⟨-, rfl⟩ | ⟨hz, -⟩
      · exact (begins_token_iff (Or.inl (mem_terminals_of_mem_first hw))).mpr rfl
      · exact begins_of_mem_first hz
    have hwy : g.Begins [w] y := begins_of_mem_first hw
    -- the token tells the rule and its leading symbol, which is nearer to the token
    obtain rfl : s = r := by
      by_contra hne
      exact (h.toldApart s hs r hr hne).not_begins hhead y (hb' ▸ hwy.of_leading hu')
        (hb ▸ hzy.of_leading hu)
    obtain rfl : z = w := h.eq_of_begins hr hb hb' hu hu' hzy hwy
    exact hz.elim (fun hn => absurd (mem_nonterminals_of_mem_first hw) hn.1) And.right
  · refine ⟨_, ?_⟩
    rintro z ⟨hcorner, hz⟩
    exact absurd (mem_first_of_leftCorners (.single hcorner) hz) hy

end Predictive

/-! ### Loops that begin with no token -/

private theorem nullable_of_not_begins (hu : ∀ a ∈ u, g.Productive a) (h : ∀ y, ¬g.Begins u y) :
    ∀ a ∈ u, a ∈ g.nullable := by
  obtain ⟨w, hw, hd⟩ := exists_terminalString hu
  rcases begins_or_eq_nil (w := []) hd hw with hbegin | ⟨-, hn⟩
  · exact absurd hbegin (h _)
  · exact hn

private theorem unitStep_of_leftCorner (hu : g.unproductive = []) (h : g.LeftCorner x z)
    (hz : z ∈ g.nonterminals) (hx : ∀ y, y ∉ g.first x) : g.UnitStep x z := by
  obtain ⟨r, hr, rfl, hmem⟩ := leftCorner_iff.mp h
  obtain ⟨u, v, hb, -⟩ := mem_leading_iff.mp hmem
  have hvanish : ∀ a ∈ r.body, a ∈ g.nullable := by
    apply nullable_of_not_begins
    · exact fun a ha => productive_of_mem hu (mem_terminals_or_nonterminals hr ha)
    · exact fun y hy => hx y (mem_first_iff_rule.mpr ⟨r, hr, rfl, hy⟩)
  rw [hb, List.forall_mem_append, List.forall_mem_cons] at hvanish
  obtain ⟨hbefore, -, hbehind⟩ := hvanish
  exact ⟨r, hr, rfl, hz, u, v, hb, List.forall_mem_append.mpr ⟨hbefore, hbehind⟩⟩

private theorem transGen_unitStep (hu : g.unproductive = [])
    (h : Relation.TransGen g.LeftCorner x z) (hz : z ∈ g.nonterminals)
    (hx : ∀ y, y ∉ g.first x) : Relation.TransGen g.UnitStep x z := by
  induction h using Relation.TransGen.head_induction_on with
  | single h => exact .single (unitStep_of_leftCorner hu h hz hx)
  | head h hrest ih =>
    have hnt := mem_nonterminals_of_leftCorners hrest
    refine .head (unitStep_of_leftCorner hu h hnt hx) (ih fun y hy => hx y ?_)
    exact mem_first_of_leftCorners (.single h) hy

/-! ### Prediction excludes both -/

theorem Predictive.not_transGen_leftCorner (h : g.Predictive) (hu : g.unproductive = [])
    (hg : g.checkAcyclic = .ok ()) : ¬Relation.TransGen g.LeftCorner x x := by
  intro hloop
  by_cases hx : ∃ y, y ∈ g.first x
  · obtain ⟨y, hy⟩ := hx
    exact not_transGen_of_acc (h.acc_leftCornerOn y) (transGen_leftCornerOn hloop hy)
  · have hunits : Relation.TransGen g.UnitStep x x :=
      transGen_unitStep hu hloop (mem_nonterminals_of_leftCorners hloop) (not_exists.mp hx)
    rw [← edge_unitRelation_eq] at hunits
    exact Relation.cycle_eq_nil_iff.mp (checkAcyclic_eq_ok_iff.mp hg) ⟨x, hunits⟩

/-- In a grammar without unproductive nonterminals that belongs to LL(1), no nonterminal derives in
one or more steps a string that begins with itself. -/
theorem not_derivesInSteps_cons_of_ll1 (hu : g.unproductive = []) (h : g.classify .ll1 = .ok ()) :
    ¬∃ x ∈ g.nonterminals, ∃ s, g.DerivesInSteps [x] (x :: s) := by
  obtain ⟨hg, hcheck⟩ := classify_ll1_iff.mp h
  rintro ⟨x, -, hx⟩
  exact (predictive_of_check hcheck).not_transGen_leftCorner hu hg
    (exists_derivesInSteps_cons_iff.mp hx)

theorem not_derivesInSteps_cons_of_ll1_lists :
    lists.unproductive = [] ∧ lists.classify .ll1 = .ok () ∧
      ¬∃ x ∈ lists.nonterminals, ∃ s, lists.DerivesInSteps [x] (x :: s) := by
  have hu : lists.unproductive = [] := by decide +kernel
  have h : lists.classify .ll1 = .ok () := by decide +kernel
  exact ⟨hu, h, not_derivesInSteps_cons_of_ll1 hu h⟩

def endlessRules : Array Rule := #[⟨.named "S", [.named "S", .named "a"], 0⟩]

/-- A grammar in which a FIRST set is empty, so that the check finds no fault with left
recursion. -/
def endless : Grammar :=
  ofRules endlessRules {
    nonempty := by decide
    size_le := by decide
    isNamed_head := by simp [endlessRules, Symbol.isNamed]
    isNamed_body := by simp [endlessRules, Symbol.isNamed]
    length_body_le := by simp [endlessRules] }

/-- Unproductive nonterminals may be left-recursive. -/
example : endless.unproductive = [.named "S"] ∧ endless.classify .ll1 = .ok () ∧
    endless.DerivesInSteps [.named "S"] [.named "S", .named "a"] :=
  ⟨by decide +kernel, by decide +kernel,
    .single (.rewrite [] [] ⟨.named "S", [.named "S", .named "a"], 0⟩ (by decide +kernel))⟩

end GrammarTables.Grammar
