import GrammarTables.Proofs.Productions
import GrammarTables.Proofs.Tree

/-!
# Leftmost and rightmost derivations

A leftmost derivation replaces the first nonterminal of a string, a rightmost derivation the last
one. Any derivation of a string of terminals can be done in either order, whatever else
stands in the string.
-/

namespace GrammarTables

namespace Grammar

/-- The first nonterminal of a string is replaced. -/
inductive LeftStep (g : Grammar) : List Symbol → List Symbol → Prop where
  | rewrite (w v : List Symbol) (r : Rule) (h : r ∈ g.rules) (hw : g.TerminalString w) :
    LeftStep g (w ++ r.head :: v) (w ++ r.body ++ v)

def LeftDerives (g : Grammar) : List Symbol → List Symbol → Prop :=
  Relation.ReflTransGen g.LeftStep

variable {g : Grammar} {u v w : List Symbol}

theorem LeftStep.step (h : g.LeftStep u v) : g.Step u v := by
  obtain ⟨w, z, r, hr, -⟩ := h
  exact .rewrite w z r hr

theorem LeftDerives.derives (h : g.LeftDerives u v) : g.Derives u v :=
  h.lift id fun _ _ => LeftStep.step

private theorem leftDerives_forest_of_each {ts : List (Tree Unit)} (hts : ∀ t ∈ ts, t.ValidFor g)
    (h : ∀ t ∈ ts, ∀ w v, g.TerminalString w →
      g.LeftDerives (w ++ [t.root] ++ v) (w ++ t.yield ++ v))
    (hw : g.TerminalString w) (v : List Symbol) :
    g.LeftDerives (w ++ ts.map Tree.root ++ v) (w ++ Tree.yields ts ++ v) := by
  induction ts generalizing w with
  | nil => exact .refl
  | cons t ts ih =>
    rw [List.forall_mem_cons] at hts h
    have hfirst := h.1 w (ts.map Tree.root ++ v) hw
    have hrest := ih hts.2 h.2 (terminalString_append.mpr ⟨hw, hts.1.terminalString⟩)
    simp only [List.append_assoc, List.map_cons, Tree.yields, List.cons_append,
      List.nil_append] at hrest hfirst ⊢
    exact hfirst.trans hrest

private theorem leftDerives_yield {t : Tree Unit} (ht : t.ValidFor g) : ∀ w v, g.TerminalString w →
    g.LeftDerives (w ++ [t.root] ++ v) (w ++ t.yield ++ v) := by
  induction ht with
  | leaf x hx =>
    intro w v _
    exact .refl
  | node _ r ts hr hb hts ih =>
    intro w v hw
    have hforest := leftDerives_forest_of_each hts ih hw v
    rw [hb] at hforest
    rw [List.append_assoc w]
    exact .head (.rewrite w v r hr hw) hforest

/-- A string of terminals is derived from the left, behind terminals that stand already. -/
theorem leftDerives_of_derives (h : g.Derives u v) (hv : g.TerminalString v)
    (hw : g.TerminalString w) (z : List Symbol) : g.LeftDerives (w ++ u ++ z) (w ++ v ++ z) := by
  obtain ⟨ts, hts, hr, hy⟩ := Tree.exists_forest (α := Unit) h hv
  have hforest := leftDerives_forest_of_each hts (fun t ht => leftDerives_yield (hts t ht)) hw z
  rwa [hr, hy] at hforest

end Grammar

/-! ### Rightmost derivations

In the augmented grammar a new start symbol, written `none`, derives the start symbol. -/

namespace Grammar

/-- The last nonterminal of a string is replaced. -/
inductive RightStep (g : Grammar) : List Symbol → List Symbol → Prop where
  | rewrite (u w : List Symbol) (r : Rule) (h : r ∈ g.rules) (hw : g.TerminalString w) :
    RightStep g (u ++ r.head :: w) (u ++ r.body ++ w)

def RightDerives (g : Grammar) : List Symbol → List Symbol → Prop :=
  Relation.ReflTransGen g.RightStep

/-- A production of the augmented grammar is applied to the last nonterminal. -/
inductive AugmentedStep (g : Grammar) : List (Option Symbol) → List (Option Symbol) → Prop where
  | rewrite (u : List (Option Symbol)) (w : List Symbol) (p : ProductionId) (hp : p ∈ g)
    (hw : g.TerminalString w) :
    AugmentedStep g (u ++ g.head? p :: w.map some) (u ++ (g.body p).map some ++ w.map some)

/-- The string has a rightmost derivation in the augmented grammar. -/
def AugmentedForm (g : Grammar) (s : List (Option Symbol)) : Prop :=
  Relation.ReflTransGen g.AugmentedStep [none] s

variable {g : Grammar} {u v w : List Symbol}

/-! ### The augmented grammar -/

theorem map_some_inj : u.map some = v.map some ↔ u = v :=
  List.map_inj_right fun _ _ => Option.some.inj

theorem augmentedStep_of_rightStep (h : g.RightStep u v) :
    g.AugmentedStep (u.map some) (v.map some) := by
  obtain ⟨p, w, r, hr, hw⟩ := h
  obtain ⟨q, hq, hb⟩ := exists_alternative hr
  have hx := head?_of_mem_alternatives hq
  have hs := AugmentedStep.rewrite (p.map some) w q (mem_of_head? hx) hw
  rw [hx, hb] at hs
  simpa using hs

theorem AugmentedForm.trans (hu : g.AugmentedForm (u.map some)) (h : g.RightDerives u v) :
    g.AugmentedForm (v.map some) :=
  Relation.ReflTransGen.trans hu
    (h.lift (List.map some) fun _ _ => augmentedStep_of_rightStep)

private theorem exists_rightStep {s : List (Option Symbol)}
    (h : g.AugmentedStep (u.map some) s) : ∃ v, s = v.map some ∧ g.RightStep u v := by
  generalize hu : u.map some = s' at h
  obtain ⟨front, w, p, hp, hw⟩ := h
  obtain ⟨front, rest, rfl, rfl, hrest⟩ := List.map_eq_append_iff.mp hu
  obtain ⟨x, w', rfl, hx, hw'⟩ := List.map_eq_cons_iff.mp hrest
  obtain ⟨r, hr, rfl, hb⟩ := exists_rule_of_head? hx.symm
  obtain rfl := map_some_inj.mp hw'
  exact ⟨front ++ r.body ++ w', by simp [hb], .rewrite front w' r hr hw⟩

private theorem eq_start_of_augmentedStep {s : List (Option Symbol)}
    (h : g.AugmentedStep [none] s) : s = [some g.start] := by
  generalize hs : [none] = s' at h
  obtain ⟨front, w, p, hp, hw⟩ := h
  obtain ⟨rfl, hrest⟩ | ⟨_, _, hrest⟩ := List.append_eq_cons_iff.mp hs.symm
  · obtain ⟨hx, hw'⟩ := List.cons_eq_cons.mp hrest
    rw [List.map_eq_nil_iff] at hw'
    rw [hw', eq_accept_of_head? hp hx, body_accept]
    rfl
  · simp at hrest

theorem augmentedForm_iff {s : List (Option Symbol)} : g.AugmentedForm s ↔
    s = [none] ∨ ∃ v, s = v.map some ∧ g.RightDerives [g.start] v := by
  constructor
  · intro h
    induction h with
    | refl => exact Or.inl rfl
    | tail _ hs ih =>
      rcases ih with rfl | hv
      · exact Or.inr ⟨[g.start], eq_start_of_augmentedStep hs, .refl⟩
      · obtain ⟨v, rfl, hv⟩ := hv
        obtain ⟨v', rfl, hstep⟩ := exists_rightStep hs
        exact Or.inr ⟨v', rfl, hv.tail hstep⟩
  · intro h
    rcases h with rfl | hv
    · exact .refl
    · obtain ⟨v, rfl, hv⟩ := hv
      have hs := AugmentedStep.rewrite (g := g) [] [] .accept accept_mem (by simp)
      rw [head?_accept, body_accept] at hs
      exact AugmentedForm.trans (u := [g.start]) (.single hs) hv

/-! ### Deriving strings of terminals from the right -/

private theorem rightDerives_forest_of_each {ts : List (Tree Unit)} (hts : ∀ t ∈ ts, t.ValidFor g)
    (h : ∀ t ∈ ts, ∀ u w, g.TerminalString w →
      g.RightDerives (u ++ [t.root] ++ w) (u ++ t.yield ++ w)) (u : List Symbol)
    (hw : g.TerminalString w) :
    g.RightDerives (u ++ ts.map Tree.root ++ w) (u ++ Tree.yields ts ++ w) := by
  induction ts generalizing u with
  | nil => exact .refl
  | cons t ts ih =>
    rw [List.forall_mem_cons] at hts h
    have hrest := ih hts.2 h.2 (u ++ [t.root])
    have hterm : g.TerminalString (Tree.yields ts ++ w) :=
      terminalString_append.mpr ⟨Tree.terminalString_of_valid hts.2, hw⟩
    have hfirst := h.1 u (Tree.yields ts ++ w) hterm
    simp only [List.append_assoc, List.map_cons, Tree.yields, List.cons_append,
      List.nil_append] at hrest hfirst ⊢
    exact hrest.trans hfirst

private theorem rightDerives_yield {t : Tree Unit} (ht : t.ValidFor g) : ∀ u w, g.TerminalString w →
    g.RightDerives (u ++ [t.root] ++ w) (u ++ t.yield ++ w) := by
  induction ht with
  | leaf x hx =>
    intro u w _
    exact .refl
  | node _ r ts hr hb hts ih =>
    intro u w hw
    have hforest := rightDerives_forest_of_each hts ih u hw
    rw [hb] at hforest
    have hstep := RightStep.rewrite u w r hr hw
    rw [List.append_assoc]
    exact .head hstep hforest

/-- A string of terminals is derived from the right, before terminals that stand already. -/
theorem rightDerives_of_derives (h : g.Derives v w) (hw : g.TerminalString w) (u : List Symbol)
    {z : List Symbol} (hz : g.TerminalString z) : g.RightDerives (u ++ v ++ z) (u ++ w ++ z) := by
  obtain ⟨ts, hts, hr, hy⟩ := Tree.exists_forest (α := Unit) h hw
  have hforest := rightDerives_forest_of_each hts (fun t ht => rightDerives_yield (hts t ht)) u hz
  rwa [hr, hy] at hforest

end Grammar

end GrammarTables
