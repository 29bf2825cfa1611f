import GrammarTables.Proofs.OrderedImages
import GrammarTables.Proofs.Prediction
import GrammarTables.Proofs.Tree

/-!
# Trees of the empty string

A nonterminal vanishes in two ways exactly if it has two derivation trees with an empty yield. Two
such trees may first differ anywhere inside. Yet if each nonterminal vanishes by one production,
this production determines the whole tree, so it is enough to look for nonterminals that vanish by
two (`nullAmbiguity_eq_nil_iff_trees`). The nodes of the trees are labelled with ids of productions:
a rule that stands in a grammar twice makes two trees.
-/

namespace GrammarTables

instance : NodeLabel ProductionId where
  StandsFor g p r := g.production? p = some (.rule r)
  rule_mem := Grammar.rule_mem
  exists_label := Grammar.exists_id_of_mem

/-- The tree derives the empty string from the symbol. -/
structure Tree.Vanishes (g : Grammar) (x : Symbol) (t : Tree ProductionId) : Prop where
  validFor : t.ValidFor g
  root_eq : t.root = x
  yield_eq : t.yield = []

namespace Grammar

variable {g : Grammar} {x : Symbol} {p q : ProductionId}

/-! ### Productions that vanish -/

/-- The production has the head, and a body that derives the empty string. -/
def VanishesBy (g : Grammar) (x : Symbol) (p : ProductionId) : Prop :=
  ∃ r, g.production? p = some (.rule r) ∧ r.head = x ∧ ∀ z ∈ r.body, z ∈ g.nullable

/-- No production is reported exactly if no nonterminal vanishes by two. -/
theorem nullAmbiguity_eq_nil_iff_vanishesBy : g.nullAmbiguity g.nullable = [] ↔
    ∀ x p q, g.VanishesBy x p → g.VanishesBy x q → p = q := by
  rw [nullAmbiguity_eq_nil_iff, ← map_snd_numbered, List.pairwise_map]
  constructor
  · rintro h x p q ⟨r, hp, rfl, hr⟩ ⟨s, hq, hhead, hs⟩
    by_contra hne
    have : Std.Symm fun e f : ProductionId × Rule => e.2.head = f.2.head →
        (∀ z ∈ e.2.body, z ∈ g.nullable) → ¬∀ z ∈ f.2.body, z ∈ g.nullable :=
      ⟨fun _ _ h hhead he hf => h hhead.symm hf he⟩
    exact h.forall (mem_numbered_iff.mpr hp) (mem_numbered_iff.mpr hq)
      (fun heq => hne (congrArg Prod.fst heq)) hhead.symm hr hs
  · intro h
    refine (List.pairwise_map.mp nodup_numbered).imp_of_mem ?_
    intro e f he hf hne hhead hr hs
    exact hne (h e.2.head e.1 f.1 ⟨e.2, mem_numbered_iff.mp he, rfl, hr⟩
      ⟨f.2, mem_numbered_iff.mp hf, hhead.symm, hs⟩)

theorem VanishesBy.exists_vanishes (h : g.VanishesBy x p) :
    ∃ ts, Tree.Vanishes g x (.node x p ts) := by
  obtain ⟨r, hp, rfl, hr⟩ := h
  have hnil : g.TerminalString [] := by simp
  obtain ⟨ts, hts, hroots, hy⟩ :=
    Tree.exists_forest (α := ProductionId) (derives_nil_iff.mpr hr) hnil
  exact ⟨ts, .node p r ts hp hroots hts, rfl, hy⟩

/-! ### Trees that are determined by their roots -/

private theorem nullable_of_forest {r : Rule} {ts : List (Tree ProductionId)}
    (hr : ts.map Tree.root = r.body) (hs : ∀ t ∈ ts, t.ValidFor g) (hy : Tree.yields ts = []) :
    ∀ z ∈ r.body, z ∈ g.nullable := by
  have hd := Tree.derives_yields hs
  rw [hr, hy] at hd
  exact derives_nil_iff.mp hd

private theorem eq_of_root_eq (hone : ∀ x p q, g.VanishesBy x p → g.VanishesBy x q → p = q)
    {t u : Tree ProductionId} (ht : t.ValidFor g) (hu : u.ValidFor g) (hroot : t.root = u.root)
    (hyt : t.yield = []) (hyu : u.yield = []) : t = u := by
  induction ht generalizing u with
  | leaf x hx => simp [Tree.yield] at hyt
  | node p r ts hp hr hs ih =>
    cases hu with
    | leaf y hy => simp [Tree.yield] at hyu
    | node q s us hq hr' hs' =>
      rw [Tree.yield] at hyt hyu
      have hhead : s.head = r.head := hroot.symm
      obtain rfl : p = q := hone r.head p q ⟨r, hp, rfl, nullable_of_forest hr hs hyt⟩
        ⟨s, hq, hhead, nullable_of_forest hr' hs' hyu⟩
      obtain rfl : r = s := Production.rule.inj (Option.some.inj (hp.symm.trans hq))
      rw [Tree.yields_eq_nil_iff] at hyt hyu
      rw [eq_of_map_eq (hr.trans hr'.symm) fun t ht u hu hroot =>
        ih t ht (hs' u hu) hroot (hyt t ht) (hyu u hu)]

/-- No production is reported exactly if every nonterminal has at most one derivation tree with an
empty yield. -/
theorem nullAmbiguity_eq_nil_iff_trees (g : Grammar) : g.nullAmbiguity g.nullable = [] ↔
    ∀ x ∈ g.nonterminals, ∀ t u : Tree ProductionId,
      t.Vanishes g x → u.Vanishes g x → t = u := by
  rw [nullAmbiguity_eq_nil_iff_vanishesBy]
  constructor
  · intro hone x _ t u ht hu
    exact eq_of_root_eq hone ht.validFor hu.validFor (ht.root_eq.trans hu.root_eq.symm) ht.yield_eq
      hu.yield_eq
  · intro h x p q hp hq
    obtain ⟨ts, ht⟩ := hp.exists_vanishes
    obtain ⟨us, hu⟩ := hq.exists_vanishes
    obtain ⟨r, hr, rfl, -⟩ := hp
    have hx : r.head ∈ g.nonterminals := head_mem_nonterminals (rule_mem hr)
    exact (Tree.node.inj (h r.head hx _ _ ht hu)).2.1

def copiedRules : Array Rule :=
  #[⟨.named "S", [.named "N"], 0⟩, ⟨.named "N", [], 1⟩, ⟨.named "N", [], 2⟩]

/-- A grammar in which two trees of the start symbol differ in the copy of a rule. -/
def copied : Grammar :=
  ofRules copiedRules {
    nonempty := by decide
    size_le := by decide
    isNamed_head := by simp [copiedRules, Symbol.isNamed]
    isNamed_body := by simp [copiedRules, Symbol.isNamed]
    length_body_le := by simp [copiedRules] }

theorem vanishes_copied {p : ProductionId} (hp : p = .ofIndex 1 ∨ p = .ofIndex 2) :
    Tree.Vanishes copied (.named "S")
      (.node (.named "S") (.ofIndex 0) [.node (.named "N") p []]) := by
  have hS : copied.production? (.ofIndex 0) = some (.rule ⟨.named "S", [.named "N"], 0⟩) := by
    decide +kernel
  obtain ⟨i, hN⟩ : ∃ i, copied.production? p = some (.rule ⟨.named "N", [], i⟩) := by
    rcases hp with rfl | rfl
    · exact ⟨1, by decide +kernel⟩
    · exact ⟨2, by decide +kernel⟩
  have hchild : (Tree.node (.named "N") p []).ValidFor copied :=
    .node p ⟨_, [], i⟩ [] hN rfl (by simp)
  exact ⟨.node _ ⟨_, _, 0⟩ _ hS rfl (by simpa using hchild), rfl, rfl⟩

/-- The list grammar has one tree for each nonterminal that vanishes, the one with the copy has
two. -/
theorem nullAmbiguity_eq_nil_iff_trees_lists :
    (lists.nullAmbiguity lists.nullable = [] ∧
      ∀ t u : Tree ProductionId, t.Vanishes lists (.named "T") → u.Vanishes lists (.named "T") →
        t = u) ∧
    copied.nullAmbiguity copied.nullable ≠ [] := by
  have hlists : lists.nullAmbiguity lists.nullable = [] := by decide +kernel
  refine ⟨⟨hlists, (nullAmbiguity_eq_nil_iff_trees lists).mp hlists _ (by decide +kernel)⟩, ?_⟩
  intro hnil
  have heq := (nullAmbiguity_eq_nil_iff_trees copied).mp hnil (.named "S") (by decide +kernel) _ _
    (vanishes_copied (Or.inl rfl)) (vanishes_copied (Or.inr rfl))
  simp [ProductionId.ofIndex] at heq

end Grammar

end GrammarTables
