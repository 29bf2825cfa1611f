import GrammarTables.Proofs.Derivation

/-!
# Derivation trees

A derivation tree has a rule at each node and a terminal at each leaf. A string of symbols derives a
string of terminals exactly if there is a tree for each symbol and the trees together yield the
terminals. The labels of inner nodes tell apart what the symbols do not: without labels (`Tree Unit`)
rules with the same head and body make the same trees.
-/

namespace GrammarTables

/-- A tree of symbols with a label at each inner node. -/
inductive Tree (α : Type) where
  | leaf (x : Symbol)
  | node (x : Symbol) (label : α) (children : List (Tree α))

/-- Labels of nodes, each of which stands for rules of a grammar. -/
class NodeLabel (α : Type) where
  StandsFor : Grammar → α → Rule → Prop
  rule_mem {g : Grammar} {a : α} {r : Rule} : StandsFor g a r → r ∈ g.rules
  exists_label {g : Grammar} {r : Rule} : r ∈ g.rules → ∃ a, StandsFor g a r

/-- A label that says nothing. -/
instance : NodeLabel Unit where
  StandsFor g _ r := r ∈ g.rules
  rule_mem := id
  exists_label h := ⟨(), h⟩

namespace Tree

variable {α : Type}

def root : Tree α → Symbol
  | leaf x => x
  | node x _ _ => x

mutual

/-- The symbols at the leaves, from left to right. -/
def yield : Tree α → List Symbol
  | leaf x => [x]
  | node _ _ ts => yields ts

def yields : List (Tree α) → List Symbol
  | [] => []
  | t :: ts => t.yield ++ yields ts

end

theorem yields_append (ts us : List (Tree α)) : yields (ts ++ us) = yields ts ++ yields us := by
  induction ts with
  | nil => rfl
  | cons t ts ih => simp [yields, ih]

theorem yields_eq_nil_iff {ts : List (Tree α)} : yields ts = [] ↔ ∀ t ∈ ts, t.yield = [] := by
  induction ts with
  | nil => simp [yields]
  | cons t ts ih => simp [yields, ih]

variable {g : Grammar}

private theorem terminalString_yields {ts : List (Tree α)}
    (h : ∀ t ∈ ts, g.TerminalString t.yield) : g.TerminalString (yields ts) := by
  induction ts with
  | nil => simp [yields]
  | cons t ts ih =>
    rw [yields, Grammar.terminalString_append]
    exact ⟨h t (by simp), ih fun u hu => h u (by simp [hu])⟩

private theorem derives_yields_of_each {ts : List (Tree α)}
    (h : ∀ t ∈ ts, g.Derives [t.root] t.yield) : g.Derives (ts.map root) (yields ts) := by
  induction ts with
  | nil => exact .refl []
  | cons t ts ih =>
    rw [List.map_cons, yields]
    exact (h t (by simp)).cons (ih fun u hu => h u (by simp [hu]))

variable [NodeLabel α]

/-- A tree of a grammar: the label of each inner node stands for a rule, with the node's symbol as
its head and the roots of the children as its body. -/
inductive ValidFor (g : Grammar) : Tree α → Prop where
  | leaf (x : Symbol) (h : x ∈ g.terminals) : ValidFor g (leaf x)
  | node (a : α) (r : Rule) (ts : List (Tree α)) (h : NodeLabel.StandsFor g a r)
    (hr : ts.map root = r.body) (hs : ∀ t ∈ ts, ValidFor g t) : ValidFor g (node r.head a ts)

theorem ValidFor.terminalString {t : Tree α} (h : t.ValidFor g) : g.TerminalString t.yield := by
  induction h with
  | leaf x h => simp [yield, h]
  | node a r ts h hr hs ih =>
    rw [yield]
    exact terminalString_yields ih

theorem terminalString_of_valid {ts : List (Tree α)} (h : ∀ t ∈ ts, t.ValidFor g) :
    g.TerminalString (yields ts) :=
  terminalString_yields fun t ht => (h t ht).terminalString

theorem ValidFor.derives {t : Tree α} (h : t.ValidFor g) : g.Derives [t.root] t.yield := by
  induction h with
  | leaf x h => exact .refl [x]
  | node a r ts h hr hs ih =>
    have hb := derives_yields_of_each ih
    rw [hr] at hb
    exact (Grammar.derives_rule (NodeLabel.rule_mem h)).trans hb

theorem derives_yields {ts : List (Tree α)} (h : ∀ t ∈ ts, t.ValidFor g) :
    g.Derives (ts.map root) (yields ts) :=
  derives_yields_of_each fun t ht => (h t ht).derives

private theorem exists_leaves {w : List Symbol} (h : g.TerminalString w) :
    ∃ ts : List (Tree α), (∀ t ∈ ts, t.ValidFor g) ∧ ts.map root = w ∧ yields ts = w := by
  induction w with
  | nil => exact ⟨[], by simp, rfl, rfl⟩
  | cons x w ih =>
    obtain ⟨hx, hw⟩ := Grammar.terminalString_cons.mp h
    obtain ⟨ts, hts, hr, hy⟩ := ih hw
    refine ⟨leaf x :: ts, ?_, by simp [root, hr], by simp [yields, yield, hy]⟩
    intro t ht
    rcases List.mem_cons.mp ht with rfl | ht
    · exact .leaf x hx
    · exact hts t ht

private theorem exists_parent {u v : List Symbol} (h : g.Step u v) {ts : List (Tree α)}
    (hts : ∀ t ∈ ts, t.ValidFor g) (hr : ts.map root = v) :
    ∃ us : List (Tree α), (∀ t ∈ us, t.ValidFor g) ∧ us.map root = u ∧ yields us = yields ts := by
  obtain ⟨p, q, r, hrule⟩ := h
  obtain ⟨front, last, rfl, hfront, hlast⟩ := List.map_eq_append_iff.mp hr
  obtain ⟨first, middle, rfl, hfirst, hmiddle⟩ := List.map_eq_append_iff.mp hfront
  obtain ⟨a, ha⟩ := NodeLabel.exists_label (α := α) hrule
  refine ⟨first ++ node r.head a middle :: last, ?_, by simp [root, hfirst, hlast], ?_⟩
  · intro t ht
    rcases List.mem_append.mp ht with ht | ht
    · exact hts t (by simp [ht])
    · rcases List.mem_cons.mp ht with rfl | ht
      · exact .node a r middle ha hmiddle fun c hc => hts c (by simp [hc])
      · exact hts t (by simp [ht])
  · simp [yields_append, yields, yield]

/-- A derivation of a string of terminals gives a tree for each symbol. -/
theorem exists_forest {u w : List Symbol} (h : g.Derives u w) (hw : g.TerminalString w) :
    ∃ ts : List (Tree α), (∀ t ∈ ts, t.ValidFor g) ∧ ts.map root = u ∧ yields ts = w := by
  induction h using Relation.ReflTransGen.head_induction_on with
  | refl => exact exists_leaves hw
  | head hs _ ih =>
    obtain ⟨ts, hts, hr, hy⟩ := ih
    obtain ⟨us, hus, hr, hy'⟩ := exists_parent hs hts hr
    exact ⟨us, hus, hr, hy'.trans hy⟩

theorem exists_tree {x : Symbol} {w : List Symbol} (h : g.Derives [x] w)
    (hw : g.TerminalString w) : ∃ t : Tree α, t.ValidFor g ∧ t.root = x ∧ t.yield = w := by
  obtain ⟨ts, hts, hr, hy⟩ := exists_forest (α := α) h hw
  obtain ⟨t, rest, rfl, hx, hrest⟩ := List.map_eq_cons_iff.mp hr
  rw [List.map_eq_nil_iff] at hrest
  subst hrest
  refine ⟨t, hts t (by simp), hx, ?_⟩
  simpa [yields] using hy

end Tree

end GrammarTables
