import GrammarTables.Analysis
import GrammarTables.Proofs.Derivation
import GrammarTables.Proofs.TransitiveClosure

/-!
# Reachable symbols

A symbol is reachable if a chain of rules leads to it from the start symbol, and so if it stands in
a sentential form (`reachable_iff_derives`). The nonterminals for which there is no such chain are
the unreachable ones (`mem_unreachable_iff`).
-/

namespace GrammarTables.Grammar

variable {g : Grammar} {x y : Symbol} {r : Rule}

/-- A chain of rules leads from the start symbol to the symbol, each rule with the next symbol in
its body. -/
def Reachable (g : Grammar) (x : Symbol) : Prop :=
  Relation.ReflTransGen g.bodyRelation.Edge g.start x

theorem edge_bodyRelation_iff :
    g.bodyRelation.Edge x y ↔ ∃ r ∈ g.rules, r.head = x ∧ y ∈ r.body := by
  rw [Relation.Edge, bodyRelation, Relation.mem_targets_ofEdges]
  simp only [List.mem_flatMap, List.mem_map, Array.mem_toList_iff, Prod.mk.injEq]
  grind

theorem reachable_start : g.Reachable g.start := .refl

theorem Reachable.of_mem_body (h : g.Reachable r.head) (hr : r ∈ g.rules) (hx : x ∈ r.body) :
    g.Reachable x :=
  h.tail (edge_bodyRelation_iff.mpr ⟨r, hr, rfl, hx⟩)

theorem reachable_induction {P : Symbol → Prop} (start : P g.start)
    (body : ∀ r ∈ g.rules, g.Reachable r.head → P r.head → ∀ x ∈ r.body, P x)
    (h : g.Reachable x) : P x := by
  induction h with
  | refl => exact start
  | tail hd hs ih =>
    obtain ⟨r, hr, rfl, hx⟩ := edge_bodyRelation_iff.mp hs
    exact body r hr hd ih _ hx

theorem mem_unreachable_iff : x ∈ g.unreachable ↔ x ∈ g.nonterminals ∧ ¬ g.Reachable x := by
  simp only [unreachable, List.mem_filter, OrderedSet.mem_toList, Reachable,
    Relation.reflTransGen_iff_eq_or_transGen, ← Relation.edge_closure_iff, not_or, Bool.and_eq_true,
    decide_eq_true_eq, Bool.not_eq_true', ← Bool.not_eq_true, OrderedSet.contains_iff]
  rfl

theorem reachable_of_unreachable_eq_nil (h : g.unreachable = []) (hx : x ∈ g.nonterminals) :
    g.Reachable x := by
  have hn : x ∉ g.unreachable := by simp [h]
  rw [mem_unreachable_iff, not_and, Classical.not_not] at hn
  exact hn hx

/-! ### Sentential forms -/

theorem edge_bodyRelation_eq :
    g.bodyRelation.Edge = g.Brings (fun _ => True) fun _ => True := by
  funext x y
  rw [edge_bodyRelation_iff, Brings]
  simp only [mem_iff_standsBetween]

/-- The reachable symbols are those of sentential forms. -/
theorem reachable_iff_derives : g.Reachable x ↔ ∃ s, g.Derives [g.start] s ∧ x ∈ s := by
  simp only [mem_iff_standsBetween (z := x)]
  rw [derives_standsBetween_iff g.handedUp_true g.handedUp_true, Reachable, edge_bodyRelation_eq]
  simp only [standsBetween_singleton, exists_eq_left]

/-! ### Start symbols with empty bodies only -/

theorem mem_keys_bodyRelation_iff :
    x ∈ g.bodyRelation.rows.keys ↔ ∃ r ∈ g.rules, r.head = x ∧ r.body ≠ [] := by
  rw [bodyRelation, Relation.keys_ofEdges, OrderedSet.mem_ofList]
  simp only [List.mem_map, List.mem_flatMap, Array.mem_toList_iff]
  constructor
  · rintro ⟨_, ⟨r, hr, y, hy, rfl⟩, rfl⟩
    exact ⟨r, hr, rfl, List.ne_nil_of_mem hy⟩
  · rintro ⟨r, hr, rfl, hb⟩
    obtain ⟨y, hy⟩ := List.exists_mem_of_ne_nil r.body hb
    exact ⟨_, ⟨r, hr, y, hy, rfl⟩, rfl⟩

theorem reachable_iff_eq_start (h : ∀ r ∈ g.rules, r.head = g.start → r.body = []) :
    g.Reachable x ↔ x = g.start := by
  apply Relation.reflTransGen_iff_eq
  intro y hy
  obtain ⟨r, hr, hhead, hbody⟩ := edge_bodyRelation_iff.mp hy
  simp [h r hr hhead] at hbody

/-- The unreachable nonterminals are those in no sentential form that the start symbol derives. This
includes grammars whose start symbol has empty bodies only: it has no row in the relation of heads
to symbols of bodies, and all other nonterminals are unreachable. -/
theorem mem_unreachable_iff_derives (g : Grammar) :
    (∀ x, x ∈ g.unreachable ↔ x ∈ g.nonterminals ∧ ¬∃ s, g.Derives [g.start] s ∧ x ∈ s) ∧
      ((∀ r ∈ g.rules, r.head = g.start → r.body = []) →
        g.bodyRelation.rows.get? g.start = none ∧
          ∀ x, x ∈ g.unreachable ↔ x ∈ g.nonterminals ∧ x ≠ g.start) := by
  refine ⟨fun x => ?_, fun h => ⟨?_, fun x => ?_⟩⟩
  · rw [mem_unreachable_iff, reachable_iff_derives]
  · rw [OrderedMap.get?_eq_none_iff, mem_keys_bodyRelation_iff]
    rintro ⟨r, hr, hhead, hbody⟩
    exact hbody (h r hr hhead)
  · rw [mem_unreachable_iff, reachable_iff_eq_start h]

def emptySentenceRules : Array Rule :=
  #[⟨.named "S", [], 0⟩, ⟨.named "A", [.named "S", .named "a"], 1⟩]

/-- A grammar in which the start symbol has an empty body only, and is reached from another
nonterminal. -/
def emptySentence : Grammar :=
  ofRules emptySentenceRules {
    nonempty := by decide
    size_le := by decide
    isNamed_head := by simp [emptySentenceRules, Symbol.isNamed]
    isNamed_body := by simp [emptySentenceRules, Symbol.isNamed]
    length_body_le := by simp [emptySentenceRules] }

theorem mem_unreachable_iff_derives_emptySentence :
    emptySentence.bodyRelation.rows.get? emptySentence.start = none ∧
      .named "A" ∈ emptySentence.unreachable ∧
      ¬∃ s, emptySentence.Derives [emptySentence.start] s ∧ .named "A" ∈ s := by
  obtain ⟨hforms, hstart⟩ := mem_unreachable_iff_derives emptySentence
  obtain ⟨hrow, hrest⟩ := hstart (by decide +kernel)
  have hA : .named "A" ∈ emptySentence.unreachable := (hrest _).mpr (by decide +kernel)
  exact ⟨hrow, hA, ((hforms _).mp hA).2⟩

end GrammarTables.Grammar
