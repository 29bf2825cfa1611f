import GrammarTables.Analysis
import GrammarTables.Proofs.DepthFirst
import GrammarTables.Proofs.Derivation
import GrammarTables.Proofs.Outcomes

/-!
# The search for cycles in a grammar

A grammar is refused as cyclic if some nonterminal comes back to itself along the rules
(`exists_cyclic_iff`). In a grammar that is not cyclic, the descent from a head to a symbol whose
neighbours in the body may vanish ends (`acc_of_checkAcyclic`).
-/

namespace GrammarTables

theorem mem_survivors_iff {nullable : OrderedSet Symbol} {x : Symbol} {body : List Symbol} :
    x ∈ survivors nullable body ↔
      ∃ u v, body = u ++ x :: v ∧ ∀ z ∈ u ++ v, z ∈ nullable := by
  have hvanish {l : List Symbol} :
      l.filter (fun x => !nullable.contains x) = [] ↔ ∀ z ∈ l, z ∈ nullable := by
    simp
  rw [survivors]
  split
  · rename_i hbody
    have hall := hvanish.mp hbody
    constructor
    · intro hx
      obtain ⟨u, v, rfl⟩ := List.append_of_mem hx
      exact ⟨u, v, rfl, fun z hz => hall z (by grind)⟩
    · rintro ⟨u, v, rfl, -⟩
      simp
  · rename_i y hbody
    obtain ⟨u, v, rfl, hu, hy, hv⟩ := List.filter_eq_cons_iff.mp hbody
    rw [List.mem_singleton]
    constructor
    · rintro rfl
      refine ⟨u, v, rfl, fun z hz => ?_⟩
      rcases List.mem_append.mp hz with hz | hz
      · simpa using hu z hz
      · exact hvanish.mp hv z hz
    · rintro ⟨u', v', hb, hz⟩
      have hm : y ∈ u' ++ x :: v' := hb ▸ by simp
      have hn : y ∉ u' ++ v' := by
        intro hm
        rw [OrderedSet.contains_iff.mpr (hz y hm)] at hy
        cases hy
      grind
  · rename_i hnil hone
    simp only [List.not_mem_nil, false_iff]
    rintro ⟨u, v, rfl, hz⟩
    rw [List.filter_append, List.filter_cons, hvanish.mpr fun z h => hz z (by simp [h]),
      hvanish.mpr fun z h => hz z (by simp [h])] at hnil hone
    cases hc : nullable.contains x with
    | true => exact hnil (by simp [hc])
    | false => exact hone x (by simp [hc])

namespace Grammar

variable {g : Grammar} {x y : Symbol}

/-- A rule leads from its head to a nonterminal of its body whose neighbours may all vanish. -/
def UnitStep (g : Grammar) (x y : Symbol) : Prop :=
  ∃ r ∈ g.rules, r.head = x ∧ y ∈ g.nonterminals ∧
    ∃ u v, r.body = u ++ y :: v ∧ ∀ z ∈ u ++ v, z ∈ g.nullable

theorem edge_unitRelation_iff : g.unitRelation.Edge x y ↔ g.UnitStep x y := by
  rw [Relation.Edge, unitRelation, Relation.mem_targets_ofEdges, UnitStep]
  simp only [List.mem_flatMap, List.mem_map, List.mem_filter, Array.mem_toList_iff, Prod.mk.injEq,
    isNonterminal_iff, mem_survivors_iff]
  grind

theorem edge_unitRelation_eq : g.unitRelation.Edge = g.UnitStep := by
  funext x y
  exact propext edge_unitRelation_iff

theorem checkAcyclic_eq_ok_iff : g.checkAcyclic = .ok () ↔ g.cycle = [] := by
  rw [checkAcyclic]
  split
  · simp [*]
  · rename_i hne
    simp only [reduceCtorEq, false_iff]
    exact hne

theorem checkAcyclic_eq_error_iff {e : GrammarError} :
    g.checkAcyclic = .error e ↔ e = .cyclic g.cycle ∧ g.cycle ≠ [] := by
  rw [checkAcyclic]
  split
  · rename_i hnil
    simp [hnil]
  · rename_i hne
    constructor
    · intro h
      cases h
      exact ⟨rfl, hne⟩
    · rintro ⟨rfl, -⟩
      rfl

theorem checkAcyclic_eq_ok_iff_not :
    g.checkAcyclic = .ok () ↔ ¬∃ c, g.checkAcyclic = .error (.cyclic c) := by
  rw [checkAcyclic]
  split
  · simp
  · simp

/-- A grammar is refused as cyclic if some nonterminal comes back to itself along the rules. -/
theorem exists_cyclic_iff : (∃ c, g.checkAcyclic = .error (.cyclic c)) ↔
    ∃ x, Relation.TransGen g.unitRelation.Edge x x := by
  have hcycle : g.cycle ≠ [] ↔ ∃ x, Relation.TransGen g.unitRelation.Edge x x := by
    rw [cycle, Ne, Relation.cycle_eq_nil_iff, Classical.not_not]
  rw [← hcycle, checkAcyclic]
  split
  · simp [*]
  · rename_i hne
    simpa using hne

theorem acc_of_checkAcyclic (h : g.checkAcyclic = .ok ()) (x : Symbol) :
    Acc (fun y x => g.unitRelation.Edge x y) x :=
  Relation.acc_of_cycle_eq_nil (checkAcyclic_eq_ok_iff.mp h) x

end Grammar

end GrammarTables
