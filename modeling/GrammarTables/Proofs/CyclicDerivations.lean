import GrammarTables.Proofs.CycleSearch
import GrammarTables.Proofs.Derivation
import GrammarTables.Proofs.PredictionTable

/-!
# Derivations of a nonterminal from itself

When a string derives a single nonterminal, one of its symbols survives and all others vanish. So a
nonterminal that derives itself comes back to itself along rules in which the other symbols vanish,
and the search for a cycle finds whether there is one (`cycle_eq_nil_iff_derives`).
-/

namespace GrammarTables

namespace Grammar

variable {g : Grammar} {x y z : Symbol}

/-! ### Steps to a single symbol -/

theorem unitStep_iff : g.UnitStep x y ↔
    y ∈ g.nonterminals ∧ g.Brings (· ∈ g.nullable) (· ∈ g.nullable) x y := by
  simp only [UnitStep, Brings, StandsBetween, List.forall_mem_append]
  grind

theorem UnitStep.mem_nonterminals (h : g.UnitStep x y) : x ∈ g.nonterminals :=
  (unitStep_iff.mp h).2.mem_nonterminals

private theorem transGen_unitStep_iff (hy : y ∈ g.nonterminals) : Relation.TransGen g.UnitStep x y ↔
    Relation.TransGen (g.Brings (· ∈ g.nullable) (· ∈ g.nullable)) x y := by
  have hsteps : g.UnitStep = fun x y =>
      g.Brings (· ∈ g.nullable) (· ∈ g.nullable) x y ∧ y ∈ g.nonterminals := by
    funext x y
    rw [unitStep_iff, and_comm]
  rw [transGen_brings_iff, Relation.TransGen.tail'_iff, ← hsteps]
  simp only [unitStep_iff (y := y), hy, true_and]

theorem derivesInSteps_iff (hy : y ∈ g.nonterminals) :
    g.DerivesInSteps [x] [y] ↔ Relation.TransGen g.UnitStep x y := by
  rw [transGen_unitStep_iff hy,
    ← derivesInSteps_standsBetween_iff g.handedUp_nullable g.handedUp_nullable]
  constructor
  · intro h
    exact ⟨[y], h, standsBetween_singleton.mpr rfl⟩
  · rintro ⟨t, h, u, v, rfl, hu, hv⟩
    have hvanish : g.Derives (u ++ y :: v) [y] :=
      (derives_nil_iff.mpr hu).append ((Derives.refl [y]).append (derives_nil_iff.mpr hv))
    exact h.trans_left hvanish

theorem derivesInSteps_of_unitSteps (h : Relation.TransGen g.UnitStep x y) :
    g.DerivesInSteps [x] [y] := by
  obtain ⟨_, -, hlast⟩ := Relation.TransGen.tail'_iff.mp h
  exact (derivesInSteps_iff (unitStep_iff.mp hlast).1).mpr h

/-! ### The search for a cycle -/

theorem cycle_ne_nil_iff : g.cycle ≠ [] ↔ ∃ x ∈ g.nonterminals, g.DerivesInSteps [x] [x] := by
  rw [cycle, Ne, Relation.cycle_eq_nil_iff, Classical.not_not, edge_unitRelation_eq]
  constructor
  · rintro ⟨x, hx⟩
    obtain ⟨y, hxy, -⟩ := Relation.TransGen.head'_iff.mp hx
    exact ⟨x, hxy.mem_nonterminals, derivesInSteps_of_unitSteps hx⟩
  · rintro ⟨x, hn, hx⟩
    exact ⟨x, (derivesInSteps_iff hn).mp hx⟩

theorem classify_of_cycle_ne_nil (h : g.cycle ≠ []) (d : Discipline) :
    g.classify d = .error (.invalid (.cyclic g.cycle)) :=
  classify_eq_invalid_iff.mpr
    (table_eq_cyclic_iff.mpr (checkAcyclic_eq_error_iff.mpr ⟨rfl, h⟩))

/-- The search finds no cycle exactly if no nonterminal derives itself in one or more steps. Where
one does, all disciplines refuse the grammar with the cycle that has been found. -/
theorem cycle_eq_nil_iff_derives (g : Grammar) :
    (g.cycle = [] ↔ ¬∃ x ∈ g.nonterminals, g.DerivesInSteps [x] [x]) ∧
      (g.checkAcyclic = .ok () ↔ ¬∃ x ∈ g.nonterminals, g.DerivesInSteps [x] [x]) ∧
      ((∃ x ∈ g.nonterminals, g.DerivesInSteps [x] [x]) →
        ∀ d, g.classify d = .error (.invalid (.cyclic g.cycle))) := by
  have hcycle : g.cycle = [] ↔ ¬∃ x ∈ g.nonterminals, g.DerivesInSteps [x] [x] := by
    rw [← cycle_ne_nil_iff, Classical.not_not]
  refine ⟨hcycle, checkAcyclic_eq_ok_iff.trans hcycle, fun h d => ?_⟩
  exact classify_of_cycle_ne_nil (cycle_ne_nil_iff.mpr h) d

def enteredLoopRules : Array Rule :=
  #[⟨.named "S", [.named "X"], 0⟩, ⟨.named "X", [.named "N", .named "X"], 1⟩,
    ⟨.named "X", [.named "x"], 2⟩, ⟨.named "N", [], 3⟩]

/-- A grammar in which a nonterminal derives itself and the start symbol does not. -/
def enteredLoop : Grammar :=
  ofRules enteredLoopRules {
    nonempty := by decide
    size_le := by decide
    isNamed_head := by simp [enteredLoopRules, Symbol.isNamed]
    isNamed_body := by simp [enteredLoopRules, Symbol.isNamed]
    length_body_le := by simp [enteredLoopRules] }

theorem derivesInSteps_enteredLoop : enteredLoop.DerivesInSteps [.named "X"] [.named "X"] := by
  have hstep := Step.rewrite (g := enteredLoop) [] []
    ⟨.named "X", [.named "N", .named "X"], 1⟩ (by decide +kernel)
  have hvanish : enteredLoop.Derives [.named "N"] [] :=
    derives_rule (r := ⟨.named "N", [], 3⟩) (by decide +kernel)
  exact .head' hstep (hvanish.context [] [.named "X"])

theorem cycle_eq_nil_iff_derives_enteredLoop : enteredLoop.checkAcyclic ≠ .ok () ∧
    enteredLoop.classify .lalr1 = .error (.invalid (.cyclic enteredLoop.cycle)) := by
  have hloop : ∃ x ∈ enteredLoop.nonterminals, enteredLoop.DerivesInSteps [x] [x] :=
    ⟨.named "X", by decide +kernel, derivesInSteps_enteredLoop⟩
  obtain ⟨-, hcheck, hclassify⟩ := cycle_eq_nil_iff_derives enteredLoop
  exact ⟨fun h => hcheck.mp h hloop, hclassify hloop .lalr1⟩

/-! ### The reported walk -/

private theorem head?_eq_getLast?_iff {before loop : List Symbol}
    (hn : (before ++ x :: loop).Nodup) :
    (before ++ x :: loop ++ [x]).head? = (before ++ x :: loop ++ [x]).getLast? ↔ before = [] := by
  rw [List.getLast?_concat]
  cases before with
  | nil => simp
  | cons b before =>
    have hne : b ≠ x := by
      rintro rfl
      simp at hn
    simpa using hne

/-- The walk that is reported follows rules in which the other symbols vanish. It ends when it comes
back to a symbol, and from there on it is a derivation of the symbol from itself. It begins with
that symbol only if the search has started there. -/
theorem cycle_follows_rules (h : g.cycle ≠ []) : ∃ before x loop,
    g.cycle = before ++ x :: loop ++ [x] ∧ (before ++ x :: loop).Nodup ∧
      g.cycle.IsChain g.UnitStep ∧ g.DerivesInSteps [x] [x] ∧
      (g.cycle.head? = g.cycle.getLast? ↔ before = []) ∧
      g.checkAcyclic = .error (.cyclic g.cycle) ∧
      (∀ d, g.classify d = .error (.invalid (.cyclic g.cycle))) ∧
      (Rejection.invalid (.cyclic g.cycle)).message =
        "the grammar is cyclic: " ++ " => ".intercalate (g.cycle.map Symbol.text) := by
  have hlasso : g.unitRelation.IsLasso g.cycle := Relation.isLasso_cycle h
  obtain ⟨before, x, loop, hc, hn⟩ := hlasso.exists_loop
  refine ⟨before, x, loop, hc, hn, ?_, ?_, ?_, checkAcyclic_eq_error_iff.mpr ⟨rfl, h⟩,
    classify_of_cycle_ne_nil h, rfl⟩
  · rw [← edge_unitRelation_eq]
    exact hlasso.isChain
  · apply derivesInSteps_of_unitSteps
    rw [← edge_unitRelation_eq]
    exact (hc ▸ hlasso).transGen
  · rw [hc]
    exact head?_eq_getLast?_iff hn

theorem cycle_follows_rules_enteredLoop : enteredLoop.cycle ≠ [] ∧
    ∃ x, enteredLoop.cycle.getLast? = some x ∧ enteredLoop.DerivesInSteps [x] [x] := by
  have hne : enteredLoop.cycle ≠ [] := by decide +kernel
  obtain ⟨before, x, loop, hc, -, -, hx, -⟩ := cycle_follows_rules hne
  refine ⟨hne, x, ?_, hx⟩
  rw [hc, List.getLast?_concat]

/-- The search starts at `S`, which leads into the loop but does not derive itself. -/
theorem head?_cycle_ne_getLast?_enteredLoop :
    enteredLoop.cycle = [.named "S", .named "X", .named "X"] ∧
      enteredLoop.cycle.head? ≠ enteredLoop.cycle.getLast? ∧
      ¬enteredLoop.DerivesInSteps [.named "S"] [.named "S"] := by
  refine ⟨by decide +kernel, by decide +kernel, fun h => ?_⟩
  obtain ⟨x, -, hx⟩ :=
    Relation.TransGen.tail'_iff.mp ((derivesInSteps_iff (by decide +kernel)).mp h)
  obtain ⟨r, hr, -, -, u, v, hb, -⟩ := hx
  have hnone : ∀ r ∈ enteredLoop.rules, Symbol.named "S" ∉ r.body := by decide +kernel
  exact hnone r hr (by simp [hb])

end Grammar

end GrammarTables
