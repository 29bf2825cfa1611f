import GrammarTables.Proofs.Verdicts

/-!
# The hierarchy of disciplines

A conflict of one automaton is a conflict of every automaton that simulates it: the automaton of
bare cores simulates the merged one, and the merged one simulates the automaton it was made from. In
the other direction, merged states read what their members read, and each of their lookaheads comes
from a member, so that merging brings about no conflict but a choice between reductions.
-/

namespace GrammarTables

namespace Automaton

variable {ι κ : Type} [Item ι] [Item κ] {g : Grammar}

/-- The second automaton has a state for each state of the first, which holds and reads as much. -/
def SimulatedBy (a : Automaton ι) (reduceOn : ι → List Symbol) (b : Automaton κ)
    (reduceOn' : κ → List Symbol) : Prop :=
  ∀ q c y, a.Holds reduceOn q c y →
    ∃ q', (∀ c y, a.Holds reduceOn q c y → b.Holds reduceOn' q' c y) ∧
      ∀ x, (a.step? q x).isSome → (b.step? q' x).isSome

theorem ConflictFree.of_simulatedBy {a : Automaton ι} {reduceOn : ι → List Symbol}
    {b : Automaton κ} {reduceOn' : κ → List Symbol} (hb : b.ConflictFree g reduceOn')
    (h : a.SimulatedBy reduceOn b reduceOn') : a.ConflictFree g reduceOn where
  production_eq q c c' y hc hc' hcomp hcomp' := by
    obtain ⟨q', hq', -⟩ := h q c y hc
    exact hb.production_eq q' c c' y (hq' c y hc) (hq' c' y hc') hcomp hcomp'
  step?_eq_none q c y hc hcomp hy := by
    obtain ⟨q', hq', hstep⟩ := h q c y hc
    have hnone := hb.step?_eq_none q' c y (hq' c y hc) hcomp hy
    rw [← Option.not_isSome_iff_eq_none]
    intro hsome
    have hsome' := hstep y hsome
    rw [hnone] at hsome'
    cases hsome'

end Automaton

namespace CanonicalFor

variable {g : Grammar} {a : Automaton LookaheadItem} {b : Automaton DottedRule}

/-- The lookaheads of an LALR(1) table are among those of the SLR(1) table. -/
theorem mergeByCore_simulatedBy (ha : CanonicalFor g a) (hb : CanonicalFor g b) :
    a.mergeByCore.SimulatedBy Item.lookaheads b g.followOn := by
  intro q c y hc
  have hheld := hc
  obtain ⟨S, -, hS, -⟩ := hheld
  obtain ⟨q₀, s₀, hs₀, rfl, -⟩ := Automaton.exists_member ha.size_le hS
  obtain ⟨l, hl⟩ := ha.reachable q₀ s₀ hs₀
  have hl' : a.mergeByCore.after? l = some (a.mergedId q₀) := by
    rw [ha.after?_mergeByCore, hl, Option.map_some]
  obtain ⟨q', s', hq', hs', -⟩ := hb.exists_after_of_awaits (ha.awaits_mergeByCore hl' hc)
  refine ⟨q', ?_, ?_⟩
  · intro c y hc
    exact hb.holds_of_awaits hq' (ha.awaits_mergeByCore hl' hc)
      (ha.mem_followOn_of_holds_mergeByCore hc)
  · intro x hx
    rw [ha.step?_mergeByCore hs₀, Option.isSome_map, Automaton.step?, hs₀] at hx
    obtain ⟨i, hi, hix⟩ := (ha.isSome_next? q₀ s₀ hs₀ x).mp hx
    rw [Automaton.step?, hs']
    apply (hb.isSome_next? q' s' hs' x).mpr
    exact ⟨i.core, (hb.mem_items_iff hq' hs').mpr (ha.awaits_of_mem hl hs₀ hi).core, hix⟩

/-- A merged state holds and reads what its members hold and read. -/
theorem simulatedBy_mergeByCore (ha : CanonicalFor g a) :
    a.SimulatedBy Item.lookaheads a.mergeByCore Item.lookaheads := by
  intro q c y hc
  refine ⟨a.mergedId q, fun _ _ hc => ha.holds_mergedId hc, ?_⟩
  intro x hx
  obtain ⟨s, -, hs, -⟩ := hc
  rwa [ha.step?_mergeByCore hs, Option.isSome_map]

end CanonicalFor

namespace Grammar

variable {g : Grammar}

theorem classify_lalr1_of_slr1 (hok : g.lr1Automaton.isOk) (h : g.classify .slr1 = .ok ()) :
    g.classify .lalr1 = .ok () := by
  obtain ⟨hg, b, hb, hfree⟩ := classify_slr1_iff.mp h
  obtain ⟨a, ha⟩ := exists_of_isOk hok
  refine classify_lalr1_iff.mpr ⟨hg, a, ha, hfree.of_simulatedBy ?_⟩
  exact (canonicalFor_of_eq_ok ha).mergeByCore_simulatedBy (canonicalFor_of_eq_ok hb)

theorem classify_lr1_of_lalr1 (h : g.classify .lalr1 = .ok ()) : g.classify .lr1 = .ok () := by
  obtain ⟨hg, a, ha, hfree⟩ := classify_lalr1_iff.mp h
  refine classify_lr1_iff.mpr ⟨hg, a, ha, hfree.of_simulatedBy ?_⟩
  exact (canonicalFor_of_eq_ok ha).simulatedBy_mergeByCore

/-- Each discipline with an automaton accepts what the one before it accepts. -/
theorem classify_monotone (hok : g.lr1Automaton.isOk) :
    (g.classify .lr0 = .ok () → g.classify .slr1 = .ok ()) ∧
    (g.classify .slr1 = .ok () → g.classify .lalr1 = .ok ()) ∧
    (g.classify .lalr1 = .ok () → g.classify .lr1 = .ok ()) :=
  ⟨classify_slr1_of_lr0, classify_lalr1_of_slr1 hok, classify_lr1_of_lalr1⟩

theorem classify_monotone_nested : nested.classify .slr1 = .ok () ∧
    nested.classify .lalr1 = .ok () ∧ nested.classify .lr1 = .ok () := by
  obtain ⟨hslr, hlalr, hlr⟩ := classify_monotone (g := nested) (by decide +kernel)
  have h₀ := hslr (by decide +kernel)
  have h₁ := hlalr h₀
  exact ⟨h₀, h₁, hlr h₁⟩

end Grammar

/-! ### Conflicts made by merging -/

namespace CanonicalFor

variable {g : Grammar} {a : Automaton LookaheadItem} {q : StateId} {y : Symbol}

theorem step?_mergeByCore_eq_none (ha : CanonicalFor g a)
    (hfree : a.ConflictFree g Item.lookaheads) {c : DottedRule}
    (hc : a.mergeByCore.Holds Item.lookaheads q c y) (hcomp : c.isComplete g = true)
    (hy : y ∉ g.nonterminals) : a.mergeByCore.step? q y = none := by
  obtain ⟨q₀, rfl, hc₀⟩ := (holds_mergeByCore_iff ha).mp hc
  obtain ⟨s₀, hs₀, -⟩ := holds_iff.mp hc₀
  rw [ha.step?_mergeByCore hs₀, hfree.step?_eq_none q₀ c y hc₀ hcomp hy, Option.map_none]

theorem reduces_eq_nil_of_shift_mergeByCore (ha : CanonicalFor g a)
    (hfree : a.ConflictFree g Item.lookaheads) {acts : Actions}
    (hcell : (ActionTable.ofAutomaton g Item.lookaheads a.mergeByCore).cell? q y = some acts)
    (hs : acts.shift.isSome) : acts.reduces = [] :=
  ActionTable.reduces_eq_nil_of_shift ha.proper_mergeByCore
    (fun _ hc hcomp hy => ha.step?_mergeByCore_eq_none hfree hc hcomp hy) hcell hs

end CanonicalFor

namespace Grammar

variable {g : Grammar}

/-- In the LALR(1) table of a grammar without LR(1) conflict, no cell holds a shift together with a
reduction, so the grammar is refused for a cell with several reductions, if at all. -/
theorem lalr1_conflicts_of_lr1 (h : g.classify .lr1 = .ok ()) :
    ∃ t, g.table .lalr1 = .ok (.action t) ∧
      (∀ q y acts, t.cell? q y = some acts → acts.shift = none ∨ acts.reduces = []) ∧
      ∀ e, g.classify .lalr1 = .error e → ∃ q y acts,
        e = .conflict (.reduceReduce .lalr1 q (some y)) ∧ t.cell? q y = some acts ∧
          1 < acts.reduces.length := by
  obtain ⟨hg, a, ha, hfree⟩ := classify_lr1_iff.mp h
  have hcan := canonicalFor_of_eq_ok ha
  have htable := table_lalr1_iff.mpr ⟨hg, a, ha, rfl⟩
  refine ⟨_, htable, ?_, ?_⟩
  · intro q y acts hcell
    cases hs : acts.shift with
    | none => exact Or.inl rfl
    | some q' =>
      exact Or.inr (hcan.reduces_eq_nil_of_shift_mergeByCore hfree hcell (by simp [hs]))
  · intro e he
    rw [classify_eq_check htable] at he
    obtain ⟨c, hc, rfl⟩ := conflicting_eq_error_iff.mp he
    obtain ⟨q, y, acts, hcell, hentry⟩ :=
      ActionTable.exists_cell_of_check_eq_error hcan.proper_mergeByCore.size_le
        (fun _ _ hS => Automaton.id_mergeByCore hcan.size_le hS) hc
    obtain ⟨rfl, hlt⟩ := ActionTable.eq_reduceReduce_of_checkEntry
      (hcan.reduces_eq_nil_of_shift_mergeByCore hfree hcell) hentry
    exact ⟨q, y, acts, rfl, hcell, hlt⟩

/-- Rules that read `c` in two ways. The first symbol and the last one together tell which. -/
def crossedRules : Array Rule :=
  #[⟨.named "S", [.named "a", .named "A", .named "d"], 0⟩,
    ⟨.named "S", [.named "b", .named "B", .named "d"], 1⟩,
    ⟨.named "S", [.named "a", .named "B", .named "e"], 2⟩,
    ⟨.named "S", [.named "b", .named "A", .named "e"], 3⟩,
    ⟨.named "A", [.named "c"], 4⟩, ⟨.named "B", [.named "c"], 5⟩]

/-- A grammar that belongs to LR(1) and not to LALR(1). -/
def crossed : Grammar :=
  ofRules crossedRules {
    nonempty := by decide
    size_le := by decide
    isNamed_head := by simp [crossedRules, Symbol.isNamed]
    isNamed_body := by simp [crossedRules, Symbol.isNamed]
    length_body_le := by simp [crossedRules] }

theorem lalr1_conflicts_of_lr1_crossed : ∃ t, crossed.table .lalr1 = .ok (.action t) ∧
    (∀ q y acts, t.cell? q y = some acts → acts.shift = none ∨ acts.reduces = []) ∧
    ∃ q y, crossed.classify .lalr1 = .error (.conflict (.reduceReduce .lalr1 q (some y))) := by
  obtain ⟨t, ht, hcells, herror⟩ := lalr1_conflicts_of_lr1 (g := crossed) (by decide +kernel)
  have hrefused : crossed.classify .lalr1 ≠ .ok () := by decide +kernel
  refine ⟨t, ht, hcells, ?_⟩
  cases hc : crossed.classify .lalr1 with
  | ok u => exact absurd hc hrefused
  | error e =>
    obtain ⟨q, y, _, rfl, -⟩ := herror e hc
    exact ⟨q, y, rfl⟩

end Grammar

end GrammarTables
