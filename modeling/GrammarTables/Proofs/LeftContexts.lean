import GrammarTables.Proofs.DerivationOrder
import GrammarTables.Proofs.PredictionTable
import GrammarTables.Proofs.Reachability

/-!
# Predictions and leftmost derivations

A top-down parser replaces the first nonterminal of a sentential form, and what stands behind the
nonterminal is its left context. In a grammar without useless nonterminals, FOLLOW sets hold what
left contexts begin with, and a cell of the prediction table holds the rules that can be applied
there and lead on with its token (`mem_cell_iff_leftContext`).
-/

namespace GrammarTables.Grammar

variable {g : Grammar} {x y z : Symbol} {r : Rule} {u v rest : List Symbol}

/-- The nonterminal is replaced next in a leftmost derivation, in front of the rest. -/
def LeftContext (g : Grammar) (x : Symbol) (rest : List Symbol) : Prop :=
  ∃ w, g.TerminalString w ∧ g.LeftDerives [g.start, .endOfInput] (w ++ x :: rest)

theorem leftContext_start (g : Grammar) : g.LeftContext g.start [.endOfInput] :=
  ⟨[], terminalString_nil, .refl⟩

theorem LeftContext.descend (hu : g.unproductive = []) (h : g.LeftContext r.head rest)
    (hr : r ∈ g.rules) (hb : r.body = u ++ x :: v) : g.LeftContext x (v ++ rest) := by
  obtain ⟨w, hw, hd⟩ := h
  obtain ⟨w', hw', hd'⟩ := exists_terminalString fun z (hz : z ∈ u) =>
    productive_of_mem hu (mem_terminals_or_nonterminals hr (by simp [hb, hz]))
  refine ⟨w ++ w', terminalString_append.mpr ⟨hw, hw'⟩, ?_⟩
  have hstep := LeftStep.rewrite w rest r hr hw
  have hfront := leftDerives_of_derives hd' hw' hw (x :: v ++ rest)
  simp only [hb, List.append_assoc, List.cons_append] at hstep hfront ⊢
  exact (hd.tail hstep).trans hfront

theorem exists_leftContext (hr : g.unreachable = []) (hu : g.unproductive = [])
    (hx : x ∈ g.nonterminals) : ∃ rest, g.LeftContext x rest := by
  refine reachable_induction (P := fun x => ∃ rest, g.LeftContext x rest) ?_ ?_
    (reachable_of_unreachable_eq_nil hr hx)
  · exact ⟨_, leftContext_start g⟩
  · intro r hr _ ih x hx
    obtain ⟨rest, hc⟩ := ih
    obtain ⟨u, v, hb⟩ := List.append_of_mem hx
    exact ⟨_, hc.descend hu hr hb⟩

/-! ### What left contexts begin with -/

/-- In a grammar without useless nonterminals, FOLLOW sets hold what left contexts begin with. -/
theorem mem_follow_iff_leftContext (hreach : g.unreachable = []) (hprod : g.unproductive = [])
    (hx : x ∈ g.nonterminals) :
    y ∈ g.follow x ↔ ∃ rest, g.LeftContext x rest ∧ g.Begins rest y := by
  constructor
  · intro hy
    clear hx
    refine follow_induction (P := fun x y => ∃ rest, g.LeftContext x rest ∧ g.Begins rest y)
      ?_ ?_ ?_ hy
    · exact ⟨_, leftContext_start g, (begins_token_iff (Or.inr rfl)).mpr rfl⟩
    · intro r hr u x v y hb hv
      obtain ⟨rest, hc⟩ := exists_leftContext hreach hprod (head_mem_nonterminals hr)
      exact ⟨_, hc.descend hprod hr hb, begins_append.mpr (Or.inl hv)⟩
    · intro r hr u x v y hb hv ih
      obtain ⟨rest, hc, hrest⟩ := ih
      exact ⟨_, hc.descend hprod hr hb, begins_append.mpr (Or.inr ⟨hv, hrest⟩)⟩
  · rintro ⟨rest, ⟨w, -, hd⟩, hy⟩
    exact mem_follow_of_derives hd.derives rfl hx hy

/-! ### What a cell predicts -/

theorem mem_predictedTokens_iff_leftContext (hreach : g.unreachable = [])
    (hprod : g.unproductive = []) (hr : r ∈ g.rules) : y ∈ g.predictedTokens r ↔
      ∃ rest, g.LeftContext r.head rest ∧ g.Begins (r.body ++ rest) y := by
  have hx := head_mem_nonterminals hr
  rw [mem_predictedTokens_iff hr, mem_follow_iff_leftContext hreach hprod hx]
  simp only [begins_append]
  constructor
  · rintro (hy | ⟨hv, rest, hc, hy⟩)
    · obtain ⟨rest, hc⟩ := exists_leftContext hreach hprod hx
      exact ⟨rest, hc, Or.inl hy⟩
    · exact ⟨rest, hc, Or.inr ⟨hv, hy⟩⟩
  · rintro ⟨rest, hc, hy | ⟨hv, hy⟩⟩
    · exact Or.inl hy
    · exact Or.inr ⟨hv, rest, hc, hy⟩

/-- In a grammar without useless nonterminals, a cell holds once each rule that a leftmost derivation
can apply to its nonterminal to go on with its token, and nothing else. -/
theorem mem_cell_iff_leftContext (hg : g.checkAcyclic = .ok ()) (hreach : g.unreachable = [])
    (hprod : g.unproductive = []) : ∃ t, g.table .ll1 = .ok (.prediction t) ∧
      (∀ x y p, g.IsToken y → g.head? p = some x →
        (p ∈ t.cell x y ↔ ∃ w rest v, g.TerminalString w ∧
          g.LeftDerives [g.start, .endOfInput] (w ++ x :: rest) ∧
          g.Derives (g.body p ++ rest) (y :: v))) ∧
      ∀ x y, (t.cell x y).Nodup ∧ ∀ p ∈ t.cell x y, g.head? p = some x := by
  refine ⟨g.filled, table_ll1_eq hg, ?_, ?_⟩
  · intro x y p hy hp
    obtain ⟨r, hrule, rfl⟩ := head?_eq_some_iff.mp hp
    have hcell : p ∈ g.filled.cell r.head y ↔ y ∈ g.predictedTokens r := by
      rw [mem_cell_filled_iff, hrule]
      simp
    rw [hcell, mem_predictedTokens_iff_leftContext hreach hprod (rule_mem hrule),
      body_of_rule hrule]
    constructor
    · rintro ⟨rest, ⟨w, hw, hd⟩, -, v, hv⟩
      exact ⟨w, rest, v, hw, hd, hv⟩
    · rintro ⟨w, rest, v, hw, hd, hv⟩
      exact ⟨rest, ⟨w, hw, hd⟩, hy, v, hv⟩
  · refine fun x y => ⟨nodup_cell_filled x y, fun p hp => ?_⟩
    obtain ⟨r, hrule, rfl, -⟩ := mem_cell_filled_iff.mp hp
    exact head?_of_rule hrule

/-- At the end of the input, a list is not continued. -/
theorem mem_cell_iff_leftContext_lists : ∃ t, lists.table .ll1 = .ok (.prediction t) ∧
    .ofIndex 2 ∈ t.cell (.named "T") .endOfInput := by
  obtain ⟨t, ht, hcell, -⟩ := mem_cell_iff_leftContext (g := lists) (by decide +kernel)
    (by decide +kernel) (by decide +kernel)
  refine ⟨t, ht, (hcell _ _ (.ofIndex 2) (Or.inr rfl) (by decide +kernel)).mpr ?_⟩
  have hx : lists.TerminalString [.named "x"] := by
    rw [terminalString_cons, ← isTerminal_iff]
    exact ⟨by decide +kernel, terminalString_nil⟩
  have hbody : lists.body (.ofIndex 2) = [] := by decide +kernel
  refine ⟨[.named "x"], [.endOfInput], [], hx, ?_, ?_⟩
  · have hstart : lists.start = .named "L" := by decide +kernel
    rw [hstart]
    exact .single (.rewrite [] _ ⟨.named "L", [.named "x", .named "T"], 0⟩ (by decide +kernel)
      terminalString_nil)
  · rw [hbody]
    exact .refl _

end GrammarTables.Grammar
