import GrammarTables.Proofs.ActionCells
import GrammarTables.Proofs.AwaitedItems
import GrammarTables.Proofs.MergedStates

/-!
# Automata that guide a parser

An automaton, with the tokens on which its items reduce, guides a parser if each core is awaited
where it is held, and if the cores that a sentence needs are held with the tokens that come next.
The automata of SLR(1), LR(1) and LALR(1) tables do.
-/

namespace GrammarTables

variable {g : Grammar}

/-- The cores are held where they are awaited, with enough tokens to reduce on. -/
structure Automaton.Guides {ι : Type} [Item ι] (g : Grammar) (a : Automaton ι)
    (reduceOn : ι → List Symbol) : Prop where
  proper : a.Proper
  initial : a.Holds reduceOn (.ofIndex 0) .initial .endOfInput
  predicted : ∀ q c y x rest p z, a.Holds reduceOn q c y → c.remainder g = x :: rest →
    p ∈ g.alternatives x → g.Begins (rest ++ [y]) z → a.Holds reduceOn q ⟨p, 0⟩ z
  shifted : ∀ q c y x, a.Holds reduceOn q c y → c.next? g = some x →
    ∃ q', a.step? q x = some q' ∧ a.Holds reduceOn q' c.shifted y
  awaits : ∀ l q c y, a.after? l = some q → a.Holds reduceOn q c y → g.Awaits l c
  endOfInput : ∀ q c y, a.Holds reduceOn q c y → c.production = .accept → y = .endOfInput

namespace CanonicalFor

theorem proper {ι : Type} [PredictiveItem ι] {a : Automaton ι} (h : CanonicalFor g a) : a.Proper :=
  ⟨h.size_le, h.nodup_transitions⟩

/-! ### Items with one lookahead -/

section Lookahead

variable {a : Automaton LookaheadItem} {q q' : StateId} {s : State LookaheadItem} {c : DottedRule}
  {x y : Symbol}

theorem holds_iff : a.Holds Item.lookaheads q c y ↔
    ∃ s, a.state? q = some s ∧ ⟨c, y⟩ ∈ s.items := by
  constructor
  · intro h
    obtain ⟨s, m, hs, hm, rfl, hy⟩ := h
    obtain rfl := List.mem_singleton.mp hy
    exact ⟨s, hs, hm⟩
  · intro h
    obtain ⟨s, hs, hm⟩ := h
    exact ⟨s, _, hs, hm, rfl, List.mem_singleton.mpr rfl⟩

theorem holds_predicted (h : CanonicalFor g a) (hc : a.Holds Item.lookaheads q c y)
    {rest : List Symbol} {p : ProductionId} {z : Symbol} (hr : c.remainder g = x :: rest)
    (hp : p ∈ g.alternatives x) (hz : g.Begins (rest ++ [y]) z) :
    a.Holds Item.lookaheads q ⟨p, 0⟩ z := by
  obtain ⟨s, hs, hm⟩ := holds_iff.mp hc
  refine holds_iff.mpr ⟨s, hs, h.mem_of_predicts hs hm ?_⟩
  exact (LookaheadItem.predicts_iff (h.admissible hs hm)).mpr ⟨x, rest, hr, hp, rfl, hz⟩

theorem holds_shifted (h : CanonicalFor g a) (hc : a.Holds Item.lookaheads q c y)
    (hx : c.next? g = some x) :
    ∃ q', a.step? q x = some q' ∧ a.Holds Item.lookaheads q' c.shifted y := by
  obtain ⟨s, hs, hm⟩ := holds_iff.mp hc
  obtain ⟨q', s', hq', hs', hm'⟩ := h.exists_step hs hm hx
  exact ⟨q', Automaton.step?_eq_some.mpr ⟨s, hs, hq'⟩, holds_iff.mpr ⟨s', hs', hm'⟩⟩

theorem awaits_of_holds (h : CanonicalFor g a) {l : List Symbol} (hl : a.after? l = some q)
    (hc : a.Holds Item.lookaheads q c y) : g.Awaits l (⟨c, y⟩ : LookaheadItem) := by
  obtain ⟨s, hs, hm⟩ := holds_iff.mp hc
  exact h.awaits_of_mem hl hs hm

theorem mem_followOn_of_holds (h : CanonicalFor g a) (hc : a.Holds Item.lookaheads q c y) :
    y ∈ g.followOn c := by
  obtain ⟨s, hs, hm⟩ := holds_iff.mp hc
  obtain ⟨l, hl⟩ := h.reachable q s hs
  exact (h.awaits_of_mem hl hs hm).lookahead_mem_followOn

/-- The automaton of an LR(1) table guides a parser. -/
theorem guides (h : CanonicalFor g a) : a.Guides g Item.lookaheads where
  proper := h.proper
  initial := by
    obtain ⟨s, hs, hk⟩ := h.initial
    refine holds_iff.mpr ⟨s, hs, mem_closure_of_mem (h.closure_eq _ s hs) ?_⟩
    rw [hk]
    exact List.mem_singleton.mpr rfl
  predicted _ _ _ _ _ _ _ hc hr hp hz := h.holds_predicted hc hr hp hz
  shifted _ _ _ _ hc hx := h.holds_shifted hc hx
  awaits _ _ _ _ hl hc := (h.awaits_of_holds hl hc).core
  endOfInput _ c y hc hp := by
    have hy := h.mem_followOn_of_holds hc
    rwa [Grammar.followOn_accept hp, List.mem_singleton] at hy

/-! ### Merged items -/

/-- A merged state holds what its members hold. -/
theorem holds_mergeByCore_iff (h : CanonicalFor g a) :
    a.mergeByCore.Holds Item.lookaheads q c y ↔
      ∃ q₀, a.mergedId q₀ = q ∧ a.Holds Item.lookaheads q₀ c y := by
  constructor
  · intro hc
    obtain ⟨S, m, hS, hm, hmc, hy⟩ := hc
    obtain ⟨q₀, s₀, hs₀, hq, hm₀⟩ :=
      (Automaton.exists_lookahead_iff h.size_le hS).mp ⟨m, hm, hmc, hy⟩
    exact ⟨q₀, hq, holds_iff.mpr ⟨s₀, hs₀, hm₀⟩⟩
  · intro hc
    obtain ⟨q₀, rfl, hc⟩ := hc
    obtain ⟨s₀, hs₀, hm₀⟩ := holds_iff.mp hc
    obtain ⟨S, hS⟩ := Automaton.exists_state?_mergedId h.size_le hs₀
    obtain ⟨m, hm, hmc, hy⟩ :=
      (Automaton.exists_lookahead_iff h.size_le hS).mpr ⟨q₀, s₀, hs₀, rfl, hm₀⟩
    exact ⟨S, m, hS, hm, hmc, hy⟩

theorem holds_mergedId (h : CanonicalFor g a) (hc : a.Holds Item.lookaheads q c y) :
    a.mergeByCore.Holds Item.lookaheads (a.mergedId q) c y :=
  (holds_mergeByCore_iff h).mpr ⟨q, rfl, hc⟩

theorem awaits_mergeByCore (h : CanonicalFor g a) {l : List Symbol}
    (hl : a.mergeByCore.after? l = some q) (hc : a.mergeByCore.Holds Item.lookaheads q c y) :
    g.Awaits l c := by
  obtain ⟨q₀, rfl, hc₀⟩ := (holds_mergeByCore_iff h).mp hc
  rw [h.after?_mergeByCore, Option.map_eq_some_iff] at hl
  obtain ⟨q₁, hl, hq⟩ := hl
  obtain ⟨s₀, hs₀, hm₀⟩ := holds_iff.mp hc₀
  obtain ⟨s₁, hs₁⟩ := h.exists_state hl
  obtain ⟨j, hj, hjc⟩ := h.exists_item_of_sameKernelCores hs₀ hs₁
    ((Automaton.mergedId_eq_iff h.size_le hs₀ hs₁).mp hq.symm) hm₀
  have hcore := (h.awaits_of_mem hl hs₁ hj).core
  rwa [hjc] at hcore

theorem mem_followOn_of_holds_mergeByCore (h : CanonicalFor g a)
    (hc : a.mergeByCore.Holds Item.lookaheads q c y) : y ∈ g.followOn c := by
  obtain ⟨q₀, -, hc⟩ := (holds_mergeByCore_iff h).mp hc
  exact h.mem_followOn_of_holds hc

theorem proper_mergeByCore (h : CanonicalFor g a) : a.mergeByCore.Proper :=
  ⟨Nat.le_trans Automaton.size_mergeByCore_le h.size_le,
    fun _ _ hS => h.nodup_transitions_mergeByCore hS⟩

/-- The automaton of an LALR(1) table guides a parser. -/
theorem guides_mergeByCore (h : CanonicalFor g a) : a.mergeByCore.Guides g Item.lookaheads where
  proper := h.proper_mergeByCore
  initial := by
    obtain ⟨s, hs, -⟩ := h.initial
    have hc := h.holds_mergedId h.guides.initial
    rwa [Automaton.mergedId_initial hs] at hc
  predicted q c y x rest p z hc hr hp hz := by
    obtain ⟨q₀, rfl, hc₀⟩ := (holds_mergeByCore_iff h).mp hc
    exact h.holds_mergedId (h.holds_predicted hc₀ hr hp hz)
  shifted q c y x hc hx := by
    obtain ⟨q₀, rfl, hc₀⟩ := (holds_mergeByCore_iff h).mp hc
    obtain ⟨q₁, hstep, hc₁⟩ := h.holds_shifted hc₀ hx
    obtain ⟨s₀, hs₀, -⟩ := holds_iff.mp hc₀
    refine ⟨a.mergedId q₁, ?_, h.holds_mergedId hc₁⟩
    rw [h.step?_mergeByCore hs₀, hstep, Option.map_some]
  awaits _ _ _ _ hl hc := h.awaits_mergeByCore hl hc
  endOfInput _ c y hc hp := by
    have hy := h.mem_followOn_of_holds_mergeByCore hc
    rwa [Grammar.followOn_accept hp, List.mem_singleton] at hy

end Lookahead

/-! ### Bare cores -/

section Bare

variable {a : Automaton DottedRule} {q : StateId} {c : DottedRule} {x y : Symbol}

theorem holds_bare_iff {reduceOn : DottedRule → List Symbol} :
    a.Holds reduceOn q c y ↔ ∃ s, a.state? q = some s ∧ c ∈ s.items ∧ y ∈ reduceOn c := by
  constructor
  · intro h
    obtain ⟨s, m, hs, hm, rfl, hy⟩ := h
    exact ⟨s, hs, hm, hy⟩
  · intro h
    obtain ⟨s, hs, hm, hy⟩ := h
    exact ⟨s, c, hs, hm, rfl, hy⟩

theorem holds_of_awaits (h : CanonicalFor g a) {reduceOn : DottedRule → List Symbol}
    {l : List Symbol} (hl : a.after? l = some q) (hc : g.Awaits l c) (hy : y ∈ reduceOn c) :
    a.Holds reduceOn q c y := by
  obtain ⟨s, hs⟩ := h.exists_state hl
  exact holds_bare_iff.mpr ⟨s, hs, (h.mem_items_iff hl hs).mpr hc, hy⟩

/-- The automaton of an SLR(1) table guides a parser. -/
theorem guides_followOn (h : CanonicalFor g a) : a.Guides g g.followOn where
  proper := h.proper
  initial := by
    apply h.holds_of_awaits Automaton.after?_nil .initial
    rw [Grammar.followOn_accept rfl]
    exact List.mem_singleton.mpr rfl
  predicted q c y x rest p z hc hr hp hz := by
    obtain ⟨s, hs, hm, hy⟩ := holds_bare_iff.mp hc
    have hx := Grammar.head?_of_mem_alternatives hp
    refine holds_bare_iff.mpr ⟨s, hs, h.mem_of_predicts hs hm ?_, ?_⟩
    · exact DottedRule.predicts_iff.mpr ⟨x, DottedRule.next?_eq_some_iff.mpr ⟨rest, hr⟩, hp, rfl⟩
    · rw [Grammar.mem_followOn_iff hx]
      exact Grammar.mem_follow_of_mem_followOn (h.admissible hs hm).production_mem hr
        (Grammar.mem_nonterminals_of_head? hx) hy hz
  shifted q c y x hc hx := by
    obtain ⟨s, hs, hm, hy⟩ := holds_bare_iff.mp hc
    obtain ⟨q', s', hq', hs', hm'⟩ := h.exists_step hs hm hx
    exact ⟨q', Automaton.step?_eq_some.mpr ⟨s, hs, hq'⟩, holds_bare_iff.mpr ⟨s', hs', hm', hy⟩⟩
  awaits _ _ _ _ hl hc := by
    obtain ⟨s, hs, hm, -⟩ := holds_bare_iff.mp hc
    exact h.awaits_of_mem hl hs hm
  endOfInput q c y hc hp := by
    obtain ⟨s, hs, hm, hy⟩ := holds_bare_iff.mp hc
    rwa [Grammar.followOn_accept hp, List.mem_singleton] at hy

end Bare

end CanonicalFor

end GrammarTables
