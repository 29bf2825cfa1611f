import GrammarTables.Proofs.BreadthFirst
import GrammarTables.Proofs.Verdicts

/-!
# Where tables accept

The start symbol leads from the initial state to state one, and nothing else is accepted than what
led there: a table with lookahead accepts in state one at the end of the input, and an LR(0) table
in state one. Actions are on tokens, of which the end of the input is never shifted, and
nonterminals select the states to go to (`acceptsOnce_tables`).
-/

namespace GrammarTables

/-! ### The state after the start symbol -/

theorem OrderedSet.get?_one_ofList {α : Type} [Ord α] [Std.TransOrd α] [Std.LawfulEqOrd α]
    {a b : α} (h : a ≠ b) (l : List α) : (ofList (a :: b :: l)).get? 1 = some b := by
  have hprefix : [a, b] <+: a :: b :: l := List.prefix_append [a, b] l
  apply get?_eq_some_of_isPrefix (ofList_isPrefix hprefix)
  rw [← getElem?_toList, toList_ofList_of_nodup (by simp [h])]
  rfl

theorem Automaton.after?_singleton {ι : Type} {a : Automaton ι} {x : Symbol} :
    a.after? [x] = a.step? (.ofIndex 0) x := by
  rw [← List.nil_append [x], after?_concat, after?_nil, Option.bind_some]

namespace CanonicalFor

variable {ι : Type} [PredictiveItem ι] [LawfulItem ι] {g : Grammar} {a : Automaton ι}
  {q : StateId} {s : State ι} {i : ι} {x : Symbol}

/-- Behind a symbol, the augmented production has been read in part. -/
theorem core_ne_initial (h : CanonicalFor g a) (hq : a.after? [x] = some q)
    (hs : a.state? q = some s) (hi : i ∈ s.items) : Item.core i ≠ .initial := by
  intro hcore
  cases (h.awaits_of_mem hq hs hi).eq_nil_of_accept hcore

theorem exists_initial (h : CanonicalFor g a) :
    ∃ s i, a.state? (.ofIndex 0) = some s ∧ i ∈ s.items ∧ Item.core i = .initial := by
  obtain ⟨s, hs, hk⟩ := h.initial
  refine ⟨s, _, hs, mem_closure_of_mem (h.closure_eq _ s hs) ?_, LawfulItem.core_initial⟩
  rw [hk]
  exact List.mem_singleton.mpr rfl

theorem after?_singleton_ne (h : CanonicalFor g a) : a.after? [x] ≠ some (.ofIndex 0) := by
  intro hx
  obtain ⟨s, i, hs, hi, hcore⟩ := h.exists_initial
  exact h.core_ne_initial hx hs hi hcore

end CanonicalFor

/-- States bear their numbers and can be reached, symbols of the grammar lead from one to another,
and the start symbol leads from the initial state to state one. -/
structure Automaton.Numbered {ι : Type} (g : Grammar) (a : Automaton ι) : Prop where
  id : ∀ q s, a.state? q = some s → s.id = q
  reachable : ∀ q s, a.state? q = some s → ∃ l, a.after? l = some q
  known : ∀ q s, a.state? q = some s →
    ∀ e ∈ s.transitions, e.1 ∈ g.terminals ∨ e.1 ∈ g.nonterminals
  step?_start : a.step? (.ofIndex 0) g.start = some (.ofIndex 1)

section Canonical

variable {ι : Type} [PredictiveItem ι] [LawfulItem ι] {g : Grammar} {a : Automaton ι}

theorem DottedRule.next?_initial (g : Grammar) : DottedRule.initial.next? g = some g.start := by
  rw [DottedRule.next?_eq_some_iff, DottedRule.remainder_eq]
  exact ⟨[], congrArg (List.drop 0) g.body_accept⟩

private theorem exists_transitions_initial (h : canonical ι g g.firstTable = .ok a) :
    ∃ s q l, a.state? (.ofIndex 0) = some s ∧ s.transitions = (g.start, q) :: l := by
  obtain ⟨e, he⟩ := canonical_eq_ok_iff.mp h
  obtain ⟨s, hs, hk⟩ := (canonicalFor_of_eq_ok h).initial
  obtain ⟨-, hclosure, -, htransitions⟩ := collected_spec he hs
  rw [hk] at hclosure
  obtain ⟨rest, hrest⟩ := kernel_isPrefix_closure (List.nodup_singleton _) hclosure
  have hnext : (Item.core (PredictiveItem.initial : ι)).next? g = some g.start := by
    rw [LawfulItem.core_initial, DottedRule.next?_initial]
  obtain ⟨j, l, hshifted⟩ : ∃ j l, shiftedItems g s.items = (g.start, j) :: l := by
    rw [← hrest, shiftedItems]
    exact ⟨_, _, List.filterMap_cons_some (by rw [hnext]; rfl)⟩
  have hfirst : (OrderedSet.ofList ((shiftedItems g s.items).map Prod.fst)).toList[0]? =
      some g.start := by
    rw [hshifted, OrderedSet.getElem?_toList]
    exact OrderedSet.get?_zero_ofList _ _
  obtain ⟨xs, hxs⟩ := List.head?_eq_some_iff.mp (List.head?_eq_getElem? ▸ hfirst)
  rw [successors_eq, hxs] at htransitions
  exact ⟨s, _, _, hs, htransitions⟩

/-- The start symbol leads to state one. -/
theorem step?_start (h : canonical ι g g.firstTable = .ok a) :
    a.step? (.ofIndex 0) g.start = some (.ofIndex 1) := by
  have hc := canonicalFor_of_eq_ok h
  obtain ⟨e, he⟩ := canonical_eq_ok_iff.mp h
  obtain ⟨s, q, l, hs, ht⟩ := exists_transitions_initial h
  have hstep : a.step? (.ofIndex 0) g.start = some q := by
    refine Automaton.step?_eq_some.mpr ⟨s, hs, ?_⟩
    rw [State.next?, lookup_eq_some_iff_mem (hc.nodup_transitions _ s hs), ht]
    exact List.mem_cons_self
  have hne : 0 ≠ q.index := by
    intro hzero
    rw [← Automaton.after?_singleton, ← StateId.ofIndex_index q, ← hzero] at hstep
    exact hc.after?_singleton_ne hstep
  -- so the number of its target is the first that the transitions name besides zero
  have hdiscovered : a.discovered.get? 1 = some q.index := by
    obtain ⟨states, hstates⟩ : ∃ states, a.states.toList = s :: states := by
      rw [← List.head?_eq_some_iff, List.head?_eq_getElem?, Array.getElem?_toList]
      exact hs
    rw [Automaton.discovered, hstates, List.flatMap_cons, ht]
    exact OrderedSet.get?_one_ofList hne _
  rw [← OrderedSet.getElem?_toList, toList_discovered he] at hdiscovered
  obtain ⟨hlt, hone⟩ := List.getElem?_eq_some_iff.mp hdiscovered
  rw [List.getElem_range] at hone
  rw [hstep, hone, StateId.ofIndex_index]

omit [LawfulItem ι] in
theorem known_of_mem_transitions {q : StateId} {s : State ι} (h : CanonicalFor g a)
    (hs : a.state? q = some s) :
    ∀ e ∈ s.transitions, e.1 ∈ g.terminals ∨ e.1 ∈ g.nonterminals := by
  intro e he
  have hnext := (lookup_eq_some_iff_mem (h.nodup_transitions q s hs)).mpr he
  obtain ⟨i, -, hi⟩ := (h.isSome_next? q s hs e.1).mp (Option.isSome_of_eq_some hnext)
  exact Grammar.mem_terminals_or_nonterminals_of_next? hi

theorem numbered_of_eq_ok (h : canonical ι g g.firstTable = .ok a) : a.Numbered g := by
  have hc := canonicalFor_of_eq_ok h
  obtain ⟨e, he⟩ := canonical_eq_ok_iff.mp h
  exact {
    id := fun q s hs => id_collected he hs
    reachable := hc.reachable
    known := fun q s hs => known_of_mem_transitions hc hs
    step?_start := step?_start h }

end Canonical

section Merged

variable {g : Grammar} {a : Automaton LookaheadItem}

private theorem exists_cons_cons {α : Type} {l : List α} {x y : α} (hx : l[0]? = some x)
    (hy : l[1]? = some y) : ∃ m, l = x :: y :: m := by
  match l, hx, hy with
  | _ :: _ :: m, rfl, rfl => exact ⟨m, rfl⟩

theorem mergedId_one (h : g.lr1Automaton = .ok a) : a.mergedId (.ofIndex 1) = .ofIndex 1 := by
  have hc := canonicalFor_of_eq_ok h
  have hone : a.after? [g.start] = some (.ofIndex 1) :=
    Automaton.after?_singleton.trans (step?_start h)
  obtain ⟨s₀, i, hs₀, hi, hcore⟩ := hc.exists_initial
  obtain ⟨s₁, hs₁⟩ := hc.exists_state hone
  have hne : s₀.collapse.kernelCores ≠ s₁.collapse.kernelCores := by
    intro heq
    have hmerged : a.mergedId (.ofIndex 0) = a.mergedId (.ofIndex 1) := by
      rw [Automaton.mergedId_eq hs₀, Automaton.mergedId_eq hs₁, heq]
    have hsame := (Automaton.mergedId_eq_iff hc.size_le hs₀ hs₁).mp hmerged
    obtain ⟨j, hj, hji⟩ := hc.exists_item_of_sameKernelCores hs₀ hs₁ hsame hi
    exact hc.core_ne_initial hone hs₁ hj (hji.trans hcore)
  have hkeys : (Automaton.coreClasses a.collapsed).keys.toList[1]? =
      some s₁.collapse.kernelCores := by
    obtain ⟨states, hstates⟩ : ∃ states, a.states.toList = s₀ :: s₁ :: states :=
      exists_cons_cons (Array.getElem?_toList.trans hs₀) (Array.getElem?_toList.trans hs₁)
    rw [Automaton.coreClasses, OrderedMap.keys_group, Automaton.collapsed, hstates,
      OrderedSet.getElem?_toList]
    exact OrderedSet.get?_one_ofList hne _
  rw [Automaton.mergedId_eq hs₁, OrderedSet.position?_eq_some_iff.mpr hkeys, Option.getD_some]

theorem numbered_mergeByCore (h : g.lr1Automaton = .ok a) : a.mergeByCore.Numbered g := by
  have hc := canonicalFor_of_eq_ok h
  have hnumbered := numbered_of_eq_ok h
  refine ⟨fun q S hS => Automaton.id_mergeByCore hc.size_le hS, fun q S hS => ?_,
    fun q S hS => ?_, ?_⟩
  · obtain ⟨q₀, s₀, hs₀, rfl, -⟩ := Automaton.exists_member hc.size_le hS
    obtain ⟨l, hl⟩ := hc.reachable q₀ s₀ hs₀
    exact ⟨l, by rw [hc.after?_mergeByCore, hl, Option.map_some]⟩
  · obtain ⟨q₀, s₀, hs₀, -, ht⟩ := Automaton.exists_member hc.size_le hS
    intro e he
    rw [ht] at he
    obtain ⟨e₀, he₀, rfl⟩ := List.mem_map.mp he
    exact hnumbered.known q₀ s₀ hs₀ e₀ he₀
  · obtain ⟨s₀, hs₀, -⟩ := hc.initial
    have hstep := hc.step?_mergeByCore (x := g.start) hs₀
    rwa [Automaton.mergedId_initial hs₀, hnumbered.step?_start, Option.map_some,
      mergedId_one h] at hstep

end Merged

/-! ### Cells -/

namespace Automaton.Numbered

variable {ι : Type} {g : Grammar} {a : Automaton ι} {s : State ι}

theorem state?_of_getElem? (h : a.Numbered g) (ha : a.size ≤ 65536) {i : Nat}
    (hs : a.states[i]? = some s) : a.state? (.ofIndex i) = some s ∧ s.id.index = i := by
  have hlt := (Array.getElem?_eq_some_iff.mp hs).1
  rw [size] at ha
  have hindex := StateId.index_ofIndex (i := i) (by omega)
  have hstate : a.state? (.ofIndex i) = some s := by rw [state?, hindex, hs]
  exact ⟨hstate, by rw [h.id _ s hstate, hindex]⟩

theorem ne_endOfInput (h : a.Numbered g) {q : StateId} (hs : a.state? q = some s)
    {e : Symbol × StateId} (he : e ∈ s.transitions) : e.1 ≠ .endOfInput := by
  intro hend
  rcases h.known q s hs e he with hknown | hknown
  · exact Grammar.endOfInput_not_mem_terminals (hend ▸ hknown)
  · exact Grammar.endOfInput_not_mem_nonterminals (hend ▸ hknown)

end Automaton.Numbered

/-- What completes the augmented production is held in state one, at the end of the input. -/
theorem Automaton.Guides.accept_iff {ι : Type} [Item ι] {g : Grammar} {a : Automaton ι}
    {reduceOn : ι → List Symbol} (h : a.Guides g reduceOn) (hn : a.Numbered g) (q : StateId)
    (y : Symbol) : (∃ c, a.Holds reduceOn q c y ∧ c.isComplete g = true ∧ c.production = .accept) ↔
      q = .ofIndex 1 ∧ y = .endOfInput := by
  constructor
  · rintro ⟨c, hc, hcomplete, haccept⟩
    obtain ⟨s, m, hs, hm, rfl, hy⟩ := hc
    obtain ⟨l, hl⟩ := hn.reachable q s hs
    have hholds : a.Holds reduceOn q (Item.core m) y := ⟨s, m, hs, hm, rfl, hy⟩
    refine ⟨?_, h.endOfInput q _ y hholds haccept⟩
    rw [(h.awaits l q _ y hl hholds).eq_start_of_accept haccept hcomplete,
      Automaton.after?_singleton, hn.step?_start] at hl
    exact (Option.some.inj hl).symm
  · rintro ⟨rfl, rfl⟩
    have hnext := DottedRule.next?_initial g
    obtain ⟨q, hq, hholds⟩ := h.shifted _ _ _ _ h.initial hnext
    rw [hn.step?_start, Option.some.injEq] at hq
    subst hq
    refine ⟨_, hholds, ?_, rfl⟩
    rw [DottedRule.isComplete_iff, DottedRule.dot_shifted hnext]
    exact Nat.le_of_eq (congrArg List.length g.body_accept)

namespace ActionTable

/-- The cell of state one at the end of the input accepts and no other, the end of the input is
never shifted, actions are on tokens and nonterminals select the states to go to. -/
structure AcceptsOnce (g : Grammar) (table : ActionTable) : Prop where
  state_eq : ∀ (i : Nat) (row : ActionRow), table.rows[i]? = some row → row.state.index = i
  accept_iff : ∀ q y, (∃ acts, table.cell? q y = some acts ∧ .accept ∈ acts.reduces) ↔
    q = .ofIndex 1 ∧ y = .endOfInput
  shift_eq_none : ∀ q acts, table.cell? q .endOfInput = some acts → acts.shift = none
  actions : ∀ row ∈ table.rows, ∀ y ∈ row.actions.keys, g.IsToken y ∧ y ∉ g.nonterminals
  gotos : ∀ row ∈ table.rows, ∀ e ∈ row.gotos, e.1 ∈ g.nonterminals ∧ ¬g.IsToken e.1

variable {ι : Type} [Item ι] {g : Grammar} {a : Automaton ι} {reduceOn : ι → List Symbol}

theorem acceptsOnce_ofAutomaton (h : a.Guides g reduceOn) (hn : a.Numbered g)
    (htoken : ∀ q c y, a.Holds reduceOn q c y → g.IsToken y) :
    (ofAutomaton g reduceOn a).AcceptsOnce g where
  state_eq i row hrow := by
    rw [ofAutomaton, Array.getElem?_map, Option.map_eq_some_iff] at hrow
    obtain ⟨s, hs, rfl⟩ := hrow
    exact (hn.state?_of_getElem? h.proper.size_le hs).2
  accept_iff q y := by
    rw [← h.accept_iff hn q y]
    constructor
    · rintro ⟨acts, hcell, haccept⟩
      exact (mem_reduces_iff hcell).mp haccept
    · rintro ⟨c, hc, hcomplete, haccept⟩
      rw [← haccept]
      exact exists_reduce hc hcomplete
  shift_eq_none q acts hcell := by
    rw [Option.eq_none_iff_forall_ne_some]
    intro q' hshift
    obtain ⟨-, hstep⟩ := step?_of_shift h.proper hcell hshift
    obtain ⟨s, hs, hnext⟩ := Automaton.step?_eq_some.mp hstep
    have hmem := (lookup_eq_some_iff_mem (h.proper.nodup_transitions q s hs)).mp hnext
    exact hn.ne_endOfInput hs hmem rfl
  actions row hrow y hy := by
    rw [ofAutomaton, Array.mem_map] at hrow
    obtain ⟨s, hs, rfl⟩ := hrow
    obtain ⟨q, hq⟩ := Automaton.exists_state?_of_mem h.proper.size_le hs
    obtain ⟨acts, hacts⟩ := Option.isSome_iff_exists.mp (OrderedMap.isSome_get?.mpr hy)
    have htok : g.IsToken y := by
      obtain ⟨⟨m, hm⟩, -⟩ := get?_actions.mp hacts
      cases m with
      | shift q' =>
        obtain ⟨ht, hnonterminal⟩ := shift_mem_movesOf.mp hm
        exact .inl ((hn.known q s hq _ ht).resolve_right hnonterminal)
      | reduce p =>
        obtain ⟨i, hi, -, -, hy⟩ := reduce_mem_movesOf.mp hm
        exact htoken q (Item.core i) y ⟨s, i, hq, hi, rfl, hy⟩
    exact ⟨htok, htok.not_mem_nonterminals⟩
  gotos row hrow e he := by
    rw [ofAutomaton, Array.mem_map] at hrow
    obtain ⟨s, -, rfl⟩ := hrow
    have hnonterminal := Grammar.isNonterminal_iff.mp (List.mem_filter.mp he).2
    exact ⟨hnonterminal, fun htoken => htoken.not_mem_nonterminals hnonterminal⟩

end ActionTable

namespace UniformTable

structure AcceptsOnce (table : UniformTable) : Prop where
  state_eq : ∀ (i : Nat) (row : UniformRow), table.rows[i]? = some row → row.state.index = i
  accept_iff : ∀ i : Nat, (∃ row, table.rows[i]? = some row ∧ .accept ∈ row.reduces) ↔ i = 1
  shifts : ∀ row ∈ table.rows, ∀ e ∈ row.shifts, e.1 ≠ .endOfInput

theorem acceptsOnce_ofAutomaton {g : Grammar} {a : Automaton DottedRule} (h : CanonicalFor g a)
    (hn : a.Numbered g) : (ofAutomaton g a).AcceptsOnce where
  state_eq i row hrow := by
    rw [ofAutomaton, Array.getElem?_map, Option.map_eq_some_iff] at hrow
    obtain ⟨s, hs, rfl⟩ := hrow
    exact (hn.state?_of_getElem? h.size_le hs).2
  accept_iff i := by
    have haccept (q : StateId) := h.guides_followOn.accept_iff hn q .endOfInput
    rw [ofAutomaton]
    simp only [Array.getElem?_map, Option.map_eq_some_iff]
    constructor
    · rintro ⟨row, ⟨s, hs, rfl⟩, hrow⟩
      obtain ⟨c, hc, hcomplete, hp⟩ := Grammar.mem_completed_productions_iff.mp hrow
      obtain ⟨hstate, hindex⟩ := hn.state?_of_getElem? h.size_le hs
      have hfollow : Symbol.endOfInput ∈ g.followOn c := by
        rw [Grammar.followOn_accept hp]
        exact List.mem_singleton.mpr rfl
      have hholds := CanonicalFor.holds_bare_iff.mpr ⟨s, hstate, hc, hfollow⟩
      obtain ⟨hone, -⟩ := (haccept _).mp ⟨c, hholds, hcomplete, hp⟩
      rw [← hindex, hn.id _ s hstate, hone]
      exact StateId.index_ofIndex (by decide)
    · rintro rfl
      obtain ⟨c, hholds, hcomplete, hp⟩ := (haccept _).mpr ⟨rfl, rfl⟩
      obtain ⟨s, hs, hc, -⟩ := CanonicalFor.holds_bare_iff.mp hholds
      refine ⟨_, ⟨s, ?_, rfl⟩, Grammar.mem_completed_productions_iff.mpr ⟨c, hc, hcomplete, hp⟩⟩
      rwa [Automaton.state?, StateId.index_ofIndex (by decide)] at hs
  shifts row hrow e he := by
    rw [ofAutomaton, Array.mem_map] at hrow
    obtain ⟨s, hs, rfl⟩ := hrow
    obtain ⟨q, hq⟩ := Automaton.exists_state?_of_mem h.size_le hs
    exact hn.ne_endOfInput hq he

end UniformTable

/-- The tables of a grammar whose automata can be built accept in one place. -/
theorem Grammar.acceptsOnce_tables (g : Grammar) :
    (∀ a, g.lr0Automaton = .ok a → (UniformTable.ofAutomaton g a).AcceptsOnce ∧
      (ActionTable.ofFollow g (g.followSets g.firstTable) a).AcceptsOnce g) ∧
    (∀ a, g.lr1Automaton = .ok a → (ActionTable.ofLookaheads g a).AcceptsOnce g) ∧
      ∀ a, g.lalr1Automaton = .ok a → (ActionTable.ofLookaheads g a).AcceptsOnce g := by
  refine ⟨fun a h => ?_, fun a h => ?_, fun m hm => ?_⟩
  · have hc := canonicalFor_of_eq_ok h
    have hn := numbered_of_eq_ok h
    refine ⟨UniformTable.acceptsOnce_ofAutomaton hc hn,
      ActionTable.acceptsOnce_ofAutomaton hc.guides_followOn hn fun q c y hholds => ?_⟩
    obtain ⟨-, -, -, hy⟩ := CanonicalFor.holds_bare_iff.mp hholds
    exact isToken_of_mem_followOn hy
  · have hc := canonicalFor_of_eq_ok h
    exact ActionTable.acceptsOnce_ofAutomaton hc.guides (numbered_of_eq_ok h)
      fun q c y hholds => isToken_of_mem_followOn (hc.mem_followOn_of_holds hholds)
  · obtain ⟨a, h, hm⟩ := bind_eq_ok_iff.mp hm
    cases hm
    have hc := canonicalFor_of_eq_ok h
    exact ActionTable.acceptsOnce_ofAutomaton hc.guides_mergeByCore (numbered_mergeByCore h)
      fun q c y hholds => isToken_of_mem_followOn (hc.mem_followOn_of_holds_mergeByCore hholds)

/-- Nested parentheses have tables of all four kinds. -/
theorem Grammar.acceptsOnce_tables_nested : ∃ a b m, nested.lr0Automaton = .ok a ∧
    nested.lr1Automaton = .ok b ∧ nested.lalr1Automaton = .ok m ∧
      (UniformTable.ofAutomaton nested a).AcceptsOnce ∧
      (ActionTable.ofFollow nested (nested.followSets nested.firstTable) a).AcceptsOnce nested ∧
      (ActionTable.ofLookaheads nested b).AcceptsOnce nested ∧
        (ActionTable.ofLookaheads nested m).AcceptsOnce nested := by
  obtain ⟨a, ha⟩ := exists_of_isOk (c := nested.lr0Automaton) (by decide +kernel)
  obtain ⟨b, hb⟩ := exists_of_isOk (c := nested.lr1Automaton) (by decide +kernel)
  obtain ⟨m, hm⟩ := exists_of_isOk (c := nested.lalr1Automaton) (by decide +kernel)
  obtain ⟨hlr0, hlr1, hlalr1⟩ := acceptsOnce_tables nested
  exact ⟨a, b, m, ha, hb, hm, (hlr0 a ha).1, (hlr0 a ha).2, hlr1 b hb, hlalr1 m hm⟩

end GrammarTables
