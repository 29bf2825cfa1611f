import GrammarTables.Proofs.Guides
import GrammarTables.Table.Basic

/-!
# What a verdict says

A grammar belongs to the SLR(1), LR(1) or LALR(1) discipline exactly if it is not cyclic and its
automaton has no conflict on the tokens of the discipline.
-/

namespace GrammarTables.Grammar

variable {g : Grammar}

/-! ### Tables with lookahead -/

private theorem acyclic_bind_eq_ok_iff {ι : Type} {built : Except GrammarError (Automaton ι)}
    {table : Automaton ι → Table} {t : Table} :
    (g.checkAcyclic >>= fun _ => built >>= fun a => .ok (table a)) = .ok t ↔
      g.checkAcyclic = .ok () ∧ ∃ a, built = .ok a ∧ t = table a := by
  rw [bind_eq_ok_iff]
  constructor
  · intro h
    obtain ⟨_, hg, h⟩ := h
    obtain ⟨a, ha, h⟩ := bind_eq_ok_iff.mp h
    cases h
    exact ⟨hg, a, ha, rfl⟩
  · intro h
    obtain ⟨hg, a, ha, rfl⟩ := h
    exact ⟨(), hg, bind_eq_ok_iff.mpr ⟨a, ha, rfl⟩⟩

theorem table_lr0_iff {t : Table} : g.table .lr0 = .ok t ↔ g.checkAcyclic = .ok () ∧
    ∃ a, g.lr0Automaton = .ok a ∧ t = .uniform (.ofAutomaton g a) :=
  acyclic_bind_eq_ok_iff

theorem table_slr1_iff {t : Table} : g.table .slr1 = .ok t ↔ g.checkAcyclic = .ok () ∧
    ∃ a, g.lr0Automaton = .ok a ∧ t = .action (.ofAutomaton g g.followOn a) :=
  acyclic_bind_eq_ok_iff

theorem table_lr1_iff {t : Table} : g.table .lr1 = .ok t ↔ g.checkAcyclic = .ok () ∧
    ∃ a, g.lr1Automaton = .ok a ∧ t = .action (.ofAutomaton g Item.lookaheads a) :=
  acyclic_bind_eq_ok_iff

theorem table_lalr1_iff {t : Table} : g.table .lalr1 = .ok t ↔ g.checkAcyclic = .ok () ∧
    ∃ a, g.lr1Automaton = .ok a ∧ t = .action (.ofAutomaton g Item.lookaheads a.mergeByCore) := by
  have h : g.table .lalr1 = .ok t ↔ g.checkAcyclic = .ok () ∧
      ∃ m, g.lalr1Automaton = .ok m ∧ t = .action (.ofAutomaton g Item.lookaheads m) :=
    acyclic_bind_eq_ok_iff
  rw [h]
  simp only [lalr1Automaton, bind_eq_ok_iff, pure, Except.pure, Except.ok.injEq]
  grind

theorem classify_eq_ok_iff {d : Discipline} :
    g.classify d = .ok () ↔ ∃ t, g.table d = .ok t ∧ t.check g d = .ok () := by
  rw [classify, bind_eq_ok_iff]
  simp only [rejecting_eq_ok_iff]

private theorem conflicting_eq_ok_iff {c : Except Conflict Unit} :
    conflicting c = .ok () ↔ c = .ok () := by
  cases c with
  | error c => simp [conflicting]
  | ok u => simp [conflicting]

theorem conflicting_eq_error_iff {c : Except Conflict Unit} {e : Rejection} :
    conflicting c = .error e ↔ ∃ conflict, c = .error conflict ∧ e = .conflict conflict := by
  cases c with
  | error c => simp [conflicting, eq_comm]
  | ok u => simp [conflicting]

theorem classify_eq_check {d : Discipline} {t : Table} (h : g.table d = .ok t) :
    g.classify d = t.check g d := by
  rw [classify, h]
  rfl

private theorem classify_iff_of_table {ι κ : Type} [Item κ] {d : Discipline}
    {built : Except GrammarError (Automaton ι)} {used : Automaton ι → Automaton κ}
    {reduceOn : κ → List Symbol} (hproper : ∀ a, built = .ok a → (used a).Proper)
    (ht : ∀ t, g.table d = .ok t ↔ g.checkAcyclic = .ok () ∧
      ∃ a, built = .ok a ∧ t = .action (.ofAutomaton g reduceOn (used a))) :
    g.classify d = .ok () ↔ g.checkAcyclic = .ok () ∧
      ∃ a, built = .ok a ∧ (used a).ConflictFree g reduceOn := by
  have hcheck (a : Automaton ι) (ha : built = .ok a) :
      Table.check g d (.action (.ofAutomaton g reduceOn (used a))) = .ok () ↔
        (used a).ConflictFree g reduceOn :=
    conflicting_eq_ok_iff.trans (ActionTable.check_eq_ok_iff (hproper a ha))
  rw [classify_eq_ok_iff]
  constructor
  · intro h
    obtain ⟨t, htable, hc⟩ := h
    obtain ⟨hg, a, ha, rfl⟩ := (ht t).mp htable
    exact ⟨hg, a, ha, (hcheck a ha).mp hc⟩
  · intro h
    obtain ⟨hg, a, ha, hfree⟩ := h
    exact ⟨_, (ht _).mpr ⟨hg, a, ha, rfl⟩, (hcheck a ha).mpr hfree⟩

theorem classify_slr1_iff : g.classify .slr1 = .ok () ↔ g.checkAcyclic = .ok () ∧
    ∃ a, g.lr0Automaton = .ok a ∧ a.ConflictFree g g.followOn :=
  classify_iff_of_table (fun _ ha => (canonicalFor_of_eq_ok ha).proper)
    fun _ => table_slr1_iff

theorem classify_lr1_iff : g.classify .lr1 = .ok () ↔ g.checkAcyclic = .ok () ∧
    ∃ a, g.lr1Automaton = .ok a ∧ a.ConflictFree g Item.lookaheads :=
  classify_iff_of_table (fun _ ha => (canonicalFor_of_eq_ok ha).proper)
    fun _ => table_lr1_iff

theorem classify_lalr1_iff : g.classify .lalr1 = .ok () ↔ g.checkAcyclic = .ok () ∧
    ∃ a, g.lr1Automaton = .ok a ∧ a.mergeByCore.ConflictFree g Item.lookaheads :=
  classify_iff_of_table (fun _ ha => (canonicalFor_of_eq_ok ha).proper_mergeByCore)
    fun _ => table_lalr1_iff

/-! ### Tables without lookahead -/

/-- In an LR(0) table, a completed core reduces on every token. -/
def everyToken (g : Grammar) (_ : DottedRule) : List Symbol := .endOfInput :: g.terminals.toList

theorem mem_everyToken_iff {c : DottedRule} {y : Symbol} : y ∈ g.everyToken c ↔ g.IsToken y := by
  rw [everyToken, List.mem_cons, OrderedSet.mem_toList, IsToken, or_comm]

section Uniform

variable {a : Automaton DottedRule} {q : StateId} {s : State DottedRule}

private theorem checkRow_eq_ok_iff {row : UniformRow} : UniformTable.checkRow g row = .ok () ↔
    row.reduces.length ≤ 1 ∧ (row.reduces ≠ [] → ∀ e ∈ row.shifts, e.1 ∉ g.terminals) := by
  rw [UniformTable.checkRow]
  by_cases hlt : 1 < row.reduces.length
  · simp [hlt, Nat.not_le.mpr hlt]
  · by_cases hnil : row.reduces = []
    · simp [hnil]
    · have hempty : row.reduces.isEmpty = false := by simpa using hnil
      cases hfind : (row.shifts.map Prod.fst).find? g.isTerminal with
      | none =>
        rw [List.find?_eq_none] at hfind
        have hall : ∀ e ∈ row.shifts, e.1 ∉ g.terminals := fun e he =>
          isTerminal_iff.not.mp (hfind e.1 (List.mem_map_of_mem he))
        simpa [hlt, hempty, Nat.not_lt.mp hlt] using fun _ x q he => hall (x, q) he
      | some y =>
        obtain ⟨e, he, rfl⟩ := List.mem_map.mp (List.mem_of_find?_eq_some hfind)
        have ht := isTerminal_iff.mp (List.find?_some hfind)
        simpa [hlt, hnil, hempty] using fun _ => ⟨e.1, ⟨e.2, he⟩, ht⟩

theorem mem_completed_productions_iff {p : ProductionId} :
    p ∈ (OrderedSet.ofList ((s.completed g).map DottedRule.production)).toList ↔
      ∃ c ∈ s.items, c.isComplete g = true ∧ c.production = p := by
  rw [OrderedSet.mem_toList, OrderedSet.mem_ofList, List.mem_map]
  simp only [State.completed, List.mem_filter, and_assoc]
  rfl

private theorem check_uniform_eq_ok_iff_states (ha : a.size ≤ 65536) :
    (UniformTable.ofAutomaton g a).check g = .ok () ↔ ∀ q s, a.state? q = some s →
      ∀ c ∈ s.items, c.isComplete g = true →
        (∀ c' ∈ s.items, c'.isComplete g = true → c.production = c'.production) ∧
          ∀ e ∈ s.transitions, e.1 ∉ g.terminals := by
  rw [UniformTable.check, forM_eq_ok_iff]
  constructor
  · intro h q s hs c hc hcomp
    have hm := (Automaton.mem_states_iff ha).mpr ⟨q, hs⟩
    have hrow := h _ (Array.mem_toList_iff.mpr (Array.mem_map_of_mem (Array.mem_toList_iff.mp hm)))
    obtain ⟨hle, hshift⟩ := checkRow_eq_ok_iff.mp hrow
    have hmem := mem_completed_productions_iff.mpr ⟨c, hc, hcomp, rfl⟩
    refine ⟨fun c' hc' hcomp' => ?_, hshift (List.ne_nil_of_mem hmem)⟩
    have hmem' := mem_completed_productions_iff.mpr ⟨c', hc', hcomp', rfl⟩
    exact ActionTable.eq_of_length_le_one hle hmem hmem'
  · intro h row hrow
    rw [Array.mem_toList_iff, UniformTable.ofAutomaton, Array.mem_map] at hrow
    obtain ⟨s, hs, rfl⟩ := hrow
    obtain ⟨q, hq⟩ := Automaton.exists_state?_of_mem ha hs
    rw [checkRow_eq_ok_iff]
    constructor
    · apply ActionTable.length_le_one (OrderedSet.nodup_toList _)
      intro p hp p' hp'
      obtain ⟨c, hc, hcomp, rfl⟩ := mem_completed_productions_iff.mp hp
      obtain ⟨c', hc', hcomp', rfl⟩ := mem_completed_productions_iff.mp hp'
      exact (h q s hq c hc hcomp).1 c' hc' hcomp'
    · intro hne
      obtain ⟨p, hp⟩ := List.exists_mem_of_ne_nil _ hne
      obtain ⟨c, hc, hcomp, rfl⟩ := mem_completed_productions_iff.mp hp
      exact (h q s hq c hc hcomp).2

/-- The check of a uniform table accepts exactly the automata without conflict on any token. -/
theorem check_uniform_eq_ok_iff (ha : CanonicalFor g a) :
    (UniformTable.ofAutomaton g a).check g = .ok () ↔ a.ConflictFree g g.everyToken := by
  rw [check_uniform_eq_ok_iff_states ha.size_le]
  constructor
  · intro h
    constructor
    · intro q c c' y hc hc' hcomp hcomp'
      obtain ⟨s, hs, hm, -⟩ := CanonicalFor.holds_bare_iff.mp hc
      obtain ⟨s', hs', hm', -⟩ := CanonicalFor.holds_bare_iff.mp hc'
      obtain rfl : s = s' := Option.some.inj (hs.symm.trans hs')
      exact (h q s hs c hm hcomp).1 c' hm' hcomp'
    · intro q c y hc hcomp hy
      obtain ⟨s, hs, hm, -⟩ := CanonicalFor.holds_bare_iff.mp hc
      rw [Option.eq_none_iff_forall_not_mem]
      intro q' hq'
      obtain ⟨s', hs', hx⟩ := Automaton.step?_eq_some.mp hq'
      obtain rfl : s = s' := Option.some.inj (hs.symm.trans hs')
      obtain ⟨i, -, hi⟩ := (ha.isSome_next? q s hs y).mp (by rw [hx]; rfl)
      have ht := (lookup_eq_some_iff_mem (ha.nodup_transitions q s hs)).mp hx
      exact (h q s hs c hm hcomp).2 _ ht
        ((mem_terminals_or_nonterminals_of_next? hi).resolve_right hy)
  · intro h q s hs c hc hcomp
    have hholds {c : DottedRule} {y : Symbol} (hc : c ∈ s.items) (hy : g.IsToken y) :
        a.Holds g.everyToken q c y :=
      CanonicalFor.holds_bare_iff.mpr ⟨s, hs, hc, mem_everyToken_iff.mpr hy⟩
    constructor
    · intro c' hc' hcomp'
      exact h.production_eq q c c' _ (hholds hc (Or.inr rfl)) (hholds hc' (Or.inr rfl)) hcomp hcomp'
    · intro e he ht
      have hnone := h.step?_eq_none q c e.1 (hholds hc (Or.inl ht)) hcomp
        (not_mem_nonterminals_of_terminal ht)
      rw [Automaton.step?, hs, Option.bind_some, State.next?,
        (lookup_eq_some_iff_mem (ha.nodup_transitions q s hs)).mpr he] at hnone
      cases hnone

theorem classify_lr0_iff : g.classify .lr0 = .ok () ↔ g.checkAcyclic = .ok () ∧
    ∃ a, g.lr0Automaton = .ok a ∧ a.ConflictFree g g.everyToken := by
  rw [classify_eq_ok_iff]
  constructor
  · intro h
    obtain ⟨t, ht, hcheck⟩ := h
    obtain ⟨hg, a, ha, rfl⟩ := table_lr0_iff.mp ht
    refine ⟨hg, a, ha, (check_uniform_eq_ok_iff (canonicalFor_of_eq_ok ha)).mp ?_⟩
    exact conflicting_eq_ok_iff.mp hcheck
  · intro h
    obtain ⟨hg, a, ha, hfree⟩ := h
    refine ⟨_, table_lr0_iff.mpr ⟨hg, a, ha, rfl⟩, conflicting_eq_ok_iff.mpr ?_⟩
    exact (check_uniform_eq_ok_iff (canonicalFor_of_eq_ok ha)).mpr hfree

theorem isToken_of_mem_followOn {c : DottedRule} {y : Symbol} (hy : y ∈ g.followOn c) :
    g.IsToken y := by
  cases hx : g.head? c.production with
  | none =>
    rw [followOn, hx, List.mem_singleton] at hy
    exact Or.inr hy
  | some x => exact isToken_of_mem_follow ((mem_followOn_iff hx).mp hy)

/-- An LR(0) table without conflict has none with FOLLOW sets either. -/
theorem classify_slr1_of_lr0 (h : g.classify .lr0 = .ok ()) : g.classify .slr1 = .ok () := by
  obtain ⟨hg, a, ha, hfree⟩ := classify_lr0_iff.mp h
  refine classify_slr1_iff.mpr ⟨hg, a, ha, hfree.of_holds ?_⟩
  intro q c y hc
  obtain ⟨s, hs, hm, hy⟩ := CanonicalFor.holds_bare_iff.mp hc
  exact CanonicalFor.holds_bare_iff.mpr
    ⟨s, hs, hm, mem_everyToken_iff.mpr (isToken_of_mem_followOn hy)⟩

end Uniform

end GrammarTables.Grammar
