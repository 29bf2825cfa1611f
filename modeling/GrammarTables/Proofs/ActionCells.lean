import GrammarTables.Proofs.CanonicalCollection
import GrammarTables.Proofs.Outcomes
import GrammarTables.Table.Action

/-!
# Cells of a table with lookahead

A cell shifts along the transition of its state, and it reduces the completed items of its state
that reduce on its token. The check of a table accepts exactly the tables of automata without
conflict (`check_eq_ok_iff`).
-/

namespace GrammarTables

namespace Automaton

variable {ι : Type}

/-- States have numbers, and a symbol leads to one state at most. -/
structure Proper (a : Automaton ι) : Prop where
  size_le : a.size ≤ 65536
  nodup_transitions : ∀ q s, a.state? q = some s → (s.transitions.map Prod.fst).Nodup

/-- The state has an item with the core that reduces on the token once it is complete. -/
def Holds [Item ι] (a : Automaton ι) (reduceOn : ι → List Symbol) (q : StateId) (c : DottedRule)
    (y : Symbol) : Prop :=
  ∃ s m, a.state? q = some s ∧ m ∈ s.items ∧ Item.core m = c ∧ y ∈ reduceOn m

/-- No state can do two things on one token. -/
structure ConflictFree [Item ι] (g : Grammar) (a : Automaton ι) (reduceOn : ι → List Symbol) :
    Prop where
  production_eq : ∀ q c c' y, a.Holds reduceOn q c y → a.Holds reduceOn q c' y →
    c.isComplete g = true → c'.isComplete g = true → c.production = c'.production
  step?_eq_none : ∀ q c y, a.Holds reduceOn q c y → c.isComplete g = true → y ∉ g.nonterminals →
    a.step? q y = none

theorem ConflictFree.of_holds [Item ι] {g : Grammar} {a : Automaton ι}
    {reduceOn reduceOn' : ι → List Symbol} (h : a.ConflictFree g reduceOn)
    (hsub : ∀ q c y, a.Holds reduceOn' q c y → a.Holds reduceOn q c y) :
    a.ConflictFree g reduceOn' where
  production_eq q c c' y hc hc' := h.production_eq q c c' y (hsub q c y hc) (hsub q c' y hc')
  step?_eq_none q c y hc := h.step?_eq_none q c y (hsub q c y hc)

end Automaton

namespace ActionTable

variable {ι : Type} [Item ι] {g : Grammar} {reduceOn : ι → List Symbol} {a : Automaton ι}
  {q q' : StateId} {s : State ι} {x y : Symbol} {p : ProductionId} {acts : Actions}

theorem shift_mem_movesOf :
    (y, .shift q') ∈ movesOf g reduceOn s ↔ (y, q') ∈ s.transitions ∧ y ∉ g.nonterminals := by
  simp [movesOf, Grammar.isNonterminal, ← OrderedSet.contains_iff]

theorem reduce_mem_movesOf : (y, .reduce p) ∈ movesOf g reduceOn s ↔
    ∃ m ∈ s.items, (Item.core m).isComplete g = true ∧ (Item.core m).production = p ∧
      y ∈ reduceOn m := by
  simp only [movesOf, State.completed, List.mem_append, List.mem_map, List.mem_filter,
    List.mem_flatMap, Prod.mk.injEq, Prod.exists]
  grind

private theorem shift?_eq_some_iff {m : Move} : m.shift? = some q' ↔ m = .shift q' := by
  cases m with
  | shift next => simp [Move.shift?]
  | reduce production => simp [Move.shift?]

private theorem reduce?_eq_some_iff {m : Move} : m.reduce? = some p ↔ m = .reduce p := by
  cases m with
  | shift next => simp [Move.reduce?]
  | reduce production => simp [Move.reduce?]

private theorem shift_mem_filterMap {moves : List Move} :
    q' ∈ moves.filterMap Move.shift? ↔ .shift q' ∈ moves := by
  simp [List.mem_filterMap, shift?_eq_some_iff]

theorem reduce_mem_filterMap {moves : List Move} :
    p ∈ moves.filterMap Move.reduce? ↔ .reduce p ∈ moves := by
  simp [List.mem_filterMap, reduce?_eq_some_iff]

def cellMoves (g : Grammar) (reduceOn : ι → List Symbol) (s : State ι) (y : Symbol) :
    List Move :=
  ((movesOf g reduceOn s).filter (·.1 = y)).map Prod.snd

theorem mem_cellMoves {m : Move} :
    m ∈ cellMoves g reduceOn s y ↔ (y, m) ∈ movesOf g reduceOn s := by
  simp [cellMoves]

private theorem row?_ofAutomaton {row : ActionRow} :
    (ofAutomaton g reduceOn a).row? q = some row ↔ ∃ s, a.state? q = some s ∧
      row = { state := s.id
              actions := (OrderedMap.group (movesOf g reduceOn s)).mapValues Actions.ofMoves
              gotos := s.transitions.filter fun e => g.isNonterminal e.1 } := by
  rw [row?, ofAutomaton, Array.getElem?_map, Option.map_eq_some_iff]
  simp only [Automaton.state?, eq_comm]

theorem get?_actions : ((OrderedMap.group (movesOf g reduceOn s)).mapValues
      Actions.ofMoves).get? y = some acts ↔
    (∃ m, (y, m) ∈ movesOf g reduceOn s) ∧ acts = .ofMoves (cellMoves g reduceOn s y) := by
  have hkey : y ∈ (movesOf g reduceOn s).map Prod.fst ↔ ∃ m, (y, m) ∈ movesOf g reduceOn s := by
    simp
  rw [OrderedMap.get?_mapValues, OrderedMap.get?_group, ← hkey]
  split
  · rename_i h
    simp [h, cellMoves, eq_comm]
  · rename_i h
    simp [h]

private theorem shifts_cellMoves : (cellMoves g reduceOn s y).filterMap Move.shift? =
    ((s.transitions.filter fun e => !g.isNonterminal e.1).filter (·.1 = y)).map Prod.snd := by
  have hreduces : (((s.completed g).flatMap fun item => (reduceOn item).map fun token =>
      (token, Move.reduce (Item.core item).production)).filter (·.1 = y)).filterMap
        (Move.shift? ∘ Prod.snd) = [] := by
    rw [List.filterMap_eq_nil_iff]
    intro e he
    obtain ⟨item, -, he⟩ := List.mem_flatMap.mp (List.mem_filter.mp he).1
    obtain ⟨token, -, rfl⟩ := List.mem_map.mp he
    rfl
  rw [cellMoves, movesOf, List.filterMap_map, List.filter_append, List.filterMap_append, hreduces,
    List.append_nil, List.filter_map, List.filterMap_map]
  exact congrFun List.filterMap_eq_map _

theorem shift_actions : (((OrderedMap.group (movesOf g reduceOn s)).mapValues
      Actions.ofMoves).get? y).bind Actions.shift =
    (((s.transitions.filter fun e => !g.isNonterminal e.1).filter (·.1 = y)).map
      Prod.snd).getLast? := by
  rw [← shifts_cellMoves]
  cases h : ((OrderedMap.group (movesOf g reduceOn s)).mapValues Actions.ofMoves).get? y with
  | some acts =>
    obtain ⟨-, rfl⟩ := get?_actions.mp h
    rfl
  | none =>
    have hnil : cellMoves g reduceOn s y = [] := by
      rw [List.eq_nil_iff_forall_not_mem]
      intro m hm
      have hsome := get?_actions.mpr ⟨⟨m, mem_cellMoves.mp hm⟩, rfl⟩
      rw [h] at hsome
      cases hsome
    rw [hnil]
    rfl

theorem cell?_ofAutomaton : (ofAutomaton g reduceOn a).cell? q y = some acts ↔
    ∃ s, a.state? q = some s ∧ (∃ m, (y, m) ∈ movesOf g reduceOn s) ∧
      acts = .ofMoves (cellMoves g reduceOn s y) := by
  have hb : (ofAutomaton g reduceOn a).cell? q y =
      ((ofAutomaton g reduceOn a).row? q).bind fun row => row.actions.get? y := rfl
  rw [hb, Option.bind_eq_some_iff]
  constructor
  · intro h
    obtain ⟨row, hrow, hacts⟩ := h
    obtain ⟨s, hs, rfl⟩ := row?_ofAutomaton.mp hrow
    exact ⟨s, hs, get?_actions.mp hacts⟩
  · intro h
    obtain ⟨s, hs, hacts⟩ := h
    exact ⟨_, row?_ofAutomaton.mpr ⟨s, hs, rfl⟩, get?_actions.mpr hacts⟩

private theorem mem_reduces_ofMoves {moves : List Move} :
    p ∈ (Actions.ofMoves moves).reduces ↔ .reduce p ∈ moves := by
  rw [Actions.ofMoves, OrderedSet.mem_toList, OrderedSet.mem_ofList, reduce_mem_filterMap]

private theorem mem_of_shift_ofMoves {moves : List Move}
    (h : (Actions.ofMoves moves).shift = some q') : .shift q' ∈ moves :=
  shift_mem_filterMap.mp (List.mem_of_getLast? h)

private theorem exists_shift_ofMoves {moves : List Move} (h : .shift q' ∈ moves) :
    ∃ q'', (Actions.ofMoves moves).shift = some q'' := by
  have hne := List.ne_nil_of_mem (shift_mem_filterMap.mpr h)
  exact ⟨_, List.getLast?_eq_some_getLast hne⟩

/-! ### What a cell does -/

theorem step?_of_shift (ha : a.Proper) (hc : (ofAutomaton g reduceOn a).cell? q y = some acts)
    (hq : acts.shift = some q') : y ∉ g.nonterminals ∧ a.step? q y = some q' := by
  obtain ⟨s, hs, -, rfl⟩ := cell?_ofAutomaton.mp hc
  obtain ⟨ht, hy⟩ := shift_mem_movesOf.mp (mem_cellMoves.mp (mem_of_shift_ofMoves hq))
  exact ⟨hy, Automaton.step?_eq_some.mpr
    ⟨s, hs, (lookup_eq_some_iff_mem (ha.nodup_transitions q s hs)).mpr ht⟩⟩

theorem exists_shift (reduceOn : ι → List Symbol) (ha : a.Proper) (hy : y ∉ g.nonterminals)
    (hq : a.step? q y = some q') :
    ∃ acts, (ofAutomaton g reduceOn a).cell? q y = some acts ∧ acts.shift = some q' := by
  obtain ⟨s, hs, hx⟩ := Automaton.step?_eq_some.mp hq
  have ht := (lookup_eq_some_iff_mem (ha.nodup_transitions q s hs)).mp hx
  have hm : (y, Move.shift q') ∈ movesOf g reduceOn s := shift_mem_movesOf.mpr ⟨ht, hy⟩
  have hc := cell?_ofAutomaton.mpr ⟨s, hs, ⟨_, hm⟩, rfl⟩
  obtain ⟨q'', hq''⟩ := exists_shift_ofMoves (mem_cellMoves.mpr hm)
  have heq := (step?_of_shift ha hc hq'').2
  rw [hq] at heq
  cases heq
  exact ⟨_, hc, hq''⟩

theorem mem_reduces_iff (hc : (ofAutomaton g reduceOn a).cell? q y = some acts) :
    p ∈ acts.reduces ↔
      ∃ c, a.Holds reduceOn q c y ∧ c.isComplete g = true ∧ c.production = p := by
  obtain ⟨s, hs, -, rfl⟩ := cell?_ofAutomaton.mp hc
  rw [mem_reduces_ofMoves, mem_cellMoves, reduce_mem_movesOf]
  constructor
  · intro h
    obtain ⟨m, hm, hcomp, hp, hy⟩ := h
    exact ⟨Item.core m, ⟨s, m, hs, hm, rfl, hy⟩, hcomp, hp⟩
  · intro h
    obtain ⟨c, ⟨s', m, hs', hm, rfl, hy⟩, hcomp, hp⟩ := h
    obtain rfl : s = s' := Option.some.inj (hs.symm.trans hs')
    exact ⟨m, hm, hcomp, hp, hy⟩

theorem exists_reduce {c : DottedRule} (hc : a.Holds reduceOn q c y)
    (hcomp : c.isComplete g = true) :
    ∃ acts, (ofAutomaton g reduceOn a).cell? q y = some acts ∧ c.production ∈ acts.reduces := by
  obtain ⟨s, m, hs, hm, rfl, hy⟩ := hc
  have hmove : (y, Move.reduce (Item.core m).production) ∈ movesOf g reduceOn s :=
    reduce_mem_movesOf.mpr ⟨m, hm, hcomp, rfl, hy⟩
  refine ⟨_, cell?_ofAutomaton.mpr ⟨s, hs, ⟨_, hmove⟩, rfl⟩, ?_⟩
  exact mem_reduces_ofMoves.mpr (mem_cellMoves.mpr hmove)

def goto? (table : ActionTable) (q : StateId) (x : Symbol) : Option StateId :=
  (table.row? q).bind fun row => row.gotos.lookup x

theorem goto?_eq_some (ha : a.Proper) : (ofAutomaton g reduceOn a).goto? q x = some q' ↔
    x ∈ g.nonterminals ∧ a.step? q x = some q' := by
  rw [goto?, Option.bind_eq_some_iff, Automaton.step?_eq_some]
  have hlookup {s : State ι} (hs : a.state? q = some s) :
      (s.transitions.filter fun e => g.isNonterminal e.1).lookup x = some q' ↔
        x ∈ g.nonterminals ∧ s.next? x = some q' := by
    have hn := ha.nodup_transitions q s hs
    have hf := (List.filter_sublist (p := fun e => g.isNonterminal e.1)
      (l := s.transitions)).map Prod.fst
    rw [State.next?, lookup_eq_some_iff_mem hn, lookup_eq_some_iff_mem (hn.sublist hf),
      List.mem_filter, Grammar.isNonterminal_iff]
    exact and_comm
  constructor
  · intro h
    obtain ⟨row, hrow, hx⟩ := h
    obtain ⟨s, hs, rfl⟩ := row?_ofAutomaton.mp hrow
    obtain ⟨hn, hx⟩ := (hlookup hs).mp hx
    exact ⟨hn, s, hs, hx⟩
  · intro h
    obtain ⟨hn, s, hs, hx⟩ := h
    exact ⟨_, row?_ofAutomaton.mpr ⟨s, hs, rfl⟩, (hlookup hs).mpr ⟨hn, hx⟩⟩

/-! ### The check of a table -/

private theorem checkEntry_eq_ok_iff {d : Discipline} :
    checkEntry d q (y, acts) = .ok () ↔
      acts.reduces.length ≤ 1 ∧ (acts.shift.isSome → acts.reduces = []) := by
  rw [checkEntry]
  by_cases h : 1 < acts.reduces.length
  · simp [h, Nat.not_le.mpr h]
  · simp only [h, if_false, Nat.not_lt.mp h, true_and]
    cases acts.shift <;> cases acts.reduces <;> simp

theorem length_le_one {l : List ProductionId} (hl : l.Nodup)
    (h : ∀ p ∈ l, ∀ p' ∈ l, p = p') : l.length ≤ 1 := by
  match l, hl, h with
  | [], _, _ => exact Nat.zero_le 1
  | [_], _, _ => exact Nat.le_refl 1
  | p :: p' :: l, hl, h =>
    have hne := (List.nodup_cons.mp hl).1
    rw [h p (by simp) p' (by simp)] at hne
    simp at hne

theorem eq_of_length_le_one {l : List ProductionId} (h : l.length ≤ 1) {p p' : ProductionId}
    (hp : p ∈ l) (hp' : p' ∈ l) : p = p' := by
  match l, h with
  | [], _ => cases hp
  | [p''], _ => rw [List.mem_singleton.mp hp, List.mem_singleton.mp hp']

private theorem check_eq_ok_iff_cells {d : Discipline} (ha : a.size ≤ 65536) :
    (ofAutomaton g reduceOn a).check d = .ok () ↔
      ∀ q y acts, (ofAutomaton g reduceOn a).cell? q y = some acts →
        acts.reduces.length ≤ 1 ∧ (acts.shift.isSome → acts.reduces = []) := by
  rw [check, forM_eq_ok_iff]
  constructor
  · intro h q y acts hc
    obtain ⟨s, hs, hacts⟩ := cell?_ofAutomaton.mp hc
    have hrow : (ofAutomaton g reduceOn a).row? q = some _ := row?_ofAutomaton.mpr ⟨s, hs, rfl⟩
    have hr := forM_eq_ok_iff.mp (h _ (Array.mem_toList_iff.mpr (Array.mem_of_getElem? hrow)))
    have hentry := OrderedMap.mem_toList.mpr (get?_actions.mpr hacts)
    exact checkEntry_eq_ok_iff.mp (hr (y, acts) hentry)
  · intro h row hrow
    rw [Array.mem_toList_iff, ofAutomaton, Array.mem_map] at hrow
    obtain ⟨s, hs, rfl⟩ := hrow
    obtain ⟨q, hq⟩ := Automaton.exists_state?_of_mem ha hs
    rw [forM_eq_ok_iff]
    intro e he
    obtain ⟨y, acts⟩ := e
    apply checkEntry_eq_ok_iff.mpr
    exact h q y acts (cell?_ofAutomaton.mpr ⟨s, hq, get?_actions.mp (OrderedMap.mem_toList.mp he)⟩)

/-- A cell with a shift has no reduction if no completed item reduces where its state reads on. -/
theorem reduces_eq_nil_of_shift (ha : a.Proper)
    (hnone : ∀ c, a.Holds reduceOn q c y → c.isComplete g = true → y ∉ g.nonterminals →
      a.step? q y = none)
    (hcell : (ofAutomaton g reduceOn a).cell? q y = some acts) (hs : acts.shift.isSome) :
    acts.reduces = [] := by
  obtain ⟨q', hq'⟩ := Option.isSome_iff_exists.mp hs
  obtain ⟨hy, hstep⟩ := step?_of_shift ha hcell hq'
  rw [List.eq_nil_iff_forall_not_mem]
  intro p hp
  obtain ⟨c, hc, hcomp, -⟩ := (mem_reduces_iff hcell).mp hp
  rw [hnone c hc hcomp hy] at hstep
  cases hstep

/-- The check accepts the tables without conflict. -/
theorem check_eq_ok_iff {d : Discipline} (ha : a.Proper) :
    (ofAutomaton g reduceOn a).check d = .ok () ↔ a.ConflictFree g reduceOn := by
  rw [check_eq_ok_iff_cells ha.size_le]
  constructor
  · intro h
    refine ⟨?_, ?_⟩
    · intro q c c' y hc hc' hcomp hcomp'
      obtain ⟨acts, hcell, hp⟩ := exists_reduce hc hcomp
      have hp' := (mem_reduces_iff hcell).mpr ⟨c', hc', hcomp', rfl⟩
      exact eq_of_length_le_one (h q y acts hcell).1 hp hp'
    · intro q c y hc hcomp hy
      obtain ⟨acts, hcell, hp⟩ := exists_reduce hc hcomp
      by_contra hne
      obtain ⟨q', hq'⟩ := Option.ne_none_iff_exists'.mp hne
      obtain ⟨acts', hcell', hs⟩ := exists_shift reduceOn ha hy hq'
      obtain rfl : acts = acts' := Option.some.inj (hcell.symm.trans hcell')
      rw [(h q y acts hcell).2 (by rw [hs]; rfl)] at hp
      cases hp
  · intro h q y acts hcell
    refine ⟨?_, ?_⟩
    · apply length_le_one
      · obtain ⟨s, -, -, rfl⟩ := cell?_ofAutomaton.mp hcell
        exact OrderedSet.nodup_toList _
      · intro p hp p' hp'
        obtain ⟨c, hc, hcomp, rfl⟩ := (mem_reduces_iff hcell).mp hp
        obtain ⟨c', hc', hcomp', rfl⟩ := (mem_reduces_iff hcell).mp hp'
        exact h.production_eq q c c' y hc hc' hcomp hcomp'
    · exact reduces_eq_nil_of_shift ha (h.step?_eq_none q · y) hcell

theorem exists_cell_of_check_eq_error {d : Discipline} {e : Conflict} (ha : a.size ≤ 65536)
    (hid : ∀ q s, a.state? q = some s → s.id = q)
    (h : (ofAutomaton g reduceOn a).check d = .error e) :
    ∃ q y acts, (ofAutomaton g reduceOn a).cell? q y = some acts ∧
      checkEntry d q (y, acts) = .error e := by
  obtain ⟨row, hrow, h⟩ := exists_of_forM_eq_error h
  rw [Array.mem_toList_iff, ofAutomaton, Array.mem_map] at hrow
  obtain ⟨s, hs, rfl⟩ := hrow
  obtain ⟨q, hq⟩ := Automaton.exists_state?_of_mem ha hs
  obtain ⟨⟨y, acts⟩, hm, he⟩ := exists_of_forM_eq_error h
  rw [hid q s hq] at he
  exact ⟨q, y, acts,
    cell?_ofAutomaton.mpr ⟨s, hq, get?_actions.mp (OrderedMap.mem_toList.mp hm)⟩, he⟩

theorem eq_reduceReduce_of_checkEntry {d : Discipline} {e : Conflict}
    (h : acts.shift.isSome → acts.reduces = []) (he : checkEntry d q (y, acts) = .error e) :
    e = .reduceReduce d q (some y) ∧ 1 < acts.reduces.length := by
  rw [checkEntry] at he
  split at he
  · rename_i hlt
    cases he
    exact ⟨rfl, hlt⟩
  · split at he
    · rename_i hboth
      simp only [Bool.and_eq_true, Bool.not_eq_true', List.isEmpty_eq_false_iff] at hboth
      exact absurd (h hboth.1) hboth.2
    · cases he

end ActionTable

end GrammarTables
