import GrammarTables.Proofs.RenamedAutomata
import GrammarTables.Table.Basic

/-!
# Tables of renamed grammars

If a grammar is renamed into another, the tables that are read off their automata have the same
entries, but for the names of the productions to reduce. So they have the same conflicts.
-/

namespace GrammarTables

variable {f : ProductionId → ProductionId} {g h : Grammar}

private theorem completed_rename {κ : Type} [Item κ] {R : κ → κ} (hf : h.Renames f g)
    (hcore : ∀ i, Item.core (R i) = (Item.core i).rename f) {s : State κ} (hs : s.BelongsTo h) :
    (s.map R).completed g = (s.completed h).map R := by
  rw [State.completed, State.completed, State.map, List.filter_map]
  refine congrArg (List.map R) (List.filter_congr fun i hi => ?_)
  rw [Function.comp_apply, hcore, DottedRule.isComplete_rename hf (hs.items i hi)]

/-! ### Tables without lookahead -/

namespace UniformTable

def rename (f : ProductionId → ProductionId) (t : UniformTable) : UniformTable :=
  ⟨t.rows.map fun row => { row with reduces := row.reduces.map f }⟩

variable {b : Automaton DottedRule}

theorem ofAutomaton_rename (hf : h.Renames f g) (hb : ∀ s ∈ b.states, s.BelongsTo h) :
    ofAutomaton g (b.map (DottedRule.rename f)) = (ofAutomaton h b).rename f := by
  rw [ofAutomaton, ofAutomaton, rename, Automaton.map, Array.map_map, Array.map_map]
  refine congrArg UniformTable.mk (Array.map_congr_left fun s hs => ?_)
  have hcompleted := completed_rename hf (fun _ => rfl) (hb s hs) (R := DottedRule.rename f)
  have hproductions : (((s.completed h).map (DottedRule.rename f)).map DottedRule.production) =
      ((s.completed h).map DottedRule.production).map f := by
    rw [List.map_map, List.map_map]
    rfl
  have hinj : ∀ p ∈ (s.completed h).map DottedRule.production,
      ∀ q ∈ (s.completed h).map DottedRule.production, f p = f q → p = q := by
    have hmem : ∀ p ∈ (s.completed h).map DottedRule.production, p ∈ h := by
      intro p hp
      obtain ⟨c, hc, rfl⟩ := List.mem_map.mp hp
      exact (hb s hs).items c (List.mem_of_mem_filter hc)
    exact fun p hp q hq => hf.keepsOrder.eq (hmem p hp) (hmem q hq)
  rw [Function.comp_apply, Function.comp_apply, hcompleted, hproductions,
    OrderedSet.toList_ofList_map hinj]
  rfl

private theorem checkRow_rename (hf : h.Renames f g) {row : UniformRow}
    (hrow : ∀ e ∈ row.shifts, e.1 ∈ h.terminals ∨ e.1 ∈ h.nonterminals) :
    checkRow g { row with reduces := row.reduces.map f } = checkRow h row := by
  have hfind : (row.shifts.map Prod.fst).find? g.isTerminal =
      (row.shifts.map Prod.fst).find? h.isTerminal := by
    rw [← List.head?_filter, ← List.head?_filter]
    exact congrArg List.head? (List.filter_congr
      (List.forall_mem_map.mpr fun e he => hf.isTerminal_eq (hrow e he)))
  rw [checkRow, checkRow]
  simp only [List.length_map, List.isEmpty_map, hfind]

theorem check_rename (hf : h.Renames f g) (hb : ∀ s ∈ b.states, s.BelongsTo h) :
    ((ofAutomaton h b).rename f).check g = (ofAutomaton h b).check h := by
  rw [check, check, rename, Array.toList_map]
  refine List.forM_map.trans (forM_congr fun row hrow => checkRow_rename hf ?_)
  rw [ofAutomaton, Array.toList_map] at hrow
  obtain ⟨s, hs, rfl⟩ := List.mem_map.mp hrow
  exact (hb s (Array.mem_toList_iff.mp hs)).transitions

private theorem map_rename (hf : h.Renames f g) {c : Except GrammarError (Automaton DottedRule)}
    (hc : ∀ b, c = .ok b → ∀ s ∈ b.states, s.BelongsTo h) :
    (c.map (Automaton.map (DottedRule.rename f))).map (ofAutomaton g) =
        c.map (fun b => (ofAutomaton h b).rename f) ∧
      (c.map (Automaton.map (DottedRule.rename f))).map (fun a => (ofAutomaton g a).check g) =
        c.map fun b => (ofAutomaton h b).check h := by
  constructor
  · exact map_map_congr fun b hb => ofAutomaton_rename hf (hc b hb)
  · refine map_map_congr fun b hb => ?_
    rw [ofAutomaton_rename hf (hc b hb), check_rename hf (hc b hb)]

end UniformTable

/-! ### Tables with lookahead -/

def Move.rename (f : ProductionId → ProductionId) : Move → Move
  | shift q => .shift q
  | reduce p => .reduce (f p)

def Actions.rename (f : ProductionId → ProductionId) (a : Actions) : Actions :=
  { a with reduces := a.reduces.map f }

private theorem ofMoves_rename {moves : List Move}
    (hinj : ∀ p ∈ moves.filterMap Move.reduce?, ∀ q ∈ moves.filterMap Move.reduce?,
      f p = f q → p = q) :
    Actions.ofMoves (moves.map (Move.rename f)) = (Actions.ofMoves moves).rename f := by
  have hshifts : (moves.map (Move.rename f)).filterMap Move.shift? =
      moves.filterMap Move.shift? := by
    rw [List.filterMap_map]
    refine List.filterMap_congr fun m _ => ?_
    cases m <;> rfl
  have hreduces : (moves.map (Move.rename f)).filterMap Move.reduce? =
      (moves.filterMap Move.reduce?).map f := by
    rw [List.filterMap_map, List.map_filterMap]
    refine List.filterMap_congr fun m _ => ?_
    cases m <;> rfl
  rw [Actions.ofMoves, Actions.ofMoves, hshifts, hreduces, OrderedSet.toList_ofList_map hinj]
  rfl

namespace ActionTable

def rename (f : ProductionId → ProductionId) (t : ActionTable) : ActionTable :=
  ⟨t.rows.map fun row => { row with actions := row.actions.mapValues (Actions.rename f) }⟩

theorem check_rename (f : ProductionId → ProductionId) (d : Discipline) (t : ActionTable) :
    (t.rename f).check d = t.check d := by
  have hentries (m : OrderedMap Symbol Actions) : (m.mapValues (Actions.rename f)).toList =
      m.toList.map (Prod.map id (Actions.rename f)) := by
    rw [OrderedMap.toList, OrderedMap.toList, OrderedMap.mapValues, Array.toList_map,
      List.zip_map_right]
  rw [check, check, rename, Array.toList_map]
  refine List.forM_map.trans (forM_congr fun row _ => ?_)
  rw [hentries]
  refine List.forM_map.trans (forM_congr fun entry _ => ?_)
  rw [checkEntry, checkEntry]
  simp only [Prod.map_fst, Prod.map_snd, Actions.rename, List.length_map, List.isEmpty_map, id_eq]

private theorem mem_of_reduce {κ : Type} [Item κ] {s : State κ} (hs : s.BelongsTo h) {y : Symbol}
    {p : ProductionId} (hp : p ∈ (cellMoves h Item.lookaheads s y).filterMap Move.reduce?) :
    p ∈ h := by
  rw [reduce_mem_filterMap, mem_cellMoves, reduce_mem_movesOf] at hp
  obtain ⟨m, hm, -, rfl, -⟩ := hp
  exact hs.items m hm

section Lookaheads

variable {κ : Type} [Item κ] {R : κ → κ} {s : State κ} {b : Automaton κ} (hf : h.Renames f g)
  (hcore : ∀ i, Item.core (R i) = (Item.core i).rename f)
  (hlook : ∀ i, Item.lookaheads (R i) = Item.lookaheads i)

include hf hcore hlook

private theorem movesOf_rename (hs : s.BelongsTo h) : movesOf g Item.lookaheads (s.map R) =
    (movesOf h Item.lookaheads s).map (Prod.map id (Move.rename f)) := by
  have hshifts : (s.map R).transitions.filter (fun e => !g.isNonterminal e.1) =
      s.transitions.filter fun e => !h.isNonterminal e.1 :=
    List.filter_congr fun e he => congrArg not (hf.isNonterminal_eq (hs.transitions e he))
  rw [movesOf, movesOf, completed_rename hf hcore hs, hshifts, List.map_append, List.map_map,
    List.flatMap_map, List.map_flatMap]
  refine congrArg₂ (· ++ ·) rfl (List.flatMap_congr fun i _ => ?_)
  rw [hlook, hcore, List.map_map]
  rfl

private theorem cellMoves_rename (hs : s.BelongsTo h) (y : Symbol) :
    cellMoves g Item.lookaheads (s.map R) y =
      (cellMoves h Item.lookaheads s y).map (Move.rename f) := by
  rw [cellMoves, cellMoves, movesOf_rename hf hcore hlook hs, List.filter_map, List.map_map,
    List.map_map]
  rfl

private theorem actions_rename (hs : s.BelongsTo h) :
    (OrderedMap.group (movesOf g Item.lookaheads (s.map R))).mapValues Actions.ofMoves =
      ((OrderedMap.group (movesOf h Item.lookaheads s)).mapValues Actions.ofMoves).mapValues
        (Actions.rename f) := by
  have hkeys : (movesOf g Item.lookaheads (s.map R)).map Prod.fst =
      (movesOf h Item.lookaheads s).map Prod.fst := by
    rw [movesOf_rename hf hcore hlook hs, List.map_map]
    rfl
  apply OrderedMap.ext_get?
  · simp only [OrderedMap.keys_mapValues, OrderedMap.keys_group, hkeys]
  · intro y
    have hmoves : Actions.ofMoves (cellMoves g Item.lookaheads (s.map R) y) =
        (Actions.ofMoves (cellMoves h Item.lookaheads s y)).rename f := by
      rw [cellMoves_rename hf hcore hlook hs, ofMoves_rename]
      exact fun p hp q hq => hf.keepsOrder.eq (mem_of_reduce hs hp) (mem_of_reduce hs hq)
    simp only [OrderedMap.get?_mapValues, OrderedMap.get?_group, hkeys]
    split
    · exact congrArg some hmoves
    · rfl

/-- The entries are the same, but for the names of the productions to reduce. -/
theorem ofLookaheads_rename (hb : ∀ s ∈ b.states, s.BelongsTo h) :
    ofLookaheads g (b.map R) = (ofLookaheads h b).rename f := by
  rw [ofLookaheads, ofLookaheads, ofAutomaton, ofAutomaton, rename, Automaton.map, Array.map_map,
    Array.map_map]
  refine congrArg ActionTable.mk (Array.map_congr_left fun s hs => ?_)
  have hgotos : (s.map R).transitions.filter (fun e => g.isNonterminal e.1) =
      s.transitions.filter fun e => h.isNonterminal e.1 :=
    List.filter_congr fun e he => hf.isNonterminal_eq ((hb s hs).transitions e he)
  rw [Function.comp_apply, Function.comp_apply, actions_rename hf hcore hlook (hb s hs), hgotos]
  rfl

private theorem map_rename {c : Except GrammarError (Automaton κ)}
    (hc : ∀ b, c = .ok b → ∀ s ∈ b.states, s.BelongsTo h) (d : Discipline) :
    (c.map (Automaton.map R)).map (ofLookaheads g) =
        c.map (fun b => (ofLookaheads h b).rename f) ∧
      (c.map (Automaton.map R)).map (fun a => (ofLookaheads g a).check d) =
        c.map fun b => (ofLookaheads h b).check d := by
  constructor
  · exact map_map_congr fun b hb => ofLookaheads_rename hf hcore hlook (hc b hb)
  · refine map_map_congr fun b hb => ?_
    rw [ofLookaheads_rename hf hcore hlook (hc b hb), check_rename]

end Lookaheads

end ActionTable

/-! ### All automata and their conflicts -/

namespace Grammar

/-- The automata of the second grammar, and the tables that are read off them, are those of the
first with the productions renamed, and the tables have the same conflicts. -/
structure RenamesAutomata (f : ProductionId → ProductionId) (h g : Grammar) : Prop where
  lr0Automaton_eq : g.lr0Automaton = h.lr0Automaton.map (Automaton.map (DottedRule.rename f))
  lr1Automaton_eq : g.lr1Automaton = h.lr1Automaton.map (Automaton.map (LookaheadItem.rename f))
  lalr1Automaton_eq :
    g.lalr1Automaton = h.lalr1Automaton.map (Automaton.map (MergedItem.rename f))
  lr0Table_eq : g.lr0Automaton.map (UniformTable.ofAutomaton g) =
    h.lr0Automaton.map fun b => (UniformTable.ofAutomaton h b).rename f
  lr1Table_eq : g.lr1Automaton.map (ActionTable.ofLookaheads g) =
    h.lr1Automaton.map fun b => (ActionTable.ofLookaheads h b).rename f
  lalr1Table_eq : g.lalr1Automaton.map (ActionTable.ofLookaheads g) =
    h.lalr1Automaton.map fun b => (ActionTable.ofLookaheads h b).rename f
  lr0Conflict_eq : g.lr0Automaton.map (fun a => (UniformTable.ofAutomaton g a).check g) =
    h.lr0Automaton.map fun b => (UniformTable.ofAutomaton h b).check h
  lr1Conflict_eq : g.lr1Automaton.map (fun a => (ActionTable.ofLookaheads g a).check .lr1) =
    h.lr1Automaton.map fun b => (ActionTable.ofLookaheads h b).check .lr1
  lalr1Conflict_eq : g.lalr1Automaton.map (fun a => (ActionTable.ofLookaheads g a).check .lalr1) =
    h.lalr1Automaton.map fun b => (ActionTable.ofLookaheads h b).check .lalr1

theorem Renames.renamesAutomata (hf : h.Renames f g) : h.RenamesAutomata f g := by
  have hlr0 : ∀ b, h.lr0Automaton = .ok b → ∀ s ∈ b.states, s.BelongsTo h :=
    fun b hb => (canonicalFor_of_eq_ok hb).belongsTo
  have hlr1 : ∀ b, h.lr1Automaton = .ok b → ∀ s ∈ b.states, s.BelongsTo h :=
    fun b hb => (canonicalFor_of_eq_ok hb).belongsTo
  have hlalr1 : ∀ b, h.lalr1Automaton = .ok b → ∀ s ∈ b.states, s.BelongsTo h := by
    intro b hb
    obtain ⟨a, ha, hm⟩ := bind_eq_ok_iff.mp hb
    cases hm
    exact Automaton.belongsTo_mergeByCore (hlr1 a ha)
  have tables0 := UniformTable.map_rename hf hlr0
  have tables1 := ActionTable.map_rename (R := LookaheadItem.rename f) hf (fun _ => rfl)
    (fun _ => rfl) hlr1 .lr1
  have tablesM := ActionTable.map_rename (R := MergedItem.rename f) hf (fun _ => rfl)
    (fun _ => rfl) hlalr1 .lalr1
  rw [← hf.lr0Automaton_eq_map] at tables0
  rw [← hf.lr1Automaton_eq_map] at tables1
  rw [← hf.lalr1Automaton_eq_map] at tablesM
  exact ⟨hf.lr0Automaton_eq_map, hf.lr1Automaton_eq_map, hf.lalr1Automaton_eq_map,
    tables0.1, tables1.1, tablesM.1, tables0.2, tables1.2, tablesM.2⟩

end Grammar

end GrammarTables
