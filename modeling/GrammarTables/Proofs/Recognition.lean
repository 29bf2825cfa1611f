import GrammarTables.Proofs.ParserMoves
import GrammarTables.Proofs.Tree
import GrammarTables.Proofs.Verdicts

/-!
# Tables recognize their grammars

A parser that keeps a tree beside each state of its stack builds every tree of the grammar that its
automaton guides it to, and accepts with this tree. So the SLR(1), LR(1) and LALR(1) tables of a
grammar accept exactly its sentences, whether or not some of their cells hold several actions.
-/

namespace GrammarTables

/-- The states of a parser, each with the tree of the symbol before it, above the initial state. -/
structure TreeConfiguration where
  frames : List (StateId × Tree Unit)
  input : List Symbol

def topState (frames : List (StateId × Tree Unit)) : StateId :=
  (frames.map Prod.fst).headD (.ofIndex 0)

namespace TreeConfiguration

def forget (c : TreeConfiguration) : Configuration :=
  ⟨c.frames.map Prod.fst ++ [.ofIndex 0], c.input⟩

end TreeConfiguration

private theorem exists_stack (frames : List (StateId × Tree Unit)) :
    ∃ stack, frames.map Prod.fst ++ [.ofIndex 0] = topState frames :: stack := by
  cases frames with
  | nil => exact ⟨[], rfl⟩
  | cons f frames => exact ⟨frames.map Prod.fst ++ [.ofIndex 0], rfl⟩

namespace ActionTable

/-- One move that also builds the tree of the symbol it pushes. -/
inductive BuildsTo (g : Grammar) (table : ActionTable) :
    TreeConfiguration → TreeConfiguration → Prop where
  | shift {q' : StateId} {frames : List (StateId × Tree Unit)} {x : Symbol} {w : List Symbol}
    {acts : Actions} (hc : table.cell? (topState frames) x = some acts)
    (hq : acts.shift = some q') :
    BuildsTo g table ⟨frames, x :: w⟩ ⟨(q', .leaf x) :: frames, w⟩
  | reduce {q' : StateId} {children frames : List (StateId × Tree Unit)} {w : List Symbol}
    {acts : Actions} {p : ProductionId} {x : Symbol}
    (hc : table.cell? (topState (children ++ frames)) (nextToken w) = some acts)
    (hp : p ∈ acts.reduces) (hx : g.head? p = some x)
    (hn : children.length = (g.body p).length) (hq : table.goto? (topState frames) x = some q') :
    BuildsTo g table ⟨children ++ frames, w⟩
      ⟨(q', .node x () (children.map Prod.snd).reverse) :: frames, w⟩

variable {g : Grammar} {table : ActionTable} {c c' : TreeConfiguration}

theorem buildsTo_cases (h : table.BuildsTo g c c') :
    (∃ q' x w acts, c.input = x :: w ∧ table.cell? (topState c.frames) x = some acts ∧
      acts.shift = some q' ∧ c' = ⟨(q', .leaf x) :: c.frames, w⟩) ∨
    ∃ q' children frames acts p x, c.frames = children ++ frames ∧
      table.cell? (topState c.frames) (nextToken c.input) = some acts ∧ p ∈ acts.reduces ∧
      g.head? p = some x ∧ children.length = (g.body p).length ∧
      table.goto? (topState frames) x = some q' ∧
      c' = ⟨(q', .node x () (children.map Prod.snd).reverse) :: frames, c.input⟩ := by
  cases h with
  | shift hc hq => exact Or.inl ⟨_, _, _, _, rfl, hc, hq, rfl⟩
  | reduce hc hp hx hn hq => exact Or.inr ⟨_, _, _, _, _, _, rfl, hc, hp, hx, hn, hq, rfl⟩

theorem movesTo_of_buildsTo (h : table.BuildsTo g c c') :
    table.MovesTo g c.forget c'.forget := by
  cases h with
  | @shift q' frames x w acts hc hq =>
    obtain ⟨stack, hs⟩ := exists_stack frames
    simp only [TreeConfiguration.forget, List.map_cons, List.cons_append, hs]
    exact .shift hc hq
  | @reduce q' children frames w acts p x hc hp hx hn hq =>
    obtain ⟨stack, hs⟩ := exists_stack (children ++ frames)
    obtain ⟨rest, hr⟩ := exists_stack frames
    simp only [TreeConfiguration.forget, List.map_cons, List.cons_append, hr, hs]
    refine .reduce hc hp hx ?_ hq
    rw [← hs, ← hr, List.map_append, List.append_assoc, ← hn,
      ← List.length_map (f := Prod.fst), List.drop_left]

theorem moves_of_builds (h : Relation.ReflTransGen (table.BuildsTo g) c c') :
    Relation.ReflTransGen (table.MovesTo g) c.forget c'.forget :=
  h.lift TreeConfiguration.forget fun _ _ => movesTo_of_buildsTo

theorem accepting_forget_iff : table.Accepting c.forget ↔
    ∃ acts, table.cell? (topState c.frames) (nextToken c.input) = some acts ∧
      .accept ∈ acts.reduces := by
  obtain ⟨stack, hs⟩ := exists_stack c.frames
  simp only [Accepting, TreeConfiguration.forget, hs, List.cons.injEq]
  constructor
  · intro h
    obtain ⟨_, _, acts, ⟨rfl, -⟩, hc, hp⟩ := h
    exact ⟨acts, hc, hp⟩
  · intro h
    obtain ⟨acts, hc, hp⟩ := h
    exact ⟨_, _, acts, ⟨rfl, rfl⟩, hc, hp⟩

end ActionTable

/-! ### Every tree is built -/

namespace Automaton.Guides

variable {ι : Type} [Item ι] {g : Grammar} {a : Automaton ι} {reduceOn : ι → List Symbol}

open ActionTable

/-- Where a tree's root is expected, the tree is built, if what comes next may come after it. -/
private def Builds (g : Grammar) (a : Automaton ι) (reduceOn : ι → List Symbol) (t : Tree Unit) : Prop :=
  ∀ frames w c y rest, a.Holds reduceOn (topState frames) c y → c.remainder g = t.root :: rest →
    g.Begins (rest ++ [y]) (nextToken w) →
    ∃ q', a.step? (topState frames) t.root = some q' ∧
      Relation.ReflTransGen ((ofAutomaton g reduceOn a).BuildsTo g) ⟨frames, t.yield ++ w⟩
        ⟨(q', t) :: frames, w⟩

private theorem builds_forest (h : a.Guides g reduceOn) {ts : List (Tree Unit)}
    (hts : ∀ t ∈ ts, t.ValidFor g) (hb : ∀ t ∈ ts, Builds g a reduceOn t)
    {frames : List (StateId × Tree Unit)} {w : List Symbol} {c : DottedRule}
    (hc : a.Holds reduceOn (topState frames) c (nextToken w))
    (hr : c.remainder g = ts.map Tree.root) (hw : g.IsToken (nextToken w)) :
    ∃ fs : List (StateId × Tree Unit), fs.map Prod.snd = ts.reverse ∧
      Relation.ReflTransGen ((ofAutomaton g reduceOn a).BuildsTo g) ⟨frames, Tree.yields ts ++ w⟩
        ⟨fs ++ frames, w⟩ ∧
      ∃ d, a.Holds reduceOn (topState (fs ++ frames)) d (nextToken w) ∧
        d.production = c.production ∧ d.isComplete g = true := by
  induction ts generalizing frames c with
  | nil =>
    refine ⟨[], rfl, .refl, c, hc, rfl, ?_⟩
    rw [DottedRule.isComplete, hr]
    rfl
  | cons t ts ih =>
    have hx : c.next? g = some t.root := DottedRule.next?_eq_some_iff.mpr ⟨_, hr⟩
    have hts' : ∀ t ∈ ts, t.ValidFor g := fun t ht => hts t (List.mem_cons_of_mem _ ht)
    have hnext := Grammar.begins_nextToken (Tree.derives_yields hts')
      (Tree.terminalString_of_valid hts') hw
    obtain ⟨q', hstep, hrun⟩ := hb t (by simp) frames (Tree.yields ts ++ w) c _ _ hc hr hnext
    obtain ⟨q'', hstep', hc'⟩ := h.shifted _ _ _ _ hc hx
    obtain rfl : q' = q'' := Option.some.inj (hstep.symm.trans hstep')
    have hr' : c.shifted.remainder g = ts.map Tree.root := by
      rw [DottedRule.remainder_shifted hx, DottedRule.rest, hr]
      rfl
    have htop : topState ((q', t) :: frames) = q' := rfl
    rw [← htop] at hc'
    obtain ⟨fs, hfs, hrest, d, hd, hp, hcomp⟩ :=
      ih hts' (fun t ht => hb t (List.mem_cons_of_mem _ ht)) hc' hr'
    refine ⟨fs ++ [(q', t)], by simp [hfs], ?_, d, ?_, hp, hcomp⟩
    · rw [Tree.yields, List.append_assoc, List.append_assoc]
      exact hrun.trans hrest
    · rw [List.append_assoc]
      exact hd

private theorem builds_node (h : a.Guides g reduceOn) {r : Rule} (hr : r ∈ g.rules)
    {ts : List (Tree Unit)} (hb : ts.map Tree.root = r.body) (hts : ∀ t ∈ ts, t.ValidFor g)
    (ih : ∀ t ∈ ts, Builds g a reduceOn t) : Builds g a reduceOn (.node r.head () ts) := by
  intro frames w c y rest hc hrem hw
  obtain ⟨p, hp, hbody⟩ := Grammar.exists_alternative hr
  have hp₀ := h.predicted _ _ _ _ _ p _ hc hrem hp hw
  have hrem₀ : (⟨p, 0⟩ : DottedRule).remainder g = ts.map Tree.root := by
    rw [DottedRule.remainder_eq, hb, ← hbody]
    rfl
  obtain ⟨fs, hfs, hrun, d, hd, hdp, hcomp⟩ := h.builds_forest hts ih hp₀ hrem₀ hw.1
  obtain ⟨acts, hcell, hred⟩ := exists_reduce hd hcomp
  obtain ⟨q', hstep, -⟩ := h.shifted _ _ _ _ hc (DottedRule.next?_eq_some_iff.mpr ⟨_, hrem⟩)
  refine ⟨q', hstep, ?_⟩
  have hlen : fs.length = (g.body p).length := by
    have hl := congrArg List.length hfs
    have hl' := congrArg List.length hb
    simp only [List.length_map, List.length_reverse] at hl hl'
    rw [hbody, hl, hl']
  have hgoto : (ofAutomaton g reduceOn a).goto? (topState frames) r.head = some q' :=
    (goto?_eq_some h.proper).mpr ⟨Grammar.head_mem_nonterminals hr, hstep⟩
  rw [hdp] at hred
  have hhead := Grammar.head?_of_mem_alternatives hp
  have hlast := BuildsTo.reduce hcell hred hhead hlen hgoto
  rw [hfs, List.reverse_reverse] at hlast
  exact hrun.tail hlast

private theorem builds (h : a.Guides g reduceOn) {t : Tree Unit} (ht : t.ValidFor g) :
    Builds g a reduceOn t := by
  induction ht with
  | leaf x hx =>
    intro frames w c y rest hc hrem hw
    obtain ⟨q', hstep, -⟩ := h.shifted _ _ _ _ hc (DottedRule.next?_eq_some_iff.mpr ⟨_, hrem⟩)
    refine ⟨q', hstep, ?_⟩
    obtain ⟨acts, hcell, hq⟩ := exists_shift reduceOn h.proper
      (Grammar.not_mem_nonterminals_of_terminal hx) hstep
    exact .single (.shift hcell hq)
  | node _ r ts hr hb hts ih => exact h.builds_node hr hb hts ih

/-- The parser builds a tree of the start symbol and accepts. -/
theorem exists_builds (h : a.Guides g reduceOn) {t : Tree Unit} (ht : t.ValidFor g)
    (hr : t.root = g.start) : ∃ q,
      Relation.ReflTransGen ((ofAutomaton g reduceOn a).BuildsTo g) ⟨[], t.yield⟩ ⟨[(q, t)], []⟩ ∧
        (ofAutomaton g reduceOn a).Accepting (TreeConfiguration.forget ⟨[(q, t)], []⟩) := by
  have hrem : DottedRule.initial.remainder g = [t.root] := by
    rw [DottedRule.remainder_eq, hr]
    exact congrArg (List.drop 0) Grammar.body_accept
  have hend : g.IsToken .endOfInput := Or.inr rfl
  obtain ⟨q, hstep, hrun⟩ := h.builds ht [] [] _ _ [] h.initial hrem
    ((Grammar.begins_token_iff hend).mpr rfl)
  have hx : DottedRule.initial.next? g = some t.root := DottedRule.next?_eq_some_iff.mpr ⟨_, hrem⟩
  obtain ⟨q', hstep', hc⟩ := h.shifted _ _ _ _ h.initial hx
  obtain rfl : q = q' := Option.some.inj (hstep.symm.trans hstep')
  have hcomp : DottedRule.initial.shifted.isComplete g = true := by
    rw [DottedRule.isComplete, DottedRule.remainder_shifted hx, DottedRule.rest, hrem]
    rfl
  refine ⟨q, by simpa using hrun, ?_⟩
  rw [accepting_forget_iff]
  exact exists_reduce hc hcomp

end Automaton.Guides

/-! ### What tables accept -/

namespace Automaton.Guides

variable {ι : Type} [Item ι] {g : Grammar} {a : Automaton ι} {reduceOn : ι → List Symbol}

theorem accepts_of_derives (h : a.Guides g reduceOn) {w : List Symbol} (hw : g.TerminalString w)
    (hd : g.Derives [g.start] w) : (ActionTable.ofAutomaton g reduceOn a).Accepts g w := by
  obtain ⟨t, ht, hr, rfl⟩ := Tree.exists_tree (α := Unit) hd hw
  obtain ⟨q, hrun, hacc⟩ := h.exists_builds ht hr
  exact ⟨_, ActionTable.moves_of_builds hrun, hacc⟩

theorem recognizes (h : a.Guides g reduceOn) :
    (ActionTable.ofAutomaton g reduceOn a).Recognizes g :=
  fun _ hw => ⟨h.derives_of_accepts hw, h.accepts_of_derives hw⟩

end Automaton.Guides

namespace Grammar

/-- A grammar that is not cyclic has tables that recognize it, if its automata can be built. -/
theorem exists_recognizing_tables {g : Grammar} (hg : g.checkAcyclic = .ok ()) :
    (g.lr0Automaton.isOk → ∃ t, g.table .slr1 = .ok (.action t) ∧ t.Recognizes g) ∧
    (g.lr1Automaton.isOk → ∃ t, g.table .lr1 = .ok (.action t) ∧ t.Recognizes g) ∧
    (g.lr1Automaton.isOk → ∃ t, g.table .lalr1 = .ok (.action t) ∧ t.Recognizes g) := by
  refine ⟨?_, ?_, ?_⟩
  · intro h
    obtain ⟨a, ha⟩ := exists_of_isOk h
    have hguides := (canonicalFor_of_eq_ok ha).guides_followOn
    exact ⟨_, table_slr1_iff.mpr ⟨hg, a, ha, rfl⟩, hguides.recognizes⟩
  · intro h
    obtain ⟨a, ha⟩ := exists_of_isOk h
    have hguides := (canonicalFor_of_eq_ok ha).guides
    exact ⟨_, table_lr1_iff.mpr ⟨hg, a, ha, rfl⟩, hguides.recognizes⟩
  · intro h
    obtain ⟨a, ha⟩ := exists_of_isOk h
    have hguides := (canonicalFor_of_eq_ok ha).guides_mergeByCore
    exact ⟨_, table_lalr1_iff.mpr ⟨hg, a, ha, rfl⟩, hguides.recognizes⟩

theorem exists_recognizing_tables_nested :
    (∃ t, nested.table .slr1 = .ok (.action t) ∧ t.Recognizes nested) ∧
    (∃ t, nested.table .lr1 = .ok (.action t) ∧ t.Recognizes nested) ∧
    ∃ t, nested.table .lalr1 = .ok (.action t) ∧ t.Recognizes nested := by
  obtain ⟨hslr, hlr, hlalr⟩ := exists_recognizing_tables (g := nested) (by decide +kernel)
  exact ⟨hslr (by decide +kernel), hlr (by decide +kernel), hlalr (by decide +kernel)⟩

end Grammar

end GrammarTables
