import GrammarTables.Table.Basic

/-!
# Constructions made once

A workbench holds the automata and tables of one grammar. Each is made when it is first asked for,
and the automata are shared by the tables that are read off them.
-/

namespace GrammarTables

/-- The automata and tables of one grammar. -/
structure Workbench where
  grammar : Grammar
  /-- Whether the grammar is cyclic. -/
  acyclic : Thunk (Except GrammarError Unit)
  lr0 : Thunk (Except GrammarError (Automaton DottedRule))
  lr1 : Thunk (Except GrammarError (Automaton LookaheadItem))
  lalr1 : Thunk (Except GrammarError (Automaton MergedItem))
  /-- The tables by discipline. -/
  table : Discipline → Thunk (Except GrammarError Table)

namespace Workbench

def ofGrammar (g : Grammar) : Workbench :=
  let acyclic : Thunk (Except GrammarError Unit) := Thunk.mk fun _ => g.checkAcyclic
  let lr0 : Thunk (Except GrammarError (Automaton DottedRule)) := Thunk.mk fun _ => g.lr0Automaton
  let lr1 : Thunk (Except GrammarError (Automaton LookaheadItem)) :=
    Thunk.mk fun _ => g.lr1Automaton
  let lalr1 : Thunk (Except GrammarError (Automaton MergedItem)) := Thunk.mk fun _ => do
    let a ← lr1.get
    return a.mergeByCore
  let guarded (build : Unit → Except GrammarError Table) : Thunk (Except GrammarError Table) :=
    Thunk.mk fun _ => do
      acyclic.get
      build ()
  let ll1Table := guarded fun _ => return .prediction (← g.predictionTable g.firstTable)
  let lr0Table := guarded fun _ => return .uniform (.ofAutomaton g (← lr0.get))
  let slr1Table := guarded fun _ =>
    return .action (.ofFollow g (g.followSets g.firstTable) (← lr0.get))
  let lr1Table := guarded fun _ => return .action (.ofLookaheads g (← lr1.get))
  let lalr1Table := guarded fun _ => return .action (.ofLookaheads g (← lalr1.get))
  { grammar := g
    acyclic
    lr0
    lr1
    lalr1
    table := fun
      | .ll1 => ll1Table
      | .lr0 => lr0Table
      | .slr1 => slr1Table
      | .lr1 => lr1Table
      | .lalr1 => lalr1Table }

theorem table_ofGrammar (g : Grammar) (d : Discipline) :
    ((ofGrammar g).table d).get = g.table d := by
  cases d <;> rfl

def classify (w : Workbench) (d : Discipline) : Except Rejection Unit := do
  let table ← rejecting (w.table d).get
  table.check w.grammar d

theorem classify_ofGrammar (g : Grammar) (d : Discipline) :
    (ofGrammar g).classify d = g.classify d := by
  rw [classify, table_ofGrammar]
  rfl

def acyclicAutomaton {ι : Type} (w : Workbench)
    (automaton : Thunk (Except GrammarError (Automaton ι))) :
    Except GrammarError (Automaton ι) := do
  w.acyclic.get
  automaton.get

/-- The text of the automaton that the table of a discipline is read off, if it is read off one. -/
def automatonText? (w : Workbench) (d : Discipline) : Option (Except GrammarError String) :=
  let textOf {ι : Type} [Item ι] (automaton : Thunk (Except GrammarError (Automaton ι))) :
      Except GrammarError String := do
    let a ← w.acyclicAutomaton automaton
    return a.text w.grammar
  match d with
  | .ll1 => none
  | .lr0 | .slr1 => some (textOf w.lr0)
  | .lr1 => some (textOf w.lr1)
  | .lalr1 => some (textOf w.lalr1)

end Workbench

end GrammarTables
