import GrammarTables.Analysis
import GrammarTables.Automaton
import GrammarTables.Table.Action
import GrammarTables.Table.Prediction
import GrammarTables.Table.Uniform

/-!
# The table of a grammar under a discipline

No table is built for a cyclic grammar. A grammar belongs to a discipline if its table under the
discipline has no conflict.
-/

namespace GrammarTables

inductive Table where
  | prediction (table : PredictionTable)
  | uniform (table : UniformTable)
  | action (table : ActionTable)

def Table.text (g : Grammar) : Table → String
  | prediction table => table.text g
  | uniform table => table.text g
  | action table => table.text g

def conflicting : Except Conflict Unit → Except Rejection Unit
  | .ok _ => .ok ()
  | .error c => .error (.conflict c)

/-- Refuse a table with a conflict. The LL(1) discipline decides by FIRST and FOLLOW sets. -/
def Table.check (g : Grammar) (d : Discipline) : Table → Except Rejection Unit
  | prediction _ => g.checkPredictive g.firstTable
  | uniform table => conflicting (table.check g)
  | action table => conflicting (table.check d)

def Grammar.lr0Automaton (g : Grammar) : Except GrammarError (Automaton DottedRule) :=
  canonical DottedRule g g.firstTable

def Grammar.lr1Automaton (g : Grammar) : Except GrammarError (Automaton LookaheadItem) :=
  canonical LookaheadItem g g.firstTable

def Grammar.lalr1Automaton (g : Grammar) : Except GrammarError (Automaton MergedItem) := do
  let a ← g.lr1Automaton
  return a.mergeByCore

def Grammar.table (g : Grammar) (d : Discipline) : Except GrammarError Table := do
  g.checkAcyclic
  match d with
  | .ll1 => return .prediction (← g.predictionTable g.firstTable)
  | .lr0 => return .uniform (.ofAutomaton g (← g.lr0Automaton))
  | .slr1 => return .action (.ofFollow g (g.followSets g.firstTable) (← g.lr0Automaton))
  | .lr1 => return .action (.ofLookaheads g (← g.lr1Automaton))
  | .lalr1 => return .action (.ofLookaheads g (← g.lalr1Automaton))

/-- Decide whether a grammar belongs to a discipline, and why not. -/
def Grammar.classify (g : Grammar) (d : Discipline) : Except Rejection Unit := do
  let table ← rejecting (g.table d)
  table.check g d

end GrammarTables
