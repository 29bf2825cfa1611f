import GrammarTables.Discipline

/-!
# LR(0) tables

In a uniform table the reductions of a state do not depend on the next token.
-/

namespace GrammarTables

/-- What a state of an LR(0) parser may do. -/
structure UniformRow where
  state : StateId
  /-- The next state after each symbol. -/
  shifts : List (Symbol × StateId)
  /-- The productions to reduce, whatever comes next; `accept` accepts the input. -/
  reduces : List ProductionId
deriving DecidableEq

structure UniformTable where
  rows : Array UniformRow
deriving DecidableEq

namespace UniformTable

def ofAutomaton (g : Grammar) (a : Automaton DottedRule) : UniformTable :=
  ⟨a.states.map fun s =>
    { state := s.id
      shifts := s.transitions
      reduces := (OrderedSet.ofList ((s.completed g).map DottedRule.production)).toList }⟩

/-- Refuse a row with two reductions, or with a reduction and a shift of a terminal. -/
def checkRow (g : Grammar) (row : UniformRow) : Except Conflict Unit :=
  if 1 < row.reduces.length then .error (.reduceReduce .lr0 row.state none)
  else if row.reduces.isEmpty then .ok ()
  else
    match (row.shifts.map Prod.fst).find? g.isTerminal with
    | some token => .error (.shiftReduce .lr0 row.state (some token))
    | none => .ok ()

def check (g : Grammar) (table : UniformTable) : Except Conflict Unit :=
  table.rows.toList.forM (checkRow g)

def text (g : Grammar) (table : UniformTable) : String :=
  let titled (title : String) (lines : List String) : String :=
    if lines.isEmpty then "" else title ++ "\n" ++ String.join lines
  "\n".intercalate (table.rows.toList.map fun row =>
    let shiftLines := row.shifts.map fun (x, q) =>
      "- " ++ x.text ++ " => shift(" ++ q.label ++ ")\n"
    let reduceLines := row.reduces.map fun p =>
      "- " ++ (if p = .accept then "accept" else g.productionText p) ++ "\n"
    "#### State " ++ row.state.label ++ "\n" ++ titled "## shifts" shiftLines ++
      titled "## reduces" reduceLines)

end UniformTable

end GrammarTables
