import GrammarTables.Automaton

/-!
# Parsing disciplines

The five ways to build a parse table, their names, and why a grammar has no table of a discipline.
A conflict names one entry of a table that holds more than one action. A rejection is either a
conflict or an error of the grammar itself. The wording of both is in their `message`.
-/

namespace GrammarTables

/-- A way to build a parse table. -/
inductive Discipline where
  | ll1
  | lr0
  | slr1
  | lr1
  | lalr1
deriving DecidableEq

namespace Discipline

def all : List Discipline := [ll1, lr0, slr1, lr1, lalr1]

def text : Discipline → String
  | ll1 => "LL(1)"
  | lr0 => "LR(0)"
  | slr1 => "SLR(1)"
  | lr1 => "LR(1)"
  | lalr1 => "LALR(1)"

def name : Discipline → String
  | ll1 => "ll1"
  | lr0 => "lr0"
  | slr1 => "slr1"
  | lr1 => "lr1"
  | lalr1 => "lalr1"

/-- The discipline with a name; the case of ASCII letters is ignored on request. -/
def ofName? (given : String) (ignoreCase : Bool) : Option Discipline :=
  all.find? fun d =>
    if ignoreCase then d.name = String.ofList (given.toList.map Char.toLower) else d.name = given

theorem ofName?_name (d : Discipline) : ofName? d.name false = some d := by
  cases d <;> rfl

end Discipline

/-! ### Conflicts -/

/-- Two actions for one entry of a table. -/
inductive Conflict where
  | nullAmbiguity (nonterminal : Symbol) (production : ProductionId)
  | firstFirst (nonterminal terminal : Symbol)
  | firstFollow (nonterminal terminal : Symbol)
  | reduceReduce (discipline : Discipline) (state : StateId) (token : Option Symbol)
  | shiftReduce (discipline : Discipline) (state : StateId) (token : Option Symbol)
deriving DecidableEq

namespace Conflict

private def quoted (x : Symbol) : String := "`" ++ x.text ++ "`"

private def inState (d : Discipline) (kind : String) (q : StateId) (token : Option Symbol) :
    String :=
  d.text ++ ": " ++ kind ++ " conflict in state " ++ q.text ++
    token.elim "" fun x => " on " ++ quoted x

def message : Conflict → String
  | nullAmbiguity x p =>
    quoted x ++ " derives ε through more than one production (" ++ p.label ++ ")"
  | firstFirst x y => "alternatives of " ++ quoted x ++ " may both begin with " ++ quoted y
  | firstFollow x y => quoted y ++ " is both in FIRST and FOLLOW of nullable " ++ quoted x
  | reduceReduce d q token => inState d "reduce/reduce" q token
  | shiftReduce d q token => inState d "shift/reduce" q token

end Conflict

/-- Why a grammar does not belong to a discipline. -/
inductive Rejection where
  | invalid (error : GrammarError)
  | conflict (conflict : Conflict)
deriving DecidableEq

namespace Rejection

def title : Rejection → String
  | invalid _ => "invalid grammar"
  | conflict _ => "grammar rejected"

def message : Rejection → String
  | invalid error => error.message
  | conflict c => c.message

end Rejection

def rejecting {α : Type} : Except GrammarError α → Except Rejection α
  | .ok a => .ok a
  | .error e => .error (.invalid e)

end GrammarTables
