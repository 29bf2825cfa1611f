import GrammarTables.Analysis
import GrammarTables.Discipline

/-!
# LL(1) tables

A prediction table says for a nonterminal and the next token which productions may be used. A
production is predicted on the FIRST set of its body, and also on the FOLLOW set of its head if the
body may vanish.
-/

namespace GrammarTables

structure PredictionTable where
  rows : OrderedMap Symbol (OrderedMap Symbol (List ProductionId))

namespace PredictionTable

def cell (table : PredictionTable) (x token : Symbol) : List ProductionId :=
  (table.rows.getD x ∅).getD token []

def text (g : Grammar) (table : PredictionTable) : String :=
  let entry (token : Symbol) (ps : List ProductionId) : String :=
    "- " ++ token.text ++ " => " ++
      match ps with
      | [p] => g.productionText p ++ "\n"
      | ps => "conflict\n" ++ String.join (ps.map fun p => "  - " ++ g.productionText p ++ "\n")
  "\n".intercalate (table.rows.toList.map fun (x, row) =>
    "#### Nonterminal " ++ x.text ++ "\n" ++
      String.join (row.toList.map fun (token, ps) => entry token ps))

end PredictionTable

namespace Grammar

/-- The tokens on which a rule is predicted. -/
def predictedOn (t : FirstTable) (follow : OrderedMap Symbol (OrderedSet Symbol)) (r : Rule) :
    Except GrammarError (OrderedSet Symbol) := do
  let first ← t.firstOf r.body
  if ← t.isNullable r.body then
    return first.union (follow.getD r.head ∅)
  else return first

def predictionTable (g : Grammar) (t : FirstTable) : Except GrammarError PredictionTable := do
  let follow := g.followSets t
  let entries ← g.numbered.mapM fun (p, r) => do
    let tokens ← predictedOn t follow r
    return (r.head, tokens.toList.map fun token => (token, p))
  let byHead := OrderedMap.group entries
  return ⟨OrderedMap.ofKeys g.nonterminals fun x => OrderedMap.group (byHead.getD x []).flatten⟩

/-- Refuse a rule whose body may begin with a terminal that is claimed for an earlier rule with the
same head, and claim its first terminals otherwise. -/
def claimFirst (t : FirstTable) (claimed : OrderedMap Symbol (OrderedSet Symbol)) (r : Rule) :
    Except Rejection (OrderedMap Symbol (OrderedSet Symbol)) := do
  let first ← rejecting (t.firstOf r.body)
  match first.toList.find? (claimed.getD r.head ∅).contains with
  | some terminal => throw (.conflict (.firstFirst r.head terminal))
  | none => return claimed.update r.head ∅ (·.union first)

/-- Refuse a nullable nonterminal that may begin with what may follow it. -/
def checkNullable (t : FirstTable) (follow : OrderedMap Symbol (OrderedSet Symbol)) (x : Symbol) :
    Except Rejection Unit :=
  match (t.sets.getD x ∅).toList.find? (follow.getD x ∅).contains with
  | some terminal => .error (.conflict (.firstFollow x terminal))
  | none => .ok ()

/-- Decide whether a grammar is LL(1) by its FIRST and FOLLOW sets: no nonterminal vanishes in two
ways, the alternatives of a nonterminal begin differently, and a nonterminal that may vanish does
not begin with what follows it. -/
def checkPredictive (g : Grammar) (t : FirstTable) : Except Rejection Unit := do
  match (g.nullAmbiguity t.nullable).head? with
  | some (p, r) => throw (.conflict (.nullAmbiguity r.head p))
  | none => pure ()
  let _ ← g.rules.toList.foldlM (claimFirst t) ∅
  let follow := g.followSets t
  t.nullable.toList.forM (checkNullable t follow)

end Grammar

end GrammarTables
