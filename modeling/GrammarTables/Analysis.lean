import GrammarTables.Grammar.Basic
import GrammarTables.Relation

/-!
# The properties of a grammar

Which nonterminals derive the empty string, derive no string of terminals, or stand in no sentential
form; whether some nonterminal derives itself; and the FIRST and FOLLOW sets.
-/

namespace GrammarTables

/-! ### Nullable and unproductive nonterminals

Both sets come from one inference: a head holds as soon as one of its bodies consists of symbols
that hold. If no symbol holds from the start, the heads that come to hold derive the empty string;
if the terminals do, they derive a string of terminals. The rules are passed over until a pass adds
nothing. -/

namespace Grammar

/-- One pass over the rules. A head that comes to hold counts for the rules after it. -/
def inferPass (g : Grammar) (base : Symbol → Bool) (known : OrderedSet Symbol) :
    OrderedSet Symbol :=
  g.rules.foldl
    (fun known r =>
      if known.contains r.head then known
      else if r.body.all fun x => base x || known.contains x then known.insert r.head
      else known)
    known

/-- Repeat the pass until it adds nothing, at most `passes` times. -/
def inferRest (g : Grammar) (base : Symbol → Bool) :
    Nat → OrderedSet Symbol → OrderedSet Symbol
  | 0, known => known
  | passes + 1, known =>
    let known' := g.inferPass base known
    if known'.size = known.size then known else g.inferRest base passes known'

/-- The heads that hold when the symbols in `base` do, in the order of their inference. Each pass
but the last adds a nonterminal, which bounds the number of passes. -/
def infer (g : Grammar) (base : Symbol → Bool) : OrderedSet Symbol :=
  g.inferRest base g.nonterminals.size ∅

def nullable (g : Grammar) : OrderedSet Symbol := g.infer fun _ => false

def unproductive (g : Grammar) : List Symbol :=
  let productive := g.infer g.isTerminal
  g.nonterminals.toList.filter fun x => !productive.contains x

/-- The rules that give their head another way to derive the empty string: of the rules with the
same head and nullable body, all but the first. -/
def nullAmbiguity (g : Grammar) (nullable : OrderedSet Symbol) : List (ProductionId × Rule) :=
  let vanishing := g.numbered.filter fun (_, r) => r.body.all nullable.contains
  let (_, repeated) := vanishing.foldl
    (fun ((seen : OrderedSet Symbol), repeated) (p, r) =>
      if seen.contains r.head then (seen, repeated.push (p, r))
      else (seen.insert r.head, repeated))
    (∅, #[])
  repeated.toList

/-! ### Unreachable nonterminals

A nonterminal is reachable if it is the start symbol or if some chain of rules leads to it from the
start symbol, each rule with the next symbol in its body. -/

def bodyRelation (g : Grammar) : Relation Symbol :=
  Relation.ofEdges (g.rules.toList.flatMap fun r => r.body.map fun x => (r.head, x))

/-- The nonterminals in no sentential form that the start symbol derives. -/
def unreachable (g : Grammar) : List Symbol :=
  let reached := g.bodyRelation.closure.targets g.start
  g.nonterminals.toList.filter fun x => x ≠ g.start && !reached.contains x

end Grammar

/-! ### Cyclic grammars

A grammar is cyclic if some nonterminal derives itself in one or more steps. Such a derivation goes
from head to body along rules in which all symbols but one may vanish. -/

/-- The symbols that a body can be reduced to, when the symbols beside them derive the empty
string. -/
def survivors (nullable : OrderedSet Symbol) (body : List Symbol) : List Symbol :=
  match body.filter fun x => !nullable.contains x with
  | [] => body
  | [x] => [x]
  | _ => []

namespace Grammar

/-- A head leads to the nonterminals that its bodies can be reduced to. -/
def unitRelation (g : Grammar) : Relation Symbol :=
  let nullable := g.nullable
  Relation.ofEdges (g.rules.toList.flatMap fun r =>
    ((survivors nullable r.body).filter g.isNonterminal).map fun x => (r.head, x))

/-- A walk of heads that comes back to one of its symbols; empty if the grammar is not cyclic. -/
def cycle (g : Grammar) : List Symbol := g.unitRelation.cycle

def checkAcyclic (g : Grammar) : Except GrammarError Unit :=
  match g.cycle with
  | [] => .ok ()
  | cycle => .error (.cyclic cycle)

end Grammar

/-! ### FIRST sets

The FIRST set of a nonterminal holds the terminals that its sentential forms begin with. A body
contributes its symbols up to the first that is not nullable: terminals directly, nonterminals by
their own FIRST sets. The sets, with the nullable nonterminals, answer the same question for strings
of symbols; there the end of the input counts as a terminal. -/

/-- The symbols of a string up to the first that is not nullable, that one included. -/
def leading (nullable : OrderedSet Symbol) (body : List Symbol) : List Symbol :=
  body.takeWhile nullable.contains ++ (body.dropWhile nullable.contains).take 1

@[simp] theorem leading_nil (nullable : OrderedSet Symbol) : leading nullable [] = [] := rfl

theorem leading_cons (nullable : OrderedSet Symbol) (x : Symbol) (body : List Symbol) :
    leading nullable (x :: body) = x :: if x ∈ nullable then leading nullable body else [] := by
  by_cases h : x ∈ nullable
  · have hc := OrderedSet.contains_iff.mpr h
    simp [leading, hc, h]
  · have hc : nullable.contains x = false := by
      rw [← Bool.not_eq_true, OrderedSet.contains_iff]
      exact h
    simp [leading, hc, h]

structure FirstTable where
  /-- The terminals of the grammar. -/
  terminals : OrderedSet Symbol
  /-- The nonterminals that derive the empty string. -/
  nullable : OrderedSet Symbol
  /-- The FIRST set of each nonterminal. -/
  sets : OrderedMap Symbol (OrderedSet Symbol)

namespace FirstTable

def stopsAt (t : FirstTable) (x : Symbol) : Bool := x = .endOfInput || t.terminals.contains x

/-- Add the first symbols of a string to `acc`, and tell whether the whole string may vanish. A
symbol that the grammar lacks is an error if all symbols before it may vanish. -/
def scan (t : FirstTable) (acc : OrderedSet Symbol) :
    List Symbol → Except GrammarError (OrderedSet Symbol × Bool)
  | [] => .ok (acc, true)
  | x :: rest =>
    if t.stopsAt x then .ok (acc.insert x, false)
    else
      match t.sets.get? x with
      | none => .error (.unexpectedSymbol x)
      | some first =>
        if t.nullable.contains x then t.scan (acc.union first) rest
        else .ok (acc.union first, false)

def firstOf (t : FirstTable) (string : List Symbol) : Except GrammarError (OrderedSet Symbol) := do
  let (first, _) ← t.scan ∅ string
  return first

def firstOfSnoc (t : FirstTable) (string : List Symbol) (last : Symbol) :
    Except GrammarError (OrderedSet Symbol) := do
  let (first, vanishes) ← t.scan ∅ string
  if vanishes then
    let (first, _) ← t.scan first [last]
    return first
  else return first

def isNullable (t : FirstTable) : List Symbol → Except GrammarError Bool
  | [] => .ok true
  | x :: rest =>
    if t.stopsAt x then .ok false
    else if !t.sets.keys.contains x then .error (.unexpectedSymbol x)
    else if t.nullable.contains x then t.isNullable rest
    else .ok false

theorem scan_append (t : FirstTable) (acc : OrderedSet Symbol) (l m : List Symbol) :
    t.scan acc (l ++ m) =
      (do
        let (first, vanishes) ← t.scan acc l
        if vanishes then t.scan first m else return (first, false)) := by
  induction l generalizing acc with
  | nil => rfl
  | cons x l ih =>
    simp only [List.cons_append, scan]
    split
    · rfl
    · split
      · rfl
      · split
        · exact ih _
        · rfl

theorem firstOfSnoc_eq (t : FirstTable) (string : List Symbol) (last : Symbol) :
    t.firstOfSnoc string last = t.firstOf (string ++ [last]) := by
  rw [firstOfSnoc, firstOf, scan_append]
  cases t.scan ∅ string with
  | error e => rfl
  | ok result =>
    obtain ⟨first, vanishes⟩ := result
    cases vanishes <;> rfl

end FirstTable

namespace Grammar

def directFirst (g : Grammar) (nullable : OrderedSet Symbol) : Relation Symbol :=
  Relation.ofEdges (g.rules.toList.flatMap fun r =>
    ((leading nullable r.body).filter fun x => !g.isNonterminal x).map fun x => (r.head, x))

def inheritedFirst (g : Grammar) (nullable : OrderedSet Symbol) : Relation Symbol :=
  Relation.ofEdges (g.rules.toList.flatMap fun r =>
    ((leading nullable r.body).filter g.isNonterminal).map fun x => (r.head, x))

def firstSets (g : Grammar) (nullable : OrderedSet Symbol) :
    OrderedMap Symbol (OrderedSet Symbol) :=
  let first := (g.directFirst nullable).propagate (g.inheritedFirst nullable)
  OrderedMap.ofKeys g.nonterminals first.targets

def firstTable (g : Grammar) : FirstTable :=
  let nullable := g.nullable
  ⟨g.terminals, nullable, g.firstSets nullable⟩

end Grammar

/-! ### FOLLOW sets

The FOLLOW set of a nonterminal holds the symbols that come right after it in sentential forms. The
end of the input follows the start symbol. In a body, a nonterminal is followed by what the rest of
the body begins with; where the rest may vanish, by whatever follows the head. -/

namespace Grammar

/-- What follows the nonterminals of a body within it. -/
def followedWithin (g : Grammar) (t : FirstTable) (body : List Symbol) : List (Symbol × Symbol) :=
  (suffixesInto #[] body).toList.flatMap fun
    | [] => []
    | x :: rest =>
      if g.isNonterminal x then
        (leading t.nullable rest).flatMap fun y =>
          match t.sets.get? y with
          | some first => first.toList.map fun z => (x, z)
          | none => [(x, y)]
      else []

/-- What follows a nonterminal by a single rule, and the end of the input after the start symbol. -/
def directFollow (g : Grammar) (t : FirstTable) : Relation Symbol :=
  Relation.ofEdges
    ((g.start, .endOfInput) :: g.rules.toList.flatMap fun r => g.followedWithin t r.body)

/-- The nonterminals that may end a body are followed by what follows its head. -/
def inheritedFollow (g : Grammar) (t : FirstTable) : Relation Symbol :=
  Relation.ofEdges (g.rules.toList.flatMap fun r =>
    ((leading t.nullable r.body.reverse).filter g.isNonterminal).map fun x => (x, r.head))

def followSets (g : Grammar) (t : FirstTable) : OrderedMap Symbol (OrderedSet Symbol) :=
  let follow := (g.directFollow t).propagate (g.inheritedFollow t)
  OrderedMap.ofKeys g.nonterminals follow.targets

end Grammar

end GrammarTables
