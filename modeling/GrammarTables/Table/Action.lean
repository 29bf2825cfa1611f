import GrammarTables.Discipline

/-!
# Tables with lookahead

The SLR(1), LR(1) and LALR(1) disciplines share one form of table: a state and the next token select
the actions, and a state and a nonterminal select the state to go to after a reduction. The
disciplines differ in the automaton and in the tokens on which a completed item reduces. All actions
are kept, so that an entry may hold more than one.
-/

namespace GrammarTables

/-- A single action of a parser. -/
inductive Move where
  | shift (next : StateId)
  | reduce (production : ProductionId)
deriving DecidableEq

namespace Move

def shift? : Move → Option StateId
  | shift q => some q
  | reduce _ => none

def reduce? : Move → Option ProductionId
  | shift _ => none
  | reduce p => some p

end Move

structure Actions where
  shift : Option StateId
  /-- The productions to reduce, each once; `accept` accepts the input. -/
  reduces : List ProductionId
deriving DecidableEq

namespace Actions

def ofMoves (moves : List Move) : Actions :=
  { shift := (moves.filterMap Move.shift?).getLast?
    reduces := (OrderedSet.ofList (moves.filterMap Move.reduce?)).toList }

def isConsistent (a : Actions) : Bool :=
  match a.shift, a.reduces with
  | some _, [] => true
  | none, [_] => true
  | _, _ => false

def text (g : Grammar) (a : Actions) : String :=
  let shiftText (q : StateId) : String := "shift(" ++ q.label ++ ")\n"
  let reduceText (p : ProductionId) : String := "reduce(" ++ g.productionText p ++ ")\n"
  match a.shift, a.reduces with
  | some q, [] => shiftText q
  | none, [p] => if p = .accept then "accept\n" else reduceText p
  | shift, reduces =>
    "inconsistent\n" ++ shift.elim "" (fun q => "  - " ++ shiftText q) ++
      String.join (reduces.map fun p => "  - " ++ reduceText p)

end Actions

structure ActionRow where
  state : StateId
  /-- The actions on each token. -/
  actions : OrderedMap Symbol Actions
  /-- The next state after reducing to each nonterminal. -/
  gotos : List (Symbol × StateId)

structure ActionTable where
  rows : Array ActionRow

namespace ActionTable

variable {ι : Type} [Item ι]

/-- The actions of a state, token by token: shifts first, then the reductions of the completed
items. -/
def movesOf (g : Grammar) (reduceOn : ι → List Symbol) (s : State ι) : List (Symbol × Move) :=
  let shifts := (s.transitions.filter fun (x, _) => !g.isNonterminal x).map fun (x, q) =>
    (x, .shift q)
  let reduces := (s.completed g).flatMap fun item =>
    (reduceOn item).map fun token => (token, .reduce (Item.core item).production)
  shifts ++ reduces

/-- Read a table off an automaton; `reduceOn` gives the tokens on which a completed item reduces. -/
def ofAutomaton (g : Grammar) (reduceOn : ι → List Symbol) (a : Automaton ι) : ActionTable :=
  ⟨a.states.map fun s =>
    { state := s.id
      actions := (OrderedMap.group (movesOf g reduceOn s)).mapValues Actions.ofMoves
      gotos := s.transitions.filter fun (x, _) => g.isNonterminal x }⟩

/-- In an LR(1) or LALR(1) table, a completed item reduces on its lookaheads. -/
def ofLookaheads (g : Grammar) (a : Automaton ι) : ActionTable := ofAutomaton g Item.lookaheads a

/-- In an SLR(1) table, a completed item reduces on what may follow its head, and the item of the
augmented production at the end of the input. -/
def ofFollow (g : Grammar) (follow : OrderedMap Symbol (OrderedSet Symbol))
    (a : Automaton DottedRule) : ActionTable :=
  let reduceOn (d : DottedRule) : List Symbol :=
    match g.head? d.production with
    | none => [.endOfInput]
    | some head => (follow.getD head ∅).toList
  ofAutomaton g reduceOn a

def row? (table : ActionTable) (q : StateId) : Option ActionRow := table.rows[q.index]?

def cell? (table : ActionTable) (q : StateId) (token : Symbol) : Option Actions := do
  let row ← table.row? q
  row.actions.get? token

/-- Refuse an entry with two reductions, or with a shift and a reduction. -/
def checkEntry (d : Discipline) (q : StateId) (entry : Symbol × Actions) : Except Conflict Unit :=
  if 1 < entry.2.reduces.length then .error (.reduceReduce d q (some entry.1))
  else if entry.2.shift.isSome && !entry.2.reduces.isEmpty then
    .error (.shiftReduce d q (some entry.1))
  else .ok ()

def check (d : Discipline) (table : ActionTable) : Except Conflict Unit :=
  table.rows.toList.forM fun row => row.actions.toList.forM (checkEntry d row.state)

def text (g : Grammar) (table : ActionTable) : String :=
  "\n".intercalate (table.rows.toList.map fun row =>
    let actionLines := row.actions.toList.map fun (token, actions) =>
      "- " ++ token.text ++ " => " ++ actions.text g
    let gotoLines := row.gotos.map fun (x, q) => "- " ++ x.text ++ " => goto(" ++ q.label ++ ")\n"
    "#### State " ++ row.state.label ++ "\n## actions\n" ++ String.join actionLines ++
      (if gotoLines.isEmpty then "" else "## gotos\n" ++ String.join gotoLines))

end ActionTable

end GrammarTables
