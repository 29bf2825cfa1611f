import GrammarTables.Item
import GrammarTables.Ordered.Map
import GrammarTables.Ordered.Set

/-!
# Automata of items

A state of an automaton is a list of items; its kernel is the part that the others are predicted
from. Transitions read one symbol. States are numbered by 16-bit words in the order in which they
are listed, and state zero is the initial one.
-/

namespace GrammarTables

structure StateId where
  word : UInt16
deriving DecidableEq

namespace StateId

def ofIndex (index : Nat) : StateId := ⟨UInt16.ofNat index⟩

def index (q : StateId) : Nat := q.word.toNat

def text (q : StateId) : String := toString q.index

def label (q : StateId) : String := "S#" ++ threeDigits q.index

end StateId

structure State (ι : Type) where
  id : StateId
  /-- The items that the others are predicted from. -/
  kernel : List ι
  /-- All items, those of the kernel first. -/
  items : List ι
  /-- For each symbol that some item expects, the state after it. -/
  transitions : List (Symbol × StateId)
deriving DecidableEq

namespace State

variable {ι : Type} [Item ι]

def completed (g : Grammar) (s : State ι) : List ι :=
  s.items.filter fun item => (Item.core item).isComplete g

def next? (s : State ι) (x : Symbol) : Option StateId := s.transitions.lookup x

def text (g : Grammar) (s : State ι) : String :=
  let itemLines (items : List ι) := items.map fun item => "- " ++ itemText g item ++ "\n"
  let predicted := s.items.drop s.kernel.length
  let transitionLines := s.transitions.map fun (x, q) =>
    "- " ++ x.text ++ " => " ++ q.label ++ "\n"
  let titled (title : String) (lines : List String) :=
    if lines.isEmpty then "" else title ++ "\n" ++ String.join lines
  "## kernels:\n" ++ String.join (itemLines s.kernel) ++
    titled "## closure:" (itemLines predicted) ++ titled "## transitions:" transitionLines

end State

/-- An automaton; the state at each index has that index as its number. -/
structure Automaton (ι : Type) where
  states : Array (State ι)
deriving DecidableEq

namespace Automaton

variable {ι : Type} [Item ι]

def size (a : Automaton ι) : Nat := a.states.size

def state? (a : Automaton ι) (q : StateId) : Option (State ι) := a.states[q.index]?

def text (g : Grammar) (a : Automaton ι) : String :=
  "\n".intercalate (a.states.toList.map fun s =>
    "#### State " ++ s.id.label ++ "\n" ++ s.text g)

end Automaton

/-! ### Closure and successors of item lists

The closure of a list of items adds everything that the items predict. The successors of a list are
the kernels that arise when one symbol is read: for each symbol after a dot, the items with the dot
moved over it. -/

section Construction

variable {ι : Type} [PredictiveItem ι]

/-- A bound on the size of a closure: besides the items it starts from, a closure holds items with
the dot in front, and of those there is at most one for each rule and lookahead. -/
def closureBound (g : Grammar) (kernel : List ι) : Nat :=
  kernel.length + g.rules.size * (g.terminals.size + 1)

/-- The items of a list with everything that follows from them by prediction, in the order of
discovery. -/
def closure (g : Grammar) (t : FirstTable) (kernel : List ι) : Except GrammarError (List ι) := do
  let visit (item : ι) : Except GrammarError (Unit × List ι) := do
    let predicted ← PredictiveItem.predict g t item
    return ((), predicted)
  let e ← Exploration.run visit (closureBound g kernel) kernel
  return e.found.toList

def shiftedItems (g : Grammar) (items : List ι) : List (Symbol × ι) :=
  items.filterMap fun item =>
    ((Item.core item).next? g).map fun x => (x, PredictiveItem.shifted item)

/-- The kernel after each symbol that some item expects, in the order in which the items first
expect them. Kernels are ascending lists, so kernels with the same items are equal. -/
def successors (g : Grammar) (items : List ι) : List (Symbol × List ι) :=
  ((OrderedMap.group (shiftedItems g items)).mapValues sortDistinct).toList

/-- The successors of a list of items that all belong to the grammar. -/
def successors? (g : Grammar) (items : List ι) : Except GrammarError (List (Symbol × List ι)) :=
  match items.find? fun item => (Item.core item).production ∉ g with
  | some stray => .error (.unknownProduction (Item.core stray).production)
  | none => .ok (successors g items)

/-! ### The canonical collection

The automaton of a grammar has one state for each kernel that can be reached from the initial item.
The kernels are found breadth-first, and a state's number is the place of its kernel in that order.
Numbers are 16-bit words, so an automaton has at most 65536 states. -/

structure Expansion (ι : Type) where
  /-- The closure of the kernel. -/
  items : List ι
  /-- The kernels after each symbol. -/
  successors : List (Symbol × List ι)

def stateLimit : Nat := 65536

def expand (g : Grammar) (t : FirstTable) (kernel : List ι) :
    Except GrammarError (Expansion ι × List (List ι)) := do
  let items ← closure g t kernel
  let next ← successors? g items
  return (⟨items, next⟩, next.map Prod.snd)

def statesOf (e : Exploration (List ι) (Expansion ι)) : List (State ι) :=
  (e.found.toList.zip e.notes.toList).zipIdx.map fun ((kernel, expansion), index) =>
    { id := .ofIndex index
      kernel
      items := expansion.items
      transitions := expansion.successors.map fun (x, next) =>
        (x, .ofIndex ((e.found.position? next).getD 0)) }

/-- The automaton of a grammar over one kind of predictive items. -/
def canonical (ι : Type) [PredictiveItem ι] (g : Grammar) (t : FirstTable) :
    Except GrammarError (Automaton ι) := do
  let e ← Exploration.run (expand g t) stateLimit [[PredictiveItem.initial]]
  if stateLimit < e.found.size then throw .tooManyStates
  return ⟨(statesOf e).toArray⟩

end Construction

/-! ### Merging states with equal cores

States of the automaton over items with one lookahead that differ in their lookaheads only become
one state, whose items carry all lookaheads of their cores. The merged states are numbered in the
order in which their cores first occur. All members of a merged state have transitions on the same
symbols into the same merged states, so it takes those of its first member. -/

/-- One item for each core, in order of first occurrence, with all lookaheads of the core. -/
def gatherLookaheads (entries : List (DottedRule × List Symbol)) : List MergedItem :=
  (OrderedMap.group entries).toList.map fun (core, lists) =>
    ⟨core, lists.flatten.foldl (fun lookaheads x => insertSorted x lookaheads) []⟩

def collapse (items : List LookaheadItem) : List MergedItem :=
  gatherLookaheads (items.map fun item => (item.core, [item.lookahead]))

def mergeItems (lists : List (List MergedItem)) : List MergedItem :=
  gatherLookaheads (lists.flatten.map fun item => (item.core, item.lookaheads))

def distinctItems (items : List MergedItem) : List MergedItem :=
  (OrderedMap.group (items.map fun item => (item.core, item))).toList.filterMap
    fun (_, same) => same.head?

namespace State

def collapse (s : State LookaheadItem) : State MergedItem :=
  { s with
    kernel := GrammarTables.collapse s.kernel
    items := GrammarTables.collapse s.items }

/-- The cores of a kernel in ascending order; states that agree in it are merged. -/
def kernelCores (s : State MergedItem) : List DottedRule :=
  sortDistinct (s.kernel.map MergedItem.core)

end State

namespace Automaton

def coreClasses (states : List (State MergedItem)) :
    OrderedMap (List DottedRule) (List (State MergedItem)) :=
  OrderedMap.group (states.map fun s => (s.kernelCores, s))

/-- The automaton with the states merged that have equal kernel cores. -/
def mergeByCore (a : Automaton LookaheadItem) : Automaton MergedItem :=
  let collapsed := a.states.toList.map State.collapse
  let classes := coreClasses collapsed
  let mergedIds := (collapsed.map fun s =>
    StateId.ofIndex ((classes.keys.position? s.kernelCores).getD 0)).toArray
  let mergedId (q : StateId) : StateId := (mergedIds[q.index]?).getD q
  let states := classes.toList.zipIdx.map fun ((_, members), index) =>
    { id := .ofIndex index
      kernel := mergeItems (members.map State.kernel)
      items := mergeItems (members.map State.items)
      transitions := (members.head?.elim [] State.transitions).map fun (x, q) =>
        (x, mergedId q) }
  ⟨states.toArray⟩

end Automaton

end GrammarTables
