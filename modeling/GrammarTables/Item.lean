import GrammarTables.Analysis
import GrammarTables.Grammar.Basic
import GrammarTables.Ordered.Sorted

/-!
# Items

An item is a dotted rule, its core, perhaps with lookaheads: symbols that may come after the body. A
dotted rule is a production with a dot in its body. The symbols before the dot have been read and
those after it are expected.
-/

namespace GrammarTables

/-! ### Dotted rules -/

/-- A production with a dot in its body. The position is a 16-bit word. -/
structure DottedRule where
  production : ProductionId
  dot : UInt16
deriving DecidableEq

namespace DottedRule

instance : Ord DottedRule := ⟨compareLex (compareOn production) (compareOn dot)⟩

instance : Std.TransOrd DottedRule :=
  inferInstanceAs (Std.TransCmp (compareLex (compareOn production) (compareOn dot)))

instance : Std.LawfulEqOrd DottedRule where
  toReflCmp := inferInstanceAs (Std.ReflCmp (compareLex (compareOn production) (compareOn dot)))
  eq_of_compare {a b} h := by
    obtain ⟨hp, hd⟩ := compareLex_eq_eq.mp h
    have hp : compare a.production b.production = .eq := hp
    have hd : compare a.dot b.dot = .eq := hd
    cases a
    cases b
    simp_all

def initial : DottedRule := ⟨.accept, 0⟩

def shifted (d : DottedRule) : DottedRule := { d with dot := d.dot + 1 }

def remainder (g : Grammar) (d : DottedRule) : List Symbol := g.bodyFrom d.production d.dot.toNat

def next? (g : Grammar) (d : DottedRule) : Option Symbol := (d.remainder g).head?

def rest (g : Grammar) (d : DottedRule) : List Symbol := (d.remainder g).tail

def isComplete (g : Grammar) (d : DottedRule) : Bool := (d.remainder g).isEmpty

theorem remainder_eq (g : Grammar) (d : DottedRule) :
    d.remainder g = (g.body d.production).drop d.dot.toNat :=
  g.bodyFrom_eq d.production d.dot.toNat

theorem remainder_eq_cons {g : Grammar} {d : DottedRule} {x : Symbol} (h : d.next? g = some x) :
    d.remainder g = x :: d.rest g := by
  rw [next?] at h
  rw [rest]
  exact List.head?_eq_some_iff.mp h |>.elim fun l hl => by rw [hl, List.tail_cons]

/-- How an item core is written. A dot beyond the end of the body is not shown. -/
def text (g : Grammar) (d : DottedRule) : String :=
  let head := (g.head? d.production).elim "$start" Symbol.text
  let body := (g.body d.production).map Symbol.text
  let dot := d.dot.toNat
  let words := if dot ≤ body.length then body.take dot ++ "." :: body.drop dot else body
  head ++ " ->" ++ String.join (words.map fun word => " " ++ word)

end DottedRule

/-! ### Kinds of items

There are three kinds: bare cores, cores with one lookahead, and cores with a set of lookaheads. -/

/-- A core with one lookahead, a symbol that may come after the body. -/
structure LookaheadItem where
  core : DottedRule
  lookahead : Symbol
deriving DecidableEq

namespace LookaheadItem

instance : Ord LookaheadItem := ⟨compareLex (compareOn core) (compareOn lookahead)⟩

instance : Std.TransOrd LookaheadItem :=
  inferInstanceAs (Std.TransCmp (compareLex (compareOn core) (compareOn lookahead)))

instance : Std.LawfulEqOrd LookaheadItem where
  toReflCmp := inferInstanceAs (Std.ReflCmp (compareLex (compareOn core) (compareOn lookahead)))
  eq_of_compare {a b} h := by
    obtain ⟨hc, hl⟩ := compareLex_eq_eq.mp h
    have hc : compare a.core b.core = .eq := hc
    have hl : compare a.lookahead b.lookahead = .eq := hl
    cases a
    cases b
    simp_all

end LookaheadItem

/-- A core with a set of lookaheads, in ascending order. -/
structure MergedItem where
  core : DottedRule
  lookaheads : List Symbol
deriving DecidableEq

namespace MergedItem

def ofCore (core : DottedRule) : MergedItem := ⟨core, []⟩

def addLookahead (item : MergedItem) (x : Symbol) : MergedItem :=
  { item with lookaheads := insertSorted x item.lookaheads }

/-- Whether two items have the same core; the lookaheads do not distinguish items. -/
def same (a b : MergedItem) : Bool := a.core == b.core

end MergedItem

class Item (ι : Type) where
  /-- The item without its lookaheads. -/
  core : ι → DottedRule
  /-- The lookaheads of the item. -/
  lookaheads : ι → List Symbol

instance : Item DottedRule := ⟨id, fun _ => []⟩

instance : Item LookaheadItem := ⟨LookaheadItem.core, fun item => [item.lookahead]⟩

instance : Item MergedItem := ⟨MergedItem.core, MergedItem.lookaheads⟩

def itemText {ι : Type} [Item ι] (g : Grammar) (item : ι) : String :=
  let lookaheads := Item.lookaheads item
  let after := if lookaheads.isEmpty then "" else ", " ++ spaced (lookaheads.map Symbol.text)
  "[" ++ (Item.core item).text g ++ after ++ "]"

/-! ### Predicting items

If a nonterminal comes after the dot of an item, the next thing read may be the beginning of one of
its bodies, so the item predicts items that have the dot there. Bare cores and items with one
lookahead are predictive; automata are built from either kind. -/

/-- The kinds of items that an automaton is built from. -/
class PredictiveItem (ι : Type) extends Item ι, Ord ι where
  [transOrd : Std.TransOrd ι]
  [lawfulEqOrd : Std.LawfulEqOrd ι]
  /-- The item of the augmented production that begins all sentences. -/
  initial : ι
  /-- Move the dot over one symbol. -/
  shifted : ι → ι
  /-- The items that begin a body of the nonterminal after the dot. -/
  predict : Grammar → FirstTable → ι → Except GrammarError (List ι)

attribute [instance] PredictiveItem.transOrd PredictiveItem.lawfulEqOrd

/-- A bare core predicts every alternative of the nonterminal after the dot. -/
def DottedRule.predict (g : Grammar) (d : DottedRule) : Except GrammarError (List DottedRule) :=
  if d.production ∈ g then
    match d.next? g with
    | some x => .ok ((g.alternatives x).map fun p => ⟨p, 0⟩)
    | none => .ok []
  else .error (.unknownProduction d.production)

/-- An item with a lookahead predicts every alternative with each symbol that may come after it:
the first symbols of what is behind the nonterminal, the lookahead at the very end. -/
def LookaheadItem.predict (g : Grammar) (t : FirstTable) (item : LookaheadItem) :
    Except GrammarError (List LookaheadItem) :=
  if item.core.production ∈ g then
    match item.core.remainder g with
    | x :: rest =>
      if g.isNonterminal x then do
        let lookaheads ← t.firstOfSnoc rest item.lookahead
        return (g.alternatives x).flatMap fun p =>
          lookaheads.toList.map fun y => ⟨⟨p, 0⟩, y⟩
      else .ok []
    | [] => .ok []
  else .error (.unknownProduction item.core.production)

instance : PredictiveItem DottedRule where
  initial := .initial
  shifted := .shifted
  predict g _ item := item.predict g

instance : PredictiveItem LookaheadItem where
  initial := ⟨.initial, .endOfInput⟩
  shifted item := { item with core := item.core.shifted }
  predict g t item := item.predict g t

end GrammarTables
