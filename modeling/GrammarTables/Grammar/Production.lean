import Std.Data.ExtTreeMap.Lemmas
import GrammarTables.Ordered.Map

/-!
# Symbols, rules and productions

The symbols of a grammar have names. Two more symbols have none: the end of the input, which follows
every sentence, and the empty string. Symbols are ordered by name, the unnamed ones last.

A rule derives its body from its head. The productions of a grammar are its rules and the augmented
production, which derives the start symbol and carries the id `accept`. An id is a 16-bit word; rule
`i` has the word `i + 1`, so ids exist for the first 65535 rules only.
-/

namespace GrammarTables

/-- A symbol of a grammar, the end of the input, or the empty string. -/
inductive Symbol where
  | named (name : String)
  | endOfInput
  | epsilon
deriving DecidableEq

namespace Symbol

def isNamed : Symbol → Bool
  | named _ => true
  | _ => false

def text : Symbol → String
  | named name => name
  | endOfInput => "$"
  | epsilon => "ε"

/-- The symbol that a text stands for: `$` is the end of the input, any other text is a name. -/
def ofText (text : String) : Symbol :=
  if text = "$" then endOfInput else named text

def rank : Symbol → Nat
  | named _ => 0
  | endOfInput => 1
  | epsilon => 2

theorem eq_of_rank_of_text {a b : Symbol} (hr : a.rank = b.rank) (ht : a.text = b.text) :
    a = b := by
  cases a <;> cases b <;> simp_all [rank, text]

instance : Ord Symbol := ⟨compareLex (compareOn rank) (compareOn text)⟩

instance : Std.TransOrd Symbol :=
  inferInstanceAs (Std.TransCmp (compareLex (compareOn rank) (compareOn text)))

instance : Std.LawfulEqOrd Symbol where
  toReflCmp := inferInstanceAs (Std.ReflCmp (compareLex (compareOn rank) (compareOn text)))
  eq_of_compare {a b} h := by
    obtain ⟨hr, ht⟩ := compareLex_eq_eq.mp h
    exact eq_of_rank_of_text (Std.LawfulEqCmp.eq_of_compare hr) (Std.LawfulEqCmp.eq_of_compare ht)

end Symbol

/-! ### Rules, productions and their ids -/

def spaced (words : List String) : String := " ".intercalate words

/-- A number in decimal, filled up to at least three digits with zeros. -/
def threeDigits (n : Nat) : String :=
  let digits := toString n
  "".pushn '0' (3 - digits.length) ++ digits

/-- The name of a production in its grammar. -/
structure ProductionId where
  /-- Zero for the augmented production, one more than its index for a rule. -/
  word : UInt16
deriving DecidableEq

namespace ProductionId

/-- The id of the augmented production; reducing it accepts the input. -/
def accept : ProductionId := ⟨0⟩

/-- The id of the rule with an index, if the index is small enough to have one. -/
def ofIndex? (index : Nat) : Option ProductionId :=
  if index < 65535 then some ⟨UInt16.ofNat (index + 1)⟩ else none

def index? (p : ProductionId) : Option Nat :=
  if p = accept then none else some (p.word.toNat - 1)

def label (p : ProductionId) : String :=
  match p.index? with
  | some index => "P#" ++ threeDigits index
  | none => "P#accept"

theorem ofIndex?_eq_some_iff {index : Nat} {p : ProductionId} :
    ofIndex? index = some p ↔ index < 65535 ∧ p.word.toNat = index + 1 := by
  rw [ofIndex?]
  split <;> rename_i h
  · have hw : (UInt16.ofNat (index + 1)).toNat = index + 1 :=
      UInt16.toNat_ofNat_of_lt' (by
        change index + 1 < 65536
        omega)
    simp only [Option.some.injEq, h, true_and]
    constructor
    · rintro rfl
      exact hw
    · intro hp
      obtain ⟨word⟩ := p
      exact congrArg mk (UInt16.toNat_inj.mp (hw.trans hp.symm))
  · simp [h]

theorem index?_ofIndex? {index : Nat} {p : ProductionId} (h : ofIndex? index = some p) :
    p.index? = some index := by
  obtain ⟨-, hw⟩ := ofIndex?_eq_some_iff.mp h
  have hp : p ≠ accept := by
    rintro rfl
    cases hw
  rw [index?, if_neg hp, hw]
  rfl

instance : Ord ProductionId := ⟨compareOn word⟩

instance : Std.TransOrd ProductionId := inferInstanceAs (Std.TransCmp (compareOn word))

instance : Std.LawfulEqOrd ProductionId where
  toReflCmp := inferInstanceAs (Std.ReflCmp (compareOn word))
  eq_of_compare {a b} h := by
    have hw : compare a.word b.word = .eq := h
    cases a
    cases b
    simp_all

end ProductionId

structure Rule where
  /-- The symbol that the rule replaces. -/
  head : Symbol
  /-- What takes the place of the head. -/
  body : List Symbol
  /-- A label for the reader; it does not distinguish rules. -/
  number : Nat
deriving DecidableEq

namespace Rule

/-- The head followed by the body. Two rules are the same production if their symbols agree. -/
def symbols (r : Rule) : List Symbol := r.head :: r.body

def text (r : Rule) : String :=
  r.head.text ++ " -> " ++
    if r.body.isEmpty then Symbol.epsilon.text else spaced (r.body.map Symbol.text)

end Rule

/-- A rule, or the production that derives the start symbol. -/
inductive Production where
  | augmented
  | rule (r : Rule)
deriving DecidableEq

namespace Production

def rule? : Production → Option Rule
  | augmented => none
  | rule r => some r

def symbols (p : Production) : List Symbol := (p.rule?.map Rule.symbols).getD []

def body (p : Production) : List Symbol := (p.rule?.map Rule.body).getD []

def same (p q : Production) : Bool := p.symbols == q.symbols

theorem same_iff {p q : Production} :
    p.same q = true ↔ p.rule?.map (fun r => (r.head, r.body)) =
      q.rule?.map (fun r => (r.head, r.body)) := by
  cases p <;> cases q <;> simp [same, symbols, rule?, Rule.symbols]

/-- The productions that are not the same as an earlier one. -/
def distinct (ps : List Production) : List Production :=
  (OrderedMap.group (ps.map fun p => (p.symbols, p))).toList.filterMap fun (_, same) => same.head?

end Production

end GrammarTables
