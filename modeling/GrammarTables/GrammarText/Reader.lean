import GrammarTables.Grammar.Error
import GrammarTables.GrammarText.Lexeme

/-!
# Reading the rules of a grammar text

A line of a grammar text is a head, an arrow and bodies separated by bars, each body a sequence of
names that may be empty. Every body makes one rule, and the rules are numbered through the text. The
word `ε` means nothing and may stand anywhere; lines without lexemes are skipped. The lexemes are
read in one pass, and what has been read of a line is forgotten at its end.
-/

namespace GrammarTables

/-- The part of a line of which no rule has been made yet. -/
structure Pending where
  /-- The names before the arrow. -/
  head : List String
  /-- The names since the arrow or the last bar. -/
  body : Array String
  inBody : Bool

namespace Pending

def blank : Pending := ⟨[], #[], false⟩

def isBlank (p : Pending) : Bool := p.head.isEmpty && !p.inBody

/-- Make a rule of the head and the body. The head is kept for the next body. -/
def emit (p : Pending) (index line : Nat) : Except LineError (Rule × Pending) :=
  if !p.inBody then .error ⟨line, .missingArrow⟩
  else
    match p.head with
    | [head] => .ok (⟨.ofText head, p.body.toList.map .ofText, index⟩, { p with body := #[] })
    | [] => .error ⟨line, .missingHead⟩
    | names => .error ⟨line, .severalHeads names⟩

end Pending

/-- A text that has been read in part: what is pending, and the rules before it. -/
structure RuleReader where
  pending : Pending
  rules : Array Rule

namespace RuleReader

def start : RuleReader := ⟨.blank, #[]⟩

def emit (r : RuleReader) (line : Nat) : Except LineError RuleReader := do
  let (rule, pending) ← r.pending.emit r.rules.size line
  return ⟨pending, r.rules.push rule⟩

/-- Finish a line, which makes a rule unless nothing is pending. -/
def endLine (r : RuleReader) (line : Nat) : Except LineError RuleReader :=
  if r.pending.isBlank then .ok ⟨.blank, r.rules⟩
  else do
    let r ← r.emit line
    return ⟨.blank, r.rules⟩

def read (line : Nat) (r : RuleReader) : Lexeme → Except LineError RuleReader
  | .name text =>
    let p := r.pending
    .ok { r with
      pending :=
        if p.inBody then { p with body := p.body.push text }
        else { p with head := p.head ++ [text] } }
  | .empty => .ok r
  | .arrow =>
    if r.pending.inBody then .error ⟨line, .secondArrow⟩
    else .ok { r with pending := { r.pending with inBody := true } }
  | .choice => r.emit line
  | .endOfLine => r.endLine line

/-- Read a lexeme where it stands. Lines are numbered from one. -/
def next (r : RuleReader) (t : Located) : Except LineError RuleReader :=
  r.read (t.start.line + 1) t.lexeme

end RuleReader

/-- How many lines a text has. The last one need not be ended, but then it has characters. -/
def lineCount (source : String) : Nat :=
  source.toList.foldr (fun c lines => if c = '\n' then lines + 1 else max lines 1) 0

/-- The rules of a text, or the first line that makes none. -/
def readRules (source : String) : Except LineError (List Rule) := do
  let r ← (lexemes source).foldlM RuleReader.next .start
  -- no lexeme stands for the end of the text, so that the last line is found by counting
  let r ← r.endLine (max (lineCount source) 1)
  return r.rules.toList

end GrammarTables
