import GrammarTables.Grammar.Production

/-!
# Why a grammar is refused

Each cause is a constructor of `GrammarError`; `GrammarError.message` holds all wording.
-/

namespace GrammarTables

/-- What is wrong with a line of a grammar text. -/
inductive LineFault where
  | missingArrow
  | missingHead
  | severalHeads (names : List String)
  | secondArrow
deriving DecidableEq

structure LineError where
  /-- The number of the line, starting with one. -/
  line : Nat
  fault : LineFault
deriving DecidableEq

namespace LineError

def message (e : LineError) : String :=
  let fault :=
    match e.fault with
    | .missingArrow => "missing arrow"
    | .missingHead => "missing production head"
    | .severalHeads names => "expected a single head symbol, found `" ++ spaced names ++ "`"
    | .secondArrow => "unexpected arrow in production body"
  "line " ++ toString e.line ++ ": " ++ fault

end LineError

/-- Why a file holds no text. -/
inductive FileFault where
  | missing
  | notUtf8
deriving DecidableEq

/-- Why there is no grammar, or why a construction on it has no result. -/
inductive GrammarError where
  | file (fault : FileFault)
  | line (error : LineError)
  | noProductions
  | tooManyProductions
  | augmentedInRules
  | bodyTooLong (head : Symbol)
  | unexpectedSymbol (symbol : Symbol)
  | cyclic (cycle : List Symbol)
  | tooManyStates
  | unknownProduction (production : ProductionId)
deriving DecidableEq

namespace GrammarError

def message : GrammarError → String
  | file .missing => "IO error: No such file or directory (os error 2)"
  | file .notUtf8 => "IO error: stream did not contain valid UTF-8"
  | line error => "Syntax error: " ++ error.message
  | noProductions => "the grammar has no productions"
  | tooManyProductions => "Other error: too many productions"
  | augmentedInRules => "Other error: augmented production in rule list"
  | bodyTooLong head => "Other error: production body of `" ++ head.text ++ "` is too long"
  | unexpectedSymbol symbol => "unexpected symbol `" ++ symbol.text ++ "`"
  | cyclic cycle =>
    "the grammar is cyclic: " ++ " => ".intercalate (cycle.map Symbol.text)
  | tooManyStates => "Other error: too many automaton states"
  | unknownProduction production => "unknown production " ++ production.label

end GrammarError

end GrammarTables
