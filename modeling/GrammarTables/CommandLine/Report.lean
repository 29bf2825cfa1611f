import GrammarTables.Analysis
import GrammarTables.Discipline
import GrammarTables.Text
import GrammarTables.Workbench

/-!
# The command line and its report

The command line names one file and may choose a discipline and further output. The report on the
grammar in the file warns about suspicious nonterminals, prints the properties of the grammar on
request, then the table and the verdict. What goes wrong is told on the error output, the most
general cause first.
-/

namespace GrammarTables

/-! ### Options

An option stands at most once; after `--` every word is a file name. The words are read from left to
right, and one that asks for help or for the version ends the reading: what comes after it does not
matter. -/

structure Options where
  discipline : Discipline
  /-- Whether to print the automaton too. -/
  automaton : Bool
  /-- Whether to print the properties of the grammar too. -/
  analysis : Bool
  /-- The file that holds the grammar. -/
  path : String
deriving DecidableEq

/-- The discipline of a report for which none is chosen. -/
def Options.defaultDiscipline : Discipline := .lalr1

inductive Request where
  /-- How the program is called. -/
  | help
  /-- Which version of the program this is. -/
  | version
  /-- The report on a grammar. -/
  | report (options : Options)
deriving DecidableEq

/-- The words of the command line that have been understood so far. -/
structure OptionReader where
  discipline? : Option Discipline
  automaton : Bool
  analysis : Bool
  path? : Option String

namespace OptionReader

def start : OptionReader := ⟨none, false, false, none⟩

def withPath (r : OptionReader) (word : String) : Option OptionReader :=
  if r.path?.isSome || word.isEmpty then none else some { r with path? := some word }

def withDiscipline (r : OptionReader) (word : String) : Option OptionReader :=
  if r.discipline?.isSome then none
  else (Discipline.ofName? word false).map fun d => { r with discipline? := some d }

/-- Take a word for an option without a value, or for an option with its value after an equals
sign, or else for the file name. -/
def withWord (r : OptionReader) (word : String) : Option OptionReader :=
  if word = "--automaton" then
    if r.automaton then none else some { r with automaton := true }
  else if word = "--analysis" then
    if r.analysis then none else some { r with analysis := true }
  else if word.startsWith "--discipline=" then
    r.withDiscipline (word.drop "--discipline=".length).toString
  else if word.startsWith "-" && word ≠ "-" then none
  else r.withPath word

/-- The report that the words ask for, if they name a file. -/
def request? (r : OptionReader) : Option Request :=
  r.path?.map fun path =>
    .report ⟨r.discipline?.getD Options.defaultDiscipline, r.automaton, r.analysis, path⟩

/-- What a word asks for that ends the reading. A short option is known by its first letter. -/
def information? (word : String) : Option Request :=
  if word = "--help" || word.startsWith "-h" then some .help
  else if word = "--version" || word.startsWith "-V" then some .version
  else none

def readRest (r : OptionReader) : List String → Option Request
  | [] => r.request?
  | "--" :: words => do
    let r ← words.foldlM withPath r
    r.request?
  | ["--discipline"] => none
  | "--discipline" :: word :: words => do
    let r ← r.withDiscipline word
    r.readRest words
  | word :: words =>
    match information? word with
    | some request => some request
    | none => do
      let r ← r.withWord word
      r.readRest words

end OptionReader

/-- What the words of a command line ask for, if they are well-formed. -/
def Request.parse? (words : List String) : Option Request := OptionReader.start.readRest words

/-! ### Help and version -/

def programName : String := "parsetab"

def programVersion : String := "0.0.0-dev"

def usageText : String := "Usage: " ++ programName ++ " [OPTIONS] <INPUT>\n"

def optionDescriptions : List (String × String) :=
  [("    --discipline <DISCIPLINE>",
      "The parsing discipline to build the table for [default: " ++
        Options.defaultDiscipline.name ++ "] [possible values: " ++
        ", ".intercalate (Discipline.all.map Discipline.name) ++ "]"),
    ("    --automaton", "Also print the LR automaton"),
    ("    --analysis",
      "Print the grammar properties (nullable symbols, FIRST and FOLLOW sets)"),
    ("-h, --help", "Print help"),
    ("-V, --version", "Print version")]

/-- Names and their descriptions, indented, the descriptions in one column. -/
def describedLines (entries : List (String × String)) : String :=
  let width := (entries.map fun entry => entry.1.length).foldl max 0
  String.join (entries.map fun (name, description) =>
    "  " ++ name ++ "".pushn ' ' (width + 2 - name.length) ++ description ++ "\n")

def helpText : String :=
  usageText ++ "\nArguments:\n" ++
    describedLines [("<INPUT>", "The path of grammar definition file")] ++ "\nOptions:\n" ++
    describedLines optionDescriptions

def versionText : String := programName ++ " " ++ programVersion ++ "\n"

/-! ### Reports -/

structure Outcome where
  /-- Zero for success. -/
  code : UInt32
  stdout : String
  stderr : String
deriving DecidableEq

def namesText (symbols : List Symbol) : String := quotedList (symbols.map Symbol.text)

def warningsText (g : Grammar) : String :=
  let warn (title : String) (symbols : List Symbol) : String :=
    if symbols.isEmpty then ""
    else "[warning] The following nonterminals " ++ title ++ ": " ++ namesText symbols ++ "\n"
  let ambiguities := (g.nullAmbiguity g.nullable).map fun (_, r) =>
    "[warning] Ambiguous empty derivation: " ++ r.text ++ "\n"
  warn "are unreachable from the start symbol" g.unreachable ++
    warn "derive no terminal string" g.unproductive ++ String.join ambiguities

def analysisText (g : Grammar) : String :=
  let t := g.firstTable
  let setLines (sets : OrderedMap Symbol (OrderedSet Symbol)) : String :=
    String.join (sets.toList.map fun (x, s) =>
      "- " ++ x.text ++ ": " ++ namesText s.toList ++ "\n")
  "## productions\n" ++ g.text ++ "## start: " ++ g.start.text ++ "\n## nullable: " ++
    namesText t.nullable.toList ++ "\n## first sets\n" ++ setLines t.sets ++
    "## follow sets\n" ++ setLines (g.followSets t) ++ "\n"

/-- Output together with the causes of a failure, the most general one first. -/
abbrev Report := String × Except (List String) Unit

def Report.after (r : Report) (text : String) : Report := (text ++ r.1, r.2)

def Report.failure (causes : List String) : Report := ("", .error causes)

def tableReport (w : Workbench) (d : Discipline) : Report :=
  let refuse (r : Rejection) : Report :=
    .failure ["the grammar is not " ++ d.text, r.title, r.message]
  match (w.table d).get with
  | .error e => refuse (.invalid e)
  | .ok table =>
    let verdict : Report :=
      match table.check w.grammar d with
      | .ok _ => ("The grammar is " ++ d.text ++ ".\n", .ok ())
      | .error r => refuse r
    verdict.after (table.text w.grammar ++ "\n")

/-- The automaton, if it is asked for and there is one, and then the table. -/
def automatonReport (w : Workbench) (o : Options) : Report :=
  match if o.automaton then w.automatonText? o.discipline else none with
  | none => tableReport w o.discipline
  | some (.ok text) => (tableReport w o.discipline).after (text ++ "\n")
  | some (.error e) =>
    let r := Rejection.invalid e
    .failure ["the grammar is not " ++ o.discipline.text, r.title, r.message]

/-- The report on the grammar in a file, of which the bytes are given if it exists. -/
def fileReport (o : Options) (bytes : Option ByteArray) : Report :=
  match Grammar.ofFile bytes with
  | .error e => .failure ["failed to read the grammar", e.message]
  | .ok g =>
    let rest : Report :=
      match g.checkAcyclic with
      | .error e => .failure ["no parse table can be built", e.message]
      | .ok _ => automatonReport (Workbench.ofGrammar g) o
    rest.after (warningsText g ++ if o.analysis then analysisText g else "")

/-- The error output for a chain of causes. Causes are numbered if there are several. -/
def causesText (causes : List String) : String :=
  match causes with
  | [] => ""
  | [top] => "Error: " ++ top ++ "\n"
  | [top, cause] => "Error: " ++ top ++ "\n\nCaused by:\n    " ++ cause ++ "\n"
  | top :: causes =>
    "Error: " ++ top ++ "\n\nCaused by:\n" ++
      String.join (causes.zipIdx.map fun (cause, number) =>
        let digits := toString number
        "".pushn ' ' (5 - digits.length) ++ digits ++ ": " ++ cause ++ "\n")

def Options.run (o : Options) (bytes : Option ByteArray) : Outcome :=
  let report := fileReport o bytes
  match report.2 with
  | .ok _ => ⟨0, report.1, ""⟩
  | .error causes =>
    ⟨1, report.1, causesText (("errored during processing " ++ o.path) :: causes)⟩

def Request.path? : Request → Option String
  | report o => some o.path
  | help | version => none

def Request.run (request : Request) (bytes : Option ByteArray) : Outcome :=
  match request with
  | help => ⟨0, helpText, ""⟩
  | version => ⟨0, versionText, ""⟩
  | report o => o.run bytes

end GrammarTables
