/-!
# Lexemes of a grammar text

A grammar text consists of words, bars and line ends, separated by blanks. A word is as long as
possible: it ends only before a blank, a bar, a line end or the end of the text. The words `->` and
`=>` are arrows and the word `ε` is the empty string; every other word is the name of a symbol.
-/

namespace GrammarTables

inductive Lexeme where
  | arrow
  | choice
  | empty
  | endOfLine
  | name (text : String)
deriving DecidableEq

/-- A place in a text: the number of line ends and the number of bytes before it. -/
structure Location where
  line : Nat
  byte : Nat
deriving DecidableEq

def Location.after (here : Location) (c : Char) : Location :=
  ⟨if c = '\n' then here.line + 1 else here.line, here.byte + c.utf8Size⟩

/-- A lexeme with the place of its first character and the place after its last one. -/
structure Located where
  start : Location
  lexeme : Lexeme
  stop : Location
deriving DecidableEq

namespace Lexeme

def isBlank (c : Char) : Bool := c = ' ' || c = '\t' || c = '\r'

/-- The lexeme that a character is on its own. -/
def ofChar? (c : Char) : Option Lexeme :=
  if c = '\n' then some endOfLine
  else if c = '|' then some choice
  else none

def isWordChar (c : Char) : Bool := !isBlank c && (ofChar? c).isNone

def ofWord (word : String) : Lexeme :=
  if word = "->" ∨ word = "=>" then arrow
  else if word = "ε" then empty
  else name word

end Lexeme

/-- The state of reading a text character by character. -/
structure Scan where
  /-- The finished lexemes. -/
  done : Array Located
  /-- The place of the next character. -/
  here : Location
  /-- The characters of the unfinished word, last one first. -/
  word : List Char
  /-- The place of the word's first character. -/
  wordStart : Location

namespace Scan

def start : Scan := ⟨#[], ⟨0, 0⟩, [], ⟨0, 0⟩⟩

/-- Finish the word, if there is one. -/
def endWord (s : Scan) : Scan :=
  if s.word.isEmpty then s
  else { s with
    done := s.done.push ⟨s.wordStart, Lexeme.ofWord (String.ofList s.word.reverse), s.here⟩
    word := [] }

theorem endWord_of_word_eq_nil {s : Scan} (h : s.word = []) : s.endWord = s := by
  rw [endWord, h]
  rfl

theorem word_endWord (s : Scan) : s.endWord.word = [] := by
  rw [endWord]
  split
  · next h => exact List.isEmpty_iff.mp h
  · rfl

def next (s : Scan) (c : Char) : Scan :=
  if Lexeme.isWordChar c then
    { s with
      here := s.here.after c
      word := c :: s.word
      wordStart := if s.word.isEmpty then s.here else s.wordStart }
  else
    let s := s.endWord
    let there := s.here.after c
    match Lexeme.ofChar? c with
    | some lexeme => { s with done := s.done.push ⟨s.here, lexeme, there⟩, here := there }
    | none => { s with here := there }

end Scan

def lexemes (source : String) : List Located :=
  (source.toList.foldl Scan.next Scan.start).endWord.done.toList

end GrammarTables
