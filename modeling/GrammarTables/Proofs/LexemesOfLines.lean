import Mathlib.Data.List.Basic
import GrammarTables.GrammarText.Lexeme

/-!
# Lexemes of lines

`Lexeme.scan` finds the lexemes of a text without their places (`plainLexemes_eq`). No lexeme
reaches past a line end, so the lexemes of a text, split at the line ends, are those of its lines
(`lines_lexemes`).
-/

namespace GrammarTables

def plainLexemes (source : String) : List Lexeme := (lexemes source).map Located.lexeme

/-- The lexemes of each line. Lines end before line ends and at the end of the text. -/
def linesOf (source : String) : List (List Lexeme) :=
  (source.toList.splitOn '\n').map fun line => plainLexemes (String.ofList line)

namespace Lexeme

def lines (l : List Lexeme) : List (List Lexeme) :=
  l.foldr
    (fun lexeme rest =>
      if lexeme = endOfLine then [] :: rest
      else
        match rest with
        | [] => [[lexeme]]
        | line :: rest => (lexeme :: line) :: rest)
    [[]]

variable {word cs : List Char} {c : Char}

/-- The lexeme of an unfinished word, of which the last character comes first. -/
def pending (word : List Char) : List Lexeme :=
  if word.isEmpty then [] else [ofWord (String.ofList word.reverse)]

def scan (word : List Char) : List Char → List Lexeme
  | [] => pending word
  | c :: cs =>
    if isWordChar c then scan (c :: word) cs
    else pending word ++ (ofChar? c).toList ++ scan [] cs

theorem scan_nil : scan word [] = pending word := rfl

theorem scan_cons_wordChar (h : isWordChar c = true) : scan word (c :: cs) = scan (c :: word) cs :=
  if_pos h

theorem scan_cons_separator (h : ¬isWordChar c = true) :
    scan word (c :: cs) = pending word ++ (ofChar? c).toList ++ scan [] cs := if_neg h

theorem scan_append_word (hcs : ∀ c ∈ cs, isWordChar c = true) (rest : List Char) :
    scan word (cs ++ rest) = scan (cs.reverse ++ word) rest := by
  induction cs generalizing word with
  | nil => rfl
  | cons c cs ih =>
    rw [List.cons_append, scan_cons_wordChar (hcs c (by simp)), ih fun d hd => hcs d (by simp [hd])]
    simp

private theorem map_lexeme_endWord (s : Scan) : s.endWord.done.toList.map Located.lexeme =
    s.done.toList.map Located.lexeme ++ pending s.word := by
  rw [Scan.endWord, pending]
  split
  · simp
  · simp

private theorem map_lexeme_foldl (s : Scan) (cs : List Char) :
    ((cs.foldl Scan.next s).endWord.done.toList.map Located.lexeme) =
      s.done.toList.map Located.lexeme ++ scan s.word cs := by
  induction cs generalizing s with
  | nil => exact map_lexeme_endWord s
  | cons c cs ih =>
    rw [List.foldl_cons, ih, Scan.next]
    by_cases hc : isWordChar c = true
    · rw [if_pos hc, scan_cons_wordChar hc]
    · rw [if_neg hc, scan_cons_separator hc]
      cases ho : ofChar? c with
      | none => simp [map_lexeme_endWord, s.word_endWord]
      | some x => simp [map_lexeme_endWord, s.word_endWord]

end Lexeme

theorem plainLexemes_eq (source : String) : plainLexemes source = Lexeme.scan [] source.toList :=
  Lexeme.map_lexeme_foldl Scan.start source.toList

namespace Lexeme

variable {word cs : List Char} {c : Char} {l m line : List Lexeme} {rest : List (List Lexeme)}
  {x : Lexeme}

/-! ### Line ends -/

theorem exists_lines (l : List Lexeme) : ∃ line rest, lines l = line :: rest := by
  cases l with
  | nil => exact ⟨[], [], rfl⟩
  | cons x l =>
    rw [lines, List.foldr_cons]
    split
    · exact ⟨_, _, rfl⟩
    · split
      · exact ⟨_, _, rfl⟩
      · exact ⟨_, _, rfl⟩

theorem lines_cons_endOfLine (l : List Lexeme) :
    lines (.endOfLine :: l) = [] :: lines l := rfl

theorem lines_cons (hx : x ≠ .endOfLine) (hl : lines l = line :: rest) :
    lines (x :: l) = (x :: line) :: rest := by
  rw [lines] at hl
  rw [lines, List.foldr_cons, hl, if_neg hx]

private theorem lines_append (hm : .endOfLine ∉ m) (hl : lines l = line :: rest) :
    lines (m ++ l) = (m ++ line) :: rest := by
  induction m with
  | nil => exact hl
  | cons x m ih =>
    rw [List.mem_cons, not_or] at hm
    exact lines_cons (Ne.symm hm.1) (ih hm.2)

theorem endOfLine_not_mem_of_mem_lines (h : line ∈ lines l) : .endOfLine ∉ line := by
  induction l generalizing line with
  | nil =>
    rw [List.mem_singleton.mp h]
    exact List.not_mem_nil
  | cons x l ih =>
    by_cases hx : x = .endOfLine
    · rw [hx, lines_cons_endOfLine, List.mem_cons] at h
      rcases h with rfl | h
      · exact List.not_mem_nil
      · exact ih h
    · cases hl : lines l with
      | nil =>
        rw [lines] at hl h
        rw [List.foldr_cons, hl, if_neg hx, List.mem_singleton] at h
        simpa [h] using Ne.symm hx
      | cons first rest =>
        rw [lines_cons hx hl, List.mem_cons] at h
        rcases h with rfl | h
        · have hf : .endOfLine ∉ first := ih (by simp [hl])
          simpa [Ne.symm hx] using hf
        · exact ih (by simp [hl, h])

theorem ofWord_ne_endOfLine (word : String) : ofWord word ≠ .endOfLine := by
  rw [ofWord]
  split
  · simp
  · split
    · simp
    · simp

private theorem endOfLine_not_mem_pending (word : List Char) : .endOfLine ∉ pending word := by
  rw [pending]
  split
  · exact List.not_mem_nil
  · simpa using Ne.symm (ofWord_ne_endOfLine _)

theorem ofChar?_eq_endOfLine_iff : ofChar? c = some .endOfLine ↔ c = '\n' := by
  rw [ofChar?]
  split
  · rename_i h
    simp [h]
  · rename_i h
    split
    · simp [h]
    · simp [h]

theorem endOfLine_mem_scan (word : List Char) (h : '\n' ∈ cs) : .endOfLine ∈ scan word cs := by
  induction cs generalizing word with
  | nil => cases h
  | cons c cs ih =>
    by_cases hc : isWordChar c = true
    · rw [scan_cons_wordChar hc]
      refine ih (c :: word) ((List.mem_cons.mp h).resolve_left ?_)
      rintro rfl
      exact absurd hc (by decide)
    · rw [scan_cons_separator hc]
      rcases List.mem_cons.mp h with rfl | h
      · simp [ofChar?]
      · simp [ih [] h]

private theorem lines_scan (cs : List Char) : ∃ first rest, cs.splitOn '\n' = first :: rest ∧
    ∀ word, lines (scan word cs) = scan word first :: rest.map (scan []) := by
  induction cs with
  | nil =>
    refine ⟨[], [], rfl, fun word => ?_⟩
    have h := lines_append (endOfLine_not_mem_pending word) (l := []) rfl
    simpa [scan_nil] using h
  | cons c cs ih =>
    obtain ⟨first, rest, hsplit, hlines⟩ := ih
    rw [List.splitOn_cons_eq_if_modifyHead, hsplit]
    by_cases hn : c = '\n'
    · subst hn
      refine ⟨[], first :: rest, rfl, fun word => ?_⟩
      have hscan : scan word ('\n' :: cs) = pending word ++ .endOfLine :: scan [] cs := by
        rw [scan_cons_separator (by decide)]
        simp [ofChar?]
      rw [hscan, lines_append (endOfLine_not_mem_pending word) (lines_cons_endOfLine _), hlines]
      simp [scan_nil]
    · have hne : (c == '\n') = false := by simpa using hn
      refine ⟨c :: first, rest, by simp [hne], fun word => ?_⟩
      by_cases hc : isWordChar c = true
      · rw [scan_cons_wordChar hc, scan_cons_wordChar hc, hlines]
      · have hm : .endOfLine ∉ pending word ++ (ofChar? c).toList := by
          simp only [List.mem_append, Option.mem_toList, ofChar?_eq_endOfLine_iff, not_or]
          exact ⟨endOfLine_not_mem_pending word, hn⟩
        rw [scan_cons_separator hc, scan_cons_separator hc, lines_append hm (hlines [])]

end Lexeme

theorem linesOf_eq (source : String) :
    linesOf source = (source.toList.splitOn '\n').map (Lexeme.scan []) := by
  rw [linesOf]
  refine List.map_congr_left fun line _ => ?_
  rw [plainLexemes_eq, String.toList_ofList]

/-- The lexemes of a text, split at the line ends, are those of its lines. -/
theorem lines_lexemes (source : String) :
    Lexeme.lines ((lexemes source).map Located.lexeme) = linesOf source := by
  obtain ⟨first, rest, hsplit, hlines⟩ := Lexeme.lines_scan source.toList
  rw [← plainLexemes, plainLexemes_eq, hlines, linesOf_eq, hsplit, List.map_cons]

theorem linesOf_intercalate {texts : List String} (hne : texts ≠ [])
    (h : ∀ text ∈ texts, '\n' ∉ text.toList) :
    linesOf ("\n".intercalate texts) = texts.map fun text => Lexeme.scan [] text.toList := by
  have hsplit : ("\n".intercalate texts).toList.splitOn '\n' = texts.map String.toList := by
    rw [String.toList_intercalate]
    exact List.splitOn_intercalate '\n' (by simpa using h) (by simpa using hne)
  rw [linesOf_eq, hsplit, List.map_map]
  rfl

end GrammarTables
