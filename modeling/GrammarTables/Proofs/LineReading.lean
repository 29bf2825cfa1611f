import GrammarTables.GrammarText.Reader
import GrammarTables.Proofs.LexemePlaces
import GrammarTables.Proofs.LexemesOfLines
import GrammarTables.Proofs.Outcomes

/-!
# Reading line by line

The one pass over the lexemes of a text reads its lines one after the other, and the number that each
lexeme gives to its line is the number of the line (`readRules_eq`). At the end of the text this
number is a count of the lines, which is right unless nothing is pending there.
-/

namespace GrammarTables

namespace RuleReader

def readRest (line : Nat) (r : RuleReader) (l : List Lexeme) : Except LineError (Array Rule) := do
  let r ← l.foldlM (RuleReader.read line) r
  let r ← r.endLine line
  return r.rules

theorem readRest_cons (line : Nat) (r : RuleReader) (x : Lexeme) (l : List Lexeme) :
    r.readRest line (x :: l) = r.read line x >>= fun r' => r'.readRest line l := by
  rw [readRest, List.foldlM_cons, bind_assoc]
  rfl

theorem readRest_nil (line : Nat) (r : RuleReader) :
    r.readRest line [] = r.endLine line >>= fun r' => .ok r'.rules := rfl

theorem pending_of_endLine {line : Nat} {r r' : RuleReader} (h : r.endLine line = .ok r') :
    r'.pending = .blank := by
  rw [endLine] at h
  split at h
  · cases h
    rfl
  · obtain ⟨_, -, h⟩ := bind_eq_ok_iff.mp h
    cases h
    rfl

/-- Read the rest of a text of which the last line has a number. -/
def readText (last : Nat) (r : RuleReader) (l : List Located) : Except LineError (Array Rule) := do
  let r ← l.foldlM RuleReader.next r
  let r ← r.endLine last
  return r.rules

theorem readText_cons (last : Nat) (r : RuleReader) (t : Located) (l : List Located) :
    r.readText last (t :: l) = r.next t >>= fun r' => r'.readText last l := by
  rw [readText, List.foldlM_cons, bind_assoc]
  rfl

end RuleReader

def readLine (line : Nat) (rules : Array Rule) (l : List Lexeme) : Except LineError (Array Rule) :=
  RuleReader.readRest line ⟨.blank, rules⟩ l

/-- Add the rules of lines, of which the first has a number, to those before them. -/
def readLines (line : Nat) (rules : Array Rule) : List (List Lexeme) → Except LineError (Array Rule)
  | [] => .ok rules
  | l :: ls => readLine line rules l >>= fun rules => readLines (line + 1) rules ls

/-! ### The lines that lexemes stand in -/

/-- The lexemes stand in the lines that they are divided into by the line ends among them, of which
the first has an index. -/
def LinesNumbered : Nat → List Located → Prop
  | _, [] => True
  | n, t :: l => t.start.line = n ∧ LinesNumbered (if t.lexeme = .endOfLine then n + 1 else n) l

theorem Tokenizes.linesNumbered {before rest : List Char} {l : List Located}
    (h : Tokenizes lexicalRules before rest l) : LinesNumbered (before.count '\n') l := by
  induction h with
  | done before => trivial
  | @take before word rest r l hmatch hl ih =>
    rw [List.count_append] at ih
    have hpiece := Lexeme.Piece.of_longestMatch hmatch
    generalize r.lexeme? word = x at hpiece ⊢
    cases hpiece with
    | blanks _ hw =>
      have hcount : word.count '\n' = 0 :=
        List.count_eq_zero.mpr fun hn => absurd (hw _ hn) (by decide)
      rwa [hcount] at ih
    | @separator c x _ hx =>
      refine ⟨rfl, ?_⟩
      rcases Lexeme.ofChar?_cases hx with ⟨rfl, rfl⟩ | ⟨rfl, rfl⟩
      · exact ih
      · exact ih
    | word _ hw =>
      have hcount : word.count '\n' = 0 :=
        List.count_eq_zero.mpr fun hn => absurd (hw _ hn) (by decide)
      refine ⟨rfl, ?_⟩
      rw [if_neg (Lexeme.ofWord_ne_endOfLine _)]
      rwa [hcount] at ih

/-- The one pass reads the rest of the line that it is in, and then line by line. -/
theorem LinesNumbered.readText_eq {n : Nat} {r : RuleReader} {l : List Located} {line : List Lexeme}
    {rest : List (List Lexeme)} (h : LinesNumbered n l)
    (hlines : Lexeme.lines (l.map Located.lexeme) = line :: rest) :
    r.readText (n + 1 + rest.length) l =
      r.readRest (n + 1) line >>= fun rules => readLines (n + 2) rules rest := by
  induction l generalizing n r line rest with
  | nil =>
    obtain ⟨rfl, rfl⟩ := List.cons_eq_cons.mp hlines
    rw [RuleReader.readRest_nil, bind_assoc]
    rfl
  | cons t l ih =>
    obtain ⟨hline, hl⟩ := h
    obtain ⟨line', rest', hlines'⟩ := Lexeme.exists_lines (l.map Located.lexeme)
    rw [RuleReader.readText_cons, RuleReader.next, hline]
    by_cases ht : t.lexeme = .endOfLine
    · rw [if_pos ht] at hl
      rw [List.map_cons, ht, Lexeme.lines_cons_endOfLine, hlines'] at hlines
      obtain ⟨rfl, rfl⟩ := List.cons_eq_cons.mp hlines
      have hlast : n + 1 + (line' :: rest').length = n + 1 + 1 + rest'.length := by
        rw [List.length_cons]
        omega
      rw [ht, hlast, RuleReader.readRest_nil, bind_assoc]
      change r.endLine (n + 1) >>= (fun r' => r'.readText _ l) = _
      -- nothing of the line is left for the next one
      cases hend : r.endLine (n + 1) with
      | error e => rfl
      | ok r' =>
        obtain ⟨pending, rules⟩ := r'
        obtain rfl : pending = .blank := RuleReader.pending_of_endLine hend
        exact ih hl hlines'
    · rw [if_neg ht] at hl
      rw [List.map_cons, Lexeme.lines_cons ht hlines'] at hlines
      obtain ⟨rfl, rfl⟩ := List.cons_eq_cons.mp hlines
      rw [RuleReader.readRest_cons, bind_assoc]
      exact bind_congr fun r' => ih hl hlines'

/-! ### The last line -/

private theorem length_linesOf (source : String) :
    (linesOf source).length = source.toList.count '\n' + 1 := by
  rw [linesOf, List.length_map]
  induction source.toList with
  | nil => rfl
  | cons c cs ih =>
    rw [List.splitOn_cons_eq_if_modifyHead, List.count_cons]
    split
    · rw [List.length_cons, ih]
    · rw [List.length_modifyHead, ih]

private theorem lineCount_concat {source : String} {cs : List Char} {c : Char}
    (h : source.toList = cs ++ [c]) : lineCount source = cs.count '\n' + 1 := by
  rw [lineCount, h, List.foldr_append]
  -- any last character, a line end or another one, gives one line to begin with
  have hlast : [c].foldr (fun c lines => if c = '\n' then lines + 1 else max lines 1) 0 = 1 := by
    simp
  rw [hlast]
  clear h hlast
  induction cs with
  | nil => rfl
  | cons d cs ih =>
    rw [List.foldr_cons, ih, List.count_cons]
    by_cases hd : d = '\n'
    · simp [hd]
    · simp [hd]

private theorem lexemes_concat {source : String} {cs : List Char}
    (h : source.toList = cs ++ ['\n']) :
    ∃ l t, lexemes source = l ++ [t] ∧ t.lexeme = .endOfLine := by
  let s := (cs.foldl Scan.next Scan.start).endWord
  let t : Located := ⟨s.here, .endOfLine, s.here.after '\n'⟩
  let s' : Scan := { s with done := s.done.push t, here := t.stop }
  have hword : s'.word = [] := Scan.word_endWord _
  have hscan : source.toList.foldl Scan.next Scan.start = s' := by
    rw [h, List.foldl_append]
    rfl
  refine ⟨s.done.toList, t, ?_, rfl⟩
  rw [lexemes, hscan, Scan.endWord_of_word_eq_nil hword]
  exact Array.toList_push

private theorem readText_concat {l : List Located} {t : Located} (ht : t.lexeme = .endOfLine)
    (r : RuleReader) (m n : Nat) : r.readText m (l ++ [t]) = r.readText n (l ++ [t]) := by
  rw [RuleReader.readText, RuleReader.readText, List.foldlM_append, bind_assoc, bind_assoc]
  refine bind_congr fun r₁ => ?_
  rw [List.foldlM_cons, RuleReader.next, ht, bind_assoc, bind_assoc]
  change r₁.endLine _ >>= _ = r₁.endLine _ >>= _
  -- behind a line end nothing is pending, whatever the number of the line
  cases hend : r₁.endLine (t.start.line + 1) with
  | error e => rfl
  | ok r₂ =>
    obtain ⟨pending, rules⟩ := r₂
    obtain rfl : pending = .blank := RuleReader.pending_of_endLine hend
    rfl

private theorem readText_lineCount (source : String) (r : RuleReader) :
    r.readText (max (lineCount source) 1) (lexemes source) =
      r.readText (linesOf source).length (lexemes source) := by
  rw [length_linesOf]
  rcases List.eq_nil_or_concat source.toList with hnil | ⟨cs, c, hconcat⟩
  · rw [lineCount, hnil]
    rfl
  · rw [List.concat_eq_append] at hconcat
    by_cases hc : c = '\n'
    · subst hc
      obtain ⟨l, t, hl, ht⟩ := lexemes_concat hconcat
      rw [hl]
      exact readText_concat ht _ _ _
    · have hcount : source.toList.count '\n' = cs.count '\n' := by
        rw [hconcat, List.count_append, List.count_singleton]
        simp [hc]
      rw [lineCount_concat hconcat, hcount, Nat.max_eq_left (Nat.le_add_left 1 _)]

private theorem readText_length_linesOf (source : String) :
    RuleReader.start.readText (linesOf source).length (lexemes source) =
      readLines 1 #[] (linesOf source) := by
  obtain ⟨line, rest, hlines⟩ := Lexeme.exists_lines ((lexemes source).map Located.lexeme)
  have htext := (tokenizes_lexemes source).linesNumbered.readText_eq (r := .start) hlines
  rw [lines_lexemes] at hlines
  have hlength : 0 + 1 + rest.length = (line :: rest).length := by
    rw [List.length_cons]
    omega
  rw [List.count_nil, hlength] at htext
  rw [hlines, htext]
  rfl

private theorem readRules_eq_readText (source : String) : readRules source =
    RuleReader.start.readText (max (lineCount source) 1) (lexemes source) >>=
      fun rules => .ok rules.toList := by
  rw [readRules, RuleReader.readText, bind_assoc]
  refine bind_congr fun r => ?_
  rw [bind_assoc]
  rfl

/-- A text is read line by line. -/
theorem readRules_eq (source : String) : readRules source =
    readLines 1 #[] (linesOf source) >>= fun rules => .ok rules.toList := by
  rw [readRules_eq_readText, readText_lineCount, readText_length_linesOf]

end GrammarTables
