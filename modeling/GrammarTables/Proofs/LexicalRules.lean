import Mathlib.Data.List.TakeWhile
import GrammarTables.GrammarText.Lexeme

/-!
# Lexical rules

A lexer is given by rules. At each place of a text it takes the longest word that some rule accepts,
by the first rule that accepts it (`LongestMatch`). The words that the rules of grammar texts take
are runs of blanks, single line ends and bars, and runs of other characters (`Piece`), so that every
text is read to its end (`exists_tokenizes`).
-/

namespace GrammarTables

def Location.behind (text : List Char) : Location :=
  ⟨text.count '\n', (String.ofList text).utf8ByteSize⟩

/-- A rule of a lexer: the words that it accepts, and the lexeme that it makes of such a word if it
does not skip it. -/
structure LexicalRule where
  accepts : List Char → Bool
  lexeme? : List Char → Option Lexeme

namespace LexicalRule

def literal (word : String) (x : Lexeme) : LexicalRule := ⟨(· = word.toList), fun _ => some x⟩

/-- Accept one or more characters of a class. -/
def run (class? : Char → Bool) (lexeme? : List Char → Option Lexeme) : LexicalRule :=
  ⟨fun word => !word.isEmpty && word.all class?, lexeme?⟩

end LexicalRule

def blanks : List Char := [' ', '\t', '\r']

def separators : List Char := [' ', '\t', '\r', '\n', '|']

/-- The rules of grammar texts, in the order of their priority. -/
def lexicalRules : List LexicalRule :=
  [.run blanks.contains fun _ => none, .literal "\n" .endOfLine, .literal "|" .choice,
    .literal "->" .arrow, .literal "=>" .arrow, .literal "ε" .empty,
    .run (fun c => !separators.contains c) fun word => some (.name (String.ofList word))]

/-- The rule is the first that accepts the word, and no rule accepts a longer beginning of the
text. -/
structure LongestMatch (rules : List LexicalRule) (r : LexicalRule) (word rest : List Char) :
    Prop where
  find?_eq : rules.find? (·.accepts word) = some r
  longest : ∀ r' ∈ rules, ∀ word' rest', word' ++ rest' = word ++ rest →
    r'.accepts word' = true → word'.length ≤ word.length

/-- The lexeme of a word behind `before` with its place, if the word is not skipped. -/
def placed (before word : List Char) (x : Option Lexeme) : List Located :=
  x.toList.map fun x => ⟨.behind before, x, .behind (before ++ word)⟩

/-- The rules take the rest of a text apart, longest match by longest match, into these lexemes. -/
inductive Tokenizes (rules : List LexicalRule) :
    (before rest : List Char) → List Located → Prop where
  | done (before : List Char) : Tokenizes rules before [] []
  | take {before word rest : List Char} {r : LexicalRule} {l : List Located}
    (h : LongestMatch rules r word rest) (hl : Tokenizes rules (before ++ word) rest l) :
    Tokenizes rules before (word ++ rest) (placed before word (r.lexeme? word) ++ l)

section Generic

variable {rules : List LexicalRule} {r r' : LexicalRule} {word rest word' rest' : List Char}

theorem LongestMatch.mem (h : LongestMatch rules r word rest) : r ∈ rules :=
  List.mem_of_find?_eq_some h.find?_eq

theorem LongestMatch.accepts (h : LongestMatch rules r word rest) : r.accepts word = true :=
  List.find?_some (p := fun r : LexicalRule => r.accepts word) h.find?_eq

/-- A text has one longest match. -/
theorem LongestMatch.eq (h : LongestMatch rules r word rest)
    (h' : LongestMatch rules r' word' rest') (he : word ++ rest = word' ++ rest') :
    word = word' ∧ rest = rest' ∧ r = r' := by
  have hle := h'.longest r h.mem word rest he h.accepts
  have hge := h.longest r' h'.mem word' rest' he.symm h'.accepts
  obtain ⟨rfl, rfl⟩ := List.append_inj he (Nat.le_antisymm hle hge)
  have hfind := h.find?_eq
  rw [h'.find?_eq, Option.some.injEq] at hfind
  exact ⟨rfl, rfl, hfind.symm⟩

end Generic

namespace Lexeme

variable {c : Char} {w v : List Char} {x : Option Lexeme}

/-! ### Classes of characters -/

theorem isBlank_iff : isBlank c = true ↔ c ∈ blanks := by
  simp [isBlank, blanks, or_assoc]

theorem ofChar?_cases {x : Lexeme} (h : ofChar? c = some x) :
    c = '\n' ∧ x = .endOfLine ∨ c = '|' ∧ x = .choice := by
  rw [ofChar?] at h
  split at h
  · next hc =>
    cases h
    exact .inl ⟨hc, rfl⟩
  · split at h
    · next hc =>
      cases h
      exact .inr ⟨hc, rfl⟩
    · cases h

theorem ofChar?_eq_none_iff : ofChar? c = none ↔ c ≠ '\n' ∧ c ≠ '|' := by
  constructor
  · intro h
    refine ⟨?_, ?_⟩
    · rintro rfl
      cases h
    · rintro rfl
      cases h
  · rintro ⟨hline, hbar⟩
    rw [ofChar?, if_neg hline, if_neg hbar]

theorem isWordChar_iff : isWordChar c = true ↔ c ∉ separators := by
  simp [isWordChar, isBlank, ofChar?_eq_none_iff, separators, and_assoc]

theorem class_cases (c : Char) : isBlank c = true ∧ ofChar? c = none ∧ isWordChar c = false ∨
    isBlank c = false ∧ (ofChar? c).isSome ∧ isWordChar c = false ∨
      isBlank c = false ∧ ofChar? c = none ∧ isWordChar c = true := by
  cases hblank : isBlank c with
  | true =>
    have hnone : ofChar? c = none := by
      rw [ofChar?_eq_none_iff]
      refine ⟨?_, ?_⟩
      · rintro rfl
        cases hblank
      · rintro rfl
        cases hblank
    simp [isWordChar, hblank, hnone]
  | false =>
    cases hx : ofChar? c with
    | none => simp [isWordChar, hblank, hx]
    | some x => simp [isWordChar, hblank, hx]

/-- A word that a rule accepts does not mix the classes. -/
theorem uniform_of_accepts {r : LexicalRule} (hr : r ∈ lexicalRules) (h : r.accepts w = true) :
    w ≠ [] ∧ ((∀ c ∈ w, isBlank c = true) ∨ (∃ c, w = [c] ∧ (ofChar? c).isSome) ∨
      ∀ c ∈ w, isWordChar c = true) := by
  simp only [lexicalRules, List.mem_cons, List.not_mem_nil, or_false] at hr
  rcases hr with rfl | rfl | rfl | rfl | rfl | rfl | rfl
  · simp_all [LexicalRule.run, isBlank_iff]
  · obtain rfl : w = ['\n'] := of_decide_eq_true h
    simp [ofChar?]
  · obtain rfl : w = ['|'] := of_decide_eq_true h
    simp [ofChar?]
  · obtain rfl : w = ['-', '>'] := of_decide_eq_true h
    simp [isWordChar_iff, separators]
  · obtain rfl : w = ['=', '>'] := of_decide_eq_true h
    simp [isWordChar_iff, separators]
  · obtain rfl : w = ['ε'] := of_decide_eq_true h
    simp [isWordChar_iff, separators]
  · simp_all [LexicalRule.run, isWordChar_iff]

/-! ### What the rules take -/

/-- The part of a text that is taken from its front: a run of blanks, a line end or a bar, or a word
that is as long as possible. -/
inductive Piece : (word rest : List Char) → Option Lexeme → Prop where
  | blanks {w v : List Char} (hne : w ≠ []) (hw : ∀ c ∈ w, isBlank c = true)
    (hv : ∀ c ∈ v.head?, isBlank c = false) : Piece w v none
  | separator {c : Char} {x : Lexeme} (v : List Char) (hx : ofChar? c = some x) :
    Piece [c] v (some x)
  | word {w v : List Char} (hne : w ≠ []) (hw : ∀ c ∈ w, isWordChar c = true)
    (hv : ∀ c ∈ v.head?, isWordChar c = false) : Piece w v (some (ofWord (String.ofList w)))

theorem Piece.ne_nil (h : Piece w v x) : w ≠ [] := by
  cases h with
  | blanks hne => exact hne
  | separator => simp
  | word hne => exact hne

private theorem find?_blanks (hne : w ≠ []) (hw : ∀ c ∈ w, isBlank c = true) :
    ∃ r, lexicalRules.find? (·.accepts w) = some r ∧ r.lexeme? w = none := by
  refine ⟨_, List.find?_cons_of_pos ?_, rfl⟩
  simpa [LexicalRule.run, hne, ← isBlank_iff] using hw

private theorem find?_separator {x : Lexeme} (hx : ofChar? c = some x) :
    ∃ r, lexicalRules.find? (·.accepts [c]) = some r ∧ r.lexeme? [c] = some x := by
  rcases ofChar?_cases hx with ⟨rfl, rfl⟩ | ⟨rfl, rfl⟩
  · exact ⟨_, rfl, rfl⟩
  · exact ⟨_, rfl, rfl⟩

private theorem find?_word (hne : w ≠ []) (hw : ∀ c ∈ w, isWordChar c = true) :
    ∃ r, lexicalRules.find? (·.accepts w) = some r ∧
      r.lexeme? w = some (ofWord (String.ofList w)) := by
  by_cases harrow : w = ['-', '>'] ∨ w = ['=', '>']
  · rcases harrow with rfl | rfl
    · exact ⟨_, rfl, rfl⟩
    · exact ⟨_, rfl, rfl⟩
  · by_cases hempty : w = ['ε']
    · subst hempty
      exact ⟨_, rfl, rfl⟩
    · have hname : ofWord (String.ofList w) = .name (String.ofList w) := by
        have harrows : ¬(String.ofList w = "->" ∨ String.ofList w = "=>") := by
          simpa [← String.toList_inj] using harrow
        have hepsilon : String.ofList w ≠ "ε" := by
          simpa [← String.toList_inj] using hempty
        rw [ofWord, if_neg harrows, if_neg hepsilon]
      have hall : ∀ c ∈ w, c ∉ separators := fun c hc => isWordChar_iff.mp (hw c hc)
      have hother : ∀ d ∈ separators, w ≠ [d] := by
        rintro d hd rfl
        exact hall d (by simp) hd
      have hblank : ¬(∀ c ∈ w, c ∈ blanks) := by
        obtain ⟨c, hc⟩ := List.exists_mem_of_ne_nil w hne
        exact fun hb => hall c hc (List.subset_append_left blanks ['\n', '|'] (hb c hc))
      have hline := hother '\n' (by simp [separators])
      have hbar := hother '|' (by simp [separators])
      refine ⟨.run (fun c => !separators.contains c) fun w => some (.name (String.ofList w)),
        ?_, ?_⟩
      · simp_all [lexicalRules, LexicalRule.run, LexicalRule.literal]
      · rw [hname, LexicalRule.run]

private theorem Piece.not_uniform (h : Piece w (c :: v) x) :
    ¬(∀ d ∈ w ++ [c], isBlank d = true) ∧ ¬∀ d ∈ w ++ [c], isWordChar d = true := by
  obtain ⟨d, hd⟩ := List.exists_mem_of_ne_nil w h.ne_nil
  have hclass := class_cases d
  constructor
  · intro hall
    obtain ⟨hw, hc⟩ := List.forall_mem_append.mp hall
    have hblank := hw d hd
    cases h with
    | blanks _ _ hv => simp_all
    | separator _ hx => simp_all
    | word _ hchars _ =>
      have hchar := hchars d hd
      simp_all
  · intro hall
    obtain ⟨hw, hc⟩ := List.forall_mem_append.mp hall
    have hchar := hw d hd
    cases h with
    | blanks _ hblanks _ =>
      have hblank := hblanks d hd
      simp_all
    | separator _ hx => simp_all
    | word _ _ hv => simp_all

theorem Piece.exists_longestMatch (h : Piece w v x) :
    ∃ r, LongestMatch lexicalRules r w v ∧ r.lexeme? w = x := by
  obtain ⟨r, hfind, hx⟩ : ∃ r, lexicalRules.find? (·.accepts w) = some r ∧ r.lexeme? w = x := by
    cases h with
    | blanks hne hw => exact find?_blanks hne hw
    | separator _ hx => exact find?_separator hx
    | word hne hw => exact find?_word hne hw
  refine ⟨r, ⟨hfind, fun r' hr' w' v' he ha => ?_⟩, hx⟩
  -- a longer word would hold the whole piece and the character behind it
  by_contra hlt
  obtain ⟨t, rfl, rfl⟩ : ∃ t, w' = w ++ t ∧ v = t ++ v' := by
    rcases List.append_eq_append_iff.mp he with ⟨t, ht, -⟩ | ht
    · exact absurd (congrArg List.length ht) (by rw [List.length_append]; omega)
    · exact ht
  obtain ⟨c, t, rfl⟩ : ∃ c t', t = c :: t' := by
    apply List.exists_cons_of_ne_nil
    rintro rfl
    simp at hlt
  have hsub : ∀ d ∈ w ++ [c], d ∈ w ++ c :: t := by
    intro d hd
    rw [List.append_cons]
    exact List.mem_append_left t hd
  obtain ⟨hblank, hword⟩ := h.not_uniform
  rcases (uniform_of_accepts hr' ha).2 with hclass | ⟨e, he, -⟩ | hclass
  · exact hblank fun d hd => hclass d (hsub d hd)
  · have hlength := congrArg List.length he
    have hpos := List.length_pos_iff.mpr h.ne_nil
    rw [List.length_append, List.length_cons, List.length_singleton] at hlength
    omega
  · exact hword fun d hd => hclass d (hsub d hd)

private theorem head?_dropWhile {p : Char → Bool} {cs : List Char}
    (h : c ∈ (cs.dropWhile p).head?) : p c = false := by
  have hnot := List.head?_dropWhile_not p cs
  rw [Option.mem_def.mp h] at hnot
  simpa using hnot

theorem exists_piece {cs : List Char} (h : cs ≠ []) : ∃ w v x, cs = w ++ v ∧ Piece w v x := by
  obtain ⟨c, cs, rfl⟩ := List.exists_cons_of_ne_nil h
  rcases class_cases c with ⟨hc, -⟩ | ⟨-, hc, -⟩ | ⟨-, -, hc⟩
  · refine ⟨_, _, _, (List.takeWhile_append_dropWhile (p := isBlank)).symm, .blanks ?_ ?_ ?_⟩
    · simp [hc]
    · exact fun d hd => List.mem_takeWhile_imp hd
    · exact fun d hd => head?_dropWhile hd
  · obtain ⟨x, hx⟩ := Option.isSome_iff_exists.mp hc
    exact ⟨[c], cs, _, rfl, .separator cs hx⟩
  · refine ⟨_, _, _, (List.takeWhile_append_dropWhile (p := isWordChar)).symm, .word ?_ ?_ ?_⟩
    · simp [hc]
    · exact fun d hd => List.mem_takeWhile_imp hd
    · exact fun d hd => head?_dropWhile hd

theorem Piece.of_longestMatch {r : LexicalRule} (h : LongestMatch lexicalRules r w v) :
    Piece w v (r.lexeme? w) := by
  have hne := (uniform_of_accepts h.mem h.accepts).1
  have htext : w ++ v ≠ [] := List.append_ne_nil_of_left_ne_nil hne v
  obtain ⟨w', v', x, he, hpiece⟩ := exists_piece htext
  obtain ⟨r', h', rfl⟩ := hpiece.exists_longestMatch
  obtain ⟨rfl, rfl, rfl⟩ := h.eq h' he
  exact hpiece

end Lexeme

/-- The rules read every text to its end. -/
theorem exists_tokenizes (before rest : List Char) : ∃ l, Tokenizes lexicalRules before rest l := by
  by_cases hrest : rest = []
  · subst hrest
    exact ⟨[], .done before⟩
  · obtain ⟨w, v, x, he, hpiece⟩ := Lexeme.exists_piece hrest
    have hlt : v.length < rest.length := by
      have hpos := List.length_pos_iff.mpr hpiece.ne_nil
      rw [he, List.length_append]
      omega
    obtain ⟨r, hmatch, -⟩ := hpiece.exists_longestMatch
    obtain ⟨l, hl⟩ := exists_tokenizes (before ++ w) v
    rw [he]
    exact ⟨_, .take hmatch hl⟩
termination_by rest.length

end GrammarTables
