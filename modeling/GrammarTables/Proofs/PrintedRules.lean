import GrammarTables.Proofs.LineGrammar
import GrammarTables.Proofs.Productions

/-!
# Printed rules

A name that stands in a text is a word that is read as this name wherever it stands between blanks.
So the rules of a text, printed one a line, are read back with the same numbers
(`readRules_intercalate_text`), and they make the same grammar.
-/

namespace GrammarTables

/-! ### Names -/

/-- The text is a word, and this word is a name. -/
structure IsName (text : String) : Prop where
  ne_nil : text.toList ≠ []
  isWordChar : ∀ c ∈ text.toList, Lexeme.isWordChar c = true
  ofWord_eq : Lexeme.ofWord text = .name text

def OfNames (e : String × List String) : Prop := IsName e.1 ∧ ∀ text ∈ e.2, IsName text

namespace Lexeme

variable {word cs : List Char} {c : Char} {text : String} {names : List String}

private theorem eq_of_ofWord_eq_name {text' : String} (h : ofWord text' = .name text) :
    text' = text := by
  rw [ofWord] at h
  split at h
  · cases h
  · split at h
    · cases h
    · exact name.inj h

private theorem isName_of_mem_pending (hw : ∀ c ∈ word, isWordChar c = true)
    (h : .name text ∈ pending word) : IsName text := by
  rw [pending] at h
  split at h
  · cases h
  · rename_i hne
    have hword := (List.mem_singleton.mp h).symm
    obtain rfl := eq_of_ofWord_eq_name hword
    refine ⟨?_, ?_, hword⟩
    · simpa using hne
    · simpa using hw

private theorem ofChar?_ne_name : ofChar? c ≠ some (.name text) := by
  rw [ofChar?]
  split
  · simp
  · split
    · simp
    · simp

theorem isName_of_mem_scan (hw : ∀ c ∈ word, isWordChar c = true)
    (h : .name text ∈ scan word cs) : IsName text := by
  induction cs generalizing word with
  | nil => exact isName_of_mem_pending hw h
  | cons c cs ih =>
    by_cases hc : isWordChar c = true
    · rw [scan_cons_wordChar hc] at h
      exact ih (by simpa [hc] using hw) h
    · rw [scan_cons_separator hc, List.append_assoc, List.mem_append, List.mem_append] at h
      rcases h with h | h | h
      · exact isName_of_mem_pending hw h
      · exact absurd (Option.mem_toList.mp h) ofChar?_ne_name
      · exact ih (by simp) h

private theorem pending_reverse (h : IsName text) : pending text.toList.reverse = [.name text] := by
  have hne := h.ne_nil
  simp [pending, h.ofWord_eq, hne]

private theorem scan_name_blank (h : IsName text) (rest : List Char) :
    scan [] (text.toList ++ ' ' :: rest) = .name text :: scan [] rest := by
  rw [scan_append_word h.isWordChar, scan_cons_separator (by decide), List.append_nil,
    pending_reverse h]
  rfl

private theorem scan_name (h : IsName text) : scan [] text.toList = [.name text] := by
  have hscan : scan [] (text.toList ++ []) = _ := scan_append_word h.isWordChar []
  rw [List.append_nil, List.append_nil] at hscan
  rw [hscan, scan_nil, pending_reverse h]

private theorem scan_spaced (h : ∀ t ∈ names, IsName t) :
    scan [] (spaced names).toList = names.map .name := by
  induction names with
  | nil => rfl
  | cons t names ih =>
    have ht := h t (by simp)
    cases names with
    | nil => simpa [spaced] using scan_name ht
    | cons t' names =>
      have hrest := ih fun s hs => h s (by simp [hs])
      simp only [spaced, String.toList_intercalate, List.map_cons] at hrest ⊢
      rw [List.intercalate_cons_cons, List.append_assoc]
      change scan [] (t.toList ++ ' ' :: _) = _
      rw [scan_name_blank ht]
      exact congrArg _ hrest

end Lexeme

private theorem name_mem_alternativesText {bodies : List (List String)} {body : List String}
    {text : String} (hb : body ∈ bodies) (ht : text ∈ body) :
    .name text ∈ alternativesText bodies := by
  induction bodies with
  | nil => cases hb
  | cons b bs ih =>
    have hname : Lexeme.name text ∈ body.map .name := List.mem_map_of_mem ht
    cases bs with
    | nil =>
      rw [List.mem_singleton.mp hb] at hname
      simpa [alternativesText] using hname
    | cons b' bs =>
      simp only [alternativesText, List.map_cons, List.intercalate_cons_cons, List.mem_append] at ih ⊢
      rcases List.mem_cons.mp hb with rfl | hb
      · exact Or.inl (Or.inl hname)
      · exact Or.inr (ih hb)

private theorem isName_of_lineSays {line : List Char} {said : List (String × List String)}
    (h : LineSays (Lexeme.scan [] line) said) :
    ∀ e ∈ said, OfNames e := by
  intro e he
  cases h with
  | blank => cases he
  | @group head bodies _ hline =>
    have hname {text : String} (ht : .name text ∈ withoutEmpty (Lexeme.scan [] line)) :
        IsName text := Lexeme.isName_of_mem_scan (by simp) (List.mem_of_mem_filter ht)
    rw [hline] at hname
    obtain ⟨body, hbody, rfl⟩ := List.mem_map.mp he
    refine ⟨hname (by simp), fun text ht => hname ?_⟩
    simp [name_mem_alternativesText hbody ht]

private theorem isName_of_linesSay {lines : List (List Char)}
    {said : List (List (String × List String))}
    (h : List.Forall₂ LineSays (lines.map (Lexeme.scan [])) said) :
    ∀ e ∈ said.flatten, OfNames e := by
  rw [List.forall₂_map_left_iff] at h
  induction h with
  | nil => simp
  | cons hline _ ih =>
    intro e he
    rw [List.flatten_cons, List.mem_append] at he
    exact he.elim (isName_of_lineSays hline e) (ih e)

/-! ### Printed lines -/

def printed (e : String × List String) : String :=
  Rule.text ⟨.ofText e.1, e.2.map .ofText, 0⟩

@[simp] theorem Symbol.text_ofText (text : String) : (Symbol.ofText text).text = text := by
  rw [Symbol.ofText]
  split
  · rename_i h
    rw [h]
    rfl
  · rfl

private theorem printed_eq (head : String) (body : List String) : printed (head, body) =
    head ++ " -> " ++ if body.isEmpty then "ε" else spaced body := by
  have hbody : (body.map Symbol.ofText).map Symbol.text = body := by simp [Function.comp_def]
  simp only [printed, Rule.text, Symbol.text_ofText, hbody, List.isEmpty_map]
  rfl

private theorem map_text_rulesFrom (n : Nat) (said : List (String × List String)) :
    (rulesFrom n said).map Rule.text = said.map printed := by
  have hentries : said.map printed = ((said.zipIdx n).map Prod.fst).map printed := by
    rw [List.zipIdx_map_fst]
  rw [hentries, rulesFrom, List.map_map, List.map_map]
  rfl

private theorem scan_printed {head : String} {body : List String} (hh : IsName head)
    (hb : ∀ text ∈ body, IsName text) : Lexeme.scan [] (printed (head, body)).toList =
      .name head :: .arrow :: if body.isEmpty then [.empty] else body.map .name := by
  have hchars (tail : String) : (head ++ " -> " ++ tail).toList =
      head.toList ++ ' ' :: '-' :: '>' :: ' ' :: tail.toList := by
    simp
  have harrow (rest : List Char) :
      Lexeme.scan [] ('-' :: '>' :: ' ' :: rest) = .arrow :: Lexeme.scan [] rest := rfl
  rw [printed_eq, hchars, Lexeme.scan_name_blank hh, harrow]
  split
  · rfl
  · rw [Lexeme.scan_spaced hb]

private theorem lineSays_printed {e : String × List String} (h : OfNames e) :
    LineSays (Lexeme.scan [] (printed e).toList) [e] := by
  obtain ⟨head, body⟩ := e
  refine .group (List.cons_ne_nil body []) ?_
  rw [scan_printed h.1 h.2]
  cases body with
  | nil => rfl
  | cons t body => simp [withoutEmpty, alternativesText]

private theorem newline_not_mem_printed {e : String × List String} (h : OfNames e) :
    '\n' ∉ (printed e).toList := by
  intro hn
  have hscan := Lexeme.endOfLine_mem_scan [] hn
  rw [scan_printed h.1 h.2] at hscan
  split at hscan
  · simp at hscan
  · simp at hscan

/-! ### Printed texts -/

/-- The rules of a text, printed one a line, are read back. -/
theorem readRules_intercalate_text {source : String} {rules : List Rule}
    (h : readRules source = .ok rules) (hne : rules ≠ []) :
    readRules ("\n".intercalate (rules.map Rule.text)) = .ok rules := by
  obtain ⟨groups, hsays, hrules⟩ := readRules_eq_ok_iff.mp h
  rw [linesOf_eq] at hsays
  have hnames := isName_of_linesSay hsays
  generalize groups.flatten = said at hnames hrules
  subst hrules
  have hlines : linesOf ("\n".intercalate ((rulesFrom 0 said).map Rule.text)) =
      said.map fun e => Lexeme.scan [] (printed e).toList := by
    rw [linesOf_intercalate (by simpa using hne), map_text_rulesFrom, List.map_map]
    · rfl
    · rw [map_text_rulesFrom, List.forall_mem_map]
      exact fun e he => newline_not_mem_printed (hnames e he)
  refine readRules_eq_ok_iff.mpr ⟨said.map fun e => [e], ?_, ?_⟩
  · rw [hlines, List.forall₂_map_left_iff, List.forall₂_map_right_iff, List.forall₂_same]
    exact fun e he => lineSays_printed (hnames e he)
  · rw [← List.flatMap_def, List.flatMap_singleton']

namespace Grammar

variable {g : Grammar} {source : String}

theorem ofText_eq_ok_iff : ofText source = .ok g ↔ readRules source = .ok g.rules.toList := by
  rw [ofText]
  cases readRules source with
  | error e => simp
  | ok rules =>
    change ofProductions (rules.map .rule) = .ok g ↔ _
    rw [ofProductions_eq_ok_iff]
    constructor
    · intro h
      rw [h]
    · intro h
      cases h
      rfl

/-- A grammar that was read from a text is read again from its rules, printed one a line. -/
theorem ofText_intercalate_text (h : ofText source = .ok g) :
    ofText ("\n".intercalate (g.rules.toList.map Rule.text)) = .ok g := by
  have hne : g.rules.toList ≠ [] := by
    have hpos := g.wellFormed.nonempty
    intro hnil
    rw [← Array.length_toList, hnil] at hpos
    cases hpos
  exact ofText_eq_ok_iff.mpr (readRules_intercalate_text (ofText_eq_ok_iff.mp h) hne)

/-- Odd words, bars at the ends of bodies and both arrows. -/
theorem ofText_intercalate_text_words : ∃ g, ofText "S => a S | ε |\r\n\nT ε -> ->x\tεε" = .ok g ∧
    ofText "S -> a S\nS -> ε\nS -> ε\nT -> ->x εε" = .ok g := by
  obtain ⟨g, hg⟩ := exists_of_isOk (c := ofText "S => a S | ε |\r\n\nT ε -> ->x\tεε")
    (by decide +kernel)
  have htext : "\n".intercalate (g.rules.toList.map Rule.text) =
      "S -> a S\nS -> ε\nS -> ε\nT -> ->x εε" := by
    have hread : (ofText "S => a S | ε |\r\n\nT ε -> ->x\tεε").toOption.map
        (fun g => "\n".intercalate (g.rules.toList.map Rule.text)) =
          some "S -> a S\nS -> ε\nS -> ε\nT -> ->x εε" := by
      decide +kernel
    rw [hg] at hread
    exact Option.some.inj hread
  refine ⟨g, hg, ?_⟩
  rw [← htext]
  exact ofText_intercalate_text hg

end Grammar

end GrammarTables
