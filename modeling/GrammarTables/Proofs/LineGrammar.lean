import Mathlib.Data.List.Forall2
import GrammarTables.Proofs.LineReading
import GrammarTables.Proofs.Outcomes

/-!
# The grammar of lines

Without the word `ε`, a line is blank or it is a head, an arrow and bodies with bars between them
(`LineSays`). The reader accepts exactly the texts of such lines, and it names the first line that is
none (`readRules_iff_lineSays`).
-/

namespace GrammarTables

def alternativesText (bodies : List (List String)) : List Lexeme :=
  [.choice].intercalate (bodies.map (List.map .name))

/-- The lexemes of a line other than the word `ε`. -/
def withoutEmpty (line : List Lexeme) : List Lexeme := line.filter (· ≠ .empty)

/-- What a line says: nothing, or that its head has some bodies. -/
inductive LineSays (line : List Lexeme) : List (String × List String) → Prop where
  | blank (h : withoutEmpty line = []) : LineSays line []
  | group {head : String} {bodies : List (List String)} (hne : bodies ≠ [])
    (h : withoutEmpty line = .name head :: .arrow :: alternativesText bodies) :
    LineSays line (bodies.map (Prod.mk head))

/-- The line is a blank one or a group of bodies. -/
def LineConforms (line : List Lexeme) : Prop := ∃ said, LineSays line said

/-- The line with the index is the first one that does not conform. -/
def FirstFault (lines : List (List Lexeme)) (index : Nat) : Prop :=
  ∃ before line after, lines = before ++ line :: after ∧ index = before.length ∧
    (∀ l ∈ before, LineConforms l) ∧ ¬LineConforms line

/-- The rules of heads with bodies, numbered from `n` on. -/
def rulesFrom (n : Nat) (said : List (String × List String)) : List Rule :=
  (said.zipIdx n).map fun entry => ⟨.ofText entry.1.1, entry.1.2.map .ofText, entry.2⟩

@[simp] theorem rulesFrom_nil (n : Nat) : rulesFrom n [] = [] := rfl

@[simp] theorem rulesFrom_cons (n : Nat) (head : String) (body : List String)
    (said : List (String × List String)) : rulesFrom n ((head, body) :: said) =
      ⟨.ofText head, body.map .ofText, n⟩ :: rulesFrom (n + 1) said := rfl

theorem rulesFrom_append (n : Nat) (said more : List (String × List String)) :
    rulesFrom n (said ++ more) = rulesFrom n said ++ rulesFrom (n + said.length) more := by
  simp [rulesFrom, List.zipIdx_append]

@[simp] theorem length_rulesFrom (n : Nat) (said : List (String × List String)) :
    (rulesFrom n said).length = said.length := by
  simp [rulesFrom]

/-! ### Bodies with bars between them -/

section Alternatives

variable {first : List String} {others : List (List String)} {x : Lexeme} {l : List Lexeme}

private theorem alternativesText_name (t : String) :
    alternativesText ((t :: first) :: others) = .name t :: alternativesText (first :: others) := by
  cases others with
  | nil => simp [alternativesText]
  | cons b bs => simp [alternativesText]

private theorem alternativesText_choice (b : List String) (bs : List (List String)) :
    alternativesText ([] :: b :: bs) = .choice :: alternativesText (b :: bs) := by
  simp [alternativesText]

private theorem nil_eq_alternativesText_iff :
    [] = alternativesText (first :: others) ↔ first = [] ∧ others = [] := by
  cases first with
  | nil =>
    cases others with
    | nil => simp [alternativesText]
    | cons b bs => simp [alternativesText_choice]
  | cons t first => simp [alternativesText_name]

private theorem cons_eq_alternativesText_iff : x :: l = alternativesText (first :: others) ↔
    (∃ t rest, first = t :: rest ∧ x = .name t ∧ l = alternativesText (rest :: others)) ∨
      first = [] ∧ x = .choice ∧ ∃ bs b, others = b :: bs ∧ l = alternativesText (b :: bs) := by
  cases first with
  | nil =>
    cases others with
    | nil => simp [alternativesText]
    | cons b bs => simp [alternativesText_choice]
  | cons t first => simp [alternativesText_name]

end Alternatives

/-! ### One line -/

namespace RuleReader

variable {r r' : RuleReader} {n : Nat} {names : List String} {acc : Array String}
  {rules rules' : Array Rule} {l : List Lexeme} {x : Lexeme}

private theorem readRest_withoutEmpty (n : Nat) (r : RuleReader) (l : List Lexeme) :
    r.readRest n (withoutEmpty l) = r.readRest n l := by
  induction l generalizing r with
  | nil => rfl
  | cons x l ih =>
    by_cases hx : x = .empty
    · subst hx
      rw [readRest_cons, withoutEmpty, List.filter_cons_of_neg (by simp)]
      exact ih r
    · rw [withoutEmpty, List.filter_cons_of_pos (by simpa using hx), readRest_cons, readRest_cons]
      exact congrArg _ (funext ih)

private theorem emit_eq_ok_iff : emit ⟨⟨names, acc, true⟩, rules⟩ n = .ok r' ↔
    ∃ head, names = [head] ∧ r' = ⟨⟨[head], #[], true⟩,
      rules.push ⟨.ofText head, acc.toList.map .ofText, rules.size⟩⟩ := by
  cases names with
  | nil => simp [emit, Pending.emit, bind, Except.bind]
  | cons head names =>
    cases names with
    | nil => simp [emit, Pending.emit, bind, Except.bind, pure, Except.pure, eq_comm]
    | cons _ _ => simp [emit, Pending.emit, bind, Except.bind]

private theorem readRest_nil_bodies :
    readRest n ⟨⟨names, acc, true⟩, rules⟩ [] =
      emit ⟨⟨names, acc, true⟩, rules⟩ n >>= fun r' => .ok r'.rules := by
  rw [readRest_nil, endLine, if_neg (by simp [Pending.isBlank]), bind_assoc]
  rfl

private theorem readRest_bodies_iff (hl : ∀ x ∈ l, x ≠ .empty ∧ x ≠ .endOfLine) :
    readRest n ⟨⟨names, acc, true⟩, rules⟩ l = .ok rules' ↔ ∃ head, names = [head] ∧
      ∃ others first, l = alternativesText (first :: others) ∧ rules'.toList = rules.toList ++
        rulesFrom rules.size (((acc.toList ++ first) :: others).map (Prod.mk head)) := by
  induction l generalizing acc rules with
  | nil =>
    rw [readRest_nil_bodies, bind_eq_ok_iff]
    simp only [emit_eq_ok_iff, nil_eq_alternativesText_iff]
    simp [← Array.toList_inj, eq_comm]
  | cons x l ih =>
    have hx := hl x (by simp)
    replace ih {acc rules} := @ih acc rules fun y hy => hl y (by simp [hy])
    simp only [cons_eq_alternativesText_iff]
    rw [readRest_cons]
    cases x with
    | name t =>
      change readRest n ⟨⟨names, acc.push t, true⟩, rules⟩ l = .ok rules' ↔ _
      rw [ih]
      simp
    | choice =>
      change emit ⟨⟨names, acc, true⟩, rules⟩ n >>= (fun r => r.readRest n l) = .ok rules' ↔ _
      -- a bar makes a rule like the end of the line does, and the head stays for the next body
      rw [bind_eq_ok_iff]
      simp only [emit_eq_ok_iff]
      constructor
      · rintro ⟨_, ⟨head, rfl, rfl⟩, hf⟩
        simpa using ih.mp hf
      · rintro ⟨head, rfl, hl⟩
        exact ⟨_, ⟨head, rfl, rfl⟩, ih.mpr (by simpa using hl)⟩
    | arrow =>
      change Except.error (LineError.mk n .secondArrow) = .ok rules' ↔ _
      simp
    | empty => exact absurd rfl hx.1
    | endOfLine => exact absurd rfl hx.2

private theorem cons_eq_head_iff {more : List String} {rest : List Lexeme} :
    x :: l = more.map .name ++ .arrow :: rest ↔
      (∃ t more', more = t :: more' ∧ x = .name t ∧ l = more'.map .name ++ .arrow :: rest) ∨
        more = [] ∧ x = .arrow ∧ l = rest := by
  cases more with
  | nil => simp
  | cons t more => simp

private theorem readRest_head_iff (hne : names ≠ [] ∨ l ≠ [])
    (hl : ∀ x ∈ l, x ≠ .empty ∧ x ≠ .endOfLine) :
    readRest n ⟨⟨names, #[], false⟩, rules⟩ l = .ok rules' ↔ ∃ more rest,
      l = more.map .name ++ .arrow :: rest ∧
        readRest n ⟨⟨names ++ more, #[], true⟩, rules⟩ rest = .ok rules' := by
  induction l generalizing names with
  | nil =>
    obtain ⟨t, names, rfl⟩ := List.exists_cons_of_ne_nil (hne.resolve_right (by simp))
    change Except.error (LineError.mk n .missingArrow) = .ok rules' ↔ _
    simp
  | cons x l ih =>
    have hx := hl x (by simp)
    simp only [cons_eq_head_iff]
    rw [readRest_cons]
    cases x with
    | name t =>
      change readRest n ⟨⟨names ++ [t], #[], false⟩, rules⟩ l = .ok rules' ↔ _
      rw [ih (Or.inl (by simp)) fun y hy => hl y (by simp [hy]), exists_comm]
      simp
    | arrow =>
      change readRest n ⟨⟨names, #[], true⟩, rules⟩ l = .ok rules' ↔ _
      simp
    | choice =>
      change Except.error (LineError.mk n .missingArrow) = .ok rules' ↔ _
      simp
    | empty => exact absurd rfl hx.1
    | endOfLine => exact absurd rfl hx.2

/-! ### Errors -/

private theorem line_of_pendingEmit {p : Pending} {index : Nat} {e : LineError}
    (h : p.emit index n = .error e) : e.line = n := by
  rw [Pending.emit] at h
  split at h
  · cases h
    rfl
  · split at h
    · cases h
    · cases h
      rfl
    · cases h
      rfl

private theorem line_of_emit {e : LineError} (h : r.emit n = .error e) : e.line = n := by
  rcases bind_eq_error_iff.mp h with h | ⟨_, -, h⟩
  · exact line_of_pendingEmit h
  · cases h

private theorem line_of_endLine {e : LineError} (h : r.endLine n = .error e) : e.line = n := by
  rw [endLine] at h
  split at h
  · cases h
  · rcases bind_eq_error_iff.mp h with h | ⟨_, -, h⟩
    · exact line_of_emit h
    · cases h

private theorem line_of_read {e : LineError} (h : r.read n x = .error e) : e.line = n := by
  cases x with
  | name t => cases h
  | empty => cases h
  | arrow =>
    rw [read] at h
    split at h
    · cases h
      rfl
    · cases h
  | choice => exact line_of_emit h
  | endOfLine => exact line_of_endLine h

theorem line_of_readRest {e : LineError} (h : r.readRest n l = .error e) : e.line = n := by
  rcases bind_eq_error_iff.mp h with h | ⟨r', -, h⟩
  · obtain ⟨_, _, _, _, -, -, h⟩ := exists_first_of_foldlM_eq_error h
    exact line_of_read h
  · rcases bind_eq_error_iff.mp h with h | ⟨_, -, h⟩
    · exact line_of_endLine h
    · cases h

end RuleReader

variable {line : List Lexeme} {lines : List (List Lexeme)} {rules rules' : Array Rule} {m n : Nat}

private theorem ne_of_mem_withoutEmpty (hl : .endOfLine ∉ line) {x : Lexeme}
    (hx : x ∈ withoutEmpty line) : x ≠ .empty ∧ x ≠ .endOfLine := by
  obtain ⟨hx, hne⟩ := List.mem_filter.mp hx
  exact ⟨by simpa using hne, ne_of_mem_of_not_mem hx hl⟩

/-- A line adds the rules that it says. -/
theorem readLine_eq_ok_iff (hl : .endOfLine ∉ line) : readLine n rules line = .ok rules' ↔
    ∃ said, LineSays line said ∧ rules'.toList = rules.toList ++ rulesFrom rules.size said := by
  have hne {x} (hx : x ∈ withoutEmpty line) := ne_of_mem_withoutEmpty hl hx
  rw [readLine, ← RuleReader.readRest_withoutEmpty]
  by_cases hblank : withoutEmpty line = []
  · rw [hblank]
    change Except.ok rules = .ok rules' ↔ _
    constructor
    · intro h
      cases h
      exact ⟨[], .blank hblank, by simp⟩
    · rintro ⟨said, hsays, hr⟩
      cases hsays with
      | blank => exact congrArg Except.ok (Array.toList_inj.mp (by simpa using hr.symm))
      | group _ h =>
        rw [hblank] at h
        cases h
  · change RuleReader.readRest n ⟨⟨[], #[], false⟩, rules⟩ (withoutEmpty line) = .ok rules' ↔ _
    rw [RuleReader.readRest_head_iff (Or.inr hblank) fun x => hne]
    constructor
    · rintro ⟨more, rest, hline, hf⟩
      have hrest : ∀ x ∈ rest, x ≠ .empty ∧ x ≠ .endOfLine := by
        intro x hx
        exact hne (by simp [hline, hx])
      obtain ⟨head, hhead, others, first, rfl, hr⟩ :=
        (RuleReader.readRest_bodies_iff hrest).mp hf
      rw [List.nil_append] at hhead
      subst hhead
      exact ⟨_, .group (List.cons_ne_nil first others) hline, hr⟩
    · rintro ⟨said, hsays, hr⟩
      cases hsays with
      | blank h => exact absurd h hblank
      | @group head bodies hbodies h =>
        have hrest : ∀ x ∈ alternativesText bodies, x ≠ .empty ∧ x ≠ .endOfLine := by
          intro x hx
          exact hne (by simp [h, hx])
        obtain ⟨first, others, rfl⟩ := List.exists_cons_of_ne_nil hbodies
        exact ⟨[head], _, h,
          (RuleReader.readRest_bodies_iff hrest).mpr ⟨head, rfl, others, first, rfl, hr⟩⟩

theorem lineConforms_iff (hl : .endOfLine ∉ line) (n : Nat) (rules : Array Rule) :
    LineConforms line ↔ ∃ rules', readLine n rules line = .ok rules' := by
  constructor
  · intro h
    obtain ⟨said, hsays⟩ := h
    exact ⟨(rules.toList ++ rulesFrom rules.size said).toArray,
      (readLine_eq_ok_iff hl).mpr ⟨said, hsays, rfl⟩⟩
  · intro h
    obtain ⟨_, h⟩ := h
    obtain ⟨said, hsays, -⟩ := (readLine_eq_ok_iff hl).mp h
    exact ⟨said, hsays⟩

/-! ### All lines -/

theorem readLines_eq_ok_iff (hl : ∀ line ∈ lines, .endOfLine ∉ line) :
    readLines n rules lines = .ok rules' ↔ ∃ said, List.Forall₂ LineSays lines said ∧
      rules'.toList = rules.toList ++ rulesFrom rules.size said.flatten := by
  induction lines generalizing n rules with
  | nil =>
    change Except.ok rules = .ok rules' ↔ _
    simp [eq_comm]
  | cons line lines ih =>
    replace ih {n rules} := @ih n rules fun line hline => hl line (by simp [hline])
    rw [readLines, bind_eq_ok_iff]
    simp only [readLine_eq_ok_iff (hl line (by simp)), ih, List.forall₂_cons_left_iff]
    constructor
    · rintro ⟨rules₁, ⟨said, hsays, hr₁⟩, more, hmore, hr⟩
      have hsize : rules₁.size = rules.size + said.length := by
        rw [← Array.length_toList, hr₁]
        simp
      refine ⟨said :: more, ⟨said, more, hsays, hmore, rfl⟩, ?_⟩
      rw [hr, hr₁, hsize, List.append_assoc, ← rulesFrom_append]
      rfl
    · rintro ⟨_, ⟨said, more, hsays, hmore, rfl⟩, hr⟩
      refine ⟨(rules.toList ++ rulesFrom rules.size said).toArray, ⟨said, hsays, rfl⟩, more, hmore, ?_⟩
      rw [hr, List.flatten_cons, rulesFrom_append, List.append_assoc]
      simp

private theorem firstFault_cons_of_conforms (hline : LineConforms line) {k : Nat} :
    FirstFault (line :: lines) k ↔ ∃ k', FirstFault lines k' ∧ k = k' + 1 := by
  constructor
  · rintro ⟨before, bad, after, hsplit, rfl, hbefore, hbad⟩
    cases before with
    | nil =>
      obtain ⟨rfl, -⟩ := List.cons_eq_cons.mp hsplit
      exact absurd hline hbad
    | cons first before =>
      obtain ⟨rfl, rfl⟩ := List.cons_eq_cons.mp hsplit
      exact ⟨_, ⟨before, bad, after, rfl, rfl, fun l hl => hbefore l (by simp [hl]), hbad⟩, rfl⟩
  · rintro ⟨_, ⟨before, bad, after, rfl, rfl, hbefore, hbad⟩, rfl⟩
    exact ⟨line :: before, bad, after, rfl, rfl, by simpa [hline] using hbefore, hbad⟩

private theorem firstFault_cons_of_not_conforms (hline : ¬LineConforms line) {k : Nat} :
    FirstFault (line :: lines) k ↔ k = 0 := by
  constructor
  · rintro ⟨before, bad, after, hsplit, rfl, hbefore, -⟩
    cases before with
    | nil => rfl
    | cons first before =>
      obtain ⟨rfl, -⟩ := List.cons_eq_cons.mp hsplit
      exact absurd (hbefore line (by simp)) hline
  · rintro rfl
    exact ⟨[], line, lines, rfl, rfl, by simp, hline⟩

/-- Reading fails at the first line that does not conform. -/
theorem exists_readLines_eq_error_iff (hl : ∀ line ∈ lines, .endOfLine ∉ line) :
    (∃ e, readLines n rules lines = .error e ∧ e.line = m) ↔
      ∃ k, FirstFault lines k ∧ m = n + k := by
  induction lines generalizing n rules with
  | nil =>
    change (∃ e : LineError, Except.ok rules = .error e ∧ e.line = m) ↔ _
    simp [FirstFault]
  | cons line lines ih =>
    replace ih {n rules} := @ih n rules fun line hline => hl line (by simp [hline])
    have hconf := lineConforms_iff (hl line (by simp)) n rules
    rw [readLines]
    cases hread : readLine n rules line with
    | ok rules₁ =>
      change (∃ e, readLines (n + 1) rules₁ lines = .error e ∧ e.line = m) ↔ _
      have hline : LineConforms line := hconf.mpr ⟨rules₁, hread⟩
      simp only [ih, firstFault_cons_of_conforms hline]
      constructor
      · rintro ⟨k, hk, rfl⟩
        exact ⟨k + 1, ⟨k, hk, rfl⟩, by omega⟩
      · rintro ⟨_, ⟨k, hk, rfl⟩, rfl⟩
        exact ⟨k, hk, by omega⟩
    | error e =>
      change (∃ e', .error e = Except.error e' ∧ e'.line = m) ↔ _
      have hline : ¬LineConforms line := by
        intro h
        obtain ⟨_, hok⟩ := hconf.mp h
        rw [hread] at hok
        cases hok
      have hn : e.line = n := RuleReader.line_of_readRest hread
      simp only [firstFault_cons_of_not_conforms hline, exists_eq_left]
      constructor
      · rintro ⟨e', he, rfl⟩
        cases he
        exact hn
      · rintro rfl
        exact ⟨_, rfl, hn⟩

private theorem endOfLine_not_mem_linesOf (source : String) :
    ∀ line ∈ linesOf source, .endOfLine ∉ line := by
  intro line hline
  rw [← lines_lexemes] at hline
  exact Lexeme.endOfLine_not_mem_of_mem_lines hline

theorem readRules_eq_ok_iff {source : String} {rules : List Rule} : readRules source = .ok rules ↔
    ∃ said, List.Forall₂ LineSays (linesOf source) said ∧ rules = rulesFrom 0 said.flatten := by
  rw [readRules_eq, bind_eq_ok_iff]
  simp only [readLines_eq_ok_iff (endOfLine_not_mem_linesOf source)]
  constructor
  · rintro ⟨found, ⟨said, hsays, hr⟩, hf⟩
    cases hf
    exact ⟨said, hsays, hr⟩
  · rintro ⟨said, hsays, rfl⟩
    exact ⟨(rulesFrom 0 said.flatten).toArray, ⟨said, hsays, rfl⟩, rfl⟩

private theorem readRules_eq_error_iff {source : String} {e : LineError} :
    readRules source = .error e ↔ readLines 1 #[] (linesOf source) = .error e := by
  rw [readRules_eq, bind_eq_error_iff]
  simp

/-- A text is read if all lines conform, and gives one rule for each body. Otherwise the message
names the first line that does not conform; lines are counted from one. -/
theorem readRules_iff_lineSays (source : String) :
    (∀ rules, readRules source = .ok rules ↔ ∃ said, List.Forall₂ LineSays (linesOf source) said ∧
      rules = rulesFrom 0 said.flatten) ∧
    ∀ n, (∃ e, readRules source = .error e ∧ e.line = n ∧
        ∃ fault, e.message = "line " ++ toString n ++ ": " ++ fault) ↔
      ∃ k, FirstFault (linesOf source) k ∧ n = k + 1 := by
  refine ⟨fun rules => readRules_eq_ok_iff, fun n => ?_⟩
  have hlines : (∃ e, readLines 1 #[] (linesOf source) = .error e ∧ e.line = n) ↔ _ :=
    exists_readLines_eq_error_iff (endOfLine_not_mem_linesOf source)
  simp only [Nat.add_comm 1, ← readRules_eq_error_iff] at hlines
  rw [← hlines]
  constructor
  · rintro ⟨e, he, hn, -⟩
    exact ⟨e, he, hn⟩
  · rintro ⟨e, he, rfl⟩
    exact ⟨e, he, rfl, _, rfl⟩

end GrammarTables
