import Mathlib.Data.List.Basic
import GrammarTables.Proofs.LexicalRules

/-!
# Places of lexemes

The lexemes of a text are the ones that the lexical rules find by longest match. They are the line
ends, the bars and the maximal words of the text, each at its place, and blanks are all that lies
between them.
-/

namespace GrammarTables

/-! ### What a text consists of -/

/-- A word that has no further character on either side. -/
structure MaximalWord (u w v : List Char) : Prop where
  ne_nil : w ≠ []
  chars : ∀ c ∈ w, c ∉ separators
  left : ∀ c ∈ u.getLast?, c ∈ separators
  right : ∀ c ∈ v.head?, c ∈ separators

/-- The lexeme that the characters between `u` and `v` are. -/
inductive Lexeme.Stands (u : List Char) : (w v : List Char) → Lexeme → Prop where
  | endOfLine (v : List Char) : Stands u ['\n'] v .endOfLine
  | choice (v : List Char) : Stands u ['|'] v .choice
  | arrow {w v : List Char} (h : MaximalWord u w v)
    (hw : String.ofList w = "->" ∨ String.ofList w = "=>") : Stands u w v .arrow
  | empty {w v : List Char} (h : MaximalWord u w v) (hw : String.ofList w = "ε") :
    Stands u w v .empty
  | name {w v : List Char} (h : MaximalWord u w v)
    (hw : ∀ reserved ∈ ["->", "=>", "ε"], String.ofList w ≠ reserved) :
    Stands u w v (.name (String.ofList w))

/-- The lexeme holds the character that stands behind `u`. -/
def Located.Holds (t : Located) (u : List Char) (c : Char) : Prop :=
  t.start.byte ≤ (Location.behind u).byte ∧ (Location.behind (u ++ [c])).byte ≤ t.stop.byte

/-- The lexeme ends before the character that stands behind `u`, or starts after it. -/
def Located.Avoids (t : Located) (u : List Char) (c : Char) : Prop :=
  t.stop.byte ≤ (Location.behind u).byte ∨ (Location.behind (u ++ [c])).byte ≤ t.start.byte

/-- The lexemes stand in the text in order, consist of all its characters other than blanks, and are
its line ends, its bars and its maximal words. -/
structure Divides (before rest : List Char) (l : List Located) : Prop where
  ordered : l.Pairwise fun s t => s.stop.byte ≤ t.start.byte
  nonempty : ∀ t ∈ l, t.start.byte < t.stop.byte
  holds : ∀ u c v, rest = u ++ c :: v → c ∉ blanks → ∃ t ∈ l, t.Holds (before ++ u) c
  avoids : ∀ u c v, rest = u ++ c :: v → c ∈ blanks → ∀ t ∈ l, t.Avoids (before ++ u) c
  mem_iff : ∀ t, t ∈ l ↔ ∃ u w v, rest = u ++ w ++ v ∧ t.lexeme.Stands (before ++ u) w v ∧
    t.start = .behind (before ++ u) ∧ t.stop = .behind (before ++ u ++ w)

/-! ### Places -/

section Places

variable {u w : List Char} {c : Char}

private theorem behind_concat (u : List Char) (c : Char) :
    (Location.behind u).after c = .behind (u ++ [c]) := by
  have hbyte : (String.ofList [c]).utf8ByteSize = c.utf8Size := by
    rw [← String.singleton_eq_ofList, String.utf8ByteSize_singleton]
  rw [Location.after, Location.behind, Location.behind, String.ofList_append,
    String.utf8ByteSize_append, hbyte, List.count_append, List.count_singleton]
  by_cases hc : c = '\n'
  · simp [hc]
  · simp [hc]

theorem byte_behind_append (u w : List Char) : (Location.behind (u ++ w)).byte =
    (Location.behind u).byte + (String.ofList w).utf8ByteSize := by
  simp [Location.behind]

theorem byte_behind_le (u w : List Char) :
    (Location.behind u).byte ≤ (Location.behind (u ++ w)).byte := by
  rw [byte_behind_append]
  omega

theorem byte_behind_lt (hw : w ≠ []) :
    (Location.behind u).byte < (Location.behind (u ++ w)).byte := by
  obtain ⟨c, w, rfl⟩ := List.exists_cons_of_ne_nil hw
  have hpos := c.utf8Size_pos
  rw [byte_behind_append, String.ofList_cons, String.utf8ByteSize_append,
    String.utf8ByteSize_singleton]
  omega

end Places

/-! ### The front of a text -/

namespace Lexeme

variable {u w v w₀ v₀ : List Char} {x : Lexeme} {x₀ : Option Lexeme}

/-- No word goes on across this place. -/
def Apart (u v : List Char) : Prop :=
  ∀ c ∈ u.getLast?, ∀ d ∈ v.head?, c ∈ separators ∨ d ∈ separators

theorem not_isWordChar_iff {c : Char} : isWordChar c = false ↔ c ∈ separators := by
  rw [← Bool.not_eq_true, isWordChar_iff, not_not]

theorem Piece.apart (h : Piece w v x₀) (u : List Char) : Apart (u ++ w) v := by
  intro c hc d hd
  rw [List.getLast?_append_of_ne_nil _ h.ne_nil] at hc
  have hmem : c ∈ w := List.mem_of_getLast? hc
  cases h with
  | blanks _ hw =>
    have hblank := isBlank_iff.mp (hw c hmem)
    exact .inl (List.mem_append_left ['\n', '|'] hblank)
  | separator _ hx =>
    obtain rfl := List.mem_singleton.mp hmem
    rcases ofChar?_cases hx with ⟨rfl, -⟩ | ⟨rfl, -⟩
    · exact .inl (by simp [separators])
    · exact .inl (by simp [separators])
  | word _ _ hv => exact .inr (not_isWordChar_iff.mp (hv d hd))

theorem MaximalWord.piece (h : MaximalWord u w v) :
    Piece w v (some (ofWord (String.ofList w))) :=
  .word h.ne_nil (fun c hc => isWordChar_iff.mpr (h.chars c hc))
    fun c hc => not_isWordChar_iff.mpr (h.right c hc)

theorem Stands.piece (h : Stands u w v x) : Piece w v (some x) := by
  cases h with
  | endOfLine => exact .separator v rfl
  | choice => exact .separator v rfl
  | arrow h hw =>
    have hpiece := MaximalWord.piece h
    rwa [ofWord, if_pos hw] at hpiece
  | empty h hw =>
    have hpiece := MaximalWord.piece h
    rw [hw] at hpiece
    exact hpiece
  | name h hw =>
    have hpiece := MaximalWord.piece h
    simp only [List.mem_cons, List.not_mem_nil, or_false, forall_eq_or_imp, forall_eq] at hw
    rwa [ofWord, if_neg (not_or.mpr ⟨hw.1, hw.2.1⟩), if_neg hw.2.2] at hpiece

theorem Piece.stands (h : Piece w v (some x)) (hu : Apart u (w ++ v)) : Stands u w v x := by
  cases h with
  | separator _ hx =>
    rcases ofChar?_cases hx with ⟨rfl, rfl⟩ | ⟨rfl, rfl⟩
    · exact .endOfLine v
    · exact .choice v
  | word hne hw hv =>
    have hword : MaximalWord u w v := by
      refine ⟨hne, fun c hc => isWordChar_iff.mp (hw c hc), fun c hc => ?_,
        fun c hc => not_isWordChar_iff.mp (hv c hc)⟩
      obtain ⟨d, w, rfl⟩ := List.exists_cons_of_ne_nil hne
      exact (hu c hc d rfl).resolve_right (isWordChar_iff.mp (hw d List.mem_cons_self))
    rw [ofWord]
    split
    · next hw => exact .arrow hword hw
    · next harrow =>
      split
      · next hw => exact .empty hword hw
      · next hempty =>
        obtain ⟨hthin, hthick⟩ := not_or.mp harrow
        exact .name hword (by simp [hthin, hthick, hempty])

theorem Piece.eq (h : Piece w v x₀) {w' v' : List Char} {x' : Option Lexeme}
    (h' : Piece w' v' x') (he : w ++ v = w' ++ v') : w = w' ∧ v = v' ∧ x₀ = x' := by
  obtain ⟨r, hr, rfl⟩ := h.exists_longestMatch
  obtain ⟨r', hr', rfl⟩ := h'.exists_longestMatch
  obtain ⟨rfl, rfl, rfl⟩ := hr.eq hr' he
  exact ⟨rfl, rfl, rfl⟩

private theorem Stands.first {c : Char} (h : Stands u (c :: w) v x) :
    isBlank c = false ∧ (isWordChar c = true → ∀ d ∈ u.getLast?, d ∈ separators) := by
  have hclass := class_cases c
  have hpiece := h.piece
  refine ⟨?_, fun hc => ?_⟩
  · cases hpiece with
    | separator _ hx => simp_all
    | word _ hw => simp_all
  · cases h with
    | endOfLine => simp [isWordChar, ofChar?] at hc
    | choice => simp [isWordChar, ofChar?] at hc
    | arrow h => exact h.left
    | empty h => exact h.left
    | name h => exact h.left

private theorem Stands.eq_nil_of_inside {before t : List Char} (h : Stands (before ++ u) w v x)
    (hp : Piece (u ++ t) v₀ x₀) (ht : t ≠ []) (he : t ++ v₀ = w ++ v) : u = [] := by
  by_contra hu
  obtain ⟨d, w, rfl⟩ := List.exists_cons_of_ne_nil h.piece.ne_nil
  obtain ⟨d', t, rfl⟩ := List.exists_cons_of_ne_nil ht
  obtain rfl : d' = d := (List.cons.inj he).1
  obtain ⟨hblank, hword⟩ := h.first
  generalize hw₀ : u ++ d' :: t = w₀ at hp
  have hmem : d' ∈ w₀ := hw₀ ▸ List.mem_append_right u List.mem_cons_self
  cases hp with
  | blanks _ hw => simp [hw d' hmem] at hblank
  | separator _ hx =>
    have hlength := congrArg List.length hw₀
    have hpos := List.length_pos_of_ne_nil hu
    rw [List.length_append, List.length_cons, List.length_singleton] at hlength
    omega
  | word _ hw =>
    obtain ⟨c, hc⟩ := Option.isSome_iff_exists.mp (List.getLast?_isSome.mpr hu)
    have hcw : c ∈ w₀ := hw₀ ▸ List.mem_append_left _ (List.mem_of_getLast? hc)
    rw [List.getLast?_append_of_ne_nil _ hu] at hword
    exact isWordChar_iff.mp (hw c hcw) (hword (hw d' hmem) c hc)

/-- A lexeme of a text is the piece at its front, or stands behind that. -/
theorem Stands.front_or_behind {before : List Char} (h : Stands (before ++ u) w v x)
    (hp : Piece w₀ v₀ x₀) (he : w₀ ++ v₀ = u ++ w ++ v) :
    (u = [] ∧ w = w₀ ∧ v = v₀ ∧ x₀ = some x) ∨ ∃ u', u = w₀ ++ u' ∧ v₀ = u' ++ w ++ v := by
  rw [List.append_assoc] at he
  rcases List.append_eq_append_iff.mp he with ⟨u', rfl, hv⟩ | ⟨t, rfl, ht⟩
  · exact .inr ⟨u', rfl, by rw [hv, List.append_assoc]⟩
  · by_cases hnil : t = []
    · subst hnil
      exact .inr ⟨[], by simp, by simpa using ht.symm⟩
    · obtain rfl := h.eq_nil_of_inside hp hnil ht.symm
      obtain ⟨rfl, rfl, rfl⟩ := hp.eq h.piece he
      exact .inl ⟨rfl, rfl, rfl, rfl⟩

theorem Piece.eq_none_iff (h : Piece w v x₀) {c : Char} (hc : c ∈ w) :
    x₀ = none ↔ isBlank c = true := by
  have hclass := class_cases c
  cases h with
  | blanks _ hw => simp [hw c hc]
  | separator _ hx => simp_all
  | word _ hw =>
    have hword := hw c hc
    simp_all

end Lexeme

/-! ### Longest matches -/

section Division

variable {before rest u w v : List Char} {c : Char} {x : Option Lexeme} {t : Located}
  {l : List Located}

private theorem mem_placed : t ∈ placed before w x ↔
    x = some t.lexeme ∧ t.start = .behind before ∧ t.stop = .behind (before ++ w) := by
  cases x with
  | none => simp [placed]
  | some x =>
    simp only [placed, Option.toList_some, List.map_cons, List.map_nil, List.mem_singleton,
      Option.some.injEq]
    constructor
    · rintro rfl
      exact ⟨rfl, rfl, rfl⟩
    · obtain ⟨start, y, stop⟩ := t
      rintro ⟨rfl, rfl, rfl⟩
      rfl

private theorem Divides.le_start (h : Divides before rest l) (ht : t ∈ l) :
    (Location.behind before).byte ≤ t.start.byte := by
  obtain ⟨u, w, v, -, -, hstart, -⟩ := (h.mem_iff t).mp ht
  rw [hstart]
  exact byte_behind_le before u

private theorem mem_front_or_behind {v' : List Char} (h : w ++ v = u ++ c :: v') :
    (∃ s, w = u ++ [c] ++ s) ∨ ∃ u', u = w ++ u' ∧ v = u' ++ c :: v' := by
  rcases List.append_eq_append_iff.mp h with ⟨u', hu, hv⟩ | ⟨s, hw, hs⟩
  · exact .inr ⟨u', hu, hv⟩
  · cases s with
    | nil => exact .inr ⟨[], by simpa using hw.symm, hs.symm⟩
    | cons d s =>
      obtain rfl : c = d := (List.cons.inj hs).1
      exact .inl ⟨s, by simpa using hw⟩

private theorem Divides.exists_holds (h : Divides (before ++ w) v l) (hp : Lexeme.Piece w v x)
    {v' : List Char} (he : w ++ v = u ++ c :: v') (hc : c ∉ blanks) :
    ∃ t ∈ placed before w x ++ l, t.Holds (before ++ u) c := by
  rcases mem_front_or_behind he with ⟨s, rfl⟩ | ⟨u', rfl, hv⟩
  · have hsome : x ≠ none := fun hx =>
      hc (Lexeme.isBlank_iff.mp ((hp.eq_none_iff (by simp)).mp hx))
    obtain ⟨x, rfl⟩ := Option.ne_none_iff_exists'.mp hsome
    refine ⟨⟨.behind before, x, .behind (before ++ (u ++ [c] ++ s))⟩,
      List.mem_append_left _ (mem_placed.mpr ⟨rfl, rfl, rfl⟩), ?_, ?_⟩
    · exact byte_behind_le before u
    · rw [← List.append_assoc before, ← List.append_assoc before]
      exact byte_behind_le _ s
  · obtain ⟨t, ht, hold⟩ := h.holds u' c v' hv hc
    rw [List.append_assoc] at hold
    exact ⟨t, List.mem_append_right _ ht, hold⟩

private theorem Divides.avoids_blank (h : Divides (before ++ w) v l) (hp : Lexeme.Piece w v x)
    {v' : List Char} (he : w ++ v = u ++ c :: v') (hc : c ∈ blanks)
    (ht : t ∈ placed before w x ++ l) : t.Avoids (before ++ u) c := by
  rcases mem_front_or_behind he with ⟨s, rfl⟩ | ⟨u', rfl, hv⟩
  · obtain rfl : x = none := (hp.eq_none_iff (by simp)).mpr (Lexeme.isBlank_iff.mpr hc)
    refine .inr (Nat.le_trans ?_ (h.le_start ht))
    rw [← List.append_assoc before, ← List.append_assoc before]
    exact byte_behind_le _ s
  · rw [← List.append_assoc before]
    rcases List.mem_append.mp ht with ht | ht
    · refine .inl ?_
      rw [(mem_placed.mp ht).2.2]
      exact byte_behind_le _ u'
    · exact h.avoids u' c v' hv hc t ht

private theorem Divides.mem_append_iff (h : Divides (before ++ w) v l) (hp : Lexeme.Piece w v x)
    (hb : Lexeme.Apart before (w ++ v)) : t ∈ placed before w x ++ l ↔
      ∃ u w' v', w ++ v = u ++ w' ++ v' ∧ t.lexeme.Stands (before ++ u) w' v' ∧
        t.start = .behind (before ++ u) ∧ t.stop = .behind (before ++ u ++ w') := by
  rw [List.mem_append, mem_placed, h.mem_iff]
  constructor
  · rintro (⟨rfl, hstart, hstop⟩ | ⟨u, w', v', rfl, hstands, hstart, hstop⟩)
    · refine ⟨[], w, v, rfl, ?_, ?_, ?_⟩
      · rw [List.append_nil]
        exact hp.stands hb
      · rw [List.append_nil, hstart]
      · rw [List.append_nil, hstop]
    · refine ⟨w ++ u, w', v', by simp only [List.append_assoc], ?_⟩
      rw [← List.append_assoc before]
      exact ⟨hstands, hstart, hstop⟩
  · rintro ⟨u, w', v', he, hstands, hstart, hstop⟩
    rcases hstands.front_or_behind hp he with ⟨rfl, rfl, rfl, hx⟩ | ⟨u', rfl, hv⟩
    · rw [List.append_nil] at hstart hstop
      exact .inl ⟨hx, hstart, hstop⟩
    · rw [← List.append_assoc before] at hstands hstart hstop
      exact .inr ⟨u', w', v', hv, hstands, hstart, hstop⟩

theorem Divides.cons_piece (h : Divides (before ++ w) v l) (hp : Lexeme.Piece w v x)
    (hb : Lexeme.Apart before (w ++ v)) :
    Divides before (w ++ v) (placed before w x ++ l) where
  ordered := by
    refine List.pairwise_append.mpr ⟨?_, h.ordered, fun s hs t ht => ?_⟩
    · cases x with
      | none => exact List.Pairwise.nil
      | some x => exact List.pairwise_singleton _ _
    · rw [(mem_placed.mp hs).2.2]
      exact h.le_start ht
  nonempty := by
    intro t ht
    rcases List.mem_append.mp ht with ht | ht
    · obtain ⟨-, hstart, hstop⟩ := mem_placed.mp ht
      rw [hstart, hstop]
      exact byte_behind_lt hp.ne_nil
    · exact h.nonempty t ht
  holds _ _ _ he hc := h.exists_holds hp he hc
  avoids _ _ _ he hc _ ht := h.avoids_blank hp he hc ht
  mem_iff _ := h.mem_append_iff hp hb

private theorem divides_nil : Divides before [] [] where
  ordered := List.Pairwise.nil
  nonempty := by simp
  holds := by simp
  avoids := by simp
  mem_iff := by
    intro t
    refine ⟨fun ht => absurd ht List.not_mem_nil, ?_⟩
    rintro ⟨u, w, v, he, hstands, -⟩
    simp only [List.nil_eq, List.append_eq_nil_iff] at he
    exact absurd he.1.2 hstands.piece.ne_nil

/-- Longest matches divide a text. -/
theorem Tokenizes.divides (h : Tokenizes lexicalRules before rest l)
    (hb : Lexeme.Apart before rest) : Divides before rest l := by
  induction h with
  | done before => exact divides_nil
  | take hmatch hl ih =>
    have hpiece := Lexeme.Piece.of_longestMatch hmatch
    exact (ih (hpiece.apart _)).cons_piece hpiece hb

end Division

/-! ### Reading character by character -/

namespace Scan

variable {s : Scan} {before w v : List Char} {c : Char} {x : Option Lexeme}

private theorem here_endWord (s : Scan) : s.endWord.here = s.here := by
  rw [endWord]
  split
  · rfl
  · rfl

private theorem foldl_blanks (hw : ∀ c ∈ w, Lexeme.isBlank c = true) (hword : s.word = [])
    (hhere : s.here = .behind before) :
    w.foldl next s = { s with here := .behind (before ++ w) } := by
  induction w generalizing s before with
  | nil => rw [List.append_nil, ← hhere, List.foldl_nil]
  | cons c w ih =>
    obtain ⟨hblank, hnone, hchar⟩ : Lexeme.isBlank c = true ∧ Lexeme.ofChar? c = none ∧
        Lexeme.isWordChar c = false := by
      have hclass := Lexeme.class_cases c
      simp_all
    have hnext : s.next c = { s with here := .behind (before ++ [c]) } := by
      simp [next, hchar, hnone, endWord_of_word_eq_nil hword, hhere, behind_concat]
    have hrest := ih (s := { s with here := .behind (before ++ [c]) })
      (fun d hd => hw d (List.mem_cons_of_mem c hd)) hword rfl
    rw [List.foldl_cons, hnext, hrest, List.append_assoc]
    rfl

private theorem next_separator {x : Lexeme} (hx : Lexeme.ofChar? c = some x) (hword : s.word = [])
    (hhere : s.here = .behind before) : s.next c =
      { s with
        done := s.done.push ⟨.behind before, x, .behind (before ++ [c])⟩
        here := .behind (before ++ [c]) } := by
  have hchar : Lexeme.isWordChar c = false := by simp [Lexeme.isWordChar, hx]
  simp [next, hchar, hx, endWord_of_word_eq_nil hword, hhere, behind_concat]

private theorem foldl_wordChars (hw : ∀ c ∈ w, Lexeme.isWordChar c = true) (hword : s.word ≠ [])
    (hhere : s.here = .behind before) : w.foldl next s =
      { s with here := .behind (before ++ w), word := w.reverse ++ s.word } := by
  induction w generalizing s before with
  | nil => simp [← hhere]
  | cons c w ih =>
    have hnext : s.next c = { s with here := .behind (before ++ [c]), word := c :: s.word } := by
      simp [next, hw c List.mem_cons_self, hword, hhere, behind_concat]
    rw [List.foldl_cons, hnext, ih (fun d hd => hw d (List.mem_cons_of_mem c hd))
      (List.cons_ne_nil c _) rfl]
    simp

private theorem foldl_word (hne : w ≠ []) (hw : ∀ c ∈ w, Lexeme.isWordChar c = true)
    (hword : s.word = []) (hhere : s.here = .behind before) : w.foldl next s =
      ⟨s.done, .behind (before ++ w), w.reverse, .behind before⟩ := by
  obtain ⟨c, w, rfl⟩ := List.exists_cons_of_ne_nil hne
  have hnext : s.next c = ⟨s.done, .behind (before ++ [c]), [c], .behind before⟩ := by
    simp [next, hw c List.mem_cons_self, hword, hhere, behind_concat]
  rw [List.foldl_cons, hnext, foldl_wordChars (fun d hd => hw d (List.mem_cons_of_mem c hd))
    (List.cons_ne_nil c _) rfl]
  simp

private theorem endWord_foldl (hv : ∀ c ∈ v.head?, Lexeme.isWordChar c = false) :
    (v.foldl next s).endWord = (v.foldl next s.endWord).endWord := by
  have htwice := endWord_of_word_eq_nil (word_endWord s)
  cases v with
  | nil => rw [List.foldl_nil, List.foldl_nil, htwice]
  | cons c v =>
    have hnext : s.endWord.next c = s.next c := by simp [next, hv c rfl, htwice]
    rw [List.foldl_cons, List.foldl_cons, hnext]

private theorem exists_foldl_piece (hp : Lexeme.Piece w v x) (hword : s.word = [])
    (hhere : s.here = .behind before) :
    ∃ s' : Scan, ((w ++ v).foldl next s).endWord = (v.foldl next s').endWord ∧ s'.word = [] ∧
      s'.here = .behind (before ++ w) ∧
        s'.done.toList = s.done.toList ++ placed before w x := by
  rw [List.foldl_append]
  cases hp with
  | blanks _ hw =>
    rw [foldl_blanks hw hword hhere]
    exact ⟨_, rfl, hword, rfl, (List.append_nil _).symm⟩
  | separator _ hx =>
    rw [List.foldl_cons, List.foldl_nil, next_separator hx hword hhere]
    exact ⟨_, rfl, hword, rfl, Array.toList_push⟩
  | word hne hw hv =>
    rw [foldl_word hne hw hword hhere, endWord_foldl hv]
    refine ⟨_, rfl, word_endWord _, here_endWord _, ?_⟩
    simp [endWord, hne, placed]

end Scan

/-- Longest matches are what a scan adds. -/
theorem Tokenizes.toList_done {before rest : List Char} {l : List Located} {s : Scan}
    (h : Tokenizes lexicalRules before rest l) (hword : s.word = [])
    (hhere : s.here = .behind before) :
    (rest.foldl Scan.next s).endWord.done.toList = s.done.toList ++ l := by
  induction h generalizing s with
  | done before => rw [List.foldl_nil, Scan.endWord_of_word_eq_nil hword, List.append_nil]
  | take hmatch hl ih =>
    have hpiece := Lexeme.Piece.of_longestMatch hmatch
    obtain ⟨s', heq, hword', hhere', hdone⟩ := Scan.exists_foldl_piece hpiece hword hhere
    rw [heq, ih hword' hhere', hdone, List.append_assoc]

theorem tokenizes_lexemes (source : String) :
    Tokenizes lexicalRules [] source.toList (lexemes source) := by
  obtain ⟨l, hl⟩ := exists_tokenizes [] source.toList
  obtain rfl : lexemes source = l := hl.toList_done (s := Scan.start) rfl rfl
  exact hl

/-- Every text is read to its end, in one way: the lexemes are those of the longest matches, and
they divide the text. -/
theorem tokenizes_iff_and_divides (source : String) :
    (∀ l, Tokenizes lexicalRules [] source.toList l ↔ l = lexemes source) ∧
      Divides [] source.toList (lexemes source) := by
  have hl := tokenizes_lexemes source
  refine ⟨fun l => ⟨fun h => ?_, ?_⟩, hl.divides ?_⟩
  · exact (h.toList_done (s := Scan.start) rfl rfl).symm
  · rintro rfl
    exact hl
  · intro c hc
    cases hc

example : lexemes "a->b|ε\n=>" =
    [⟨⟨0, 0⟩, .name "a->b", ⟨0, 4⟩⟩, ⟨⟨0, 4⟩, .choice, ⟨0, 5⟩⟩, ⟨⟨0, 5⟩, .empty, ⟨0, 7⟩⟩,
      ⟨⟨0, 7⟩, .endOfLine, ⟨1, 8⟩⟩, ⟨⟨1, 8⟩, .arrow, ⟨1, 10⟩⟩] := by
  decide

end GrammarTables
