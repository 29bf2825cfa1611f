import GrammarTables.Proofs.FirstSets

/-!
# Foreign symbols

Strings may hold symbols that the grammar lacks. Such a symbol is noticed if only nullable
nonterminals come before it, and both questions about the string, what it begins with and whether it
vanishes, are refused for it. In all other strings foreign symbols stand where no first symbol can
come from, and the answers are those of the derivations (`firstOf_and_isNullable_iff`).
-/

namespace GrammarTables.Grammar

variable {g : Grammar} {x y : Symbol} {u : List Symbol} {e : GrammarError}

/-- The symbol is neither one of the grammar nor the end of the input. -/
def Foreign (g : Grammar) (x : Symbol) : Prop :=
  x ≠ .endOfInput ∧ x ∉ g.terminals ∧ x ∉ g.nonterminals

/-- The string begins with nullable nonterminals and the foreign symbol behind them. -/
def MeetsForeign (g : Grammar) (u : List Symbol) (x : Symbol) : Prop :=
  ∃ v w, u = v ++ x :: w ∧ (∀ y ∈ v, y ∈ g.nullable) ∧ g.Foreign x

theorem foreign_iff : g.Foreign x ↔ ¬g.IsToken x ∧ x ∉ g.nonterminals := by
  rw [Foreign, IsToken, not_or]
  grind

theorem not_meetsForeign_nil : ¬g.MeetsForeign [] x := by
  rintro ⟨v, w, h, -⟩
  simp at h

theorem meetsForeign_cons : g.MeetsForeign (y :: u) x ↔
    x = y ∧ g.Foreign y ∨ y ∈ g.nullable ∧ g.MeetsForeign u x := by
  constructor
  · rintro ⟨v, w, h, hv, hx⟩
    rcases List.cons_eq_append_iff.mp h with ⟨rfl, hw⟩ | ⟨v, rfl, hw⟩
    · obtain ⟨rfl, rfl⟩ := List.cons_eq_cons.mp hw
      exact Or.inl ⟨rfl, hx⟩
    · exact Or.inr ⟨hv y (by simp), v, w, hw, fun z hz => hv z (by simp [hz]), hx⟩
  · rintro (⟨rfl, hx⟩ | ⟨hy, v, w, rfl, hv, hx⟩)
    · exact ⟨[], u, rfl, by simp, hx⟩
    · exact ⟨y :: v, w, rfl, List.forall_mem_cons.mpr ⟨hy, hv⟩, hx⟩

theorem meetsForeign_cons_of_known (hy : g.IsToken y ∨ y ∈ g.nonterminals) :
    g.MeetsForeign (y :: u) x ↔ y ∈ g.nullable ∧ g.MeetsForeign u x := by
  have hforeign : ¬g.Foreign y := by
    rw [foreign_iff]
    grind
  simp [meetsForeign_cons, hforeign]

/-- A scan is refused exactly for the foreign symbol that it meets. -/
theorem scan_eq_error_iff (acc : OrderedSet Symbol) : g.firstTable.scan acc u = .error e ↔
    ∃ x, g.MeetsForeign u x ∧ e = .unexpectedSymbol x := by
  induction u generalizing acc with
  | nil => simp [FirstTable.scan, not_meetsForeign_nil]
  | cons y u ih =>
    by_cases ht : g.IsToken y
    · have hn : y ∉ g.nullable := fun h => ht.not_mem_nonterminals (mem_nonterminals_of_nullable h)
      rw [scan_cons_token ht]
      simp [meetsForeign_cons_of_known (Or.inl ht), hn]
    · by_cases hn : y ∈ g.nonterminals
      · rw [scan_cons_nonterminal hn]
        simp only [meetsForeign_cons_of_known (Or.inr hn)]
        by_cases hy : y ∈ g.nullable
        · rw [if_pos hy, ih]
          simp [hy]
        · simp [hy]
      · have hforeign : g.Foreign y := foreign_iff.mpr ⟨ht, hn⟩
        have hnullable : y ∉ g.nullable := fun h => hn (mem_nonterminals_of_nullable h)
        rw [scan_cons_unknown ht hn]
        simp [meetsForeign_cons, hforeign, hnullable, eq_comm]

theorem firstOf_eq_error_iff : g.firstTable.firstOf u = .error e ↔
    ∃ x, g.MeetsForeign u x ∧ e = .unexpectedSymbol x := by
  rw [← scan_eq_error_iff ∅, FirstTable.firstOf, bind_eq_error_iff]
  simp [pure, Except.pure]

theorem isNullable_eq_error_iff : g.firstTable.isNullable u = .error e ↔
    ∃ x, g.MeetsForeign u x ∧ e = .unexpectedSymbol x := by
  rw [← scan_eq_error_iff ∅, isNullable_eq_map_scan ∅]
  cases g.firstTable.scan ∅ u with
  | error e' => simp [Except.map]
  | ok result => simp [Except.map]

/-- The first symbols of a string are the tokens that begin a string derived from it, and the string
vanishes if and only if it derives the empty string, unless a foreign symbol stands behind nothing
but nullable nonterminals. Then both questions are refused for this symbol. -/
theorem firstOf_and_isNullable_iff (g : Grammar) (u : List Symbol) :
    (∀ x, g.MeetsForeign u x →
      g.firstTable.firstOf u = .error (.unexpectedSymbol x) ∧
        g.firstTable.isNullable u = .error (.unexpectedSymbol x)) ∧
    ((¬∃ x, g.MeetsForeign u x) → ∃ first vanishes,
      g.firstTable.firstOf u = .ok first ∧ g.firstTable.isNullable u = .ok vanishes ∧
        (∀ y, y ∈ first ↔ (y ∈ g.terminals ∨ y = .endOfInput) ∧ ∃ v, g.Derives u (y :: v)) ∧
        (vanishes = true ↔ g.Derives u [])) := by
  constructor
  · intro x hx
    exact ⟨firstOf_eq_error_iff.mpr ⟨x, hx, rfl⟩, isNullable_eq_error_iff.mpr ⟨x, hx, rfl⟩⟩
  · intro hnone
    cases hfirst : g.firstTable.firstOf u with
    | error e =>
      obtain ⟨x, hx, -⟩ := firstOf_eq_error_iff.mp hfirst
      exact absurd ⟨x, hx⟩ hnone
    | ok first =>
      cases hvanishes : g.firstTable.isNullable u with
      | error e =>
        obtain ⟨x, hx, -⟩ := isNullable_eq_error_iff.mp hvanishes
        exact absurd ⟨x, hx⟩ hnone
      | ok vanishes =>
        refine ⟨first, vanishes, rfl, rfl, fun y => mem_firstOf_iff hfirst, ?_⟩
        rw [derives_nil_iff]
        exact eq_true_iff_of_isNullable hvanishes

/-- The list may end behind its first element, so that what follows is met; behind the end of the
input nothing is. -/
theorem firstOf_and_isNullable_iff_lists :
    lists.firstTable.firstOf [.named "T", .epsilon, .named "x"] =
        .error (.unexpectedSymbol .epsilon) ∧
      lists.firstTable.isNullable [.named "T", .epsilon, .named "x"] =
        .error (.unexpectedSymbol .epsilon) ∧
      (∃ v, lists.Derives [.named "T", .endOfInput, .epsilon] (.endOfInput :: v)) ∧
      ¬lists.Derives [.named "T", .endOfInput, .epsilon] [] := by
  have hT : Symbol.named "T" ∈ lists.nullable := by decide +kernel
  have hforeign : lists.MeetsForeign [.named "T", .epsilon, .named "x"] .epsilon := by
    refine ⟨[.named "T"], [.named "x"], rfl, by simpa using hT, ?_⟩
    exact ⟨by decide, by decide +kernel, by decide +kernel⟩
  have hnone : ¬∃ x, lists.MeetsForeign [.named "T", .endOfInput, .epsilon] x := by
    have hend : Symbol.endOfInput ∉ lists.nullable := by decide +kernel
    simp [meetsForeign_cons, hend, Foreign]
    decide +kernel
  obtain ⟨herror, -⟩ := firstOf_and_isNullable_iff lists [.named "T", .epsilon, .named "x"]
  obtain ⟨-, hanswers⟩ := firstOf_and_isNullable_iff lists [.named "T", .endOfInput, .epsilon]
  obtain ⟨first, vanishes, hfirst, hvanishes, hmem, hnil⟩ := hanswers hnone
  have hf : (lists.firstTable.firstOf [.named "T", .endOfInput, .epsilon]).toOption.map
      OrderedSet.toList = some [.named ",", .endOfInput] := by decide +kernel
  have hv : lists.firstTable.isNullable [.named "T", .endOfInput, .epsilon] = .ok false := by
    decide +kernel
  rw [hfirst] at hf
  have hlist : first.toList = [.named ",", .endOfInput] := Option.some.inj hf
  obtain rfl : vanishes = false := Except.ok.inj (hvanishes.symm.trans hv)
  refine ⟨(herror _ hforeign).1, (herror _ hforeign).2, ?_, ?_⟩
  · refine ((hmem .endOfInput).mp ?_).2
    rw [← OrderedSet.mem_toList, hlist]
    simp
  · rw [← hnil]
    simp

end GrammarTables.Grammar
