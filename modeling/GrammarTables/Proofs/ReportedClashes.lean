import GrammarTables.Proofs.PredictionTable

/-!
# Clashes and the cells they name

The check by FIRST and FOLLOW sets names a nonterminal and a token, and never looks at the cell. The
cell is crowded all the same (`exists_ne_mem_cell_of_clash`). For a clash of FIRST and FOLLOW this
needs the order in which nullable nonterminals are found. A nonterminal comes after the body that
lets it vanish, so a clash that it only inherits has been reported for a symbol of that body.
-/

namespace GrammarTables.Grammar

variable {g : Grammar} {x y : Symbol} {r s : Rule}

/-! ### Two rules in one cell -/

/-- The cell holds two productions of the nonterminal. -/
def Crowded (g : Grammar) (x : Symbol) (cell : List ProductionId) : Prop :=
  ∃ p ∈ cell, ∃ q ∈ cell, p ≠ q ∧ g.head? p = some x ∧ g.head? q = some x

theorem head?_of_mem_cell_filled {p : ProductionId} (h : p ∈ g.filled.cell x y) :
    g.head? p = some x := by
  obtain ⟨r, hr, rfl, -⟩ := mem_cell_filled_iff.mp h
  exact head?_of_rule hr

private theorem crowded_of_ne {p q : ProductionId} (hp : p ∈ g.filled.cell x y)
    (hq : q ∈ g.filled.cell x y) (hne : p ≠ q) : g.Crowded x (g.filled.cell x y) :=
  ⟨p, hp, q, hq, hne, head?_of_mem_cell_filled hp, head?_of_mem_cell_filled hq⟩

theorem crowded_of_sublist (hrs : [r, s].Sublist g.rules.toList) (hhead : r.head = s.head)
    (hyr : y ∈ g.predictedTokens r) (hys : y ∈ g.predictedTokens s) :
    g.Crowded s.head (g.filled.cell s.head y) := by
  rw [← map_snd_numbered, List.sublist_map_iff] at hrs
  obtain ⟨l, hl, hmap⟩ := hrs
  have hlength : l.length = 2 := by simpa using (congrArg List.length hmap).symm
  obtain ⟨e, f, rfl⟩ := List.length_eq_two.mp hlength
  obtain ⟨rfl, rfl⟩ : r = e.2 ∧ s = f.2 := by simpa using hmap
  have hcell := (hl.filter fun e => e.2.head = f.2.head ∧ y ∈ g.predictedTokens e.2).map Prod.fst
  rw [← cell_filled] at hcell
  have hpair : [e.1, f.1].Sublist (g.filled.cell f.2.head y) := by
    simpa [hhead, hyr, hys] using hcell
  have hne : e.1 ≠ f.1 := by simpa using (nodup_cell_filled _ _).sublist hpair
  exact crowded_of_ne (hpair.subset (by simp)) (hpair.subset (by simp)) hne

theorem crowded_of_ne_rules (hr : r ∈ g.rules) (hs : s ∈ g.rules) (hrs : r ≠ s)
    (hhead : r.head = s.head) (hyr : y ∈ g.predictedTokens r) (hys : y ∈ g.predictedTokens s) :
    g.Crowded s.head (g.filled.cell s.head y) := by
  obtain ⟨p, hp⟩ := exists_id_of_mem hr
  obtain ⟨q, hq⟩ := exists_id_of_mem hs
  have hne : p ≠ q := by
    rintro rfl
    rw [hp] at hq
    cases hq
    exact hrs rfl
  exact crowded_of_ne (mem_cell_filled_iff.mpr ⟨r, hp, hhead, hyr⟩)
    (mem_cell_filled_iff.mpr ⟨s, hq, rfl, hys⟩) hne

/-! ### Both clashes crowd a cell -/

theorem mem_predictedTokens_of_begins (hr : r ∈ g.rules) (hy : g.Begins r.body y) :
    y ∈ g.predictedTokens r :=
  (mem_predictedTokens_iff hr).mpr (Or.inl hy)

/-- The first nullable nonterminal with a clash of FIRST and FOLLOW has a rule that vanishes, and
another that begins with the token. -/
theorem crowded_of_firstFollow {before after : List Symbol}
    (hx : g.nullable.toList = before ++ x :: after)
    (hbefore : ∀ z ∈ before, ∀ y ∈ g.first z, y ∉ g.follow z)
    (hfirst : y ∈ g.first x) (hfollow : y ∈ g.follow x) : g.Crowded x (g.filled.cell x y) := by
  obtain ⟨r, hr, rfl, hbody⟩ := inferredInOrder_infer g (fun _ => false) before x after hx
  have hearlier : ∀ z ∈ r.body, z ∈ before := fun z hz => (hbody z hz).resolve_left (by simp)
  have hvanish : ∀ z ∈ r.body, z ∈ g.nullable := by
    intro z hz
    rw [← OrderedSet.mem_toList, hx]
    simp [hearlier z hz]
  obtain ⟨s, hs, hhead, hbegin⟩ := mem_first_iff_rule.mp hfirst
  have hrs : s ≠ r := by
    rintro rfl
    obtain ⟨z, hz, -, hzy, hzf⟩ := exists_edge_of_clash hs hvanish hbegin hfollow
    exact hbefore z (hearlier z hz) y hzy hzf
  exact crowded_of_ne_rules hs hr hrs hhead (mem_predictedTokens_of_begins hs hbegin)
    ((mem_predictedTokens_iff hr).mpr (Or.inr ⟨hvanish, hfollow⟩))

theorem ClashFound.crowded {c : Conflict} (h : g.ClashFound c)
    (hc : c = .firstFirst x y ∨ c = .firstFollow x y) : g.Crowded x (g.filled.cell x y) := by
  cases h with
  | nullAmbiguity h => simp at hc
  | @firstFirst r s y' hrs hhead hyr hys =>
    obtain ⟨rfl, rfl⟩ : s.head = x ∧ y' = y := by simpa using hc
    have hr : r ∈ g.rules := Array.mem_toList_iff.mp (hrs.subset (by simp))
    have hs : s ∈ g.rules := Array.mem_toList_iff.mp (hrs.subset (by simp))
    exact crowded_of_sublist hrs hhead (mem_predictedTokens_of_begins hr hyr)
      (mem_predictedTokens_of_begins hs hys)
  | @firstFollow x' y' before after hx hbefore hfirst hfollow =>
    obtain ⟨rfl, rfl⟩ : x' = x ∧ y' = y := by simpa using hc
    exact crowded_of_firstFollow hx hbefore hfirst hfollow

/-! ### What the verdict reports -/

theorem classify_ll1_eq_conflict_iff {c : Conflict} : g.classify .ll1 = .error (.conflict c) ↔
    g.checkAcyclic = .ok () ∧ g.checkPredictive g.firstTable = .error (.conflict c) := by
  cases hg : g.checkAcyclic with
  | error e => simp [classify_eq_invalid_iff.mpr (table_eq_error_of_checkAcyclic hg .ll1)]
  | ok u =>
    rw [classify_eq_check (table_ll1_eq hg)]
    simp [Table.check]

/-- Where the verdict names a clash of two FIRST sets, or of a FIRST and a FOLLOW set, the cell of
the table holds two productions of the nonterminal. -/
theorem exists_ne_mem_cell_of_clash
    (h : g.classify .ll1 = .error (.conflict (.firstFirst x y)) ∨
      g.classify .ll1 = .error (.conflict (.firstFollow x y))) :
    ∃ t, g.table .ll1 = .ok (.prediction t) ∧ ∃ p ∈ t.cell x y, ∃ q ∈ t.cell x y,
      p ≠ q ∧ g.head? p = some x ∧ g.head? q = some x := by
  obtain ⟨c, hc, hclassify⟩ : ∃ c : Conflict, (c = .firstFirst x y ∨ c = .firstFollow x y) ∧
      g.classify .ll1 = .error (.conflict c) := by
    rcases h with h | h
    · exact ⟨_, Or.inl rfl, h⟩
    · exact ⟨_, Or.inr rfl, h⟩
  obtain ⟨hg, hcheck⟩ := classify_ll1_eq_conflict_iff.mp hclassify
  obtain ⟨c', hc', hfound⟩ := clashFound_of_checkPredictive hcheck
  cases hc'
  exact ⟨g.filled, table_ll1_eq hg, hfound.crowded hc⟩

def inheritedClashRules : Array Rule :=
  #[⟨.named "S", [.named "X", .named "a"], 0⟩, ⟨.named "X", [.named "N"], 1⟩,
    ⟨.named "N", [], 2⟩, ⟨.named "N", [.named "a"], 3⟩]

/-- A grammar in which FIRST and FOLLOW of two nonterminals clash, and one cell is crowded. -/
def inheritedClash : Grammar :=
  ofRules inheritedClashRules {
    nonempty := by decide
    size_le := by decide
    isNamed_head := by simp [inheritedClashRules, Symbol.isNamed]
    isNamed_body := by simp [inheritedClashRules, Symbol.isNamed]
    length_body_le := by simp [inheritedClashRules] }

/-- The verdict names `N`, which is found before `X`. -/
theorem exists_ne_mem_cell_of_clash_inheritedClash :
    inheritedClash.classify .ll1 = .error (.conflict (.firstFollow (.named "N") (.named "a"))) ∧
    ∃ t, inheritedClash.table .ll1 = .ok (.prediction t) ∧
      ∃ p ∈ t.cell (.named "N") (.named "a"), ∃ q ∈ t.cell (.named "N") (.named "a"), p ≠ q := by
  have hclash : inheritedClash.classify .ll1 =
      .error (.conflict (.firstFollow (.named "N") (.named "a"))) := by decide +kernel
  obtain ⟨t, ht, p, hp, q, hq, hne, -⟩ := exists_ne_mem_cell_of_clash (Or.inr hclash)
  exact ⟨hclash, t, ht, p, hp, q, hq, hne⟩

example : .named "a" ∈ inheritedClash.first (.named "X") ∧
    .named "a" ∈ inheritedClash.follow (.named "X") ∧
    (inheritedClash.filled.cell (.named "X") (.named "a")).length = 1 := by decide +kernel

end GrammarTables.Grammar
