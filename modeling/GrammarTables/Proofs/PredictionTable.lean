import GrammarTables.Proofs.CycleSearch
import GrammarTables.Proofs.Prediction
import GrammarTables.Proofs.Verdicts

/-!
# Cells of a prediction table

A cell holds the rules that are predicted on its token, in order (`cell_filled`). The check by FIRST and
FOLLOW sets never looks at the cells. Yet in a grammar that is not cyclic it refuses just the tables
with a crowded cell, nonterminals apart that vanish in two ways.
-/

namespace GrammarTables.Grammar

variable {g : Grammar} {x y : Symbol} {r s : Rule}

/-! ### Filling the table -/

/-- The tokens on which a rule of the grammar is predicted. -/
def predictedTokens (g : Grammar) (r : Rule) : OrderedSet Symbol :=
  (predictedOn g.firstTable (g.followSets g.firstTable) r).toOption.getD ∅

private theorem exists_predictedOn (hr : r ∈ g.rules) :
    ∃ tokens, predictedOn g.firstTable (g.followSets g.firstTable) r = .ok tokens ∧
      ∀ y, y ∈ tokens ↔
        g.Begins r.body y ∨ (∀ z ∈ r.body, z ∈ g.nullable) ∧ y ∈ g.follow r.head := by
  obtain ⟨first, hfirst⟩ := exists_firstOf_body hr
  have hknown : ∀ z ∈ r.body, g.IsToken z ∨ z ∈ g.nonterminals := fun z hz =>
    (mem_terminals_or_nonterminals hr hz).imp_left Or.inl
  have hall : r.body.all g.nullable.contains = true ↔ ∀ z ∈ r.body, z ∈ g.nullable := by
    simp
  rw [predictedOn, hfirst, isNullable_eq_ok hknown]
  cases hb : r.body.all g.nullable.contains with
  | true =>
    refine ⟨first.union (g.follow r.head), rfl, fun y => ?_⟩
    rw [OrderedSet.mem_union, mem_firstOf_iff hfirst, and_iff_right (hall.mp hb)]
  | false =>
    have hn : ¬∀ z ∈ r.body, z ∈ g.nullable := by
      rw [← hall, hb]
      simp
    refine ⟨first, rfl, fun y => ?_⟩
    simp [mem_firstOf_iff hfirst, hn]

private theorem predictedOn_eq (hr : r ∈ g.rules) :
    predictedOn g.firstTable (g.followSets g.firstTable) r = .ok (g.predictedTokens r) := by
  obtain ⟨tokens, ht, -⟩ := exists_predictedOn hr
  rw [predictedTokens, ht]
  rfl

/-- A rule is predicted on what its body begins with and, if it vanishes, on what follows its
head. -/
theorem mem_predictedTokens_iff (hr : r ∈ g.rules) : y ∈ g.predictedTokens r ↔
    g.Begins r.body y ∨ (∀ z ∈ r.body, z ∈ g.nullable) ∧ y ∈ g.follow r.head := by
  obtain ⟨tokens, ht, hm⟩ := exists_predictedOn hr
  rw [predictedTokens, ht]
  exact hm y

def entriesOf (g : Grammar) (e : ProductionId × Rule) :
    Symbol × List (Symbol × ProductionId) :=
  (e.2.head, (g.predictedTokens e.2).toList.map fun token => (token, e.1))

def filled (g : Grammar) : PredictionTable :=
  ⟨OrderedMap.ofKeys g.nonterminals fun x =>
    OrderedMap.group ((OrderedMap.group (g.numbered.map g.entriesOf)).getD x []).flatten⟩

theorem predictionTable_eq : g.predictionTable g.firstTable = .ok g.filled := by
  have hentries : (g.numbered.mapM fun e => do
      let tokens ← predictedOn g.firstTable (g.followSets g.firstTable) e.2
      return (e.2.head, tokens.toList.map fun token => (token, e.1))) =
        Except.ok (g.numbered.map g.entriesOf) := by
    apply mapM_eq_ok
    intro e he
    rw [predictedOn_eq (mem_rules_of_mem_numbered he)]
    rfl
  exact bind_eq_ok_iff.mpr ⟨_, hentries, rfl⟩

theorem table_ll1_eq (hg : g.checkAcyclic = .ok ()) :
    g.table .ll1 = .ok (.prediction g.filled) := by
  rw [table, hg]
  exact congrArg (Except.map Table.prediction) predictionTable_eq

theorem classify_ll1_iff : g.classify .ll1 = .ok () ↔
    g.checkAcyclic = .ok () ∧ g.checkPredictive g.firstTable = .ok () := by
  rw [classify_eq_ok_iff]
  constructor
  · rintro ⟨t, ht, hcheck⟩
    obtain ⟨_, hg, -⟩ := bind_eq_ok_iff.mp ht
    rw [table_ll1_eq hg] at ht
    cases ht
    exact ⟨hg, hcheck⟩
  · rintro ⟨hg, hcheck⟩
    exact ⟨_, table_ll1_eq hg, hcheck⟩

/-! ### Grammars without a table -/

private theorem exists_conflict_of_check {t : Table} {d : Discipline} {e : Rejection}
    (h : t.check g d = .error e) : ∃ c, e = .conflict c := by
  cases t with
  | prediction t =>
    obtain ⟨c, hc, -⟩ := clashFound_of_checkPredictive h
    exact ⟨c, hc⟩
  | uniform t =>
    obtain ⟨c, -, rfl⟩ := conflicting_eq_error_iff.mp h
    exact ⟨c, rfl⟩
  | action t =>
    obtain ⟨c, -, rfl⟩ := conflicting_eq_error_iff.mp h
    exact ⟨c, rfl⟩

theorem classify_eq_invalid_iff {d : Discipline} {e : GrammarError} :
    g.classify d = .error (.invalid e) ↔ g.table d = .error e := by
  cases ht : g.table d with
  | error e' =>
    rw [classify, ht]
    change Except.error (Rejection.invalid e') = Except.error (.invalid e) ↔ _
    simp
  | ok t =>
    rw [classify_eq_check ht]
    constructor
    · intro h
      obtain ⟨c, hc⟩ := exists_conflict_of_check h
      cases hc
    · intro h
      cases h

private theorem eq_tooManyStates_of_built {ι κ : Type} [PredictiveItem ι] [LawfulItem ι]
    {f : Automaton ι → κ} {e : GrammarError}
    (h : (canonical ι g g.firstTable >>= fun a => .ok (f a)) = .error e) : e = .tooManyStates := by
  obtain h | ⟨a, -, h⟩ := bind_eq_error_iff.mp h
  · rcases exists_canonical_or ι g with ⟨a, ha⟩ | ha
    · rw [ha] at h
      cases h
    · rw [ha] at h
      cases h
      rfl
  · cases h

theorem eq_tooManyStates_of_table {d : Discipline} {e : GrammarError}
    (hg : g.checkAcyclic = .ok ()) (h : g.table d = .error e) : e = .tooManyStates := by
  cases d with
  | ll1 =>
    rw [table_ll1_eq hg] at h
    cases h
  | lr0 =>
    rw [table, hg] at h
    exact eq_tooManyStates_of_built h
  | slr1 =>
    rw [table, hg] at h
    exact eq_tooManyStates_of_built h
  | lr1 =>
    rw [table, hg] at h
    exact eq_tooManyStates_of_built h
  | lalr1 =>
    rw [table, hg] at h
    have h : (g.lalr1Automaton >>= fun a => .ok (Table.action (.ofLookaheads g a))) = .error e := h
    obtain h | ⟨m, -, h⟩ := bind_eq_error_iff.mp h
    · exact eq_tooManyStates_of_built h
    · cases h

theorem table_eq_error_of_checkAcyclic {e : GrammarError} (hg : g.checkAcyclic = .error e)
    (d : Discipline) : g.table d = .error e := by
  cases d with
  | _ => rw [table, hg]; rfl

theorem table_eq_cyclic_iff {d : Discipline} {c : List Symbol} :
    g.table d = .error (.cyclic c) ↔ g.checkAcyclic = .error (.cyclic c) := by
  cases hg : g.checkAcyclic with
  | error e => rw [table_eq_error_of_checkAcyclic hg, Except.error.injEq, Except.error.injEq]
  | ok u =>
    constructor
    · intro h
      cases eq_tooManyStates_of_table hg h
    · intro h
      cases h

private theorem entries_on_token (tokens : OrderedSet Symbol) (p : ProductionId) (y : Symbol) :
    ((tokens.toList.map fun token => (token, p)).filter (·.1 = y)).map Prod.snd =
      if y ∈ tokens then [p] else [] := by
  have hone : tokens.toList.filter (· = y) = if y ∈ tokens then [y] else [] := by
    rw [List.filter_eq]
    split
    · rename_i hy
      rw [List.count_eq_one_of_mem tokens.nodup_toList hy, List.replicate_one]
    · rename_i hy
      rw [List.count_eq_zero_of_not_mem hy, List.replicate_zero]
  rw [List.filter_map, List.map_map]
  change (tokens.toList.filter (· = y)).map (fun _ => p) = _
  rw [hone]
  split
  · rfl
  · rfl

private theorem entries_of_head (x y : Symbol) (l : List (ProductionId × Rule)) :
    ((((l.map g.entriesOf).filter (·.1 = x)).map Prod.snd).flatten.filter (·.1 = y)).map Prod.snd =
      (l.filter fun e => e.2.head = x ∧ y ∈ g.predictedTokens e.2).map Prod.fst := by
  induction l with
  | nil => rfl
  | cons e l ih =>
    have hhead : (g.entriesOf e).1 = e.2.head := rfl
    have htokens : (g.entriesOf e).2 = (g.predictedTokens e.2).toList.map (·, e.1) := rfl
    rw [List.map_cons, List.filter_cons, List.filter_cons, hhead]
    by_cases hx : e.2.head = x
    · rw [if_pos (decide_eq_true hx), List.map_cons, List.flatten_cons, List.filter_append,
        List.map_append, ih, htokens, entries_on_token]
      by_cases hy : y ∈ g.predictedTokens e.2
      · simp [hx, hy]
      · simp [hy]
    · rw [if_neg (by simpa using hx), ih]
      simp [hx]

theorem cell_filled (x y : Symbol) : g.filled.cell x y =
    (g.numbered.filter fun e => e.2.head = x ∧ y ∈ g.predictedTokens e.2).map Prod.fst := by
  have hrow : g.filled.rows.getD x ∅ = if x ∈ g.nonterminals then OrderedMap.group
      ((OrderedMap.group (g.numbered.map g.entriesOf)).getD x []).flatten else ∅ := by
    rw [filled, OrderedMap.getD, OrderedMap.get?_ofKeys]
    split
    · rfl
    · rfl
  rw [PredictionTable.cell, hrow]
  split
  · rw [OrderedMap.getD_group, OrderedMap.getD_group, entries_of_head]
  · rename_i hx
    have hnone : (g.numbered.filter fun e => e.2.head = x ∧ y ∈ g.predictedTokens e.2) = [] := by
      rw [List.filter_eq_nil_iff]
      intro e he
      have hr := mem_rules_of_mem_numbered he
      have hne : e.2.head ≠ x := fun h => hx (h ▸ head_mem_nonterminals hr)
      simp [hne]
    rw [hnone, OrderedMap.getD, OrderedMap.get?_empty]
    rfl

theorem mem_cell_filled_iff {p : ProductionId} : p ∈ g.filled.cell x y ↔
    ∃ r, g.production? p = some (.rule r) ∧ r.head = x ∧ y ∈ g.predictedTokens r := by
  simp only [cell_filled, List.mem_map, List.mem_filter, Prod.exists, decide_eq_true_eq,
    mem_numbered_iff]
  grind

theorem nodup_cell_filled (x y : Symbol) : (g.filled.cell x y).Nodup := by
  rw [cell_filled]
  exact nodup_numbered.sublist (List.filter_sublist.map Prod.fst)

/-! ### Crowded cells -/

/-- No token predicts two rules with the same head. -/
def PredictedApart (g : Grammar) (r s : Rule) : Prop :=
  r.head = s.head → ∀ y ∈ g.predictedTokens r, y ∉ g.predictedTokens s

private theorem length_filter_le_one_iff {α : Type} {p : α → Bool} {l : List α} :
    (l.filter p).length ≤ 1 ↔ ∀ a b, [a, b].Sublist l → p a → ¬p b := by
  have hpairs (m : List α) : m.length ≤ 1 ↔ m.Pairwise fun _ _ => False := by
    rcases m with _ | ⟨a, _ | ⟨b, m⟩⟩
    · simp
    · simp
    · simp only [List.length_cons, List.pairwise_cons, List.mem_cons, forall_eq_or_imp]
      simp
  rw [hpairs, List.pairwise_filter, List.pairwise_iff_forall_sublist]

private theorem length_cell_le_one_iff :
    (∀ x y, (g.filled.cell x y).length ≤ 1) ↔ g.rules.toList.Pairwise g.PredictedApart := by
  rw [← map_snd_numbered, List.pairwise_map, List.pairwise_iff_forall_sublist]
  simp only [cell_filled, List.length_map, length_filter_le_one_iff, decide_eq_true_eq]
  constructor
  · intro h e f hef hhead y he hf
    exact h e.2.head y e f hef ⟨rfl, he⟩ ⟨hhead.symm, hf⟩
  · rintro h x y e f hef ⟨rfl, he⟩ ⟨hhead, hf⟩
    exact h hef hhead.symm y he hf

/-! ### The check and the cells -/

theorem predictedApart_of_toldApart (hr : r ∈ g.rules) (hs : s ∈ g.rules)
    (hclash : ∀ x ∈ g.nullable, ∀ y ∈ g.first x, y ∉ g.follow x) (h : g.ToldApart r s) :
    g.PredictedApart r s := by
  intro hhead y hyr hys
  have hfirst {t : Rule} (ht : t ∈ g.rules) (hy : g.Begins t.body y) : y ∈ g.first t.head :=
    mem_first_iff_rule.mpr ⟨t, ht, rfl, hy⟩
  rcases (mem_predictedTokens_iff hr).mp hyr with hyr | ⟨hnr, hyr⟩
  · rcases (mem_predictedTokens_iff hs).mp hys with hys | ⟨hns, hys⟩
    · exact h.not_begins hhead y hyr hys
    · exact hclash s.head (mem_nullable_of_rule hs hns) y (hhead ▸ hfirst hr hyr) hys
  · rcases (mem_predictedTokens_iff hs).mp hys with hys | ⟨hns, -⟩
    · exact hclash r.head (mem_nullable_of_rule hr hnr) y (hhead ▸ hfirst hs hys) hyr
    · exact h.not_nullable hhead hnr hns

/-- In a grammar that can be parsed by prediction, the token tells which rule of a nonterminal to
apply. -/
theorem Predictive.eq_of_predicted (h : g.Predictive) (hr : r ∈ g.rules) (hs : s ∈ g.rules)
    (hhead : r.head = s.head) (hyr : y ∈ g.predictedTokens r) (hys : y ∈ g.predictedTokens s) :
    r = s := by
  by_contra hne
  exact predictedApart_of_toldApart hr hs h.not_mem_follow (h.toldApart r hr s hs hne) hhead y hyr
    hys

/-- A rule that is predicted alone on what follows its head passes a clash of FIRST and FOLLOW on to
a nonterminal of its body. -/
theorem exists_edge_of_clash (hr : r ∈ g.rules) (hn : ∀ z ∈ r.body, z ∈ g.nullable)
    (hy : g.Begins r.body y) (hf : y ∈ g.follow r.head) :
    ∃ z ∈ r.body, g.unitRelation.Edge r.head z ∧ y ∈ g.first z ∧ y ∈ g.follow z := by
  obtain ⟨-, z, hz, hzy⟩ := begins_iff.mp hy
  obtain ⟨u, v, hb, -⟩ := mem_leading_iff.mp hz
  have hall : ∀ z' ∈ u ++ z :: v, z' ∈ g.nullable := hb ▸ hn
  have hv : ∀ z' ∈ v, z' ∈ g.nullable := fun z' hz' => hall z' (by simp [hz'])
  have hnt : z ∈ g.nonterminals := mem_nonterminals_of_nullable (hall z (by simp))
  have hfirst : y ∈ g.first z := hzy.resolve_left fun h => h.1 hnt
  have hbegin : g.Begins (v ++ [y]) y :=
    begins_append.mpr (Or.inr ⟨hv, (begins_token_iff (isToken_of_mem_follow hf)).mpr rfl⟩)
  refine ⟨z, by simp [hb], edge_unitRelation_iff.mpr ⟨r, hr, rfl, hnt, u, v, hb, ?_⟩, hfirst,
    mem_follow_of_rule hr hb hnt hf hbegin⟩
  intro z' hz'
  exact hall z' (by grind)

private theorem not_mem_follow_of_predictedApart (hg : g.checkAcyclic = .ok ())
    (h : g.rules.toList.Pairwise g.PredictedApart) :
    ∀ x ∈ g.nullable, ∀ y ∈ g.first x, y ∉ g.follow x := by
  have : Std.Symm g.PredictedApart := ⟨fun _ _ h hhead y hs hr => h hhead.symm y hr hs⟩
  intro x hx y hy hf
  -- a clash in a single rule moves to a nonterminal of its body, and that cannot go on forever
  induction acc_of_checkAcyclic hg x with
  | intro x _ ih =>
    obtain ⟨r, hr, rfl, hn⟩ := exists_rule_of_nullable hx
    obtain ⟨s, hs, hhead, hbegin⟩ := mem_first_iff_rule.mp hy
    have hyr : y ∈ g.predictedTokens r := (mem_predictedTokens_iff hr).mpr (Or.inr ⟨hn, hf⟩)
    have hys : y ∈ g.predictedTokens s := (mem_predictedTokens_iff hs).mpr (Or.inl hbegin)
    by_cases hrs : r = s
    · obtain ⟨z, hz, hedge, hzy, hzf⟩ := exists_edge_of_clash hr hn (hrs ▸ hbegin) hf
      exact ih z hedge (hn z hz) hzy hzf
    · exact h.forall (Array.mem_toList_iff.mpr hr) (Array.mem_toList_iff.mpr hs) hrs hhead.symm y
        hyr hys

/-- In a grammar that is not cyclic, the check by FIRST and FOLLOW sets accepts just the tables
without a crowded cell, up to nonterminals that vanish in two ways. -/
theorem classify_ll1_iff_cells (hg : g.checkAcyclic = .ok ()) :
    ∃ t, g.table .ll1 = .ok (.prediction t) ∧
      (g.classify .ll1 = .ok () ↔
        g.nullAmbiguity g.nullable = [] ∧ ∀ x y, (t.cell x y).length ≤ 1) := by
  have htable : g.table .ll1 = .ok (.prediction g.filled) := by
    rw [table, hg]
    exact congrArg (Except.map Table.prediction) predictionTable_eq
  have hclassify : g.classify .ll1 = .ok () ↔ g.checkPredictive g.firstTable = .ok () := by
    rw [classify_eq_ok_iff, htable]
    simp [Table.check]
  refine ⟨g.filled, htable, ?_⟩
  rw [hclassify, checkPredictive_eq_ok_iff, length_cell_le_one_iff]
  constructor
  · rintro ⟨hnull, hbegin, hclash⟩
    refine ⟨hnull, (pairwise_toldApart hnull hbegin).imp_of_mem ?_⟩
    intro r s hr hs h
    exact predictedApart_of_toldApart (Array.mem_toList_iff.mp hr) (Array.mem_toList_iff.mp hs)
      hclash h
  · rintro ⟨hnull, hcells⟩
    refine ⟨hnull, hcells.imp_of_mem ?_, not_mem_follow_of_predictedApart hg hcells⟩
    intro r s hr hs h hhead y hyr hys
    exact h hhead y
      ((mem_predictedTokens_iff (Array.mem_toList_iff.mp hr)).mpr (Or.inl hyr))
      ((mem_predictedTokens_iff (Array.mem_toList_iff.mp hs)).mpr (Or.inl hys))

theorem classify_ll1_iff_cells_nested : ∃ t, nested.table .ll1 = .ok (.prediction t) ∧
    nested.classify .ll1 = .ok () ∧ ∀ x y, (t.cell x y).length ≤ 1 := by
  obtain ⟨t, ht, hiff⟩ := classify_ll1_iff_cells (g := nested) (by decide +kernel)
  have hc : nested.classify .ll1 = .ok () := by decide +kernel
  exact ⟨t, ht, hc, (hiff.mp hc).2⟩

end GrammarTables.Grammar
