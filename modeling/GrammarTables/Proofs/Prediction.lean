import Mathlib.Data.List.Pairwise
import GrammarTables.Analysis
import GrammarTables.Proofs.FollowSets
import GrammarTables.Proofs.Outcomes
import GrammarTables.Proofs.Productions
import GrammarTables.Table.Prediction

/-!
# Predicting by one token

Where the check by FIRST and FOLLOW sets finds no conflict, the next token tells the rules of a
nonterminal apart.
-/

namespace GrammarTables.Grammar

variable {g : Grammar}

/-- Two rules with the same head do not begin alike. -/
def BeginApart (g : Grammar) (r s : Rule) : Prop :=
  r.head = s.head → ∀ y, g.Begins r.body y → ¬g.Begins s.body y

/-- Two rules with the same head do not both vanish, and they do not begin alike. -/
structure ToldApart (g : Grammar) (r s : Rule) : Prop where
  not_nullable : r.head = s.head → (∀ x ∈ r.body, x ∈ g.nullable) → ¬∀ x ∈ s.body, x ∈ g.nullable
  not_begins : r.head = s.head → ∀ y, g.Begins r.body y → ¬g.Begins s.body y

/-- The next token tells the rules of each nonterminal apart. -/
structure Predictive (g : Grammar) : Prop where
  toldApart : ∀ r ∈ g.rules, ∀ s ∈ g.rules, r ≠ s → g.ToldApart r s
  not_mem_follow : ∀ x ∈ g.nullable, ∀ y ∈ g.first x, y ∉ g.follow x

/-! ### Vanishing in one way -/

private def markRepeated (acc : OrderedSet Symbol × Array (ProductionId × Rule))
    (e : ProductionId × Rule) : OrderedSet Symbol × Array (ProductionId × Rule) :=
  if acc.1.contains e.2.head then (acc.1, acc.2.push e) else (acc.1.insert e.2.head, acc.2)

private theorem nullAmbiguity_eq (nullable : OrderedSet Symbol) : g.nullAmbiguity nullable =
    ((g.numbered.filter fun e => e.2.body.all nullable.contains).foldl
      markRepeated (∅, #[])).2.toList := rfl

private theorem size_foldl_markRepeated (l : List (ProductionId × Rule))
    (acc : OrderedSet Symbol × Array (ProductionId × Rule)) :
    acc.2.size ≤ (l.foldl markRepeated acc).2.size := by
  induction l generalizing acc with
  | nil => exact Nat.le_refl _
  | cons e l ih =>
    apply Nat.le_trans _ (ih _)
    rw [markRepeated]
    split
    · simp
    · exact Nat.le_refl _

private theorem pairwise_of_foldl_markRepeated {l : List (ProductionId × Rule)}
    {acc : OrderedSet Symbol × Array (ProductionId × Rule)}
    (h : (l.foldl markRepeated acc).2.size = 0) :
    (∀ e ∈ l, e.2.head ∉ acc.1) ∧ l.Pairwise fun e f => e.2.head ≠ f.2.head := by
  induction l generalizing acc with
  | nil => simp
  | cons e l ih =>
    rw [List.foldl_cons] at h
    obtain ⟨hnew, hpair⟩ := ih h
    have hseen : e.2.head ∉ acc.1 := by
      intro hm
      have hle := size_foldl_markRepeated l (markRepeated acc e)
      rw [markRepeated, if_pos (OrderedSet.contains_iff.mpr hm)] at hle h
      simp only [Array.size_push] at hle
      omega
    have hmark : (markRepeated acc e).1 = acc.1.insert e.2.head := by
      rw [markRepeated, if_neg fun hc => hseen (OrderedSet.contains_iff.mp hc)]
    simp only [hmark, OrderedSet.mem_insert, not_or] at hnew
    refine ⟨?_, List.pairwise_cons.mpr ⟨fun f hf => Ne.symm (hnew f hf).1, hpair⟩⟩
    intro f hf
    rcases List.mem_cons.mp hf with rfl | hf
    · exact hseen
    · exact (hnew f hf).2

private theorem foldl_markRepeated_of_pairwise {l : List (ProductionId × Rule)}
    {acc : OrderedSet Symbol × Array (ProductionId × Rule)} (hnew : ∀ e ∈ l, e.2.head ∉ acc.1)
    (hpair : l.Pairwise fun e f => e.2.head ≠ f.2.head) :
    (l.foldl markRepeated acc).2 = acc.2 := by
  induction l generalizing acc with
  | nil => rfl
  | cons e l ih =>
    obtain ⟨he, hpair⟩ := List.pairwise_cons.mp hpair
    have hmark : markRepeated acc e = (acc.1.insert e.2.head, acc.2) := by
      rw [markRepeated, if_neg fun hc => hnew e (by simp) (OrderedSet.contains_iff.mp hc)]
    rw [List.foldl_cons, hmark]
    apply ih _ hpair
    intro f hf hm
    rcases OrderedSet.mem_insert.mp hm with hh | hm
    · exact he f hf hh.symm
    · exact hnew f (by simp [hf]) hm

theorem mem_rules_of_mem_numbered {e : ProductionId × Rule} (he : e ∈ g.numbered) :
    e.2 ∈ g.rules := by
  rw [← Array.mem_toList_iff, ← map_snd_numbered]
  exact List.mem_map_of_mem he

theorem nullAmbiguity_eq_nil_iff : g.nullAmbiguity g.nullable = [] ↔
    g.rules.toList.Pairwise fun r s => r.head = s.head →
      (∀ x ∈ r.body, x ∈ g.nullable) → ¬∀ x ∈ s.body, x ∈ g.nullable := by
  have hall {r : Rule} : r.body.all g.nullable.contains = true ↔ ∀ x ∈ r.body, x ∈ g.nullable := by
    simp
  have hpairwise : (g.rules.toList.Pairwise fun r s => r.head = s.head →
      (∀ x ∈ r.body, x ∈ g.nullable) → ¬∀ x ∈ s.body, x ∈ g.nullable) ↔
        (g.numbered.filter fun e => e.2.body.all g.nullable.contains).Pairwise
          fun e f => e.2.head ≠ f.2.head := by
    rw [List.pairwise_filter, ← map_snd_numbered, List.pairwise_map]
    simp only [hall]
    constructor
    · exact List.Pairwise.imp fun hef he hf hhead => hef hhead he hf
    · exact List.Pairwise.imp fun hef hhead he hf => hef he hf hhead
  rw [nullAmbiguity_eq, Array.toList_eq_nil_iff, hpairwise]
  constructor
  · intro h
    exact (pairwise_of_foldl_markRepeated (by rw [h]; rfl)).2
  · exact foldl_markRepeated_of_pairwise fun _ _ => List.not_mem_nil

/-! ### Beginning differently -/

private theorem claimFirst_eq_ok {claimed claimed' : OrderedMap Symbol (OrderedSet Symbol)}
    {r : Rule} (h : claimFirst g.firstTable claimed r = .ok claimed') :
    (∀ y, g.Begins r.body y → y ∉ claimed.getD r.head ∅) ∧
      ∀ x y, y ∈ claimed'.getD x ∅ ↔
        y ∈ claimed.getD x ∅ ∨ x = r.head ∧ g.Begins r.body y := by
  rw [claimFirst, bind_eq_ok_iff] at h
  obtain ⟨first, hfirst, h⟩ := h
  have hmem (y : Symbol) : y ∈ first ↔ g.Begins r.body y :=
    mem_firstOf_iff (rejecting_eq_ok_iff.mp hfirst)
  split at h
  · cases h
  · rename_i hnone
    cases h
    rw [List.find?_eq_none] at hnone
    refine ⟨?_, ?_⟩
    · intro y hy hc
      exact hnone y ((hmem y).mpr hy) (OrderedSet.contains_iff.mpr hc)
    · intro x y
      rw [OrderedMap.getD, OrderedMap.get?_update]
      by_cases hx : x = r.head
      · simp [hx, hmem]
      · simp [hx, OrderedMap.getD]

private theorem pairwise_of_foldlM_claimFirst {l : List Rule}
    {claimed final : OrderedMap Symbol (OrderedSet Symbol)}
    (h : l.foldlM (claimFirst g.firstTable) claimed = .ok final) :
    (∀ r ∈ l, ∀ y, g.Begins r.body y → y ∉ claimed.getD r.head ∅) ∧
      l.Pairwise g.BeginApart := by
  induction l generalizing claimed with
  | nil => simp
  | cons r l ih =>
    rw [List.foldlM_cons, bind_eq_ok_iff] at h
    obtain ⟨claimed', hc, h⟩ := h
    obtain ⟨hfree, hclaim⟩ := claimFirst_eq_ok hc
    obtain ⟨hrest, hpair⟩ := ih h
    refine ⟨?_, List.pairwise_cons.mpr ⟨?_, hpair⟩⟩
    · intro s hs y hy hm
      rcases List.mem_cons.mp hs with rfl | hs
      · exact hfree y hy hm
      · exact hrest s hs y hy ((hclaim _ y).mpr (Or.inl hm))
    · intro s hs hhead y hr hy
      exact hrest s hs y hy ((hclaim _ y).mpr (Or.inr ⟨hhead.symm, hr⟩))

private theorem exists_claimFirst {claimed : OrderedMap Symbol (OrderedSet Symbol)} {r : Rule}
    (hr : r ∈ g.rules) (h : ∀ y, g.Begins r.body y → y ∉ claimed.getD r.head ∅) :
    ∃ claimed', claimFirst g.firstTable claimed r = .ok claimed' := by
  obtain ⟨first, hfirst⟩ := exists_firstOf_body hr
  have hnone : first.toList.find? (claimed.getD r.head ∅).contains = none := by
    rw [List.find?_eq_none]
    intro y hy hc
    exact h y ((mem_firstOf_iff hfirst).mp hy) (OrderedSet.contains_iff.mp hc)
  refine ⟨claimed.update r.head ∅ (·.union first), ?_⟩
  rw [claimFirst, bind_eq_ok_iff]
  refine ⟨first, rejecting_eq_ok_iff.mpr hfirst, ?_⟩
  rw [hnone]
  rfl

private theorem exists_foldlM_claimFirst {l : List Rule}
    {claimed : OrderedMap Symbol (OrderedSet Symbol)} (hl : ∀ r ∈ l, r ∈ g.rules)
    (hfree : ∀ r ∈ l, ∀ y, g.Begins r.body y → y ∉ claimed.getD r.head ∅)
    (hp : l.Pairwise g.BeginApart) :
    ∃ final, l.foldlM (claimFirst g.firstTable) claimed = .ok final := by
  induction l generalizing claimed with
  | nil => exact ⟨claimed, rfl⟩
  | cons r l ih =>
    obtain ⟨hr, hp⟩ := List.pairwise_cons.mp hp
    obtain ⟨claimed', hc⟩ := exists_claimFirst (hl r (by simp)) (hfree r (by simp))
    have hfree' : ∀ s ∈ l, ∀ y, g.Begins s.body y → y ∉ claimed'.getD s.head ∅ := by
      intro s hs y hy hm
      rcases ((claimFirst_eq_ok hc).2 s.head y).mp hm with hm | ⟨hhead, hm⟩
      · exact hfree s (by simp [hs]) y hy hm
      · exact hr s hs hhead.symm y hm hy
    obtain ⟨final, hfinal⟩ := ih (fun s hs => hl s (by simp [hs])) hfree' hp
    refine ⟨final, ?_⟩
    rw [List.foldlM_cons, hc]
    exact hfinal

/-! ### The whole check -/

private theorem checkNullable_eq_ok_iff {x : Symbol} :
    checkNullable g.firstTable (g.followSets g.firstTable) x = .ok () ↔
      ∀ y ∈ g.first x, y ∉ g.follow x := by
  rw [checkNullable]
  constructor
  · intro h y hy hf
    split at h
    · cases h
    · rename_i hnone
      rw [List.find?_eq_none] at hnone
      exact hnone y hy (OrderedSet.contains_iff.mpr hf)
  · intro h
    split
    · rename_i y hsome
      have hy : y ∈ g.first x := List.mem_of_find?_eq_some hsome
      have hf : y ∈ g.follow x := OrderedSet.contains_iff.mp (List.find?_some hsome)
      exact absurd hf (h y hy)
    · rfl

/-- What the check by FIRST and FOLLOW sets accepts. -/
theorem checkPredictive_eq_ok_iff : g.checkPredictive g.firstTable = .ok () ↔
    g.nullAmbiguity g.nullable = [] ∧ g.rules.toList.Pairwise g.BeginApart ∧
      ∀ x ∈ g.nullable, ∀ y ∈ g.first x, y ∉ g.follow x := by
  rw [checkPredictive]
  constructor
  · intro h
    split at h
    · cases h
    · rename_i hnone
      obtain ⟨_, hclaim, h⟩ := bind_eq_ok_iff.mp h
      exact ⟨List.head?_eq_none_iff.mp hnone, (pairwise_of_foldlM_claimFirst hclaim).2,
        fun x hx => checkNullable_eq_ok_iff.mp (forM_eq_ok_iff.mp h x hx)⟩
  · intro h
    obtain ⟨hnull, hbegin, hclash⟩ := h
    have hfree : ∀ r ∈ g.rules.toList, ∀ y, g.Begins r.body y →
        y ∉ (∅ : OrderedMap Symbol (OrderedSet Symbol)).getD r.head ∅ := by
      intro r _ y _
      rw [OrderedMap.getD, OrderedMap.get?_empty]
      exact List.not_mem_nil
    obtain ⟨final, hfinal⟩ :=
      exists_foldlM_claimFirst (fun r hr => Array.mem_toList_iff.mp hr) hfree hbegin
    rw [firstTable_nullable, hnull]
    exact bind_eq_ok_iff.mpr ⟨final, hfinal,
      forM_eq_ok_iff.mpr fun x hx => checkNullable_eq_ok_iff.mpr (hclash x hx)⟩

/-! ### What the check reports -/

/-- The conflicts that the check by FIRST and FOLLOW sets finds, with what it has gone through when
it finds them. -/
inductive ClashFound (g : Grammar) : Conflict → Prop where
  | nullAmbiguity {p : ProductionId} {r : Rule} (h : (p, r) ∈ g.nullAmbiguity g.nullable) :
    ClashFound g (.nullAmbiguity r.head p)
  | firstFirst {r s : Rule} {y : Symbol} (hrs : [r, s].Sublist g.rules.toList)
    (hhead : r.head = s.head) (hr : g.Begins r.body y) (hs : g.Begins s.body y) :
    ClashFound g (.firstFirst s.head y)
  | firstFollow {x y : Symbol} {before after : List Symbol}
    (hx : g.nullable.toList = before ++ x :: after)
    (hbefore : ∀ z ∈ before, ∀ y ∈ g.first z, y ∉ g.follow z)
    (hfirst : y ∈ g.first x) (hfollow : y ∈ g.follow x) : ClashFound g (.firstFollow x y)

private theorem mem_claimed_iff {l : List Rule}
    {claimed final : OrderedMap Symbol (OrderedSet Symbol)}
    (h : l.foldlM (claimFirst g.firstTable) claimed = .ok final) {x y : Symbol} :
    y ∈ final.getD x ∅ ↔ y ∈ claimed.getD x ∅ ∨ ∃ r ∈ l, r.head = x ∧ g.Begins r.body y := by
  induction l generalizing claimed with
  | nil =>
    cases h
    simp
  | cons r l ih =>
    rw [List.foldlM_cons, bind_eq_ok_iff] at h
    obtain ⟨claimed', hc, h⟩ := h
    rw [ih h, (claimFirst_eq_ok hc).2, List.exists_mem_cons_iff, or_assoc, eq_comm (a := x)]

private theorem claimFirst_eq_error {claimed : OrderedMap Symbol (OrderedSet Symbol)} {r : Rule}
    {e : Rejection} (hr : r ∈ g.rules) (h : claimFirst g.firstTable claimed r = .error e) :
    ∃ y ∈ claimed.getD r.head ∅, g.Begins r.body y ∧ e = .conflict (.firstFirst r.head y) := by
  obtain ⟨first, hfirst⟩ := exists_firstOf_body hr
  have hok : rejecting (g.firstTable.firstOf r.body) = .ok first := rejecting_eq_ok_iff.mpr hfirst
  rw [claimFirst, hok, bind_eq_error_iff] at h
  obtain h | ⟨_, hret, h⟩ := h
  · cases h
  · cases hret
    split at h
    · rename_i y hy
      cases h
      exact ⟨y, OrderedSet.contains_iff.mp (List.find?_some hy),
        (mem_firstOf_iff hfirst).mp (List.mem_of_find?_eq_some hy), rfl⟩
    · cases h

private theorem clashFound_of_foldlM {e : Rejection}
    (h : g.rules.toList.foldlM (claimFirst g.firstTable) ∅ = .error e) :
    ∃ c, e = .conflict c ∧ g.ClashFound c := by
  obtain ⟨before, s, after, claimed, hl, hclaim, hs⟩ := exists_first_of_foldlM_eq_error h
  have hmem : s ∈ g.rules := Array.mem_toList_iff.mp (by simp [hl])
  obtain ⟨y, hy, hbegin, rfl⟩ := claimFirst_eq_error hmem hs
  rcases (mem_claimed_iff hclaim).mp hy with hy | ⟨r, hr, hhead, hry⟩
  · rw [OrderedMap.getD, OrderedMap.get?_empty] at hy
    exact absurd hy List.not_mem_nil
  · refine ⟨_, rfl, .firstFirst ?_ hhead hry hbegin⟩
    rw [hl]
    exact (List.singleton_sublist.mpr hr).append (List.cons_sublist_cons.mpr (List.nil_sublist _))

private theorem checkNullable_eq_error {x : Symbol} {e : Rejection}
    (h : checkNullable g.firstTable (g.followSets g.firstTable) x = .error e) :
    ∃ y ∈ g.first x, y ∈ g.follow x ∧ e = .conflict (.firstFollow x y) := by
  rw [checkNullable] at h
  split at h
  · rename_i y hy
    cases h
    exact ⟨y, List.mem_of_find?_eq_some hy, OrderedSet.contains_iff.mp (List.find?_some hy), rfl⟩
  · cases h

private theorem clashFound_of_forM {e : Rejection}
    (h : g.nullable.toList.forM (checkNullable g.firstTable (g.followSets g.firstTable)) =
      .error e) : ∃ c, e = .conflict c ∧ g.ClashFound c := by
  obtain ⟨before, x, after, hl, hbefore, hx⟩ := exists_first_of_forM_eq_error h
  obtain ⟨y, hfirst, hfollow, rfl⟩ := checkNullable_eq_error hx
  exact ⟨_, rfl, .firstFollow hl (fun z hz => checkNullable_eq_ok_iff.mp (hbefore z hz)) hfirst
    hfollow⟩

/-- The check refuses a grammar for a conflict that it has found. -/
theorem clashFound_of_checkPredictive {e : Rejection}
    (h : g.checkPredictive g.firstTable = .error e) : ∃ c, e = .conflict c ∧ g.ClashFound c := by
  rw [checkPredictive] at h
  split at h
  · rename_i p r hp
    cases h
    exact ⟨_, rfl, .nullAmbiguity (List.mem_of_head? hp)⟩
  · obtain h | ⟨_, -, h⟩ := bind_eq_error_iff.mp h
    · exact clashFound_of_foldlM h
    · exact clashFound_of_forM h

/-! ### Rules that are told apart -/

theorem ToldApart.symm {r s : Rule} (h : g.ToldApart r s) : g.ToldApart s r := by
  refine ⟨?_, ?_⟩
  · intro hhead hs hr
    exact h.not_nullable hhead.symm hr hs
  · intro hhead y hs hr
    exact h.not_begins hhead.symm y hr hs

theorem ToldApart.of_symbols {r r' s s' : Rule} (hr : r.symbols = r'.symbols)
    (hs : s.symbols = s'.symbols) (h : g.ToldApart r s) : g.ToldApart r' s' := by
  obtain ⟨hrh, hrb⟩ := List.cons.inj hr
  obtain ⟨hsh, hsb⟩ := List.cons.inj hs
  refine ⟨?_, ?_⟩
  · rw [← hrh, ← hrb, ← hsh, ← hsb]
    exact h.not_nullable
  · rw [← hrh, ← hrb, ← hsh, ← hsb]
    exact h.not_begins

theorem pairwise_toldApart (hnull : g.nullAmbiguity g.nullable = [])
    (hbegin : g.rules.toList.Pairwise g.BeginApart) : g.rules.toList.Pairwise g.ToldApart :=
  (nullAmbiguity_eq_nil_iff.mp hnull).imp₂ (fun _ _ hn hb => ⟨hn, hb⟩) hbegin

theorem checkPredictive_eq_ok_iff_toldApart : g.checkPredictive g.firstTable = .ok () ↔
    g.rules.toList.Pairwise g.ToldApart ∧ ∀ x ∈ g.nullable, ∀ y ∈ g.first x, y ∉ g.follow x := by
  rw [checkPredictive_eq_ok_iff]
  constructor
  · rintro ⟨hnull, hbegin, hclash⟩
    exact ⟨pairwise_toldApart hnull hbegin, hclash⟩
  · rintro ⟨htold, hclash⟩
    exact ⟨nullAmbiguity_eq_nil_iff.mpr (htold.imp ToldApart.not_nullable),
      htold.imp ToldApart.not_begins, hclash⟩

theorem predictive_of_check (h : g.checkPredictive g.firstTable = .ok ()) : g.Predictive := by
  obtain ⟨hnull, hbegin, hclash⟩ := checkPredictive_eq_ok_iff.mp h
  refine ⟨?_, hclash⟩
  intro r hr s hs hne
  have : Std.Symm g.ToldApart := ⟨fun _ _ => ToldApart.symm⟩
  exact (pairwise_toldApart hnull hbegin).forall (Array.mem_toList_iff.mpr hr)
    (Array.mem_toList_iff.mpr hs) hne

end GrammarTables.Grammar
