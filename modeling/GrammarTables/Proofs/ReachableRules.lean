import GrammarTables.Proofs.ClosedRows
import GrammarTables.Proofs.OrderedImages
import GrammarTables.Proofs.ProductionIds
import GrammarTables.Proofs.RenamedTables
import GrammarTables.Proofs.SharedRules

/-!
# Rules of reachable symbols

The rules with reachable heads form a grammar of their own, in which all symbols can be reached. Its
productions stand in the whole grammar under their original ids, in the same order. The other rules
do not influence the automata: without them, the FIRST sets of the reachable symbols are the same
lists, so the automata have the same states, with the productions under the ids they have among the
remaining rules (`automata_of_reachableRules`).
-/

namespace GrammarTables

namespace Grammar

variable {g h : Grammar} {x : Symbol} {p q : ProductionId} {r : Rule}

/-- The rules whose heads can be reached. -/
def reachableRules (g : Grammar) : List Rule :=
  g.rules.toList.filter fun r => r.head ∉ g.unreachable

def reachableIds (g : Grammar) : List ProductionId :=
  (g.numbered.filter fun e => e.2.head ∉ g.unreachable).map Prod.fst

/-- The id in the whole grammar of a production that goes by another id if only the rules with
reachable heads are counted. -/
def originalId (g : Grammar) (p : ProductionId) : ProductionId :=
  match p.index? with
  | none => .accept
  | some index => g.reachableIds[index]?.getD p

theorem mem_reachableRules_iff : r ∈ g.reachableRules ↔ r ∈ g.rules ∧ g.Reachable r.head := by
  rw [reachableRules, List.mem_filter, Array.mem_toList_iff, decide_eq_true_eq,
    mem_unreachable_iff, not_and, Classical.not_not]
  exact and_congr_right fun hr => forall_prop_of_true (head_mem_nonterminals hr)

/-- The rules with reachable heads are within the limits of a grammar. -/
theorem exists_ofProductions_reachableRules (g : Grammar) :
    ∃ h, ofProductions (g.reachableRules.map .rule) = .ok h := by
  have hmem : ∀ r ∈ g.reachableRules.toArray, r ∈ g.rules := by
    intro r hr
    rw [List.mem_toArray] at hr
    exact (mem_reachableRules_iff.mp hr).1
  obtain ⟨r, hr, hhead⟩ := mem_nonterminals.mp g.start_mem_nonterminals
  have hwf : WellFormedRules g.reachableRules.toArray := by
    refine ⟨?_, ?_, fun r hr => g.wellFormed.isNamed_head r (hmem r hr),
      fun r hr => g.wellFormed.isNamed_body r (hmem r hr),
      fun r hr => g.wellFormed.length_body_le r (hmem r hr)⟩
    · have hreach : g.Reachable r.head := hhead ▸ reachable_start
      exact List.length_pos_of_mem (mem_reachableRules_iff.mpr ⟨hr, hreach⟩)
    · exact Nat.le_trans (List.length_filter_le _ _) g.wellFormed.size_le
  exact ⟨ofRules _ hwf, ofProductions_eq_ok_iff.mpr rfl⟩

/-! ### What can be reached -/

section Pruned

variable (hh : h.rules = g.reachableRules.toArray)

include hh

private theorem mem_rules_iff : r ∈ h.rules ↔ r ∈ g.rules ∧ g.Reachable r.head := by
  rw [hh, List.mem_toArray, mem_reachableRules_iff]

theorem start_eq_of_reachableRules : h.start = g.start := by
  obtain ⟨r, rest, hr⟩ : ∃ r rest, g.rules.toList = r :: rest :=
    List.exists_cons_of_length_pos g.wellFormed.nonempty
  have hg := g.some_start_eq
  have hs := h.some_start_eq
  rw [← Array.getElem?_toList, hr] at hg
  have hgr : g.start = r.head := Option.some.inj hg
  have hkept : decide (r.head ∉ g.unreachable) = true := by
    rw [decide_eq_true_eq, mem_unreachable_iff, ← hgr]
    exact fun hn => hn.2 reachable_start
  rw [hh, List.getElem?_toArray, reachableRules, hr, List.filter_cons, if_pos hkept] at hs
  exact (Option.some.inj hs).trans hgr.symm

theorem agreeReachable_of_reachableRules : g.AgreeReachable h where
  start_eq := (start_eq_of_reachableRules hh).symm
  produces_iff x hx body := by
    constructor
    · rintro ⟨r, hr, rfl, hb⟩
      exact ⟨r, (mem_rules_iff hh).mpr ⟨hr, hx⟩, rfl, hb⟩
    · rintro ⟨r, hr, hhead, hb⟩
      exact ⟨r, ((mem_rules_iff hh).mp hr).1, hhead, hb⟩

theorem reachable_of_known (hx : x ∈ h.terminals ∨ x ∈ h.nonterminals) : g.Reachable x := by
  rcases hx with hx | hx
  · obtain ⟨-, r, hr, hb⟩ := mem_terminals.mp hx
    obtain ⟨hr, hreach⟩ := (mem_rules_iff hh).mp hr
    exact hreach.of_mem_body hr hb
  · obtain ⟨r, hr, rfl⟩ := mem_nonterminals.mp hx
    exact ((mem_rules_iff hh).mp hr).2

/-! ### Original ids -/

private theorem getElem?_reachable (i : Nat) :
    (g.numbered.filter fun e => e.2.head ∉ g.unreachable)[i]?.map Prod.snd = h.rules[i]? := by
  rw [hh, List.getElem?_toArray, reachableRules, ← map_snd_numbered, List.filter_map,
    List.getElem?_map]
  rfl

private theorem originalId_ofIndex {i : Nat} (hr : h.rules[i]? = some r) :
    (g.originalId (.ofIndex i), r) ∈ g.numbered ∧
      g.reachableIds[i]? = some (g.originalId (.ofIndex i)) := by
  have hsize := h.wellFormed.size_le
  have hlt := (Array.getElem?_eq_some_iff.mp hr).1
  obtain ⟨⟨q, r'⟩, he, rfl⟩ := Option.map_eq_some_iff.mp ((getElem?_reachable hh i).trans hr)
  have hq : g.reachableIds[i]? = some q := by
    rw [reachableIds, List.getElem?_map, he]
    rfl
  have horiginal : g.originalId (.ofIndex i) = q := by
    rw [originalId, ProductionId.index?_ofIndex (by omega)]
    dsimp only
    rw [hq, Option.getD_some]
  rw [horiginal]
  exact ⟨List.mem_of_mem_filter (List.mem_of_getElem? he), hq⟩

private theorem map_originalId : (h.numbered.map Prod.fst).map g.originalId = g.reachableIds := by
  apply List.ext_getElem?
  intro i
  rw [map_fst_numbered, List.map_map, List.getElem?_map]
  cases hr : h.rules[i]? with
  | some r =>
    have hlt := (Array.getElem?_eq_some_iff.mp hr).1
    rw [List.getElem?_range hlt, (originalId_ofIndex hh hr).2]
    rfl
  | none =>
    have hnone := getElem?_reachable hh i
    rw [hr, Option.map_eq_none_iff] at hnone
    rw [Array.getElem?_eq_none_iff] at hr
    rw [List.getElem?_eq_none (by simpa using hr), reachableIds, List.getElem?_map, hnone]
    rfl

theorem production?_originalId (hp : p ∈ h) : g.production? (g.originalId p) = h.production? p := by
  rcases mem_iff.mp hp with rfl | ⟨r, hr⟩
  · rfl
  · obtain ⟨i, rfl, hi⟩ := production?_eq_rule_iff.mp hr
    rw [hr, mem_numbered_iff.mp (originalId_ofIndex hh hi).1]

theorem keepsOrder_originalId : KeepsOrder (· ∈ h) g.originalId := by
  have hids : h.ids.map g.originalId = .accept :: g.reachableIds := by
    rw [ids, List.map_cons, map_originalId hh]
    rfl
  have hascending : Ascending (h.ids.map g.originalId) := by
    rw [hids]
    exact g.ascending_ids.sublist ((List.filter_sublist.map Prod.fst).cons_cons _)
  intro p q hp hq
  exact keepsOrder_of_ascending h.ascending_ids hascending p q (mem_ids_iff.mpr hp)
    (mem_ids_iff.mpr hq)

theorem exists_originalId (hq : g.head? q = some x) (hx : g.Reachable x) :
    ∃ p ∈ h, g.originalId p = q := by
  obtain ⟨r, hr, rfl⟩ := head?_eq_some_iff.mp hq
  have hkept : (q, r) ∈ g.numbered.filter fun e => e.2.head ∉ g.unreachable := by
    refine List.mem_filter.mpr ⟨mem_numbered_iff.mpr hr, ?_⟩
    rw [decide_eq_true_eq, mem_unreachable_iff]
    exact fun hn => hn.2 hx
  have hid : q ∈ g.reachableIds := List.mem_map_of_mem hkept
  rw [← map_originalId hh] at hid
  obtain ⟨p, hp, hpq⟩ := List.mem_map.mp hid
  exact ⟨p, mem_ids_iff.mp (List.mem_cons_of_mem _ hp), hpq⟩

theorem head?_originalId (hp : p ∈ h) : g.head? (g.originalId p) = h.head? p := by
  rw [head?, head?, production?_originalId hh hp]

theorem body_originalId (hp : p ∈ h) : g.body (g.originalId p) = h.body p := by
  rw [body, body, production?_originalId hh hp, start_eq_of_reachableRules hh]

/-! ### Alternatives -/

private theorem word_originalId_le_iff (hp : p ∈ h) (hq : q ∈ h) :
    (g.originalId p).word ≤ (g.originalId q).word ↔ p.word ≤ q.word := by
  rw [← UInt16.not_lt, ← UInt16.not_lt, ← compare_eq_lt_iff, ← compare_eq_lt_iff,
    keepsOrder_originalId hh q p hq hp]

private theorem firstOccurrence_originalId_iff (hp : p ∈ h) (hx : h.head? p = some x) :
    g.FirstOccurrence (g.originalId p) ↔ h.FirstOccurrence p := by
  have hreach := reachable_of_known hh (Or.inr (mem_nonterminals_of_head? hx))
  rw [FirstOccurrence, FirstOccurrence, head?_originalId hh hp, body_originalId hh hp, hx]
  constructor
  · rintro ⟨-, hfirst⟩
    refine ⟨hp, fun q hq hhead hbody => (word_originalId_le_iff hh hp hq).mp ?_⟩
    rw [← head?_originalId hh hq] at hhead
    rw [← body_originalId hh hq] at hbody
    exact hfirst _ (mem_of_head? hhead) hhead hbody
  · rintro ⟨-, hfirst⟩
    refine ⟨mem_of_head? ((head?_originalId hh hp).trans hx), fun q' _ hhead hbody => ?_⟩
    obtain ⟨q, hq, rfl⟩ := exists_originalId hh hhead hreach
    rw [head?_originalId hh hq] at hhead
    rw [body_originalId hh hq] at hbody
    exact (word_originalId_le_iff hh hp hq).mpr (hfirst q hq hhead hbody)

theorem alternatives_originalId (hx : g.Reachable x) :
    g.alternatives x = (h.alternatives x).map g.originalId := by
  have hmem : ∀ p ∈ h.alternatives x, p ∈ h := fun p hp =>
    mem_of_head? (head?_of_mem_alternatives hp)
  apply Ascending.ext (g.ascending_alternatives x)
    ((h.ascending_alternatives x).map (keepsOrder_originalId hh) hmem)
  intro q
  rw [List.mem_map]
  constructor
  · intro hq
    obtain ⟨hfirst, hhead⟩ := mem_alternatives_iff.mp hq
    obtain ⟨p, hp, rfl⟩ := exists_originalId hh hhead hx
    rw [head?_originalId hh hp] at hhead
    exact ⟨p, mem_alternatives_iff.mpr
      ⟨(firstOccurrence_originalId_iff hh hp hhead).mp hfirst, hhead⟩, rfl⟩
  · rintro ⟨p, hp, rfl⟩
    obtain ⟨hfirst, hhead⟩ := mem_alternatives_iff.mp hp
    refine mem_alternatives_iff.mpr ⟨(firstOccurrence_originalId_iff hh hfirst.1 hhead).mpr hfirst, ?_⟩
    rw [head?_originalId hh hfirst.1, hhead]

end Pruned

end Grammar

/-! ## Without the other rules -/

namespace Grammar

variable {f : ProductionId → ProductionId} {g h : Grammar} {x y : Symbol}
  {u : List Symbol}

/-! ### FIRST sets -/

private theorem leading_congr {nullable nullable' : OrderedSet Symbol} {body : List Symbol}
    (hb : ∀ x ∈ body, x ∈ nullable ↔ x ∈ nullable') :
    leading nullable body = leading nullable' body := by
  induction body with
  | nil => rfl
  | cons x body ih =>
    have hx := hb x (by simp)
    rw [leading_cons, leading_cons, ih fun y hy => hb y (by simp [hy])]
    simp only [hx]

private theorem flatMap_filter_head {S : Symbol → Prop} [DecidablePred S] {rules : List Rule}
    {row row' : Rule → List Symbol} (hrow : ∀ r ∈ rules, S r.head → row' r = row r) :
    (rules.filter fun r => S r.head).flatMap (fun r => (row' r).map fun x => (r.head, x)) =
      (rules.flatMap fun r => (row r).map fun x => (r.head, x)).filter fun e => S e.1 := by
  induction rules with
  | nil => rfl
  | cons r rules ih =>
    have ih := ih fun r hr => hrow r (by simp [hr])
    have hheads : ∀ e ∈ (row r).map (fun x => (r.head, x)), e.1 = r.head := by simp
    rw [List.flatMap_cons, List.filter_append, ← ih]
    by_cases hs : S r.head
    · have hall : ((row r).map fun x => (r.head, x)).filter (fun e => S e.1) =
          (row r).map fun x => (r.head, x) :=
        List.filter_eq_self.mpr fun e he => by simpa [hheads e he] using hs
      rw [List.filter_cons_of_pos (by simpa using hs), List.flatMap_cons, hrow r (by simp) hs, hall]
    · have hnone : ((row r).map fun x => (r.head, x)).filter (fun e => S e.1) = [] :=
        List.filter_eq_nil_iff.mpr fun e he => by simpa [hheads e he] using hs
      rw [List.filter_cons_of_neg (by simpa using hs), hnone, List.nil_append]

private theorem first_eq_targets (hx : x ∈ g.nonterminals) : g.first x =
    ((g.directFirst g.nullable).propagate (g.inheritedFirst g.nullable)).targets x := by
  rw [first, OrderedMap.getD, firstTable, firstSets, OrderedMap.get?_ofKeys, if_pos hx,
    Option.getD_some]

private theorem reachable_body {r : Rule} (hr : r ∈ g.rules) (hs : r.head ∉ g.unreachable) :
    ∀ x ∈ r.body, g.Reachable x := by
  rw [mem_unreachable_iff, not_and, Classical.not_not] at hs
  exact fun x hx => (hs (head_mem_nonterminals hr)).of_mem_body hr hx

section Pruned

variable (hh : h.rules = g.reachableRules.toArray)

include hh

private theorem leading_nullable_eq (hu : ∀ x ∈ u, g.Reachable x) :
    leading h.nullable u = leading g.nullable u :=
  leading_congr fun x hx =>
    ((agreeReachable_of_reachableRules hh).agreeOn.mem_nullable_iff (hu x hx)).symm

private theorem isNonterminal_eq (hx : g.Reachable x) : h.isNonterminal x = g.isNonterminal x := by
  rw [Bool.eq_iff_iff, isNonterminal_iff, isNonterminal_iff,
    (agreeReachable_of_reachableRules hh).agreeOn.mem_nonterminals_iff hx]

private theorem edges_reachable (p : Bool → Bool) :
    (h.rules.toList.flatMap fun r => ((leading h.nullable r.body).filter fun x =>
        p (h.isNonterminal x)).map fun x => (r.head, x)) =
      (g.rules.toList.flatMap fun r => ((leading g.nullable r.body).filter fun x =>
        p (g.isNonterminal x)).map fun x => (r.head, x)).filter fun e => e.1 ∉ g.unreachable := by
  have hrow : ∀ r ∈ g.rules.toList, r.head ∉ g.unreachable →
      (leading h.nullable r.body).filter (fun x => p (h.isNonterminal x)) =
        (leading g.nullable r.body).filter fun x => p (g.isNonterminal x) := by
    intro r hr hs
    have hbody := reachable_body (Array.mem_toList_iff.mp hr) hs
    rw [leading_nullable_eq hh hbody]
    apply List.filter_congr
    intro x hx
    rw [isNonterminal_eq hh (hbody x (mem_of_mem_leading hx))]
  rw [hh, List.toList_toArray, reachableRules]
  exact flatMap_filter_head (S := fun x => x ∉ g.unreachable) hrow

private theorem first_eq (hx : x ∈ h.nonterminals) : g.first x = h.first x := by
  have hreach := reachable_of_known hh (Or.inr hx)
  have hxg := ((agreeReachable_of_reachableRules hh).agreeOn.mem_nonterminals_iff hreach).mpr hx
  have hclosed : ∀ e ∈ g.rules.toList.flatMap (fun r => ((leading g.nullable r.body).filter
      g.isNonterminal).map fun x => (r.head, x)), e.1 ∉ g.unreachable → e.2 ∉ g.unreachable := by
    intro e he hs
    obtain ⟨r, hr, he⟩ := List.mem_flatMap.mp he
    obtain ⟨y, hy, rfl⟩ := List.mem_map.mp he
    have hbody := reachable_body (Array.mem_toList_iff.mp hr) hs
    rw [mem_unreachable_iff]
    exact fun hn => hn.2 (hbody y (mem_of_mem_leading (List.mem_of_mem_filter hy)))
  have hdirect : h.directFirst h.nullable = Relation.ofEdges _ :=
    congrArg Relation.ofEdges (edges_reachable hh not)
  have hinherited : h.inheritedFirst h.nullable = Relation.ofEdges _ :=
    congrArg Relation.ofEdges (edges_reachable hh id)
  rw [first_eq_targets hxg, first_eq_targets hx, hdirect, hinherited]
  refine (Relation.targets_propagate_filter (S := fun x => x ∉ g.unreachable) hclosed ?_).symm
  rw [mem_unreachable_iff]
  exact fun hn => hn.2 hreach

private theorem scan_eq (hu : ∀ x ∈ u, h.IsToken x ∨ x ∈ h.nonterminals) (acc : OrderedSet Symbol) :
    g.firstTable.scan acc u = h.firstTable.scan acc u := by
  have hagree := (agreeReachable_of_reachableRules hh).agreeOn
  induction u generalizing acc with
  | nil => rfl
  | cons x u ih =>
    have ih := ih fun y hy => hu y (by simp [hy])
    rcases hu x (by simp) with ht | hn
    · have htg : g.IsToken x := ht.imp_left fun ht =>
        (hagree.mem_terminals_iff x (reachable_of_known hh (Or.inl ht))).mpr ht
      rw [scan_cons_token ht, scan_cons_token htg]
    · have hx := reachable_of_known hh (Or.inr hn)
      have hng := (hagree.mem_nonterminals_iff hx).mpr hn
      rw [scan_cons_nonterminal hn, scan_cons_nonterminal hng, first_eq hh hn, ih]
      simp only [hagree.mem_nullable_iff hx]

theorem renames_of_reachableRules : h.Renames g.originalId g where
  start_eq := start_eq_of_reachableRules hh
  accept_eq := rfl
  production?_eq _ hp := production?_originalId hh hp
  keepsOrder := keepsOrder_originalId hh
  mem_terminals_iff x hx :=
    (agreeReachable_of_reachableRules hh).agreeOn.mem_terminals_iff x (reachable_of_known hh hx)
  mem_nonterminals_iff x hx :=
    (agreeReachable_of_reachableRules hh).agreeOn.mem_nonterminals_iff (reachable_of_known hh hx)
  alternatives_eq _ hx := alternatives_originalId hh (reachable_of_known hh hx)
  firstOfSnoc_eq u y hu hy := by
    rw [FirstTable.firstOfSnoc_eq, FirstTable.firstOfSnoc_eq, FirstTable.firstOf,
      FirstTable.firstOf, scan_eq hh]
    intro x hx
    rcases List.mem_append.mp hx with hx | hx
    · exact (hu x hx).imp_left Or.inl
    · exact Or.inl (List.mem_singleton.mp hx ▸ hy)

end Pruned

/-! ### Automata -/

/-- The automata of a grammar do not depend on the rules whose heads cannot be reached. -/
theorem automata_of_reachableRules (g : Grammar) :
    ∃ h, ofProductions (g.reachableRules.map .rule) = .ok h ∧
      (∀ p ∈ h, g.production? (g.originalId p) = h.production? p) ∧
      KeepsOrder (· ∈ h) g.originalId ∧ h.RenamesAutomata g.originalId g := by
  obtain ⟨h, hok⟩ := exists_ofProductions_reachableRules g
  have hf := renames_of_reachableRules (ofProductions_eq_ok_iff.mp hok)
  exact ⟨h, hok, hf.production?_eq, hf.keepsOrder, hf.renamesAutomata⟩

end Grammar

end GrammarTables
