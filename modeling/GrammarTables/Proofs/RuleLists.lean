import Mathlib.Data.Set.List
import Mathlib.Order.Bounds.Defs
import GrammarTables.Proofs.Exploration
import GrammarTables.Proofs.ProductionIds

/-!
# Rule lists

A grammar is made of exactly the lists within its limits (`exists_ofProductions_iff`). What is then
looked up in it is read off the list: its heads, its other symbols, and for each head the first
places of its different productions (`isIndexOf_rules`).
-/

namespace GrammarTables.Grammar

variable {g : Grammar} {ps : List Production}

/-! ### Lists that are accepted -/

/-- The limits of a list of which a grammar can be made. -/
structure WithinLimits (ps : List Production) : Prop where
  length_pos : 1 ≤ ps.length
  length_le : ps.length ≤ 65534
  augmented_not_mem : .augmented ∉ ps
  isNamed : ∀ p ∈ ps, ∀ x ∈ p.symbols, x.isNamed
  length_body_le : ∀ p ∈ ps, p.body.length ≤ 65535

private theorem withinLimits_iff_faults : WithinLimits ps ↔ (ps ≠ [] ∧ ps.length ≤ 65534) ∧
    ps.findSome? headFault? = none ∧ ps.findSome? bodyFault? = none := by
  simp only [List.findSome?_eq_none_iff, headFault?_eq_none_iff, bodyFault?_eq_none_iff]
  constructor
  · intro h
    refine ⟨⟨List.ne_nil_of_length_pos h.length_pos, h.length_le⟩, fun p hp => ?_, fun p hp => ?_⟩
    · cases p with
      | augmented => exact absurd hp h.augmented_not_mem
      | rule r => exact ⟨r, rfl, h.isNamed _ hp _ List.mem_cons_self, h.length_body_le _ hp⟩
    · cases p with
      | augmented => exact absurd hp h.augmented_not_mem
      | rule r => exact fun x hx => h.isNamed _ hp x (List.mem_cons_of_mem _ hx)
  · rintro ⟨⟨hne, hlen⟩, hhead, hbody⟩
    refine ⟨List.length_pos_of_ne_nil hne, hlen, fun ha => ?_, fun p hp x hx => ?_, fun p hp => ?_⟩
    · obtain ⟨r, hr, -⟩ := hhead _ ha
      cases hr
    · obtain ⟨r, rfl, hnamed, -⟩ := hhead p hp
      rcases List.mem_cons.mp hx with rfl | hx
      · exact hnamed
      · exact hbody _ hp x hx
    · obtain ⟨r, rfl, -, hle⟩ := hhead p hp
      exact hle

/-- A grammar is made of exactly the lists within the limits. -/
theorem exists_ofProductions_iff : (∃ g, ofProductions ps = .ok g) ↔ WithinLimits ps := by
  simp only [withinLimits_iff_faults, ofProductions_eq_ok_iff_faults]
  constructor
  · rintro ⟨g, hlength, hfaults, -⟩
    exact ⟨hlength, hfaults⟩
  · rintro ⟨hlength, hfaults⟩
    have hwf := wellFormedRules_of_faults hlength.1 hlength.2 hfaults.1 hfaults.2
    exact ⟨ofRules _ hwf, hlength, hfaults, rfl⟩

theorem eq_map_rule_of_ofProductions (h : ofProductions ps = .ok g) :
    ps = g.rules.toList.map .rule := by
  have hlimits := exists_ofProductions_iff.mp ⟨g, h⟩
  obtain ⟨rules, rfl⟩ : ps ∈ Set.range (List.map Production.rule) := by
    rw [Set.range_list_map]
    intro p hp
    cases p with
    | augmented => exact absurd hp hlimits.augmented_not_mem
    | rule r => exact ⟨r, rfl⟩
  rw [ofProductions_eq_ok_iff.mp h]

/-! ### What is looked up -/

/-- The places in the list of the productions that are the same as `q`. -/
def placesOf (ps : List Production) (q : Production) : Set Nat :=
  {i | ∃ p, ps[i]? = some p ∧ p.same q = true}

/-- The look-ups of the grammar are those of the list. -/
structure IsIndexOf (g : Grammar) (ps : List Production) : Prop where
  nonterminals : g.nonterminals.toList =
    (ps.filterMap fun p => p.rule?.map Rule.head).eraseDups
  terminals : g.terminals.toList =
    ((ps.flatMap Production.body).filter fun x => x ∉ g.nonterminals).eraseDups
  terminal_xor_nonterminal : ∀ p ∈ ps, ∀ x ∈ p.body, Xor (x ∈ g.terminals) (x ∈ g.nonterminals)
  start : (ps.head?.bind Production.rule?).map Rule.head = some g.start
  ascending_alternatives : ∀ x, Ascending (g.alternatives x)
  mem_alternatives_iff : ∀ x p, p ∈ g.alternatives x ↔
    ∃ q ∈ ps, q.rule?.map Rule.head = some x ∧
      ∃ i, IsLeast (placesOf ps q) i ∧ ProductionId.ofIndex? i = some p
  existsUnique_alternative : ∀ q ∈ ps, ∃! p, (∃ x, p ∈ g.alternatives x) ∧
    ∃ q', g.production? p = some q' ∧ q'.same q = true

private theorem same_rule_iff {r s : Rule} :
    (Production.rule s).same (.rule r) = true ↔ s.symbols = r.symbols := by
  simp [Production.same, Production.symbols, Production.rule?]

private theorem mem_placesOf_iff {r : Rule} {i : Nat} :
    i ∈ placesOf (g.rules.toList.map .rule) (.rule r) ↔
      ∃ s, g.rules[i]? = some s ∧ s.symbols = r.symbols := by
  simp [placesOf, same_rule_iff]

private theorem isLeast_placesOf_iff {r : Rule} {i : Nat} :
    IsLeast (placesOf (g.rules.toList.map .rule) (.rule r)) i ↔
      (∃ s, g.rules[i]? = some s ∧ s.symbols = r.symbols) ∧
        ∀ j < i, ∀ s, g.rules[j]? = some s → s.symbols ≠ r.symbols := by
  refine and_congr mem_placesOf_iff ?_
  constructor
  · intro hle j hji s hs heq
    exact absurd (hle (mem_placesOf_iff.mpr ⟨s, hs, heq⟩)) (Nat.not_le.mpr hji)
  · intro hne j hj
    obtain ⟨s, hs, heq⟩ := mem_placesOf_iff.mp hj
    exact Nat.le_of_not_lt fun hji => hne j hji s hs heq

theorem mem_alternatives_iff_isLeast {x : Symbol} {p : ProductionId} : p ∈ g.alternatives x ↔
    ∃ q ∈ g.rules.toList.map Production.rule, q.rule?.map Rule.head = some x ∧
      ∃ i, IsLeast (placesOf (g.rules.toList.map .rule) q) i ∧
        ProductionId.ofIndex? i = some p := by
  rw [mem_alternatives_iff_index]
  constructor
  · rintro ⟨i, r, rfl, hr, rfl, hfirst⟩
    have hi := lt_of_rules_eq_some hr
    refine ⟨.rule r, List.mem_map_of_mem (Array.mem_toList_iff.mpr (Array.mem_of_getElem? hr)), rfl,
      i, isLeast_placesOf_iff.mpr ⟨⟨r, hr, rfl⟩, hfirst⟩, if_pos (Nat.lt_succ_of_lt hi)⟩
  · rintro ⟨q, hq, hhead, i, hleast, hid⟩
    obtain ⟨r, -, rfl⟩ := List.mem_map.mp hq
    obtain ⟨⟨s, hs, heq⟩, hfirst⟩ := isLeast_placesOf_iff.mp hleast
    have hi := lt_of_rules_eq_some hs
    rw [ProductionId.ofIndex?, if_pos (Nat.lt_succ_of_lt hi)] at hid
    refine ⟨i, s, (Option.some.inj hid).symm, hs, ?_, fun j hji t ht => ?_⟩
    · rw [(symbols_eq_iff.mp heq).1]
      exact Option.some.inj hhead
    · rw [heq]
      exact hfirst j hji t ht

theorem existsUnique_alternative {r : Rule} (h : r ∈ g.rules) :
    ∃! p, (∃ x, p ∈ g.alternatives x) ∧
      ∃ q, g.production? p = some q ∧ q.same (.rule r) = true := by
  obtain ⟨p, hp, hbody⟩ := exists_alternative h
  obtain ⟨s, hs, hhead⟩ := head?_eq_some_iff.mp (head?_of_mem_alternatives hp)
  refine ⟨p, ⟨⟨r.head, hp⟩, .rule s, hs, ?_⟩, ?_⟩
  · rw [same_rule_iff, symbols_eq_iff, hhead, ← hbody, body_of_rule hs]
    exact ⟨rfl, rfl⟩
  · rintro p' ⟨⟨x, hp'⟩, q, hq, hsame⟩
    obtain ⟨s', hs', rfl⟩ := head?_eq_some_iff.mp (head?_of_mem_alternatives hp')
    cases hq.symm.trans hs'
    obtain ⟨hhead', hbody'⟩ := symbols_eq_iff.mp (same_rule_iff.mp hsame)
    rw [hhead'] at hp'
    exact eq_of_mem_alternatives hp' hp (by rw [body_of_rule hs', hbody', hbody])

theorem isIndexOf_rules (g : Grammar) : g.IsIndexOf (g.rules.toList.map .rule) where
  nonterminals := by
    rw [nonterminals_eq, OrderedSet.toList_ofList, List.filterMap_map, ← List.filterMap_eq_map]
    rfl
  terminals := by
    rw [terminals_eq, OrderedSet.toList_ofList, List.flatMap_map]
    rfl
  terminal_xor_nonterminal := by
    intro p hp x hx
    obtain ⟨r, hr, rfl⟩ := List.mem_map.mp hp
    rcases mem_terminals_or_nonterminals (Array.mem_toList_iff.mp hr) hx with ht | hn
    · exact Or.inl ⟨ht, (mem_terminals.mp ht).1⟩
    · exact Or.inr ⟨hn, fun ht => (mem_terminals.mp ht).1 hn⟩
  start := by
    rw [g.some_start_eq, List.head?_map, List.head?_eq_getElem?, Array.getElem?_toList]
    cases g.rules[0]? <;> rfl
  ascending_alternatives := g.ascending_alternatives
  mem_alternatives_iff _ _ := mem_alternatives_iff_isLeast
  existsUnique_alternative := by
    intro q hq
    obtain ⟨r, hr, rfl⟩ := List.mem_map.mp hq
    exact existsUnique_alternative (Array.mem_toList_iff.mp hr)

/-- A list is accepted exactly within the limits, and what is looked up in the grammar is then read
off the list. -/
theorem exists_ofProductions_iff_and_isIndexOf (ps : List Production) :
    ((∃ g, ofProductions ps = .ok g) ↔ WithinLimits ps) ∧
      ∀ g, ofProductions ps = .ok g → g.IsIndexOf ps := by
  refine ⟨exists_ofProductions_iff, fun g h => ?_⟩
  rw [eq_map_rule_of_ofProductions h]
  exact g.isIndexOf_rules

/-- Rules that are repeated by later ones, numbered in disorder. -/
def repeatedRules : Array Rule :=
  #[⟨.named "S", [.named "A", .named "a"], 4⟩, ⟨.named "A", [.named "a"], 0⟩,
    ⟨.named "S", [.named "A", .named "a"], 1⟩, ⟨.named "A", [], 0⟩, ⟨.named "A", [.named "a"], 7⟩]

def repeated : Grammar :=
  ofRules repeatedRules {
    nonempty := by decide
    size_le := by decide
    isNamed_head := by simp [repeatedRules, Symbol.isNamed]
    isNamed_body := by simp [repeatedRules, Symbol.isNamed]
    length_body_le := by simp [repeatedRules] }

/-- Rules are accepted with their repetitions, of which the alternatives leave out all but the first;
a list that is too long by one rule is not accepted. -/
theorem exists_ofProductions_iff_and_isIndexOf_repeated :
    (WithinLimits (repeatedRules.toList.map .rule) ∧
      ofProductions (repeatedRules.toList.map .rule) = .ok repeated ∧
      repeated.IsIndexOf (repeatedRules.toList.map .rule) ∧
      repeated.alternatives (.named "S") = [.ofIndex 0] ∧
      repeated.alternatives (.named "A") = [.ofIndex 1, .ofIndex 3]) ∧
    ¬∃ g, ofProductions (List.replicate 65535 (.rule ⟨.named "S", [], 0⟩)) = .ok g := by
  have h : ofProductions (repeatedRules.toList.map .rule) = .ok repeated :=
    ofProductions_eq_ok_iff.mpr rfl
  obtain ⟨hlimits, hindex⟩ := exists_ofProductions_iff_and_isIndexOf
    (repeatedRules.toList.map .rule)
  refine ⟨⟨hlimits.mp ⟨_, h⟩, h, hindex _ h, by decide +kernel, by decide +kernel⟩, fun hlong => ?_⟩
  have hle := ((exists_ofProductions_iff_and_isIndexOf _).1.mp hlong).length_le
  rw [List.length_replicate] at hle
  omega

end GrammarTables.Grammar
