import Mathlib.Data.List.Nodup
import Mathlib.Data.Nat.Find
import GrammarTables.Item
import GrammarTables.Proofs.Derivation

/-!
# Productions and their first occurrences

Equal rules count as one production, which goes by the id of its first occurrence. The alternatives
of a nonterminal are these ids (`mem_alternatives_iff`), so every rule has one that stands for it.
-/

namespace GrammarTables

def ProductionId.ofIndex (i : Nat) : ProductionId := ⟨UInt16.ofNat (i + 1)⟩

theorem ProductionId.toNat_word_ofIndex {i : Nat} (h : i < 65535) :
    (ProductionId.ofIndex i).word.toNat = i + 1 :=
  UInt16.toNat_ofNat_of_lt' (by
    change i + 1 < 65536
    omega)

theorem ProductionId.index?_ofIndex {i : Nat} (h : i < 65535) :
    (ProductionId.ofIndex i).index? = some i := by
  have hw := toNat_word_ofIndex h
  have hne : ProductionId.ofIndex i ≠ .accept := by
    intro ha
    rw [ha] at hw
    cases hw
  rw [index?, if_neg hne, hw, Nat.add_sub_cancel]

/-! ### First values of keys -/

section FirstValues

variable {κ ν : Type} [DecidableEq κ] [Ord κ] [Std.TransOrd κ] [Std.LawfulEqOrd κ]
  {l : List (κ × ν)} {v : ν}

/-- The first value of each key, in the order of the keys. -/
def firstValues (l : List (κ × ν)) : List ν :=
  (OrderedSet.ofList (l.map Prod.fst)).toList.filterMap fun k =>
    ((l.filter (·.1 = k)).map Prod.snd).head?

theorem filterMap_head?_group (l : List (κ × ν)) :
    (OrderedMap.group l).toList.filterMap (fun e => e.2.head?) = firstValues l := by
  rw [OrderedMap.toList_eq_filterMap, List.filterMap_filterMap, OrderedMap.keys_group, firstValues]
  refine List.filterMap_congr fun k hk => ?_
  rw [OrderedSet.mem_toList, OrderedSet.mem_ofList] at hk
  rw [OrderedMap.get?_group, if_pos hk]
  rfl

theorem mem_firstValues_iff : v ∈ firstValues l ↔
    ∃ (i : Nat) (k : κ), l[i]? = some (k, v) ∧ ∀ j < i, ∀ e, l[j]? = some e → e.1 ≠ k := by
  simp only [firstValues, List.mem_filterMap, OrderedSet.mem_toList, OrderedSet.mem_ofList,
    List.head?_map, List.head?_filter, Option.map_eq_some_iff, List.find?_eq_some_iff_getElem]
  constructor
  · rintro ⟨k, -, ⟨k', v⟩, ⟨hk, i, hi, he, hj⟩, rfl⟩
    obtain rfl : k' = k := of_decide_eq_true hk
    refine ⟨i, k', List.getElem?_eq_some_iff.mpr ⟨hi, he⟩, fun j hji e hej => ?_⟩
    have hne := hj j hji
    rw [(List.getElem?_eq_some_iff.mp hej).2] at hne
    simpa using hne
  · rintro ⟨i, k, hi, hj⟩
    obtain ⟨hlt, he⟩ := List.getElem?_eq_some_iff.mp hi
    refine ⟨k, List.mem_map_of_mem (List.mem_of_getElem? hi), (k, v), ⟨by simp, i, hlt, he, ?_⟩, rfl⟩
    intro j hji
    simpa using hj j hji _ (List.getElem?_eq_getElem (by omega))

end FirstValues

namespace Grammar

variable {g : Grammar} {p q : ProductionId} {x : Symbol} {r : Rule}

private theorem filterMap_rule? (rules : List Rule) :
    (rules.map Production.rule).filterMap Production.rule? = rules := by
  rw [List.filterMap_map]
  exact List.filterMap_some

theorem ofProductions_eq_ok_iff_faults {ps : List Production} : ofProductions ps = .ok g ↔
    (ps ≠ [] ∧ ps.length ≤ 65534) ∧
      (ps.findSome? headFault? = none ∧ ps.findSome? bodyFault? = none) ∧
        g.rules = (ps.filterMap Production.rule?).toArray := by
  rw [ofProductions]
  by_cases hne : ps = []
  · simp [hne]
  · by_cases hlen : ps.length ≤ 65534
    · rw [dif_neg hne, dif_pos hlen]
      split
      · next e he => simp [he]
      · next hhead =>
        split
        · next e he => simp [he]
        · next hbody =>
          simp only [Except.ok.injEq, hne, hlen, hhead, hbody, ne_eq, not_false_eq_true, and_self,
            true_and]
          exact ⟨fun h => h ▸ rfl, fun h => (ext_rules h).symm⟩
    · simp [hne, hlen]

private theorem findSome?_faults {rules : List Rule} (hwf : WellFormedRules rules.toArray) :
    (rules.map Production.rule).findSome? headFault? = none ∧
      (rules.map Production.rule).findSome? bodyFault? = none := by
  simp only [List.findSome?_eq_none_iff, headFault?_eq_none_iff, bodyFault?_eq_none_iff,
    List.forall_mem_map]
  constructor
  · intro r hr
    have hr := List.mem_toArray.mpr hr
    exact ⟨r, rfl, hwf.isNamed_head r hr, hwf.length_body_le r hr⟩
  · exact fun r hr => hwf.isNamed_body r (List.mem_toArray.mpr hr)

/-- The grammar of a list of rules has these rules, and every list of a grammar's rules is
accepted. -/
theorem ofProductions_eq_ok_iff {rules : List Rule} :
    ofProductions (rules.map .rule) = .ok g ↔ g.rules = rules.toArray := by
  rw [ofProductions_eq_ok_iff_faults, filterMap_rule?, List.length_map, Ne, List.map_eq_nil_iff]
  constructor
  · exact fun h => h.2.2
  · intro h
    have hwf : WellFormedRules rules.toArray := h ▸ g.wellFormed
    exact ⟨⟨List.ne_nil_of_length_pos hwf.nonempty, hwf.size_le⟩, findSome?_faults hwf, h⟩

theorem lt_of_rules_eq_some {i : Nat} (h : g.rules[i]? = some r) : i < 65534 := by
  obtain ⟨hlt, -⟩ := Array.getElem?_eq_some_iff.mp h
  have := g.wellFormed.size_le
  omega

theorem production?_eq_rule_iff :
    g.production? p = some (.rule r) ↔ ∃ i, p = .ofIndex i ∧ g.rules[i]? = some r := by
  constructor
  · intro h
    rw [production?, ProductionId.index?] at h
    by_cases hp : p = .accept
    · simp [hp] at h
    · simp only [hp, if_false, Option.map_eq_some_iff, Production.rule.injEq, exists_eq_right] at h
      refine ⟨p.word.toNat - 1, ?_, h⟩
      have hw : p.word.toNat ≠ 0 := by
        intro h0
        apply hp
        cases p
        exact congrArg ProductionId.mk (UInt16.toNat_inj.mp h0)
      cases p
      rw [ProductionId.ofIndex]
      apply congrArg ProductionId.mk
      rw [Nat.sub_add_cancel (Nat.one_le_iff_ne_zero.mpr hw), UInt16.ofNat_toNat]
  · intro h
    obtain ⟨i, rfl, hi⟩ := h
    have hlt := lt_of_rules_eq_some hi
    simp [production?, ProductionId.index?_ofIndex (Nat.lt_succ_of_lt hlt), hi]

@[simp] theorem body_accept : g.body .accept = [g.start] := rfl

@[simp] theorem head?_accept : g.head? .accept = none := rfl

theorem accept_mem : ProductionId.accept ∈ g := rfl

theorem production?_eq_augmented_iff : g.production? p = some .augmented ↔ p = .accept := by
  constructor
  · intro h
    rw [production?, ProductionId.index?] at h
    by_cases hp : p = .accept
    · exact hp
    · simp [hp] at h
  · intro h
    subst h
    rfl

theorem mem_iff : p ∈ g ↔ p = .accept ∨ ∃ r, g.production? p = some (.rule r) := by
  change (g.production? p).isSome ↔ _
  rw [Option.isSome_iff_exists]
  constructor
  · intro h
    obtain ⟨production, h⟩ := h
    cases production with
    | augmented => exact Or.inl (production?_eq_augmented_iff.mp h)
    | rule r => exact Or.inr ⟨r, h⟩
  · intro h
    rcases h with rfl | h
    · exact ⟨_, rfl⟩
    · obtain ⟨r, h⟩ := h
      exact ⟨_, h⟩

theorem head?_of_rule (h : g.production? p = some (.rule r)) : g.head? p = some r.head := by
  simp [head?, h, Production.rule?]

theorem body_of_rule (h : g.production? p = some (.rule r)) : g.body p = r.body := by
  simp [body, h]

theorem rule_mem (h : g.production? p = some (.rule r)) : r ∈ g.rules := by
  obtain ⟨i, -, hi⟩ := production?_eq_rule_iff.mp h
  exact Array.mem_of_getElem? hi

theorem exists_id_of_mem (h : r ∈ g.rules) : ∃ p, g.production? p = some (.rule r) := by
  obtain ⟨i, hi⟩ := Array.mem_iff_getElem?.mp h
  exact ⟨.ofIndex i, production?_eq_rule_iff.mpr ⟨i, rfl, hi⟩⟩

theorem head?_eq_some_iff :
    g.head? p = some x ↔ ∃ r, g.production? p = some (.rule r) ∧ r.head = x := by
  constructor
  · intro h
    simp only [head?, Option.bind_eq_some_iff, Option.map_eq_some_iff] at h
    obtain ⟨production, hp, r, hr, hx⟩ := h
    cases production with
    | augmented => cases hr
    | rule r' =>
      cases hr
      exact ⟨r, hp, hx⟩
  · intro h
    obtain ⟨r, hp, rfl⟩ := h
    exact head?_of_rule hp

theorem exists_rule_of_head? (h : g.head? p = some x) :
    ∃ r ∈ g.rules, r.head = x ∧ r.body = g.body p := by
  obtain ⟨r, hp, hx⟩ := head?_eq_some_iff.mp h
  exact ⟨r, rule_mem hp, hx, (body_of_rule hp).symm⟩

theorem mem_nonterminals_of_head? (h : g.head? p = some x) : x ∈ g.nonterminals := by
  obtain ⟨r, hr, hx, -⟩ := exists_rule_of_head? h
  exact mem_nonterminals.mpr ⟨r, hr, hx⟩

theorem mem_of_head? (h : g.head? p = some x) : p ∈ g := by
  obtain ⟨r, hp, -⟩ := head?_eq_some_iff.mp h
  exact mem_iff.mpr (Or.inr ⟨r, hp⟩)

theorem ne_accept_of_head? (h : g.head? p = some x) : p ≠ .accept := by
  intro hp
  subst hp
  cases h

theorem eq_accept_of_head? (hp : p ∈ g) (h : g.head? p = none) : p = .accept := by
  apply (mem_iff.mp hp).resolve_right
  intro hr
  obtain ⟨r, hr⟩ := hr
  rw [head?_of_rule hr] at h
  cases h

theorem length_body_le (g : Grammar) (p : ProductionId) : (g.body p).length ≤ 65535 := by
  by_cases hp : p ∈ g
  · rcases mem_iff.mp hp with rfl | hr
    · simp
    · obtain ⟨r, hr⟩ := hr
      rw [body_of_rule hr]
      exact g.wellFormed.length_body_le r (rule_mem hr)
  · have hn : g.production? p = none := by
      rw [← Option.not_isSome_iff_eq_none]
      exact hp
    simp [body, hn]

theorem toNat_ofNat_of_le_length_body {n : Nat} (h : n ≤ (g.body p).length) :
    (UInt16.ofNat n).toNat = n := by
  have hle := g.length_body_le p
  apply UInt16.toNat_ofNat_of_lt'
  change n < 65536
  omega

theorem mem_terminals_or_nonterminals_of_body {y : Symbol} (hp : p ∈ g) (hy : y ∈ g.body p) :
    y ∈ g.terminals ∨ y ∈ g.nonterminals := by
  rcases mem_iff.mp hp with rfl | hr
  · rw [body_accept, List.mem_singleton] at hy
    subst hy
    exact Or.inr g.start_mem_nonterminals
  · obtain ⟨r, hr⟩ := hr
    rw [body_of_rule hr] at hy
    exact mem_terminals_or_nonterminals (rule_mem hr) hy

/-! ### Numbered rules -/

theorem getElem?_numberedRules (rules : List Rule) (i : Nat) :
    (numberedRules rules)[i]? = rules[i]?.map fun r => (.ofIndex i, r) := by
  simp [numberedRules, List.getElem?_zipIdx, ProductionId.ofIndex, Function.comp_def]

theorem mem_numbered_iff : (p, r) ∈ g.numbered ↔ g.production? p = some (.rule r) := by
  rw [production?_eq_rule_iff, numbered, List.mem_iff_getElem?]
  simp only [getElem?_numberedRules, Array.getElem?_toList, Option.map_eq_some_iff, Prod.mk.injEq]
  grind

theorem map_snd_numbered : g.numbered.map Prod.snd = g.rules.toList := by
  rw [numbered, numberedRules, List.map_map]
  exact List.zipIdx_map_fst 0 _

theorem map_fst_numbered (g : Grammar) :
    g.numbered.map Prod.fst = (List.range g.rules.size).map ProductionId.ofIndex := by
  apply List.ext_getElem?
  intro i
  simp only [numbered, List.getElem?_map, getElem?_numberedRules, Array.getElem?_toList,
    Option.map_map]
  by_cases hi : i < g.rules.size
  · simp [hi]
  · simp [hi]

theorem nodup_numbered : (g.numbered.map Prod.fst).Nodup := by
  rw [map_fst_numbered]
  refine List.Nodup.map_on ?_ List.nodup_range
  intro i hi j hj hij
  have hsize := g.wellFormed.size_le
  rw [List.mem_range] at hi hj
  have hword := congrArg (·.word.toNat) hij
  rw [ProductionId.toNat_word_ofIndex (by omega), ProductionId.toNat_word_ofIndex (by omega)]
    at hword
  omega

/-! ### First occurrences -/

/-- No production with the same head and body comes earlier. -/
def FirstOccurrence (g : Grammar) (p : ProductionId) : Prop :=
  p ∈ g ∧ ∀ q ∈ g, g.head? q = g.head? p → g.body q = g.body p → p.word ≤ q.word

theorem firstOccurrence_accept : g.FirstOccurrence .accept :=
  ⟨accept_mem, fun _ _ _ _ => UInt16.zero_le⟩

theorem FirstOccurrence.eq (hp : g.FirstOccurrence p) (hq : g.FirstOccurrence q)
    (hh : g.head? p = g.head? q) (hb : g.body p = g.body q) : p = q :=
  congrArg ProductionId.mk (UInt16.le_antisymm (hp.2 q hq.1 hh.symm hb.symm) (hq.2 p hp.1 hh hb))

theorem distinctRules_eq (rules : List Rule) :
    distinctRules rules = firstValues ((numberedRules rules).map fun e => (e.2.symbols, e)) :=
  filterMap_head?_group _

private theorem mem_distinctRules {rules : List Rule} {p : ProductionId} {r : Rule} :
    (p, r) ∈ distinctRules rules ↔ ∃ i, p = .ofIndex i ∧ rules[i]? = some r ∧
      ∀ j < i, ∀ s, rules[j]? = some s → s.symbols ≠ r.symbols := by
  rw [distinctRules_eq, mem_firstValues_iff]
  simp only [List.getElem?_map, getElem?_numberedRules, Option.map_map, Option.map_eq_some_iff,
    Function.comp_apply, Prod.mk.injEq]
  constructor
  · rintro ⟨i, _, ⟨r, hr, rfl, rfl, rfl⟩, hj⟩
    exact ⟨i, rfl, hr, fun j hji s hs => hj j hji _ ⟨s, hs, rfl⟩⟩
  · rintro ⟨i, rfl, hr, hj⟩
    refine ⟨i, r.symbols, ⟨r, hr, rfl, rfl, rfl⟩, ?_⟩
    rintro j hji _ ⟨s, hs, rfl⟩
    exact hj j hji s hs

theorem mem_alternatives_iff_index : p ∈ g.alternatives x ↔ ∃ i r, p = .ofIndex i ∧
    g.rules[i]? = some r ∧ r.head = x ∧
      ∀ j < i, ∀ s, g.rules[j]? = some s → s.symbols ≠ r.symbols := by
  rw [alternatives, g.index_eq]
  simp only [RuleIndex.ofRules, OrderedMap.getD_group, List.mem_map, List.mem_filter, Prod.exists,
    exists_eq_right, decide_eq_true_eq, Prod.mk.injEq, mem_distinctRules, Array.getElem?_toList]
  constructor
  · intro h
    obtain ⟨q, r, ⟨i, hq, hr, hj⟩, hx, rfl⟩ := h
    exact ⟨i, r, hq, hr, hx, hj⟩
  · intro h
    obtain ⟨i, r, hp, hr, hx, hj⟩ := h
    exact ⟨p, r, ⟨i, hp, hr, hj⟩, hx, rfl⟩

theorem symbols_eq_iff {r s : Rule} : s.symbols = r.symbols ↔ s.head = r.head ∧
    s.body = r.body := by
  simp [Rule.symbols]

private theorem word_le_iff {i j : Nat} (hi : i < 65534) (hj : j < 65534) :
    (ProductionId.ofIndex i).word ≤ (ProductionId.ofIndex j).word ↔ i ≤ j := by
  rw [UInt16.le_iff_toNat_le, ProductionId.toNat_word_ofIndex (by omega),
    ProductionId.toNat_word_ofIndex (by omega)]
  omega

/-- The alternatives of a nonterminal are the first occurrences of the productions it heads. -/
theorem mem_alternatives_iff :
    p ∈ g.alternatives x ↔ g.FirstOccurrence p ∧ g.head? p = some x := by
  rw [mem_alternatives_iff_index]
  constructor
  · intro h
    obtain ⟨i, r, rfl, hr, rfl, hj⟩ := h
    have hp := production?_eq_rule_iff.mpr ⟨i, rfl, hr⟩
    refine ⟨⟨mem_iff.mpr (Or.inr ⟨r, hp⟩), ?_⟩, head?_of_rule hp⟩
    intro q _ hh hb
    rw [head?_of_rule hp] at hh
    obtain ⟨s, hq, hs⟩ := head?_eq_some_iff.mp hh
    rw [body_of_rule hp, body_of_rule hq] at hb
    obtain ⟨j, rfl, hsj⟩ := production?_eq_rule_iff.mp hq
    rw [word_le_iff (lt_of_rules_eq_some hr) (lt_of_rules_eq_some hsj)]
    by_contra hlt
    exact hj j (by omega) s hsj (symbols_eq_iff.mpr ⟨hs, hb⟩)
  · intro h
    obtain ⟨⟨-, hfirst⟩, hh⟩ := h
    obtain ⟨r, hp, hx⟩ := head?_eq_some_iff.mp hh
    obtain ⟨i, rfl, hr⟩ := production?_eq_rule_iff.mp hp
    refine ⟨i, r, rfl, hr, hx, ?_⟩
    intro j hji s hs heq
    obtain ⟨hhead, hbody⟩ := symbols_eq_iff.mp heq
    have hq := production?_eq_rule_iff.mpr ⟨j, rfl, hs⟩
    have hle := hfirst _ (mem_iff.mpr (Or.inr ⟨s, hq⟩))
      (by rw [head?_of_rule hq, head?_of_rule hp, hhead])
      (by rw [body_of_rule hq, body_of_rule hp, hbody])
    rw [word_le_iff (lt_of_rules_eq_some hr) (lt_of_rules_eq_some hs)] at hle
    omega

theorem head?_of_mem_alternatives (h : p ∈ g.alternatives x) : g.head? p = some x :=
  (mem_alternatives_iff.mp h).2

theorem eq_of_mem_alternatives (hp : p ∈ g.alternatives x) (hq : q ∈ g.alternatives x)
    (hb : g.body p = g.body q) : p = q := by
  obtain ⟨hp, hph⟩ := mem_alternatives_iff.mp hp
  obtain ⟨hq, hqh⟩ := mem_alternatives_iff.mp hq
  exact hp.eq hq (hph.trans hqh.symm) hb

/-- Every rule is an alternative of its head, under the id of its first occurrence. -/
theorem exists_alternative (h : r ∈ g.rules) :
    ∃ p ∈ g.alternatives r.head, g.body p = r.body := by
  obtain ⟨n, hn⟩ := Array.mem_iff_getElem?.mp h
  let same (i : Nat) : Prop := ∃ s, g.rules[i]? = some s ∧ s.symbols = r.symbols
  have hex : ∃ i, same i := ⟨n, r, hn, rfl⟩
  classical
  obtain ⟨s, hs, heq⟩ := Nat.find_spec hex
  obtain ⟨hhead, hbody⟩ := symbols_eq_iff.mp heq
  refine ⟨.ofIndex (Nat.find hex), mem_alternatives_iff_index.mpr ⟨_, s, rfl, hs, hhead, ?_⟩, ?_⟩
  · intro j hj t ht hts
    exact Nat.find_min hex hj ⟨t, ht, hts.trans heq⟩
  · rw [body_of_rule (production?_eq_rule_iff.mpr ⟨_, rfl, hs⟩), hbody]

theorem alternatives_eq_nil (h : x ∉ g.nonterminals) : g.alternatives x = [] := by
  rw [List.eq_nil_iff_forall_not_mem]
  intro p hp
  exact h (mem_nonterminals_of_head? (head?_of_mem_alternatives hp))

end Grammar

end GrammarTables
