import Mathlib.Data.List.Nodup
import Mathlib.Data.List.Perm.Subperm
import Mathlib.Data.List.ProdSigma
import GrammarTables.Automaton
import GrammarTables.Proofs.FirstSets
import GrammarTables.Proofs.Productions

/-!
# Items of a grammar

An item is admissible if its production, its dot and its lookaheads belong to the grammar.
Prediction and shifting keep items admissible; both kinds of predictive items share the laws of
`LawfulItem`, and `predicts_iff` says what each kind predicts. Prediction alone asks nothing of the
dot (`Belongs`): an item whose dot is past the end of its body predicts nothing.
-/

namespace GrammarTables

variable {g : Grammar} {x : Symbol}

namespace DottedRule

variable {d : DottedRule}

theorem next?_eq_some_iff : d.next? g = some x ↔ ∃ rest, d.remainder g = x :: rest := by
  rw [next?, List.head?_eq_some_iff]

theorem dot_lt_of_next? (h : d.next? g = some x) : d.dot.toNat < (g.body d.production).length := by
  obtain ⟨rest, hr⟩ := next?_eq_some_iff.mp h
  rw [remainder_eq] at hr
  by_contra hn
  rw [List.drop_eq_nil_of_le (by omega)] at hr
  cases hr

theorem mem_body_of_next? (h : d.next? g = some x) : x ∈ g.body d.production := by
  obtain ⟨rest, hr⟩ := next?_eq_some_iff.mp h
  rw [remainder_eq] at hr
  exact List.mem_of_mem_drop (hr ▸ List.mem_cons_self)

theorem production_mem_of_next? (h : d.next? g = some x) : d.production ∈ g := by
  by_contra hn
  have hp : g.production? d.production = none := by
    rw [← Option.not_isSome_iff_eq_none]
    exact hn
  have := dot_lt_of_next? h
  simp [Grammar.body, hp] at this

theorem dot_shifted (h : d.next? g = some x) : d.shifted.dot.toNat = d.dot.toNat + 1 := by
  have hlt := dot_lt_of_next? h
  have hle := g.length_body_le d.production
  rw [shifted, UInt16.toNat_add]
  change (d.dot.toNat + 1) % 65536 = d.dot.toNat + 1
  omega

theorem remainder_shifted (h : d.next? g = some x) : d.shifted.remainder g = d.rest g := by
  rw [rest, remainder_eq, remainder_eq, dot_shifted h, List.tail_drop]
  rfl

theorem take_shifted (h : d.next? g = some x) :
    (g.body d.production).take d.shifted.dot.toNat =
      (g.body d.production).take d.dot.toNat ++ [x] := by
  have hx : (g.body d.production)[d.dot.toNat]? = some x := by
    rw [next?, remainder_eq, List.head?_drop] at h
    exact h
  rw [dot_shifted h, List.take_add_one, hx]
  rfl

theorem isComplete_iff : d.isComplete g = true ↔ (g.body d.production).length ≤ d.dot.toNat := by
  rw [isComplete, remainder_eq, List.isEmpty_iff, List.drop_eq_nil_iff]

theorem next?_eq_none_of_isComplete (h : d.isComplete g = true) : d.next? g = none := by
  rw [next?, List.isEmpty_iff.mp h, List.head?_nil]

end DottedRule

namespace Grammar

theorem mem_terminals_or_nonterminals_of_remainder {d : DottedRule} (hd : d.production ∈ g)
    (hx : x ∈ d.remainder g) : x ∈ g.terminals ∨ x ∈ g.nonterminals := by
  rw [DottedRule.remainder_eq] at hx
  exact mem_terminals_or_nonterminals_of_body hd (List.mem_of_mem_drop hx)

theorem mem_terminals_or_nonterminals_of_next? {d : DottedRule} (h : d.next? g = some x) :
    x ∈ g.terminals ∨ x ∈ g.nonterminals := by
  obtain ⟨rest, hr⟩ := DottedRule.next?_eq_some_iff.mp h
  apply mem_terminals_or_nonterminals_of_remainder (DottedRule.production_mem_of_next? h)
  rw [hr]
  exact List.mem_cons_self

/-- The production and the lookaheads of an item belong to the grammar, wherever its dot is. -/
structure Belongs (g : Grammar) {ι : Type} [Item ι] (i : ι) : Prop where
  production_mem : (Item.core i).production ∈ g
  isToken : ∀ y ∈ Item.lookaheads i, g.IsToken y

theorem belongs_iff {ι : Type} [Item ι] {i : ι} : g.Belongs i ↔
    (Item.core i).production ∈ g ∧ ∀ y ∈ Item.lookaheads i, g.IsToken y :=
  ⟨fun h => ⟨h.production_mem, h.isToken⟩, fun h => ⟨h.1, h.2⟩⟩

instance {ι : Type} [Item ι] (g : Grammar) (i : ι) : Decidable (g.Belongs i) :=
  decidable_of_iff _ belongs_iff.symm

/-- The production, the dot and the lookaheads of an item belong to the grammar. -/
structure Admissible (g : Grammar) {ι : Type} [Item ι] (i : ι) : Prop where
  production_mem : (Item.core i).production ∈ g
  dot_le : (Item.core i).dot.toNat ≤ (g.body (Item.core i).production).length
  isToken : ∀ y ∈ Item.lookaheads i, g.IsToken y

theorem Admissible.belongs {ι : Type} [Item ι] {i : ι} (h : g.Admissible i) : g.Belongs i :=
  ⟨h.production_mem, h.isToken⟩

theorem belongs_of_admissible {ι : Type} [Item ι] {l : List ι} (h : ∀ i ∈ l, g.Admissible i) :
    ∀ i ∈ l, g.Belongs i := fun i hi => (h i hi).belongs

def Predicts (g : Grammar) {ι : Type} [PredictiveItem ι] (i j : ι) : Prop :=
  ∃ js, PredictiveItem.predict g g.firstTable i = .ok js ∧ j ∈ js

theorem predicts_iff_of_predict {ι : Type} [PredictiveItem ι] {i j : ι} {js : List ι}
    (h : PredictiveItem.predict g g.firstTable i = .ok js) : g.Predicts i j ↔ j ∈ js := by
  rw [Predicts, h]
  simp

end Grammar

namespace DottedRule

variable {i j : DottedRule}

theorem predict_eq (hi : i.production ∈ g) : i.predict g =
    .ok (((i.next? g).elim [] g.alternatives).map fun p => ⟨p, 0⟩) := by
  rw [predict, if_pos hi]
  cases i.next? g <;> rfl

theorem predicts_iff : g.Predicts i j ↔
    ∃ x, i.next? g = some x ∧ j.production ∈ g.alternatives x ∧ j.dot = 0 := by
  by_cases hi : i.production ∈ g
  · rw [Grammar.predicts_iff_of_predict (predict_eq hi)]
    cases i.next? g with
    | none => simp
    | some x =>
      simp only [Option.elim_some, List.mem_map, Option.some.injEq, exists_eq_left']
      constructor
      · intro h
        obtain ⟨p, hp, rfl⟩ := h
        exact ⟨hp, rfl⟩
      · intro h
        obtain ⟨production, dot⟩ := j
        obtain ⟨hp, hd⟩ := h
        cases hd
        exact ⟨production, hp, rfl⟩
  · constructor
    · intro h
      obtain ⟨js, hp, -⟩ := h
      change predict g i = .ok js at hp
      rw [predict, if_neg hi] at hp
      cases hp
    · intro h
      obtain ⟨x, hx, -⟩ := h
      exact absurd (production_mem_of_next? hx) hi

end DottedRule

namespace LookaheadItem

variable {i j : LookaheadItem}

private theorem exists_lookaheads (hi : g.Belongs i) {rest : List Symbol}
    (hr : i.core.remainder g = x :: rest) :
    ∃ s, g.firstTable.firstOfSnoc rest i.lookahead = .ok s ∧
      ∀ y, y ∈ s ↔ g.Begins (rest ++ [i.lookahead]) y := by
  have hknown : ∀ y ∈ rest ++ [i.lookahead], g.IsToken y ∨ y ∈ g.nonterminals := by
    intro y hy
    rcases List.mem_append.mp hy with hy | hy
    · have hm : y ∈ i.core.remainder g := hr ▸ List.mem_cons_of_mem x hy
      exact (Grammar.mem_terminals_or_nonterminals_of_remainder hi.production_mem hm).imp_left
        Or.inl
    · rw [List.mem_singleton.mp hy]
      exact Or.inl (hi.isToken _ (by simp [Item.lookaheads]))
  obtain ⟨s, hs⟩ := Grammar.exists_firstOf hknown
  exact ⟨s, by rw [FirstTable.firstOfSnoc_eq, hs], fun y => Grammar.mem_firstOf_iff hs⟩

theorem predict_of_remainder_nil (hi : g.Belongs i) (hr : i.core.remainder g = []) :
    i.predict g g.firstTable = .ok [] := by
  have hp : i.core.production ∈ g := hi.production_mem
  rw [predict, if_pos hp, hr]

theorem predict_of_remainder_cons (hi : g.Belongs i) {rest : List Symbol}
    (hr : i.core.remainder g = x :: rest) : ∃ s : OrderedSet Symbol,
      i.predict g g.firstTable =
        .ok ((g.alternatives x).flatMap fun p => s.toList.map fun y => ⟨⟨p, 0⟩, y⟩) ∧
      ∀ y, y ∈ s ↔ g.Begins (rest ++ [i.lookahead]) y := by
  have hp : i.core.production ∈ g := hi.production_mem
  obtain ⟨s, hs, hm⟩ := exists_lookaheads hi hr
  refine ⟨s, ?_, hm⟩
  rw [predict, if_pos hp, hr]
  by_cases hx : x ∈ g.nonterminals
  · simp only [Grammar.isNonterminal_iff.mpr hx, if_true, hs]
    rfl
  · rw [Grammar.alternatives_eq_nil hx]
    simp only [Grammar.isNonterminal_iff, hx, if_false, List.flatMap_nil]

private theorem exists_predict (hi : g.Belongs i) :
    ∃ js, i.predict g g.firstTable = .ok js ∧ ∀ j, j ∈ js ↔
      ∃ x rest, i.core.remainder g = x :: rest ∧ j.core.production ∈ g.alternatives x ∧
        j.core.dot = 0 ∧ g.Begins (rest ++ [i.lookahead]) j.lookahead := by
  cases hr : i.core.remainder g with
  | nil => exact ⟨[], predict_of_remainder_nil hi hr, by simp⟩
  | cons x rest =>
    obtain ⟨s, hs, hm⟩ := predict_of_remainder_cons hi hr
    refine ⟨_, hs, fun j => ?_⟩
    simp only [List.mem_flatMap, List.mem_map, OrderedSet.mem_toList, hm, List.cons.injEq]
    constructor
    · intro h
      obtain ⟨p, hp, y, hy, rfl⟩ := h
      exact ⟨x, rest, ⟨rfl, rfl⟩, hp, rfl, hy⟩
    · intro h
      obtain ⟨_, _, ⟨rfl, rfl⟩, hp, hd, hy⟩ := h
      refine ⟨_, hp, _, hy, ?_⟩
      obtain ⟨⟨production, dot⟩, lookahead⟩ := j
      rw [← hd]

/-- An item predicts the alternatives of the nonterminal after its dot with each token that may
come after it. -/
theorem predicts_iff_of_belongs (hi : g.Belongs i) : g.Predicts i j ↔
    ∃ x rest, i.core.remainder g = x :: rest ∧ j.core.production ∈ g.alternatives x ∧
      j.core.dot = 0 ∧ g.Begins (rest ++ [i.lookahead]) j.lookahead := by
  obtain ⟨js, hp, hm⟩ := exists_predict hi
  rw [Grammar.predicts_iff_of_predict hp, hm]

theorem predicts_iff (hi : g.Admissible i) : g.Predicts i j ↔
    ∃ x rest, i.core.remainder g = x :: rest ∧ j.core.production ∈ g.alternatives x ∧
      j.core.dot = 0 ∧ g.Begins (rest ++ [i.lookahead]) j.lookahead :=
  predicts_iff_of_belongs hi.belongs

end LookaheadItem

/-! ### What both kinds of items share -/

/-- The laws of predictive items. -/
class LawfulItem (ι : Type) [PredictiveItem ι] : Prop where
  core_initial : Item.core (PredictiveItem.initial : ι) = .initial
  core_shifted : ∀ i : ι, Item.core (PredictiveItem.shifted i) = (Item.core i).shifted
  lookaheads_shifted : ∀ i : ι, Item.lookaheads (PredictiveItem.shifted i) = Item.lookaheads i
  isToken_initial : ∀ g : Grammar, ∀ y ∈ Item.lookaheads (PredictiveItem.initial : ι), g.IsToken y
  exists_predict : ∀ (g : Grammar) (i : ι), g.Belongs i →
    ∃ js, PredictiveItem.predict g g.firstTable i = .ok js
  of_predicts : ∀ (g : Grammar) (i j : ι), g.Belongs i → g.Predicts i j →
    (∃ x, (Item.core i).next? g = some x ∧ (Item.core j).production ∈ g.alternatives x) ∧
      (Item.core j).dot = 0 ∧ ∀ y ∈ Item.lookaheads j, g.IsToken y
  length_le : ∀ (g : Grammar) (l : List ι), l.Nodup →
    (∀ i ∈ l, g.Belongs i ∧ (Item.core i).dot = 0 ∧ (Item.core i).production ≠ .accept) →
    l.length ≤ g.rules.size * (g.terminals.size + 1)

namespace Grammar

private def ruleIds (g : Grammar) : List ProductionId :=
  (List.range g.rules.size).map ProductionId.ofIndex

private theorem mem_ruleIds {p : ProductionId} (hp : p ∈ g) (hne : p ≠ .accept) :
    p ∈ g.ruleIds := by
  obtain ⟨r, hr⟩ := (mem_iff.mp hp).resolve_left hne
  obtain ⟨i, rfl, hi⟩ := production?_eq_rule_iff.mp hr
  obtain ⟨hlt, -⟩ := Array.getElem?_eq_some_iff.mp hi
  exact List.mem_map.mpr ⟨i, List.mem_range.mpr hlt, rfl⟩

private theorem mem_tokens {y : Symbol} (h : g.IsToken y) :
    y ∈ Symbol.endOfInput :: g.terminals.toList := by
  rcases h with h | rfl
  · exact List.mem_cons_of_mem _ h
  · exact List.mem_cons_self

theorem length_le_of_keys {ι κ : Type} {key : ι → κ} {l : List ι} {keys : List κ}
    (hl : l.Nodup) (hinj : ∀ i ∈ l, ∀ j ∈ l, key i = key j → i = j) (hkey : ∀ i ∈ l, key i ∈ keys) :
    l.length ≤ keys.length := by
  have hsub : l.map key ⊆ keys := by
    intro k hk
    obtain ⟨i, hi, rfl⟩ := List.mem_map.mp hk
    exact hkey i hi
  have hle := ((hl.map_on hinj).subperm hsub).length_le
  rwa [List.length_map] at hle

end Grammar

instance : LawfulItem DottedRule where
  core_initial := rfl
  core_shifted _ := rfl
  lookaheads_shifted _ := rfl
  isToken_initial g y hy := by simp [Item.lookaheads] at hy
  exists_predict g i hi := ⟨_, DottedRule.predict_eq hi.production_mem⟩
  of_predicts g i j _ h := by
    obtain ⟨x, hx, hp, hd⟩ := DottedRule.predicts_iff.mp h
    exact ⟨⟨x, hx, hp⟩, hd, by simp [Item.lookaheads]⟩
  length_le g l hl h := by
    have hinj : ∀ i ∈ l, ∀ j ∈ l, i.production = j.production → i = j := by
      intro i hi j hj hij
      have hdi : i.dot = 0 := (h i hi).2.1
      have hdj : j.dot = 0 := (h j hj).2.1
      cases i
      cases j
      simp_all
    have hkey : ∀ i ∈ l, i.production ∈ g.ruleIds := fun i hi =>
      Grammar.mem_ruleIds (h i hi).1.production_mem (h i hi).2.2
    have hle := Grammar.length_le_of_keys hl hinj hkey
    simp only [Grammar.ruleIds, List.length_map, List.length_range] at hle
    exact Nat.le_trans hle (Nat.le_mul_of_pos_right _ (Nat.succ_pos _))

instance : LawfulItem LookaheadItem where
  core_initial := rfl
  core_shifted _ := rfl
  lookaheads_shifted _ := rfl
  isToken_initial g y hy := by
    rw [List.mem_singleton.mp hy]
    exact Or.inr rfl
  exists_predict g i hi := by
    obtain ⟨js, hjs, -⟩ := LookaheadItem.exists_predict hi
    exact ⟨js, hjs⟩
  of_predicts g i j hi h := by
    obtain ⟨x, rest, hr, hp, hd, hy⟩ := (LookaheadItem.predicts_iff_of_belongs hi).mp h
    refine ⟨⟨x, DottedRule.next?_eq_some_iff.mpr ⟨rest, hr⟩, hp⟩, hd, ?_⟩
    intro y hmem
    rw [List.mem_singleton.mp hmem]
    exact hy.1
  length_le g l hl h := by
    let key (i : LookaheadItem) : ProductionId × Symbol := (i.core.production, i.lookahead)
    have hinj : ∀ i ∈ l, ∀ j ∈ l, key i = key j → i = j := by
      intro i hi j hj hij
      have hdi : i.core.dot = 0 := (h i hi).2.1
      have hdj : j.core.dot = 0 := (h j hj).2.1
      obtain ⟨⟨production, dot⟩, lookahead⟩ := i
      obtain ⟨⟨production', dot'⟩, lookahead'⟩ := j
      simp_all [key]
    have hkey : ∀ i ∈ l, key i ∈ g.ruleIds ×ˢ (Symbol.endOfInput :: g.terminals.toList) := by
      intro i hi
      obtain ⟨ha, -, hne⟩ := h i hi
      exact List.mem_product.mpr ⟨Grammar.mem_ruleIds ha.production_mem hne,
        Grammar.mem_tokens (ha.isToken _ (by simp [Item.lookaheads]))⟩
    have hle := Grammar.length_le_of_keys hl hinj hkey
    simpa [Grammar.ruleIds, List.length_product] using hle

/-! ### Admissible items -/

namespace Grammar

variable {ι : Type} [PredictiveItem ι] [LawfulItem ι] {i j : ι}

theorem admissible_initial (g : Grammar) : g.Admissible (PredictiveItem.initial : ι) := by
  refine ⟨?_, ?_, LawfulItem.isToken_initial g⟩
  · rw [LawfulItem.core_initial]
    exact accept_mem
  · rw [LawfulItem.core_initial]
    simp [DottedRule.initial]

theorem Admissible.shifted (hi : g.Admissible i) (hx : (Item.core i).next? g = some x) :
    g.Admissible (PredictiveItem.shifted i) := by
  refine ⟨?_, ?_, ?_⟩
  · rw [LawfulItem.core_shifted]
    exact hi.production_mem
  · rw [LawfulItem.core_shifted, DottedRule.dot_shifted hx]
    exact DottedRule.dot_lt_of_next? hx
  · rw [LawfulItem.lookaheads_shifted]
    exact hi.isToken

theorem Belongs.predicted (hi : g.Belongs i) (h : g.Predicts i j) : g.Admissible j := by
  obtain ⟨⟨x, -, hp⟩, hd, hy⟩ := LawfulItem.of_predicts g i j hi h
  refine ⟨mem_of_head? (head?_of_mem_alternatives hp), ?_, hy⟩
  rw [hd]
  exact Nat.zero_le _

theorem Admissible.predicted (hi : g.Admissible i) (h : g.Predicts i j) : g.Admissible j :=
  hi.belongs.predicted h

end Grammar

end GrammarTables
