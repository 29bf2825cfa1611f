import Mathlib.Order.Bounds.Basic
import GrammarTables.Proofs.ErasedLookaheads
import GrammarTables.Proofs.Guides
import GrammarTables.Proofs.Reachability
import GrammarTables.Table.Basic

/-!
# Lookaheads of merged states

The lookaheads of the merged automaton can be described without the automaton that it was made
from: they are the least that hold the end of the input behind the initial item and are handed on by
prediction within a state and by transitions between states. A lookahead that some state carries for
the productions of a nonterminal follows the nonterminal. In a grammar without useless nonterminals
the converse holds too: every chain of rules that hands a token on into a FOLLOW set is walked
through by the automaton.
-/

namespace GrammarTables

namespace Automaton

/-- A family of items for the states of an automaton that is handed on within the states, by
prediction, and along the transitions. -/
structure Propagates (g : Grammar) (m : Automaton MergedItem)
    (family : StateId → LookaheadItem → Prop) : Prop where
  initial : family (.ofIndex 0) ⟨.initial, .endOfInput⟩
  predicted : ∀ q i j, family q i → g.Predicts i j → family q j
  shifted : ∀ q q' x i, family q i → i.core.next? g = some x → m.step? q x = some q' →
    family q' ⟨i.core.shifted, i.lookahead⟩

/-- The items that the states of an automaton stand for, one for each lookahead of a core. -/
def carried (m : Automaton MergedItem) (q : StateId) (i : LookaheadItem) : Prop :=
  m.Holds Item.lookaheads q i.core i.lookahead

private theorem Propagates.of_awaits {g : Grammar} {m : Automaton MergedItem}
    {family : StateId → LookaheadItem → Prop} (hf : m.Propagates g family) {l : List Symbol}
    {i : LookaheadItem} (hi : g.Awaits l i) {q : StateId} (hq : m.after? l = some q) :
    family q i := by
  induction hi generalizing q with
  | initial =>
    cases hq
    exact hf.initial
  | predict _ hij ih => exact hf.predicted q _ _ (ih hq) hij
  | shift _ hx ih =>
    obtain ⟨p, hp, hstep⟩ := after?_concat_eq_some.mp hq
    exact hf.shifted p q _ _ (ih hp) hx hstep

end Automaton

namespace CanonicalFor

variable {g : Grammar} {a : Automaton LookaheadItem}

private theorem propagates_carried (h : CanonicalFor g a) :
    a.mergeByCore.Propagates g a.mergeByCore.carried where
  initial := h.guides_mergeByCore.initial
  predicted q i j hi hij := by
    obtain ⟨p, rfl, hp⟩ := h.holds_mergeByCore_iff.mp hi
    obtain ⟨s, hs, hm⟩ := holds_iff.mp hp
    exact h.holds_mergedId (holds_iff.mpr ⟨s, hs, h.mem_of_predicts hs hm hij⟩)
  shifted q q' x i hi hx hq := by
    obtain ⟨p, rfl, hp⟩ := h.holds_mergeByCore_iff.mp hi
    obtain ⟨p', hstep, hp'⟩ := h.holds_shifted hp hx
    obtain ⟨s, hs, -⟩ := holds_iff.mp hp
    have he := h.step?_mergeByCore (x := x) hs
    rw [hq, hstep, Option.map_some, Option.some.injEq] at he
    rw [he]
    exact h.holds_mergedId hp'

private theorem family_of_carried (h : CanonicalFor g a)
    {family : StateId → LookaheadItem → Prop} (hf : a.mergeByCore.Propagates g family)
    {q : StateId} {i : LookaheadItem} (hi : a.mergeByCore.carried q i) : family q i := by
  obtain ⟨p, rfl, hp⟩ := h.holds_mergeByCore_iff.mp hi
  obtain ⟨s, hs, hm⟩ := holds_iff.mp hp
  obtain ⟨l, hl⟩ := h.reachable p s hs
  apply hf.of_awaits (h.awaits_of_mem hl hs hm)
  rw [h.after?_mergeByCore, hl, Option.map_some]

end CanonicalFor

namespace Grammar

/-- The lookaheads of the merged automaton are the least that are handed on, and they stand in
ascending order behind cores that occur once. -/
theorem isLeast_carried {g : Grammar} {a : Automaton LookaheadItem}
    (ha : g.lr1Automaton = .ok a) : ∃ m, g.lalr1Automaton = .ok m ∧
      IsLeast {family | m.Propagates g family} m.carried ∧
      ∀ q s, m.state? q = some s → Gathered s.kernel ∧ Gathered s.items := by
  have h := canonicalFor_of_eq_ok ha
  refine ⟨a.mergeByCore, bind_eq_ok_iff.mpr ⟨a, ha, rfl⟩, ⟨h.propagates_carried, ?_⟩,
    fun q s hs => Automaton.gathered_mergeByCore h.size_le hs⟩
  intro family hf q i hi
  exact h.family_of_carried hf hi

theorem isLeast_carried_nested : ∃ m, nested.lalr1Automaton = .ok m ∧
    IsLeast {family | m.Propagates nested family} m.carried ∧
    m.carried (.ofIndex 0) ⟨.initial, .endOfInput⟩ := by
  obtain ⟨a, ha⟩ := exists_of_isOk (c := nested.lr1Automaton) (by decide +kernel)
  obtain ⟨m, hm, hleast, -⟩ := isLeast_carried ha
  exact ⟨m, hm, hleast, hleast.1.initial⟩

end Grammar

variable {g : Grammar} {a : Automaton LookaheadItem} {x y : Symbol}

/-- Some state has an item for a production of the nonterminal with the lookahead. -/
def Automaton.Carries (g : Grammar) (a : Automaton LookaheadItem) (x y : Symbol) : Prop :=
  ∃ s ∈ a.states, ∃ i ∈ s.items, g.head? i.core.production = some x ∧ i.lookahead = y

namespace Grammar

/-! ### From lookaheads to FOLLOW sets -/

theorem mem_follow_of_carries (h : CanonicalFor g a) (hy : a.Carries g x y) : y ∈ g.follow x := by
  obtain ⟨s, hs, i, hi, hx, rfl⟩ := hy
  obtain ⟨q, hq⟩ := Automaton.exists_state?_of_mem h.size_le hs
  obtain ⟨l, hl⟩ := h.reachable q s hq
  exact (mem_followOn_iff hx).mp (h.awaits_of_mem hl hq hi).lookahead_mem_followOn

/-! ### From FOLLOW sets to lookaheads -/

/-- Each alternative of the nonterminal is awaited somewhere with the lookahead. -/
def AwaitsAll (g : Grammar) (x y : Symbol) : Prop :=
  ∀ p ∈ g.alternatives x, ∃ l, g.Awaits l (⟨⟨p, 0⟩, y⟩ : LookaheadItem)

theorem awaitsAll_start : g.AwaitsAll g.start .endOfInput := by
  intro p hp
  have hi : g.Awaits [] (⟨⟨.accept, 0⟩, .endOfInput⟩ : LookaheadItem) := .initial
  have hb : g.body .accept = [] ++ g.start :: [] := body_accept
  exact ⟨_, hi.descend hb hp ((begins_token_iff (Or.inr rfl)).mpr rfl)⟩

theorem AwaitsAll.descend {r : Rule} {u v : List Symbol} {z : Symbol} (h : g.AwaitsAll r.head y)
    (hr : r ∈ g.rules) (hb : r.body = u ++ x :: v) (hz : g.Begins (v ++ [y]) z) :
    g.AwaitsAll x z := by
  intro p hp
  obtain ⟨q, hq, hbody⟩ := exists_alternative hr
  obtain ⟨l, hl⟩ := h q hq
  exact ⟨_, hl.descend (hbody.trans hb) hp hz⟩

/-- Where no nonterminal is useless, the alternatives of each are awaited with some lookahead. -/
theorem exists_awaitsAll (hreach : g.unreachable = []) (hprod : g.unproductive = [])
    (hx : x ∈ g.nonterminals) : ∃ y, g.IsToken y ∧ g.AwaitsAll x y := by
  refine reachable_induction (P := fun x => ∃ y, g.IsToken y ∧ g.AwaitsAll x y) ?_ ?_
    (reachable_of_unreachable_eq_nil hreach hx)
  · exact ⟨.endOfInput, Or.inr rfl, awaitsAll_start⟩
  · intro r hr _ ih x hx
    obtain ⟨y, hy, hall⟩ := ih
    obtain ⟨u, v, hb⟩ := List.append_of_mem hx
    obtain ⟨z, hz⟩ := (startable_of_unproductive_eq_nil hprod).exists_begins
      (u := v) (fun w hw => mem_terminals_or_nonterminals hr (by simp [hb, hw])) hy
    exact ⟨z, hz.1, hall.descend hr hb hz⟩

theorem awaitsAll_of_mem_follow (hreach : g.unreachable = []) (hprod : g.unproductive = [])
    (hy : y ∈ g.follow x) : g.AwaitsAll x y := by
  refine (follow_induction (P := fun x y => g.IsToken y ∧ g.AwaitsAll x y) ?_ ?_ ?_ hy).2
  · exact ⟨Or.inr rfl, awaitsAll_start⟩
  · intro r hr u x v y hb hv
    obtain ⟨z, -, hall⟩ := exists_awaitsAll hreach hprod (head_mem_nonterminals hr)
    exact ⟨hv.1, hall.descend hr hb (begins_append.mpr (Or.inl hv))⟩
  · intro r hr u x v y hb hv ih
    obtain ⟨ht, hall⟩ := ih
    refine ⟨ht, hall.descend hr hb (begins_append.mpr (Or.inr ⟨hv, ?_⟩))⟩
    exact (begins_token_iff ht).mpr rfl

theorem carries_of_mem_follow (h : CanonicalFor g a) (hreach : g.unreachable = [])
    (hprod : g.unproductive = []) (hx : x ∈ g.nonterminals) (hy : y ∈ g.follow x) :
    a.Carries g x y := by
  obtain ⟨r, hr, rfl⟩ := mem_nonterminals.mp hx
  obtain ⟨p, hp, -⟩ := exists_alternative hr
  obtain ⟨l, hl⟩ := awaitsAll_of_mem_follow hreach hprod hy p hp
  obtain ⟨q, s, -, hs, hi⟩ := h.exists_after_of_awaits hl
  have hmem := (Automaton.mem_states_iff h.size_le).mpr ⟨q, hs⟩
  exact ⟨s, Array.mem_toList_iff.mp hmem, _, hi, head?_of_mem_alternatives hp, rfl⟩

/-- The lookaheads that the automaton carries for a nonterminal are in its FOLLOW set, and are all
of it in a grammar without useless nonterminals. -/
theorem carries_iff_mem_followSets (h : g.lr1Automaton = .ok a) (hx : x ∈ g.nonterminals) :
    ∃ follow, (g.followSets g.firstTable).get? x = some follow ∧
      (∀ y, a.Carries g x y → y ∈ follow) ∧
      (g.unreachable = [] → g.unproductive = [] → ∀ y, a.Carries g x y ↔ y ∈ follow) := by
  have hc := canonicalFor_of_eq_ok h
  refine ⟨g.follow x, get?_followSets hx, fun y => mem_follow_of_carries hc, ?_⟩
  intro hreach hprod y
  exact ⟨mem_follow_of_carries hc, carries_of_mem_follow hc hreach hprod hx⟩

/-- A closing parenthesis may come after a nested `S`. -/
theorem carries_iff_mem_followSets_nested : ∃ a, nested.lr1Automaton = .ok a ∧
    a.Carries nested (.named "S") (.named ")") := by
  obtain ⟨a, ha⟩ := exists_of_isOk (c := nested.lr1Automaton) (by decide +kernel)
  obtain ⟨follow, hf, -, heq⟩ := carries_iff_mem_followSets ha (x := .named "S") (by decide +kernel)
  refine ⟨a, ha, (heq (by decide +kernel) (by decide +kernel) _).mpr ?_⟩
  have hm : ((nested.followSets nested.firstTable).get? (.named "S")).any
      (fun s => s.contains (.named ")")) = true := by decide +kernel
  rw [hf] at hm
  exact OrderedSet.contains_iff.mp hm

end Grammar

end GrammarTables
