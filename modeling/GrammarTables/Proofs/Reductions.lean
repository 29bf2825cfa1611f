import GrammarTables.Proofs.Guides
import GrammarTables.Table.Basic

/-!
# Reductions never get stuck

Wherever a walk ends, a completed item there can be reduced: the walk ends with the body of its
production, and the state in front of the body has a transition on the head. This holds of all three
automata of a grammar.
-/

namespace GrammarTables

namespace Automaton

variable {ι : Type} [Item ι]

/-- Reducing by the item after the walk ends the parse or leads to another state. -/
def ReducesAfter (g : Grammar) (a : Automaton ι) (l : List Symbol) (c : DottedRule) : Prop :=
  c.production = .accept ∧ l = [g.start] ∨
    ∃ x front q s, g.head? c.production = some x ∧ l = front ++ g.body c.production ∧
      a.after? front = some q ∧ a.state? q = some s ∧
      (∃ i ∈ s.items, Item.core i = ⟨c.production, 0⟩) ∧ (s.next? x).isSome

/-- All completed items can be reduced, whatever walk leads to them. -/
def NeverStuck (g : Grammar) (a : Automaton ι) : Prop :=
  ∀ l q, a.after? l = some q →
    ∃ s, a.state? q = some s ∧ ∀ i ∈ s.completed g, a.ReducesAfter g l (Item.core i)

end Automaton

namespace CanonicalFor

variable {g : Grammar}

theorem reducesAfter {ι : Type} [PredictiveItem ι] [LawfulItem ι] {a : Automaton ι} {i : ι}
    {l : List Symbol} (h : CanonicalFor g a) (hi : g.Awaits l i)
    (hc : (Item.core i).isComplete g = true) : a.ReducesAfter g l (Item.core i) := by
  by_cases hp : (Item.core i).production = .accept
  · exact Or.inl ⟨hp, hi.eq_start_of_accept hp hc⟩
  · obtain ⟨front, j, hl, hj, hf⟩ := hi.exists_append_body hc
    obtain ⟨x, k, hx, hk, hkx⟩ := hf.exists_expects_head hj hp
    obtain ⟨q, s, hq, hs, hjs⟩ := h.exists_after_of_awaits hf
    have hks := (h.mem_items_iff hq hs).mpr hk
    exact Or.inr ⟨x, front, q, s, hx, hl, hq, hs, ⟨j, hjs, hj⟩,
      (h.isSome_next? q s hs x).mpr ⟨k, hks, hkx⟩⟩

theorem neverStuck {ι : Type} [PredictiveItem ι] [LawfulItem ι] {a : Automaton ι}
    (h : CanonicalFor g a) : a.NeverStuck g := by
  intro l q hl
  obtain ⟨s, hs⟩ := h.exists_state hl
  refine ⟨s, hs, fun i hi => ?_⟩
  obtain ⟨hi, hc⟩ := List.mem_filter.mp hi
  exact h.reducesAfter (h.awaits_of_mem hl hs hi) hc

section Merged

variable {a : Automaton LookaheadItem} {q : StateId} {s : State LookaheadItem}
  {S : State MergedItem} {c : DottedRule} {l : List Symbol}

theorem exists_core_mergeByCore_iff (h : CanonicalFor g a) (hs : a.state? q = some s)
    (hS : a.mergeByCore.state? (a.mergedId q) = some S) :
    (∃ m ∈ S.items, m.core = c) ↔ ∃ i ∈ s.items, i.core = c := by
  constructor
  · rintro ⟨m, hm, rfl⟩
    have hne := (Automaton.gathered_mergeByCore h.size_le hS).2.lookaheads_ne_nil m hm
    obtain ⟨y, hy⟩ := List.exists_mem_of_ne_nil _ hne
    obtain ⟨q', s', hs', hq, hi⟩ :=
      (Automaton.exists_lookahead_iff h.size_le hS).mp ⟨m, hm, rfl, hy⟩
    exact h.exists_item_of_sameKernelCores hs' hs
      ((Automaton.mergedId_eq_iff h.size_le hs' hs).mp hq) hi
  · rintro ⟨i, hi, rfl⟩
    obtain ⟨m, hm, hmc, -⟩ :=
      (Automaton.exists_lookahead_iff h.size_le hS).mpr ⟨q, s, hs, rfl, hi⟩
    exact ⟨m, hm, hmc⟩

theorem reducesAfter_mergeByCore (h : CanonicalFor g a) (hc : a.ReducesAfter g l c) :
    a.mergeByCore.ReducesAfter g l c := by
  refine hc.imp_right ?_
  rintro ⟨x, front, q, s, hx, hl, hq, hs, hi, hstep⟩
  obtain ⟨S, hS⟩ := Automaton.exists_state?_mergedId h.size_le hs
  refine ⟨x, front, a.mergedId q, S, hx, hl, ?_, hS,
    (h.exists_core_mergeByCore_iff hs hS).mpr hi, ?_⟩
  · rw [h.after?_mergeByCore, hq, Option.map_some]
  · rw [h.next?_mergeByCore hs hS, Option.isSome_map]
    exact hstep

theorem neverStuck_mergeByCore (h : CanonicalFor g a) : a.mergeByCore.NeverStuck g := by
  intro l q hl
  rw [h.after?_mergeByCore, Option.map_eq_some_iff] at hl
  obtain ⟨q, hl, rfl⟩ := hl
  obtain ⟨s, hs⟩ := h.exists_state hl
  obtain ⟨S, hS⟩ := Automaton.exists_state?_mergedId h.size_le hs
  refine ⟨S, hS, fun m hm => ?_⟩
  obtain ⟨hm, hc⟩ := List.mem_filter.mp hm
  -- the item may come from another member than the one on the walk, which has its core all the same
  have hmember : ∃ i ∈ s.items, Item.core i = Item.core m :=
    (h.exists_core_mergeByCore_iff hs hS).mp ⟨m, hm, rfl⟩
  obtain ⟨i, hi, hic⟩ := hmember
  rw [← hic] at hc ⊢
  exact h.reducesAfter_mergeByCore (h.reducesAfter (h.awaits_of_mem hl hs hi) hc)

end Merged

end CanonicalFor

namespace Grammar

/-- No reduction gets stuck in any automaton of a grammar. -/
theorem neverStuck_automata (g : Grammar) :
    (∀ a, g.lr0Automaton = .ok a → a.NeverStuck g) ∧
    (∀ a, g.lr1Automaton = .ok a → a.NeverStuck g) ∧
    ∀ a, g.lalr1Automaton = .ok a → a.NeverStuck g := by
  refine ⟨fun a ha => (canonicalFor_of_eq_ok ha).neverStuck,
    fun a ha => (canonicalFor_of_eq_ok ha).neverStuck, fun a ha => ?_⟩
  rw [lalr1Automaton, bind_eq_ok_iff] at ha
  obtain ⟨b, hb, hm⟩ := ha
  cases hm
  exact (canonicalFor_of_eq_ok hb).neverStuck_mergeByCore

theorem neverStuck_automata_nested : ∃ a b m, nested.lr0Automaton = .ok a ∧
    nested.lr1Automaton = .ok b ∧ nested.lalr1Automaton = .ok m ∧
    a.NeverStuck nested ∧ b.NeverStuck nested ∧ m.NeverStuck nested ∧
    m.ReducesAfter nested [.named "(", .named "x"] ⟨.ofIndex 1, 1⟩ := by
  obtain ⟨a, ha⟩ := exists_of_isOk (c := nested.lr0Automaton) (by decide +kernel)
  obtain ⟨b, hb⟩ := exists_of_isOk (c := nested.lr1Automaton) (by decide +kernel)
  obtain ⟨m, hm⟩ := exists_of_isOk (c := nested.lalr1Automaton) (by decide +kernel)
  obtain ⟨ha', hb', hm'⟩ := neverStuck_automata nested
  refine ⟨a, b, m, ha, hb, hm, ha' a ha, hb' b hb, hm' m hm, ?_⟩
  have hall (P : Automaton MergedItem → Bool) : nested.lalr1Automaton.toOption.any P = P m := by
    rw [hm]
    rfl
  have hread : _ = true := (hall fun m => (m.after? [.named "(", .named "x"]).any fun q =>
      (m.state? q).any fun s => (s.completed nested).any fun i =>
        decide (Item.core i = ⟨.ofIndex 1, 1⟩)).symm.trans (by decide +kernel)
  simp only [Option.any_eq_true, List.any_eq_true, decide_eq_true_eq] at hread
  obtain ⟨q, hq, s, hs, i, hi, hic⟩ := hread
  obtain ⟨s', hs', hreduce⟩ := hm' m hm _ q hq
  obtain rfl : s = s' := Option.some.inj (hs.symm.trans hs')
  rw [← hic]
  exact hreduce i hi

end Grammar

end GrammarTables
