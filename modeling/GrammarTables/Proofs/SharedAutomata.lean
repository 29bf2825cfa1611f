import GrammarTables.Proofs.BreadthFirst
import GrammarTables.Proofs.SharedItems
import GrammarTables.Proofs.WalkKernels

/-!
# Automata of grammars that agree

Grammars that agree on reachable symbols have automata with the same walks, and two walks end in the
same state in both or in neither. So either both automata can be built, with equally many states, or
none can (`map_size_canonical`); the same holds of the merged automata.
-/

namespace GrammarTables.Grammar

variable {ι : Type} [PredictiveItem ι] [SharedItem ι] {g h : Grammar} {l l' : List Symbol}

namespace AgreeReachable

/-! ### The same walks -/

/-- What two walks have in common in one grammar they have in common in the other. -/
theorem awaits_iff (hgh : g.AgreeReachable h) (hl : ∀ i : ι, g.Awaits l i ↔ g.Awaits l' i) (j : ι) :
    h.Awaits l j ↔ h.Awaits l' j := by
  have hsub {l l' : List Symbol} (hl : ∀ i : ι, g.Awaits l i → g.Awaits l' i)
      (hj : h.Awaits l j) : h.Awaits l' j := by
    obtain ⟨i, hi, hij⟩ := hj.exists_outline hgh.symm
    obtain ⟨k, hk, hik⟩ := (hl i hi).exists_outline hgh
    rw [hj.eq_of_outline hk (hij.trans hik)]
    exact hk
  exact ⟨hsub fun i => (hl i).mp, hsub fun i => (hl i).mpr⟩

theorem exists_awaits_iff (hgh : g.AgreeReachable h) :
    (∃ i : ι, g.Awaits l i) ↔ ∃ j : ι, h.Awaits l j := by
  constructor
  · rintro ⟨i, hi⟩
    obtain ⟨j, hj, -⟩ := hi.exists_outline hgh
    exact ⟨j, hj⟩
  · rintro ⟨j, hj⟩
    obtain ⟨i, hi, -⟩ := hj.exists_outline hgh.symm
    exact ⟨i, hi⟩

theorem sameCores_iff (hgh : g.AgreeReachable h) : g.SameCores l l' ↔ h.SameCores l l' := by
  have hsub {g h : Grammar} {l l' : List Symbol} (hgh : g.AgreeReachable h) (hc : g.SameCores l l')
      {c : DottedRule} : (∃ j : LookaheadItem, h.Awaits l j ∧ j.core = c) →
        ∃ j : LookaheadItem, h.Awaits l' j ∧ j.core = c := by
    rintro ⟨j, hj, rfl⟩
    obtain ⟨i, hi, hij⟩ := hj.exists_outline hgh.symm
    obtain ⟨i', hi', hc'⟩ := (hc i.core).mp ⟨i, hi, rfl⟩
    obtain ⟨j', hj', hij'⟩ := hi'.exists_outline hgh
    refine ⟨j', hj', hj'.core_eq_of_outline hj ?_⟩
    have ho : g.outline (Item.core i) = g.outline (Item.core i') := congrArg g.outline hc'.symm
    rw [← outline_core_eq hij', ← ho]
    exact (outline_core_eq hij).symm
  exact ⟨fun hc c => ⟨hsub hgh hc, hsub hgh fun c => (hc c).symm⟩,
    fun hc c => ⟨hsub hgh.symm hc, hsub hgh.symm fun c => (hc c).symm⟩⟩

theorem exists_after?_iff (hgh : g.AgreeReachable h) {a b : Automaton ι} (ha : CanonicalFor g a)
    (hb : CanonicalFor h b) : (∃ q, a.after? l = some q) ↔ ∃ q, b.after? l = some q := by
  rw [ha.exists_after?_iff, hb.exists_after?_iff, hgh.exists_awaits_iff]

end AgreeReachable

/-! ### Counting states -/

private theorem length_le_of_places {α : Type} {l : List α} {n : Nat} {R : α → Nat → Prop}
    (hn : l.Nodup) (hplace : ∀ a ∈ l, ∃ i < n, R a i)
    (hinj : ∀ a ∈ l, ∀ b ∈ l, ∀ i, R a i → R b i → a = b) : l.length ≤ n := by
  choose! place hlt hat using hplace
  have hplace : ∀ a ∈ l, ∀ b ∈ l, place a = place b → a = b := by
    intro a ha b hb hab
    have hb' := hat b hb
    rw [← hab] at hb'
    exact hinj a ha b hb _ (hat a ha) hb'
  have hle := length_le_of_keys hn hplace fun a ha => List.mem_range.mpr (hlt a ha)
  rwa [List.length_range] at hle

private theorem index_lt_size {κ : Type} {a : Automaton κ} {q : StateId} {s : State κ}
    (hs : a.state? q = some s) : q.index < a.size :=
  (Array.getElem?_eq_some_iff.mp hs).1

namespace AgreeReachable

private theorem size_found_le (hgh : g.AgreeReachable h) {a : Automaton ι} (ha : CanonicalFor g a)
    {e : Exploration (List ι) (Expansion ι)} {cap : Nat}
    (hr : Exploration.run (expand h h.firstTable) cap [[PredictiveItem.initial]] = .ok e) :
    e.found.size ≤ a.size := by
  refine length_le_of_places (OrderedSet.nodup_toList e.found)
    (R := fun kernel i => ∃ l, KernelAfter h l kernel ∧ a.after? l = some (.ofIndex i)) ?_ ?_
  · intro kernel hk
    obtain ⟨-, l, hl⟩ := KernelAfter.exists_of_found hr kernel hk
    obtain ⟨j, hj⟩ := hl.nonempty
    have hj := ((hl.mem_iff j).mp hj).1
    obtain ⟨q, hq⟩ := ha.exists_after?_iff.mpr (hgh.exists_awaits_iff.mpr ⟨j, hj⟩)
    obtain ⟨s, hs⟩ := ha.exists_state hq
    exact ⟨q.index, index_lt_size hs, l, hl, by rw [StateId.ofIndex_index, hq]⟩
  · rintro kernel hk kernel' hk' i ⟨l, hl, hq⟩ ⟨l', hl', hq'⟩
    exact hl.eq_of_awaits hl' (KernelAfter.exists_of_found hr kernel hk).1
      (KernelAfter.exists_of_found hr kernel' hk').1
      (hgh.awaits_iff fun _ => ha.awaits_iff_of_after? hq hq')

private theorem exists_canonical (hgh : g.AgreeReachable h) {a : Automaton ι}
    (ha : canonical ι g g.firstTable = .ok a) :
    ∃ b, canonical ι h h.firstTable = .ok b ∧ b.size ≤ a.size := by
  have hc := canonicalFor_of_eq_ok ha
  obtain ⟨e, he⟩ := exists_search ι h
  have hle := hgh.size_found_le hc he
  have hb : Collects h e ⟨(statesOf e).toArray⟩ := ⟨he, Nat.le_trans hle hc.size_le, rfl⟩
  exact ⟨_, canonical_eq_ok_iff.mpr ⟨e, hb⟩, by rw [size_collected hb]; exact hle⟩

/-- The automata are both built, with equally many states, or both refused. -/
theorem map_size_canonical (ι : Type) [PredictiveItem ι] [SharedItem ι] (hgh : g.AgreeReachable h) :
    (canonical ι g g.firstTable).map Automaton.size =
      (canonical ι h h.firstTable).map Automaton.size := by
  rcases exists_canonical_or ι g with ⟨a, ha⟩ | ha
  · obtain ⟨b, hb, hle⟩ := hgh.exists_canonical ha
    obtain ⟨a', ha', hle'⟩ := hgh.symm.exists_canonical hb
    obtain rfl : a = a' := Except.ok.inj (ha.symm.trans ha')
    rw [ha, hb]
    exact congrArg Except.ok (Nat.le_antisymm hle' hle)
  · rcases exists_canonical_or ι h with ⟨b, hb⟩ | hb
    · obtain ⟨a, ha', -⟩ := hgh.symm.exists_canonical hb
      rw [ha] at ha'
      cases ha'
    · rw [ha, hb]

/-! ### Merged automata -/

theorem mergedId_eq (hgh : g.AgreeReachable h) {a b : Automaton LookaheadItem}
    (ha : CanonicalFor g a) (hb : CanonicalFor h b) {p p' q q' : StateId}
    (hp : a.after? l = some p) (hp' : a.after? l' = some p') (hq : b.after? l = some q)
    (hq' : b.after? l' = some q') (hm : a.mergedId p = a.mergedId p') :
    b.mergedId q = b.mergedId q' := by
  obtain ⟨s, hs⟩ := ha.exists_state hp
  obtain ⟨s', hs'⟩ := ha.exists_state hp'
  obtain ⟨t, ht⟩ := hb.exists_state hq
  obtain ⟨t', ht'⟩ := hb.exists_state hq'
  rw [Automaton.mergedId_eq_iff hb.size_le ht ht', hb.sameKernelCores_iff hq ht hq' ht',
    ← hgh.sameCores_iff, ← ha.sameKernelCores_iff hp hs hp' hs']
  exact (Automaton.mergedId_eq_iff ha.size_le hs hs').mp hm

private theorem exists_merged_state {a : Automaton LookaheadItem} (ha : CanonicalFor g a) {i : Nat}
    (hi : i < a.mergeByCore.size) : ∃ S, a.mergeByCore.state? (.ofIndex i) = some S ∧
      (StateId.ofIndex i).index = i := by
  have hindex : (StateId.ofIndex i).index = i :=
    StateId.index_ofIndex (Nat.lt_of_lt_of_le hi (Nat.le_trans Automaton.size_mergeByCore_le
      ha.size_le))
  exact ⟨_, by rw [Automaton.state?, hindex, Array.getElem?_eq_getElem hi], hindex⟩

private theorem size_merged_le (hgh : g.AgreeReachable h) {a b : Automaton LookaheadItem}
    (ha : CanonicalFor g a) (hb : CanonicalFor h b) : b.mergeByCore.size ≤ a.mergeByCore.size := by
  have hle := length_le_of_places (l := List.range b.mergeByCore.size) (n := a.mergeByCore.size)
    (R := fun i j => ∃ l p q, a.after? l = some p ∧ b.after? l = some q ∧
      a.mergedId p = .ofIndex j ∧ b.mergedId q = .ofIndex i) List.nodup_range ?_ ?_
  · rwa [List.length_range] at hle
  · intro i hi
    obtain ⟨S, hS, -⟩ := exists_merged_state hb (List.mem_range.mp hi)
    obtain ⟨l, q, hq, hqi⟩ := hb.exists_after?_mergedId hS
    obtain ⟨p, hp⟩ := (hgh.exists_after?_iff ha hb).mpr ⟨q, hq⟩
    obtain ⟨s, hs⟩ := ha.exists_state hp
    obtain ⟨T, hT⟩ := Automaton.exists_state?_mergedId ha.size_le hs
    exact ⟨_, index_lt_size hT, l, p, q, hp, hq, (StateId.ofIndex_index _).symm, hqi⟩
  · rintro i hi i' hi' j ⟨l, p, q, hp, hq, hpj, hqi⟩ ⟨l', p', q', hp', hq', hpj', hqi'⟩
    have heq := hgh.mergedId_eq ha hb hp hp' hq hq' (hpj.trans hpj'.symm)
    rw [hqi, hqi'] at heq
    obtain ⟨-, -, hi⟩ := exists_merged_state hb (List.mem_range.mp hi)
    obtain ⟨-, -, hi'⟩ := exists_merged_state hb (List.mem_range.mp hi')
    rw [← hi, heq, hi']

theorem map_size_lalr1Automaton (hgh : g.AgreeReachable h) :
    g.lalr1Automaton.map Automaton.size = h.lalr1Automaton.map Automaton.size := by
  have hlr1 := hgh.map_size_canonical LookaheadItem
  change g.lr1Automaton.map _ = h.lr1Automaton.map _ at hlr1
  rw [lalr1Automaton, lalr1Automaton]
  cases ha : g.lr1Automaton with
  | error err =>
    cases hb : h.lr1Automaton with
    | error err' =>
      rw [ha, hb] at hlr1
      exact hlr1
    | ok b =>
      rw [ha, hb] at hlr1
      cases hlr1
  | ok a =>
    cases hb : h.lr1Automaton with
    | error err =>
      rw [ha, hb] at hlr1
      cases hlr1
    | ok b =>
      have ha := canonicalFor_of_eq_ok ha
      have hb := canonicalFor_of_eq_ok hb
      exact congrArg Except.ok (Nat.le_antisymm (hgh.symm.size_merged_le hb ha)
        (hgh.size_merged_le ha hb))

end AgreeReachable

end GrammarTables.Grammar
