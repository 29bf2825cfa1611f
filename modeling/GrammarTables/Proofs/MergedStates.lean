import GrammarTables.Proofs.CanonicalCollection
import GrammarTables.Proofs.MergedLists
import GrammarTables.Table.Basic

/-!
# Merged states

The states of the automaton over items with one lookahead fall into classes by the cores of their
kernels, and every state has its place in the merged automaton. A merged state holds the items of all
its members, and it reads what any of its members reads. So the map that numbers the classes carries
the automaton onto the merged one, whichever member of a class lends its transitions.
-/

namespace GrammarTables

/-! ### Members of merged states -/

namespace State

def SameKernelCores (s t : State LookaheadItem) : Prop :=
  ∀ c, (∃ i ∈ s.kernel, i.core = c) ↔ ∃ i ∈ t.kernel, i.core = c

theorem SameKernelCores.symm {s t : State LookaheadItem} (h : s.SameKernelCores t) :
    t.SameKernelCores s :=
  fun c => (h c).symm

private theorem mem_kernelCores_collapse {s : State LookaheadItem} {c : DottedRule} :
    c ∈ s.collapse.kernelCores ↔ ∃ i ∈ s.kernel, i.core = c := by
  rw [kernelCores, mem_sortDistinct, List.mem_map]
  exact exists_core_collapse

private theorem kernelCores_collapse_eq_iff {s t : State LookaheadItem} :
    s.collapse.kernelCores = t.collapse.kernelCores ↔ s.SameKernelCores t := by
  constructor
  · intro h c
    rw [← mem_kernelCores_collapse, ← mem_kernelCores_collapse, h]
  · intro h
    apply Ascending.ext (ascending_sortDistinct _) (ascending_sortDistinct _)
    intro c
    change c ∈ s.collapse.kernelCores ↔ c ∈ t.collapse.kernelCores
    rw [mem_kernelCores_collapse, mem_kernelCores_collapse]
    exact h c

end State

theorem OrderedMap.getElem?_toList {κ ν : Type} [Ord κ] [Std.TransOrd κ] {m : OrderedMap κ ν}
    {i : Nat} {k : κ} {v : ν} :
    m.toList[i]? = some (k, v) ↔ m.keys.position? k = some i ∧ m.get? k = some v := by
  rw [toList, List.getElem?_zip_eq_some, OrderedSet.position?_eq_some_iff]
  apply and_congr_right
  intro hk
  rw [get?, OrderedSet.position?_eq_some_iff.mpr hk]
  simp

namespace Automaton

def collapsed (a : Automaton LookaheadItem) : List (State MergedItem) :=
  a.states.toList.map State.collapse

/-- The number of the merged state that a state belongs to. -/
def mergedId (a : Automaton LookaheadItem) (q : StateId) : StateId :=
  ((a.collapsed.map fun s =>
    StateId.ofIndex (((coreClasses a.collapsed).keys.position? s.kernelCores).getD 0)).toArray[
      q.index]?).getD q

variable {a : Automaton LookaheadItem} {q q' : StateId} {s s' : State LookaheadItem}
  {S : State MergedItem} {cores : List DottedRule} {members : List (State MergedItem)}

theorem mergedId_eq (hs : a.state? q = some s) : a.mergedId q =
    .ofIndex (((coreClasses a.collapsed).keys.position? s.collapse.kernelCores).getD 0) := by
  rw [state?] at hs
  simp [mergedId, collapsed, hs]

private theorem state?_mergeByCore : a.mergeByCore.state? q = some S ↔
    ∃ cores members, (coreClasses a.collapsed).toList[q.index]? = some (cores, members) ∧
      S = { id := .ofIndex q.index
            kernel := mergeItems (members.map State.kernel)
            items := mergeItems (members.map State.items)
            transitions := (members.head?.elim [] State.transitions).map fun e =>
              (e.1, a.mergedId e.2) } := by
  rw [state?, mergeByCore, List.getElem?_toArray, List.getElem?_map, List.getElem?_zipIdx,
    Option.map_eq_some_iff]
  simp only [Option.map_eq_some_iff, Prod.exists, Prod.mk.injEq, Nat.zero_add]
  constructor
  · intro h
    obtain ⟨_, _, _, ⟨cores, members, h, ⟨rfl, rfl⟩, rfl⟩, rfl⟩ := h
    exact ⟨cores, members, h, rfl⟩
  · intro h
    obtain ⟨cores, members, h, rfl⟩ := h
    exact ⟨cores, members, q.index, ⟨cores, members, h, ⟨rfl, rfl⟩, rfl⟩, rfl⟩

theorem members_eq (h : (coreClasses a.collapsed).get? cores = some members) :
    members = a.collapsed.filter (·.kernelCores = cores) ∧ members ≠ [] := by
  rw [coreClasses, OrderedMap.get?_group] at h
  split at h
  · rename_i hc
    cases h
    obtain ⟨e, he, rfl⟩ := List.mem_map.mp hc
    refine ⟨?_, List.ne_nil_of_mem (List.mem_map_of_mem (List.mem_filter.mpr ⟨he, by simp⟩))⟩
    simp [List.filter_map, Function.comp_def]
  · cases h

theorem mem_members_iff (ha : a.size ≤ 65536)
    (h : (coreClasses a.collapsed).get? cores = some members) : S ∈ members ↔
      ∃ q s, a.state? q = some s ∧ s.collapse.kernelCores = cores ∧ S = s.collapse := by
  rw [(members_eq h).1, List.mem_filter, collapsed, List.mem_map, decide_eq_true_eq]
  simp only [mem_states_iff ha]
  grind

private theorem size_keys_coreClasses_le : (coreClasses a.collapsed).keys.size ≤ a.size := by
  have hle := OrderedSet.size_ofList_le
    ((a.collapsed.map fun s => (s.kernelCores, s)).map Prod.fst)
  rwa [List.length_map, List.length_map, collapsed, List.length_map, Array.length_toList,
    ← OrderedMap.keys_group] at hle

theorem size_mergeByCore (a : Automaton LookaheadItem) :
    a.mergeByCore.size = (coreClasses a.collapsed).keys.size := by
  have hm := congrArg List.length (coreClasses a.collapsed).map_fst_toList
  rw [List.length_map, OrderedSet.length_toList, collapsed] at hm
  simp only [size, mergeByCore, List.size_toArray, List.length_map, List.length_zipIdx, hm]
  rfl

theorem size_mergeByCore_le : a.mergeByCore.size ≤ a.size := by
  rw [size_mergeByCore]
  exact size_keys_coreClasses_le

theorem position?_kernelCores (ha : a.size ≤ 65536) (hs : a.state? q = some s) :
    (coreClasses a.collapsed).keys.position? s.collapse.kernelCores =
      some (a.mergedId q).index := by
  have hm : s.collapse.kernelCores ∈ (coreClasses a.collapsed).keys := by
    rw [coreClasses, OrderedMap.keys_group, OrderedSet.mem_ofList, List.map_map]
    apply List.mem_map_of_mem
    exact List.mem_map_of_mem ((mem_states_iff ha).mpr ⟨q, hs⟩)
  obtain ⟨i, hi⟩ := Option.isSome_iff_exists.mp (OrderedSet.contains_iff.mpr hm)
  have hlt := (List.getElem?_eq_some_iff.mp (OrderedSet.position?_eq_some_iff.mp hi)).1
  have hle := size_keys_coreClasses_le (a := a)
  rw [OrderedSet.length_toList] at hlt
  rw [mergedId_eq hs, hi, Option.getD_some, StateId.index_ofIndex (by omega)]

private theorem state?_mergeByCore_iff (ha : a.size ≤ 65536) : a.mergeByCore.state? q = some S ↔
    ∃ q₀ s₀ members, a.state? q₀ = some s₀ ∧ a.mergedId q₀ = q ∧
      (coreClasses a.collapsed).get? s₀.collapse.kernelCores = some (s₀.collapse :: members) ∧
      S = { id := .ofIndex q.index
            kernel := mergeItems ((s₀.collapse :: members).map State.kernel)
            items := mergeItems ((s₀.collapse :: members).map State.items)
            transitions := s₀.transitions.map fun e => (e.1, a.mergedId e.2) } := by
  rw [state?_mergeByCore]
  simp only [OrderedMap.getElem?_toList]
  constructor
  · intro h
    obtain ⟨cores, members, ⟨hp, hg⟩, rfl⟩ := h
    obtain ⟨m, members, rfl⟩ := List.exists_cons_of_ne_nil (members_eq hg).2
    obtain ⟨q₀, s₀, hs₀, rfl, rfl⟩ := (mem_members_iff ha hg).mp List.mem_cons_self
    refine ⟨q₀, s₀, members, hs₀, ?_, hg, rfl⟩
    rw [mergedId_eq hs₀, hp, Option.getD_some, StateId.ofIndex_index]
  · intro h
    obtain ⟨q₀, s₀, members, hs₀, rfl, hg, rfl⟩ := h
    exact ⟨_, _, ⟨position?_kernelCores ha hs₀, hg⟩, rfl⟩

/-- States are merged if their kernels have the same cores. -/
theorem mergedId_eq_iff (ha : a.size ≤ 65536) (hs : a.state? q = some s)
    (hs' : a.state? q' = some s') : a.mergedId q = a.mergedId q' ↔ s.SameKernelCores s' := by
  have hp := position?_kernelCores ha hs
  have hp' := position?_kernelCores ha hs'
  rw [← State.kernelCores_collapse_eq_iff]
  constructor
  · intro h
    rw [h] at hp
    rw [OrderedSet.position?_eq_some_iff] at hp hp'
    exact Option.some.inj (hp.symm.trans hp')
  · intro h
    rw [mergedId_eq hs, mergedId_eq hs', h]

theorem mergedId_initial (hs : a.state? (.ofIndex 0) = some s) :
    a.mergedId (.ofIndex 0) = .ofIndex 0 := by
  obtain ⟨t, l, hl⟩ : ∃ t l, a.states.toList = t :: l := by
    apply List.exists_cons_of_ne_nil
    intro hn
    rw [state?, ← Array.getElem?_toList, hn] at hs
    cases hs
  have hst : s = t := by
    rw [state?, ← Array.getElem?_toList, hl] at hs
    exact (Option.some.inj hs).symm
  have hp : (coreClasses a.collapsed).keys.toList[0]? = some s.collapse.kernelCores := by
    rw [coreClasses, OrderedMap.keys_group, collapsed, hl, ← hst, OrderedSet.getElem?_toList]
    exact OrderedSet.get?_zero_ofList _ _
  rw [mergedId_eq hs, OrderedSet.position?_eq_some_iff.mpr hp, Option.getD_some]

theorem exists_state?_mergedId (ha : a.size ≤ 65536) (hs : a.state? q = some s) :
    ∃ S, a.mergeByCore.state? (a.mergedId q) = some S := by
  have hp := position?_kernelCores ha hs
  have hk : s.collapse.kernelCores ∈ (coreClasses a.collapsed).keys := by
    rw [← OrderedSet.contains_iff, OrderedSet.contains, hp]
    rfl
  obtain ⟨members, hg⟩ := Option.isSome_iff_exists.mp (OrderedMap.isSome_get?.mpr hk)
  exact ⟨_, state?_mergeByCore.mpr ⟨_, members, OrderedMap.getElem?_toList.mpr ⟨hp, hg⟩, rfl⟩⟩

/-- The members of a merged state have the same kernel cores as the first of them, whose transitions
it takes. -/
theorem exists_members (ha : a.size ≤ 65536) (hS : a.mergeByCore.state? q = some S) :
    ∃ q₀ s₀ members, a.state? q₀ = some s₀ ∧ a.mergedId q₀ = q ∧
      (∀ t ∈ members, ∃ q' s', a.state? q' = some s' ∧ s'.SameKernelCores s₀ ∧
        t = s'.collapse) ∧
      S = { id := q
            kernel := mergeItems ((s₀.collapse :: members).map State.kernel)
            items := mergeItems ((s₀.collapse :: members).map State.items)
            transitions := s₀.transitions.map fun e => (e.1, a.mergedId e.2) } := by
  obtain ⟨q₀, s₀, members, hs₀, hq, hg, rfl⟩ := (state?_mergeByCore_iff ha).mp hS
  refine ⟨q₀, s₀, members, hs₀, hq, fun t ht => ?_, by rw [StateId.ofIndex_index]⟩
  obtain ⟨q', s', hs', hc, rfl⟩ := (mem_members_iff ha hg).mp (List.mem_cons_of_mem _ ht)
  exact ⟨q', s', hs', State.kernelCores_collapse_eq_iff.mp hc, rfl⟩

theorem exists_member (ha : a.size ≤ 65536) (hS : a.mergeByCore.state? q = some S) :
    ∃ q₀ s₀, a.state? q₀ = some s₀ ∧ a.mergedId q₀ = q ∧
      S.transitions = s₀.transitions.map fun e => (e.1, a.mergedId e.2) := by
  obtain ⟨q₀, s₀, members, hs₀, hq, -, rfl⟩ := exists_members ha hS
  exact ⟨q₀, s₀, hs₀, hq, rfl⟩

theorem id_mergeByCore (ha : a.size ≤ 65536) (hS : a.mergeByCore.state? q = some S) :
    S.id = q := by
  obtain ⟨_, _, _, -, -, -, rfl⟩ := exists_members ha hS
  rfl

/-- A merged state holds the lookaheads of its members. -/
theorem exists_lookahead_iff (ha : a.size ≤ 65536) (hS : a.mergeByCore.state? q = some S)
    {c : DottedRule} {y : Symbol} : (∃ m ∈ S.items, m.core = c ∧ y ∈ m.lookaheads) ↔
      ∃ q' s', a.state? q' = some s' ∧ a.mergedId q' = q ∧ ⟨c, y⟩ ∈ s'.items := by
  obtain ⟨q₀, s₀, members, hs₀, rfl, hg, rfl⟩ := (state?_mergeByCore_iff ha).mp hS
  rw [exists_lookahead_mergeItems]
  constructor
  · intro h
    obtain ⟨items, hi, h⟩ := h
    obtain ⟨t, ht, rfl⟩ := List.mem_map.mp hi
    obtain ⟨q', s', hs', hc, rfl⟩ := (mem_members_iff ha hg).mp ht
    refine ⟨q', s', hs', ?_, exists_lookahead_collapse.mp h⟩
    rw [mergedId_eq hs', mergedId_eq hs₀, hc]
  · intro h
    obtain ⟨q', s', hs', hq, h⟩ := h
    have hc := State.kernelCores_collapse_eq_iff.mpr ((mergedId_eq_iff ha hs' hs₀).mp hq)
    refine ⟨s'.collapse.items, ?_, exists_lookahead_collapse.mpr h⟩
    exact List.mem_map_of_mem ((mem_members_iff ha hg).mpr ⟨q', s', hs', hc, rfl⟩)

theorem gathered_mergeByCore (ha : a.size ≤ 65536) (hS : a.mergeByCore.state? q = some S) :
    Gathered S.kernel ∧ Gathered S.items := by
  obtain ⟨q₀, s₀, members, -, -, hg, rfl⟩ := (state?_mergeByCore_iff ha).mp hS
  have hmember : ∀ t ∈ s₀.collapse :: members, ∃ s', t = State.collapse s' := by
    intro t ht
    obtain ⟨_, s', -, -, rfl⟩ := (mem_members_iff ha hg).mp ht
    exact ⟨s', rfl⟩
  constructor
  · apply gathered_mergeItems
    intro l hl
    obtain ⟨t, ht, rfl⟩ := List.mem_map.mp hl
    obtain ⟨s', rfl⟩ := hmember t ht
    exact gathered_collapse s'.kernel
  · apply gathered_mergeItems
    intro l hl
    obtain ⟨t, ht, rfl⟩ := List.mem_map.mp hl
    obtain ⟨s', rfl⟩ := hmember t ht
    exact gathered_collapse s'.items

end Automaton

/-! ### Walks through merged states -/

private theorem lookup_map_snd {β γ : Type} (f : β → γ) (l : List (Symbol × β)) (x : Symbol) :
    (l.map fun e => (e.1, f e.2)).lookup x = (l.lookup x).map f := by
  induction l with
  | nil => rfl
  | cons e l ih =>
    rw [List.map_cons, List.lookup_cons, List.lookup_cons, ih]
    cases x == e.1 <;> rfl

private theorem exists_begins {g : Grammar} {u : List Symbol} {a b y : Symbol}
    (h : g.Begins (u ++ [a]) y) (hb : g.IsToken b) : ∃ z, g.Begins (u ++ [b]) z := by
  rcases Grammar.begins_append.mp h with h | h
  · exact ⟨y, Grammar.begins_append.mpr (Or.inl h)⟩
  · exact ⟨b, Grammar.begins_append.mpr (Or.inr ⟨h.1, (Grammar.begins_token_iff hb).mpr rfl⟩)⟩

namespace CanonicalFor

variable {g : Grammar} {a : Automaton LookaheadItem} {q q' : StateId}
  {s s' : State LookaheadItem} {S : State MergedItem} {x : Symbol} {i : LookaheadItem}

theorem exists_item_of_sameKernelCores (h : CanonicalFor g a) (hs : a.state? q = some s)
    (hs' : a.state? q' = some s') (hc : s.SameKernelCores s') (hi : i ∈ s.items) :
    ∃ j ∈ s'.items, j.core = i.core := by
  have hall := closure_induction (h.closure_eq q s hs)
    (P := fun i => g.Admissible i ∧ ∃ j ∈ s'.items, j.core = i.core) ?_ ?_
  · exact (hall i hi).2
  · intro i hi
    obtain ⟨j, hj, hji⟩ := (hc i.core).mp ⟨i, hi, rfl⟩
    exact ⟨h.admissible_kernel q s hs i hi, j, mem_closure_of_mem (h.closure_eq q' s' hs') hj, hji⟩
  · intro i k hi hik
    obtain ⟨ha, j, hj, hji⟩ := hi
    refine ⟨ha.predicted hik, ?_⟩
    obtain ⟨x, rest, hr, hp, hd, hy⟩ := (LookaheadItem.predicts_iff ha).mp hik
    have haj := h.admissible hs' hj
    obtain ⟨z, hz⟩ := exists_begins hy (haj.isToken j.lookahead (by simp [Item.lookaheads]))
    refine ⟨⟨k.core, z⟩, h.mem_of_predicts hs' hj ?_, rfl⟩
    exact (LookaheadItem.predicts_iff haj).mpr ⟨x, rest, hji ▸ hr, hp, hd, hz⟩

theorem isSome_next?_of_sameKernelCores (h : CanonicalFor g a) (hs : a.state? q = some s)
    (hs' : a.state? q' = some s') (hc : s.SameKernelCores s') (hx : (s.next? x).isSome) :
    (s'.next? x).isSome := by
  obtain ⟨i, hi, hix⟩ := (h.isSome_next? q s hs x).mp hx
  obtain ⟨j, hj, hji⟩ := h.exists_item_of_sameKernelCores hs hs' hc hi
  exact (h.isSome_next? q' s' hs' x).mpr ⟨j, hj, (congrArg (·.next? g) hji).trans hix⟩

private theorem exists_kernelAfter (h : CanonicalFor g a) (hs : a.state? q = some s)
    (hs' : a.state? q' = some s') (hc : s.SameKernelCores s') {c : DottedRule}
    (hk : ∃ i ∈ kernelAfter g s.items x, i.core = c) :
    ∃ i ∈ kernelAfter g s'.items x, i.core = c := by
  obtain ⟨k, hk, rfl⟩ := hk
  obtain ⟨i, hi, hx, rfl⟩ := mem_kernelAfter.mp hk
  obtain ⟨j, hj, hji⟩ := h.exists_item_of_sameKernelCores hs hs' hc hi
  refine ⟨PredictiveItem.shifted j, ?_, congrArg DottedRule.shifted hji⟩
  exact mem_kernelAfter.mpr ⟨j, hj, (congrArg (·.next? g) hji).trans hx, rfl⟩

theorem map_next?_eq (h : CanonicalFor g a) (hs : a.state? q = some s)
    (hs' : a.state? q' = some s') (hc : s.SameKernelCores s') :
    (s.next? x).map a.mergedId = (s'.next? x).map a.mergedId := by
  have hiff : (s.next? x).isSome ↔ (s'.next? x).isSome :=
    ⟨h.isSome_next?_of_sameKernelCores hs hs' hc,
      h.isSome_next?_of_sameKernelCores hs' hs hc.symm⟩
  cases hx : s.next? x with
  | none =>
    have hx' : s'.next? x = none := by
      rw [← Option.not_isSome_iff_eq_none, ← hiff, hx]
      exact Bool.false_ne_true
    rw [hx']
  | some p =>
    obtain ⟨p', hx'⟩ := Option.isSome_iff_exists.mp (hiff.mp (by rw [hx]; rfl))
    obtain ⟨t, ht, hk⟩ := h.target q s hs x p hx
    obtain ⟨t', ht', hk'⟩ := h.target q' s' hs' x p' hx'
    rw [hx', Option.map_some, Option.map_some, Option.some.injEq,
      Automaton.mergedId_eq_iff h.size_le ht ht']
    intro c
    rw [hk, hk']
    exact ⟨exists_kernelAfter h hs hs' hc,
      exists_kernelAfter h hs' hs hc.symm⟩

theorem next?_mergeByCore (h : CanonicalFor g a) (hs : a.state? q = some s)
    (hS : a.mergeByCore.state? (a.mergedId q) = some S) :
    S.next? x = (s.next? x).map a.mergedId := by
  obtain ⟨q₀, s₀, hs₀, hq, ht⟩ := Automaton.exists_member h.size_le hS
  rw [State.next?, ht, lookup_map_snd]
  exact h.map_next?_eq hs₀ hs ((Automaton.mergedId_eq_iff h.size_le hs₀ hs).mp hq)

theorem step?_mergeByCore (h : CanonicalFor g a) (hs : a.state? q = some s) :
    a.mergeByCore.step? (a.mergedId q) x = (a.step? q x).map a.mergedId := by
  obtain ⟨S, hS⟩ := Automaton.exists_state?_mergedId h.size_le hs
  rw [Automaton.step?, Automaton.step?, hs, hS, Option.bind_some, Option.bind_some]
  exact h.next?_mergeByCore hs hS

/-- Walks go through the merged automaton as they go through the original one. -/
theorem after?_mergeByCore (h : CanonicalFor g a) (l : List Symbol) :
    a.mergeByCore.after? l = (a.after? l).map a.mergedId := by
  induction l using List.reverseRecOn with
  | nil =>
    obtain ⟨s, hs, -⟩ := h.initial
    rw [Automaton.after?_nil, Automaton.after?_nil, Option.map_some, Automaton.mergedId_initial hs]
  | append_singleton l x ih =>
    rw [Automaton.after?_concat, Automaton.after?_concat, ih]
    cases hl : a.after? l with
    | none => rfl
    | some q =>
      obtain ⟨s, hs⟩ := h.exists_state hl
      exact h.step?_mergeByCore hs

theorem nodup_transitions_mergeByCore (h : CanonicalFor g a)
    (hS : a.mergeByCore.state? q = some S) : (S.transitions.map Prod.fst).Nodup := by
  obtain ⟨q₀, s₀, hs₀, -, ht⟩ := Automaton.exists_member h.size_le hS
  rw [ht, List.map_map]
  exact h.nodup_transitions q₀ s₀ hs₀

end CanonicalFor

/-! ## Classes of states -/

namespace Automaton

/-- The map carries the states and transitions of one automaton onto those of another. -/
structure MapsOnto {ι κ : Type} (a : Automaton ι) (b : Automaton κ) (f : StateId → StateId) :
    Prop where
  initial : f (.ofIndex 0) = .ofIndex 0
  transitions : ∀ q s, a.state? q = some s →
    ∃ t, b.state? (f q) = some t ∧ ∀ x, t.next? x = (s.next? x).map f
  surjective : ∀ q t, b.state? q = some t → ∃ p s, a.state? p = some s ∧ f p = q

/-- Two states have items with the same cores, and they read the same symbols into states whose
kernels have the same cores. -/
structure Agree (a : Automaton LookaheadItem) (s t : State LookaheadItem) : Prop where
  cores : ∀ c, (∃ i ∈ s.items, i.core = c) ↔ ∃ i ∈ t.items, i.core = c
  symbols : ∀ x, (s.next? x).isSome ↔ (t.next? x).isSome
  targets : ∀ x p q, s.next? x = some p → t.next? x = some q →
    ∃ s' t', a.state? p = some s' ∧ a.state? q = some t' ∧ s'.SameKernelCores t'

end Automaton

namespace CanonicalFor

variable {g : Grammar} {a : Automaton LookaheadItem} {p q : StateId} {s t : State LookaheadItem}

theorem agree_of_sameKernelCores (h : CanonicalFor g a) (hs : a.state? p = some s)
    (ht : a.state? q = some t) (hc : s.SameKernelCores t) : a.Agree s t where
  cores c := by
    constructor
    · rintro ⟨i, hi, rfl⟩
      exact h.exists_item_of_sameKernelCores hs ht hc hi
    · rintro ⟨i, hi, rfl⟩
      exact h.exists_item_of_sameKernelCores ht hs hc.symm hi
  symbols x := by
    have hm := congrArg Option.isSome (h.map_next?_eq (x := x) hs ht hc)
    rw [Option.isSome_map, Option.isSome_map] at hm
    rw [hm]
  targets x p' q' hp hq := by
    obtain ⟨s', hs', -⟩ := h.target p s hs x p' hp
    obtain ⟨t', ht', -⟩ := h.target q t ht x q' hq
    refine ⟨s', t', hs', ht', ?_⟩
    have hm := h.map_next?_eq (x := x) hs ht hc
    rw [hp, hq, Option.map_some, Option.map_some, Option.some.injEq] at hm
    exact (Automaton.mergedId_eq_iff h.size_le hs' ht').mp hm

theorem mapsOnto_mergeByCore (h : CanonicalFor g a) : a.MapsOnto a.mergeByCore a.mergedId where
  initial := by
    obtain ⟨s, hs, -⟩ := h.initial
    exact Automaton.mergedId_initial hs
  transitions q s hs := by
    obtain ⟨t, ht⟩ := Automaton.exists_state?_mergedId h.size_le hs
    exact ⟨t, ht, fun x => h.next?_mergeByCore hs ht⟩
  surjective q t ht := by
    obtain ⟨p, s, hs, hp, -⟩ := Automaton.exists_member h.size_le ht
    exact ⟨p, s, hs, hp⟩

end CanonicalFor

namespace Grammar

/-- The merged automaton is the image of the LR(1) automaton: states whose kernels have the same
cores agree and become one state, which reads what each of them reads. -/
theorem mapsOnto_mergedId {g : Grammar} {a : Automaton LookaheadItem}
    (ha : g.lr1Automaton = .ok a) :
    (∀ p s q t, a.state? p = some s → a.state? q = some t →
      (s.SameKernelCores t → a.Agree s t) ∧
      (a.mergedId p = a.mergedId q ↔ s.SameKernelCores t)) ∧
    a.MapsOnto a.mergeByCore a.mergedId ∧
    (∀ q S, a.mergeByCore.state? q = some S → ∃ p s, a.state? p = some s ∧ a.mergedId p = q ∧
      S.transitions = s.transitions.map fun e => (e.1, a.mergedId e.2)) ∧
    a.mergeByCore.size ≤ a.size := by
  have h := canonicalFor_of_eq_ok ha
  refine ⟨?_, h.mapsOnto_mergeByCore, ?_, Automaton.size_mergeByCore_le⟩
  · intro p s q t hs ht
    exact ⟨h.agree_of_sameKernelCores hs ht, Automaton.mergedId_eq_iff h.size_le hs ht⟩
  · intro q S hS
    exact Automaton.exists_member h.size_le hS

/-- The states after one and after two opening parentheses become one state. -/
theorem mapsOnto_mergedId_nested : ∃ a s t, nested.lr1Automaton = .ok a ∧
    a.state? (.ofIndex 2) = some s ∧ a.state? (.ofIndex 5) = some t ∧
    s.SameKernelCores t ∧ a.Agree s t ∧ a.MapsOnto a.mergeByCore a.mergedId ∧
    a.mergeByCore.size ≤ a.size := by
  obtain ⟨a, ha⟩ := exists_of_isOk (c := nested.lr1Automaton) (by decide +kernel)
  have hall (P : Automaton LookaheadItem → Bool) :
      nested.lr1Automaton.toOption.any P = P a := by
    rw [ha]
    rfl
  have hs : (a.state? (.ofIndex 2)).isSome = true := by
    rw [← hall fun a => (a.state? (.ofIndex 2)).isSome]
    decide +kernel
  have ht : (a.state? (.ofIndex 5)).isSome = true := by
    rw [← hall fun a => (a.state? (.ofIndex 5)).isSome]
    decide +kernel
  have hm : decide (a.mergedId (.ofIndex 2) = a.mergedId (.ofIndex 5)) = true := by
    rw [← hall fun a => decide (a.mergedId (.ofIndex 2) = a.mergedId (.ofIndex 5))]
    decide +kernel
  obtain ⟨s, hs⟩ := Option.isSome_iff_exists.mp hs
  obtain ⟨t, ht⟩ := Option.isSome_iff_exists.mp ht
  obtain ⟨hclass, hmap, -, hsize⟩ := mapsOnto_mergedId ha
  obtain ⟨hagree, hiff⟩ := hclass _ s _ t hs ht
  have hc := hiff.mp (of_decide_eq_true hm)
  exact ⟨a, s, t, ha, hs, ht, hc, hagree hc, hmap, hsize⟩

end Grammar

end GrammarTables
