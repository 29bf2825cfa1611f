import GrammarTables.Proofs.ErasedLookaheads
import GrammarTables.Proofs.MergedStates
import GrammarTables.Proofs.Verdicts

/-!
# The automaton of bare cores

If every nonterminal may vanish or begin with some terminal, the merged automaton without its
lookaheads is the automaton of bare cores, state by state and in the same order. So the tables with
FOLLOW sets and with merged lookaheads shift and go to the same states.
-/

namespace GrammarTables

/-! ### Changing the items of an automaton -/

section Map

variable {ι κ : Type} (f : ι → κ)

def State.map (s : State ι) : State κ where
  id := s.id
  kernel := s.kernel.map f
  items := s.items.map f
  transitions := s.transitions

namespace Automaton

def map (a : Automaton ι) : Automaton κ := ⟨a.states.map (State.map f)⟩

theorem state?_map (a : Automaton ι) (q : StateId) :
    (a.map f).state? q = (a.state? q).map (State.map f) :=
  Array.getElem?_map

theorem size_map (a : Automaton ι) : (a.map f).size = a.size := Array.size_map

theorem ext_state? {a b : Automaton ι} (ha : a.size ≤ 65536) (hsize : a.size = b.size)
    (h : ∀ q s, a.state? q = some s → b.state? q = some s) : a = b := by
  obtain ⟨states⟩ := a
  obtain ⟨states'⟩ := b
  congr 1
  apply Array.ext hsize
  intro i hi hi'
  have hindex : (StateId.ofIndex i).index = i :=
    StateId.index_ofIndex (Nat.lt_of_lt_of_le hi ha)
  have hs := h (.ofIndex i) states[i] (by rw [state?, hindex, Array.getElem?_eq_getElem hi])
  rw [state?, hindex, Array.getElem?_eq_getElem hi'] at hs
  exact (Option.some.inj hs).symm

end Automaton

end Map

/-! ### Merged states without lookaheads -/

private theorem map_core_mergeItems_cons {first : List LookaheadItem}
    {rest : List (List MergedItem)} (h : ∀ l ∈ rest, ∀ m ∈ l, ∃ i ∈ first, i.core = m.core) :
    (mergeItems (collapse first :: rest)).map MergedItem.core =
      (OrderedSet.ofList (first.map LookaheadItem.core)).toList := by
  have hrest : ∀ c ∈ rest.flatten.map MergedItem.core,
      c ∈ OrderedSet.ofList (first.map LookaheadItem.core) := by
    intro c hc
    obtain ⟨m, hm, rfl⟩ := List.mem_map.mp hc
    obtain ⟨l, hl, hml⟩ := List.mem_flatten.mp hm
    obtain ⟨i, hi, him⟩ := h l hl m hml
    exact OrderedSet.mem_ofList.mpr (List.mem_map.mpr ⟨i, hi, him⟩)
  rw [map_core_mergeItems, List.flatten_cons, List.map_append, map_core_collapse,
    OrderedSet.ofList, OrderedSet.insertMany_append, OrderedSet.insertMany_toList_ofList]
  exact congrArg OrderedSet.toList (OrderedSet.insertMany_of_forall_mem hrest)

private theorem kernelCores_collapse (s : State LookaheadItem) :
    s.collapse.kernelCores = coresOf s.kernel := by
  apply Ascending.ext (ascending_sortDistinct _) (ascending_sortDistinct _)
  intro c
  rw [mem_sortDistinct, mem_sortDistinct, List.mem_map, List.mem_map]
  exact exists_core_collapse

section

variable {g : Grammar} {a : Automaton LookaheadItem} {b : Automaton DottedRule}
  {e : Exploration (List LookaheadItem) (Expansion LookaheadItem)}
  {e' : Exploration (List DottedRule) (Expansion DottedRule)} {q q₀ : StateId}
  {s₀ : State LookaheadItem} {t : State DottedRule} {S : State MergedItem}

private theorem keys_coreClasses (he : Collects g e a) :
    (Automaton.coreClasses a.collapsed).keys = e.found.image coresOf := by
  rw [Automaton.coreClasses, OrderedMap.keys_group, OrderedSet.image, ← map_kernel_collected he,
    Automaton.collapsed, List.map_map, List.map_map, List.map_map]
  congr 2
  funext s
  exact kernelCores_collapse s

private theorem mergedId_position (he : Collects g e a) {kernel : List LookaheadItem}
    (hk : kernel ∈ e.found) : a.mergedId (.ofIndex ((e.found.position? kernel).getD 0)) =
      .ofIndex (((e.found.image coresOf).position? (coresOf kernel)).getD 0) := by
  obtain ⟨i, hi⟩ := Option.isSome_iff_exists.mp (OrderedSet.contains_iff.mpr hk)
  have hget := OrderedSet.position?_eq_some_iff.mp hi
  rw [OrderedSet.getElem?_toList] at hget
  obtain ⟨s, hs, rfl⟩ := exists_collected he hget
  rw [hi, Option.getD_some, Automaton.mergedId_eq hs, keys_coreClasses he, kernelCores_collapse]

private theorem transitions_core (he : Collects g e a) (he' : Collects g e' b)
    (hfound : e'.found = e.found.image coresOf) (hs₀ : a.state? q₀ = some s₀)
    (ht : b.state? q = some t)
    (hitems : t.items = (OrderedSet.ofList (s₀.items.map LookaheadItem.core)).toList) :
    t.transitions = s₀.transitions.map fun x => (x.1, a.mergedId x.2) := by
  obtain ⟨-, -, hmem, htrans⟩ := collected_spec he hs₀
  rw [(collected_spec he' ht).2.2.2, htrans, hitems, successors_core, List.map_map, List.map_map]
  apply List.map_congr_left
  intro x hx
  rw [Function.comp_apply, Function.comp_apply, mergedId_position he (hmem x.1 x.2 hx), hfound]

section Members

variable {members : List (State MergedItem)}
  (hmembers : ∀ t ∈ members, ∃ q' s', a.state? q' = some s' ∧ s'.SameKernelCores s₀ ∧
    t = s'.collapse)

include hmembers

private theorem map_core_kernels (hk : Ascending s₀.kernel) :
    (mergeItems ((s₀.collapse :: members).map State.kernel)).map MergedItem.core =
      coresOf s₀.kernel := by
  rw [← toList_ofList_map_core hk]
  apply map_core_mergeItems_cons
  intro l hl m hm
  obtain ⟨t, ht, rfl⟩ := List.mem_map.mp hl
  obtain ⟨q', s', -, hsame, rfl⟩ := hmembers t ht
  exact (hsame m.core).mp (exists_core_collapse.mp ⟨m, hm, rfl⟩)

private theorem map_core_items (h : CanonicalFor g a) (hs₀ : a.state? q₀ = some s₀) :
    (mergeItems ((s₀.collapse :: members).map State.items)).map MergedItem.core =
      (OrderedSet.ofList (s₀.items.map LookaheadItem.core)).toList := by
  apply map_core_mergeItems_cons
  intro l hl m hm
  obtain ⟨t, ht, rfl⟩ := List.mem_map.mp hl
  obtain ⟨q', s', hs', hsame, rfl⟩ := hmembers t ht
  obtain ⟨i, hi, him⟩ := exists_core_collapse.mp ⟨m, hm, rfl⟩
  rw [← him]
  exact h.exists_item_of_sameKernelCores hs' hs₀ hsame hi

end Members

private theorem state?_core (hg : g.Startable) (he : Collects g e a) (he' : Collects g e' b)
    (hfound : e'.found = e.found.image coresOf) (hS : a.mergeByCore.state? q = some S) :
    b.state? q = some (S.map MergedItem.core) := by
  have h : CanonicalFor g a := canonicalFor_of_eq_ok (canonical_eq_ok_iff.mpr ⟨e, he⟩)
  obtain ⟨q₀, s₀, members, hs₀, hq, hmembers, rfl⟩ := Automaton.exists_members h.size_le hS
  obtain ⟨hget, hc, -, -⟩ := collected_spec he hs₀
  have hin := OrderedSet.mem_of_get? hget
  have hk := ascending_collected he _ hin
  -- kernels of bare cores are found in the order in which the classes first occur
  have hget' : e'.found.get? q.index = some (coresOf s₀.kernel) := by
    have hp := Automaton.position?_kernelCores h.size_le hs₀
    rwa [keys_coreClasses he, kernelCores_collapse, hq, OrderedSet.position?_eq_some_iff,
      OrderedSet.getElem?_toList, ← hfound] at hp
  obtain ⟨t, ht, hkernel⟩ := exists_collected he' hget'
  rw [StateId.ofIndex_index] at ht
  have hitems : t.items = (OrderedSet.ofList (s₀.items.map LookaheadItem.core)).toList := by
    have hc' := (collected_spec he' ht).2.1
    rw [hkernel, hg.closure_core hk (admissible_collected he _ hin) hc] at hc'
    exact (Except.ok.inj hc').symm
  have hid := id_collected he' ht
  have htrans := transitions_core he he' hfound hs₀ ht hitems
  rw [ht, State.map, map_core_kernels hmembers hk, map_core_items hmembers h hs₀, ← hkernel,
    ← hitems, ← htrans, ← hid]

theorem Grammar.Startable.lr0Automaton_eq (hg : g.Startable) (ha : g.lr1Automaton = .ok a) :
    g.lr0Automaton = .ok (a.mergeByCore.map MergedItem.core) := by
  obtain ⟨e, he⟩ := canonical_eq_ok_iff.mp ha
  obtain ⟨e', b, he', hfound⟩ := hg.exists_collects he
  have hb : g.lr0Automaton = .ok b := canonical_eq_ok_iff.mpr ⟨e', he'⟩
  rw [hb]
  congr 1
  have hsize : (a.mergeByCore.map MergedItem.core).size = b.size := by
    have hkernels := congrArg List.length (map_kernel_collected he')
    rw [List.length_map, Array.length_toList, hfound, OrderedSet.length_toList,
      ← keys_coreClasses he, ← Automaton.size_mergeByCore] at hkernels
    exact (Automaton.size_map _ _).trans hkernels.symm
  symm
  apply Automaton.ext_state? _ hsize
  · intro q t ht
    rw [Automaton.state?_map] at ht
    obtain ⟨S, hS, rfl⟩ := Option.map_eq_some_iff.mp ht
    exact state?_core hg he he' hfound hS
  · rw [hsize]
    exact (canonicalFor_of_eq_ok hb).size_le

end

/-! ### Tables with the same shifts and gotos -/

/-- The rows belong to the same state, shift alike and go to the same states. -/
structure ActionRow.SameMoves (row row' : ActionRow) : Prop where
  state_eq : row.state = row'.state
  shift_eq : ∀ y, (row.actions.get? y).bind Actions.shift = (row'.actions.get? y).bind Actions.shift
  gotos_eq : row.gotos = row'.gotos

def ActionTable.SameMoves (table table' : ActionTable) : Prop :=
  List.Forall₂ ActionRow.SameMoves table.rows.toList table'.rows.toList

/-- Shifts and gotos do not depend on the items. -/
theorem ActionTable.sameMoves_map {ι κ : Type} [Item ι] [Item κ] (g : Grammar)
    (reduceOn : ι → List Symbol) (reduceOn' : κ → List Symbol) (f : ι → κ) (a : Automaton ι) :
    (ofAutomaton g reduceOn' (a.map f)).SameMoves (ofAutomaton g reduceOn a) := by
  rw [SameMoves, ofAutomaton, ofAutomaton, Automaton.map, Array.toList_map, Array.toList_map,
    Array.toList_map, List.map_map, List.forall₂_map_left_iff, List.forall₂_map_right_iff,
    List.forall₂_same]
  intro s _
  refine ⟨rfl, fun y => ?_, rfl⟩
  rw [Function.comp_apply, shift_actions, shift_actions]
  rfl

namespace Grammar

variable {g : Grammar} {a : Automaton LookaheadItem}

/-- If every nonterminal may vanish or begin with some terminal, the merged automaton without its
lookaheads is the automaton of bare cores, and the tables that are read off the two have the same
states, shifts and gotos. -/
theorem lr0Automaton_eq_map_core (ha : g.lr1Automaton = .ok a) :
    (g.unproductive = [] → g.Startable) ∧
      (g.Startable → g.lr0Automaton = .ok (a.mergeByCore.map MergedItem.core) ∧
        (g.checkAcyclic = .ok () → ∃ s l, g.table .slr1 = .ok (.action s) ∧
          g.table .lalr1 = .ok (.action l) ∧ s.SameMoves l)) := by
  refine ⟨startable_of_unproductive_eq_nil, fun hg => ?_⟩
  have hb := hg.lr0Automaton_eq ha
  refine ⟨hb, fun hacyclic => ?_⟩
  exact ⟨_, _, table_slr1_iff.mpr ⟨hacyclic, _, hb, rfl⟩,
    table_lalr1_iff.mpr ⟨hacyclic, a, ha, rfl⟩,
    ActionTable.sameMoves_map g Item.lookaheads g.followOn MergedItem.core a.mergeByCore⟩

theorem lr0Automaton_eq_map_core_nested : ∃ a, nested.lr1Automaton = .ok a ∧
    nested.lr0Automaton = .ok (a.mergeByCore.map MergedItem.core) ∧
    ∃ s l, nested.table .slr1 = .ok (.action s) ∧ nested.table .lalr1 = .ok (.action l) ∧
      s.SameMoves l := by
  obtain ⟨a, ha⟩ := exists_of_isOk (c := nested.lr1Automaton) (by decide +kernel)
  obtain ⟨hstartable, h⟩ := lr0Automaton_eq_map_core ha
  obtain ⟨hlr0, htables⟩ := h (hstartable (by decide +kernel))
  exact ⟨a, ha, hlr0, htables (by decide +kernel)⟩

end Grammar

end GrammarTables
