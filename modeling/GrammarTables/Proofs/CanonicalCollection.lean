import Mathlib.Data.List.Induction
import GrammarTables.Automaton
import GrammarTables.Proofs.ItemClosure
import GrammarTables.Proofs.Outcomes

/-!
# The canonical collection

A state of the automaton is reached by reading symbols from the initial state. Its items are exactly
those that the grammar awaits after these symbols: the initial item, what awaited items predict, and
awaited items moved over the next symbol (`mem_items_iff`).
-/

namespace GrammarTables

namespace StateId

theorem index_ofIndex {i : Nat} (h : i < 65536) : (StateId.ofIndex i).index = i :=
  UInt16.toNat_ofNat_of_lt' h

@[simp] theorem ofIndex_index (q : StateId) : StateId.ofIndex q.index = q := by
  obtain ⟨word⟩ := q
  exact congrArg StateId.mk UInt16.ofNat_toNat

end StateId

theorem lookup_eq_some_iff_mem {β : Type} {l : List (Symbol × β)} (h : (l.map Prod.fst).Nodup)
    {x : Symbol} {y : β} : l.lookup x = some y ↔ (x, y) ∈ l := by
  induction l with
  | nil => simp
  | cons e l ih =>
    obtain ⟨z, w⟩ := e
    rw [List.map_cons, List.nodup_cons] at h
    rw [List.lookup_cons, List.mem_cons, Prod.mk.injEq]
    by_cases hx : x = z
    · subst hx
      have hn : (x, y) ∉ l := fun hm => h.1 (List.mem_map.mpr ⟨_, hm, rfl⟩)
      simp [hn, eq_comm]
    · have hb : (x == z) = false := by simpa using hx
      simp [hb, hx, ih h.2]

/-! ### Successors of item lists -/

section Successors

variable {ι : Type} [PredictiveItem ι] {g : Grammar} {items : List ι} {x : Symbol}

def kernelAfter (g : Grammar) (items : List ι) (x : Symbol) : List ι :=
  sortDistinct (((shiftedItems g items).filter (·.1 = x)).map Prod.snd)

private theorem mem_shiftedItems {j : ι} : (x, j) ∈ shiftedItems g items ↔
    ∃ i ∈ items, (Item.core i).next? g = some x ∧ j = PredictiveItem.shifted i := by
  simp only [shiftedItems, List.mem_filterMap, Option.map_eq_some_iff, Prod.mk.injEq]
  grind

theorem mem_kernelAfter {j : ι} : j ∈ kernelAfter g items x ↔
    ∃ i ∈ items, (Item.core i).next? g = some x ∧ j = PredictiveItem.shifted i := by
  rw [kernelAfter, mem_sortDistinct, ← mem_shiftedItems]
  simp

/-- The symbols that items expect, in order of first occurrence, each with the kernel after it. -/
theorem successors_eq : successors g items =
    (OrderedSet.ofList ((shiftedItems g items).map Prod.fst)).toList.map fun x =>
      (x, kernelAfter g items x) := by
  rw [successors, OrderedMap.toList_eq_filterMap, OrderedMap.keys_mapValues, OrderedMap.keys_group]
  refine (List.filterMap_congr fun x hx => ?_).trans (congrFun List.filterMap_eq_map _)
  rw [OrderedSet.mem_toList, OrderedSet.mem_ofList] at hx
  rw [OrderedMap.get?_mapValues, OrderedMap.get?_group, if_pos hx]
  rfl

theorem mem_successors {k : List ι} : (x, k) ∈ successors g items ↔
    (∃ i ∈ items, (Item.core i).next? g = some x) ∧ k = kernelAfter g items x := by
  have hkeys : x ∈ (shiftedItems g items).map Prod.fst ↔
      ∃ i ∈ items, (Item.core i).next? g = some x := by
    simp [mem_shiftedItems]
  rw [successors_eq, ← hkeys, List.mem_map]
  simp only [OrderedSet.mem_toList, OrderedSet.mem_ofList, Prod.mk.injEq]
  grind

private theorem nodup_successors : ((successors g items).map Prod.fst).Nodup := by
  have hid : Prod.fst ∘ (fun x => (x, kernelAfter g items x)) = id := rfl
  rw [successors_eq, List.map_map, hid, List.map_id]
  exact OrderedSet.nodup_toList _

theorem successors?_eq_ok
    (h : ∀ i ∈ items, (Item.core i).production ∈ g) :
    successors? g items = .ok (successors g items) := by
  have hnone : items.find? (fun i => (Item.core i).production ∉ g) = none := by
    rw [List.find?_eq_none]
    intro i hi
    simpa using h i hi
  rw [successors?, hnone]

end Successors

/-! ### Walks through an automaton -/

namespace Automaton

variable {ι : Type} (a : Automaton ι)

def step? (q : StateId) (x : Symbol) : Option StateId := (a.state? q).bind fun s => s.next? x

/-- The state after some symbols, read from the initial state. -/
def after? (symbols : List Symbol) : Option StateId := symbols.foldlM a.step? (.ofIndex 0)

variable {a}

theorem mem_states_iff (ha : a.size ≤ 65536) {s : State ι} :
    s ∈ a.states.toList ↔ ∃ q, a.state? q = some s := by
  rw [Array.mem_toList_iff, Array.mem_iff_getElem?]
  constructor
  · intro h
    obtain ⟨i, hi⟩ := h
    have hlt := (Array.getElem?_eq_some_iff.mp hi).1
    rw [size] at ha
    exact ⟨.ofIndex i, by rw [state?, StateId.index_ofIndex (by omega), hi]⟩
  · intro h
    obtain ⟨q, hq⟩ := h
    exact ⟨q.index, hq⟩

theorem exists_state?_of_mem (ha : a.size ≤ 65536) {s : State ι} (hs : s ∈ a.states) :
    ∃ q, a.state? q = some s :=
  (mem_states_iff ha).mp (Array.mem_toList_iff.mpr hs)

@[simp] theorem after?_nil : a.after? [] = some (.ofIndex 0) := rfl

theorem after?_concat {l : List Symbol} {x : Symbol} :
    a.after? (l ++ [x]) = (a.after? l).bind fun q => a.step? q x := by
  simp [after?, List.foldlM_append]

theorem after?_concat_eq_some {l : List Symbol} {x : Symbol} {q' : StateId} :
    a.after? (l ++ [x]) = some q' ↔ ∃ q, a.after? l = some q ∧ a.step? q x = some q' := by
  rw [after?_concat, Option.bind_eq_some_iff]

theorem exists_after?_of_append {l m : List Symbol} {q : StateId}
    (h : a.after? (l ++ m) = some q) : ∃ q', a.after? l = some q' := by
  rw [after?, List.foldlM_append] at h
  obtain ⟨q', hq', -⟩ := Option.bind_eq_some_iff.mp h
  exact ⟨q', hq'⟩

theorem step?_eq_some {q q' : StateId} {x : Symbol} :
    a.step? q x = some q' ↔ ∃ s, a.state? q = some s ∧ s.next? x = some q' := by
  rw [step?, Option.bind_eq_some_iff]

end Automaton

/-- What makes an automaton the canonical collection of a grammar. -/
structure CanonicalFor {ι : Type} [PredictiveItem ι] (g : Grammar) (a : Automaton ι) : Prop where
  size_le : a.size ≤ 65536
  initial : ∃ s, a.state? (.ofIndex 0) = some s ∧ s.kernel = [PredictiveItem.initial]
  admissible_kernel : ∀ q s, a.state? q = some s → ∀ i ∈ s.kernel, g.Admissible i
  closure_eq : ∀ q s, a.state? q = some s → closure g g.firstTable s.kernel = .ok s.items
  nodup_transitions : ∀ q s, a.state? q = some s → (s.transitions.map Prod.fst).Nodup
  isSome_next? : ∀ q s, a.state? q = some s → ∀ x,
    (s.next? x).isSome ↔ ∃ i ∈ s.items, (Item.core i).next? g = some x
  target : ∀ q s, a.state? q = some s → ∀ x q', s.next? x = some q' →
    ∃ s', a.state? q' = some s' ∧ s'.kernel = kernelAfter g s.items x
  kernel_injective : ∀ q s q' s', a.state? q = some s → a.state? q' = some s' →
    s.kernel = s'.kernel → q = q'
  reachable : ∀ q s, a.state? q = some s → ∃ l, a.after? l = some q

section Construction

variable {ι : Type} [PredictiveItem ι] {g : Grammar}

theorem expand_eq_ok {kernel : List ι} {note : Expansion ι} {next : List (List ι)}
    (h : expand g g.firstTable kernel = .ok (note, next)) :
    closure g g.firstTable kernel = .ok note.items ∧ note.successors = successors g note.items ∧
      next = note.successors.map Prod.snd := by
  rw [expand, bind_eq_ok_iff] at h
  obtain ⟨items, hc, h⟩ := h
  obtain ⟨successors, hsucc, h⟩ := bind_eq_ok_iff.mp h
  rw [successors?] at hsucc
  split at hsucc
  · cases hsucc
  · cases hsucc
    cases h
    exact ⟨hc, rfl, rfl⟩

theorem expand_eq_ok_of_closure {kernel items : List ι}
    (hc : closure g g.firstTable kernel = .ok items)
    (hitems : ∀ i ∈ items, (Item.core i).production ∈ g) : expand g g.firstTable kernel =
      .ok (⟨items, successors g items⟩, (successors g items).map Prod.snd) :=
  bind_eq_ok_iff.mpr ⟨items, hc, bind_eq_ok_iff.mpr ⟨_, successors?_eq_ok hitems, rfl⟩⟩

/-- The automaton is made of the kernels that a search through all of them has found. -/
structure Collects (g : Grammar) (e : Exploration (List ι) (Expansion ι))
    (a : Automaton ι) : Prop where
  run_eq : Exploration.run (expand g g.firstTable) stateLimit [[PredictiveItem.initial]] = .ok e
  size_le : e.found.size ≤ 65536
  states_eq : a.states = (statesOf e).toArray

theorem canonical_eq_ok_iff {a : Automaton ι} :
    canonical ι g g.firstTable = .ok a ↔ ∃ e, Collects g e a := by
  rw [canonical, bind_eq_ok_iff]
  constructor
  · intro h
    obtain ⟨e, hr, h⟩ := h
    split at h
    · cases h
    · rename_i hs
      cases h
      exact ⟨e, hr, Nat.not_lt.mp hs, rfl⟩
  · intro h
    obtain ⟨e, hr, hs, ha⟩ := h
    refine ⟨e, hr, ?_⟩
    split
    · rename_i hlt
      exact absurd hlt (Nat.not_lt.mpr hs)
    · exact congrArg (fun states => Except.ok (Automaton.mk states)) ha.symm

variable {e : Exploration (List ι) (Expansion ι)} {a : Automaton ι} {q q' : StateId}
  {s s' : State ι} {x : Symbol}

private theorem getElem?_statesOf {i : Nat} : (statesOf e)[i]? = some s ↔
    ∃ kernel note, e.found.get? i = some kernel ∧ e.notes[i]? = some note ∧
      s = { id := .ofIndex i
            kernel
            items := note.items
            transitions := note.successors.map fun entry =>
              (entry.1, .ofIndex ((e.found.position? entry.2).getD 0)) } := by
  simp only [statesOf, List.getElem?_map, List.getElem?_zipIdx, List.getElem?_zip_eq_some,
    Option.map_eq_some_iff, Prod.exists, OrderedSet.getElem?_toList, Array.getElem?_toList,
    Nat.zero_add, Prod.mk.injEq]
  grind

private theorem Collects.state?_eq (he : Collects g e a) (q : StateId) :
    a.state? q = (statesOf e)[q.index]? := by
  rw [Automaton.state?, he.states_eq, List.getElem?_toArray]

theorem collected_spec (he : Collects g e a) (hs : a.state? q = some s) :
    e.found.get? q.index = some s.kernel ∧ closure g g.firstTable s.kernel = .ok s.items ∧
      (∀ x k, (x, k) ∈ successors g s.items → k ∈ e.found) ∧
      s.transitions = (successors g s.items).map fun entry =>
        (entry.1, .ofIndex ((e.found.position? entry.2).getD 0)) := by
  rw [he.state?_eq, getElem?_statesOf] at hs
  obtain ⟨kernel, note, hk, hn, rfl⟩ := hs
  obtain ⟨kernel', next, hk', hv, hnext⟩ := (Exploration.run_faithful he.run_eq).visited _ note hn
  obtain rfl : kernel = kernel' := Option.some.inj (hk.symm.trans hk')
  obtain ⟨hc, hsucc, hlist⟩ := expand_eq_ok hv
  refine ⟨hk, hc, ?_, by rw [hsucc]⟩
  intro x k hm
  apply hnext
  rw [hlist, hsucc]
  exact List.mem_map.mpr ⟨(x, k), hm, rfl⟩

theorem exists_collected (he : Collects g e a) {i : Nat} {kernel : List ι}
    (hk : e.found.get? i = some kernel) :
    ∃ s, a.state? (.ofIndex i) = some s ∧ s.kernel = kernel := by
  have hlt := OrderedSet.lt_size_of_get? hk
  have hnotes := Exploration.run_visits_all he.run_eq he.size_le
  have hle := he.size_le
  have hnlt : i < e.notes.size := by omega
  have hn : e.notes[i]? = some e.notes[i] := Array.getElem?_eq_getElem hnlt
  obtain ⟨s, hs⟩ : ∃ s, (statesOf e)[i]? = some s :=
    ⟨_, getElem?_statesOf.mpr ⟨kernel, _, hk, hn, rfl⟩⟩
  have hstate : a.state? (.ofIndex i) = some s := by
    rw [he.state?_eq, StateId.index_ofIndex (by omega)]
    exact hs
  have hsk := (collected_spec he hstate).1
  rw [StateId.index_ofIndex (by omega), hk] at hsk
  exact ⟨s, hstate, (Option.some.inj hsk).symm⟩

theorem id_collected (he : Collects g e a) (hs : a.state? q = some s) : s.id = q := by
  rw [he.state?_eq, getElem?_statesOf] at hs
  obtain ⟨_, _, -, -, rfl⟩ := hs
  exact StateId.ofIndex_index q

theorem map_kernel_collected (he : Collects g e a) :
    a.states.toList.map State.kernel = e.found.toList := by
  have hn : e.notes.toList.length = e.found.toList.length :=
    Exploration.run_visits_all he.run_eq he.size_le
  have hzip : (e.found.toList.zip e.notes.toList).map Prod.fst = e.found.toList :=
    List.map_fst_zip (Nat.le_of_eq hn.symm)
  refine Eq.trans ?_ hzip
  conv_rhs => rw [← List.zipIdx_map_fst 0 (e.found.toList.zip e.notes.toList), List.map_map]
  rw [he.states_eq, statesOf, List.map_map]
  rfl

private theorem nodup_collected (he : Collects g e a) (hs : a.state? q = some s) :
    (s.transitions.map Prod.fst).Nodup := by
  rw [(collected_spec he hs).2.2.2, List.map_map]
  exact nodup_successors

private theorem next?_collected (he : Collects g e a) (hs : a.state? q = some s) :
    s.next? x = some q' ↔ (∃ i ∈ s.items, (Item.core i).next? g = some x) ∧
      q' = .ofIndex ((e.found.position? (kernelAfter g s.items x)).getD 0) := by
  rw [State.next?, lookup_eq_some_iff_mem (nodup_collected he hs), (collected_spec he hs).2.2.2,
    List.mem_map]
  simp only [Prod.exists, Prod.mk.injEq, mem_successors]
  grind

private theorem isSome_next?_collected (he : Collects g e a) (hs : a.state? q = some s) :
    (s.next? x).isSome ↔ ∃ i ∈ s.items, (Item.core i).next? g = some x := by
  rw [Option.isSome_iff_exists]
  constructor
  · intro hq
    obtain ⟨q', hq'⟩ := hq
    exact ((next?_collected he hs).mp hq').1
  · intro hx
    exact ⟨_, (next?_collected he hs).mpr ⟨hx, rfl⟩⟩

private theorem target_collected (he : Collects g e a) (hs : a.state? q = some s)
    (hx : s.next? x = some q') :
    ∃ s', a.state? q' = some s' ∧ s'.kernel = kernelAfter g s.items x := by
  obtain ⟨hi, rfl⟩ := (next?_collected he hs).mp hx
  have hm := (collected_spec he hs).2.2.1 x _ (mem_successors.mpr ⟨hi, rfl⟩)
  obtain ⟨i, hi⟩ := Option.isSome_iff_exists.mp (OrderedSet.contains_iff.mpr hm)
  rw [hi, Option.getD_some]
  rw [OrderedSet.position?_eq_some_iff, OrderedSet.getElem?_toList] at hi
  exact exists_collected he hi

private theorem kernel_injective_collected (he : Collects g e a) (hs : a.state? q = some s)
    (hs' : a.state? q' = some s') (hk : s.kernel = s'.kernel) : q = q' := by
  have hq := (collected_spec he hs).1
  have hq' := (collected_spec he hs').1
  rw [hk, ← OrderedSet.getElem?_toList, ← OrderedSet.position?_eq_some_iff] at hq
  rw [← OrderedSet.getElem?_toList, ← OrderedSet.position?_eq_some_iff, hq] at hq'
  rw [← StateId.ofIndex_index q, ← StateId.ofIndex_index q', Option.some.inj hq']

private theorem initial_collected (he : Collects g e a) :
    ∃ s, a.state? (.ofIndex 0) = some s ∧ s.kernel = [PredictiveItem.initial] := by
  apply exists_collected he
  apply OrderedSet.get?_eq_some_of_isPrefix (Exploration.run_faithful he.run_eq).start_isPrefix
  exact OrderedSet.get?_zero_ofList _ []

private theorem reachable_collected (he : Collects g e a) (hs : a.state? q = some s) :
    ∃ l, a.after? l = some q := by
  have hfound : ∀ kernel ∈ e.found, ∃ l q s, a.after? l = some q ∧ a.state? q = some s ∧
      s.kernel = kernel := by
    apply (Exploration.run_faithful he.run_eq).least
    · intro kernel hk
      obtain ⟨s, hs, hsk⟩ := initial_collected he
      exact ⟨[], _, s, rfl, hs, hsk.trans (List.mem_singleton.mp hk).symm⟩
    · intro kernel note next hk hv kernel' hk'
      obtain ⟨l, q, s, hl, hs, rfl⟩ := hk
      obtain ⟨hc, hsucc, hn⟩ := expand_eq_ok hv
      have hitems : note.items = s.items := Except.ok.inj (hc.symm.trans (collected_spec he hs).2.1)
      rw [hn, hsucc, hitems, List.mem_map] at hk'
      obtain ⟨⟨x, k⟩, hm, rfl⟩ := hk'
      obtain ⟨hx, hkx⟩ := mem_successors.mp hm
      obtain ⟨q', hq'⟩ := Option.isSome_iff_exists.mp ((isSome_next?_collected he hs).mpr hx)
      obtain ⟨s', hs', hsk'⟩ := target_collected he hs hq'
      refine ⟨l ++ [x], q', s', ?_, hs', hsk'.trans hkx.symm⟩
      rw [Automaton.after?_concat, hl]
      exact Automaton.step?_eq_some.mpr ⟨s, hs, hq'⟩
  obtain ⟨l, q', s', hl, hs', hk⟩ :=
    hfound s.kernel (OrderedSet.mem_of_get? (collected_spec he hs).1)
  rw [kernel_injective_collected he hs' hs hk] at hl
  exact ⟨l, hl⟩

private theorem size_collected_le (he : Collects g e a) : a.size ≤ 65536 := by
  have hle : (e.found.toList.zip e.notes.toList).length ≤ e.found.toList.length := by
    rw [List.length_zip]
    exact Nat.min_le_left _ _
  have hsize := he.size_le
  simp only [Automaton.size, he.states_eq, List.size_toArray, statesOf, List.length_map,
    List.length_zipIdx]
  rw [OrderedSet.length_toList] at hle
  omega

theorem ascending_collected (he : Collects g e a) : ∀ kernel ∈ e.found, Ascending kernel := by
  apply (Exploration.run_faithful he.run_eq).least
  · intro kernel hk
    rw [List.mem_singleton.mp hk]
    exact List.pairwise_singleton _ _
  · intro kernel note next _ hv kernel' hk'
    obtain ⟨-, hs, hn⟩ := expand_eq_ok hv
    rw [hn, hs, List.mem_map] at hk'
    obtain ⟨⟨x, k⟩, hm, rfl⟩ := hk'
    rw [(mem_successors.mp hm).2]
    exact ascending_sortDistinct _

variable [LawfulItem ι]

theorem admissible_of_mem_start : ∀ kernel ∈ [[(PredictiveItem.initial : ι)]],
    ∀ i ∈ kernel, g.Admissible i := by
  intro kernel hk i hi
  rw [List.mem_singleton.mp hk, List.mem_singleton] at hi
  subst hi
  exact Grammar.admissible_initial g

theorem admissible_of_mem_successors {items k : List ι}
    (hitems : ∀ i ∈ items, g.Admissible i) (hm : (x, k) ∈ successors g items) :
    ∀ i ∈ k, g.Admissible i := by
  intro j hj
  rw [(mem_successors.mp hm).2, mem_kernelAfter] at hj
  obtain ⟨i, hi, hx, rfl⟩ := hj
  exact (hitems i hi).shifted hx

theorem admissible_collected (he : Collects g e a) :
    ∀ kernel ∈ e.found, ∀ i ∈ kernel, g.Admissible i := by
  apply (Exploration.run_faithful he.run_eq).least _ admissible_of_mem_start
  intro kernel note next hk hv kernel' hk'
  obtain ⟨hc, hs, hn⟩ := expand_eq_ok hv
  rw [hn, hs, List.mem_map] at hk'
  obtain ⟨⟨x, k⟩, hm, rfl⟩ := hk'
  exact admissible_of_mem_successors (admissible_of_mem_closure hk hc) hm

private theorem exists_expand {kernel : List ι} (hk : ∀ i ∈ kernel, g.Admissible i) :
    ∃ note next, expand g g.firstTable kernel = .ok (note, next) ∧
      ∀ kernel' ∈ next, ∀ i ∈ kernel', g.Admissible i := by
  obtain ⟨items, hc⟩ := exists_closure (Grammar.belongs_of_admissible hk)
  have hitems := admissible_of_mem_closure hk hc
  refine ⟨⟨items, successors g items⟩, (successors g items).map Prod.snd, ?_, ?_⟩
  · exact expand_eq_ok_of_closure hc fun i hi => (hitems i hi).production_mem
  · intro kernel' hk'
    obtain ⟨⟨x, k⟩, hm, rfl⟩ := List.mem_map.mp hk'
    exact admissible_of_mem_successors hitems hm

theorem exists_search (ι : Type) [PredictiveItem ι] [LawfulItem ι] (g : Grammar) :
    ∃ e, Exploration.run (expand g g.firstTable) stateLimit
      [[(PredictiveItem.initial : ι)]] = .ok e :=
  Exploration.exists_run admissible_of_mem_start fun _ => exists_expand

/-- The automaton of a grammar can be built, or it has too many states. -/
theorem exists_canonical_or (ι : Type) [PredictiveItem ι] [LawfulItem ι] (g : Grammar) :
    (∃ a, canonical ι g g.firstTable = .ok a) ∨
      canonical ι g g.firstTable = .error .tooManyStates := by
  obtain ⟨e, he⟩ := exists_search ι g
  by_cases hsize : stateLimit < e.found.size
  · refine Or.inr ?_
    rw [canonical, he]
    simp [bind, Except.bind, hsize]
    rfl
  · exact Or.inl ⟨_, canonical_eq_ok_iff.mpr ⟨e, he, Nat.not_lt.mp hsize, rfl⟩⟩

theorem canonicalFor_of_eq_ok (h : canonical ι g g.firstTable = .ok a) : CanonicalFor g a := by
  obtain ⟨e, he⟩ := canonical_eq_ok_iff.mp h
  exact {
    size_le := size_collected_le he
    initial := initial_collected he
    admissible_kernel := fun q s hs =>
      admissible_collected he s.kernel (OrderedSet.mem_of_get? (collected_spec he hs).1)
    closure_eq := fun q s hs => (collected_spec he hs).2.1
    nodup_transitions := fun q s hs => nodup_collected he hs
    isSome_next? := fun q s hs x => isSome_next?_collected he hs
    target := fun q s hs x q' hx => target_collected he hs hx
    kernel_injective := fun q s q' s' hs hs' hk => kernel_injective_collected he hs hs' hk
    reachable := fun q s hs => reachable_collected he hs }

end Construction

/-! ### Awaited items -/

namespace Grammar

/-- The item is awaited after the symbols have been read. -/
inductive Awaits (g : Grammar) {ι : Type} [PredictiveItem ι] : List Symbol → ι → Prop where
  | initial : Awaits g [] PredictiveItem.initial
  | predict {l : List Symbol} {i j : ι} (hi : Awaits g l i) (h : g.Predicts i j) : Awaits g l j
  | shift {l : List Symbol} {i : ι} {x : Symbol} (hi : Awaits g l i)
    (hx : (Item.core i).next? g = some x) : Awaits g (l ++ [x]) (PredictiveItem.shifted i)

end Grammar

namespace CanonicalFor

variable {ι : Type} [PredictiveItem ι] {g : Grammar} {a : Automaton ι} {l : List Symbol}
  {q : StateId} {s : State ι} {i : ι} {x : Symbol}

theorem exists_step (h : CanonicalFor g a) (hs : a.state? q = some s) (hi : i ∈ s.items)
    (hx : (Item.core i).next? g = some x) :
    ∃ q' s', s.next? x = some q' ∧ a.state? q' = some s' ∧ PredictiveItem.shifted i ∈ s'.items := by
  obtain ⟨q', hq'⟩ := Option.isSome_iff_exists.mp ((h.isSome_next? q s hs x).mpr ⟨i, hi, hx⟩)
  obtain ⟨s', hs', hk⟩ := h.target q s hs x q' hq'
  refine ⟨q', s', hq', hs', mem_closure_of_mem (h.closure_eq q' s' hs') ?_⟩
  rw [hk]
  exact mem_kernelAfter.mpr ⟨i, hi, hx, rfl⟩

theorem exists_state (h : CanonicalFor g a) (hl : a.after? l = some q) :
    ∃ s, a.state? q = some s := by
  induction l using List.reverseRecOn with
  | nil =>
    obtain ⟨s, hs, -⟩ := h.initial
    cases hl
    exact ⟨s, hs⟩
  | append_singleton l x _ =>
    obtain ⟨p, -, hp⟩ := Automaton.after?_concat_eq_some.mp hl
    obtain ⟨s, hs, hx⟩ := Automaton.step?_eq_some.mp hp
    obtain ⟨s', hs', -⟩ := h.target p s hs x q hx
    exact ⟨s', hs'⟩

theorem awaits_of_mem (h : CanonicalFor g a) (hl : a.after? l = some q) (hs : a.state? q = some s)
    (hi : i ∈ s.items) : g.Awaits l i := by
  induction l using List.reverseRecOn generalizing q s i with
  | nil =>
    obtain ⟨s', hs', hk⟩ := h.initial
    cases hl
    obtain rfl : s = s' := Option.some.inj (hs.symm.trans hs')
    apply closure_induction (h.closure_eq _ s hs) _ (fun _ _ hi hij => hi.predict hij) i hi
    intro j hj
    rw [hk, List.mem_singleton] at hj
    subst hj
    exact .initial
  | append_singleton l x ih =>
    obtain ⟨p, hp, hstep⟩ := Automaton.after?_concat_eq_some.mp hl
    obtain ⟨s₀, hs₀, hx⟩ := Automaton.step?_eq_some.mp hstep
    obtain ⟨s', hs', hk⟩ := h.target p s₀ hs₀ x q hx
    obtain rfl : s = s' := Option.some.inj (hs.symm.trans hs')
    apply closure_induction (h.closure_eq _ s hs) _ (fun _ _ hi hij => hi.predict hij) i hi
    intro j hj
    rw [hk, mem_kernelAfter] at hj
    obtain ⟨i₀, hi₀, hx₀, rfl⟩ := hj
    exact (ih hp hs₀ hi₀).shift hx₀

variable [LawfulItem ι]

theorem admissible (h : CanonicalFor g a) (hs : a.state? q = some s) (hi : i ∈ s.items) :
    g.Admissible i :=
  admissible_of_mem_closure (h.admissible_kernel q s hs) (h.closure_eq q s hs) i hi

theorem mem_of_predicts (h : CanonicalFor g a) (hs : a.state? q = some s) (hi : i ∈ s.items) {j : ι}
    (hij : g.Predicts i j) : j ∈ s.items :=
  mem_closure_of_predicts (Grammar.belongs_of_admissible (h.admissible_kernel q s hs))
    (h.closure_eq q s hs) hi hij

theorem exists_after_of_awaits (h : CanonicalFor g a) (hi : g.Awaits l i) :
    ∃ q s, a.after? l = some q ∧ a.state? q = some s ∧ i ∈ s.items := by
  induction hi with
  | initial =>
    obtain ⟨s, hs, hk⟩ := h.initial
    refine ⟨_, s, rfl, hs, mem_closure_of_mem (h.closure_eq _ s hs) ?_⟩
    simp [hk]
  | predict _ hij ih =>
    obtain ⟨q, s, hl, hs, hi⟩ := ih
    exact ⟨q, s, hl, hs, h.mem_of_predicts hs hi hij⟩
  | shift _ hx ih =>
    obtain ⟨q, s, hl, hs, hi⟩ := ih
    obtain ⟨q', s', hq', hs', hi'⟩ := h.exists_step hs hi hx
    refine ⟨q', s', ?_, hs', hi'⟩
    exact Automaton.after?_concat_eq_some.mpr ⟨q, hl, Automaton.step?_eq_some.mpr ⟨s, hs, hq'⟩⟩

/-- Some item is awaited after the symbols of each walk. -/
theorem exists_after?_iff (h : CanonicalFor g a) :
    (∃ q, a.after? l = some q) ↔ ∃ i : ι, g.Awaits l i := by
  constructor
  · intro hq
    obtain ⟨q, hq⟩ := hq
    induction l using List.reverseRecOn with
    | nil => exact ⟨_, .initial⟩
    | append_singleton l x _ =>
      obtain ⟨p, hp, hstep⟩ := Automaton.after?_concat_eq_some.mp hq
      obtain ⟨s, hs, hx⟩ := Automaton.step?_eq_some.mp hstep
      obtain ⟨i, hi, hix⟩ := (h.isSome_next? p s hs x).mp (by rw [hx]; rfl)
      exact ⟨_, (h.awaits_of_mem hp hs hi).shift hix⟩
  · intro hi
    obtain ⟨i, hi⟩ := hi
    obtain ⟨q, s, hq, -⟩ := h.exists_after_of_awaits hi
    exact ⟨q, hq⟩

/-- The state after some symbols holds the items that are awaited there. -/
theorem mem_items_iff (h : CanonicalFor g a) (hl : a.after? l = some q) (hs : a.state? q = some s) :
    i ∈ s.items ↔ g.Awaits l i := by
  constructor
  · exact h.awaits_of_mem hl hs
  · intro hi
    obtain ⟨q', s', hl', hs', hi'⟩ := h.exists_after_of_awaits hi
    obtain rfl : q = q' := Option.some.inj (hl.symm.trans hl')
    obtain rfl : s = s' := Option.some.inj (hs.symm.trans hs')
    exact hi'

end CanonicalFor

end GrammarTables
