import GrammarTables.Proofs.CanonicalCollection
import GrammarTables.Proofs.SearchProjection
import GrammarTables.Table.Basic

/-!
# The numbering of the canonical collection

Each state of an automaton is the closure of its kernel, no two states have the same kernel, and the
transitions lead to the kernels with the dot moved. The states are numbered breadth-first: whoever
reads the transitions state after state meets the numbers in ascending order
(`isCanonicalCollection_automata`).
-/

namespace GrammarTables

variable {ι : Type} [PredictiveItem ι] {g : Grammar} {a : Automaton ι}

/-- The numbers of the initial state and of the targets of all transitions, state after state, in
order of first occurrence. -/
def Automaton.discovered (a : Automaton ι) : OrderedSet Nat :=
  OrderedSet.ofList (0 :: a.states.toList.flatMap fun s => s.transitions.map fun e => e.2.index)

/-- The automaton is the canonical collection of a grammar, numbered breadth-first. -/
structure Automaton.IsCanonicalCollection (g : Grammar) (a : Automaton ι) : Prop where
  map_id : a.states.toList.map (fun s => s.id.index) = List.range a.size
  initial : ∃ s, a.state? (.ofIndex 0) = some s ∧ s.kernel = [PredictiveItem.initial]
  closure_eq : ∀ s ∈ a.states, closure g g.firstTable s.kernel = .ok s.items
  kernel_isPrefix : ∀ s ∈ a.states, s.kernel <+: s.items
  nodup_items : ∀ s ∈ a.states, s.items.Nodup
  mem_items : ∀ s ∈ a.states, ∀ i, i ∈ s.items ↔
    ∃ k ∈ s.kernel, Relation.ReflTransGen g.Predicts k i
  nodup_kernel : ∀ s ∈ a.states, s.kernel.Nodup
  ascending_kernel : ∀ s ∈ a.states, Ascending s.kernel
  eq_of_kernel : ∀ s ∈ a.states, ∀ t ∈ a.states, (∀ i, i ∈ s.kernel ↔ i ∈ t.kernel) → s = t
  nodup_transitions : ∀ s ∈ a.states, (s.transitions.map Prod.fst).Nodup
  exists_transition_iff : ∀ s ∈ a.states, ∀ x,
    (∃ q, (x, q) ∈ s.transitions) ↔ ∃ i ∈ s.items, (Item.core i).next? g = some x
  target : ∀ s ∈ a.states, ∀ x q, (x, q) ∈ s.transitions → ∃ t, a.state? q = some t ∧
    ∀ j, j ∈ t.kernel ↔
      ∃ i ∈ s.items, (Item.core i).next? g = some x ∧ PredictiveItem.shifted i = j
  reachable : ∀ s ∈ a.states, ∃ l, a.after? l = some s.id
  toList_discovered : a.discovered.toList = List.range a.size

/-! ### Places of elements -/

namespace OrderedSet

variable {α : Type} [Ord α] [Std.TransOrd α]

def place (s : OrderedSet α) (a : α) : Nat := (s.position? a).getD 0

theorem place_of_get? {s : OrderedSet α} {i : Nat} {a : α} (h : s.get? i = some a) :
    s.place a = i := by
  rw [← getElem?_toList, ← position?_eq_some_iff] at h
  rw [place, h, Option.getD_some]

theorem map_place (s : OrderedSet α) : s.toList.map s.place = List.range s.size := by
  apply List.ext_getElem (by simp)
  intro i hi _
  rw [List.getElem_map, List.getElem_range]
  apply place_of_get?
  rw [← getElem?_toList, List.getElem?_eq_getElem]

theorem place_lt {s : OrderedSet α} (hs : 0 < s.size) (a : α) : s.place a < s.size := by
  rw [place]
  cases h : s.position? a with
  | none => exact hs
  | some i =>
    rw [position?_eq_some_iff, getElem?_toList] at h
    exact lt_size_of_get? h

end OrderedSet

/-! ### Closures -/

section Closure

variable {kernel items : List ι} {i : ι}

theorem kernel_isPrefix_closure (hk : kernel.Nodup)
    (h : closure g g.firstTable kernel = .ok items) : kernel <+: items := by
  have hp := ofList_isPrefix_closure h
  rwa [OrderedSet.toList_ofList_of_nodup hk] at hp

end Closure

/-! ### The order of discovery -/

section Discovery

variable {e : Exploration (List ι) (Expansion ι)} {s : State ι}

theorem map_transitions_collected (he : Collects g e a) :
    a.states.toList.map State.transitions = e.notes.toList.map fun note =>
      note.successors.map fun entry => (entry.1, .ofIndex (e.found.place entry.2)) := by
  have hn : e.notes.toList.length = e.found.toList.length :=
    Exploration.run_visits_all he.run_eq he.size_le
  have hzip : (e.found.toList.zip e.notes.toList).map Prod.snd = e.notes.toList :=
    List.map_snd_zip (Nat.le_of_eq hn)
  conv_rhs => rw [← hzip, ← List.zipIdx_map_fst 0 (e.found.toList.zip e.notes.toList),
    List.map_map, List.map_map]
  rw [he.states_eq, statesOf, List.map_map]
  rfl

theorem size_collected (he : Collects g e a) : a.size = e.found.size := by
  have hlength := congrArg List.length (map_kernel_collected he)
  rwa [List.length_map, Array.length_toList, OrderedSet.length_toList] at hlength

private theorem get?_initial (he : Collects g e a) :
    e.found.get? 0 = some [PredictiveItem.initial] := by
  apply OrderedSet.get?_eq_some_of_isPrefix (Exploration.run_faithful he.run_eq).start_isPrefix
  exact OrderedSet.get?_zero_ofList _ []

private theorem index_place (he : Collects g e a) (kernel : List ι) :
    (StateId.ofIndex (e.found.place kernel)).index = e.found.place kernel := by
  have hlt := OrderedSet.place_lt (OrderedSet.lt_size_of_get? (get?_initial he)) kernel
  exact StateId.index_ofIndex (Nat.lt_of_lt_of_le hlt he.size_le)

/-- The transitions name the places of the kernels in the order in which the search finds them. -/
theorem discovered_eq_image (he : Collects g e a) :
    a.discovered = e.found.image e.found.place := by
  have hnames := Exploration.found_eq_ofList (f := fun note => note.successors.map Prod.snd)
    (fun kernel note next hv => (expand_eq_ok hv).2.2) he.run_eq
  have htargets : a.states.toList.flatMap (fun s => s.transitions.map fun e => e.2.index) =
      (e.notes.toList.flatMap fun note => note.successors.map Prod.snd).map e.found.place := by
    rw [← List.flatMap_map State.transitions (fun l => l.map fun e => e.2.index),
      map_transitions_collected he, List.flatMap_map, List.map_flatMap]
    simp only [List.map_map, Function.comp_def, index_place he]
  rw [Automaton.discovered, htargets, ← OrderedSet.place_of_get? (get?_initial he), ← List.map_cons,
    ← OrderedSet.image_ofList, ← List.singleton_append, ← hnames]

theorem toList_discovered (he : Collects g e a) : a.discovered.toList = List.range a.size := by
  rw [discovered_eq_image he, OrderedSet.image, OrderedSet.map_place, size_collected he]
  exact OrderedSet.toList_ofList_of_nodup List.nodup_range

theorem map_id_collected (he : Collects g e a) :
    a.states.toList.map (fun s => s.id.index) = List.range a.size := by
  apply List.ext_getElem (by simp [Automaton.size])
  intro i hi _
  rw [List.length_map, Array.length_toList] at hi
  have hle := he.size_le
  have hindex : (StateId.ofIndex i).index = i := by
    apply StateId.index_ofIndex
    rw [← size_collected he, Automaton.size] at hle
    omega
  have hs : a.state? (.ofIndex i) = some a.states[i] := by
    rw [Automaton.state?, hindex, Array.getElem?_eq_getElem hi]
  rw [List.getElem_map, List.getElem_range, Array.getElem_toList, id_collected he hs, hindex]

variable [LawfulItem ι]

theorem isCanonicalCollection_of_eq_ok (h : canonical ι g g.firstTable = .ok a) :
    a.IsCanonicalCollection g := by
  obtain ⟨e, he⟩ := canonical_eq_ok_iff.mp h
  have hc := canonicalFor_of_eq_ok h
  have hat {s : State ι} (hs : s ∈ a.states) : a.state? s.id = some s := by
    obtain ⟨q, hq⟩ := Automaton.exists_state?_of_mem hc.size_le hs
    rw [id_collected he hq]
    exact hq
  have hasc {s : State ι} (hs : s ∈ a.states) : Ascending s.kernel :=
    ascending_collected he s.kernel (OrderedSet.mem_of_get? (collected_spec he (hat hs)).1)
  exact {
    map_id := map_id_collected he
    initial := hc.initial
    closure_eq := fun s hs => hc.closure_eq _ s (hat hs)
    kernel_isPrefix := fun s hs =>
      kernel_isPrefix_closure (hasc hs).nodup (hc.closure_eq _ s (hat hs))
    nodup_items := fun s hs => nodup_closure (hc.closure_eq _ s (hat hs))
    mem_items := fun s hs i =>
      mem_closure_iff (Grammar.belongs_of_admissible (hc.admissible_kernel _ s (hat hs)))
        (hc.closure_eq _ s (hat hs))
    nodup_kernel := fun s hs => (hasc hs).nodup
    ascending_kernel := fun s hs => hasc hs
    eq_of_kernel := by
      intro s hs t ht hst
      have hk := hc.kernel_injective _ s _ t (hat hs) (hat ht) ((hasc hs).ext (hasc ht) hst)
      have hs' := hat hs
      rw [hk, hat ht] at hs'
      exact (Option.some.inj hs').symm
    nodup_transitions := fun s hs => hc.nodup_transitions _ s (hat hs)
    exists_transition_iff := by
      intro s hs x
      rw [← hc.isSome_next? _ s (hat hs), Option.isSome_iff_exists]
      exact exists_congr fun q =>
        (lookup_eq_some_iff_mem (hc.nodup_transitions _ s (hat hs))).symm
    target := by
      intro s hs x q hq
      have hx := (lookup_eq_some_iff_mem (hc.nodup_transitions _ s (hat hs))).mpr hq
      obtain ⟨t, ht, hk⟩ := hc.target _ s (hat hs) x q hx
      refine ⟨t, ht, fun j => ?_⟩
      rw [hk, mem_kernelAfter]
      simp only [eq_comm]
    reachable := fun s hs => hc.reachable _ s (hat hs)
    toList_discovered := toList_discovered he }

end Discovery

/-- The automata of both kinds of items, where they can be built, are canonical collections. -/
theorem Grammar.isCanonicalCollection_automata (g : Grammar) :
    (∀ a, g.lr0Automaton = .ok a → a.IsCanonicalCollection g) ∧
      ∀ a, g.lr1Automaton = .ok a → a.IsCanonicalCollection g :=
  ⟨fun _ => isCanonicalCollection_of_eq_ok, fun _ => isCanonicalCollection_of_eq_ok⟩

/-- Nested parentheses take six states. -/
theorem Grammar.isCanonicalCollection_automata_nested : ∃ a b,
    nested.lr0Automaton = .ok a ∧ nested.lr1Automaton = .ok b ∧
      a.discovered.toList = List.range 6 ∧ b.IsCanonicalCollection nested := by
  obtain ⟨a, ha⟩ := exists_of_isOk (c := nested.lr0Automaton) (by decide +kernel)
  obtain ⟨b, hb⟩ := exists_of_isOk (c := nested.lr1Automaton) (by decide +kernel)
  have hsize : nested.lr0Automaton.toOption.map Automaton.size = some 6 := by decide +kernel
  rw [ha] at hsize
  have hall := isCanonicalCollection_automata nested
  refine ⟨a, b, ha, hb, ?_, hall.2 b hb⟩
  rw [(hall.1 a ha).toList_discovered]
  exact congrArg List.range (Option.some.inj hsize)

end GrammarTables
