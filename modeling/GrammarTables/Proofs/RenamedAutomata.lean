import GrammarTables.Proofs.CoreAutomaton
import GrammarTables.Proofs.RenamedItems
import GrammarTables.Proofs.SharedAutomata

/-!
# Automata of renamed grammars

If a grammar is renamed into another, the automata of the second are those of the first with the
productions of their items renamed: the states have the same numbers, the same transitions and the
same lookaheads.
-/

namespace GrammarTables

namespace Grammar.Renames

variable {f : ProductionId → ProductionId} {g h : Grammar} {x : Symbol}

theorem agreeReachable (hf : Renames f h g) : h.AgreeReachable g where
  start_eq := hf.start_eq
  produces_iff x hx body := by
    have hknown : x ∈ h.terminals ∨ x ∈ h.nonterminals := by
      rw [hx.mem_terminals_iff]
      exact (Classical.em _).symm
    have halt := hf.alternatives_eq x hknown
    constructor
    · rintro ⟨r, hr, rfl, rfl⟩
      obtain ⟨p, hp, hb⟩ := exists_alternative hr
      have hp' : f p ∈ g.alternatives r.head := halt ▸ List.mem_map_of_mem hp
      obtain ⟨s, hs, hsh, hsb⟩ := exists_rule_of_head? (head?_of_mem_alternatives hp')
      refine ⟨s, hs, hsh, ?_⟩
      rw [hsb, hf.body_eq (mem_of_head? (head?_of_mem_alternatives hp)), hb]
    · rintro ⟨r, hr, rfl, rfl⟩
      obtain ⟨q, hq, hb⟩ := exists_alternative hr
      rw [halt] at hq
      obtain ⟨p, hp, rfl⟩ := List.mem_map.mp hq
      have hhead := head?_of_mem_alternatives hp
      obtain ⟨s, hs, hsh, hsb⟩ := exists_rule_of_head? hhead
      refine ⟨s, hs, hsh, ?_⟩
      rw [hsb, ← hf.body_eq (mem_of_head? hhead), hb]

/-! ### The search for kernels -/

section Canonical

variable {ι : Type} [PredictiveItem ι] [RenamableItem ι]
  {e : Exploration (List ι) (Expansion ι)} {b : Automaton ι}

private theorem expand_rename (hf : Renames f h g) {kernel : List ι}
    (hk : ∀ i ∈ kernel, h.Admissible i) {note : Expansion ι} {next : List (List ι)}
    (hv : expand h h.firstTable kernel = .ok (note, next)) :
    ∃ note', expand g g.firstTable (kernel.map (RenamableItem.rename f)) =
      .ok (note', next.map (List.map (RenamableItem.rename f))) := by
  obtain ⟨hc, hs, hn⟩ := expand_eq_ok hv
  have hall := admissible_of_mem_closure hk hc
  have hprod : ∀ j ∈ note.items.map (RenamableItem.rename f), (Item.core j).production ∈ g := by
    intro j hj
    obtain ⟨i, hi, rfl⟩ := List.mem_map.mp hj
    exact (hf.admissible_rename (hall i hi)).production_mem
  have hnext : next.map (List.map (RenamableItem.rename f)) =
      (successors g (note.items.map (RenamableItem.rename f))).map Prod.snd := by
    rw [hf.successors_rename hall, hn, hs, List.map_map, List.map_map]
    rfl
  rw [hnext]
  exact ⟨_, expand_eq_ok_of_closure (hf.closure_rename hk hc) hprod⟩

private theorem rename_found_inj (hf : Renames f h g) (he : Collects h e b) :
    ∀ k ∈ e.found, ∀ k' ∈ e.found, k.map (RenamableItem.rename f) =
      k'.map (RenamableItem.rename f) → k = k' := fun k hk k' hk' =>
  hf.keepsOrder_rename.eq_of_map (admissible_collected he k hk) (admissible_collected he k' hk')

private theorem exists_collects (hf : Renames f h g) (he : Collects h e b) :
    ∃ (e' : Exploration (List ι) (Expansion ι)) (a : Automaton ι), Collects g e' a ∧
      e'.found = e.found.image (List.map (RenamableItem.rename f)) := by
  refine he.project ?_ fun kernel hk note next hv => ?_
  · rw [List.map_singleton, RenamableItem.rename_initial f hf.accept_eq]
  · exact hf.expand_rename (admissible_collected he kernel hk) hv

private theorem state?_rename (hf : Renames f h g) (he : Collects h e b) {a : Automaton ι}
    {e' : Exploration (List ι) (Expansion ι)} (he' : Collects g e' a)
    (hfound : e'.found = e.found.image (List.map (RenamableItem.rename f))) {q : StateId}
    {s : State ι} (hs : b.state? q = some s) :
    a.state? q = some (s.map (RenamableItem.rename f)) := by
  obtain ⟨hget, hc, hmem, htrans⟩ := collected_spec he hs
  have hk := admissible_collected he s.kernel (OrderedSet.mem_of_get? hget)
  have hget' : e'.found.get? q.index = some (s.kernel.map (RenamableItem.rename f)) := by
    rw [← OrderedSet.getElem?_toList, hfound, OrderedSet.toList_image (hf.rename_found_inj he),
      List.getElem?_map, OrderedSet.getElem?_toList, hget, Option.map_some]
  obtain ⟨t, ht, hkernel⟩ := exists_collected he' hget'
  rw [StateId.ofIndex_index] at ht
  obtain ⟨-, hc', -, htrans'⟩ := collected_spec he' ht
  have hitems : t.items = s.items.map (RenamableItem.rename f) := by
    rw [hkernel, hf.closure_rename hk hc] at hc'
    exact (Except.ok.inj hc').symm
  have htransitions : t.transitions = s.transitions := by
    rw [htrans', htrans, hitems, hf.successors_rename (admissible_of_mem_closure hk hc),
      List.map_map]
    apply List.map_congr_left
    intro entry hentry
    have hplace := OrderedSet.position?_image (hf.rename_found_inj he)
      (hmem entry.1 entry.2 hentry)
    rw [Function.comp_apply, hfound, Prod.map_fst, Prod.map_snd, hplace]
    rfl
  rw [ht, State.map, ← hkernel, ← hitems, ← htransitions, id_collected he hs,
    ← id_collected he' ht]

private theorem canonical_rename (hf : Renames f h g) (hb : canonical ι h h.firstTable = .ok b) :
    canonical ι g g.firstTable = .ok (b.map (RenamableItem.rename f)) := by
  obtain ⟨e, he⟩ := canonical_eq_ok_iff.mp hb
  obtain ⟨e', a, he', hfound⟩ := hf.exists_collects he
  rw [canonical_eq_ok_iff.mpr ⟨e', he'⟩]
  have hsize : (b.map (RenamableItem.rename f)).size = a.size := by
    rw [Automaton.size_map, size_collected he, size_collected he', hfound,
      ← OrderedSet.length_toList, ← OrderedSet.length_toList,
      OrderedSet.toList_image (hf.rename_found_inj he), List.length_map]
  refine congrArg Except.ok (Automaton.ext_state? ?_ hsize ?_).symm
  · rw [Automaton.size_map]
    exact (canonicalFor_of_eq_ok hb).size_le
  · intro q t ht
    rw [Automaton.state?_map] at ht
    obtain ⟨s, hs, rfl⟩ := Option.map_eq_some_iff.mp ht
    exact hf.state?_rename he he' hfound hs

/-- An automaton of the second grammar is built if the one of the first is, of the same states. -/
theorem canonical_eq_map (hf : Renames f h g) (ι : Type) [PredictiveItem ι] [RenamableItem ι]
    [SharedItem ι] : canonical ι g g.firstTable =
      (canonical ι h h.firstTable).map (Automaton.map (RenamableItem.rename f)) := by
  rcases exists_canonical_or ι h with ⟨b, hb⟩ | hb
  · rw [hb, hf.canonical_rename hb]
    rfl
  · have hsize := hf.agreeReachable.map_size_canonical ι
    rw [hb] at hsize ⊢
    cases ha : canonical ι g g.firstTable with
    | ok a =>
      rw [ha] at hsize
      cases hsize
    | error e =>
      rw [ha] at hsize
      cases hsize
      rfl

end Canonical

end Grammar.Renames

/-! ### Merged states -/

section Merge

variable {f : ProductionId → ProductionId} {h : Grammar} {g : Grammar}

theorem Grammar.Renames.keepsOrder_core (hf : h.Renames f g) :
    KeepsOrder (fun c : DottedRule => c.production ∈ h) (DottedRule.rename f) := fun c d hc hd =>
  RenamableItem.compare_rename f c d (hf.keepsOrder c.production d.production hc hd)

private theorem gatherLookaheads_rename (hf : h.Renames f g)
    {entries : List (DottedRule × List Symbol)} (he : ∀ e ∈ entries, e.1.production ∈ h) :
    gatherLookaheads (entries.map (Prod.map (DottedRule.rename f) id)) =
      (gatherLookaheads entries).map (MergedItem.rename f) := by
  have hinj : ∀ c ∈ entries.map Prod.fst, ∀ d ∈ entries.map Prod.fst,
      c.rename f = d.rename f → c = d := by
    intro c hc d hd
    obtain ⟨e, hec, rfl⟩ := List.mem_map.mp hc
    obtain ⟨e', hed, rfl⟩ := List.mem_map.mp hd
    exact hf.keepsOrder_core.eq (he e hec) (he e' hed)
  rw [gatherLookaheads, OrderedMap.toList_group_map id hinj, gatherLookaheads, List.map_map,
    List.map_map]
  apply List.map_congr_left
  intro e _
  rw [Function.comp_apply, Prod.map, List.map_id]
  rfl

private theorem collapse_rename (hf : h.Renames f g) {items : List LookaheadItem}
    (hi : ∀ i ∈ items, i.core.production ∈ h) :
    collapse (items.map (LookaheadItem.rename f)) =
      (collapse items).map (MergedItem.rename f) := by
  rw [collapse, collapse, ← gatherLookaheads_rename hf, List.map_map, List.map_map]
  · rfl
  · intro e he
    obtain ⟨i, hm, rfl⟩ := List.mem_map.mp he
    exact hi i hm

private theorem mergeItems_rename (hf : h.Renames f g) {lists : List (List MergedItem)}
    (hl : ∀ l ∈ lists, ∀ m ∈ l, m.core.production ∈ h) :
    mergeItems (lists.map (List.map (MergedItem.rename f))) =
      (mergeItems lists).map (MergedItem.rename f) := by
  rw [mergeItems, mergeItems, ← gatherLookaheads_rename hf, ← List.map_flatten, List.map_map,
    List.map_map]
  · rfl
  · intro e he
    obtain ⟨m, hm, rfl⟩ := List.mem_map.mp he
    obtain ⟨l, hll, hml⟩ := List.mem_flatten.mp hm
    exact hl l hll m hml

private theorem production_mem_mergeItems {lists : List (List MergedItem)}
    (hl : ∀ l ∈ lists, ∀ m ∈ l, m.core.production ∈ h) :
    ∀ m ∈ mergeItems lists, m.core.production ∈ h := by
  intro m hm
  have hcore := List.mem_map_of_mem (f := MergedItem.core) hm
  rw [map_core_mergeItems, OrderedSet.mem_toList, OrderedSet.mem_ofList] at hcore
  obtain ⟨m', hm', hc⟩ := List.mem_map.mp hcore
  obtain ⟨l, hll, hml⟩ := List.mem_flatten.mp hm'
  rw [← hc]
  exact hl l hll m' hml

/-- The items and the transitions of the state are made of productions and symbols of the
grammar. -/
structure State.BelongsTo {κ : Type} [Item κ] (h : Grammar) (s : State κ) : Prop where
  kernel : ∀ i ∈ s.kernel, (Item.core i).production ∈ h
  items : ∀ i ∈ s.items, (Item.core i).production ∈ h
  transitions : ∀ e ∈ s.transitions, e.1 ∈ h.terminals ∨ e.1 ∈ h.nonterminals

private theorem collapse_map_rename (hf : h.Renames f g) {s : State LookaheadItem}
    (hs : s.BelongsTo h) :
    (s.map (LookaheadItem.rename f)).collapse = s.collapse.map (MergedItem.rename f) := by
  rw [State.collapse, State.map, collapse_rename hf hs.kernel, collapse_rename hf hs.items]
  rfl

theorem State.BelongsTo.collapse {s : State LookaheadItem} (hs : s.BelongsTo h) :
    s.collapse.BelongsTo h where
  kernel m hm := by
    obtain ⟨i, hi, hc⟩ := exists_core_collapse.mp ⟨m, hm, rfl⟩
    exact congrArg DottedRule.production hc ▸ hs.kernel i hi
  items m hm := by
    obtain ⟨i, hi, hc⟩ := exists_core_collapse.mp ⟨m, hm, rfl⟩
    exact congrArg DottedRule.production hc ▸ hs.items i hi
  transitions := hs.transitions

private theorem kernelCores_map_rename (hf : h.Renames f g) {t : State MergedItem}
    (ht : t.BelongsTo h) :
    (t.map (MergedItem.rename f)).kernelCores = t.kernelCores.map (DottedRule.rename f) := by
  rw [State.kernelCores, State.kernelCores, ← hf.keepsOrder_core.sortDistinct_map]
  · rw [State.map, List.map_map, List.map_map]
    rfl
  · intro c hc
    obtain ⟨m, hm, rfl⟩ := List.mem_map.mp hc
    exact ht.kernel m hm

section Classes

variable {states : List (State MergedItem)}

private theorem rename_kernelCores_inj (hf : h.Renames f g) (hs : ∀ t ∈ states, t.BelongsTo h) :
    ∀ k ∈ states.map State.kernelCores, ∀ k' ∈ states.map State.kernelCores,
      k.map (DottedRule.rename f) = k'.map (DottedRule.rename f) → k = k' := by
  have hall : ∀ k ∈ states.map State.kernelCores, ∀ c ∈ k, c.production ∈ h := by
    intro k hk c hc
    obtain ⟨t, ht, rfl⟩ := List.mem_map.mp hk
    rw [State.kernelCores, mem_sortDistinct] at hc
    obtain ⟨m, hm, rfl⟩ := List.mem_map.mp hc
    exact (hs t ht).kernel m hm
  intro k hk k' hk'
  exact hf.keepsOrder_core.eq_of_map (hall k hk) (hall k' hk')

private theorem map_kernelCores_rename (hf : h.Renames f g) (hs : ∀ t ∈ states, t.BelongsTo h) :
    (states.map (State.map (MergedItem.rename f))).map State.kernelCores =
      (states.map State.kernelCores).map (List.map (DottedRule.rename f)) := by
  rw [List.map_map, List.map_map]
  exact List.map_congr_left fun t ht => kernelCores_map_rename hf (hs t ht)

private theorem toList_coreClasses_rename (hf : h.Renames f g)
    (hs : ∀ t ∈ states, t.BelongsTo h) :
    (Automaton.coreClasses (states.map (State.map (MergedItem.rename f)))).toList =
      (Automaton.coreClasses states).toList.map
        (Prod.map (List.map (DottedRule.rename f)) (List.map (State.map (MergedItem.rename f)))) := by
  have hentries : (states.map (State.map (MergedItem.rename f))).map (fun t => (t.kernelCores, t)) =
      (states.map fun t => (t.kernelCores, t)).map
        (Prod.map (List.map (DottedRule.rename f)) (State.map (MergedItem.rename f))) := by
    rw [List.map_map, List.map_map]
    refine List.map_congr_left fun t ht => ?_
    rw [Function.comp_apply, kernelCores_map_rename hf (hs t ht)]
    rfl
  have hkeys : (states.map fun t => (t.kernelCores, t)).map Prod.fst =
      states.map State.kernelCores := by
    rw [List.map_map]
    rfl
  rw [Automaton.coreClasses, hentries, Automaton.coreClasses, OrderedMap.toList_group_map]
  rw [hkeys]
  exact rename_kernelCores_inj hf hs

private theorem position?_kernelCores_rename (hf : h.Renames f g)
    (hs : ∀ t ∈ states, t.BelongsTo h) {t : State MergedItem} (ht : t ∈ states) :
    (Automaton.coreClasses (states.map (State.map (MergedItem.rename f)))).keys.position?
        (t.map (MergedItem.rename f)).kernelCores =
      (Automaton.coreClasses states).keys.position? t.kernelCores := by
  have hkeys {states : List (State MergedItem)} : (Automaton.coreClasses states).keys =
      OrderedSet.ofList (states.map State.kernelCores) := by
    rw [Automaton.coreClasses, OrderedMap.keys_group, List.map_map]
    rfl
  rw [hkeys, hkeys, map_kernelCores_rename hf hs, kernelCores_map_rename hf (hs t ht),
    ← OrderedSet.image_ofList]
  apply OrderedSet.position?_image
  · intro k hk k' hk'
    exact rename_kernelCores_inj hf hs k (OrderedSet.mem_ofList.mp hk) k'
      (OrderedSet.mem_ofList.mp hk')
  · exact OrderedSet.mem_ofList.mpr (List.mem_map_of_mem ht)

end Classes

namespace Automaton

variable {b : Automaton LookaheadItem}

private def mergedState (a : Automaton LookaheadItem) (members : List (State MergedItem))
    (index : Nat) : State MergedItem where
  id := .ofIndex index
  kernel := mergeItems (members.map State.kernel)
  items := mergeItems (members.map State.items)
  transitions := (members.head?.elim [] State.transitions).map fun e => (e.1, a.mergedId e.2)

private theorem mergeByCore_eq (a : Automaton LookaheadItem) : a.mergeByCore =
    ⟨((coreClasses a.collapsed).toList.zipIdx.map fun e => a.mergedState e.1.2 e.2).toArray⟩ := rfl

private theorem collapsed_rename (hf : h.Renames f g) (hb : ∀ s ∈ b.states, s.BelongsTo h) :
    (b.map (LookaheadItem.rename f)).collapsed =
      b.collapsed.map (State.map (MergedItem.rename f)) := by
  rw [collapsed, collapsed, map, Array.toList_map, List.map_map, List.map_map]
  exact List.map_congr_left fun s hs => collapse_map_rename hf (hb s (Array.mem_toList_iff.mp hs))

private theorem belongsTo_collapsed (hb : ∀ s ∈ b.states, s.BelongsTo h) :
    ∀ t ∈ b.collapsed, t.BelongsTo h := by
  intro t ht
  obtain ⟨s, hs, rfl⟩ := List.mem_map.mp ht
  exact (hb s (Array.mem_toList_iff.mp hs)).collapse

private theorem mergedId_rename (hf : h.Renames f g) (hb : ∀ s ∈ b.states, s.BelongsTo h)
    (q : StateId) : (b.map (LookaheadItem.rename f)).mergedId q = b.mergedId q := by
  rw [mergedId, mergedId, collapsed_rename hf hb, List.map_map]
  have hids := List.map_congr_left fun t ht => congrArg (fun i => StateId.ofIndex (Option.getD i 0))
    (position?_kernelCores_rename hf (belongsTo_collapsed hb) ht)
  exact congrArg (fun ids => (ids.toArray[q.index]?).getD q) hids

private theorem mergedState_rename (hf : h.Renames f g) (hb : ∀ s ∈ b.states, s.BelongsTo h)
    {members : List (State MergedItem)} (hm : ∀ t ∈ members, t.BelongsTo h) (index : Nat) :
    (b.map (LookaheadItem.rename f)).mergedState
        (members.map (State.map (MergedItem.rename f))) index =
      (b.mergedState members index).map (MergedItem.rename f) := by
  have hkernel : mergeItems ((members.map (State.map (MergedItem.rename f))).map State.kernel) =
      (mergeItems (members.map State.kernel)).map (MergedItem.rename f) := by
    rw [← mergeItems_rename hf, List.map_map, List.map_map]
    · rfl
    · exact List.forall_mem_map.mpr fun t ht => (hm t ht).kernel
  have hitems : mergeItems ((members.map (State.map (MergedItem.rename f))).map State.items) =
      (mergeItems (members.map State.items)).map (MergedItem.rename f) := by
    rw [← mergeItems_rename hf, List.map_map, List.map_map]
    · rfl
    · exact List.forall_mem_map.mpr fun t ht => (hm t ht).items
  have htransitions : (members.map (State.map (MergedItem.rename f))).head?.elim []
      State.transitions = members.head?.elim [] State.transitions := by
    cases members <;> rfl
  rw [mergedState, mergedState, hkernel, hitems, htransitions, State.map,
    funext (mergedId_rename hf hb)]

private theorem belongsTo_members (hb : ∀ s ∈ b.states, s.BelongsTo h)
    {e : List DottedRule × List (State MergedItem)} (he : e ∈ (coreClasses b.collapsed).toList) :
    ∀ t ∈ e.2, t.BelongsTo h := by
  intro t ht
  rw [(members_eq (OrderedMap.mem_toList.mp he)).1] at ht
  exact belongsTo_collapsed hb t (List.mem_of_mem_filter ht)

/-- The merged states are the same up to the names of the productions. -/
theorem mergeByCore_rename (hf : h.Renames f g) (hb : ∀ s ∈ b.states, s.BelongsTo h) :
    (b.map (LookaheadItem.rename f)).mergeByCore =
      b.mergeByCore.map (MergedItem.rename f) := by
  have hmap (l : List (State MergedItem)) : (Automaton.mk l.toArray).map (MergedItem.rename f) =
      ⟨(l.map (State.map (MergedItem.rename f))).toArray⟩ := by
    rw [map, List.map_toArray]
  rw [mergeByCore_eq, mergeByCore_eq, hmap, collapsed_rename hf hb,
    toList_coreClasses_rename hf (belongsTo_collapsed hb), List.zipIdx_map, List.map_map,
    List.map_map]
  refine congrArg (fun l => Automaton.mk l.toArray) (List.map_congr_left fun e he => ?_)
  exact mergedState_rename hf hb (belongsTo_members hb (List.fst_mem_of_mem_zipIdx he)) e.2

private theorem belongsTo_mergedState {members : List (State MergedItem)}
    (hm : ∀ t ∈ members, t.BelongsTo h) (index : Nat) :
    (b.mergedState members index).BelongsTo h where
  kernel := production_mem_mergeItems (List.forall_mem_map.mpr fun t ht => (hm t ht).kernel)
  items := production_mem_mergeItems (List.forall_mem_map.mpr fun t ht => (hm t ht).items)
  transitions e he := by
    obtain ⟨e', he', rfl⟩ := List.mem_map.mp he
    cases members with
    | nil => cases he'
    | cons t members => exact (hm t (by simp)).transitions e' he'

theorem belongsTo_mergeByCore (hb : ∀ s ∈ b.states, s.BelongsTo h) :
    ∀ S ∈ b.mergeByCore.states, S.BelongsTo h := by
  intro S hS
  rw [mergeByCore_eq, List.mem_toArray] at hS
  obtain ⟨e, he, rfl⟩ := List.mem_map.mp hS
  exact belongsTo_mergedState (belongsTo_members hb (List.fst_mem_of_mem_zipIdx he)) e.2

end Automaton

end Merge

theorem CanonicalFor.belongsTo {ι : Type} [PredictiveItem ι] [LawfulItem ι] {h : Grammar}
    {b : Automaton ι} (hb : CanonicalFor h b) : ∀ s ∈ b.states, s.BelongsTo h := by
  intro s hs
  obtain ⟨q, hq⟩ := Automaton.exists_state?_of_mem hb.size_le hs
  refine ⟨?_, ?_, ?_⟩
  · intro i hi
    exact (hb.admissible_kernel q s hq i hi).production_mem
  · intro i hi
    exact (hb.admissible hq hi).production_mem
  · rintro ⟨x, q'⟩ hx
    have hnext := (lookup_eq_some_iff_mem (hb.nodup_transitions q s hq)).mpr hx
    obtain ⟨i, -, hi⟩ := (hb.isSome_next? q s hq x).mp (Option.isSome_iff_exists.mpr ⟨q', hnext⟩)
    exact Grammar.mem_terminals_or_nonterminals_of_next? hi

/-! ### The automata of a grammar -/

namespace Grammar.Renames

variable {f : ProductionId → ProductionId} {g h : Grammar}

theorem lr0Automaton_eq_map (hf : h.Renames f g) :
    g.lr0Automaton = h.lr0Automaton.map (Automaton.map (DottedRule.rename f)) :=
  hf.canonical_eq_map DottedRule

theorem lr1Automaton_eq_map (hf : h.Renames f g) :
    g.lr1Automaton = h.lr1Automaton.map (Automaton.map (LookaheadItem.rename f)) :=
  hf.canonical_eq_map LookaheadItem

theorem lalr1Automaton_eq_map (hf : h.Renames f g) :
    g.lalr1Automaton = h.lalr1Automaton.map (Automaton.map (MergedItem.rename f)) := by
  rw [lalr1Automaton, lalr1Automaton, hf.lr1Automaton_eq_map]
  cases hb : h.lr1Automaton with
  | error e => rfl
  | ok b =>
    exact congrArg Except.ok
      (Automaton.mergeByCore_rename hf (canonicalFor_of_eq_ok hb).belongsTo)

end Grammar.Renames

end GrammarTables
