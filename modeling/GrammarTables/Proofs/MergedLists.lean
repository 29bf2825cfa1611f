import Mathlib.Data.List.Induction
import GrammarTables.Automaton
import GrammarTables.Proofs.SearchProjection

/-!
# Merged lists of items

Gathering makes one item of all entries with the same core. The items keep the order in which their
cores first occur, and each carries all lookaheads of its core, strictly ascending. Items may be
merged list by list, and the results with each other: that gives the items which all lists together
give (`mergeItems_map_gatherLookaheads`). Nor does it matter whether the entries are first grouped by
core or added one after the other, each to the item of its core (`gatherLookaheads_eq_values`).
-/

namespace GrammarTables

theorem mem_foldl_insertSorted {l acc : List Symbol} {y : Symbol} :
    y ∈ l.foldl (fun lookaheads x => insertSorted x lookaheads) acc ↔ y ∈ acc ∨ y ∈ l := by
  induction l generalizing acc with
  | nil => simp
  | cons x l ih =>
    rw [List.foldl_cons, ih, mem_insertSorted, List.mem_cons]
    grind

theorem ascending_foldl_insertSorted {l acc : List Symbol} (h : Ascending acc) :
    Ascending (l.foldl (fun lookaheads x => insertSorted x lookaheads) acc) := by
  induction l generalizing acc with
  | nil => exact h
  | cons x l ih => exact ih (h.insertSorted x)

private def lookaheadsOf (entries : List (DottedRule × List Symbol)) (c : DottedRule) :
    List Symbol :=
  ((entries.filter (·.1 = c)).map Prod.snd).flatten.foldl
    (fun lookaheads x => insertSorted x lookaheads) []

private theorem mem_lookaheadsOf {entries : List (DottedRule × List Symbol)} {c : DottedRule}
    {y : Symbol} : y ∈ lookaheadsOf entries c ↔ ∃ ls, (c, ls) ∈ entries ∧ y ∈ ls := by
  rw [lookaheadsOf, mem_foldl_insertSorted]
  simp

private theorem mem_gatherLookaheads {entries : List (DottedRule × List Symbol)} {m : MergedItem} :
    m ∈ gatherLookaheads entries ↔
      m.core ∈ entries.map Prod.fst ∧ m.lookaheads = lookaheadsOf entries m.core := by
  obtain ⟨core, lookaheads⟩ := m
  rw [gatherLookaheads, List.mem_map]
  simp only [Prod.exists, OrderedMap.mem_toList, OrderedMap.get?_group, MergedItem.mk.injEq]
  constructor
  · intro h
    obtain ⟨c, lists, h, rfl, rfl⟩ := h
    split at h
    · rename_i hc
      cases h
      exact ⟨hc, rfl⟩
    · cases h
  · intro h
    exact ⟨core, _, if_pos h.1, rfl, h.2.symm⟩

theorem exists_core_gatherLookaheads {entries : List (DottedRule × List Symbol)} {c : DottedRule} :
    (∃ m ∈ gatherLookaheads entries, m.core = c) ↔ c ∈ entries.map Prod.fst := by
  constructor
  · intro h
    obtain ⟨m, hm, rfl⟩ := h
    exact (mem_gatherLookaheads.mp hm).1
  · intro h
    exact ⟨⟨c, lookaheadsOf entries c⟩, mem_gatherLookaheads.mpr ⟨h, rfl⟩, rfl⟩

theorem exists_lookahead_gatherLookaheads {entries : List (DottedRule × List Symbol)}
    {c : DottedRule} {y : Symbol} :
    (∃ m ∈ gatherLookaheads entries, m.core = c ∧ y ∈ m.lookaheads) ↔
      ∃ ls, (c, ls) ∈ entries ∧ y ∈ ls := by
  rw [← mem_lookaheadsOf]
  constructor
  · intro h
    obtain ⟨m, hm, rfl, hy⟩ := h
    rwa [(mem_gatherLookaheads.mp hm).2] at hy
  · intro h
    obtain ⟨ls, hls, -⟩ := mem_lookaheadsOf.mp h
    exact ⟨⟨c, lookaheadsOf entries c⟩,
      mem_gatherLookaheads.mpr ⟨List.mem_map_of_mem hls, rfl⟩, rfl, h⟩

theorem mem_lookaheads_gatherLookaheads_iff {entries : List (DottedRule × List Symbol)}
    {m : MergedItem} {y : Symbol} (h : m ∈ gatherLookaheads entries) :
    y ∈ m.lookaheads ↔ ∃ ls, (m.core, ls) ∈ entries ∧ y ∈ ls := by
  rw [(mem_gatherLookaheads.mp h).2, mem_lookaheadsOf]

theorem ascending_of_mem_gatherLookaheads {entries : List (DottedRule × List Symbol)}
    {m : MergedItem} (h : m ∈ gatherLookaheads entries) : Ascending m.lookaheads := by
  rw [(mem_gatherLookaheads.mp h).2]
  exact ascending_foldl_insertSorted List.Pairwise.nil

/-- Each core occurs once, with some lookaheads in ascending order. -/
structure Gathered (items : List MergedItem) : Prop where
  nodup_cores : (items.map MergedItem.core).Nodup
  lookaheads_ne_nil : ∀ m ∈ items, m.lookaheads ≠ []
  ascending : ∀ m ∈ items, Ascending m.lookaheads

theorem map_core_gatherLookaheads (entries : List (DottedRule × List Symbol)) :
    (gatherLookaheads entries).map MergedItem.core =
      (OrderedSet.ofList (entries.map Prod.fst)).toList := by
  rw [← OrderedMap.keys_group entries, ← OrderedMap.map_fst_toList, gatherLookaheads, List.map_map]
  rfl

theorem gathered_gatherLookaheads {entries : List (DottedRule × List Symbol)}
    (h : ∀ e ∈ entries, e.2 ≠ []) : Gathered (gatherLookaheads entries) where
  nodup_cores := by
    rw [map_core_gatherLookaheads]
    exact OrderedSet.nodup_toList _
  lookaheads_ne_nil m hm := by
    obtain ⟨hc, hl⟩ := mem_gatherLookaheads.mp hm
    obtain ⟨e, he, hec⟩ := List.mem_map.mp hc
    obtain ⟨y, hy⟩ := List.exists_mem_of_ne_nil _ (h e he)
    rw [hl]
    exact List.ne_nil_of_mem (mem_lookaheadsOf.mpr ⟨e.2, hec ▸ he, hy⟩)
  ascending _ hm := ascending_of_mem_gatherLookaheads hm

theorem exists_core_collapse {items : List LookaheadItem} {c : DottedRule} :
    (∃ m ∈ collapse items, m.core = c) ↔ ∃ i ∈ items, i.core = c := by
  rw [collapse, exists_core_gatherLookaheads]
  simp

theorem exists_lookahead_collapse {items : List LookaheadItem} {c : DottedRule} {y : Symbol} :
    (∃ m ∈ collapse items, m.core = c ∧ y ∈ m.lookaheads) ↔ ⟨c, y⟩ ∈ items := by
  rw [collapse, exists_lookahead_gatherLookaheads]
  simp only [List.mem_map, Prod.mk.injEq]
  constructor
  · intro h
    obtain ⟨ls, ⟨i, hi, rfl, rfl⟩, hy⟩ := h
    obtain rfl := List.mem_singleton.mp hy
    exact hi
  · intro h
    exact ⟨_, ⟨_, h, rfl, rfl⟩, List.mem_singleton.mpr rfl⟩

theorem exists_lookahead_mergeItems {lists : List (List MergedItem)} {c : DottedRule} {y : Symbol} :
    (∃ m ∈ mergeItems lists, m.core = c ∧ y ∈ m.lookaheads) ↔
      ∃ items ∈ lists, ∃ m ∈ items, m.core = c ∧ y ∈ m.lookaheads := by
  rw [mergeItems, exists_lookahead_gatherLookaheads]
  simp only [List.mem_map, List.mem_flatten, Prod.mk.injEq]
  grind

theorem map_core_collapse (items : List LookaheadItem) : (collapse items).map MergedItem.core =
    (OrderedSet.ofList (items.map LookaheadItem.core)).toList := by
  rw [collapse, map_core_gatherLookaheads, List.map_map]
  rfl

theorem map_core_mergeItems (lists : List (List MergedItem)) :
    (mergeItems lists).map MergedItem.core =
      (OrderedSet.ofList (lists.flatten.map MergedItem.core)).toList := by
  rw [mergeItems, map_core_gatherLookaheads, List.map_map]
  rfl

theorem gathered_collapse (items : List LookaheadItem) : Gathered (collapse items) := by
  apply gathered_gatherLookaheads
  simp

theorem gathered_mergeItems {lists : List (List MergedItem)} (h : ∀ l ∈ lists, Gathered l) :
    Gathered (mergeItems lists) := by
  apply gathered_gatherLookaheads
  intro e he
  obtain ⟨m, hm, rfl⟩ := List.mem_map.mp he
  obtain ⟨l, hl, hml⟩ := List.mem_flatten.mp hm
  exact (h l hl).lookaheads_ne_nil m hml

/-! ## Merging in stages -/

variable {cores cores' : List DottedRule} {Carries Carries' : DottedRule → Symbol → Prop}
  {items items' : List MergedItem} {entries : List (DottedRule × List Symbol)}

/-- Each of the cores has one item, in order of first occurrence, with exactly the lookaheads that
the core carries, ascending. -/
structure GatheredFrom (cores : List DottedRule) (Carries : DottedRule → Symbol → Prop)
    (items : List MergedItem) : Prop where
  map_core : items.map MergedItem.core = cores.eraseDups
  ascending : ∀ m ∈ items, Ascending m.lookaheads
  mem_lookaheads_iff : ∀ m ∈ items, ∀ x, x ∈ m.lookaheads ↔ Carries m.core x

theorem GatheredFrom.congr (h : GatheredFrom cores Carries items)
    (hcores : cores.eraseDups = cores'.eraseDups) (hc : ∀ c x, Carries c x ↔ Carries' c x) :
    GatheredFrom cores' Carries' items where
  map_core := h.map_core.trans hcores
  ascending := h.ascending
  mem_lookaheads_iff m hm x := (h.mem_lookaheads_iff m hm x).trans (hc m.core x)

theorem MergedItem.eq_of_core_of_lookaheads {m n : MergedItem} (hc : m.core = n.core)
    (hl : m.lookaheads = n.lookaheads) : m = n := by
  cases m
  cases n
  cases hc
  cases hl
  rfl

theorem GatheredFrom.unique (h : GatheredFrom cores Carries items)
    (h' : GatheredFrom cores Carries items') : items = items' := by
  have hcores : items.map MergedItem.core = items'.map MergedItem.core :=
    h.map_core.trans h'.map_core.symm
  have hlength : items.length = items'.length := by
    simpa only [List.length_map] using congrArg List.length hcores
  refine List.ext_getElem hlength fun i hi hi' => ?_
  have hm := List.getElem_mem hi
  have hm' := List.getElem_mem hi'
  have hcore : items[i].core = items'[i].core := by
    have hget := List.getElem_of_eq hcores (i := i) (by rwa [List.length_map])
    rwa [List.getElem_map, List.getElem_map] at hget
  refine MergedItem.eq_of_core_of_lookaheads hcore ?_
  refine (h.ascending _ hm).ext (h'.ascending _ hm') fun x => ?_
  rw [h.mem_lookaheads_iff _ hm, h'.mem_lookaheads_iff _ hm', hcore]

/-! ### Grouping by core -/

theorem gatheredFrom_gatherLookaheads (entries : List (DottedRule × List Symbol)) :
    GatheredFrom (entries.map Prod.fst) (fun c x => ∃ ls, (c, ls) ∈ entries ∧ x ∈ ls)
      (gatherLookaheads entries) where
  map_core := by rw [map_core_gatherLookaheads, OrderedSet.toList_ofList]
  ascending _ hm := ascending_of_mem_gatherLookaheads hm
  mem_lookaheads_iff _ hm _ := mem_lookaheads_gatherLookaheads_iff hm

theorem gatheredFrom_collapse (items : List LookaheadItem) :
    GatheredFrom (items.map LookaheadItem.core) (fun c x => ⟨c, x⟩ ∈ items) (collapse items) := by
  refine (gatheredFrom_gatherLookaheads _).congr ?_ fun c x => ?_
  · rw [List.map_map]
    rfl
  · exact exists_lookahead_gatherLookaheads.symm.trans exists_lookahead_collapse

example :
    collapse [⟨⟨⟨1⟩, 0⟩, .named "b"⟩, ⟨.initial, .endOfInput⟩, ⟨⟨⟨1⟩, 0⟩, .named "a"⟩] =
      [⟨⟨⟨1⟩, 0⟩, [.named "a", .named "b"]⟩, ⟨.initial, [.endOfInput]⟩] := by
  decide +kernel

theorem mergeItems_map_gatherLookaheads (lists : List (List (DottedRule × List Symbol))) :
    mergeItems (lists.map gatherLookaheads) = gatherLookaheads lists.flatten := by
  refine GatheredFrom.unique ((gatheredFrom_gatherLookaheads _).congr ?_ fun c x => ?_)
    (gatheredFrom_gatherLookaheads lists.flatten)
  · have hcores : ((lists.map gatherLookaheads).flatten.map fun m => (m.core, m.lookaheads)).map
        Prod.fst = ((lists.map (List.map Prod.fst)).map fun l =>
          (OrderedSet.ofList l).toList).flatten := by
      rw [List.map_map, List.map_flatten, List.map_map, List.map_map]
      congr 1
      exact List.map_congr_left fun l _ => map_core_gatherLookaheads l
    rw [hcores, ← OrderedSet.toList_ofList, OrderedSet.ofList_flatten_map_toList,
      ← List.map_flatten, OrderedSet.toList_ofList]
  · rw [← exists_lookahead_gatherLookaheads, ← mergeItems, exists_lookahead_mergeItems]
    simp only [List.mem_map, exists_exists_and_eq_and, exists_lookahead_gatherLookaheads,
      List.mem_flatten]
    constructor
    · rintro ⟨l, hl, ls, hls, hx⟩
      exact ⟨ls, ⟨l, hl, hls⟩, hx⟩
    · rintro ⟨ls, ⟨l, hl, hls⟩, hx⟩
      exact ⟨l, hl, ls, hls, hx⟩

/-! ### Adding one entry after the other -/

/-- Add lookaheads to the item of a core, which is made at the end if there is none. -/
def addAtCore (byCore : OrderedMap DottedRule MergedItem) (core : DottedRule)
    (lookaheads : List Symbol) : OrderedMap DottedRule MergedItem :=
  byCore.update core (.ofCore core) fun item => lookaheads.foldl MergedItem.addLookahead item

private theorem foldl_addLookahead (item : MergedItem) (lookaheads : List Symbol) :
    lookaheads.foldl MergedItem.addLookahead item =
      ⟨item.core, lookaheads.foldl (fun l x => insertSorted x l) item.lookaheads⟩ := by
  induction lookaheads generalizing item with
  | nil => rfl
  | cons x lookaheads ih => exact ih (item.addLookahead x)

/-- What holds of the items of the cores after some entries have been added: the cores stand in
order of first occurrence, and the item at the place of a core has that core and its lookaheads. -/
structure HoldsEntries (entries : List (DottedRule × List Symbol))
    (byCore : OrderedMap DottedRule MergedItem) : Prop where
  keys : byCore.keys = OrderedSet.ofList (entries.map Prod.fst)
  core : ∀ c, (byCore.getD c (.ofCore c)).core = c
  ascending : ∀ c, Ascending (byCore.getD c (.ofCore c)).lookaheads
  mem_lookaheads_iff : ∀ c x,
    x ∈ (byCore.getD c (.ofCore c)).lookaheads ↔ ∃ ls, (c, ls) ∈ entries ∧ x ∈ ls

section ByCore

variable {byCore : OrderedMap DottedRule MergedItem}

theorem holdsEntries_nil : HoldsEntries [] ∅ where
  keys := rfl
  core _ := by simp [OrderedMap.getD, MergedItem.ofCore]
  ascending _ := by simp [OrderedMap.getD, MergedItem.ofCore, Ascending]
  mem_lookaheads_iff _ _ := by simp [OrderedMap.getD, MergedItem.ofCore]

private theorem getD_addAtCore (core : DottedRule) (lookaheads : List Symbol) (c : DottedRule) :
    (addAtCore byCore core lookaheads).getD c (.ofCore c) =
      if c = core then lookaheads.foldl MergedItem.addLookahead (byCore.getD c (.ofCore c))
      else byCore.getD c (.ofCore c) := by
  rw [OrderedMap.getD, addAtCore, OrderedMap.get?_update]
  split
  · next hc => rw [hc, Option.getD_some]
  · rfl

theorem HoldsEntries.concat (h : HoldsEntries entries byCore) (e : DottedRule × List Symbol) :
    HoldsEntries (entries ++ [e]) (addAtCore byCore e.1 e.2) := by
  refine ⟨?_, fun c => ?_, fun c => ?_, fun c x => ?_⟩
  · rw [addAtCore, OrderedMap.keys_update, h.keys, List.map_append, List.map_singleton,
      OrderedSet.ofList_concat]
  · rw [getD_addAtCore]
    split
    · rw [foldl_addLookahead, h.core]
    · exact h.core c
  · rw [getD_addAtCore]
    split
    · rw [foldl_addLookahead]
      exact ascending_foldl_insertSorted (h.ascending c)
    · exact h.ascending c
  · have hentries : (∃ ls, (c, ls) ∈ entries ++ [e] ∧ x ∈ ls) ↔
        (∃ ls, (c, ls) ∈ entries ∧ x ∈ ls) ∨ c = e.1 ∧ x ∈ e.2 := by
      obtain ⟨core, lookaheads⟩ := e
      simp [or_and_right, exists_or, and_assoc]
    rw [getD_addAtCore, hentries, ← h.mem_lookaheads_iff]
    split
    · next hc => simp [foldl_addLookahead, mem_foldl_insertSorted, hc]
    · next hc => simp [hc]

theorem holdsEntries_foldl (entries : List (DottedRule × List Symbol)) :
    HoldsEntries entries (entries.foldl (fun byCore e => addAtCore byCore e.1 e.2) ∅) := by
  induction entries using List.reverseRecOn with
  | nil => exact holdsEntries_nil
  | append_singleton entries e ih =>
    rw [List.foldl_append]
    exact ih.concat e

theorem HoldsEntries.gatheredFrom (h : HoldsEntries entries byCore) :
    GatheredFrom (entries.map Prod.fst) (fun c x => ∃ ls, (c, ls) ∈ entries ∧ x ∈ ls)
      byCore.values.toList := by
  have hvalues := byCore.toList_values MergedItem.ofCore
  refine ⟨?_, fun m hm => ?_, fun m hm x => ?_⟩
  · rw [hvalues, List.map_map, ← OrderedSet.toList_ofList, ← h.keys]
    exact (List.map_congr_left fun c _ => h.core c).trans (List.map_id' _)
  all_goals
    rw [hvalues] at hm
    obtain ⟨c, -, rfl⟩ := List.mem_map.mp hm
  · exact h.ascending c
  · rw [h.core, h.mem_lookaheads_iff]

end ByCore

/-- Grouping by core gives what is there when the entries have been added one after the other. -/
theorem gatherLookaheads_eq_values (entries : List (DottedRule × List Symbol)) :
    gatherLookaheads entries =
      (entries.foldl (fun byCore e => addAtCore byCore e.1 e.2) ∅).values.toList :=
  (gatheredFrom_gatherLookaheads entries).unique (holdsEntries_foldl entries).gatheredFrom

/-- Items collapsed by adding one lookahead after the other. -/
def collapseInPlace (items : List LookaheadItem) : List MergedItem :=
  (items.foldl (fun byCore i => addAtCore byCore i.core [i.lookahead]) ∅).values.toList

/-- Lists of items merged by adding the lookaheads of one item after the other. -/
def mergeInPlace (lists : List (List MergedItem)) : List MergedItem :=
  (lists.flatten.foldl (fun byCore m => addAtCore byCore m.core m.lookaheads) ∅).values.toList

theorem collapseInPlace_eq_collapse : collapseInPlace = collapse := by
  funext items
  rw [collapse, gatherLookaheads_eq_values, List.foldl_map]
  rfl

theorem mergeInPlace_eq_mergeItems : mergeInPlace = mergeItems := by
  funext lists
  rw [mergeItems, gatherLookaheads_eq_values, List.foldl_map]
  rfl

/-! ### Merging collapsed lists -/

/-- Merging lists that have been collapsed one by one collapses their concatenation, in place or
not. -/
theorem mergeItems_map_collapse (lists : List (List LookaheadItem)) :
    mergeItems (lists.map collapse) = collapse lists.flatten ∧
      GatheredFrom (lists.flatten.map LookaheadItem.core) (fun c x => ⟨c, x⟩ ∈ lists.flatten)
        (collapse lists.flatten) ∧
      mergeInPlace (lists.map collapseInPlace) = collapse lists.flatten ∧
      collapseInPlace lists.flatten = collapse lists.flatten := by
  have hmerge : mergeItems (lists.map collapse) = collapse lists.flatten := by
    have h := mergeItems_map_gatherLookaheads
      (lists.map (List.map fun i => (i.core, [i.lookahead])))
    rwa [List.map_map, ← List.map_flatten] at h
  refine ⟨hmerge, gatheredFrom_collapse lists.flatten, ?_, ?_⟩
  · rw [collapseInPlace_eq_collapse, mergeInPlace_eq_mergeItems, hmerge]
  · rw [collapseInPlace_eq_collapse]

end GrammarTables
