import Mathlib.Data.List.Basic
import GrammarTables.Proofs.SearchProjection
import GrammarTables.Proofs.TransitiveClosure

/-!
# Rows of a closed set of nodes

A set of nodes is closed under a relation if no edge leaves it. What its nodes are joined to and
handed on, and in what order, does not depend on the edges of other nodes
(`targets_propagate_filter`).
-/

namespace GrammarTables

universe u v

namespace OrderedSet

variable {α : Type u} [Ord α] [Std.TransOrd α] [Std.LawfulEqOrd α]

theorem toList_ofList_filter (p : α → Bool) (l : List α) :
    (ofList (l.filter p)).toList = (ofList l).toList.filter p := by
  have h := ofList_filterMap_toList (Option.guard p) l
  rw [List.filterMap_eq_filter] at h
  rw [← h, toList_ofList_of_nodup ((nodup_toList _).filter p)]

theorem filter_toList_insertMany {p : α → Bool} {s : OrderedSet α} (hp : ∀ a, p a = true → a ∈ s)
    (l : List α) : (s.insertMany l).toList.filter p = s.toList.filter p := by
  have hnodup := (s.insertMany l).nodup_toList
  obtain ⟨rest, hrest⟩ := toList_isPrefix_insertMany s l
  rw [← hrest, List.nodup_append] at hnodup
  have hnone : rest.filter p = [] := by
    rw [List.filter_eq_nil_iff]
    intro a ha hpa
    exact hnodup.2.2 a (hp a hpa) a ha rfl
  rw [← hrest, List.filter_append, hnone, List.append_nil]

end OrderedSet

namespace Relation

variable {α : Type u} [Ord α] [Std.TransOrd α]

/-! ### Edges of one node -/

section Edges

variable [DecidableEq α]

private theorem filter_fst_eq {κ : Type u} {ν : Type v} [DecidableEq κ] {l : List (κ × ν)} {k : κ}
    {x : ν} (hl : (l.map Prod.fst).Nodup) (hx : (k, x) ∈ l) : l.filter (·.1 = k) = [(k, x)] := by
  induction l with
  | nil => cases hx
  | cons e l ih =>
    rw [List.map_cons, List.nodup_cons] at hl
    rcases List.mem_cons.mp hx with rfl | hm
    · have hnone : l.filter (·.1 = k) = [] := by
        rw [List.filter_eq_nil_iff]
        intro e he hek
        exact hl.1 (List.mem_map.mpr ⟨e, he, of_decide_eq_true hek⟩)
      rw [List.filter_cons_of_pos (by simp), hnone]
    · have hne : e.1 ≠ k := fun hek => hl.1 (List.mem_map.mpr ⟨_, hm, hek.symm⟩)
      rw [List.filter_cons_of_neg (by simpa using hne), ih hl.2 hm]

private theorem filter_toList (m : OrderedMap α (OrderedSet α)) (a : α) :
    m.toList.filter (·.1 = a) = ((m.get? a).map fun row => (a, row)).toList := by
  cases h : m.get? a with
  | some row =>
    apply filter_fst_eq _ (OrderedMap.mem_toList.mpr h)
    rw [OrderedMap.map_fst_toList]
    exact OrderedSet.nodup_toList _
  | none =>
    rw [Option.map_none, Option.toList_none, List.filter_eq_nil_iff]
    rintro ⟨k, row⟩ hm hk
    have hka : k = a := of_decide_eq_true hk
    rw [OrderedMap.mem_toList, hka, h] at hm
    cases hm

theorem filter_edges (r : Relation α) (a : α) :
    r.edges.filter (·.1 = a) = (r.targets a).toList.map fun b => (a, b) := by
  have hrows : r.edges.filter (·.1 = a) = (r.rows.toList.filter (·.1 = a)).flatMap
      fun row => row.2.toList.map fun b => (row.1, b) := by
    rw [edges]
    induction r.rows.toList with
    | nil => rfl
    | cons row l ih =>
      rw [List.flatMap_cons, List.filter_append, ih]
      by_cases h : row.1 = a
      · rw [List.filter_cons_of_pos (by simpa using h), List.flatMap_cons,
          List.filter_eq_self.mpr (by simp [h])]
      · rw [List.filter_cons_of_neg (by simpa using h), List.filter_eq_nil_iff.mpr (by simp [h]),
          List.nil_append]
  rw [hrows, filter_toList, targets, OrderedMap.getD]
  cases r.rows.get? a with
  | some row => exact List.flatMap_singleton _ _
  | none => rfl

end Edges

/-! ### Relations that agree on a closed set -/

/-- The nodes of the set have the same targets in both relations, which lie in the set. -/
structure AgreeOn (S : α → Prop) (r s : Relation α) : Prop where
  closed : ∀ a, S a → ∀ b ∈ r.targets a, S b
  targets_eq : ∀ a, S a → r.targets a = s.targets a

namespace AgreeOn

variable {S : α → Prop} {r s t : Relation α} {k : α}

theorem symm (h : AgreeOn S r s) : AgreeOn S s r where
  closed a ha := h.targets_eq a ha ▸ h.closed a ha
  targets_eq a ha := (h.targets_eq a ha).symm

theorem trans (h : AgreeOn S r s) (h' : AgreeOn S s t) : AgreeOn S r t :=
  ⟨h.closed, fun a ha => (h.targets_eq a ha).trans (h'.targets_eq a ha)⟩

end AgreeOn

variable [Std.LawfulEqOrd α]

namespace AgreeOn

variable {S : α → Prop} {r s : Relation α}

/-- It does not matter to the set if the relations are joined through the same node, or one of them
through a node that leads nowhere within the set. -/
theorem joinThrough (h : AgreeOn S r s) (k : α) :
    AgreeOn S (r.joinThrough k) (s.joinThrough k) where
  closed a ha b hb := by
    rw [targets_joinThrough] at hb
    split at hb
    · rename_i hk
      rcases OrderedSet.mem_union.mp hb with hb | hb
      · exact h.closed a ha b hb
      · exact h.closed k (h.closed a ha k hk) b hb
    · exact h.closed a ha b hb
  targets_eq a ha := by
    rw [targets_joinThrough, targets_joinThrough, ← h.targets_eq a ha]
    split
    · rename_i hk
      rw [h.targets_eq k (h.closed a ha k hk)]
    · rfl

theorem joinThrough_left (h : AgreeOn S r s) (hk : S k → s.targets k = ∅) :
    AgreeOn S (r.joinThrough k) s := by
  refine (h.joinThrough k).trans ⟨fun a ha => ?_, fun a ha => ?_⟩
  · exact (h.joinThrough k).symm.closed a ha
  · rw [targets_joinThrough]
    split
    · rename_i hm
      rw [hk (h.symm.closed a ha k hm)]
      rfl
    · rfl

theorem foldl_joinThrough_filter (h : AgreeOn S r s) {p : α → Bool} {l : List α}
    (hl : ∀ k ∈ l, p k = false → S k → s.targets k = ∅) :
    AgreeOn S (l.foldl Relation.joinThrough r) ((l.filter p).foldl Relation.joinThrough s) := by
  induction l generalizing r s with
  | nil => exact h
  | cons k l ih =>
    have hrest : ∀ k' ∈ l, p k' = false → S k' → s.targets k' = ∅ :=
      fun k' hk' => hl k' (by simp [hk'])
    rw [List.foldl_cons]
    cases hp : p k with
    | false =>
      rw [List.filter_cons_of_neg (by simp [hp])]
      exact ih (h.joinThrough_left (hl k (by simp) hp)) hrest
    | true =>
      rw [List.filter_cons_of_pos hp, List.foldl_cons]
      refine ih (h.joinThrough k) fun k' hk' hp' hs => ?_
      have hempty := hrest k' hk' hp' hs
      rw [targets_joinThrough, hempty]
      exact if_neg List.not_mem_nil

end AgreeOn

variable [DecidableEq α]

theorem targets_ofEdges (l : List (α × α)) (a : α) :
    (ofEdges l).targets a = OrderedSet.ofList ((l.filter (·.1 = a)).map Prod.snd) := by
  rw [← OrderedMap.getD_group, targets, OrderedMap.getD, ofEdges, OrderedMap.get?_mapValues,
    OrderedMap.getD]
  cases (OrderedMap.group l).get? a <;> rfl

/-! ### Leaving out the edges of other nodes -/

private theorem agreeOn_withTargetRows {S : α → Prop} {r s : Relation α} (h : AgreeOn S r s) :
    AgreeOn S r.withTargetRows s.withTargetRows where
  closed a ha := by
    rw [targets_withTargetRows]
    exact h.closed a ha
  targets_eq a ha := by
    rw [targets_withTargetRows, targets_withTargetRows]
    exact h.targets_eq a ha

section Filter

variable {S : α → Prop} [DecidablePred S] {l : List (α × α)} {a b : α}

theorem targets_ofEdges_filter (ha : S a) :
    (ofEdges (l.filter (S ·.1))).targets a = (ofEdges l).targets a := by
  rw [targets_ofEdges, targets_ofEdges, List.filter_filter]
  congr 2
  apply List.filter_congr
  intro e _
  by_cases he : e.1 = a
  · simp [he, ha]
  · simp [he]

theorem agreeOn_ofEdges_filter (hl : ∀ e ∈ l, S e.1 → S e.2) :
    AgreeOn S (ofEdges l) (ofEdges (l.filter (S ·.1))) where
  closed _ ha _ hb := hl _ (mem_targets_ofEdges.mp hb) ha
  targets_eq _ ha := (targets_ofEdges_filter ha).symm

private def isSource (S : α → Prop) [DecidablePred S] (l : List (α × α)) (a : α) : Bool :=
  decide (S a ∧ a ∈ l.map Prod.fst)

private theorem targets_eq_empty (h : isSource S l a = false) (ha : S a) :
    (ofEdges l).withTargetRows.targets a = ∅ := by
  have hnone : l.filter (·.1 = a) = [] := by
    rw [List.filter_eq_nil_iff]
    intro e he hea
    exact of_decide_eq_false h ⟨ha, List.mem_map.mpr ⟨e, he, of_decide_eq_true hea⟩⟩
  rw [targets_withTargetRows, targets_ofEdges, hnone]
  rfl

private theorem filter_keys_ofEdges :
    (ofEdges l).withTargetRows.rows.keys.toList.filter (isSource S l) =
      (ofEdges (l.filter (S ·.1))).withTargetRows.rows.keys.toList.filter (isSource S l) := by
  have hkeys : (l.filter (S ·.1)).map Prod.fst = (l.map Prod.fst).filter S := by
    rw [List.filter_map]
    rfl
  have hin : ∀ a, isSource S l a = true → a ∈ (ofEdges l).rows.keys := by
    intro a ha
    rw [keys_ofEdges, OrderedSet.mem_ofList]
    exact (of_decide_eq_true ha).2
  have hin' : ∀ a, isSource S l a = true → a ∈ (ofEdges (l.filter (S ·.1))).rows.keys := by
    intro a ha
    rw [keys_ofEdges, hkeys, OrderedSet.mem_ofList, List.mem_filter, decide_eq_true_eq]
    exact (of_decide_eq_true ha).symm
  rw [keys_withTargetRows, keys_withTargetRows, OrderedSet.filter_toList_insertMany hin,
    OrderedSet.filter_toList_insertMany hin', keys_ofEdges, keys_ofEdges, hkeys,
    OrderedSet.toList_ofList_filter, List.filter_filter]
  apply List.filter_congr
  intro a ha
  rw [OrderedSet.mem_toList, OrderedSet.mem_ofList] at ha
  simp [isSource, ha]

theorem agreeOn_closure_filter (hl : ∀ e ∈ l, S e.1 → S e.2) :
    AgreeOn S (ofEdges l).closure (ofEdges (l.filter (S ·.1))).closure := by
  have hrows := agreeOn_withTargetRows (agreeOn_ofEdges_filter hl)
  have hidle : ∀ a, isSource S l a = false → S a →
      (ofEdges (l.filter (S ·.1))).withTargetRows.targets a = ∅ := by
    intro a ha hs
    rw [← hrows.targets_eq a hs]
    exact targets_eq_empty ha hs
  -- to join through other nodes than the sources changes nothing for the set
  have hleft := hrows.foldl_joinThrough_filter
    (l := (ofEdges l).withTargetRows.rows.keys.toList) fun a _ => hidle a
  have hright := (hrows.symm.trans hrows).foldl_joinThrough_filter
    (l := (ofEdges (l.filter (S ·.1))).withTargetRows.rows.keys.toList) fun a _ => hidle a
  rw [← filter_keys_ofEdges] at hright
  exact hleft.trans hright.symm

end Filter

/-! ### Propagation -/

private theorem targets_foldl_inherit (r : Relation α) (l : List (α × α))
    (rows : OrderedMap α (OrderedSet α)) (a : α) : (Relation.mk (l.foldl r.inherit rows)).targets a =
      ((l.filter (·.1 = a)).map Prod.snd).foldl (fun row b => row.union (r.targets b))
        ((Relation.mk rows).targets a) := by
  induction l generalizing rows with
  | nil => rfl
  | cons edge l ih =>
    rw [List.foldl_cons, ih, targets_inherit]
    by_cases h : edge.1 = a
    · rw [if_pos h, List.filter_cons_of_pos (by simpa using h), List.map_cons, List.foldl_cons]
    · rw [if_neg h, List.filter_cons_of_neg (by simpa using h)]

theorem targets_propagate (r along : Relation α) (a : α) : (r.propagate along).targets a =
    (along.closure.targets a).toList.foldl (fun row b => row.union (r.targets b))
      (r.targets a) := by
  have h := targets_foldl_inherit r along.closure.edges r.rows a
  rw [filter_edges, List.map_map] at h
  exact h.trans (congrArg (List.foldl _ _) (List.map_id _))

/-- What the nodes of a closed set are handed on does not depend on the edges of other nodes. -/
theorem targets_propagate_filter {S : α → Prop} [DecidablePred S] {l m : List (α × α)} {a : α}
    (hm : ∀ e ∈ m, S e.1 → S e.2) (ha : S a) :
    ((ofEdges (l.filter (S ·.1))).propagate (ofEdges (m.filter (S ·.1)))).targets a =
      ((ofEdges l).propagate (ofEdges m)).targets a := by
  have h := agreeOn_closure_filter hm
  rw [targets_propagate, targets_propagate, ← h.targets_eq a ha, targets_ofEdges_filter ha]
  apply List.foldl_ext
  intro row b hb
  rw [targets_ofEdges_filter (h.closed a ha b hb)]

end Relation

end GrammarTables
