import Mathlib.Logic.Relation
import Mathlib.Order.Bounds.Basic
import GrammarTables.Relation

/-!
# Transitive closure and propagation

`closure` computes the transitive closure of the edges of a relation, and `propagate` collects the
targets of all nodes that a path of edges leads to. Joining through the nodes one after the other
leaves every pair of edges joined that meet in a node already passed (`JoinedAt`), so one pass over
the rows is enough. A closure has a row for every node (`keys_closure`), and propagation makes the
least relation that inherits (`isLeast_propagate`).
-/

namespace GrammarTables.Relation

universe u

variable {α : Type u} [Ord α] [Std.TransOrd α]

def Edge (r : Relation α) (a b : α) : Prop := b ∈ r.targets a

instance (r : Relation α) (a b : α) : Decidable (r.Edge a b) :=
  inferInstanceAs (Decidable (b ∈ r.targets a))

theorem mem_keys_of_edge {r : Relation α} {a b : α} (h : r.Edge a b) : a ∈ r.rows.keys := by
  rw [← OrderedMap.isSome_get?]
  cases hr : r.rows.get? a with
  | some row => rfl
  | none =>
    rw [Edge, targets, OrderedMap.getD, hr] at h
    exact absurd (OrderedSet.mem_toList.mpr h) List.not_mem_nil

variable [Std.LawfulEqOrd α]

/-! ### Joining through nodes -/

theorem keys_joinThrough (r : Relation α) (k : α) :
    (r.joinThrough k).rows.keys = r.rows.keys := by
  rw [joinThrough]
  split <;> rfl

private theorem keys_foldl_joinThrough (l : List α) (r : Relation α) :
    (l.foldl joinThrough r).rows.keys = r.rows.keys := by
  induction l generalizing r with
  | nil => rfl
  | cons k l ih => rw [List.foldl_cons, ih, keys_joinThrough]

theorem targets_joinThrough (r : Relation α) (k a : α) : (r.joinThrough k).targets a =
    if k ∈ r.targets a then (r.targets a).union (r.targets k) else r.targets a := by
  rw [joinThrough]
  split
  · rename_i h
    have hk : (r.targets k).toList = [] := by
      simpa [OrderedSet.isEmpty, OrderedSet.toList] using h
    rw [OrderedSet.union, hk]
    exact (ite_self _).symm
  · simp only [targets, OrderedMap.getD, OrderedMap.get?_mapValues, ← OrderedSet.contains_iff]
    cases r.rows.get? a with
    | none => exact (if_neg (Bool.eq_false_iff.mp rfl)).symm
    | some row => rfl

theorem edge_joinThrough {r : Relation α} {k a b : α} :
    (r.joinThrough k).Edge a b ↔ r.Edge a b ∨ r.Edge a k ∧ r.Edge k b := by
  rw [Edge, targets_joinThrough]
  split
  · rename_i hk
    rw [OrderedSet.mem_union]
    exact or_congr_right (and_iff_right hk).symm
  · rename_i hk
    exact (or_iff_left fun h => hk h.1).symm

private theorem edge_foldl_joinThrough {l : List α} {r : Relation α} {a b : α} (h : r.Edge a b) :
    (l.foldl joinThrough r).Edge a b := by
  induction l generalizing r with
  | nil => exact h
  | cons k l ih => exact ih (edge_joinThrough.mpr (Or.inl h))

private theorem transGen_of_foldl_joinThrough {l : List α} {r s : Relation α}
    (h : ∀ a b, r.Edge a b → Relation.TransGen s.Edge a b) {a b : α}
    (hab : (l.foldl joinThrough r).Edge a b) : Relation.TransGen s.Edge a b := by
  induction l generalizing r with
  | nil => exact h a b hab
  | cons k l ih =>
    apply ih _ hab
    intro c d hcd
    rcases edge_joinThrough.mp hcd with hcd | hcd
    · exact h c d hcd
    · exact (h c k hcd.1).trans (h k d hcd.2)

/-- Two edges that meet in one of some nodes are joined to one. -/
private def JoinedAt (r : Relation α) (nodes : α → Prop) : Prop :=
  ∀ a c b, nodes c → r.Edge a c → r.Edge c b → r.Edge a b

private theorem joinedAt_joinThrough {r : Relation α} {nodes : α → Prop} (h : r.JoinedAt nodes)
    (k : α) : (r.joinThrough k).JoinedAt fun c => nodes c ∨ c = k := by
  intro a c b hc hac hcb
  rw [edge_joinThrough] at hac hcb ⊢
  rcases hc with hc | hc
  · rcases hac with hac | hac
    · rcases hcb with hcb | hcb
      · exact Or.inl (h a c b hc hac hcb)
      · exact Or.inr ⟨h a c k hc hac hcb.1, hcb.2⟩
    · rcases hcb with hcb | hcb
      · exact Or.inr ⟨hac.1, h k c b hc hac.2 hcb⟩
      · exact Or.inr ⟨hac.1, hcb.2⟩
  · subst hc
    have hac' : r.Edge a c := hac.elim id And.left
    have hcb' : r.Edge c b := hcb.elim id And.right
    exact Or.inr ⟨hac', hcb'⟩

private theorem joinedAt_foldl {l : List α} {r : Relation α} {nodes : α → Prop}
    (h : r.JoinedAt nodes) : (l.foldl joinThrough r).JoinedAt fun c => nodes c ∨ c ∈ l := by
  induction l generalizing r nodes with
  | nil => simpa using h
  | cons k l ih =>
    have hl := ih (joinedAt_joinThrough h k)
    simp only [or_assoc] at hl
    simpa only [List.mem_cons, List.foldl_cons] using hl

/-! ### Rows for targets -/

theorem keys_withTargetRows (r : Relation α) :
    r.withTargetRows.rows.keys = r.rows.keys.insertMany (r.edges.map Prod.snd) := by
  rw [withTargetRows]
  obtain ⟨rows⟩ := r
  generalize (Relation.mk rows).edges = l
  induction l generalizing rows with
  | nil => rfl
  | cons edge l ih =>
    rw [List.foldl_cons, ih, OrderedMap.keys_update]
    rfl

theorem keys_closure (r : Relation α) :
    r.closure.rows.keys = r.rows.keys.insertMany (r.edges.map Prod.snd) := by
  rw [closure, keys_foldl_joinThrough, keys_withTargetRows]

variable [DecidableEq α]

private theorem targets_update (rows : OrderedMap α (OrderedSet α)) (k a : α)
    (f : OrderedSet α → OrderedSet α) : (Relation.mk (rows.update k ∅ f)).targets a =
      if a = k then f ((Relation.mk rows).targets k) else (Relation.mk rows).targets a := by
  simp only [targets, OrderedMap.getD, OrderedMap.get?_update]
  split <;> rfl

theorem targets_withTargetRows (r : Relation α) (a : α) :
    r.withTargetRows.targets a = r.targets a := by
  rw [withTargetRows]
  obtain ⟨rows⟩ := r
  generalize (Relation.mk rows).edges = l
  induction l generalizing rows with
  | nil => rfl
  | cons edge l ih =>
    rw [List.foldl_cons, ih, targets_update]
    split
    · rename_i h
      rw [h, id]
    · rfl

theorem edge_withTargetRows {r : Relation α} {a b : α} :
    r.withTargetRows.Edge a b ↔ r.Edge a b := by
  rw [Edge, targets_withTargetRows, Edge]

/-! ### Transitive closure -/

theorem edge_closure_iff {r : Relation α} {a b : α} :
    r.closure.Edge a b ↔ Relation.TransGen r.Edge a b := by
  constructor
  · intro h
    apply transGen_of_foldl_joinThrough _ h
    intro c d hcd
    exact .single (edge_withTargetRows.mp hcd)
  · intro h
    induction h with
    | single h => exact edge_foldl_joinThrough (edge_withTargetRows.mpr h)
    | @tail c d _ hcd ih =>
      have hj : r.closure.JoinedAt fun c => False ∨ c ∈ r.withTargetRows.rows.keys.toList :=
        joinedAt_foldl (fun _ _ _ hf => hf.elim)
      have hcd' : r.closure.Edge c d := edge_foldl_joinThrough (edge_withTargetRows.mpr hcd)
      apply hj a c d _ ih hcd'
      rw [OrderedSet.mem_toList, ← keys_foldl_joinThrough r.withTargetRows.rows.keys.toList]
      exact Or.inr (mem_keys_of_edge hcd')

/-- The closure relates two nodes exactly if some edges lead from one to the other, and its nodes
are those of the relation, with a row or as targets only. -/
theorem contains_closure_iff_and_mem_keys (r : Relation α) (a b : α) :
    (r.closure.contains a b = true ↔ Relation.TransGen r.Edge a b) ∧
      (a ∈ r.closure.rows.keys ↔ a ∈ r.rows.keys ∨ ∃ c, r.Edge c a) := by
  refine ⟨contains_iff.trans edge_closure_iff, ?_⟩
  rw [keys_closure, OrderedSet.mem_insertMany, List.mem_map]
  refine or_congr_right ⟨?_, ?_⟩
  · rintro ⟨⟨c, d⟩, hc, rfl⟩
    exact ⟨c, mem_edges.mp hc⟩
  · rintro ⟨c, hc⟩
    exact ⟨(c, a), mem_edges.mpr hc, rfl⟩

/-- A loop of two nodes with a way out, the edges listed against their direction. -/
def loopWithExit : Relation Nat := ofEdges [(3, 4), (2, 3), (2, 1), (1, 2)]

/-- A node of the loop leads to itself, and the end of the way out has a row, an empty one. -/
theorem contains_closure_iff_and_mem_keys_loopWithExit :
    Relation.TransGen loopWithExit.Edge 1 1 ∧ ¬Relation.TransGen loopWithExit.Edge 3 1 ∧
      4 ∉ loopWithExit.rows.keys ∧ 4 ∈ loopWithExit.closure.rows.keys ∧
      ∀ b, ¬Relation.TransGen loopWithExit.Edge 4 b := by
  have hedge : loopWithExit.Edge 3 4 := by decide +kernel
  have hrow : (loopWithExit.closure.targets 4).toList = [] := by decide +kernel
  have hall := contains_closure_iff_and_mem_keys loopWithExit
  refine ⟨(hall 1 1).1.mp (by decide +kernel), ?_, by decide +kernel,
    (hall 4 4).2.mpr (Or.inr ⟨3, hedge⟩), fun b hb => ?_⟩
  · rw [← (hall 3 1).1]
    decide +kernel
  · have hb : b ∈ loopWithExit.closure.targets 4 := contains_iff.mp ((hall 4 b).1.mpr hb)
    rw [← OrderedSet.mem_toList, hrow] at hb
    exact List.not_mem_nil hb

/-! ### Propagation -/

/-- Let one node inherit what the relation has for another. -/
def inherit (r : Relation α) (rows : OrderedMap α (OrderedSet α)) (edge : α × α) :
    OrderedMap α (OrderedSet α) :=
  match r.rows.get? edge.2 with
  | some inherited => rows.update edge.1 ∅ (·.union inherited)
  | none => rows

theorem targets_inherit (r : Relation α) (rows : OrderedMap α (OrderedSet α))
    (edge : α × α) (a : α) : (Relation.mk (r.inherit rows edge)).targets a =
      if edge.1 = a then ((Relation.mk rows).targets a).union (r.targets edge.2)
      else (Relation.mk rows).targets a := by
  have hrow : r.targets edge.2 = (r.rows.get? edge.2).getD ∅ := rfl
  rw [inherit, hrow]
  cases r.rows.get? edge.2 with
  | some row =>
    dsimp only
    rw [targets_update]
    by_cases h : edge.1 = a
    · rw [if_pos h.symm, if_pos h, h]
      rfl
    · rw [if_neg (Ne.symm h), if_neg h]
  | none => exact (ite_self _).symm

private theorem edge_inherit {r : Relation α} {rows : OrderedMap α (OrderedSet α)} {c d a y : α} :
    (Relation.mk (r.inherit rows (c, d))).Edge a y ↔
      (Relation.mk rows).Edge a y ∨ c = a ∧ r.Edge d y := by
  rw [Edge, targets_inherit]
  split
  · rename_i h
    rw [OrderedSet.mem_union]
    exact or_congr_right (and_iff_right h).symm
  · rename_i h
    exact (or_iff_left fun hc => h hc.1).symm

private theorem edge_foldl_inherit {r : Relation α} {l : List (α × α)}
    {rows : OrderedMap α (OrderedSet α)} {a y : α} :
    (Relation.mk (l.foldl r.inherit rows)).Edge a y ↔
      (Relation.mk rows).Edge a y ∨ ∃ b, (a, b) ∈ l ∧ r.Edge b y := by
  induction l generalizing rows with
  | nil => simp
  | cons edge l ih =>
    obtain ⟨c, d⟩ := edge
    rw [List.foldl_cons, ih, edge_inherit]
    simp only [List.mem_cons, Prod.mk.injEq]
    grind

/-- A node collects the targets of all nodes that it reaches, itself included. -/
theorem edge_propagate_iff {r along : Relation α} {a y : α} :
    (r.propagate along).Edge a y ↔ ∃ b, Relation.ReflTransGen along.Edge a b ∧ r.Edge b y := by
  refine edge_foldl_inherit.trans ?_
  have hedges (b : α) : (a, b) ∈ along.closure.edges ↔ Relation.TransGen along.Edge a b :=
    mem_edges.trans edge_closure_iff
  simp only [hedges, Relation.reflTransGen_iff_eq_or_transGen]
  constructor
  · intro h
    rcases h with h | h
    · exact ⟨a, Or.inl rfl, h⟩
    · obtain ⟨b, hab, hby⟩ := h
      exact ⟨b, Or.inr hab, hby⟩
  · intro h
    obtain ⟨b, hab, hby⟩ := h
    rcases hab with rfl | hab
    · exact Or.inl hby
    · exact Or.inr ⟨b, hab, hby⟩

/-- Whether nodes keep their own targets in `s` and inherit those of each node that `along` leads
them to. -/
structure Inherits (r along : Relation α) (s : α → α → Prop) : Prop where
  own : ∀ a y, r.Edge a y → s a y
  inherited : ∀ a b y, along.Edge a b → s b y → s a y

private theorem inherits_propagate (r along : Relation α) :
    r.Inherits along (r.propagate along).Edge where
  own a y h := edge_propagate_iff.mpr ⟨a, .refl, h⟩
  inherited a b y hab h := by
    obtain ⟨c, hbc, hcy⟩ := edge_propagate_iff.mp h
    exact edge_propagate_iff.mpr ⟨c, .head hab hbc, hcy⟩

omit [Std.LawfulEqOrd α] [DecidableEq α] in
private theorem Inherits.of_reflTransGen {r along : Relation α} {s : α → α → Prop}
    (hs : r.Inherits along s) {a b y : α} (hab : Relation.ReflTransGen along.Edge a b)
    (h : s b y) : s a y := by
  induction hab using Relation.ReflTransGen.head_induction_on with
  | refl => exact h
  | head hac _ ih => exact hs.inherited _ _ _ hac ih

/-- Propagation makes the least relation in which nodes inherit. -/
theorem isLeast_propagate (r along : Relation α) :
    IsLeast {s : α → α → Prop | r.Inherits along s} (r.propagate along).Edge := by
  refine ⟨inherits_propagate r along, ?_⟩
  intro s hs a y h
  obtain ⟨b, hab, hby⟩ := edge_propagate_iff.mp h
  exact hs.of_reflTransGen hab (hs.own b y hby)

/-- Something to hand on at the end of the way out, in the loop and beside both. -/
def contributions : Relation Nat := ofEdges [(4, 40), (1, 10), (5, 50)]

/-- The loop inherits from the end of its way out, and the way out inherits nothing from the loop. -/
theorem isLeast_propagate_loopWithExit :
    IsLeast {s | contributions.Inherits loopWithExit s}
        (contributions.propagate loopWithExit).Edge ∧
      (contributions.propagate loopWithExit).Edge 2 40 ∧
      (contributions.propagate loopWithExit).Edge 5 50 ∧
      ¬(contributions.propagate loopWithExit).Edge 3 10 :=
  ⟨isLeast_propagate contributions loopWithExit, by decide +kernel, by decide +kernel,
    by decide +kernel⟩

end GrammarTables.Relation
