import GrammarTables.Proofs.CanonicalCollection
import GrammarTables.Proofs.SearchProjection

/-!
# Erasing lookaheads

If every nonterminal may vanish or begin with some terminal, an item predicts the same alternatives
whatever its lookahead is. Then closures, successors and the search for kernels over items with one
lookahead run along those over bare cores.
-/

namespace GrammarTables

/-! ### Lists in order -/

section Ordered

variable {α : Type} [Ord α] [Std.TransOrd α] [Std.LawfulEqOrd α]

private theorem insertMany_replicate (s : OrderedSet α) (a : α) {n : Nat} (hn : n ≠ 0) :
    s.insertMany (List.replicate n a) = s.insert a := by
  obtain ⟨n, rfl⟩ := Nat.exists_eq_succ_of_ne_zero hn
  rw [List.replicate_succ, OrderedSet.insertMany, List.foldl_cons]
  apply OrderedSet.insertMany_of_forall_mem
  intro b hb
  rw [(List.mem_replicate.mp hb).2]
  exact OrderedSet.mem_insert.mpr (Or.inl rfl)

private theorem ascending_insertMany {s : OrderedSet α} {l : List α} (hs : Ascending s.toList)
    (hl : l.Pairwise fun a b => compare a b ≠ .gt)
    (hsl : ∀ b ∈ s, ∀ a ∈ l, compare b a ≠ .gt) : Ascending (s.insertMany l).toList := by
  induction l generalizing s with
  | nil => exact hs
  | cons a l ih =>
    obtain ⟨ha, hl⟩ := List.pairwise_cons.mp hl
    rw [OrderedSet.insertMany, List.foldl_cons]
    apply ih _ hl
    · intro b hb c hc
      rcases OrderedSet.mem_insert.mp hb with rfl | hb
      · exact ha c hc
      · exact hsl b hb c (by simp [hc])
    · rw [OrderedSet.toList_insert]
      split
      · exact hs
      · rename_i hn
        refine List.pairwise_append.mpr ⟨hs, List.pairwise_singleton _ _, ?_⟩
        intro b hb c hc
        rw [List.mem_singleton.mp hc]
        cases hba : compare b a with
        | lt => rfl
        | eq => exact absurd (Std.LawfulEqOrd.eq_of_compare hba ▸ hb) hn
        | gt => exact absurd hba (hsl b hb a (by simp))

private theorem toList_ofList_of_pairwise {l : List α}
    (h : l.Pairwise fun a b => compare a b ≠ .gt) :
    (OrderedSet.ofList l).toList = sortDistinct l := by
  apply Ascending.ext _ (ascending_sortDistinct l)
  · intro a
    rw [OrderedSet.mem_toList, OrderedSet.mem_ofList, mem_sortDistinct]
  · exact ascending_insertMany List.Pairwise.nil h fun b hb => absurd hb List.not_mem_nil

end Ordered

namespace Grammar

variable {g : Grammar} {u : List Symbol} {a x y : Symbol}

/-- Every nonterminal may vanish or begin with some terminal. -/
def Startable (g : Grammar) : Prop :=
  ∀ x ∈ g.nonterminals, x ∈ g.nullable ∨ ∃ y, y ∈ g.first x

theorem startable_of_unproductive_eq_nil (h : g.unproductive = []) : g.Startable := by
  intro x hx
  obtain ⟨w, hw, hd⟩ := productive_of_unproductive_eq_nil h hx
  rcases begins_or_eq_nil (w := []) hd hw with hb | ⟨-, hn⟩
  · exact Or.inr ⟨_, (mem_first_iff_begins hx).mpr hb⟩
  · exact Or.inl (hn x (by simp))

theorem Startable.exists_begins (hg : g.Startable)
    (hu : ∀ x ∈ u, x ∈ g.terminals ∨ x ∈ g.nonterminals) (ha : g.IsToken a) :
    ∃ y, g.Begins (u ++ [a]) y := by
  induction u with
  | nil => exact ⟨a, (begins_token_iff ha).mpr rfl⟩
  | cons x u ih =>
    rw [List.cons_append, exists_congr fun _ => begins_cons]
    obtain ⟨y, hy⟩ := ih fun z hz => hu z (by simp [hz])
    rcases hu x (by simp) with hx | hx
    · exact ⟨x, Or.inl ((begins_token_iff (Or.inl hx)).mpr rfl)⟩
    · rcases hg x hx with hn | ⟨z, hz⟩
      · exact ⟨y, Or.inr ⟨hn, hy⟩⟩
      · exact ⟨z, Or.inl (begins_of_mem_first hz)⟩

end Grammar

/-! ### The search for kernels -/

/-- If kernels are expanded along each other, an automaton of the one kind gives one of the other,
with the images of its kernels in order of first occurrence. -/
theorem Collects.project {ι κ : Type} [PredictiveItem ι] [PredictiveItem κ] {g h : Grammar}
    {f : List ι → List κ} {e : Exploration (List ι) (Expansion ι)} {a : Automaton ι}
    (he : Collects h e a) (hinitial : f [PredictiveItem.initial] = [PredictiveItem.initial])
    (hstep : ∀ kernel ∈ e.found, ∀ note next, expand h h.firstTable kernel = .ok (note, next) →
      ∃ note', expand g g.firstTable (f kernel) = .ok (note', next.map f)) :
    ∃ (e' : Exploration (List κ) (Expansion κ)) (b : Automaton κ),
      Collects g e' b ∧ e'.found = e.found.image f := by
  have htracks : Exploration.Tracks f (expand h h.firstTable) (expand g g.firstTable) e.found := by
    intro kernel hk note next hv
    obtain ⟨note', hv'⟩ := hstep kernel hk note next hv
    exact ⟨note', _, hv', rfl⟩
  have hsize : (e.found.image f).size ≤ stateLimit := by
    have hle := OrderedSet.size_ofList_le (e.found.toList.map f)
    rw [List.length_map, OrderedSet.length_toList] at hle
    exact Nat.le_trans hle he.size_le
  have hstart : OrderedSet.ofList [[PredictiveItem.initial]] =
      OrderedSet.ofList ([[PredictiveItem.initial]].map f) := by
    rw [List.map_singleton, hinitial]
  obtain ⟨e', hr, hfound⟩ :=
    Exploration.run_project he.run_eq he.size_le htracks hstart hsize
  exact ⟨e', ⟨(statesOf e').toArray⟩, ⟨hr, hfound ▸ hsize, rfl⟩, hfound⟩

/-! ### Prediction -/

section Erasure

variable {g : Grammar} {i : LookaheadItem} {js kernel items : List LookaheadItem}

theorem Grammar.Admissible.core (hi : g.Admissible i) : g.Admissible i.core where
  production_mem := hi.production_mem
  dot_le := hi.dot_le
  isToken _ hy := absurd hy List.not_mem_nil

private theorem insertMany_flatMap_replicate (ps : List ProductionId) (s : OrderedSet DottedRule) {n : Nat}
    (hn : n ≠ 0) : s.insertMany (ps.flatMap fun p => List.replicate n ⟨p, 0⟩) =
      s.insertMany (ps.map fun p => ⟨p, 0⟩) := by
  induction ps generalizing s with
  | nil => rfl
  | cons p ps ih =>
    rw [List.flatMap_cons, OrderedSet.insertMany_append, insertMany_replicate s _ hn, ih]
    rfl

theorem Grammar.Startable.predict_core (hg : g.Startable) (hi : g.Admissible i)
    (h : i.predict g g.firstTable = .ok js) : ∃ cores, i.core.predict g = .ok cores ∧
      OrderedSet.ofList cores = OrderedSet.ofList (js.map LookaheadItem.core) := by
  refine ⟨((i.core.next? g).elim [] g.alternatives).map fun p => ⟨p, 0⟩,
    DottedRule.predict_eq hi.production_mem, ?_⟩
  cases hr : i.core.remainder g with
  | nil =>
    rw [LookaheadItem.predict_of_remainder_nil hi.belongs hr] at h
    cases h
    have hx : i.core.next? g = none := by rw [DottedRule.next?, hr, List.head?_nil]
    rw [hx]
    rfl
  | cons x rest =>
    obtain ⟨s, hs, hm⟩ := LookaheadItem.predict_of_remainder_cons hi.belongs hr
    rw [hs] at h
    cases h
    have hx : i.core.next? g = some x := DottedRule.next?_eq_some_iff.mpr ⟨rest, hr⟩
    -- each alternative is predicted once for each lookahead, and there is at least one
    have hne : s.toList.length ≠ 0 := by
      obtain ⟨y, hy⟩ := hg.exists_begins
        (fun z hz => Grammar.mem_terminals_or_nonterminals_of_remainder hi.production_mem
          (hr ▸ List.mem_cons_of_mem x hz))
        (hi.isToken i.lookahead (by simp [Item.lookaheads]))
      exact Nat.ne_of_gt (List.length_pos_of_mem ((hm y).mpr hy))
    have hcores : ((g.alternatives x).flatMap fun p => s.toList.map fun y =>
        (⟨⟨p, 0⟩, y⟩ : LookaheadItem)).map LookaheadItem.core =
          (g.alternatives x).flatMap fun p => List.replicate s.toList.length ⟨p, 0⟩ := by
      rw [List.map_flatMap]
      congr 1
      funext p
      rw [List.map_map]
      exact List.map_const'
    rw [hx, hcores]
    exact (insertMany_flatMap_replicate _ ∅ hne).symm

/-! ### Closures and successors -/

def coresOf (kernel : List LookaheadItem) : List DottedRule :=
  sortDistinct (kernel.map LookaheadItem.core)

theorem toList_ofList_map_core (hk : Ascending kernel) :
    (OrderedSet.ofList (kernel.map LookaheadItem.core)).toList = coresOf kernel := by
  apply toList_ofList_of_pairwise
  rw [List.pairwise_map]
  apply hk.imp
  intro i j hij hgt
  have hlex : compare i j = (compare i.core j.core).then (compare i.lookahead j.lookahead) := rfl
  rw [hlex, hgt] at hij
  cases hij

private theorem tracks_predict (hg : g.Startable) {found : OrderedSet LookaheadItem}
    (hf : ∀ i ∈ found, g.Admissible i) :
    Exploration.Tracks LookaheadItem.core (visitItem g) (visitItem g) found := by
  intro i hi note next hv
  obtain ⟨cores, hc, heq⟩ := hg.predict_core (hf i hi) (visitItem_eq_ok_iff.mp hv)
  exact ⟨(), cores, visitItem_eq_ok_iff.mpr hc, heq⟩

/-- The cores of a closure, in order of first occurrence, are the closure of the cores. -/
theorem Grammar.Startable.closure_core (hg : g.Startable) (ha : Ascending kernel)
    (hk : ∀ i ∈ kernel, g.Admissible i) (h : closure g g.firstTable kernel = .ok items) :
    closure g g.firstTable (coresOf kernel) =
      .ok (OrderedSet.ofList (items.map LookaheadItem.core)).toList := by
  have hall := admissible_of_mem_closure hk h
  have hlength := length_closure_le (belongs_of_admissible hk) h
  have hnew := fun i => mem_kernel_or_dot_eq (i := i) (belongs_of_admissible hk) h
  obtain ⟨e, hr, rfl⟩ := closure_eq_ok_iff.mp h
  have hstart : OrderedSet.ofList (coresOf kernel) =
      OrderedSet.ofList (kernel.map LookaheadItem.core) := by
    rw [← toList_ofList_map_core ha]
    exact OrderedSet.insertMany_toList_ofList ∅ _
  have hsize : (e.found.image LookaheadItem.core).size ≤ closureBound g (coresOf kernel) := by
    apply length_le_closureBound (OrderedSet.nodup_toList _)
    intro c hc
    obtain ⟨i, hi, rfl⟩ := OrderedSet.mem_image.mp hc
    rcases hnew i hi with hi' | hi'
    · exact Or.inl (mem_sortDistinct.mpr (List.mem_map_of_mem hi'))
    · exact Or.inr ⟨(hall i hi).core.belongs, hi'⟩
  obtain ⟨e', hr', hfound⟩ :=
    Exploration.run_project hr hlength (tracks_predict hg hall) hstart hsize
  exact closure_eq_ok_iff.mpr ⟨e', hr', congrArg OrderedSet.toList hfound⟩

private theorem kernelAfter_core (items : List LookaheadItem) (x : Symbol) :
    kernelAfter g (OrderedSet.ofList (items.map LookaheadItem.core)).toList x =
      coresOf (kernelAfter g items x) := by
  apply Ascending.ext (ascending_sortDistinct _) (ascending_sortDistinct _)
  intro c
  change c ∈ kernelAfter g _ x ↔ c ∈ coresOf _
  simp only [mem_kernelAfter, coresOf, mem_sortDistinct, List.mem_map, OrderedSet.mem_toList,
    OrderedSet.mem_ofList]
  constructor
  · rintro ⟨_, ⟨i, hi, rfl⟩, hx, rfl⟩
    exact ⟨PredictiveItem.shifted i, ⟨i, hi, hx, rfl⟩, rfl⟩
  · rintro ⟨_, ⟨i, hi, hx, rfl⟩, rfl⟩
    exact ⟨i.core, ⟨i, hi, rfl⟩, hx, rfl⟩

private theorem map_fst_shiftedItems {ι : Type} [PredictiveItem ι] (items : List ι) :
    (shiftedItems g items).map Prod.fst = (items.map Item.core).filterMap (·.next? g) := by
  rw [shiftedItems, List.map_filterMap, List.filterMap_map]
  congr 1
  funext i
  rw [Option.map_map]
  exact Option.map_id'

/-- The cores expect the same symbols in the same order, with the cores of the same kernels after
them. -/
theorem successors_core (g : Grammar) (items : List LookaheadItem) :
    successors g (OrderedSet.ofList (items.map LookaheadItem.core)).toList =
      (successors g items).map fun e => (e.1, coresOf e.2) := by
  have hsymbols : OrderedSet.ofList ((shiftedItems g
      (OrderedSet.ofList (items.map LookaheadItem.core)).toList).map Prod.fst) =
        OrderedSet.ofList ((shiftedItems g items).map Prod.fst) := by
    rw [map_fst_shiftedItems, map_fst_shiftedItems]
    change OrderedSet.ofList (((OrderedSet.ofList _).toList.map id).filterMap _) = _
    rw [List.map_id, OrderedSet.ofList_filterMap_toList]
    rfl
  rw [successors_eq, successors_eq, hsymbols, List.map_map]
  apply List.map_congr_left
  intro x _
  rw [kernelAfter_core]
  rfl

/-! ### Kernels without lookaheads -/

private theorem expand_core (hg : g.Startable) (ha : Ascending kernel)
    (hk : ∀ i ∈ kernel, g.Admissible i) {note : Expansion LookaheadItem}
    {next : List (List LookaheadItem)}
    (h : expand g g.firstTable kernel = .ok (note, next)) :
    ∃ note', expand g g.firstTable (coresOf kernel) = .ok (note', next.map coresOf) := by
  obtain ⟨hc, hs, hn⟩ := expand_eq_ok h
  have hall : ∀ c ∈ (OrderedSet.ofList (note.items.map LookaheadItem.core)).toList,
      (Item.core c).production ∈ g := by
    intro c hc'
    rw [OrderedSet.mem_toList, OrderedSet.mem_ofList] at hc'
    obtain ⟨i, hi, rfl⟩ := List.mem_map.mp hc'
    exact (admissible_of_mem_closure hk hc i hi).production_mem
  have hnext : next.map coresOf = (successors g
      (OrderedSet.ofList (note.items.map LookaheadItem.core)).toList).map Prod.snd := by
    rw [successors_core, hn, hs, List.map_map, List.map_map]
    rfl
  rw [hnext]
  exact ⟨_, expand_eq_ok_of_closure (hg.closure_core ha hk hc) hall⟩

/-- The search for kernels of bare cores finds the cores of the kernels with lookaheads, in order of
first occurrence. -/
theorem Grammar.Startable.exists_collects (hg : g.Startable)
    {e : Exploration (List LookaheadItem) (Expansion LookaheadItem)}
    {a : Automaton LookaheadItem} (he : Collects g e a) :
    ∃ (e' : Exploration (List DottedRule) (Expansion DottedRule)) (b : Automaton DottedRule),
      Collects g e' b ∧ e'.found = e.found.image coresOf := by
  refine he.project rfl fun kernel hk note next hv => ?_
  exact expand_core hg (ascending_collected he kernel hk) (admissible_collected he kernel hk) hv

end Erasure

end GrammarTables
