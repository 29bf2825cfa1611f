import GrammarTables.Proofs.CanonicalCollection
import GrammarTables.Proofs.OrderedImages

/-!
# Renaming productions

A grammar is renamed into another if the other has its productions in the same order, perhaps among
more, and knows the same of its symbols. Then the items of the first grammar, with their productions
renamed, predict in the second what they predict in the first, and closures and successors go along.
-/

namespace GrammarTables

/-! ### Grammars -/

namespace Grammar

variable {f : ProductionId → ProductionId} {g h : Grammar} {x y : Symbol} {p q : ProductionId}

/-- The productions of the first grammar stand in the second one under the ids that `f` gives
them. -/
structure Renames (f : ProductionId → ProductionId) (h g : Grammar) : Prop where
  start_eq : h.start = g.start
  accept_eq : f .accept = .accept
  production?_eq : ∀ p ∈ h, g.production? (f p) = h.production? p
  keepsOrder : KeepsOrder (· ∈ h) f
  mem_terminals_iff : ∀ x, x ∈ h.terminals ∨ x ∈ h.nonterminals →
    (x ∈ g.terminals ↔ x ∈ h.terminals)
  mem_nonterminals_iff : ∀ x, x ∈ h.terminals ∨ x ∈ h.nonterminals →
    (x ∈ g.nonterminals ↔ x ∈ h.nonterminals)
  alternatives_eq : ∀ x, x ∈ h.terminals ∨ x ∈ h.nonterminals →
    g.alternatives x = (h.alternatives x).map f
  firstOfSnoc_eq : ∀ u y, (∀ x ∈ u, x ∈ h.terminals ∨ x ∈ h.nonterminals) → h.IsToken y →
    g.firstTable.firstOfSnoc u y = h.firstTable.firstOfSnoc u y

namespace Renames

theorem mem (hf : Renames f h g) (hp : p ∈ h) : f p ∈ g := by
  have hprod := hf.production?_eq p hp
  change (g.production? (f p)).isSome
  rw [hprod]
  exact hp

theorem body_eq (hf : Renames f h g) (hp : p ∈ h) : g.body (f p) = h.body p := by
  rw [body, body, hf.production?_eq p hp, hf.start_eq]

theorem isToken (hf : Renames f h g) (hy : h.IsToken y) : g.IsToken y :=
  hy.imp_left fun ht => (hf.mem_terminals_iff y (Or.inl ht)).mpr ht

theorem isTerminal_eq (hf : Renames f h g) (hx : x ∈ h.terminals ∨ x ∈ h.nonterminals) :
    g.isTerminal x = h.isTerminal x := by
  rw [Bool.eq_iff_iff, isTerminal_iff, isTerminal_iff, hf.mem_terminals_iff x hx]

theorem isNonterminal_eq (hf : Renames f h g) (hx : x ∈ h.terminals ∨ x ∈ h.nonterminals) :
    g.isNonterminal x = h.isNonterminal x := by
  rw [Bool.eq_iff_iff, isNonterminal_iff, isNonterminal_iff, hf.mem_nonterminals_iff x hx]

end Renames

end Grammar

/-! ### Items -/

namespace DottedRule

variable {f : ProductionId → ProductionId} {g h : Grammar} {d : DottedRule}

def rename (f : ProductionId → ProductionId) (d : DottedRule) : DottedRule :=
  { d with production := f d.production }

theorem remainder_rename (hf : h.Renames f g) (hd : d.production ∈ h) :
    (d.rename f).remainder g = d.remainder h := by
  rw [remainder_eq, remainder_eq, rename, hf.body_eq hd]

theorem next?_rename (hf : h.Renames f g) (hd : d.production ∈ h) :
    (d.rename f).next? g = d.next? h := by
  rw [next?, next?, remainder_rename hf hd]

theorem isComplete_rename (hf : h.Renames f g) (hd : d.production ∈ h) :
    (d.rename f).isComplete g = d.isComplete h := by
  rw [isComplete, isComplete, remainder_rename hf hd]

end DottedRule

def LookaheadItem.rename (f : ProductionId → ProductionId) (i : LookaheadItem) : LookaheadItem :=
  { i with core := i.core.rename f }

def MergedItem.rename (f : ProductionId → ProductionId) (m : MergedItem) : MergedItem :=
  { m with core := m.core.rename f }

/-- Items that predict under other names what they predict under their own. -/
class RenamableItem (ι : Type) [PredictiveItem ι] extends LawfulItem ι where
  rename : (ProductionId → ProductionId) → ι → ι
  core_rename : ∀ f i, Item.core (rename f i) = (Item.core i).rename f
  lookaheads_rename : ∀ f i, Item.lookaheads (rename f i) = Item.lookaheads i
  rename_initial : ∀ f, f .accept = .accept →
    rename f (PredictiveItem.initial : ι) = PredictiveItem.initial
  rename_shifted : ∀ f i, rename f (PredictiveItem.shifted i) = PredictiveItem.shifted (rename f i)
  compare_rename : ∀ f (i j : ι), compare (f (Item.core i).production) (f (Item.core j).production) =
    compare (Item.core i).production (Item.core j).production →
      compare (rename f i) (rename f j) = compare i j
  predict_rename : ∀ f g h (i : ι), Grammar.Renames f h g → h.Admissible i →
    PredictiveItem.predict g g.firstTable (rename f i) =
      (PredictiveItem.predict h h.firstTable i).map (List.map (rename f))

private theorem compare_core_rename {f : ProductionId → ProductionId} {c d : DottedRule}
    (hcd : compare (f c.production) (f d.production) = compare c.production d.production) :
    compare (c.rename f) (d.rename f) = compare c d := by
  change (compare (f c.production) (f d.production)).then (compare c.dot d.dot) =
    (compare c.production d.production).then (compare c.dot d.dot)
  rw [hcd]

instance : RenamableItem DottedRule where
  rename := DottedRule.rename
  core_rename _ _ := rfl
  lookaheads_rename _ _ := rfl
  rename_initial f hf := congrArg (DottedRule.mk · 0) hf
  rename_shifted _ _ := rfl
  compare_rename _ _ _ := compare_core_rename
  predict_rename f g h i hf hi := by
    have hp : i.production ∈ h := hi.production_mem
    change (i.rename f).predict g = (i.predict h).map _
    rw [DottedRule.predict_eq (hf.mem hp), DottedRule.predict_eq hp, DottedRule.next?_rename hf hp]
    cases hx : i.next? h with
    | none => rfl
    | some x =>
      have hknown := Grammar.mem_terminals_or_nonterminals_of_next? hx
      rw [Option.elim_some, Option.elim_some, hf.alternatives_eq x hknown, Except.map,
        List.map_map, List.map_map]
      rfl

instance : RenamableItem LookaheadItem where
  rename := LookaheadItem.rename
  core_rename _ _ := rfl
  lookaheads_rename _ _ := rfl
  rename_initial f hf := by
    change (⟨⟨f .accept, 0⟩, .endOfInput⟩ : LookaheadItem) = ⟨⟨.accept, 0⟩, .endOfInput⟩
    rw [hf]
  rename_shifted _ _ := rfl
  compare_rename f i j hij := by
    have hcore : compare (i.core.rename f) (j.core.rename f) = compare i.core j.core :=
      compare_core_rename hij
    change (compare (i.core.rename f) (j.core.rename f)).then (compare i.lookahead j.lookahead) =
      (compare i.core j.core).then (compare i.lookahead j.lookahead)
    rw [hcore]
  predict_rename f g h i hf hi := by
    have hp : i.core.production ∈ h := hi.production_mem
    have hp' : (i.rename f).core.production ∈ g := hf.mem hp
    have hr : (i.rename f).core.remainder g = i.core.remainder h :=
      DottedRule.remainder_rename hf hp
    change (i.rename f).predict g g.firstTable = (i.predict h h.firstTable).map _
    rw [LookaheadItem.predict, LookaheadItem.predict, if_pos hp, if_pos hp', hr]
    have hknown : ∀ x ∈ i.core.remainder h, x ∈ h.terminals ∨ x ∈ h.nonterminals := fun x hx =>
      Grammar.mem_terminals_or_nonterminals_of_remainder hp hx
    cases hrem : i.core.remainder h with
    | nil => rfl
    | cons x rest =>
      rw [hrem] at hknown
      have hx := hknown x (by simp)
      have hfirst : g.firstTable.firstOfSnoc rest (i.rename f).lookahead =
          h.firstTable.firstOfSnoc rest i.lookahead :=
        hf.firstOfSnoc_eq rest i.lookahead (fun z hz => hknown z (by simp [hz]))
          (hi.isToken i.lookahead (by simp [Item.lookaheads]))
      dsimp only
      rw [hf.isNonterminal_eq hx, hfirst]
      split
      · cases h.firstTable.firstOfSnoc rest i.lookahead with
        | error e => rfl
        | ok first =>
          change Except.ok _ = Except.ok _
          rw [hf.alternatives_eq x hx, List.flatMap_map, List.map_flatMap]
          simp only [List.map_map]
          rfl
      · rfl

namespace Grammar.Renames

variable {ι : Type} [PredictiveItem ι] [RenamableItem ι] {f : ProductionId → ProductionId}
  {g h : Grammar} {kernel kernel' items : List ι} {i j : ι} {x : Symbol}

theorem admissible_rename (hf : Renames f h g) (hi : h.Admissible i) :
    g.Admissible (RenamableItem.rename f i) where
  production_mem := by
    rw [RenamableItem.core_rename]
    exact hf.mem hi.production_mem
  dot_le := by
    rw [RenamableItem.core_rename]
    change (Item.core i).dot.toNat ≤ (g.body (f (Item.core i).production)).length
    rw [hf.body_eq hi.production_mem]
    exact hi.dot_le
  isToken y hy := by
    rw [RenamableItem.lookaheads_rename] at hy
    exact hf.isToken (hi.isToken y hy)

theorem keepsOrder_rename (hf : Renames f h g) :
    KeepsOrder h.Admissible (RenamableItem.rename f : ι → ι) := fun _ _ hi hj =>
  RenamableItem.compare_rename f _ _ (hf.keepsOrder _ _ hi.production_mem hj.production_mem)

theorem next?_rename (hf : Renames f h g) (hi : h.Admissible i) :
    (Item.core (RenamableItem.rename f i)).next? g = (Item.core i).next? h := by
  rw [RenamableItem.core_rename]
  exact DottedRule.next?_rename hf hi.production_mem

/-! ### Closures and successors -/

private theorem tracks_rename (hf : Renames f h g) {found : OrderedSet ι}
    (hall : ∀ i ∈ found, h.Admissible i) :
    Exploration.Tracks (RenamableItem.rename f) (visitItem h) (visitItem g) found := by
  intro i hi note next hv
  refine ⟨(), next.map (RenamableItem.rename f), visitItem_eq_ok_iff.mpr ?_, rfl⟩
  rw [RenamableItem.predict_rename f g h i hf (hall i hi), visitItem_eq_ok_iff.mp hv]
  rfl

theorem closure_rename (hf : Renames f h g) (hk : ∀ i ∈ kernel, h.Admissible i)
    (hc : closure h h.firstTable kernel = .ok items) :
    closure g g.firstTable (kernel.map (RenamableItem.rename f)) =
      .ok (items.map (RenamableItem.rename f)) := by
  have hall := admissible_of_mem_closure hk hc
  have hlength := length_closure_le (belongs_of_admissible hk) hc
  have hnew := fun i => mem_kernel_or_dot_eq (i := i) (belongs_of_admissible hk) hc
  obtain ⟨e, hr, rfl⟩ := closure_eq_ok_iff.mp hc
  have himage := OrderedSet.toList_image (s := e.found) (f := RenamableItem.rename f)
    fun i hi j hj => hf.keepsOrder_rename.eq (hall i hi) (hall j hj)
  have hsize : (e.found.image (RenamableItem.rename f)).size ≤
      closureBound g (kernel.map (RenamableItem.rename f)) := by
    apply length_le_closureBound (OrderedSet.nodup_toList _)
    intro j hj
    obtain ⟨i, hi, rfl⟩ := OrderedSet.mem_image.mp hj
    refine (hnew i hi).imp List.mem_map_of_mem fun hd =>
      ⟨(hf.admissible_rename (hall i hi)).belongs, ?_⟩
    rw [RenamableItem.core_rename]
    refine ⟨hd.1, fun heq => hd.2 ?_⟩
    exact hf.keepsOrder.eq (hall i hi).production_mem accept_mem (heq.trans hf.accept_eq.symm)
  obtain ⟨e', hr', hfound⟩ := Exploration.run_project hr hlength (hf.tracks_rename hall) rfl hsize
  exact closure_eq_ok_iff.mpr ⟨e', hr', by rw [hfound, himage]⟩

private theorem shiftedItems_rename (hf : Renames f h g) (hall : ∀ i ∈ items, h.Admissible i) :
    shiftedItems g (items.map (RenamableItem.rename f)) =
      (shiftedItems h items).map (Prod.map id (RenamableItem.rename f)) := by
  rw [shiftedItems, shiftedItems, List.filterMap_map, List.map_filterMap]
  apply List.filterMap_congr
  intro i hi
  rw [Function.comp_apply, hf.next?_rename (hall i hi), Option.map_map, ← RenamableItem.rename_shifted]
  rfl

private theorem kernelAfter_rename (hf : Renames f h g) (hall : ∀ i ∈ items, h.Admissible i) :
    kernelAfter g (items.map (RenamableItem.rename f)) x =
      (kernelAfter h items x).map (RenamableItem.rename f) := by
  have hshifted : ((shiftedItems g (items.map (RenamableItem.rename f))).filter (·.1 = x)).map
      Prod.snd = (((shiftedItems h items).filter (·.1 = x)).map Prod.snd).map
        (RenamableItem.rename f) := by
    rw [hf.shiftedItems_rename hall, List.filter_map, List.map_map, List.map_map]
    rfl
  rw [kernelAfter, hshifted]
  apply hf.keepsOrder_rename.sortDistinct_map
  intro j hj
  rw [← mem_sortDistinct] at hj
  obtain ⟨i, hi, hx, rfl⟩ := mem_kernelAfter.mp hj
  exact (hall i hi).shifted hx

theorem successors_rename (hf : Renames f h g) (hall : ∀ i ∈ items, h.Admissible i) :
    successors g (items.map (RenamableItem.rename f)) =
      (successors h items).map (Prod.map id (List.map (RenamableItem.rename f))) := by
  have hsymbols : (shiftedItems g (items.map (RenamableItem.rename f))).map Prod.fst =
      (shiftedItems h items).map Prod.fst := by
    rw [hf.shiftedItems_rename hall, List.map_map]
    rfl
  rw [successors_eq, successors_eq, hsymbols, List.map_map]
  apply List.map_congr_left
  intro x _
  rw [hf.kernelAfter_rename hall]
  rfl

end Grammar.Renames

end GrammarTables
