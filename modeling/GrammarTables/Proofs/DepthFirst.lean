import Mathlib.Data.List.Chain
import Mathlib.Data.List.Nodup
import Mathlib.Data.List.Perm.Subperm
import Mathlib.Order.WellFounded
import GrammarTables.Proofs.TransitiveClosure
import GrammarTables.Relation

/-!
# Depth-first search for a cycle

The search recurses on the targets of a node, and its walks share what has been finished. `Searches`
says what it does when nothing bounds the recursion. A path that goes on has its nodes among the
rows and repeats none, so the unbounded search ends, and with what the bounded one returns
(`searches_foldlM`).

What is reported is the path to the first node that is met twice (`isLasso_cycle`). A node is
finished after all its targets are, so every walk from a finished node ends, and a search that
reports nothing has finished every node (`acc_of_cycle_eq_nil`).
-/

namespace GrammarTables

theorem not_transGen_of_acc {α : Type*} {r : α → α → Prop} (h : ∀ a, Acc (Function.swap r) a)
    {a : α} : ¬Relation.TransGen r a a := by
  intro ha
  have hwf : WellFounded (Function.swap r) := ⟨h⟩
  exact hwf.transGen.irrefl.irrefl _ (Relation.transGen_swap.mpr ha)

namespace Relation

universe u

variable {α : Type u} [Ord α] [Std.TransOrd α]

/-! ### Walks that come back -/

/-- A walk along edges that ends when it comes back to one of its nodes: some nodes lead to a loop,
which the walk goes round once. -/
structure IsLasso (r : Relation α) (walk : List α) : Prop where
  isChain : walk.IsChain r.Edge
  exists_loop : ∃ before a loop, walk = before ++ a :: loop ++ [a] ∧ (before ++ a :: loop).Nodup

theorem IsLasso.ne_nil {r : Relation α} {walk : List α} (h : r.IsLasso walk) : walk ≠ [] := by
  obtain ⟨before, a, loop, rfl, -⟩ := h.exists_loop
  simp

theorem IsLasso.nodup_dropLast {r : Relation α} {walk : List α} (h : r.IsLasso walk) :
    walk.dropLast.Nodup := by
  obtain ⟨before, a, loop, rfl, hn⟩ := h.exists_loop
  rwa [List.dropLast_concat]

theorem IsLasso.exists_mem_dropLast {r : Relation α} {walk : List α} (h : r.IsLasso walk) :
    ∃ a ∈ walk.dropLast, walk.getLast? = some a := by
  obtain ⟨before, a, loop, rfl, -⟩ := h.exists_loop
  refine ⟨a, ?_, List.getLast?_concat⟩
  rw [List.dropLast_concat]
  simp

theorem transGen_of_isChain {r : Relation α} {a b : α} {between : List α}
    (h : (a :: between ++ [b]).IsChain r.Edge) : Relation.TransGen r.Edge a b := by
  induction between generalizing a with
  | nil => exact .single (List.isChain_pair.mp h)
  | cons c between ih =>
    obtain ⟨hac, hcb⟩ := List.isChain_cons_cons.mp h
    exact .head hac (ih hcb)

theorem IsLasso.transGen {r : Relation α} {before loop : List α} {a : α}
    (h : r.IsLasso (before ++ a :: loop ++ [a])) : Relation.TransGen r.Edge a a := by
  have hchain := h.isChain
  rw [List.append_assoc] at hchain
  exact transGen_of_isChain hchain.right_of_append

theorem IsLasso.exists_transGen {r : Relation α} {walk : List α} (h : r.IsLasso walk) :
    ∃ a, Relation.TransGen r.Edge a a := by
  obtain ⟨before, a, loop, rfl, -⟩ := h.exists_loop
  exact ⟨a, h.transGen⟩

private theorem isLasso_of_mem_path {r : Relation α} {node : α} {path : List α}
    (hc : (node :: path).IsChain fun a b => r.Edge b a) (hn : path.Nodup) (hm : node ∈ path) :
    r.IsLasso (node :: path).reverse := by
  obtain ⟨last, first, rfl⟩ := List.append_of_mem hm
  refine ⟨List.isChain_reverse.mpr hc, first.reverse, node, last.reverse, by simp, ?_⟩
  simpa using List.nodup_reverse.mpr hn

private theorem length_le_size {r : Relation α} {path : List α} (hn : path.Nodup)
    (hk : ∀ a ∈ path, a ∈ r.rows.keys) : path.length ≤ r.rows.size :=
  (hn.subperm hk).length_le

/-! ### The search without a bound -/

variable [Std.LawfulEqOrd α]

/-- Search on from each of some nodes in turn, to any depth. The nodes of the path, last one first,
lead to them. The outcome is the first walk that comes back to one of its own nodes, or else what is
finished in the end. -/
inductive Searches (r : Relation α) :
    List α → OrderedSet α → List α → Except (List α) (OrderedSet α) → Prop where
  | nil {path : List α} {finished : OrderedSet α} : Searches r path finished [] (.ok finished)
  | skip {path : List α} {finished : OrderedSet α} {node : α} {nodes : List α}
      {outcome : Except (List α) (OrderedSet α)} (hf : node ∈ finished)
      (hrest : Searches r path finished nodes outcome) :
      Searches r path finished (node :: nodes) outcome
  | close {path : List α} {finished : OrderedSet α} {node : α} {nodes : List α}
      (hf : node ∉ finished) (hp : node ∈ path) :
      Searches r path finished (node :: nodes) (.error (node :: path).reverse)
  | fail {path : List α} {finished : OrderedSet α} {node : α} {nodes walk : List α}
      (hf : node ∉ finished) (hp : node ∉ path)
      (htargets : Searches r (node :: path) finished (r.targets node).toList (.error walk)) :
      Searches r path finished (node :: nodes) (.error walk)
  | finish {path : List α} {finished finished' : OrderedSet α} {node : α} {nodes : List α}
      {outcome : Except (List α) (OrderedSet α)} (hf : node ∉ finished) (hp : node ∉ path)
      (htargets : Searches r (node :: path) finished (r.targets node).toList (.ok finished'))
      (hrest : Searches r path (finished'.insert node) nodes outcome) :
      Searches r path finished (node :: nodes) outcome

variable {r : Relation α} {path nodes walk : List α} {finished finished' : OrderedSet α}
  {outcome outcome' : Except (List α) (OrderedSet α)}

theorem Searches.unique (h : r.Searches path finished nodes outcome)
    (h' : r.Searches path finished nodes outcome') : outcome = outcome' := by
  induction h generalizing outcome' with
  | nil =>
    cases h'
    rfl
  | skip hf _ ih =>
    cases h' with
    | skip _ hrest => exact ih hrest
    | close hf' => exact absurd hf hf'
    | fail hf' => exact absurd hf hf'
    | finish hf' => exact absurd hf hf'
  | close hf hp =>
    cases h' with
    | skip hf' => exact absurd hf' hf
    | close => rfl
    | fail _ hp' => exact absurd hp hp'
    | finish _ hp' => exact absurd hp hp'
  | fail hf hp _ ih =>
    cases h' with
    | skip hf' => exact absurd hf' hf
    | close _ hp' => exact absurd hp' hp
    | fail _ _ htargets => exact ih htargets
    | finish _ _ htargets => cases ih htargets
  | finish hf hp _ _ ihtargets ihrest =>
    cases h' with
    | skip hf' => exact absurd hf' hf
    | close _ hp' => exact absurd hp' hp
    | fail _ _ htargets => cases ihtargets htargets
    | finish _ _ htargets hrest =>
      cases ihtargets htargets
      exact ihrest hrest

private theorem Searches.isLasso (h : r.Searches path finished nodes (.error walk))
    (hc : ∀ node ∈ nodes, (node :: path).IsChain fun a b => r.Edge b a) (hn : path.Nodup) :
    r.IsLasso walk := by
  generalize hwalk : (.error walk : Except (List α) (OrderedSet α)) = outcome at h
  induction h with
  | nil => cases hwalk
  | skip _ _ ih => exact ih (fun node hm => hc node (by simp [hm])) hn hwalk
  | @close _ _ node _ _ hp =>
    cases hwalk
    exact isLasso_of_mem_path (hc node (by simp)) hn hp
  | @fail path _ node _ _ _ hp _ ih =>
    have hnode := hc node (by simp)
    exact ih (fun _ hb => hnode.cons_cons hb) (List.nodup_cons.mpr ⟨hp, hn⟩) hwalk
  | finish _ _ _ _ _ ih => exact ih (fun node hm => hc node (by simp [hm])) hn hwalk

private theorem isLasso_of_searches (h : r.Searches [] ∅ nodes (.error walk)) : r.IsLasso walk :=
  h.isLasso (fun node _ => .singleton node) .nil

/-- The new nodes are added to the finished ones, and no walk from either goes on forever. -/
structure Finishes (r : Relation α) (new : List α) (finished finished' : OrderedSet α) :
    Prop where
  mem_of_new : ∀ a ∈ new, a ∈ finished'
  mem_of_mem : ∀ a ∈ finished, a ∈ finished'
  acc : ∀ a ∈ finished', Acc (fun b a => r.Edge a b) a

private theorem Searches.finishes (h : r.Searches path finished nodes (.ok finished'))
    (ha : ∀ a ∈ finished, Acc (fun b a => r.Edge a b) a) :
    r.Finishes nodes finished finished' := by
  generalize hok : (.ok finished' : Except (List α) (OrderedSet α)) = outcome at h
  induction h generalizing finished' with
  | nil =>
    cases hok
    exact ⟨by simp, fun _ hm => hm, ha⟩
  | skip hf _ ih =>
    have hrest := ih ha hok
    exact ⟨List.forall_mem_cons.mpr ⟨hrest.mem_of_mem _ hf, hrest.mem_of_new⟩, hrest.mem_of_mem,
      hrest.acc⟩
  | close => cases hok
  | fail => cases hok
  | @finish _ _ between node _ _ _ _ _ _ ihtargets ihrest =>
    have htargets := ihtargets ha rfl
    have hnode : ∀ a ∈ between.insert node, Acc (fun b a => r.Edge a b) a := by
      intro a hm
      rcases OrderedSet.mem_insert.mp hm with rfl | hm
      · exact Acc.intro _ fun b hb => htargets.acc b (htargets.mem_of_new b hb)
      · exact htargets.acc a hm
    have hrest := ihrest hnode hok
    refine ⟨List.forall_mem_cons.mpr ⟨hrest.mem_of_mem node (by simp), hrest.mem_of_new⟩, ?_,
      hrest.acc⟩
    intro a hm
    exact hrest.mem_of_mem a (by simp [htargets.mem_of_mem a hm])

/-! ### The bounded search -/

variable [DecidableEq α]

/-- As long as the depth allows for a path through all rows, the bounded search goes as deep as the
unbounded one. -/
theorem searches_foldlM {depth : Nat} (hn : path.Nodup)
    (hk : ∀ b ∈ nodes, ∀ a ∈ path, a ∈ r.rows.keys)
    (hd : path.length + depth = r.rows.size + 1) :
    r.Searches path finished nodes (nodes.foldlM (r.search depth path) finished) := by
  induction depth generalizing path finished nodes with
  | zero =>
    cases nodes with
    | nil => exact .nil
    | cons node nodes =>
      -- a path in front of another node is no longer than there are rows
      have hle := length_le_size hn (hk node (by simp))
      omega
  | succ depth ihdepth =>
    induction nodes generalizing finished with
    | nil => exact .nil
    | cons node nodes ih =>
      have hrest (finished : OrderedSet α) : r.Searches path finished nodes
          (nodes.foldlM (r.search (depth + 1) path) finished) :=
        ih fun b hb => hk b (by simp [hb])
      rw [List.foldlM_cons, search]
      by_cases hf : node ∈ finished
      · rw [if_pos (OrderedSet.contains_iff.mpr hf)]
        exact .skip hf (hrest finished)
      rw [if_neg (mt OrderedSet.contains_iff.mp hf)]
      by_cases hp : node ∈ path
      · rw [if_pos hp]
        exact .close hf hp
      rw [if_neg hp]
      have htargets : r.Searches (node :: path) finished (r.targets node).toList
          ((r.targets node).toList.foldlM (r.search depth (node :: path)) finished) := by
        apply ihdepth (List.nodup_cons.mpr ⟨hp, hn⟩)
        · intro b hb
          exact List.forall_mem_cons.mpr ⟨mem_keys_of_edge (b := b) hb, hk node (by simp)⟩
        · simp only [List.length_cons]
          omega
      cases hfold : (r.targets node).toList.foldlM (r.search depth (node :: path)) finished with
      | error walk =>
        rw [hfold] at htargets
        exact .fail hf hp htargets
      | ok finished' =>
        rw [hfold] at htargets
        exact .finish hf hp htargets (hrest _)

def reported : Except (List α) (OrderedSet α) → List α
  | .ok _ => []
  | .error walk => walk

theorem exists_searches (r : Relation α) :
    ∃ outcome, r.Searches [] ∅ r.rows.keys.toList outcome ∧ r.cycle = reported outcome := by
  refine ⟨r.rows.keys.toList.foldlM (r.search (r.rows.size + 1) []) ∅,
    searches_foldlM .nil (by simp) (by simp), ?_⟩
  rw [cycle]
  cases r.rows.keys.toList.foldlM (r.search (r.rows.size + 1) []) ∅ <;> rfl

/-! ### What is reported -/

/-- A walk that is reported comes back to one of its nodes, and only at its end. -/
theorem isLasso_cycle (h : r.cycle ≠ []) : r.IsLasso r.cycle := by
  obtain ⟨outcome, hsearch, hcycle⟩ := r.exists_searches
  cases outcome with
  | ok finished => exact absurd hcycle h
  | error walk =>
    rw [hcycle]
    exact isLasso_of_searches hsearch

theorem acc_of_cycle_eq_nil (h : r.cycle = []) (a : α) : Acc (fun b a => r.Edge a b) a := by
  obtain ⟨outcome, hsearch, hcycle⟩ := r.exists_searches
  cases outcome with
  | ok finished =>
    have hrows := hsearch.finishes fun _ ha => absurd ha List.not_mem_nil
    by_cases ha : a ∈ r.rows.keys
    · exact hrows.acc a (hrows.mem_of_new a ha)
    · exact Acc.intro a fun b hb => absurd (mem_keys_of_edge hb) ha
  | error walk => exact absurd (hcycle.symm.trans h) (isLasso_of_searches hsearch).ne_nil

theorem cycle_eq_nil_iff : r.cycle = [] ↔ ¬∃ a, Relation.TransGen r.Edge a a := by
  constructor
  · rintro h ⟨a, ha⟩
    exact not_transGen_of_acc (acc_of_cycle_eq_nil h) ha
  · intro h
    by_contra hne
    obtain ⟨a, ha⟩ := (isLasso_cycle hne).exists_transGen
    exact h ⟨a, ha⟩

/-- The unbounded search from all rows ends, and what is reported is its walk. Nothing is reported
exactly if no node leads to itself; a walk that is reported follows the edges, and of its nodes only
the last one has occurred before. -/
theorem existsUnique_searches_and_cycle (r : Relation α) :
    (∃! outcome, r.Searches [] ∅ r.rows.keys.toList outcome) ∧
      (∀ outcome, r.Searches [] ∅ r.rows.keys.toList outcome → r.cycle = reported outcome) ∧
      (r.cycle = [] ↔ ∀ a, ¬Relation.TransGen r.Edge a a) ∧
      (r.cycle ≠ [] → r.cycle.IsChain r.Edge ∧ r.cycle.dropLast.Nodup ∧
        ∃ a ∈ r.cycle.dropLast, r.cycle.getLast? = some a) := by
  obtain ⟨outcome, hsearch, hcycle⟩ := r.exists_searches
  refine ⟨⟨outcome, hsearch, fun _ h => h.unique hsearch⟩, ?_, ?_, ?_⟩
  · intro outcome' h
    rw [hcycle, h.unique hsearch]
  · rw [cycle_eq_nil_iff, not_exists]
  · intro hne
    have hlasso := isLasso_cycle hne
    exact ⟨hlasso.isChain, hlasso.nodup_dropLast, hlasso.exists_mem_dropLast⟩

/-- Two ways to a common node, and two loops behind the second of them. -/
def sharedLoops : Relation Nat := ofEdges [(1, 2), (1, 3), (2, 4), (3, 4), (3, 5), (5, 5), (5, 3)]

/-- The search passes the common node twice and comes back from the first loop it enters. -/
theorem existsUnique_searches_and_cycle_sharedLoops :
    sharedLoops.cycle = [1, 3, 5, 5] ∧ [1, 3, 5].Nodup ∧
      [1, 3, 5, 5].IsChain sharedLoops.Edge ∧
      ∃! outcome, sharedLoops.Searches [] ∅ sharedLoops.rows.keys.toList outcome := by
  obtain ⟨hsearch, -, -, hwalk⟩ := existsUnique_searches_and_cycle sharedLoops
  have hcycle : sharedLoops.cycle = [1, 3, 5, 5] := by decide +kernel
  rw [hcycle] at hwalk
  obtain ⟨hchain, hnodup, -⟩ := hwalk (by simp)
  exact ⟨hcycle, hnodup, hchain, hsearch⟩

end Relation

end GrammarTables
