import Mathlib.Data.List.Induction
import GrammarTables.Ordered.Sorted
import GrammarTables.Proofs.Productions

/-!
# The order of production ids

The ids of a grammar ascend in the order of its rules, the augmented production first, and so do the
alternatives of each nonterminal.
-/

namespace GrammarTables

/-! ### Distinct rules -/

section Distinct

variable {κ ν : Type} [DecidableEq κ] {l : List (κ × ν)} {e : κ × ν} {k : κ}

private theorem head?_concat_of_mem (hk : k ∈ l.map Prod.fst) :
    (((l ++ [e]).filter (·.1 = k)).map Prod.snd).head? =
      ((l.filter (·.1 = k)).map Prod.snd).head? := by
  obtain ⟨e', he', rfl⟩ := List.mem_map.mp hk
  have hne : (l.filter (·.1 = e'.1)).map Prod.snd ≠ [] :=
    List.ne_nil_of_mem (List.mem_map_of_mem (List.mem_filter.mpr ⟨he', by simp⟩))
  rw [List.filter_append, List.map_append, List.head?_append_of_ne_nil _ hne]

private theorem head?_concat_of_not_mem (hk : e.1 ∉ l.map Prod.fst) :
    (((l ++ [e]).filter (·.1 = e.1)).map Prod.snd).head? = some e.2 := by
  have hnone : l.filter (·.1 = e.1) = [] := by
    rw [List.filter_eq_nil_iff]
    intro e' he' h
    exact hk (List.mem_map.mpr ⟨e', he', of_decide_eq_true h⟩)
  rw [List.filter_append, hnone]
  simp

variable [Ord κ] [Std.TransOrd κ] [Std.LawfulEqOrd κ]

private theorem firstValues_concat (l : List (κ × ν)) (e : κ × ν) : firstValues (l ++ [e]) =
    firstValues l ++ if e.1 ∈ l.map Prod.fst then [] else [e.2] := by
  have hold : (OrderedSet.ofList (l.map Prod.fst)).toList.filterMap (fun k =>
      (((l ++ [e]).filter (·.1 = k)).map Prod.snd).head?) = firstValues l := by
    refine List.filterMap_congr fun k hk => head?_concat_of_mem ?_
    rwa [OrderedSet.mem_toList, OrderedSet.mem_ofList] at hk
  have hkeys : OrderedSet.ofList ((l ++ [e]).map Prod.fst) =
      (OrderedSet.ofList (l.map Prod.fst)).insert e.1 := by
    rw [List.map_append, List.map_singleton, OrderedSet.ofList_concat]
  rw [firstValues, hkeys, OrderedSet.toList_insert]
  simp only [OrderedSet.mem_ofList]
  split
  · rw [hold, List.append_nil]
  · rename_i hnew
    rw [List.filterMap_append, hold]
    simp only [List.filterMap_cons, head?_concat_of_not_mem hnew, List.filterMap_nil]

theorem firstValues_sublist (l : List (κ × ν)) : (firstValues l).Sublist (l.map Prod.snd) := by
  induction l using List.reverseRecOn with
  | nil => exact List.Sublist.refl _
  | append_singleton l e ih =>
    rw [firstValues_concat, List.map_append]
    refine ih.append ?_
    split
    · exact List.nil_sublist _
    · exact List.Sublist.refl _

end Distinct

private theorem distinctRules_sublist (rules : List Rule) :
    (distinctRules rules).Sublist (numberedRules rules) := by
  have h := firstValues_sublist ((numberedRules rules).map fun e => (e.2.symbols, e))
  have hvalues : ((numberedRules rules).map fun e => (e.2.symbols, e)).map Prod.snd =
      numberedRules rules := by
    rw [List.map_map]
    exact List.map_id _
  rwa [hvalues, ← Grammar.distinctRules_eq] at h

/-! ### Ids in order -/

namespace Grammar

variable {p q : ProductionId} {x : Symbol}

def ids (g : Grammar) : List ProductionId := .accept :: g.numbered.map Prod.fst

theorem mem_ids_iff {g : Grammar} : p ∈ g.ids ↔ p ∈ g := by
  rw [ids, List.mem_cons, mem_iff]
  simp [mem_numbered_iff]

theorem compare_eq_lt_iff : compare p q = .lt ↔ p.word < q.word := by
  change compare p.word q.word = .lt ↔ _
  exact Std.compare_eq_lt

theorem ascending_ids (g : Grammar) : Ascending g.ids := by
  have hsize := g.wellFormed.size_le
  have hword {i : Nat} (hi : i ∈ List.range g.rules.size) :
      (ProductionId.ofIndex i).word.toNat = i + 1 :=
    ProductionId.toNat_word_ofIndex (by
      rw [List.mem_range] at hi
      omega)
  rw [ids, map_fst_numbered]
  refine List.pairwise_cons.mpr ⟨?_, List.pairwise_map.mpr ?_⟩
  · intro p hp
    obtain ⟨i, hi, rfl⟩ := List.mem_map.mp hp
    rw [compare_eq_lt_iff, UInt16.lt_iff_toNat_lt, hword hi]
    exact Nat.succ_pos i
  · refine List.pairwise_lt_range.imp_of_mem fun {i j} hi hj hij => ?_
    rw [compare_eq_lt_iff, UInt16.lt_iff_toNat_lt, hword hi, hword hj]
    omega

theorem ascending_alternatives (g : Grammar) (x : Symbol) : Ascending (g.alternatives x) := by
  have hids : (g.alternatives x).Sublist g.ids := by
    have hheads : ((distinctRules g.rules.toList).map fun e => (e.2.head, e.1)).map Prod.snd =
        (distinctRules g.rules.toList).map Prod.fst := by
      rw [List.map_map]
      rfl
    rw [alternatives, g.index_eq, ids]
    refine List.Sublist.cons _ ?_
    simp only [RuleIndex.ofRules, OrderedMap.getD_group]
    refine (List.filter_sublist.map Prod.snd).trans ?_
    rw [hheads]
    exact (distinctRules_sublist _).map Prod.fst
  exact g.ascending_ids.sublist hids

end Grammar

end GrammarTables
