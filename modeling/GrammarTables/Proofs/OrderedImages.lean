import Mathlib.Data.List.Nodup
import Mathlib.Data.List.Pairwise
import GrammarTables.Ordered.Map
import GrammarTables.Ordered.Sorted
import GrammarTables.Proofs.SearchProjection

/-!
# Images of ordered collections

To sort, list or group images is to take the images of what is sorted, listed or grouped, if the
function keeps the order of the elements or at least tells them apart.
-/

namespace GrammarTables

universe u v w x

theorem eq_of_map_eq {α : Type u} {β : Type v} {f : α → β} {l m : List α} (h : l.map f = m.map f)
    (hf : ∀ a ∈ l, ∀ b ∈ m, f a = f b → a = b) : l = m := by
  induction l generalizing m with
  | nil => exact (List.map_eq_nil_iff.mp h.symm).symm
  | cons a l ih =>
    obtain ⟨b, m, rfl, hab, hrest⟩ := List.map_eq_cons_iff.mp h.symm
    rw [hf a (by simp) b (by simp) hab.symm,
      ih hrest.symm fun a ha b hb => hf a (by simp [ha]) b (by simp [hb])]

/-! ### Functions that keep the order -/

section Order

variable {α : Type u} {β : Type v} [Ord α] [Ord β]

/-- The function does not change how the elements of a set compare. -/
def KeepsOrder (S : α → Prop) (f : α → β) : Prop :=
  ∀ a b, S a → S b → compare (f a) (f b) = compare a b

variable {S : α → Prop} {f : α → β} {l : List α}

theorem Ascending.map (hl : Ascending l) (hf : KeepsOrder S f) (hs : ∀ a ∈ l, S a) :
    Ascending (l.map f) := by
  refine List.pairwise_map.mpr (hl.imp_of_mem fun {a b} ha hb hab => ?_)
  rw [hf a b (hs a ha) (hs b hb), hab]

section Lawful

variable [Std.LawfulEqOrd α] [Std.LawfulEqOrd β]

theorem KeepsOrder.eq (hf : KeepsOrder S f) {a b : α} (ha : S a) (hb : S b) (h : f a = f b) :
    a = b := by
  apply Std.LawfulEqOrd.eq_of_compare
  rw [← hf a b ha hb, h]
  exact Std.ReflCmp.compare_self

theorem KeepsOrder.eq_of_map (hf : KeepsOrder S f) {m : List α} (hl : ∀ a ∈ l, S a)
    (hm : ∀ a ∈ m, S a) (h : l.map f = m.map f) : l = m :=
  eq_of_map_eq h fun a ha b hb hab => hf.eq (hl a ha) (hm b hb) hab

end Lawful

variable [Std.TransOrd α] [Std.TransOrd β]

theorem keepsOrder_of_ascending (hl : Ascending l) (hm : Ascending (l.map f)) :
    KeepsOrder (· ∈ l) f := by
  have : Std.Symm fun a b => compare (f a) (f b) = compare a b := by
    refine ⟨fun a b hab => ?_⟩
    have hswap : compare (f b) (f a) = (compare (f a) (f b)).swap := Std.OrientedCmp.eq_swap
    rw [hswap, hab]
    exact Std.OrientedCmp.eq_swap.symm
  have hpair : l.Pairwise fun a b => compare (f a) (f b) = compare a b :=
    (hl.and (List.pairwise_map.mp hm)).imp fun h => h.2.trans h.1.symm
  intro a b ha hb
  refine hpair.forall_of_forall (fun a _ => ?_) ha hb
  exact Std.ReflCmp.compare_self.trans Std.ReflCmp.compare_self.symm

theorem KeepsOrder.sortDistinct_map [Std.LawfulEqOrd α] [Std.LawfulEqOrd β] (hf : KeepsOrder S f)
    (hl : ∀ a ∈ l, S a) : sortDistinct (l.map f) = (sortDistinct l).map f := by
  apply Ascending.ext (ascending_sortDistinct _)
  · exact (ascending_sortDistinct l).map hf fun a ha => hl a (mem_sortDistinct.mp ha)
  · intro b
    simp only [mem_sortDistinct, List.mem_map]

end Order

/-! ### Functions that tell the elements apart -/

namespace OrderedSet

variable {α : Type u} {β : Type v} [Ord α] [Std.TransOrd α] [Ord β] [Std.TransOrd β]
  [Std.LawfulEqOrd β] {f : α → β}

theorem toList_image {s : OrderedSet α} (hf : ∀ a ∈ s, ∀ b ∈ s, f a = f b → a = b) :
    (s.image f).toList = s.toList.map f :=
  toList_ofList_of_nodup (s.nodup_toList.map_on hf)

theorem position?_image {s : OrderedSet α} (hf : ∀ a ∈ s, ∀ b ∈ s, f a = f b → a = b) {a : α}
    (ha : a ∈ s) : (s.image f).position? (f a) = s.position? a := by
  obtain ⟨i, hi⟩ := Option.isSome_iff_exists.mp (contains_iff.mpr ha)
  rw [hi, position?_eq_some_iff, toList_image hf, List.getElem?_map,
    position?_eq_some_iff.mp hi, Option.map_some]

variable [Std.LawfulEqOrd α]

theorem toList_ofList_map {l : List α} (hf : ∀ a ∈ l, ∀ b ∈ l, f a = f b → a = b) :
    (ofList (l.map f)).toList = (ofList l).toList.map f := by
  rw [← image_ofList, toList_image]
  intro a ha b hb
  exact hf a (mem_ofList.mp ha) b (mem_ofList.mp hb)

end OrderedSet

namespace OrderedMap

variable {κ : Type u} {ν : Type v} {κ' : Type w} {ν' : Type x} [Ord κ] [Std.TransOrd κ]
  [Std.LawfulEqOrd κ] [DecidableEq κ] [Ord κ'] [Std.TransOrd κ'] [Std.LawfulEqOrd κ']
  [DecidableEq κ'] {f : κ → κ'} {entries : List (κ × ν)}

theorem toList_group_map (v : ν → ν')
    (hf : ∀ a ∈ entries.map Prod.fst, ∀ b ∈ entries.map Prod.fst, f a = f b → a = b) :
    (group (entries.map (Prod.map f v))).toList =
      (group entries).toList.map (Prod.map f (List.map v)) := by
  have hkeys : (entries.map (Prod.map f v)).map Prod.fst = (entries.map Prod.fst).map f := by
    rw [List.map_map, List.map_map]
    rfl
  rw [toList_eq_filterMap, toList_eq_filterMap, keys_group, keys_group, hkeys,
    OrderedSet.toList_ofList_map hf, List.filterMap_map, List.map_filterMap]
  apply List.filterMap_congr
  intro k hk
  rw [OrderedSet.mem_toList, OrderedSet.mem_ofList] at hk
  have hfilter : (entries.map (Prod.map f v)).filter (·.1 = f k) =
      (entries.filter (·.1 = k)).map (Prod.map f v) := by
    rw [List.filter_map]
    congr 1
    apply List.filter_congr
    intro e he
    have hfe : f e.1 = f k ↔ e.1 = k :=
      ⟨hf e.1 (List.mem_map_of_mem he) k hk, congrArg f⟩
    simp only [Function.comp_apply, Prod.map_fst, hfe]
  rw [Function.comp_apply, get?_group, get?_group, hkeys, if_pos hk,
    if_pos (List.mem_map_of_mem hk), hfilter, List.map_map]
  simp only [Option.map_some, Prod.map, List.map_map]
  rfl

end OrderedMap

end GrammarTables
