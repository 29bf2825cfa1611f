import Std.Data.TreeSet.Lemmas

/-!
# Ascending lists

A set whose order of discovery does not matter is kept as a strictly ascending list. Such a list is
determined by its elements (`Ascending.ext`), so equal sets have equal lists.
-/

namespace GrammarTables

universe u

variable {α : Type u} [Ord α]

/-- Each element is smaller than all later ones. -/
def Ascending (l : List α) : Prop := l.Pairwise fun a b => compare a b = .lt

/-- Put `a` at its place in an ascending list, unless it is there already. -/
def insertSorted (a : α) : List α → List α
  | [] => [a]
  | b :: l =>
    match compare a b with
    | .lt => a :: b :: l
    | .eq => b :: l
    | .gt => b :: insertSorted a l

def sortDistinct (l : List α) : List α := (Std.TreeSet.ofList l).toList

@[simp] theorem mem_insertSorted [Std.LawfulEqOrd α] {a b : α} {l : List α} :
    b ∈ insertSorted a l ↔ b = a ∨ b ∈ l := by
  induction l with
  | nil => simp [insertSorted]
  | cons c l ih =>
    rw [insertSorted]
    split <;> rename_i h
    · simp
    · have hac := Std.LawfulEqCmp.eq_of_compare h
      simp [hac]
    · simp [ih, or_left_comm]

variable [Std.TransOrd α]

theorem Ascending.nodup {l : List α} (h : Ascending l) : l.Nodup := by
  apply h.imp
  rintro a _ hlt rfl
  have heq : compare a a = .eq := Std.ReflCmp.compare_self
  rw [heq] at hlt
  cases hlt

theorem ascending_sortDistinct (l : List α) : Ascending (sortDistinct l) :=
  Std.TreeSet.ordered_toList

variable [Std.LawfulEqOrd α]

@[simp] theorem mem_sortDistinct {l : List α} {a : α} : a ∈ sortDistinct l ↔ a ∈ l := by
  let : DecidableEq α := Classical.typeDecidableEq α
  rw [sortDistinct, Std.TreeSet.mem_toList, Std.TreeSet.mem_ofList, List.contains_iff_mem]

theorem Ascending.insertSorted {l : List α} (h : Ascending l) (a : α) :
    Ascending (insertSorted a l) := by
  induction l with
  | nil => exact List.pairwise_singleton _ _
  | cons b l ih =>
    obtain ⟨hb, hl⟩ := List.pairwise_cons.mp h
    rw [GrammarTables.insertSorted]
    split <;> rename_i hab
    · refine List.pairwise_cons.mpr ⟨fun c hc => ?_, h⟩
      rcases List.mem_cons.mp hc with rfl | hc
      · exact hab
      · exact Std.TransCmp.lt_trans hab (hb c hc)
    · exact h
    · refine List.pairwise_cons.mpr ⟨fun c hc => ?_, ih hl⟩
      rcases mem_insertSorted.mp hc with rfl | hc
      · exact Std.OrientedCmp.lt_of_gt hab
      · exact hb c hc

theorem Ascending.ext {l m : List α} (hl : Ascending l) (hm : Ascending m)
    (h : ∀ a, a ∈ l ↔ a ∈ m) : l = m := by
  induction l generalizing m with
  | nil =>
    cases m with
    | nil => rfl
    | cons b m => exact absurd ((h b).mpr (by simp)) (by simp)
  | cons a l ih =>
    cases m with
    | nil => exact absurd ((h a).mp (by simp)) (by simp)
    | cons b m =>
      obtain ⟨ha, hl⟩ := List.pairwise_cons.mp hl
      obtain ⟨hb, hm'⟩ := List.pairwise_cons.mp hm
      have irrefl (c : α) : compare c c ≠ .lt := by simp
      have hab : a = b := by
        rcases List.mem_cons.mp ((h a).mp (by simp)) with hab | hab
        · exact hab
        · rcases List.mem_cons.mp ((h b).mpr (by simp)) with hba | hba
          · exact hba.symm
          · exact absurd (Std.TransCmp.lt_trans (hb a hab) (ha b hba)) (irrefl b)
      subst hab
      refine congrArg (a :: ·) (ih hl hm' fun c => ?_)
      have hc := h c
      simp only [List.mem_cons] at hc
      constructor
      · intro hcl
        exact (hc.mp (Or.inr hcl)).resolve_left fun he => irrefl a (he ▸ ha c hcl)
      · intro hcm
        exact (hc.mpr (Or.inr hcm)).resolve_left fun he => irrefl a (he ▸ hb c hcm)

end GrammarTables
