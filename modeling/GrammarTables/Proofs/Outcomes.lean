import GrammarTables.Discipline

/-!
# Computations that succeed

A chain of computations that may fail succeeds exactly if each of them does.
-/

namespace GrammarTables

universe u v

variable {ε : Type u} {α β : Type v}

theorem bind_eq_ok_iff {c : Except ε α} {f : α → Except ε β} {b : β} :
    (c >>= f) = .ok b ↔ ∃ a, c = .ok a ∧ f a = .ok b := by
  cases c with
  | error e => simp [bind, Except.bind]
  | ok a => simp [bind, Except.bind]

theorem bind_eq_error_iff {c : Except ε α} {f : α → Except ε β} {e : ε} :
    (c >>= f) = .error e ↔ c = .error e ∨ ∃ a, c = .ok a ∧ f a = .error e := by
  cases c with
  | error e => simp [bind, Except.bind]
  | ok a => simp [bind, Except.bind]

theorem exists_of_isOk {c : Except ε α} (h : c.isOk) : ∃ a, c = .ok a := by
  cases c with
  | error e => cases h
  | ok a => exact ⟨a, rfl⟩

theorem map_map_congr {γ : Type v} {c : Except ε α} {f : α → β} {f' : β → γ} {f'' : α → γ}
    (h : ∀ a, c = .ok a → f' (f a) = f'' a) : (c.map f).map f' = c.map f'' := by
  cases c with
  | error e => rfl
  | ok a => exact congrArg Except.ok (h a rfl)

theorem rejecting_eq_ok_iff {α : Type} {c : Except GrammarError α} {a : α} :
    rejecting c = .ok a ↔ c = .ok a := by
  cases c with
  | error e => simp [rejecting]
  | ok b => simp [rejecting]

theorem forM_eq_ok_iff {ε α : Type} {f : α → Except ε Unit} {l : List α} :
    l.forM f = .ok () ↔ ∀ a ∈ l, f a = .ok () := by
  induction l with
  | nil => simp [pure, Except.pure]
  | cons a l ih =>
    rw [List.forM, bind_eq_ok_iff, List.forall_mem_cons, ← ih]
    constructor
    · intro h
      obtain ⟨_, ha, hl⟩ := h
      exact ⟨ha, hl⟩
    · intro h
      exact ⟨(), h⟩

theorem forM_congr {ε α : Type} {f f' : α → Except ε Unit} {l : List α}
    (h : ∀ a ∈ l, f a = f' a) : l.forM f = l.forM f' := by
  induction l with
  | nil => rfl
  | cons a l ih =>
    rw [List.forM, List.forM, h a (by simp), ih fun b hb => h b (by simp [hb])]

theorem exists_first_of_forM_eq_error {ε α : Type} {f : α → Except ε Unit} {l : List α} {e : ε}
    (h : l.forM f = .error e) :
    ∃ l₁ a l₂, l = l₁ ++ a :: l₂ ∧ (∀ b ∈ l₁, f b = .ok ()) ∧ f a = .error e := by
  induction l with
  | nil => cases h
  | cons a l ih =>
    rw [List.forM] at h
    cases ha : f a with
    | error e' =>
      rw [ha] at h
      cases h
      exact ⟨[], a, l, rfl, by simp, ha⟩
    | ok u =>
      rw [ha] at h
      obtain ⟨l₁, b, l₂, rfl, hok, hb⟩ := ih h
      exact ⟨a :: l₁, b, l₂, rfl, List.forall_mem_cons.mpr ⟨ha, hok⟩, hb⟩

theorem exists_of_forM_eq_error {ε α : Type} {f : α → Except ε Unit} {l : List α} {e : ε}
    (h : l.forM f = .error e) : ∃ a ∈ l, f a = .error e := by
  obtain ⟨l₁, a, l₂, rfl, -, ha⟩ := exists_first_of_forM_eq_error h
  exact ⟨a, by simp, ha⟩

/-- A loop with a state that fails has gone through the elements before the one that fails. -/
theorem exists_first_of_foldlM_eq_error {ε α σ : Type v} {f : σ → α → Except ε σ} {l : List α}
    {s : σ} {e : ε} (h : l.foldlM f s = .error e) :
    ∃ l₁ a l₂ t, l = l₁ ++ a :: l₂ ∧ l₁.foldlM f s = .ok t ∧ f t a = .error e := by
  induction l generalizing s with
  | nil => cases h
  | cons a l ih =>
    rw [List.foldlM_cons] at h
    rcases bind_eq_error_iff.mp h with ha | ⟨s', ha, h⟩
    · exact ⟨[], a, l, s, rfl, rfl, ha⟩
    · obtain ⟨l₁, b, l₂, t, rfl, hok, hb⟩ := ih h
      refine ⟨a :: l₁, b, l₂, t, rfl, ?_, hb⟩
      rw [List.foldlM_cons, bind_eq_ok_iff]
      exact ⟨s', ha, hok⟩

theorem mapM_eq_ok {ε : Type u} {α : Type v} {β : Type v} {f : α → Except ε β} {result : α → β}
    {l : List α} (h : ∀ a ∈ l, f a = .ok (result a)) : l.mapM f = .ok (l.map result) := by
  induction l with
  | nil => rfl
  | cons a l ih =>
    rw [List.mapM_cons, h a (by simp), ih fun b hb => h b (by simp [hb])]
    rfl

end GrammarTables
