import Mathlib.Data.List.Induction
import Mathlib.Logic.Relation
import GrammarTables.Ordered.Set

/-!
# What an exploration finds

An exploration that stays within its capacity has visited everything it found, and what it found is
the least set that holds the start and what the visits name (`run_faithful`, `run_visits_all`). It
is then what visits without a limit end with (`endsWith_of_run`).
-/

namespace GrammarTables

universe u v w

namespace OrderedSet

variable {α : Type u} [Ord α] [Std.TransOrd α]

theorem get?_eq_some_of_isPrefix {s t : OrderedSet α} {i : Nat} {a : α}
    (h : s.toList <+: t.toList) (ha : s.get? i = some a) : t.get? i = some a := by
  rw [← getElem?_toList] at ha ⊢
  obtain ⟨rest, hrest⟩ := h
  rw [← hrest, List.getElem?_append_left (List.getElem?_eq_some_iff.mp ha).1]
  exact ha

theorem get?_zero_ofList [Std.LawfulEqOrd α] (a : α) (l : List α) :
    (ofList (a :: l)).get? 0 = some a := by
  apply get?_eq_some_of_isPrefix (toList_isPrefix_insertMany (insert ∅ a) l)
  rw [← getElem?_toList, toList_insert_of_not_mem List.not_mem_nil]
  rfl

/-- A set made of a list lists its elements in order of first occurrence. -/
theorem toList_ofList [Std.LawfulEqOrd α] [DecidableEq α] (l : List α) :
    (ofList l).toList = l.eraseDups := by
  induction l using List.reverseRecOn with
  | nil => rfl
  | append_singleton l a ih =>
    rw [ofList_concat, toList_insert, ih, List.eraseDups_append]
    by_cases ha : a ∈ l
    · simp [List.removeAll, ha]
    · simp [List.removeAll, ha, List.eraseDups_cons]

theorem mem_of_get? {s : OrderedSet α} {i : Nat} {a : α} (h : s.get? i = some a) : a ∈ s := by
  rw [← getElem?_toList] at h
  exact List.mem_of_getElem? h

theorem lt_size_of_get? {s : OrderedSet α} {i : Nat} {a : α} (h : s.get? i = some a) :
    i < s.size := by
  rw [← getElem?_toList] at h
  exact (List.getElem?_eq_some_iff.mp h).1

theorem size_insertMany_le [Std.LawfulEqOrd α] (s : OrderedSet α) (l : List α) :
    (s.insertMany l).size ≤ s.size + l.length := by
  induction l generalizing s with
  | nil => exact Nat.le_refl _
  | cons a l ih =>
    have hinsert : (s.insert a).size ≤ s.size + 1 := by
      rw [← length_toList, ← length_toList, toList_insert]
      split
      · omega
      · simp
    have hrest := ih (s.insert a)
    rw [insertMany, List.foldl_cons, List.length_cons]
    rw [insertMany] at hrest
    omega

theorem size_ofList_le [Std.LawfulEqOrd α] (l : List α) : (ofList l).size ≤ l.length := by
  have h := size_insertMany_le ∅ l
  rwa [← length_toList ∅, toList_empty, List.length_nil, Nat.zero_add] at h

end OrderedSet

namespace Exploration

variable {α : Type u} {β : Type v} {ε : Type w} [Ord α] [Std.TransOrd α] [Std.LawfulEqOrd α]

/-- The notes belong to the first found elements, and nothing was found without a reason. -/
structure Faithful (visit : α → Except ε (β × List α)) (start : List α)
    (e : Exploration α β) : Prop where
  start_isPrefix : (OrderedSet.ofList start).toList <+: e.found.toList
  notes_le : e.notes.size ≤ e.found.size
  visited : ∀ i note, e.notes[i]? = some note → ∃ a next, e.found.get? i = some a ∧
    visit a = .ok (note, next) ∧ ∀ b ∈ next, b ∈ e.found
  least : ∀ P : α → Prop, (∀ a ∈ start, P a) →
    (∀ a note next, P a → visit a = .ok (note, next) → ∀ b ∈ next, P b) → ∀ a ∈ e.found, P a

variable {visit : α → Except ε (β × List α)} {start : List α} {e e' : Exploration α β}
  {cap : Nat}

/-! ### One visit -/

def extend (e : Exploration α β) (note : β) (next : List α) : Exploration α β :=
  ⟨e.found.insertMany next, e.notes.push note⟩

theorem size_notes_extend (e : Exploration α β) (note : β) (next : List α) :
    (e.extend note next).notes.size = e.notes.size + 1 :=
  Array.size_push note

theorem found_isPrefix_extend (e : Exploration α β) (note : β) (next : List α) :
    e.found.toList <+: (e.extend note next).found.toList :=
  e.found.toList_isPrefix_insertMany next

theorem visitRest_succ_cases {rounds : Nat} (hr : visitRest visit cap (rounds + 1) e = .ok e') :
    e.found.size ≤ e.notes.size ∧ e' = e ∨
      ∃ a note next, e.found.get? e.notes.size = some a ∧ visit a = .ok (note, next) ∧
        (cap < (e.extend note next).found.size ∧ e' = e.extend note next ∨
          visitRest visit cap rounds (e.extend note next) = .ok e') := by
  rw [visitRest] at hr
  split at hr
  · rename_i hnone
    cases hr
    rw [← OrderedSet.getElem?_toList, List.getElem?_eq_none_iff, OrderedSet.length_toList] at hnone
    exact Or.inl ⟨hnone, rfl⟩
  · rename_i a ha
    split at hr
    · cases hr
    · rename_i note next hv
      refine Or.inr ⟨a, note, next, ha, hv, ?_⟩
      dsimp only at hr
      split at hr
      · rename_i hlt
        cases hr
        exact Or.inl ⟨hlt, rfl⟩
      · exact Or.inr hr

theorem visitRest_isPrefix {rounds : Nat} (hr : visitRest visit cap rounds e = .ok e') :
    e.found.toList <+: e'.found.toList := by
  induction rounds generalizing e with
  | zero =>
    cases hr
    exact List.prefix_refl _
  | succ rounds ih =>
    rcases visitRest_succ_cases hr with ⟨-, rfl⟩ | ⟨a, note, next, -, -, ⟨-, rfl⟩ | hr⟩
    · exact List.prefix_refl _
    · exact e.found_isPrefix_extend note next
    · exact (e.found_isPrefix_extend note next).trans (ih hr)

/-! ### Faithful explorations -/

theorem faithful_start :
    Faithful visit start (⟨OrderedSet.ofList start, #[]⟩ : Exploration α β) := by
  refine ⟨List.prefix_refl _, Nat.zero_le _, ?_, ?_⟩
  · intro i note h
    simp at h
  · intro P hs _ a ha
    exact hs a (OrderedSet.mem_ofList.mp ha)

theorem Faithful.extend {a : α} {note : β} {next : List α} (h : Faithful visit start e)
    (ha : e.found.get? e.notes.size = some a) (hv : visit a = .ok (note, next)) :
    Faithful visit start (e.extend note next) := by
  have hp := e.found_isPrefix_extend note next
  have hlt := OrderedSet.lt_size_of_get? ha
  have hle : e.found.size ≤ (e.extend note next).found.size := hp.length_le
  refine ⟨h.start_isPrefix.trans hp, ?_, ?_, ?_⟩
  · rw [size_notes_extend]
    omega
  · intro i m hm
    rw [Exploration.extend, Array.getElem?_push] at hm
    split at hm
    · rename_i hi
      cases hm
      refine ⟨a, next, ?_, hv, ?_⟩
      · rw [hi]
        exact OrderedSet.get?_eq_some_of_isPrefix hp ha
      · intro b hb
        exact OrderedSet.mem_insertMany.mpr (Or.inr hb)
    · obtain ⟨b, l, hb, hvb, hl⟩ := h.visited i m hm
      refine ⟨b, l, OrderedSet.get?_eq_some_of_isPrefix hp hb, hvb, ?_⟩
      intro c hc
      exact OrderedSet.mem_insertMany.mpr (Or.inl (hl c hc))
  · intro P hs hstep b hb
    have hfound := h.least P hs hstep
    rcases OrderedSet.mem_insertMany.mp hb with hb | hb
    · exact hfound b hb
    · exact hstep a note next (hfound a (OrderedSet.mem_of_get? ha)) hv b hb

private theorem visitRest_faithful {rounds : Nat} (h : Faithful visit start e)
    (hr : visitRest visit cap rounds e = .ok e') : Faithful visit start e' := by
  induction rounds generalizing e with
  | zero =>
    cases hr
    exact h
  | succ rounds ih =>
    rcases visitRest_succ_cases hr with ⟨-, rfl⟩ | ⟨a, note, next, ha, hv, ⟨-, rfl⟩ | hr⟩
    · exact h
    · exact h.extend ha hv
    · exact ih (h.extend ha hv) hr

private theorem visitRest_visits_all {rounds : Nat} (h : Faithful visit start e)
    (hc : rounds + e.notes.size = cap) (hr : visitRest visit cap rounds e = .ok e')
    (hcap : e'.found.size ≤ cap) : e'.notes.size = e'.found.size := by
  induction rounds generalizing e with
  | zero =>
    cases hr
    have := h.notes_le
    omega
  | succ rounds ih =>
    rcases visitRest_succ_cases hr with ⟨hle, rfl⟩ | ⟨a, note, next, ha, hv, ⟨hlt, rfl⟩ | hr⟩
    · exact Nat.le_antisymm h.notes_le hle
    · exact absurd hcap (Nat.not_le.mpr hlt)
    · apply ih (h.extend ha hv) _ hr
      rw [size_notes_extend]
      omega

theorem run_faithful (hr : run visit cap start = .ok e) : Faithful visit start e :=
  visitRest_faithful faithful_start hr

theorem run_visits_all (hr : run visit cap start = .ok e) (hcap : e.found.size ≤ cap) :
    e.notes.size = e.found.size :=
  visitRest_visits_all faithful_start (by simp) hr hcap

private theorem found_visitRest {f : β → List α} {rounds : Nat}
    (hf : ∀ a note next, visit a = .ok (note, next) → next = f note)
    (he : e.found = OrderedSet.ofList (start ++ e.notes.toList.flatMap f))
    (hr : visitRest visit cap rounds e = .ok e') :
    e'.found = OrderedSet.ofList (start ++ e'.notes.toList.flatMap f) := by
  induction rounds generalizing e with
  | zero =>
    cases hr
    exact he
  | succ rounds ih =>
    rcases visitRest_succ_cases hr with ⟨-, rfl⟩ | ⟨a, note, next, -, hv, hr⟩
    · exact he
    · have hextend : (e.extend note next).found =
          OrderedSet.ofList (start ++ (e.extend note next).notes.toList.flatMap f) := by
        rw [extend, he, hf a note next hv, OrderedSet.ofList, OrderedSet.ofList,
          ← OrderedSet.insertMany_append]
        simp
      rcases hr with ⟨-, rfl⟩ | hr
      · exact hextend
      · exact ih hextend hr

/-- The found elements are the start and what the visits have named, in order of first
occurrence. -/
theorem found_eq_ofList {f : β → List α}
    (hf : ∀ a note next, visit a = .ok (note, next) → next = f note)
    (hr : run visit cap start = .ok e) :
    e.found = OrderedSet.ofList (start ++ e.notes.toList.flatMap f) :=
  found_visitRest hf (by simp) hr

private theorem exists_visitRest {P : α → Prop} {rounds : Nat} (hf : ∀ a ∈ e.found, P a)
    (hv : ∀ a, P a → ∃ note next, visit a = .ok (note, next) ∧ ∀ b ∈ next, P b) :
    ∃ e', visitRest visit cap rounds e = .ok e' := by
  induction rounds generalizing e with
  | zero => exact ⟨e, rfl⟩
  | succ rounds ih =>
    rw [visitRest]
    cases ha : e.found.get? e.notes.size with
    | none => exact ⟨e, rfl⟩
    | some a =>
      obtain ⟨note, next, hva, hnext⟩ := hv a (hf a (OrderedSet.mem_of_get? ha))
      simp only [hva]
      split
      · exact ⟨_, rfl⟩
      · apply ih
        intro b hb
        exact (OrderedSet.mem_insertMany.mp hb).elim (hf b) (hnext b)

theorem exists_run {P : α → Prop} (hs : ∀ a ∈ start, P a)
    (hv : ∀ a, P a → ∃ note next, visit a = .ok (note, next) ∧ ∀ b ∈ next, P b) :
    ∃ e, run visit cap start = .ok e :=
  exists_visitRest (fun a ha => hs a (OrderedSet.mem_ofList.mp ha)) hv

/-! ### Visits without a limit -/

/-- One more visit, to the first of the found elements that has not been visited. -/
def Visits (visit : α → Except ε (β × List α)) (e e' : Exploration α β) : Prop :=
  ∃ a note next, e.found.get? e.notes.size = some a ∧ visit a = .ok (note, next) ∧
    e' = e.extend note next

/-- Visits one after the other lead from the start to `e`, where nothing is left to visit. -/
structure EndsWith (visit : α → Except ε (β × List α)) (start : List α)
    (e : Exploration α β) : Prop where
  reaches : Relation.ReflTransGen (Visits visit) ⟨OrderedSet.ofList start, #[]⟩ e
  done : e.found.get? e.notes.size = none

theorem rightUnique_visits : Relator.RightUnique (Visits visit) := by
  rintro e e₁ e₂ ⟨a, note, next, ha, hv, rfl⟩ ⟨b, note', next', hb, hv', rfl⟩
  cases ha.symm.trans hb
  cases hv.symm.trans hv'
  rfl

theorem EndsWith.eq_of_reflTransGen (h : EndsWith visit start e)
    (he : Relation.ReflTransGen (Visits visit) e e') : e' = e := by
  rcases Relation.ReflTransGen.cases_head he with rfl | ⟨_, ⟨a, _, _, ha, _⟩, _⟩
  · rfl
  · rw [h.done] at ha
    cases ha

theorem EndsWith.unique (h : EndsWith visit start e) (h' : EndsWith visit start e') : e = e' := by
  rcases Relation.ReflTransGen.total_of_right_unique rightUnique_visits h.reaches h'.reaches with
    he | he
  · exact (h.eq_of_reflTransGen he).symm
  · exact h'.eq_of_reflTransGen he

private theorem reflTransGen_visitRest {rounds : Nat} (hr : visitRest visit cap rounds e = .ok e') :
    Relation.ReflTransGen (Visits visit) e e' := by
  induction rounds generalizing e with
  | zero =>
    cases hr
    exact .refl
  | succ rounds ih =>
    rcases visitRest_succ_cases hr with ⟨-, rfl⟩ | ⟨a, note, next, ha, hv, hr⟩
    · exact .refl
    · have hstep : Visits visit e (e.extend note next) := ⟨a, note, next, ha, hv, rfl⟩
      rcases hr with ⟨-, rfl⟩ | hr
      · exact .single hstep
      · exact .head hstep (ih hr)

/-- An exploration within its capacity is what visits without a limit end with. -/
theorem endsWith_of_run (hr : run visit cap start = .ok e) (hcap : e.found.size ≤ cap) :
    EndsWith visit start e := by
  refine ⟨reflTransGen_visitRest hr, ?_⟩
  have hall : e.found.toList.length ≤ e.notes.size := Nat.le_of_eq (run_visits_all hr hcap).symm
  rw [← OrderedSet.getElem?_toList, List.getElem?_eq_none hall]

/-- Within the capacity, the found elements are closed under the visits. -/
theorem exists_visit_of_mem (hr : run visit cap start = .ok e) (hcap : e.found.size ≤ cap) {a : α}
    (ha : a ∈ e.found) : ∃ note next, visit a = .ok (note, next) ∧ ∀ b ∈ next, b ∈ e.found := by
  obtain ⟨i, hi⟩ := List.mem_iff_getElem?.mp (OrderedSet.mem_toList.mpr ha)
  rw [OrderedSet.getElem?_toList] at hi
  have hlt : i < e.notes.size := by
    rw [run_visits_all hr hcap]
    exact OrderedSet.lt_size_of_get? hi
  obtain ⟨b, next, hb, hv, hn⟩ :=
    (run_faithful hr).visited i e.notes[i] (Array.getElem?_eq_getElem hlt)
  have hab : a = b := Option.some.inj (hi.symm.trans hb)
  subst hab
  exact ⟨_, next, hv, hn⟩

theorem mem_found_of_mem_start (hr : run visit cap start = .ok e) {a : α} (ha : a ∈ start) :
    a ∈ e.found :=
  (run_faithful hr).start_isPrefix.subset (OrderedSet.mem_toList.mpr (OrderedSet.mem_ofList.mpr ha))

end Exploration

end GrammarTables
