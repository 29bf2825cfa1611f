import Std.Data.ExtTreeMap.Lemmas

/-!
# Sets in order of insertion

An `OrderedSet` lists its elements in the order in which they were first inserted, and finds the
position of an element by its key order. Everything about a set is read off `toList`: two sets with
the same list are equal (`ext_toList`), the list never repeats an element (`nodup_toList`), and each
operation is one equation about it (`toList_insert`).
-/

namespace GrammarTables

universe u v w

/-- A finite set that lists its elements in the order in which they were first inserted. -/
structure OrderedSet (α : Type u) [Ord α] [Std.TransOrd α] where
  /-- The elements, oldest first. -/
  elements : Array α
  /-- The place of each element in the list. -/
  positions : Std.ExtTreeMap α Nat
  /-- The two fields describe the same set. -/
  positions_iff : ∀ (a : α) (i : Nat), positions[a]? = some i ↔ elements[i]? = some a

namespace OrderedSet

variable {α : Type u} [Ord α] [Std.TransOrd α]

/-- The elements, oldest first. -/
def toList (s : OrderedSet α) : List α := s.elements.toList

def size (s : OrderedSet α) : Nat := s.elements.size

def get? (s : OrderedSet α) (i : Nat) : Option α := s.elements[i]?

def position? (s : OrderedSet α) (a : α) : Option Nat := s.positions[a]?

def contains (s : OrderedSet α) (a : α) : Bool := (s.position? a).isSome

def isEmpty (s : OrderedSet α) : Bool := s.elements.isEmpty

def empty : OrderedSet α := ⟨#[], ∅, by simp⟩

instance : EmptyCollection (OrderedSet α) := ⟨empty⟩

instance : Membership α (OrderedSet α) := ⟨fun s a => a ∈ s.toList⟩

/-! ### The view as a list -/

@[simp] theorem mem_toList {s : OrderedSet α} {a : α} : a ∈ s.toList ↔ a ∈ s := Iff.rfl

@[simp] theorem toList_empty : (∅ : OrderedSet α).toList = [] := rfl

@[simp] theorem length_toList (s : OrderedSet α) : s.toList.length = s.size := rfl

@[simp] theorem getElem?_toList (s : OrderedSet α) (i : Nat) : s.toList[i]? = s.get? i := by
  simp [toList, get?]

theorem position?_eq_some_iff {s : OrderedSet α} {a : α} {i : Nat} :
    s.position? a = some i ↔ s.toList[i]? = some a := by
  simpa [toList, position?] using s.positions_iff a i

@[simp] theorem contains_iff {s : OrderedSet α} {a : α} : s.contains a = true ↔ a ∈ s := by
  rw [contains, Option.isSome_iff_exists, ← mem_toList, List.mem_iff_getElem?]
  simp only [position?_eq_some_iff]

theorem nodup_toList (s : OrderedSet α) : s.toList.Nodup := by
  rw [List.Nodup, List.pairwise_iff_getElem]
  intro i j hi hj hij he
  have ha := position?_eq_some_iff.mpr (List.getElem?_eq_getElem hi)
  rw [he, position?_eq_some_iff.mpr (List.getElem?_eq_getElem hj), Option.some.injEq] at ha
  omega

instance (s : OrderedSet α) (a : α) : Decidable (a ∈ s) :=
  decidable_of_iff (s.contains a = true) contains_iff

variable [Std.LawfulEqOrd α]

/-- A set is determined by its list. -/
theorem ext_toList {s t : OrderedSet α} (h : s.toList = t.toList) : s = t := by
  have he : s.elements = t.elements := Array.toList_inj.mp h
  have hp : s.positions = t.positions := by
    apply Std.ExtTreeMap.ext_getElem?
    intro a
    apply Option.ext
    intro i
    rw [s.positions_iff, t.positions_iff, he]
  cases s
  cases t
  simp_all

/-! ### Insertion -/

private theorem positions_push (s : OrderedSet α) (a : α) (h : s.positions[a]? = none) (b : α)
    (i : Nat) : (s.positions.insert a s.elements.size)[b]? = some i ↔
      (s.elements.push a)[i]? = some b := by
  rw [Std.ExtTreeMap.getElem?_insert, Array.getElem?_push]
  have hne (j : Nat) : s.elements[j]? ≠ some a := fun hj => by
    simp [(s.positions_iff a j).mpr hj] at h
  by_cases hb : a = b
  · subst hb
    by_cases hi : i = s.elements.size
    · simp [hi]
    · simp [hi, hne i, Ne.symm hi]
  · by_cases hi : i = s.elements.size
    · subst hi
      simp [hb, s.positions_iff]
    · simp [hb, hi, s.positions_iff]

/-- Add `a` at the end, unless it is an element already. -/
def insert (s : OrderedSet α) (a : α) : OrderedSet α :=
  match h : s.positions[a]? with
  | some _ => s
  | none =>
    let positions := s.positions.insert a s.elements.size
    ⟨s.elements.push a, positions, s.positions_push a h⟩

def insertMany (s : OrderedSet α) (l : List α) : OrderedSet α := l.foldl insert s

/-- The distinct elements of a list, in order of first occurrence. -/
def ofList (l : List α) : OrderedSet α := insertMany ∅ l

/-- The elements of `s`, then the new ones of `t`. -/
def union (s t : OrderedSet α) : OrderedSet α := s.insertMany t.toList

/-- Whether two sets have the same elements, in whatever order. -/
def sameElements (s t : OrderedSet α) : Bool := s.size == t.size && s.toList.all t.contains

/-! ### The elements after an operation -/

theorem insert_of_mem {s : OrderedSet α} {a : α} (h : a ∈ s) : s.insert a = s := by
  obtain ⟨i, hi⟩ := Option.isSome_iff_exists.mp (contains_iff.mpr h)
  rw [insert]
  split
  · rfl
  · simp_all [position?]

theorem toList_insert_of_not_mem {s : OrderedSet α} {a : α} (h : a ∉ s) :
    (s.insert a).toList = s.toList ++ [a] := by
  have hn : s.positions[a]? = none := by
    cases hp : s.positions[a]? with
    | none => rfl
    | some i => exact absurd (contains_iff.mp (by simp [contains, position?, hp])) h
  rw [insert]
  split
  · simp_all
  · simp [toList]

theorem position?_insert_of_not_mem [DecidableEq α] {s : OrderedSet α} {a : α} (h : a ∉ s)
    (b : α) : (s.insert a).position? b = if b = a then some s.size else s.position? b := by
  apply Option.ext
  intro i
  rw [position?_eq_some_iff, toList_insert_of_not_mem h, List.getElem?_append]
  rcases Nat.lt_or_ge i s.toList.length with hi | hi
  · have hb : b ∈ s → b ≠ a := fun hm he => h (he ▸ hm)
    have hs : s.toList[i]? = some b → b ∈ s := List.mem_of_getElem?
    rw [if_pos hi]
    by_cases he : b = a
    · subst he
      rw [if_pos rfl]
      constructor
      · exact fun hm => absurd (hs hm) h
      · rintro ⟨⟩
        simp at hi
    · rw [if_neg he, position?_eq_some_iff]
  · rw [if_neg (Nat.not_lt.mpr hi)]
    by_cases he : b = a
    · subst he
      simp only [length_toList, if_true, Option.some.injEq, List.getElem?_singleton] at hi ⊢
      grind
    · rw [if_neg he, position?_eq_some_iff, List.getElem?_eq_none hi]
      simp only [List.getElem?_singleton]
      grind

theorem toList_insert (s : OrderedSet α) (a : α) :
    (s.insert a).toList = if a ∈ s then s.toList else s.toList ++ [a] := by
  split
  · rw [insert_of_mem ‹_›]
  · exact toList_insert_of_not_mem ‹_›

@[simp] theorem mem_insert {s : OrderedSet α} {a b : α} : b ∈ s.insert a ↔ b = a ∨ b ∈ s := by
  rw [← mem_toList, toList_insert]
  split <;> rename_i h
  · constructor
    · exact Or.inr
    · rintro (rfl | hb)
      · exact h
      · exact hb
  · simp [or_comm]

@[simp] theorem mem_insertMany {s : OrderedSet α} {l : List α} {b : α} :
    b ∈ s.insertMany l ↔ b ∈ s ∨ b ∈ l := by
  induction l generalizing s with
  | nil => simp [insertMany]
  | cons a l ih =>
    rw [insertMany, List.foldl_cons, ← insertMany, ih, mem_insert, List.mem_cons]
    grind

@[simp] theorem mem_ofList {l : List α} {b : α} : b ∈ ofList l ↔ b ∈ l := by
  rw [ofList, mem_insertMany]
  exact or_iff_right List.not_mem_nil

@[simp] theorem mem_union {s t : OrderedSet α} {b : α} : b ∈ s.union t ↔ b ∈ s ∨ b ∈ t := by
  rw [union, mem_insertMany, mem_toList]

theorem insertMany_append (s : OrderedSet α) (l m : List α) :
    s.insertMany (l ++ m) = (s.insertMany l).insertMany m :=
  List.foldl_append

theorem ofList_concat (l : List α) (a : α) : ofList (l ++ [a]) = (ofList l).insert a :=
  insertMany_append ∅ l [a]

theorem toList_isPrefix_insert (s : OrderedSet α) (a : α) :
    s.toList <+: (s.insert a).toList := by
  rw [toList_insert]
  split
  · exact List.prefix_refl _
  · exact List.prefix_append _ _

theorem toList_isPrefix_insertMany (s : OrderedSet α) (l : List α) :
    s.toList <+: (s.insertMany l).toList := by
  induction l generalizing s with
  | nil => exact List.prefix_refl _
  | cons a l ih => exact (s.toList_isPrefix_insert a).trans (ih _)

end OrderedSet

/-! ### Exploring a space of elements

An exploration starts from some elements and visits each one it has found, in the order of finding.
A visit notes something about the element and names further elements. The exploration ends when
every found element has been visited, when a visit fails, or when more than a given number of
elements have been found. Breadth-first search and the saturation of a set are both explorations. -/

/-- What has been found, and what was noted at each visited element. -/
structure Exploration (α : Type u) (β : Type v) [Ord α] [Std.TransOrd α] where
  /-- The found elements, in the order of finding. -/
  found : OrderedSet α
  /-- One note for each visited element, which are the first ones found. -/
  notes : Array β

namespace Exploration

variable {α : Type u} {β : Type v} {ε : Type w} [Ord α] [Std.TransOrd α] [Std.LawfulEqOrd α]

/-- Visit the next elements, at most `rounds` of them, stopping early when more than `capacity`
elements are found. -/
def visitRest (visit : α → Except ε (β × List α)) (capacity : Nat) :
    Nat → Exploration α β → Except ε (Exploration α β)
  | 0, e => .ok e
  | rounds + 1, e =>
    match e.found.get? e.notes.size with
    | none => .ok e
    | some a =>
      match visit a with
      | .error err => .error err
      | .ok (note, next) =>
        let e' : Exploration α β := ⟨e.found.insertMany next, e.notes.push note⟩
        if capacity < e'.found.size then .ok e' else visitRest visit capacity rounds e'

/-- Explore from `start`. If at most `capacity` elements are found, all of them are visited. -/
def run (visit : α → Except ε (β × List α)) (capacity : Nat) (start : List α) :
    Except ε (Exploration α β) :=
  visitRest visit capacity capacity ⟨OrderedSet.ofList start, #[]⟩

end Exploration

end GrammarTables
