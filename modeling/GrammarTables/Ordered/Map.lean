import GrammarTables.Ordered.Set

/-!
# Maps in order of insertion

An `OrderedMap` keeps its keys in the order in which they were first written. A map is known by its
keys and its look-ups (`ext_get?`); `keys_update` and `get?_update` say what writing does to both.
`group` sorts a list of entries by key; `keys_group` and `get?_group` describe the result.
-/

namespace GrammarTables

universe u v w

/-- A finite map that lists its keys in the order in which they were first written. -/
structure OrderedMap (κ : Type u) (ν : Type v) [Ord κ] [Std.TransOrd κ] where
  /-- The keys, oldest first. -/
  keys : OrderedSet κ
  /-- The value of the key at each position. -/
  values : Array ν
  /-- Every key has one value. -/
  size_values : values.size = keys.size

namespace OrderedMap

variable {κ : Type u} {ν : Type v} {β : Type w} [Ord κ] [Std.TransOrd κ]

/-- The entries, oldest key first. -/
def toList (m : OrderedMap κ ν) : List (κ × ν) := m.keys.toList.zip m.values.toList

def size (m : OrderedMap κ ν) : Nat := m.keys.size

def isEmpty (m : OrderedMap κ ν) : Bool := m.keys.isEmpty

def get? (m : OrderedMap κ ν) (k : κ) : Option ν := (m.keys.position? k).bind fun i => m.values[i]?

def getD (m : OrderedMap κ ν) (k : κ) (fallback : ν) : ν := (m.get? k).getD fallback

def empty : OrderedMap κ ν := ⟨∅, #[], rfl⟩

instance : EmptyCollection (OrderedMap κ ν) := ⟨empty⟩

def ofKeys (keys : OrderedSet κ) (f : κ → ν) : OrderedMap κ ν :=
  ⟨keys, keys.elements.map f, by simp [OrderedSet.size]⟩

def mapValues (m : OrderedMap κ ν) (f : ν → β) : OrderedMap κ β :=
  ⟨m.keys, m.values.map f, by simp [m.size_values]⟩

/-! ### Look-ups -/

@[simp] theorem keys_empty : (∅ : OrderedMap κ ν).keys = ∅ := rfl

@[simp] theorem get?_empty (k : κ) : (∅ : OrderedMap κ ν).get? k = none := by
  rw [get?]
  cases h : (∅ : OrderedMap κ ν).keys.position? k with
  | none => rfl
  | some i => simp [OrderedSet.position?_eq_some_iff] at h

theorem get?_eq_some_iff {m : OrderedMap κ ν} {k : κ} {x : ν} :
    m.get? k = some x ↔ ∃ i : Nat, m.keys.toList[i]? = some k ∧ m.values[i]? = some x := by
  simp only [get?, Option.bind_eq_some_iff, OrderedSet.position?_eq_some_iff]

@[simp] theorem isSome_get? {m : OrderedMap κ ν} {k : κ} : (m.get? k).isSome ↔ k ∈ m.keys := by
  rw [Option.isSome_iff_exists, ← OrderedSet.mem_toList, List.mem_iff_getElem?]
  constructor
  · rintro ⟨x, hx⟩
    obtain ⟨i, hi, -⟩ := get?_eq_some_iff.mp hx
    exact ⟨i, hi⟩
  · rintro ⟨i, hi⟩
    obtain ⟨hlt, -⟩ := List.getElem?_eq_some_iff.mp hi
    have hv : i < m.values.size := by
      rw [m.size_values]
      simpa using hlt
    exact ⟨m.values[i], get?_eq_some_iff.mpr ⟨i, hi, Array.getElem?_eq_getElem hv⟩⟩

theorem get?_eq_none_iff {m : OrderedMap κ ν} {k : κ} : m.get? k = none ↔ k ∉ m.keys := by
  rw [← isSome_get?]
  cases m.get? k <;> simp

@[simp] theorem map_fst_toList (m : OrderedMap κ ν) : m.toList.map Prod.fst = m.keys.toList := by
  rw [toList, List.map_fst_zip]
  simp [m.size_values]

theorem map_snd_toList (m : OrderedMap κ ν) : m.toList.map Prod.snd = m.values.toList := by
  rw [toList, List.map_snd_zip]
  simp [m.size_values]

@[simp] theorem mem_toList {m : OrderedMap κ ν} {k : κ} {x : ν} :
    (k, x) ∈ m.toList ↔ m.get? k = some x := by
  rw [get?_eq_some_iff, List.mem_iff_getElem?]
  simp [toList, List.getElem?_zip_eq_some]

theorem toList_eq_filterMap (m : OrderedMap κ ν) :
    m.toList = m.keys.toList.filterMap fun k => (m.get? k).map fun x => (k, x) := by
  rw [← map_fst_toList, List.filterMap_map]
  have h : ∀ p ∈ m.toList, (((fun k => (m.get? k).map fun x => (k, x)) ∘ Prod.fst) p) = some p := by
    rintro ⟨k, x⟩ hp
    simp [mem_toList.mp hp]
  generalize m.toList = l at h
  induction l with
  | nil => rfl
  | cons p l ih =>
    rw [List.filterMap_cons_some (h p (by simp)), ← ih fun q hq => h q (by simp [hq])]

theorem toList_values (m : OrderedMap κ ν) (fallback : κ → ν) :
    m.values.toList = m.keys.toList.map fun k => m.getD k (fallback k) := by
  rw [← map_snd_toList, ← map_fst_toList, List.map_map]
  refine List.map_congr_left fun e he => ?_
  have hget : m.get? e.1 = some e.2 := mem_toList.mp he
  rw [Function.comp_apply, getD, hget, Option.getD_some]

@[simp] theorem keys_mapValues (m : OrderedMap κ ν) (f : ν → β) : (m.mapValues f).keys = m.keys :=
  rfl

@[simp] theorem get?_mapValues (m : OrderedMap κ ν) (f : ν → β) (k : κ) :
    (m.mapValues f).get? k = (m.get? k).map f := by
  simp only [get?, mapValues]
  cases m.keys.position? k <;> simp

/-- A map is determined by its keys and its look-ups. -/
theorem ext_get? {m n : OrderedMap κ ν} (hk : m.keys = n.keys) (hg : ∀ k, m.get? k = n.get? k) :
    m = n := by
  have ht : m.toList = n.toList := by
    rw [toList_eq_filterMap, toList_eq_filterMap, hk, funext hg]
  have hv : m.values = n.values := by
    apply Array.toList_inj.mp
    rw [← map_snd_toList, ← map_snd_toList, ht]
  obtain ⟨keys, values, hm⟩ := m
  obtain ⟨keys', values', hn⟩ := n
  dsimp only at hk hv
  subst hk hv
  rfl

@[simp] theorem keys_ofKeys (keys : OrderedSet κ) (f : κ → ν) : (ofKeys keys f).keys = keys := rfl

theorem get?_ofKeys (keys : OrderedSet κ) (f : κ → ν) (k : κ) :
    (ofKeys keys f).get? k = if k ∈ keys then some (f k) else none := by
  split <;> rename_i h
  · obtain ⟨i, hi⟩ := List.mem_iff_getElem?.mp (OrderedSet.mem_toList.mpr h)
    rw [get?_eq_some_iff]
    refine ⟨i, hi, ?_⟩
    have he : keys.elements[i]? = some k := by simpa [OrderedSet.toList] using hi
    simp [ofKeys, he]
  · rwa [get?_eq_none_iff]

theorem position?_eq_none_iff {s : OrderedSet κ} {k : κ} : s.position? k = none ↔ k ∉ s := by
  rw [← OrderedSet.contains_iff, OrderedSet.contains]
  cases s.position? k <;> simp

/-! ### Writing -/

variable [Std.LawfulEqOrd κ]

/-- Apply `f` to the value of `k`, which is `fresh` if `k` is a new key. -/
def update (m : OrderedMap κ ν) (k : κ) (fresh : ν) (f : ν → ν) : OrderedMap κ ν :=
  match h : m.keys.position? k with
  | some i => ⟨m.keys, m.values.modify i f, by simp [m.size_values]⟩
  | none =>
    { keys := m.keys.insert k
      values := m.values.push (f fresh)
      size_values := by
        rw [← OrderedSet.length_toList,
          OrderedSet.toList_insert_of_not_mem (position?_eq_none_iff.mp h)]
        simp [m.size_values] }

/-- The values of each key, in order, for the keys in order of first occurrence. -/
def group (entries : List (κ × ν)) : OrderedMap κ (List ν) :=
  let reversed : OrderedMap κ (List ν) :=
    entries.foldl (fun m entry => m.update entry.1 [] (entry.2 :: ·)) ∅
  reversed.mapValues List.reverse

@[simp] theorem keys_update (m : OrderedMap κ ν) (k : κ) (fresh : ν) (f : ν → ν) :
    (m.update k fresh f).keys = m.keys.insert k := by
  rw [update]
  split <;> rename_i h
  · have hk : k ∈ m.keys := by
      rw [← OrderedSet.contains_iff, OrderedSet.contains, h]
      rfl
    rw [OrderedSet.insert_of_mem hk]
  · rfl

theorem get?_update [DecidableEq κ] (m : OrderedMap κ ν) (k : κ) (fresh : ν) (f : ν → ν) (k' : κ) :
    (m.update k fresh f).get? k' =
      if k' = k then some (f (m.getD k fresh)) else m.get? k' := by
  rw [update]
  split <;> rename_i h
  · rename_i i
    have hi : i < m.values.size := by
      have := (List.getElem?_eq_some_iff.mp (OrderedSet.position?_eq_some_iff.mp h)).1
      simpa [m.size_values] using this
    split
    · subst k'
      simp [get?, getD, h, hi, Array.getElem_modify_self]
    · rename_i hne
      simp only [get?]
      cases hj : m.keys.position? k' with
      | none => rfl
      | some j =>
        have hij : i ≠ j := by
          rintro rfl
          rw [OrderedSet.position?_eq_some_iff] at h hj
          exact hne (Option.some.inj (hj.symm.trans h))
        simp [Array.getElem?_modify, hij]
  · have hk := position?_eq_none_iff.mp h
    simp only [get?, getD, h, OrderedSet.position?_insert_of_not_mem hk]
    split
    · simp [← m.size_values]
    · cases hj : m.keys.position? k' with
      | none => rfl
      | some j =>
        have hlt := (List.getElem?_eq_some_iff.mp (OrderedSet.position?_eq_some_iff.mp hj)).1
        rw [OrderedSet.length_toList, ← m.size_values] at hlt
        simp [Array.getElem?_push, Nat.ne_of_lt hlt]

private theorem keys_foldl_update (entries : List (κ × ν)) (m : OrderedMap κ (List ν)) :
    (entries.foldl (fun m entry => m.update entry.1 [] (entry.2 :: ·)) m).keys =
      m.keys.insertMany (entries.map Prod.fst) := by
  induction entries generalizing m with
  | nil => rfl
  | cons entry entries ih =>
    rw [List.foldl_cons, ih, keys_update]
    rfl

private theorem getD_foldl_update [DecidableEq κ] (entries : List (κ × ν))
    (m : OrderedMap κ (List ν)) (k : κ) :
    (entries.foldl (fun m entry => m.update entry.1 [] (entry.2 :: ·)) m).getD k [] =
      ((entries.filter (·.1 = k)).map Prod.snd).reverse ++ m.getD k [] := by
  induction entries generalizing m with
  | nil => rfl
  | cons entry entries ih =>
    rw [List.foldl_cons, ih]
    by_cases h : entry.1 = k
    · simp [getD, get?_update, h]
    · simp [getD, get?_update, h, Ne.symm h]

@[simp] theorem keys_group (entries : List (κ × ν)) :
    (group entries).keys = OrderedSet.ofList (entries.map Prod.fst) := by
  rw [group, keys_mapValues, keys_foldl_update]
  rfl

theorem getD_group [DecidableEq κ] (entries : List (κ × ν)) (k : κ) :
    (group entries).getD k [] = (entries.filter (·.1 = k)).map Prod.snd := by
  have h := getD_foldl_update entries ∅ k
  have hm (o : Option (List ν)) : (o.map List.reverse).getD [] = (o.getD []).reverse := by
    cases o <;> rfl
  rw [group, getD, get?_mapValues, hm, ← getD, h]
  simp [getD]

theorem get?_group [DecidableEq κ] (entries : List (κ × ν)) (k : κ) :
    (group entries).get? k =
      if k ∈ entries.map Prod.fst then some ((entries.filter (·.1 = k)).map Prod.snd)
      else none := by
  have hd := getD_group entries k
  split <;> rename_i h
  · rw [← OrderedSet.mem_ofList, ← keys_group entries, ← isSome_get?] at h
    obtain ⟨x, hx⟩ := Option.isSome_iff_exists.mp h
    rw [getD, hx] at hd
    rw [hx, ← hd]
    rfl
  · rw [get?_eq_none_iff, keys_group, OrderedSet.mem_ofList]
    exact h

end OrderedMap

end GrammarTables
