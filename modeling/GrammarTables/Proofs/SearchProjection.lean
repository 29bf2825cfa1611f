import GrammarTables.Proofs.Exploration

/-!
# Projecting a search

A search in one space runs along a search in a coarser one if a visit to the image of an element
names the images of what the visit to the element names. The coarser search then finds the images of
the found elements, in order of first occurrence (`run_project`).
-/

namespace GrammarTables

universe u v w x

/-! ### Images of ordered sets -/

namespace OrderedSet

variable {α : Type u} {β : Type v} [Ord α] [Std.TransOrd α] [Ord β] [Std.TransOrd β]
  [Std.LawfulEqOrd β]

def image (f : α → β) (s : OrderedSet α) : OrderedSet β := ofList (s.toList.map f)

theorem mem_image {f : α → β} {s : OrderedSet α} {b : β} :
    b ∈ s.image f ↔ ∃ a ∈ s, f a = b := by
  rw [image, mem_ofList, List.mem_map]
  rfl

theorem ofList_isPrefix {l m : List β} (h : l <+: m) : (ofList l).toList <+: (ofList m).toList := by
  obtain ⟨rest, rfl⟩ := h
  rw [ofList, ofList, insertMany_append]
  exact toList_isPrefix_insertMany _ _

theorem image_isPrefix (f : α → β) {s t : OrderedSet α} (h : s.toList <+: t.toList) :
    (s.image f).toList <+: (t.image f).toList :=
  ofList_isPrefix (h.map f)

theorem insertMany_of_forall_mem {s : OrderedSet β} {l : List β} (h : ∀ b ∈ l, b ∈ s) :
    s.insertMany l = s := by
  induction l with
  | nil => rfl
  | cons b l ih =>
    rw [insertMany, List.foldl_cons, insert_of_mem (h b (by simp))]
    exact ih fun c hc => h c (by simp [hc])

theorem toList_insertMany_of_nodup {s : OrderedSet β} {l : List β} (hl : l.Nodup)
    (hs : ∀ b ∈ l, b ∉ s) : (s.insertMany l).toList = s.toList ++ l := by
  induction l generalizing s with
  | nil => simp [insertMany]
  | cons b l ih =>
    obtain ⟨hb, hl⟩ := List.nodup_cons.mp hl
    have hinsert := toList_insert_of_not_mem (hs b (by simp))
    have hnew : ∀ c ∈ l, c ∉ s.insert b := by
      intro c hc hm
      rcases mem_insert.mp hm with rfl | hm
      · exact hb hc
      · exact hs c (by simp [hc]) hm
    rw [insertMany, List.foldl_cons, ← insertMany, ih hl hnew, hinsert, List.append_assoc]
    rfl

theorem toList_ofList_of_nodup {l : List β} (h : l.Nodup) : (ofList l).toList = l :=
  toList_insertMany_of_nodup h fun _ _ => List.not_mem_nil

variable [Std.LawfulEqOrd α]

theorem insertMany_filterMap_toList (f : α → Option β) (s : OrderedSet β) (t : OrderedSet α)
    (l : List α) : s.insertMany ((t.insertMany l).toList.filterMap f) =
      (s.insertMany (t.toList.filterMap f)).insertMany (l.filterMap f) := by
  induction l generalizing t with
  | nil => rfl
  | cons a l ih =>
    have hl : (a :: l).filterMap f = [a].filterMap f ++ l.filterMap f := by
      rw [← List.filterMap_append, List.singleton_append]
    have ha : s.insertMany ((t.insert a).toList.filterMap f) =
        (s.insertMany (t.toList.filterMap f)).insertMany ([a].filterMap f) := by
      rw [toList_insert]
      split
      · rename_i hm
        refine (insertMany_of_forall_mem fun b hb => ?_).symm
        obtain ⟨c, hc, hcb⟩ := List.mem_filterMap.mp hb
        obtain rfl := List.mem_singleton.mp hc
        exact mem_insertMany.mpr (Or.inr (List.mem_filterMap.mpr ⟨c, hm, hcb⟩))
      · rw [List.filterMap_append, insertMany_append]
    rw [hl, insertMany_append, ← ha]
    exact ih (t.insert a)

theorem insertMany_toList_ofList (s : OrderedSet α) (l : List α) :
    s.insertMany (ofList l).toList = s.insertMany l := by
  have h : s.insertMany ((ofList l).toList.filterMap some) = s.insertMany (l.filterMap some) :=
    insertMany_filterMap_toList some s ∅ l
  rwa [List.filterMap_some, List.filterMap_some] at h

theorem ofList_flatten_map_toList (ls : List (List α)) :
    ofList (ls.map fun l => (ofList l).toList).flatten = ofList ls.flatten := by
  induction ls using List.reverseRecOn with
  | nil => rfl
  | append_singleton ls l ih =>
    have hlast : (ofList ls.flatten).insertMany l = ofList (ls ++ [l]).flatten := by
      rw [List.flatten_append, List.flatten_singleton]
      exact (insertMany_append ∅ _ _).symm
    rw [List.map_append, List.flatten_append, ofList, insertMany_append, ← ofList, ih,
      List.map_singleton, List.flatten_singleton, insertMany_toList_ofList, hlast]

theorem ofList_filterMap_toList (f : α → Option β) (l : List α) :
    ofList ((ofList l).toList.filterMap f) = ofList (l.filterMap f) :=
  insertMany_filterMap_toList f ∅ ∅ l

theorem image_ofList (f : α → β) (l : List α) : (ofList l).image f = ofList (l.map f) := by
  rw [image, ← List.filterMap_eq_map, ofList_filterMap_toList]

theorem image_insertMany (f : α → β) (s : OrderedSet α) (l : List α) :
    (s.insertMany l).image f = (s.image f).insertMany (l.map f) := by
  rw [image, image, ← List.filterMap_eq_map]
  exact insertMany_filterMap_toList (some ∘ f) ∅ s l

end OrderedSet

/-! ### Searches with a common course -/

namespace Exploration

variable {α : Type u} {β : Type v} {ν : Type w} {ν' : Type x} {ε ε' : Type}
  [Ord α] [Std.TransOrd α] [Ord β] [Std.TransOrd β] [Std.LawfulEqOrd β]

def visitedImage (f : α → β) (e : Exploration α ν) : OrderedSet β :=
  OrderedSet.ofList ((e.found.toList.take e.notes.size).map f)

/-- The second search has found and visited the images of what the first has. -/
structure ProjectsTo (f : α → β) (e : Exploration α ν) (e' : Exploration β ν') : Prop where
  found_eq : e'.found = e.found.image f
  size_notes : e'.notes.size = (e.visitedImage f).size

/-- A visit to the image of a found element names the images of what a visit to the element
names. -/
def Tracks (f : α → β) (visit : α → Except ε (ν × List α)) (visit' : β → Except ε' (ν' × List β))
    (found : OrderedSet α) : Prop :=
  ∀ a ∈ found, ∀ note next, visit a = .ok (note, next) → ∃ note' next',
    visit' (f a) = .ok (note', next') ∧ OrderedSet.ofList next' = OrderedSet.ofList (next.map f)

variable {f : α → β} {visit : α → Except ε (ν × List α)} {visit' : β → Except ε' (ν' × List β)}
  {start : List α} {start' : List β} {cap cap' rounds' : Nat} {e final : Exploration α ν}
  {e' : Exploration β ν'} {a : α} {note : ν} {next : List α}

private theorem visitRest_of_visited (hp : ProjectsTo f e e')
    (hn : e.notes.size = e.found.size) : visitRest visit' cap' rounds' e' = .ok e' := by
  have hnone : e'.found.get? e'.notes.size = none := by
    rw [← OrderedSet.getElem?_toList, List.getElem?_eq_none_iff, hp.size_notes, visitedImage, hn,
      hp.found_eq, ← OrderedSet.length_toList e.found, List.take_length]
    exact Nat.le_refl _
  cases rounds' with
  | zero => rfl
  | succ rounds' => rw [visitRest, hnone]

private theorem visitedImage_insert (ha : e.found.get? e.notes.size = some a) :
    (e.visitedImage f).insert (f a) =
      OrderedSet.ofList ((e.found.toList.take (e.notes.size + 1)).map f) := by
  rw [← OrderedSet.getElem?_toList] at ha
  rw [List.take_add_one, ha, List.map_append, OrderedSet.ofList, OrderedSet.insertMany_append]
  rfl

private theorem get?_of_new (hp : ProjectsTo f e e') (ha : e.found.get? e.notes.size = some a)
    (hnew : f a ∉ e.visitedImage f) : e'.found.get? e'.notes.size = some (f a) := by
  have hkept : ((e.visitedImage f).insert (f a)).toList <+: e'.found.toList := by
    rw [visitedImage_insert ha, hp.found_eq]
    exact OrderedSet.ofList_isPrefix ((List.take_prefix _ _).map f)
  apply OrderedSet.get?_eq_some_of_isPrefix hkept
  rw [← OrderedSet.getElem?_toList, OrderedSet.toList_insert_of_not_mem hnew, hp.size_notes,
    ← OrderedSet.length_toList, List.getElem?_concat_length]

variable [Std.LawfulEqOrd α]

private theorem visitedImage_extend (ha : e.found.get? e.notes.size = some a) (note : ν)
    (next : List α) :
    (e.extend note next).visitedImage f =
      (e.visitedImage f).insert (f a) := by
  obtain ⟨rest, hrest⟩ := e.found_isPrefix_extend note next
  have hlt := OrderedSet.lt_size_of_get? ha
  rw [visitedImage_insert ha, visitedImage, ← hrest, size_notes_extend,
    List.take_append_of_le_length (by rw [OrderedSet.length_toList]; omega)]

private theorem projectsTo_of_new (hp : ProjectsTo f e e') {note' : ν'} {next' : List β}
    (ha : e.found.get? e.notes.size = some a) (hnew : f a ∉ e.visitedImage f)
    (hnext : OrderedSet.ofList next' = OrderedSet.ofList (next.map f)) :
    ProjectsTo f (e.extend note next)
      (e'.extend note' next') where
  found_eq := by
    rw [extend, extend, hp.found_eq, OrderedSet.image_insertMany,
      ← OrderedSet.insertMany_toList_ofList, hnext, OrderedSet.insertMany_toList_ofList]
  size_notes := by
    rw [visitedImage_extend ha, size_notes_extend, ← OrderedSet.length_toList,
      OrderedSet.toList_insert_of_not_mem hnew, List.length_append, OrderedSet.length_toList,
      hp.size_notes]
    rfl

private theorem mem_image_of_repeated (hf : Faithful visit start e)
    (ht : Tracks f visit visit' (e.extend note next).found)
    (ha : e.found.get? e.notes.size = some a) (hv : visit a = .ok (note, next))
    (hrep : f a ∈ e.visitedImage f) : ∀ b ∈ next.map f, b ∈ e.found.image f := by
  obtain ⟨b, next_b, hb, hba, note_b, hv_b, hfound⟩ : ∃ b next_b, b ∈ e.found ∧ f b = f a ∧
      ∃ note_b, visit b = .ok (note_b, next_b) ∧ ∀ c ∈ next_b, c ∈ e.found := by
    rw [visitedImage, OrderedSet.mem_ofList] at hrep
    obtain ⟨b, hb, hba⟩ := List.mem_map.mp hrep
    obtain ⟨i, hi⟩ := List.mem_iff_getElem?.mp hb
    rw [List.getElem?_take, Option.ite_none_right_eq_some] at hi
    obtain ⟨b', next_b, hb', hv_b, hfound⟩ :=
      hf.visited i e.notes[i] (Array.getElem?_eq_getElem hi.1)
    rw [← OrderedSet.getElem?_toList] at hb'
    obtain rfl : b = b' := Option.some.inj (hi.2.symm.trans hb')
    exact ⟨b, next_b, List.mem_of_getElem? hi.2, hba, _, hv_b, hfound⟩
  have hkept := e.found_isPrefix_extend note next
  obtain ⟨_, next', hv', hnext⟩ := ht a (hkept.subset (OrderedSet.mem_of_get? ha)) note next hv
  obtain ⟨_, next_b', hv_b', hnext_b⟩ := ht b (hkept.subset hb) note_b next_b hv_b
  have heq : next' = next_b' := by
    rw [← hba, hv_b'] at hv'
    exact (congrArg Prod.snd (Except.ok.inj hv')).symm
  intro c hc
  rw [← OrderedSet.mem_ofList, ← hnext, heq, hnext_b, OrderedSet.mem_ofList] at hc
  obtain ⟨d, hd, rfl⟩ := List.mem_map.mp hc
  exact OrderedSet.mem_image.mpr ⟨d, hfound d hd, rfl⟩

private theorem projectsTo_of_repeated (hf : Faithful visit start e) (hp : ProjectsTo f e e')
    (ht : Tracks f visit visit' (e.extend note next).found)
    (ha : e.found.get? e.notes.size = some a) (hv : visit a = .ok (note, next))
    (hrep : f a ∈ e.visitedImage f) :
    ProjectsTo f (e.extend note next) e' where
  found_eq := by
    rw [extend, hp.found_eq, OrderedSet.image_insertMany,
      OrderedSet.insertMany_of_forall_mem (mem_image_of_repeated hf ht ha hv hrep)]
  size_notes := by
    rw [visitedImage_extend ha, OrderedSet.insert_of_mem hrep, hp.size_notes]

private theorem visitRest_of_new (hp : ProjectsTo f e e') {note' : ν'} {next' : List β}
    (ha : e.found.get? e.notes.size = some a) (hnew : f a ∉ e.visitedImage f)
    (hv' : visit' (f a) = .ok (note', next'))
    (hp' : ProjectsTo f (e.extend note next) (e'.extend note' next'))
    (hle : ((e.extend note next).found.image f).size ≤ cap')
    (hc' : rounds' + e'.notes.size = cap') : ∃ rest, rest + (e'.extend note' next').notes.size =
      cap' ∧ visitRest visit' cap' rounds' e' = visitRest visit' cap' rest (e'.extend note' next') := by
  have ha' := get?_of_new hp ha hnew
  have hlt := OrderedSet.lt_size_of_get? ha'
  have hsize := (OrderedSet.image_isPrefix f (e.found_isPrefix_extend note next)).length_le
  rw [← hp.found_eq, OrderedSet.length_toList, OrderedSet.length_toList] at hsize
  rw [← hp'.found_eq] at hsize hle
  obtain ⟨rest, rfl⟩ : ∃ rest, rounds' = rest + 1 := ⟨rounds' - 1, by omega⟩
  refine ⟨rest, by rw [size_notes_extend]; omega, ?_⟩
  rw [visitRest, ha']
  dsimp only
  rw [hv']
  exact if_neg (Nat.not_lt.mpr hle)

private theorem visitRest_project {rounds : Nat} (hf : Faithful visit start e)
    (hp : ProjectsTo f e e') (hr : visitRest visit cap rounds e = .ok final)
    (hc : rounds + e.notes.size = cap) (hcap : final.found.size ≤ cap)
    (hc' : rounds' + e'.notes.size = cap') (hcap' : (final.found.image f).size ≤ cap')
    (ht : Tracks f visit visit' final.found) :
    ∃ final', visitRest visit' cap' rounds' e' = .ok final' ∧
      final'.found = final.found.image f := by
  induction rounds generalizing e e' rounds' with
  | zero =>
    cases hr
    have hle := hf.notes_le
    exact ⟨e', visitRest_of_visited hp (by omega), hp.found_eq⟩
  | succ rounds ih =>
    rcases visitRest_succ_cases hr with ⟨hle, rfl⟩ | ⟨a, note, next, ha, hv, ⟨hlt, rfl⟩ | hr⟩
    · exact ⟨e', visitRest_of_visited hp (Nat.le_antisymm hf.notes_le hle), hp.found_eq⟩
    · exact absurd hcap (Nat.not_le.mpr hlt)
    · have hkept := visitRest_isPrefix hr
      have ht' : Tracks f visit visit' (e.extend note next).found :=
        fun b hb => ht b (hkept.subset hb)
      have hrounds : rounds + (e.extend note next).notes.size = cap := by
        rw [size_notes_extend]
        omega
      -- the second search stands still where the image has been visited before
      by_cases hrep : f a ∈ e.visitedImage f
      · exact ih (hf.extend ha hv) (projectsTo_of_repeated hf hp ht' ha hv hrep) hr hrounds hc'
      · have hin := (e.found_isPrefix_extend note next).subset (OrderedSet.mem_of_get? ha)
        obtain ⟨note', next', hv', hnext⟩ := ht' a hin note next hv
        have hp' : ProjectsTo f (e.extend note next) (e'.extend note' next') :=
          projectsTo_of_new hp ha hrep hnext
        have hle := (OrderedSet.image_isPrefix f hkept).length_le
        obtain ⟨rest, hrest, heq⟩ :=
          visitRest_of_new hp ha hrep hv' hp' (Nat.le_trans hle hcap') hc'
        rw [heq]
        exact ih (hf.extend ha hv) hp' hr hrounds hrest

/-- If the images of what a search finds are tracked by a second search, it finds these images, in
order of first occurrence. -/
theorem run_project (hr : run visit cap start = .ok e) (hcap : e.found.size ≤ cap)
    (ht : Tracks f visit visit' e.found)
    (hstart : OrderedSet.ofList start' = OrderedSet.ofList (start.map f))
    (hcap' : (e.found.image f).size ≤ cap') :
    ∃ e', run visit' cap' start' = .ok e' ∧ e'.found = e.found.image f := by
  apply visitRest_project faithful_start _ hr (by simp) hcap (by simp) hcap' ht
  refine ⟨?_, rfl⟩
  rw [hstart, OrderedSet.image_ofList]

end Exploration

end GrammarTables
