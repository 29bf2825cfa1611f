import Mathlib.Order.Bounds.Basic
import GrammarTables.Proofs.Exploration
import GrammarTables.Proofs.Items
import GrammarTables.Proofs.Outcomes
import GrammarTables.Proofs.SearchProjection

/-!
# Closures of item lists

The closure of a list of items of a grammar is the least set that holds them and all that its items
predict. The bound on its size is never met, so the search does not stop early. The closure lists the
given items first, without repetition, closing it again changes nothing (`closure_eq_self`), and the
closure of two lists holds what the closures of each hold. The dots of the given items may stand
anywhere.
-/

namespace GrammarTables

section Closure

variable {ι : Type} [PredictiveItem ι] {g : Grammar} {kernel items : List ι} {i j : ι}

def visitItem (g : Grammar) (i : ι) : Except GrammarError (Unit × List ι) := do
  let predicted ← PredictiveItem.predict g g.firstTable i
  return ((), predicted)

theorem visitItem_eq_ok_iff {note : Unit} {next : List ι} :
    visitItem g i = .ok (note, next) ↔ PredictiveItem.predict g g.firstTable i = .ok next := by
  rw [visitItem, bind_eq_ok_iff]
  constructor
  · intro h
    obtain ⟨js, hjs, he⟩ := h
    cases he
    exact hjs
  · intro h
    exact ⟨next, h, rfl⟩

theorem closure_eq_ok_iff : closure g g.firstTable kernel = .ok items ↔
    ∃ e, Exploration.run (visitItem g) (closureBound g kernel) kernel = .ok e ∧
      e.found.toList = items := by
  change (Exploration.run (visitItem g) (closureBound g kernel) kernel >>=
    fun e => pure e.found.toList) = .ok items ↔ _
  simp only [bind_eq_ok_iff, pure, Except.pure, Except.ok.injEq]

theorem nodup_closure (h : closure g g.firstTable kernel = .ok items) : items.Nodup := by
  obtain ⟨e, -, rfl⟩ := closure_eq_ok_iff.mp h
  exact e.found.nodup_toList

theorem ofList_isPrefix_closure (h : closure g g.firstTable kernel = .ok items) :
    (OrderedSet.ofList kernel).toList <+: items := by
  obtain ⟨e, he, rfl⟩ := closure_eq_ok_iff.mp h
  exact (Exploration.run_faithful he).start_isPrefix

theorem mem_closure_of_mem (h : closure g g.firstTable kernel = .ok items) (hi : i ∈ kernel) :
    i ∈ items := by
  obtain ⟨e, he, rfl⟩ := closure_eq_ok_iff.mp h
  exact Exploration.mem_found_of_mem_start he hi

/-- What holds of the kernel and is handed on by prediction holds of the closure. -/
theorem closure_induction (h : closure g g.firstTable kernel = .ok items) {P : ι → Prop}
    (hk : ∀ i ∈ kernel, P i) (hp : ∀ i j, P i → g.Predicts i j → P j) : ∀ i ∈ items, P i := by
  obtain ⟨e, he, rfl⟩ := closure_eq_ok_iff.mp h
  apply (Exploration.run_faithful he).least P hk
  intro i note next hi hv j hj
  exact hp i j hi ⟨next, visitItem_eq_ok_iff.mp hv, hj⟩

variable [LawfulItem ι]

theorem admissible_of_mem_closure (hk : ∀ i ∈ kernel, g.Admissible i)
    (h : closure g g.firstTable kernel = .ok items) : ∀ i ∈ items, g.Admissible i :=
  closure_induction h hk fun _ _ hi hij => hi.predicted hij

theorem belongs_of_mem_closure (hk : ∀ i ∈ kernel, g.Belongs i)
    (h : closure g g.firstTable kernel = .ok items) : ∀ i ∈ items, g.Belongs i :=
  closure_induction h hk fun _ _ hi hij => (hi.predicted hij).belongs

theorem exists_closure (hk : ∀ i ∈ kernel, g.Belongs i) :
    ∃ items, closure g g.firstTable kernel = .ok items := by
  obtain ⟨e, he⟩ : ∃ e, Exploration.run (visitItem g) (closureBound g kernel) kernel = .ok e := by
    apply Exploration.exists_run hk
    intro i hi
    obtain ⟨js, hjs⟩ := LawfulItem.exists_predict g i hi
    exact ⟨(), js, visitItem_eq_ok_iff.mpr hjs, fun j hj => (hi.predicted ⟨js, hjs, hj⟩).belongs⟩
  exact ⟨_, closure_eq_ok_iff.mpr ⟨e, he, rfl⟩⟩

theorem mem_kernel_or_dot_eq (hk : ∀ i ∈ kernel, g.Belongs i)
    (h : closure g g.firstTable kernel = .ok items) (hi : i ∈ items) :
    i ∈ kernel ∨ (Item.core i).dot = 0 ∧ (Item.core i).production ≠ .accept := by
  have hall := closure_induction h
    (P := fun i => g.Belongs i ∧
      (i ∈ kernel ∨ (Item.core i).dot = 0 ∧ (Item.core i).production ≠ .accept))
    (fun i hi => ⟨hk i hi, Or.inl hi⟩)
    (by
      intro i j hi hij
      obtain ⟨⟨x, -, hp⟩, hd, -⟩ := LawfulItem.of_predicts g i j hi.1 hij
      have hne := Grammar.ne_accept_of_head? (Grammar.head?_of_mem_alternatives hp)
      exact ⟨(hi.1.predicted hij).belongs, Or.inr ⟨hd, hne⟩⟩)
  exact (hall i hi).2

/-- Besides items of the kernel, the bound leaves room for all that can be predicted. -/
theorem length_le_closureBound (hn : items.Nodup) (h : ∀ i ∈ items, i ∈ kernel ∨
      g.Belongs i ∧ (Item.core i).dot = 0 ∧ (Item.core i).production ≠ .accept) :
    items.length ≤ closureBound g kernel := by
  classical
  have hold : (items.filter (· ∈ kernel)).length ≤ kernel.length := by
    apply ((hn.filter _).subperm _).length_le
    intro i hi
    simpa using (List.mem_filter.mp hi).2
  have hnew : (items.filter (· ∉ kernel)).length ≤ g.rules.size * (g.terminals.size + 1) := by
    apply LawfulItem.length_le g _ (hn.filter _)
    intro i hi
    obtain ⟨hm, hi⟩ := List.mem_filter.mp hi
    exact (h i hm).resolve_left (by simpa using hi)
  have hsum := List.length_eq_length_filter_add (l := items) (fun i => decide (i ∈ kernel))
  simp only [decide_not] at hnew
  rw [closureBound]
  omega

theorem length_closure_le (hk : ∀ i ∈ kernel, g.Belongs i)
    (h : closure g g.firstTable kernel = .ok items) : items.length ≤ closureBound g kernel :=
  length_le_closureBound (nodup_closure h) fun i hi =>
    (mem_kernel_or_dot_eq hk h hi).imp_right fun hd => ⟨belongs_of_mem_closure hk h i hi, hd⟩

theorem mem_closure_of_predicts (hk : ∀ i ∈ kernel, g.Belongs i)
    (h : closure g g.firstTable kernel = .ok items) (hi : i ∈ items) (hij : g.Predicts i j) :
    j ∈ items := by
  have hb := length_closure_le hk h
  obtain ⟨e, he, rfl⟩ := closure_eq_ok_iff.mp h
  obtain ⟨note, next, hv, hn⟩ := Exploration.exists_visit_of_mem he hb hi
  exact hn j ((Grammar.predicts_iff_of_predict (visitItem_eq_ok_iff.mp hv)).mp hij)

/-- The closure of a kernel holds what its items predict, in any number of steps. -/
theorem mem_closure_iff (hk : ∀ k ∈ kernel, g.Belongs k)
    (h : closure g g.firstTable kernel = .ok items) :
    i ∈ items ↔ ∃ k ∈ kernel, Relation.ReflTransGen g.Predicts k i := by
  constructor
  · intro hi
    refine closure_induction h (P := fun i => ∃ k ∈ kernel, Relation.ReflTransGen g.Predicts k i)
      (fun k hk => ⟨k, hk, .refl⟩) ?_ i hi
    intro i j hi hij
    obtain ⟨k, hk, hi⟩ := hi
    exact ⟨k, hk, hi.tail hij⟩
  · rintro ⟨k, hkk, hi⟩
    induction hi with
    | refl => exact mem_closure_of_mem h hkk
    | tail _ hij ih => exact mem_closure_of_predicts hk h ih hij

end Closure

/-! ## The laws of closures -/

section Laws

variable {ι : Type} [PredictiveItem ι] {g : Grammar} {kernel kernel' items : List ι}

/-- A set of items that predict items of the set only, and none of which fails to. -/
def Grammar.ClosedUnderPrediction (g : Grammar) (s : Set ι) : Prop :=
  ∀ i ∈ s, ∃ js, PredictiveItem.predict g g.firstTable i = .ok js ∧ ∀ j ∈ js, j ∈ s

/-- The items are the closure of a kernel: what the visits of its items end with, and the least
closed set around it, which starts with the distinct items of the kernel and is its own closure. -/
structure IsClosureOf [DecidableEq ι] (g : Grammar) (kernel items : List ι) : Prop where
  existsUnique_endsWith : ∃! e, Exploration.EndsWith (visitItem g) kernel e
  found_eq : ∀ e, Exploration.EndsWith (visitItem g) kernel e → e.found.toList = items
  nodup : items.Nodup
  isLeast : IsLeast {s : Set ι | (∀ k ∈ kernel, k ∈ s) ∧ g.ClosedUnderPrediction s} {i | i ∈ items}
  isPrefix : kernel.eraseDups <+: items
  closure_eq : closure g g.firstTable items = .ok items

/-- Every list of items that belong to the grammar has a closure, and closures of lists one behind
the other are unions. -/
structure Grammar.HasClosures (g : Grammar) (ι : Type) [PredictiveItem ι] [DecidableEq ι] :
    Prop where
  exists_closure : ∀ kernel : List ι, (∀ k ∈ kernel, g.Belongs k) →
    ∃ items, closure g g.firstTable kernel = .ok items ∧ IsClosureOf g kernel items
  exists_closure_append : ∀ kernel kernel' : List ι, (∀ k ∈ kernel, g.Belongs k) →
    (∀ k ∈ kernel', g.Belongs k) → ∃ items items' all,
      closure g g.firstTable kernel = .ok items ∧ closure g g.firstTable kernel' = .ok items' ∧
      closure g g.firstTable (kernel ++ kernel') = .ok all ∧
      ∀ i, i ∈ all ↔ i ∈ items ∨ i ∈ items'

/-! ### The least closed set -/

theorem Grammar.ClosedUnderPrediction.mem_of_mem_closure {s : Set ι}
    (hs : g.ClosedUnderPrediction s) (hk : ∀ k ∈ kernel, k ∈ s)
    (h : closure g g.firstTable kernel = .ok items) : ∀ i ∈ items, i ∈ s := by
  refine closure_induction h hk ?_
  intro i j hi hij
  obtain ⟨js, hjs, hall⟩ := hs i hi
  exact hall j ((Grammar.predicts_iff_of_predict hjs).mp hij)

variable [LawfulItem ι]

theorem endsWith_closure (hk : ∀ k ∈ kernel, g.Belongs k)
    (h : closure g g.firstTable kernel = .ok items) :
    ∃ e, Exploration.EndsWith (visitItem g) kernel e ∧ e.found.toList = items := by
  have hlength := length_closure_le hk h
  obtain ⟨e, he, rfl⟩ := closure_eq_ok_iff.mp h
  exact ⟨e, Exploration.endsWith_of_run he hlength, rfl⟩

theorem closedUnderPrediction_closure (hk : ∀ k ∈ kernel, g.Belongs k)
    (h : closure g g.firstTable kernel = .ok items) :
    g.ClosedUnderPrediction {i | i ∈ items} := by
  intro i hi
  obtain ⟨js, hjs⟩ := LawfulItem.exists_predict g i (belongs_of_mem_closure hk h i hi)
  exact ⟨js, hjs, fun j hj => mem_closure_of_predicts hk h hi ⟨js, hjs, hj⟩⟩

theorem isLeast_closure (hk : ∀ k ∈ kernel, g.Belongs k)
    (h : closure g g.firstTable kernel = .ok items) :
    IsLeast {s : Set ι | (∀ k ∈ kernel, k ∈ s) ∧ g.ClosedUnderPrediction s} {i | i ∈ items} :=
  ⟨⟨fun _ hi => mem_closure_of_mem h hi, closedUnderPrediction_closure hk h⟩,
    fun _ hs => hs.2.mem_of_mem_closure hs.1 h⟩

/-! ### Closing again -/

/-- Closed items, each listed once, are their own closure. -/
theorem closure_eq_self (hi : ∀ i ∈ items, g.Belongs i) (hn : items.Nodup)
    (hc : g.ClosedUnderPrediction {i | i ∈ items}) : closure g g.firstTable items = .ok items := by
  obtain ⟨again, h⟩ := exists_closure hi
  have hsub := hc.mem_of_mem_closure (fun _ hi => hi) h
  have hle : again.length ≤ items.length := ((nodup_closure h).subperm hsub).length_le
  have hprefix : items <+: again := by
    have hstart := ofList_isPrefix_closure h
    rwa [OrderedSet.toList_ofList_of_nodup hn] at hstart
  rw [h, hprefix.eq_of_length_le hle]

/-! ### Kernels one behind the other -/

theorem mem_closure_append_iff {items' all : List ι} (hk : ∀ k ∈ kernel, g.Belongs k)
    (hk' : ∀ k ∈ kernel', g.Belongs k) (h : closure g g.firstTable kernel = .ok items)
    (h' : closure g g.firstTable kernel' = .ok items')
    (hall : closure g g.firstTable (kernel ++ kernel') = .ok all) (i : ι) :
    i ∈ all ↔ i ∈ items ∨ i ∈ items' := by
  have hboth : ∀ k ∈ kernel ++ kernel', g.Belongs k := List.forall_mem_append.mpr ⟨hk, hk'⟩
  rw [mem_closure_iff hboth hall, mem_closure_iff hk h, mem_closure_iff hk' h']
  simp only [List.mem_append, or_and_right, exists_or]

variable [DecidableEq ι]

theorem isClosureOf_closure (hk : ∀ k ∈ kernel, g.Belongs k)
    (h : closure g g.firstTable kernel = .ok items) : IsClosureOf g kernel items := by
  obtain ⟨e, he, hfound⟩ := endsWith_closure hk h
  exact {
    existsUnique_endsWith := ⟨e, he, fun e' he' => he'.unique he⟩
    found_eq := fun e' he' => by rw [he'.unique he, hfound]
    nodup := nodup_closure h
    isLeast := isLeast_closure hk h
    isPrefix := by
      rw [← OrderedSet.toList_ofList]
      exact ofList_isPrefix_closure h
    closure_eq := closure_eq_self (belongs_of_mem_closure hk h) (nodup_closure h)
      (closedUnderPrediction_closure hk h) }

theorem hasClosures (g : Grammar) : g.HasClosures ι where
  exists_closure kernel hk := by
    obtain ⟨items, h⟩ := exists_closure hk
    exact ⟨items, h, isClosureOf_closure hk h⟩
  exists_closure_append kernel kernel' hk hk' := by
    obtain ⟨items, h⟩ := exists_closure hk
    obtain ⟨items', h'⟩ := exists_closure hk'
    obtain ⟨all, hall⟩ := exists_closure (List.forall_mem_append.mpr ⟨hk, hk'⟩)
    exact ⟨items, items', all, h, h', hall, mem_closure_append_iff hk hk' h h' hall⟩

/-- Items of both kinds have closures. -/
theorem Grammar.hasClosures_items (g : Grammar) :
    g.HasClosures DottedRule ∧ g.HasClosures LookaheadItem :=
  ⟨hasClosures g, hasClosures g⟩

/-- An item behind the opening parenthesis, twice, and between the two an item whose dot is far past
the end of its body. -/
def nestedKernel : List LookaheadItem :=
  [⟨⟨.ofIndex 0, 1⟩, .endOfInput⟩, ⟨⟨.ofIndex 1, 9⟩, .named "x"⟩, ⟨⟨.ofIndex 0, 1⟩, .endOfInput⟩]

/-- Besides the two items of the kernel, the closure holds what the first of them predicts. -/
theorem Grammar.hasClosures_items_nested : ∃ items,
    closure nested nested.firstTable nestedKernel = .ok items ∧
      IsClosureOf nested nestedKernel items ∧ items = nestedKernel.take 2 ++
        [⟨⟨.ofIndex 0, 0⟩, .named ")"⟩, ⟨⟨.ofIndex 1, 0⟩, .named ")"⟩] := by
  have hbelongs : ∀ k ∈ nestedKernel, nested.Belongs k := by decide +kernel
  obtain ⟨items, h, hclosure⟩ := (hasClosures_items nested).2.exists_closure _ hbelongs
  refine ⟨items, h, hclosure, ?_⟩
  have hitems : (closure nested nested.firstTable nestedKernel).toOption =
      some (nestedKernel.take 2 ++
        [⟨⟨.ofIndex 0, 0⟩, .named ")"⟩, ⟨⟨.ofIndex 1, 0⟩, .named ")"⟩]) := by
    decide +kernel
  rw [h] at hitems
  exact Option.some.inj hitems

end Laws

end GrammarTables
