import GrammarTables.Proofs.AwaitedItems
import GrammarTables.Proofs.MergedStates

/-!
# Kernels and walks

The kernel that some symbols lead to consists of the awaited items whose dot has been moved, together
with the initial item. So two walks end in the same state exactly if the same items are awaited after
them, and in the same merged state if the same cores are.
-/

namespace GrammarTables

variable {ι : Type} [PredictiveItem ι] {g : Grammar} {l l' : List Symbol} {x : Symbol} {i j : ι}
  {kernel : List ι}

/-- The dot has been moved, or the item begins all sentences. -/
def Moved {ι : Type} [Item ι] (i : ι) : Prop :=
  (Item.core i).dot ≠ 0 ∨ (Item.core i).production = .accept

/-- The kernel holds what is awaited after the symbols and has not been predicted. -/
structure KernelAfter (g : Grammar) (l : List Symbol) (kernel : List ι) : Prop where
  mem_iff : ∀ i, i ∈ kernel ↔ g.Awaits l i ∧ Moved i
  nonempty : ∃ i, i ∈ kernel

theorem Grammar.Awaits.of_reflTransGen (hi : g.Awaits l i) (hij : Relation.ReflTransGen g.Predicts i j) :
    g.Awaits l j := by
  induction hij with
  | refl => exact hi
  | tail _ hjk ih => exact ih.predict hjk

theorem KernelAfter.eq_of_awaits {kernel' : List ι} (hk : KernelAfter g l kernel)
    (hk' : KernelAfter g l' kernel') (ha : Ascending kernel) (ha' : Ascending kernel')
    (h : ∀ i : ι, g.Awaits l i ↔ g.Awaits l' i) : kernel = kernel' := by
  apply ha.ext ha'
  intro i
  rw [hk.mem_iff, hk'.mem_iff, h]

section Lawful

variable [LawfulItem ι]

theorem moved_initial : Moved (PredictiveItem.initial : ι) := by
  right
  rw [LawfulItem.core_initial]
  rfl

theorem moved_shifted (hx : (Item.core i).next? g = some x) :
    Moved (PredictiveItem.shifted i) :=
  Or.inl (Grammar.dot_shifted_ne_zero hx)

theorem not_moved_of_predicts (hi : g.Admissible i) (hij : g.Predicts i j) : ¬Moved j := by
  obtain ⟨⟨x, -, hp⟩, hd, -⟩ := LawfulItem.of_predicts g i j hi.belongs hij
  rintro (hz | ha)
  · exact hz hd
  · exact Grammar.ne_accept_of_head? (Grammar.head?_of_mem_alternatives hp) ha

namespace Grammar

theorem Awaits.exists_moved (hi : g.Awaits l i) :
    ∃ k : ι, g.Awaits l k ∧ Moved k ∧ Relation.ReflTransGen g.Predicts k i := by
  induction hi with
  | initial => exact ⟨_, .initial, moved_initial, .refl⟩
  | predict _ hij ih =>
    obtain ⟨k, hk, hm, hki⟩ := ih
    exact ⟨k, hk, hm, hki.tail hij⟩
  | shift hi hx _ => exact ⟨_, hi.shift hx, moved_shifted hx, .refl⟩

theorem awaits_nil_and_moved_iff :
    g.Awaits [] i ∧ Moved i ↔ i = (PredictiveItem.initial : ι) := by
  constructor
  · rintro ⟨hi, hm⟩
    generalize hl : ([] : List Symbol) = l at hi
    cases hi with
    | initial => rfl
    | predict hk hki => exact absurd hm (not_moved_of_predicts hk.admissible hki)
    | shift _ _ => simp at hl
  · rintro rfl
    exact ⟨.initial, moved_initial⟩

theorem awaits_concat_and_moved_iff : g.Awaits (l ++ [x]) j ∧ Moved j ↔
    ∃ i : ι, g.Awaits l i ∧ (Item.core i).next? g = some x ∧ j = PredictiveItem.shifted i := by
  constructor
  · rintro ⟨hj, hm⟩
    generalize hl : l ++ [x] = l' at hj
    cases hj with
    | initial => simp at hl
    | predict hk hkj => exact absurd hm (not_moved_of_predicts hk.admissible hkj)
    | @shift _ i _ hi hx =>
      obtain ⟨rfl, rfl⟩ := List.append_singleton_inj.mp hl
      exact ⟨i, hi, hx, rfl⟩
  · rintro ⟨i, hi, hx, rfl⟩
    exact ⟨hi.shift hx, moved_shifted hx⟩

end Grammar

namespace KernelAfter

theorem initial : KernelAfter g [] [(PredictiveItem.initial : ι)] where
  mem_iff i := by rw [Grammar.awaits_nil_and_moved_iff, List.mem_singleton]
  nonempty := ⟨_, List.mem_singleton.mpr rfl⟩

theorem mem_closure_iff {items : List ι} (hk : KernelAfter g l kernel)
    (hc : closure g g.firstTable kernel = .ok items) : i ∈ items ↔ g.Awaits l i := by
  have hall : ∀ k ∈ kernel, g.Belongs k := fun k hkk =>
    ((hk.mem_iff k).mp hkk).1.admissible.belongs
  rw [GrammarTables.mem_closure_iff hall hc]
  constructor
  · rintro ⟨k, hkk, hki⟩
    exact ((hk.mem_iff k).mp hkk).1.of_reflTransGen hki
  · intro hi
    obtain ⟨k, hkk, hm, hki⟩ := hi.exists_moved
    exact ⟨k, (hk.mem_iff k).mpr ⟨hkk, hm⟩, hki⟩

theorem kernelAfter {items : List ι} (hitems : ∀ i, i ∈ items ↔ g.Awaits l i)
    (hx : ∃ i ∈ items, (Item.core i).next? g = some x) :
    KernelAfter g (l ++ [x]) (kernelAfter g items x) := by
  constructor
  · intro j
    rw [mem_kernelAfter, Grammar.awaits_concat_and_moved_iff]
    simp only [hitems]
  · obtain ⟨i, hi, hix⟩ := hx
    exact ⟨_, mem_kernelAfter.mpr ⟨i, hi, hix, rfl⟩⟩

/-- What a search for kernels has found is where walks lead, even if it was stopped early. -/
theorem exists_of_found {cap : Nat} {e : Exploration (List ι) (Expansion ι)}
    (hr : Exploration.run (expand g g.firstTable) cap [[PredictiveItem.initial]] = .ok e) :
    ∀ kernel ∈ e.found, Ascending kernel ∧ ∃ l, KernelAfter g l kernel := by
  apply (Exploration.run_faithful hr).least
  · intro kernel hk
    rw [List.mem_singleton.mp hk]
    exact ⟨List.pairwise_singleton _ _, [], initial⟩
  · intro kernel note next hk hv kernel' hk'
    obtain ⟨-, l, hl⟩ := hk
    obtain ⟨hc, hs, hn⟩ := expand_eq_ok hv
    rw [hn, hs, List.mem_map] at hk'
    obtain ⟨⟨x, k⟩, hm, rfl⟩ := hk'
    obtain ⟨hx, rfl⟩ := mem_successors.mp hm
    exact ⟨ascending_sortDistinct _, l ++ [x], kernelAfter (fun i => hl.mem_closure_iff hc) hx⟩

end KernelAfter

namespace CanonicalFor

variable {a : Automaton ι} {q q' : StateId} {s s' : State ι}

theorem kernelAfter (h : CanonicalFor g a) (hl : a.after? l = some q) (hs : a.state? q = some s) :
    KernelAfter g l s.kernel := by
  induction l using List.reverseRecOn generalizing q s with
  | nil =>
    obtain ⟨s₀, hs₀, hk⟩ := h.initial
    cases hl
    obtain rfl : s = s₀ := Option.some.inj (hs.symm.trans hs₀)
    rw [hk]
    exact .initial
  | append_singleton l x _ =>
    obtain ⟨p, hp, hstep⟩ := Automaton.after?_concat_eq_some.mp hl
    obtain ⟨s₀, hs₀, hx⟩ := Automaton.step?_eq_some.mp hstep
    obtain ⟨s', hs', hk⟩ := h.target p s₀ hs₀ x q hx
    obtain rfl : s = s' := Option.some.inj (hs.symm.trans hs')
    rw [hk]
    refine .kernelAfter (fun i => h.mem_items_iff hp hs₀) ?_
    exact (h.isSome_next? p s₀ hs₀ x).mp (by rw [hx]; rfl)

theorem awaits_iff_of_after? (h : CanonicalFor g a) (hl : a.after? l = some q)
    (hl' : a.after? l' = some q) : g.Awaits l i ↔ g.Awaits l' i := by
  obtain ⟨s, hs⟩ := h.exists_state hl
  rw [← h.mem_items_iff hl hs, h.mem_items_iff hl' hs]

end CanonicalFor

end Lawful

/-! ### Walks into merged states -/

namespace Grammar

/-- The same cores are awaited after both walks, with whatever lookaheads. -/
def SameCores (g : Grammar) (l l' : List Symbol) : Prop :=
  ∀ c, (∃ i : LookaheadItem, g.Awaits l i ∧ i.core = c) ↔
    ∃ i : LookaheadItem, g.Awaits l' i ∧ i.core = c

end Grammar

namespace CanonicalFor

variable {a : Automaton LookaheadItem} {q q' : StateId} {s s' : State LookaheadItem}

private theorem exists_kernel_core_iff (h : CanonicalFor g a) (hl : a.after? l = some q)
    (hs : a.state? q = some s) {c : DottedRule} : (∃ i ∈ s.kernel, i.core = c) ↔
      Moved c ∧ ∃ i : LookaheadItem, g.Awaits l i ∧ i.core = c := by
  simp only [(h.kernelAfter hl hs).mem_iff]
  constructor
  · rintro ⟨i, ⟨hi, hm⟩, rfl⟩
    exact ⟨hm, i, hi, rfl⟩
  · rintro ⟨hm, i, hi, rfl⟩
    exact ⟨i, ⟨hi, hm⟩, rfl⟩

theorem sameKernelCores_iff (h : CanonicalFor g a) (hl : a.after? l = some q)
    (hs : a.state? q = some s) (hl' : a.after? l' = some q') (hs' : a.state? q' = some s') :
    s.SameKernelCores s' ↔ g.SameCores l l' := by
  constructor
  · intro hc c
    have hcores {l l' : List Symbol} {q q' : StateId} {s s' : State LookaheadItem}
        (hl : a.after? l = some q) (hs : a.state? q = some s) (hl' : a.after? l' = some q')
        (hs' : a.state? q' = some s') (hc : s.SameKernelCores s') :
        (∃ i : LookaheadItem, g.Awaits l i ∧ i.core = c) →
          ∃ i : LookaheadItem, g.Awaits l' i ∧ i.core = c := by
      rintro ⟨i, hi, rfl⟩
      obtain ⟨j, hj, hji⟩ :=
        h.exists_item_of_sameKernelCores hs hs' hc ((h.mem_items_iff hl hs).mpr hi)
      exact ⟨j, h.awaits_of_mem hl' hs' hj, hji⟩
    exact ⟨hcores hl hs hl' hs' hc, hcores hl' hs' hl hs hc.symm⟩
  · intro hc c
    rw [h.exists_kernel_core_iff hl hs, h.exists_kernel_core_iff hl' hs', hc]

theorem exists_after?_mergedId (ha : CanonicalFor g a) {S : State MergedItem}
    (hS : a.mergeByCore.state? q = some S) :
    ∃ l p, a.after? l = some p ∧ a.mergedId p = q := by
  obtain ⟨p, s, hs, rfl, -⟩ := Automaton.exists_member ha.size_le hS
  obtain ⟨l, hl⟩ := ha.reachable p s hs
  exact ⟨l, p, hl, rfl⟩

end CanonicalFor

end GrammarTables
