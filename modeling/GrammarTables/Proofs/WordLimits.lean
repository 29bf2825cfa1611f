import GrammarTables.Proofs.AcceptingCells
import GrammarTables.Proofs.Refusals
import GrammarTables.Proofs.RuleLists

/-!
# Limits of words

Ids of rules, positions of dots and numbers of states are 16-bit words. The limits of a grammar and
of an automaton are such that no number is ever cut off when it becomes a word: ids are those of
their rules, a dot is never moved beyond 65535, and states have the numbers of their places
(`words_fit`).
-/

namespace GrammarTables

/-! ### Ids of rules -/

namespace Grammar

variable {g : Grammar} {ps : List Production}

/-- The rules of the list have ids of their own, from which their indexes can be told. -/
structure IdsFit (g : Grammar) (ps : List Production) : Prop where
  map_rule : g.numbered.map (fun e => .rule e.2) = ps
  nodup : (g.numbered.map Prod.fst).Nodup
  index : ∀ (i : Nat) e, g.numbered[i]? = some e → e.1.word.toNat = i + 1 ∧ e.1.index? = some i
  ofIndex? : ∀ e ∈ g.numbered, e.1.index?.bind ProductionId.ofIndex? = some e.1
  ne_accept : ∀ e ∈ g.numbered, e.1 ≠ .accept
  alternatives : ∀ x, ∀ p ∈ g.alternatives x, p ∈ g.numbered.map Prod.fst

theorem eq_ofIndex_of_getElem?_numbered {i : Nat} {e : ProductionId × Rule}
    (h : g.numbered[i]? = some e) : i < 65534 ∧ e.1 = .ofIndex i := by
  rw [numbered, getElem?_numberedRules, Option.map_eq_some_iff] at h
  obtain ⟨r, hr, rfl⟩ := h
  have hlt := (List.getElem?_eq_some_iff.mp hr).1
  have hsize := g.wellFormed.size_le
  rw [Array.length_toList] at hlt
  exact ⟨by omega, rfl⟩

theorem idsFit_of_ofProductions (h : ofProductions ps = .ok g) : g.IdsFit ps where
  map_rule := by
    rw [eq_map_rule_of_ofProductions h, ← map_snd_numbered, List.map_map]
    rfl
  nodup := nodup_numbered
  index i e he := by
    obtain ⟨hlt, hid⟩ := eq_ofIndex_of_getElem?_numbered he
    rw [hid]
    exact ⟨ProductionId.toNat_word_ofIndex (by omega), ProductionId.index?_ofIndex (by omega)⟩
  ofIndex? e he := by
    obtain ⟨i, hi⟩ := List.mem_iff_getElem?.mp he
    obtain ⟨hlt, hid⟩ := eq_ofIndex_of_getElem?_numbered hi
    rw [hid, ProductionId.index?_ofIndex (by omega), Option.bind_some,
      ProductionId.ofIndex?_eq_some_iff]
    exact ⟨by omega, ProductionId.toNat_word_ofIndex (by omega)⟩
  ne_accept e he := ne_accept_of_head? (head?_of_rule (mem_numbered_iff.mp he))
  alternatives x p hp := by
    obtain ⟨r, hr, -⟩ := head?_eq_some_iff.mp (head?_of_mem_alternatives hp)
    exact List.mem_map_of_mem (mem_numbered_iff.mpr hr)

end Grammar

/-! ### Dots -/

/-- The dot stands in the body, and it can be counted where it moves to. -/
structure DottedRule.Fits (g : Grammar) (d : DottedRule) : Prop where
  dot_le : d.dot.toNat ≤ (g.body d.production).length
  dot_shifted : ∀ x, d.next? g = some x →
    d.dot.toNat < 65535 ∧ d.shifted.dot.toNat = d.dot.toNat + 1

def State.DotsFit {ι : Type} [Item ι] (g : Grammar) (s : State ι) : Prop :=
  ∀ i ∈ s.kernel ++ s.items, (Item.core i).Fits g

section Dots

variable {g : Grammar}

theorem Grammar.Admissible.fits {ι : Type} [Item ι] {i : ι} (h : g.Admissible i) :
    (Item.core i).Fits g where
  dot_le := h.dot_le
  dot_shifted x hx := by
    have hlt := DottedRule.dot_lt_of_next? hx
    have hle := g.length_body_le (Item.core i).production
    exact ⟨by omega, DottedRule.dot_shifted hx⟩

theorem CanonicalFor.dotsFit {ι : Type} [PredictiveItem ι] [LawfulItem ι] {a : Automaton ι}
    (h : CanonicalFor g a) : ∀ s ∈ a.states, s.DotsFit g := by
  intro s hs
  obtain ⟨q, hq⟩ := Automaton.exists_state?_of_mem h.size_le hs
  refine List.forall_mem_append.mpr ⟨fun i hi => ?_, fun i hi => (h.admissible hq hi).fits⟩
  exact (h.admissible_kernel q s hq i hi).fits

variable {a : Automaton LookaheadItem}

theorem forall_core_collapse {P : DottedRule → Prop} {items : List LookaheadItem}
    (h : ∀ i ∈ items, P i.core) : ∀ m ∈ collapse items, P m.core := by
  intro m hm
  obtain ⟨i, hi, him⟩ := exists_core_collapse.mp ⟨m, hm, rfl⟩
  rw [← him]
  exact h i hi

theorem forall_core_mergeItems {P : DottedRule → Prop} {lists : List (List MergedItem)}
    (h : ∀ l ∈ lists, ∀ m ∈ l, P m.core) : ∀ m ∈ mergeItems lists, P m.core := by
  intro m hm
  have hcore : m.core ∈ (mergeItems lists).map MergedItem.core := List.mem_map_of_mem hm
  rw [map_core_mergeItems, OrderedSet.mem_toList, OrderedSet.mem_ofList, List.mem_map] at hcore
  obtain ⟨m', hm', he⟩ := hcore
  obtain ⟨l, hl, hml⟩ := List.mem_flatten.mp hm'
  rw [← he]
  exact h l hl m' hml

theorem State.DotsFit.collapse {s : State LookaheadItem} (h : s.DotsFit g) :
    s.collapse.DotsFit g := by
  obtain ⟨hkernel, hitems⟩ := List.forall_mem_append.mp h
  exact List.forall_mem_append.mpr ⟨forall_core_collapse (P := DottedRule.Fits g) hkernel,
    forall_core_collapse (P := DottedRule.Fits g) hitems⟩

theorem CanonicalFor.dotsFit_mergeByCore (h : CanonicalFor g a) :
    ∀ S ∈ a.mergeByCore.states, S.DotsFit g := by
  intro S hS
  have hsize := Automaton.size_mergeByCore_le.trans h.size_le
  obtain ⟨q, hq⟩ := Automaton.exists_state?_of_mem hsize hS
  obtain ⟨q₀, s₀, members, hs₀, -, hmembers, rfl⟩ := Automaton.exists_members h.size_le hq
  have hstate {q : StateId} {s : State LookaheadItem} (hs : a.state? q = some s) :
      s.collapse.DotsFit g :=
    (h.dotsFit s (Array.mem_of_getElem? hs)).collapse
  have hall : ∀ t ∈ s₀.collapse :: members, t.DotsFit g := by
    refine List.forall_mem_cons.mpr ⟨hstate hs₀, fun t ht => ?_⟩
    obtain ⟨q', s', hs', -, rfl⟩ := hmembers t ht
    exact hstate hs'
  refine List.forall_mem_append.mpr ⟨?_, ?_⟩
  · apply forall_core_mergeItems (P := DottedRule.Fits g)
    intro l hl
    obtain ⟨t, ht, rfl⟩ := List.mem_map.mp hl
    exact (List.forall_mem_append.mp (hall t ht)).1
  · apply forall_core_mergeItems (P := DottedRule.Fits g)
    intro l hl
    obtain ⟨t, ht, rfl⟩ := List.mem_map.mp hl
    exact (List.forall_mem_append.mp (hall t ht)).2

end Dots

namespace Grammar

/-- The dots of the items that follow from a reachable kernel fit. -/
def KernelDotsFit (g : Grammar) (ι : Type) [PredictiveItem ι] : Prop :=
  ∀ kernel : List ι, g.ReachesKernel kernel → ∃ items, closure g g.firstTable kernel = .ok items ∧
    ∀ i ∈ kernel ++ items, (Item.core i).Fits g

/-- The dots of all items fit, whether or not an automaton has too many states. -/
structure DotsFit (g : Grammar) : Prop where
  bareKernels : g.KernelDotsFit DottedRule
  kernels : g.KernelDotsFit LookaheadItem
  lr0 : ∀ a, g.lr0Automaton = .ok a → ∀ s ∈ a.states, s.DotsFit g
  lr1 : ∀ a, g.lr1Automaton = .ok a → ∀ s ∈ a.states, s.DotsFit g
  collapsed : ∀ a, g.lr1Automaton = .ok a → ∀ s ∈ a.collapsed, s.DotsFit g
  lalr1 : ∀ m, g.lalr1Automaton = .ok m → ∀ s ∈ m.states, s.DotsFit g

theorem kernelDotsFit (g : Grammar) (ι : Type) [PredictiveItem ι] [LawfulItem ι] :
    g.KernelDotsFit ι := by
  intro kernel hkernel
  obtain ⟨items, hc, hadmissible⟩ := hkernel.exists_closure
  refine ⟨items, hc, List.forall_mem_append.mpr ⟨fun i hi => ?_, fun i hi => ?_⟩⟩
  · exact (hadmissible i (mem_closure_of_mem hc hi)).fits
  · exact (hadmissible i hi).fits

theorem dotsFit (g : Grammar) : g.DotsFit where
  bareKernels := g.kernelDotsFit DottedRule
  kernels := g.kernelDotsFit LookaheadItem
  lr0 a h := (canonicalFor_of_eq_ok h).dotsFit
  lr1 a h := (canonicalFor_of_eq_ok h).dotsFit
  collapsed a h S hS := by
    obtain ⟨s, hs, rfl⟩ := List.mem_map.mp hS
    exact ((canonicalFor_of_eq_ok h).dotsFit s (Array.mem_toList_iff.mp hs)).collapse
  lalr1 m h := by
    obtain ⟨a, ha, hm⟩ := bind_eq_ok_iff.mp h
    cases hm
    exact (canonicalFor_of_eq_ok ha).dotsFit_mergeByCore

end Grammar

/-! ### Numbers of states -/

/-- States have the numbers of their places, and transitions lead to places of states. -/
structure Automaton.NumbersFit {ι : Type} (a : Automaton ι) : Prop where
  size_le : a.size ≤ 65536
  index_id : ∀ (i : Nat) (s : State ι), a.states[i]? = some s → s.id.index = i
  nodup_ids : (a.states.toList.map State.id).Nodup
  target_lt : ∀ s ∈ a.states, ∀ e ∈ s.transitions, e.2.index < a.size

/-- Transitions name the places of the kernels that they lead to. -/
def Automaton.TargetsFit {ι : Type} [PredictiveItem ι] (g : Grammar) (a : Automaton ι) : Prop :=
  ∀ s ∈ a.states, ∀ e ∈ s.transitions, ∃ t, a.states[e.2.index]? = some t ∧
    (e.1, t.kernel) ∈ successors g s.items

/-- The number of a merged state is the place of its class, also where transitions name it. -/
structure Automaton.ClassesFit (a : Automaton LookaheadItem) (m : Automaton MergedItem) : Prop where
  position?_eq : ∀ s ∈ a.states, (coreClasses a.collapsed).keys.position? s.collapse.kernelCores =
    some (a.mergedId s.id).index
  transitions : ∀ S ∈ m.states, ∃ s ∈ a.states, a.mergedId s.id = S.id ∧
    S.transitions = s.transitions.map fun e => (e.1, a.mergedId e.2)

/-- The numbers of the states of all automata are those of their places. -/
structure Grammar.StateNumbersFit (g : Grammar) : Prop where
  lr0 : ∀ a, g.lr0Automaton = .ok a → a.NumbersFit ∧ a.TargetsFit g
  lr1 : ∀ a, g.lr1Automaton = .ok a → a.NumbersFit ∧ a.TargetsFit g
  lalr1 : ∀ m, g.lalr1Automaton = .ok m →
    m.NumbersFit ∧ ∃ a, g.lr1Automaton = .ok a ∧ a.ClassesFit m

section Numbers

variable {g : Grammar}

theorem Automaton.Numbered.numbersFit {ι : Type} [Item ι] {a : Automaton ι} (h : a.Numbered g)
    (hsize : a.size ≤ 65536) (hits : a.LookUpsHit g) : a.NumbersFit where
  size_le := hsize
  index_id i s hs := (h.state?_of_getElem? hsize hs).2
  nodup_ids := by
    have hplaces : (a.states.toList.map State.id).map StateId.index = List.range a.size := by
      apply List.ext_getElem (by simp [Automaton.size])
      intro i hi _
      rw [List.length_map, List.length_map, Array.length_toList] at hi
      rw [List.getElem_map, List.getElem_map, List.getElem_range, Array.getElem_toList]
      exact (h.state?_of_getElem? hsize (Array.getElem?_eq_getElem hi)).2
    exact List.Nodup.of_map _ (hplaces ▸ List.nodup_range)
  target_lt s hs e he := by
    obtain ⟨t, ht⟩ := Option.isSome_iff_exists.mp (hits.target s hs e he)
    exact (Array.getElem?_eq_some_iff.mp ht).1

theorem CanonicalFor.targetsFit {ι : Type} [PredictiveItem ι] {a : Automaton ι}
    (h : CanonicalFor g a) : a.TargetsFit g := by
  intro s hs e he
  obtain ⟨q, hq⟩ := Automaton.exists_state?_of_mem h.size_le hs
  have hnext := (lookup_eq_some_iff_mem (h.nodup_transitions q s hq)).mpr he
  obtain ⟨t, ht, hk⟩ := h.target q s hq e.1 e.2 hnext
  have hitem := (h.isSome_next? q s hq e.1).mp (Option.isSome_of_eq_some hnext)
  exact ⟨t, ht, mem_successors.mpr ⟨hitem, hk⟩⟩

theorem classesFit_of_eq_ok {a : Automaton LookaheadItem} (h : g.lr1Automaton = .ok a) :
    a.ClassesFit a.mergeByCore where
  position?_eq s hs :=
    Automaton.position?_kernelCores (canonicalFor_of_eq_ok h).size_le
      ((lookUpsHit_of_eq_ok h).id s hs)
  transitions S hS := by
    have hsize := (canonicalFor_of_eq_ok h).size_le
    obtain ⟨q, hq⟩ := Automaton.exists_state?_of_mem (Automaton.size_mergeByCore_le.trans hsize) hS
    obtain ⟨q₀, s₀, hs₀, hmerged, ht⟩ := Automaton.exists_member hsize hq
    refine ⟨s₀, Array.mem_of_getElem? hs₀, ?_, ht⟩
    rw [(numbered_of_eq_ok h).id q₀ s₀ hs₀, hmerged, Automaton.id_mergeByCore hsize hq]

theorem numbersFit_of_eq_ok {ι : Type} [PredictiveItem ι] [LawfulItem ι] {a : Automaton ι}
    (h : canonical ι g g.firstTable = .ok a) : a.NumbersFit ∧ a.TargetsFit g := by
  have hc := canonicalFor_of_eq_ok h
  exact ⟨(numbered_of_eq_ok h).numbersFit hc.size_le (lookUpsHit_of_eq_ok h), hc.targetsFit⟩

theorem stateNumbersFit (g : Grammar) : g.StateNumbersFit where
  lr0 _ h := numbersFit_of_eq_ok h
  lr1 _ h := numbersFit_of_eq_ok h
  lalr1 m h := by
    obtain ⟨a, ha, hm⟩ := bind_eq_ok_iff.mp h
    cases hm
    have hsize := Automaton.size_mergeByCore_le.trans (canonicalFor_of_eq_ok ha).size_le
    exact ⟨(numbered_mergeByCore ha).numbersFit hsize (lookUpsHit_mergeByCore ha),
      a, ha, classesFit_of_eq_ok ha⟩

end Numbers

/-- Ids, dots and numbers of states are exact for every list of rules that is accepted. -/
theorem Grammar.words_fit {ps : List Production} {g : Grammar} (h : ofProductions ps = .ok g) :
    g.IdsFit ps ∧ g.DotsFit ∧ g.StateNumbersFit :=
  ⟨idsFit_of_ofProductions h, g.dotsFit, stateNumbersFit g⟩

def Grammar.longestRule : Rule := ⟨.named "S", List.replicate 65535 (.named "x"), 0⟩

/-- The grammar of `x` repeated 65535 times. -/
def Grammar.longest : Grammar :=
  ofRules #[longestRule] {
    nonempty := Nat.one_pos
    size_le := by decide
    isNamed_head := fun r hr => by rw [Array.mem_singleton.mp hr]; rfl
    isNamed_body := fun r hr x hx => by
      rw [Array.mem_singleton.mp hr] at hx
      rw [List.eq_of_mem_replicate hx]
      rfl
    length_body_le := fun r hr => by
      rw [Array.mem_singleton.mp hr]
      exact Nat.le_of_eq List.length_replicate }

theorem Grammar.words_fit_longest : ofProductions [.rule longestRule] = .ok longest ∧
    longestRule.body.length = 65535 ∧
      longest.IdsFit [.rule longestRule] ∧ longest.DotsFit ∧ longest.StateNumbersFit := by
  have h : ofProductions ([longestRule].map .rule) = .ok longest := ofProductions_eq_ok_iff.mpr rfl
  exact ⟨h, List.length_replicate, words_fit h⟩

end GrammarTables
