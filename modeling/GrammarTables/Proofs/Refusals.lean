import GrammarTables.Proofs.CanonicalCollection
import GrammarTables.Proofs.MergedStates
import GrammarTables.Proofs.PredictionTable
import GrammarTables.Workbench

/-!
# Why a grammar is refused

Kernels are reached from the initial one by reading symbols. The search for them never fails, so the
automaton of a grammar is refused exactly if more kernels can be reached than states can have numbers
(`canonical_eq_error_iff`). The constructions look up symbols, productions and states in maps and
arrays that they have filled before, and each of these look-ups hits (`lookUpsHit`). So the only
errors are that the grammar is cyclic, with the cycle that has been found, and that an automaton has
too many states (`constructions_refuse_iff`).
-/

namespace GrammarTables

/-- The kernel is reached from that of the initial item by reading symbols. -/
inductive Grammar.ReachesKernel (g : Grammar) {ι : Type} [PredictiveItem ι] : List ι → Prop where
  | initial : ReachesKernel g [PredictiveItem.initial]
  | goto {kernel items next : List ι} {x : Symbol} (h : ReachesKernel g kernel)
    (hc : closure g g.firstTable kernel = .ok items) (hx : (x, next) ∈ successors g items) :
    ReachesKernel g next

/-- There are more different kernels that can be reached than states can have numbers. -/
def Grammar.TooManyKernels (g : Grammar) (ι : Type) [PredictiveItem ι] : Prop :=
  ∃ kernels : List (List ι), kernels.Nodup ∧ 65536 < kernels.length ∧
    ∀ kernel ∈ kernels, g.ReachesKernel kernel

section Kernels

variable {ι : Type} [PredictiveItem ι] {g : Grammar} {kernel : List ι}
  {e : Exploration (List ι) (Expansion ι)}

private theorem reachesKernel_of_mem_found
    (hr : Exploration.run (expand g g.firstTable) stateLimit [[PredictiveItem.initial]] = .ok e) :
    ∀ kernel ∈ e.found, g.ReachesKernel kernel := by
  apply (Exploration.run_faithful hr).least
  · intro kernel hk
    rw [List.mem_singleton.mp hk]
    exact .initial
  · intro kernel note next hk hv kernel' hk'
    obtain ⟨hc, hs, hn⟩ := expand_eq_ok hv
    rw [hn, hs, List.mem_map] at hk'
    obtain ⟨⟨x, k⟩, hm, rfl⟩ := hk'
    exact hk.goto hc hm

private theorem mem_found_of_reachesKernel
    (hr : Exploration.run (expand g g.firstTable) stateLimit [[PredictiveItem.initial]] = .ok e)
    (hsize : e.found.size ≤ stateLimit) (h : g.ReachesKernel kernel) : kernel ∈ e.found := by
  induction h with
  | initial => exact Exploration.mem_found_of_mem_start hr (List.mem_singleton.mpr rfl)
  | goto _ hc hx ih =>
    obtain ⟨note, next, hv, hnext⟩ := Exploration.exists_visit_of_mem hr hsize ih
    obtain ⟨hc', hs, hn⟩ := expand_eq_ok hv
    rw [hc] at hc'
    cases hc'
    apply hnext
    rw [hn, hs]
    exact List.mem_map.mpr ⟨_, hx, rfl⟩

variable [LawfulItem ι]

theorem Grammar.ReachesKernel.exists_closure (h : g.ReachesKernel kernel) :
    ∃ items, closure g g.firstTable kernel = .ok items ∧ ∀ i ∈ items, g.Admissible i := by
  have hk : ∀ i ∈ kernel, g.Admissible i := by
    induction h with
    | initial => exact admissible_of_mem_start _ (List.mem_singleton.mpr rfl)
    | goto _ hc hx ih => exact admissible_of_mem_successors (admissible_of_mem_closure ih hc) hx
  obtain ⟨items, hc⟩ := GrammarTables.exists_closure (Grammar.belongs_of_admissible hk)
  exact ⟨items, hc, admissible_of_mem_closure hk hc⟩

/-- An automaton is refused exactly if too many kernels can be reached. -/
theorem canonical_eq_error_iff {err : GrammarError} : canonical ι g g.firstTable = .error err ↔
    err = .tooManyStates ∧ g.TooManyKernels ι := by
  obtain ⟨e, hr⟩ := exists_search ι g
  have hfound := reachesKernel_of_mem_found hr
  by_cases hsize : e.found.size ≤ stateLimit
  · obtain ⟨a, ha⟩ : ∃ a, canonical ι g g.firstTable = .ok a :=
      ⟨_, canonical_eq_ok_iff.mpr ⟨e, hr, hsize, rfl⟩⟩
    have hfew : ¬g.TooManyKernels ι := by
      rintro ⟨kernels, hnodup, hlong, hreach⟩
      have hsub : kernels ⊆ e.found.toList := fun kernel hk =>
        OrderedSet.mem_toList.mpr (mem_found_of_reachesKernel hr hsize (hreach kernel hk))
      have hle := (hnodup.subperm hsub).length_le
      rw [OrderedSet.length_toList] at hle
      have hlimit : stateLimit = 65536 := rfl
      omega
    simp [ha, hfew]
  · have hmany : g.TooManyKernels ι := by
      refine ⟨e.found.toList, e.found.nodup_toList, ?_, fun kernel hk => ?_⟩
      · rw [OrderedSet.length_toList]
        exact Nat.not_le.mp hsize
      · exact hfound kernel (OrderedSet.mem_toList.mp hk)
    have hrefused : canonical ι g g.firstTable = .error .tooManyStates := by
      refine (exists_canonical_or ι g).resolve_left ?_
      rintro ⟨a, ha⟩
      obtain ⟨e', he'⟩ := canonical_eq_ok_iff.mp ha
      obtain rfl : e = e' := Except.ok.inj (hr.symm.trans he'.run_eq)
      exact hsize he'.size_le
    simp [hrefused, hmany, eq_comm]

end Kernels

/-! ### Look-ups that hit -/

/-! ### Automata -/

/-- The items of the states belong to the grammar, a state is found by its number, and transitions
lead to states. -/
structure Automaton.LookUpsHit {ι : Type} [Item ι] (g : Grammar) (a : Automaton ι) : Prop where
  admissible : ∀ s ∈ a.states, ∀ i ∈ s.items, g.Admissible i
  id : ∀ s ∈ a.states, a.state? s.id = some s
  target : ∀ s ∈ a.states, ∀ e ∈ s.transitions, (a.state? e.2).isSome

/-- The merged state that a state belongs to, if there is such a state. -/
def Automaton.mergedId? (a : Automaton LookaheadItem) (q : StateId) : Option StateId :=
  (a.collapsed.map fun s =>
    StateId.ofIndex (((coreClasses a.collapsed).keys.position? s.kernelCores).getD 0)).toArray[
      q.index]?

/-- Members of classes are found by their numbers, and the targets of transitions have a place in the
merged automaton. -/
structure Automaton.MergeHits (a : Automaton LookaheadItem) : Prop where
  member : ∀ cores members, (coreClasses a.collapsed).get? cores = some members →
    members ≠ [] ∧ ∀ m ∈ members, (a.state? m.id).map State.collapse = some m
  target : ∀ s ∈ a.states, ∀ e ∈ s.transitions, a.mergedId? e.2 = some (a.mergedId e.2)

namespace Automaton

variable {a : Automaton LookaheadItem} {q : StateId}

private theorem mergedId_eq_getD : a.mergedId q = (a.mergedId? q).getD q := rfl

theorem mergedId?_eq_some (h : (a.state? q).isSome) : a.mergedId? q = some (a.mergedId q) := by
  have hsome : (a.mergedId? q).isSome = (a.state? q).isSome := by
    simp [mergedId?, state?, collapsed]
  rw [h, Option.isSome_iff_exists] at hsome
  obtain ⟨q', hq'⟩ := hsome
  rw [mergedId_eq_getD, hq', Option.getD_some]

end Automaton

section Canonical

variable {ι : Type} [PredictiveItem ι] {g : Grammar} {a : Automaton ι}

private theorem id_of_eq_ok (h : canonical ι g g.firstTable = .ok a) {q : StateId} {s : State ι}
    (hs : a.state? q = some s) : s.id = q := by
  obtain ⟨e, he⟩ := canonical_eq_ok_iff.mp h
  exact id_collected he hs

private theorem isSome_target (h : CanonicalFor g a) {q : StateId} {s : State ι}
    (hs : a.state? q = some s) : ∀ e ∈ s.transitions, (a.state? e.2).isSome := by
  intro e he
  have hnext := (lookup_eq_some_iff_mem (h.nodup_transitions q s hs)).mpr he
  obtain ⟨s', hs', -⟩ := h.target q s hs e.1 e.2 hnext
  rw [hs']
  rfl

variable [LawfulItem ι]

theorem lookUpsHit_of_eq_ok (h : canonical ι g g.firstTable = .ok a) : a.LookUpsHit g := by
  have hc := canonicalFor_of_eq_ok h
  refine ⟨fun s hm i hi => ?_, fun s hm => ?_, fun s hm => ?_⟩
  · obtain ⟨q, hs⟩ := Automaton.exists_state?_of_mem hc.size_le hm
    exact hc.admissible hs hi
  · obtain ⟨q, hs⟩ := Automaton.exists_state?_of_mem hc.size_le hm
    rwa [id_of_eq_ok h hs]
  · obtain ⟨q, hs⟩ := Automaton.exists_state?_of_mem hc.size_le hm
    exact isSome_target hc hs

end Canonical

section Merged

variable {g : Grammar} {a : Automaton LookaheadItem}

theorem mergeHits_of_eq_ok (h : g.lr1Automaton = .ok a) : a.MergeHits := by
  have hc := canonicalFor_of_eq_ok h
  refine ⟨fun cores members hmembers => ?_, fun s hm e he => ?_⟩
  · refine ⟨(Automaton.members_eq hmembers).2, fun m hm => ?_⟩
    obtain ⟨q, s, hs, -, rfl⟩ := (Automaton.mem_members_iff hc.size_le hmembers).mp hm
    have hid : s.collapse.id = q := id_of_eq_ok h hs
    rw [hid, hs, Option.map_some]
  · exact Automaton.mergedId?_eq_some ((lookUpsHit_of_eq_ok h).target s hm e he)

private theorem admissible_merged (hc : CanonicalFor g a) {q : StateId} {S : State MergedItem}
    (hS : a.mergeByCore.state? q = some S) {m : MergedItem} (hm : m ∈ S.items) :
    g.Admissible m := by
  have hitem {y : Symbol} (hy : y ∈ m.lookaheads) :
      g.Admissible (⟨m.core, y⟩ : LookaheadItem) := by
    obtain ⟨q', s', hs', -, hi⟩ :=
      (Automaton.exists_lookahead_iff hc.size_le hS).mp ⟨m, hm, rfl, hy⟩
    exact hc.admissible hs' hi
  have hne := (Automaton.gathered_mergeByCore hc.size_le hS).2.lookaheads_ne_nil m hm
  obtain ⟨y, hy⟩ := List.exists_mem_of_ne_nil _ hne
  exact {
    production_mem := (hitem hy).production_mem
    dot_le := (hitem hy).dot_le
    isToken := fun z hz => (hitem hz).isToken z (List.mem_singleton.mpr rfl) }

theorem lookUpsHit_mergeByCore (h : g.lr1Automaton = .ok a) : a.mergeByCore.LookUpsHit g := by
  have hc := canonicalFor_of_eq_ok h
  have hstate {S : State MergedItem} (hS : S ∈ a.mergeByCore.states) :
      ∃ q, a.mergeByCore.state? q = some S := by
    have hsize := Automaton.size_mergeByCore_le.trans hc.size_le
    exact Automaton.exists_state?_of_mem hsize hS
  refine ⟨fun S hm m hi => ?_, fun S hm => ?_, fun S hm e he => ?_⟩
  · obtain ⟨q, hS⟩ := hstate hm
    exact admissible_merged hc hS hi
  · obtain ⟨q, hS⟩ := hstate hm
    rwa [Automaton.id_mergeByCore hc.size_le hS]
  · obtain ⟨q, hS⟩ := hstate hm
    obtain ⟨q₀, s₀, hs₀, -, ht⟩ := Automaton.exists_member hc.size_le hS
    rw [ht] at he
    obtain ⟨e₀, he₀, rfl⟩ := List.mem_map.mp he
    obtain ⟨s', hs'⟩ := Option.isSome_iff_exists.mp (isSome_target hc hs₀ e₀ he₀)
    obtain ⟨S', hS'⟩ := Automaton.exists_state?_mergedId hc.size_le hs'
    rw [hS']
    rfl

end Merged

/-! ### Grammars -/

namespace Grammar

/-- The items that follow from a reachable kernel belong to the grammar. -/
def KernelsHit (g : Grammar) (ι : Type) [PredictiveItem ι] : Prop :=
  ∀ kernel : List ι, g.ReachesKernel kernel →
    ∃ items, closure g g.firstTable kernel = .ok items ∧ ∀ i ∈ items, g.Admissible i

/-- What the constructions look up is there. -/
structure LookUpsHit (g : Grammar) : Prop where
  start : g.nonterminals.get? 0 = some g.start
  /-- Every rule is added to the alternatives of its head. -/
  alternatives : ∀ r ∈ g.rules, (g.index.alternatives.get? r.head).isSome
  /-- FOLLOW sets take over the FIRST sets of the nonterminals in bodies. -/
  first : ∀ r ∈ g.rules, ∀ x ∈ r.body, g.isNonterminal x → (g.firstTable.sets.get? x).isSome
  follow : ∀ r ∈ g.rules, ((g.followSets g.firstTable).get? r.head).isSome
  /-- Every rule is entered in the row of its head. -/
  rows : ∀ t, g.predictionTable g.firstTable = .ok t → ∀ r ∈ g.rules, (t.rows.get? r.head).isSome
  bareKernels : g.KernelsHit DottedRule
  kernels : g.KernelsHit LookaheadItem
  lr0 : ∀ a, g.lr0Automaton = .ok a → a.LookUpsHit g
  lr1 : ∀ a, g.lr1Automaton = .ok a → a.LookUpsHit g
  merge : ∀ a, g.lr1Automaton = .ok a → a.MergeHits
  lalr1 : ∀ m, g.lalr1Automaton = .ok m → m.LookUpsHit g

variable {g : Grammar} {r : Rule}

private theorem get?_zero_nonterminals (g : Grammar) : g.nonterminals.get? 0 = some g.start := by
  obtain ⟨r, rules, hr⟩ : ∃ r rules, g.rules.toList = r :: rules := by
    apply List.exists_cons_of_ne_nil
    intro hn
    have hpos := g.wellFormed.nonempty
    rw [← Array.length_toList, hn] at hpos
    cases hpos
  have hstart : g.start = r.head := by
    have h := g.some_start_eq
    rw [← Array.getElem?_toList, hr] at h
    exact Option.some.inj h
  have hnonterminals : g.nonterminals = OrderedSet.ofList (r.head :: rules.map Rule.head) := by
    rw [nonterminals, g.index_eq, ← List.map_cons, ← hr]
    rfl
  rw [hnonterminals, hstart, OrderedSet.get?_zero_ofList]

private theorem isSome_get?_alternatives (hr : r ∈ g.rules) :
    (g.index.alternatives.get? r.head).isSome := by
  obtain ⟨p, hp, -⟩ := exists_alternative hr
  rw [alternatives, OrderedMap.getD] at hp
  cases hx : g.index.alternatives.get? r.head with
  | none =>
    rw [hx] at hp
    cases hp
  | some ps => rfl

theorem lookUpsHit (g : Grammar) : g.LookUpsHit where
  start := get?_zero_nonterminals g
  alternatives r hr := isSome_get?_alternatives hr
  first r _ x _ hx := by
    rw [get?_firstSets, if_pos (isNonterminal_iff.mp hx)]
    rfl
  follow r hr := by
    rw [get?_followSets (head_mem_nonterminals hr)]
    rfl
  rows t ht r hr := by
    rw [predictionTable_eq] at ht
    cases ht
    rw [OrderedMap.isSome_get?]
    exact head_mem_nonterminals hr
  bareKernels _ h := h.exists_closure
  kernels _ h := h.exists_closure
  lr0 _ h := lookUpsHit_of_eq_ok h
  lr1 _ h := lookUpsHit_of_eq_ok h
  merge _ h := mergeHits_of_eq_ok h
  lalr1 m h := by
    obtain ⟨a, ha, hm⟩ := bind_eq_ok_iff.mp h
    cases hm
    exact lookUpsHit_mergeByCore ha

end Grammar

/-! ### Refusals -/

namespace Grammar

/-- The automaton of the discipline has more states than can be numbered. -/
def TooManyStates (g : Grammar) : Discipline → Prop
  | .ll1 => False
  | .lr0 | .slr1 => g.TooManyKernels DottedRule
  | .lr1 | .lalr1 => g.TooManyKernels LookaheadItem

/-- The error with which a discipline refuses the grammar. -/
inductive RefusedWith (g : Grammar) (d : Discipline) : GrammarError → Prop where
  | cyclic (h : g.cycle ≠ []) : RefusedWith g d (.cyclic g.cycle)
  | tooManyStates (h : g.cycle = []) (hd : g.TooManyStates d) : RefusedWith g d .tooManyStates

/-- The automaton of an LR discipline is refused with the error. -/
def AutomatonRefusedWith (g : Grammar) : Discipline → GrammarError → Prop
  | .ll1, _ => False
  | .lr0, e | .slr1, e =>
    (Workbench.ofGrammar g).acyclicAutomaton (Workbench.ofGrammar g).lr0 = .error e
  | .lr1, e => (Workbench.ofGrammar g).acyclicAutomaton (Workbench.ofGrammar g).lr1 = .error e
  | .lalr1, e => (Workbench.ofGrammar g).acyclicAutomaton (Workbench.ofGrammar g).lalr1 = .error e

variable {g : Grammar} {d : Discipline} {e : GrammarError}

private theorem built_eq_error_iff {ι κ : Type} [PredictiveItem ι] [LawfulItem ι]
    (f : Automaton ι → κ) : (canonical ι g g.firstTable >>= fun a => .ok (f a)) = .error e ↔
      e = .tooManyStates ∧ g.TooManyKernels ι := by
  rw [bind_eq_error_iff, canonical_eq_error_iff]
  simp

private theorem acyclic_bind_eq_error_iff {κ : Type} {build : Except GrammarError κ}
    (hbuild : build = .error e ↔ e = .tooManyStates ∧ g.TooManyStates d) :
    (g.checkAcyclic >>= fun _ => build) = .error e ↔ g.RefusedWith d e := by
  rw [bind_eq_error_iff, checkAcyclic_eq_error_iff, hbuild]
  constructor
  · rintro (⟨rfl, hc⟩ | ⟨_, hc, rfl, hd⟩)
    · exact .cyclic hc
    · exact .tooManyStates (checkAcyclic_eq_ok_iff.mp hc) hd
  · intro h
    cases h with
    | cyclic hc => exact Or.inl ⟨rfl, hc⟩
    | tooManyStates hc hd => exact Or.inr ⟨(), checkAcyclic_eq_ok_iff.mpr hc, rfl, hd⟩

private theorem lalr1Automaton_eq_error_iff : g.lalr1Automaton = .error e ↔
    e = .tooManyStates ∧ g.TooManyKernels LookaheadItem :=
  built_eq_error_iff Automaton.mergeByCore

private theorem table_eq_error_iff : g.table d = .error e ↔ g.RefusedWith d e := by
  cases d with
  | ll1 =>
    apply acyclic_bind_eq_error_iff
    rw [predictionTable_eq]
    simp [bind, Except.bind, pure, Except.pure, TooManyStates]
  | lr0 => exact acyclic_bind_eq_error_iff (built_eq_error_iff _)
  | slr1 => exact acyclic_bind_eq_error_iff (built_eq_error_iff _)
  | lr1 => exact acyclic_bind_eq_error_iff (built_eq_error_iff _)
  | lalr1 =>
    apply acyclic_bind_eq_error_iff
    change (g.lalr1Automaton >>= fun a => .ok (Table.action (.ofLookaheads g a))) = .error e ↔ _
    rw [bind_eq_error_iff, lalr1Automaton_eq_error_iff]
    simp [TooManyStates]

private theorem automatonRefusedWith_iff (hd : d ≠ .ll1) :
    g.AutomatonRefusedWith d e ↔ g.RefusedWith d e := by
  cases d with
  | ll1 => exact absurd rfl hd
  | lr0 => exact acyclic_bind_eq_error_iff canonical_eq_error_iff
  | slr1 => exact acyclic_bind_eq_error_iff canonical_eq_error_iff
  | lr1 => exact acyclic_bind_eq_error_iff canonical_eq_error_iff
  | lalr1 => exact acyclic_bind_eq_error_iff lalr1Automaton_eq_error_iff

/-- Every look-up hits; tables, automata and verdicts are refused for a cycle or for too many states
and for nothing else; and a grammar that is not cyclic has an LL(1) table. -/
theorem constructions_refuse_iff (g : Grammar) : g.LookUpsHit ∧
    (∀ d e, g.table d = .error e ↔ g.RefusedWith d e) ∧
    (∀ d e, g.classify d = .error (.invalid e) ↔ g.RefusedWith d e) ∧
    (∀ d e, d ≠ .ll1 → (g.AutomatonRefusedWith d e ↔ g.RefusedWith d e)) ∧
    ((∃ t, g.table .ll1 = .ok (.prediction t)) ↔ g.cycle = []) := by
  refine ⟨lookUpsHit g, fun d e => table_eq_error_iff,
    fun d e => classify_eq_invalid_iff.trans table_eq_error_iff,
    fun d e hd => automatonRefusedWith_iff hd, ?_⟩
  constructor
  · rintro ⟨t, ht⟩
    by_contra hc
    have he : g.table .ll1 = .error (.cyclic g.cycle) := table_eq_error_iff.mpr (.cyclic hc)
    rw [he] at ht
    cases ht
  · intro hc
    exact ⟨g.filled, table_ll1_eq (checkAcyclic_eq_ok_iff.mpr hc)⟩

end Grammar

end GrammarTables
