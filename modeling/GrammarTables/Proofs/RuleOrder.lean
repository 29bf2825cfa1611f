import GrammarTables.Proofs.PredictionTable
import GrammarTables.Proofs.SharedAutomata
import GrammarTables.Proofs.Verdicts

/-!
# The order of the rules

Rule lists with the same productions, in whatever order and with whatever repetitions, get the same
verdicts of all disciplines but LL(1), which refuses some grammars because a rule is repeated. Lists
that are permutations of each other get the same verdict of LL(1) too.

A conflict is a matter of what is awaited after a walk, and of the tokens on which it reduces. So the
automata of grammars that agree on reachable symbols are free of conflicts together.
-/

namespace GrammarTables

/-! ## Verdicts on grammars that agree -/

section Agreement

variable {g h : Grammar}

/-- The automaton is walked through where items are awaited, and what it holds is awaited. -/
structure Automaton.FollowsWalks (ι : Type) [PredictiveItem ι] {κ : Type} [Item κ] (g : Grammar)
    (a : Automaton κ) (reduceOn : κ → List Symbol) : Prop where
  reachable : ∀ q s, a.state? q = some s → ∃ l, a.after? l = some q
  exists_after?_iff : ∀ l, (∃ q, a.after? l = some q) ↔ ∃ i : ι, g.Awaits l i
  awaits : ∀ l q c y, a.after? l = some q → a.Holds reduceOn q c y → g.Awaits l c

/-- What the second automaton holds after a walk, the first holds with the same outline. -/
def Automaton.HoldsOutlines {κ : Type} [Item κ] (g h : Grammar) (a b : Automaton κ)
    (reduceOn reduceOn' : κ → List Symbol) : Prop :=
  ∀ l q c y, b.after? l = some q → b.Holds reduceOn' q c y →
    ∃ p d, a.after? l = some p ∧ a.Holds reduceOn p d y ∧ g.outline d = h.outline c

/-- A conflict of the second automaton is one of the first. -/
theorem Automaton.ConflictFree.of_holdsOutlines {ι κ : Type} [PredictiveItem ι] [SharedItem ι]
    [Item κ] {a b : Automaton κ} {reduceOn reduceOn' : κ → List Symbol}
    (hfree : a.ConflictFree g reduceOn) (hgh : g.AgreeReachable h) (ha : a.FollowsWalks ι g reduceOn)
    (hb : b.FollowsWalks ι h reduceOn') (hab : a.HoldsOutlines g h b reduceOn reduceOn') :
    b.ConflictFree h reduceOn' where
  production_eq q c c' y hc hc' hcomp hcomp' := by
    obtain ⟨s, -, hs, -⟩ := id hc
    obtain ⟨l, hl⟩ := hb.reachable q s hs
    obtain ⟨p, d, hp, hd, ho⟩ := hab l q c y hl hc
    obtain ⟨p', d', hp', hd', ho'⟩ := hab l q c' y hl hc'
    obtain rfl : p = p' := Option.some.inj (hp.symm.trans hp')
    have hprod : d.production = d'.production :=
      hfree.production_eq p d d' y hd hd' ((isComplete_eq_of_outline ho).trans hcomp)
        ((isComplete_eq_of_outline ho').trans hcomp')
    have hhead : h.head? c.production = h.head? c'.production :=
      (congrArg Outline.head? ho).symm.trans
        ((congrArg g.head? hprod).trans (congrArg Outline.head? ho'))
    have hbody : h.body c.production = h.body c'.production :=
      (congrArg Outline.body ho).symm.trans
        ((congrArg g.body hprod).trans (congrArg Outline.body ho'))
    exact (hb.awaits l q c y hl hc).firstOccurrence.eq
      (hb.awaits l q c' y hl hc').firstOccurrence hhead hbody
  step?_eq_none q c y hc hcomp hy := by
    obtain ⟨s, -, hs, -⟩ := id hc
    obtain ⟨l, hl⟩ := hb.reachable q s hs
    obtain ⟨p, d, hp, hd, ho⟩ := hab l q c y hl hc
    rw [Option.eq_none_iff_forall_not_mem]
    intro q' hq'
    -- a symbol that the second automaton reads can be reached, and the first reads it too
    have hread := (hb.exists_after?_iff (l ++ [y])).mp
      ⟨q', Automaton.after?_concat_eq_some.mpr ⟨q, hl, hq'⟩⟩
    obtain ⟨i, hi⟩ := (hgh.exists_awaits_iff (ι := ι)).mpr hread
    obtain ⟨p', hp'⟩ := (ha.exists_after?_iff (l ++ [y])).mpr ⟨i, hi⟩
    obtain ⟨p₀, hp₀, hstep⟩ := Automaton.after?_concat_eq_some.mp hp'
    obtain rfl : p = p₀ := Option.some.inj (hp.symm.trans hp₀)
    have hy' : y ∉ g.nonterminals := by
      rwa [hgh.agreeOn.mem_nonterminals_iff (hi.reachable_of_mem y (by simp))]
    rw [hfree.step?_eq_none p d y hd ((isComplete_eq_of_outline ho).trans hcomp) hy'] at hstep
    cases hstep

namespace CanonicalFor

/-! ### Bare cores -/

theorem followsWalks_bare {a : Automaton DottedRule} (ha : CanonicalFor g a)
    (reduceOn : DottedRule → List Symbol) : a.FollowsWalks DottedRule g reduceOn where
  reachable := ha.reachable
  exists_after?_iff _ := ha.exists_after?_iff
  awaits l q c y hl hc := by
    obtain ⟨s, hs, hm, -⟩ := holds_bare_iff.mp hc
    exact ha.awaits_of_mem hl hs hm

theorem holdsOutlines_bare {a b : Automaton DottedRule} (hgh : g.AgreeReachable h)
    (ha : CanonicalFor g a) (hb : CanonicalFor h b) {reduceOn reduceOn' : DottedRule → List Symbol}
    (hreduce : ∀ c d y, g.outline d = h.outline c → y ∈ reduceOn' c → y ∈ reduceOn d) :
    a.HoldsOutlines g h b reduceOn reduceOn' := by
  intro l q c y hl hc
  obtain ⟨s, hs, hm, hy⟩ := holds_bare_iff.mp hc
  obtain ⟨d, hd, ho⟩ := (hb.awaits_of_mem hl hs hm).exists_outline hgh.symm
  obtain ⟨p, t, hp, ht, hdt⟩ := ha.exists_after_of_awaits hd
  exact ⟨p, d, hp, holds_bare_iff.mpr ⟨t, ht, hdt, hreduce c d y ho.symm hy⟩, ho.symm⟩

/-! ### Items with one lookahead -/

theorem followsWalks {a : Automaton LookaheadItem} (ha : CanonicalFor g a) :
    a.FollowsWalks LookaheadItem g Item.lookaheads where
  reachable := ha.reachable
  exists_after?_iff _ := ha.exists_after?_iff
  awaits _ _ _ _ hl hc := (ha.awaits_of_holds hl hc).core

private theorem exists_holds {a b : Automaton LookaheadItem} (hgh : g.AgreeReachable h)
    (ha : CanonicalFor g a) (hb : CanonicalFor h b) {l : List Symbol} {q : StateId} {c : DottedRule}
    {y : Symbol} (hl : b.after? l = some q) (hc : b.Holds Item.lookaheads q c y) :
    ∃ p d, a.after? l = some p ∧ a.Holds Item.lookaheads p d y ∧ g.outline d = h.outline c := by
  obtain ⟨⟨d, z⟩, hi, ho⟩ := (hb.awaits_of_holds hl hc).exists_outline hgh.symm
  obtain ⟨p, t, hp, ht, hit⟩ := ha.exists_after_of_awaits hi
  obtain rfl : y = z := List.singleton_inj.mp (congrArg Outline.lookaheads ho)
  exact ⟨p, d, hp, holds_iff.mpr ⟨t, ht, hit⟩, (outline_core_eq ho).symm⟩

theorem holdsOutlines {a b : Automaton LookaheadItem} (hgh : g.AgreeReachable h)
    (ha : CanonicalFor g a) (hb : CanonicalFor h b) :
    a.HoldsOutlines g h b Item.lookaheads Item.lookaheads :=
  fun _ _ _ _ => exists_holds hgh ha hb

/-! ### Merged items -/

theorem followsWalks_mergeByCore {a : Automaton LookaheadItem} (ha : CanonicalFor g a) :
    a.mergeByCore.FollowsWalks LookaheadItem g Item.lookaheads where
  reachable q S hS := by
    obtain ⟨l, p, hl, rfl⟩ := ha.exists_after?_mergedId hS
    exact ⟨l, by rw [ha.after?_mergeByCore, hl, Option.map_some]⟩
  exists_after?_iff l := by
    rw [← ha.exists_after?_iff, ha.after?_mergeByCore]
    simp
  awaits _ _ _ _ hl hc := ha.awaits_mergeByCore hl hc

theorem holdsOutlines_mergeByCore {a b : Automaton LookaheadItem} (hgh : g.AgreeReachable h)
    (ha : CanonicalFor g a) (hb : CanonicalFor h b) :
    a.mergeByCore.HoldsOutlines g h b.mergeByCore Item.lookaheads Item.lookaheads := by
  intro l q c y hl hc
  rw [hb.after?_mergeByCore, Option.map_eq_some_iff] at hl
  obtain ⟨q₁, hq₁, rfl⟩ := hl
  -- the member that holds the core lies after a walk of its own
  obtain ⟨q₀, hq₀, hc₀⟩ := (holds_mergeByCore_iff hb).mp hc
  obtain ⟨s, -, hs, -⟩ := id hc₀
  obtain ⟨l₀, hl₀⟩ := hb.reachable q₀ s hs
  obtain ⟨p₀, d, hp₀, hd, ho⟩ := exists_holds hgh ha hb hl₀ hc₀
  obtain ⟨p₁, hp₁⟩ := (hgh.exists_after?_iff ha hb).mpr ⟨q₁, hq₁⟩
  have hmerged := hgh.symm.mergedId_eq hb ha hl₀ hq₁ hp₀ hp₁ hq₀
  refine ⟨a.mergedId p₁, d, ?_, ?_, ho⟩
  · rw [ha.after?_mergeByCore, hp₁, Option.map_some]
  · exact (holds_mergeByCore_iff ha).mpr ⟨p₀, hmerged, hd⟩

end CanonicalFor

end Agreement

/-! ## The same productions -/

namespace Grammar

variable {g h : Grammar} {x y : Symbol}

/-- The grammars have the same start symbol and the same productions. -/
structure SameProductions (g h : Grammar) : Prop where
  start_eq : g.start = h.start
  produces_iff : ∀ x body, g.Produces x body ↔ h.Produces x body

namespace SameProductions

theorem symm (hgh : g.SameProductions h) : h.SameProductions g :=
  ⟨hgh.start_eq.symm, fun x body => (hgh.produces_iff x body).symm⟩

theorem agreeReachable (hgh : g.SameProductions h) : g.AgreeReachable h :=
  ⟨hgh.start_eq, fun x _ => hgh.produces_iff x⟩

theorem mem_nonterminals_iff (hgh : g.SameProductions h) :
    x ∈ g.nonterminals ↔ x ∈ h.nonterminals := by
  rw [mem_nonterminals_iff_produces, mem_nonterminals_iff_produces,
    exists_congr (hgh.produces_iff x)]

private theorem mem_terminals_iff_produces :
    x ∈ g.terminals ↔ x ∉ g.nonterminals ∧ ∃ z body, g.Produces z body ∧ x ∈ body := by
  rw [mem_terminals]
  apply and_congr_right
  intro _
  constructor
  · rintro ⟨r, hr, hx⟩
    exact ⟨r.head, r.body, ⟨r, hr, rfl, rfl⟩, hx⟩
  · rintro ⟨_, _, ⟨r, hr, -, rfl⟩, hx⟩
    exact ⟨r, hr, hx⟩

theorem agreeOn (hgh : g.SameProductions h) : AgreeOn (fun _ => True) g h where
  closed _ _ _ _ _ _ := trivial
  produces_iff x _ := hgh.produces_iff x
  mem_terminals_iff x _ := by
    rw [mem_terminals_iff_produces, mem_terminals_iff_produces, hgh.mem_nonterminals_iff]
    simp only [hgh.produces_iff]

theorem mem_nullable_iff (hgh : g.SameProductions h) : x ∈ g.nullable ↔ x ∈ h.nullable :=
  hgh.agreeOn.mem_nullable_iff trivial

theorem begins_iff (hgh : g.SameProductions h) {u : List Symbol} :
    g.Begins u y ↔ h.Begins u y :=
  hgh.agreeOn.begins_iff fun _ _ => trivial

theorem isToken_iff (hgh : g.SameProductions h) : g.IsToken y ↔ h.IsToken y :=
  or_congr_left (hgh.agreeOn.mem_terminals_iff y trivial)

private theorem mem_follow (hgh : g.SameProductions h) (hx : x ∈ g.nonterminals)
    (hy : y ∈ g.follow x) : y ∈ h.follow x := by
  have ht := isToken_of_mem_follow hy
  refine follow_induction (P := fun x y => x ∈ g.nonterminals → g.IsToken y → y ∈ h.follow x)
    ?_ ?_ ?_ hy hx ht
  · intro _ _
    rw [hgh.start_eq]
    exact endOfInput_mem_follow_start
  · intro r hr u x v y hb hv hx _
    obtain ⟨s, hs, -, hsb⟩ := (hgh.produces_iff _ _).mp ⟨r, hr, rfl, rfl⟩
    exact mem_follow_of_begins hs (hsb.trans hb) (hgh.mem_nonterminals_iff.mp hx)
      (hgh.begins_iff.mp hv)
  · intro r hr u x v y hb hv ih hx ht
    obtain ⟨s, hs, hsh, hsb⟩ := (hgh.produces_iff _ _).mp ⟨r, hr, rfl, rfl⟩
    have hhead := ih (head_mem_nonterminals hr) ht
    rw [← hsh] at hhead
    refine mem_follow_of_rule hs (hsb.trans hb) (hgh.mem_nonterminals_iff.mp hx) hhead ?_
    refine begins_append.mpr (Or.inr ⟨fun z hz => hgh.mem_nullable_iff.mp (hv z hz), ?_⟩)
    exact (begins_token_iff (hgh.isToken_iff.mp ht)).mpr rfl

theorem mem_follow_iff (hgh : g.SameProductions h) (hx : x ∈ g.nonterminals) :
    y ∈ g.follow x ↔ y ∈ h.follow x :=
  ⟨hgh.mem_follow hx, hgh.symm.mem_follow (hgh.mem_nonterminals_iff.mp hx)⟩

/-! ### Cycles -/

private theorem edge_unitRelation (hgh : g.SameProductions h) (he : g.unitRelation.Edge x y) :
    h.unitRelation.Edge x y := by
  obtain ⟨r, hr, rfl, hy, u, v, hb, hz⟩ := edge_unitRelation_iff.mp he
  obtain ⟨s, hs, hsh, hsb⟩ := (hgh.produces_iff _ _).mp ⟨r, hr, rfl, rfl⟩
  exact edge_unitRelation_iff.mpr ⟨s, hs, hsh, hgh.mem_nonterminals_iff.mp hy, u, v,
    hsb.trans hb, fun z hm => hgh.mem_nullable_iff.mp (hz z hm)⟩

theorem exists_cyclic_iff (hgh : g.SameProductions h) :
    (∃ c, g.checkAcyclic = .error (.cyclic c)) ↔ ∃ c, h.checkAcyclic = .error (.cyclic c) := by
  rw [Grammar.exists_cyclic_iff, Grammar.exists_cyclic_iff]
  constructor
  · rintro ⟨x, hx⟩
    exact ⟨x, Relation.TransGen.mono (fun _ _ => hgh.edge_unitRelation) x x hx⟩
  · rintro ⟨x, hx⟩
    exact ⟨x, Relation.TransGen.mono (fun _ _ => hgh.symm.edge_unitRelation) x x hx⟩

theorem checkAcyclic_iff (hgh : g.SameProductions h) :
    g.checkAcyclic = .ok () ↔ h.checkAcyclic = .ok () := by
  rw [checkAcyclic_eq_ok_iff_not, checkAcyclic_eq_ok_iff_not, hgh.exists_cyclic_iff]

theorem classify_cyclic_iff (hgh : g.SameProductions h) {d : Discipline} :
    (∃ c, g.classify d = .error (.invalid (.cyclic c))) ↔
      ∃ c, h.classify d = .error (.invalid (.cyclic c)) := by
  simp only [classify_eq_invalid_iff, table_eq_cyclic_iff, hgh.exists_cyclic_iff]

/-! ### Tables filled from automata -/

theorem mem_followOn (hgh : g.SameProductions h) {c d : DottedRule}
    (ho : g.outline d = h.outline c) (hy : y ∈ h.followOn c) : y ∈ g.followOn d := by
  have hhead : g.head? d.production = h.head? c.production := congrArg Outline.head? ho
  cases hx : h.head? c.production with
  | none =>
    rw [followOn, hx] at hy
    rwa [followOn, hhead, hx]
  | some x =>
    rw [mem_followOn_iff hx] at hy
    rw [mem_followOn_iff (hhead.trans hx),
      hgh.mem_follow_iff (mem_nonterminals_of_head? (hhead.trans hx))]
    exact hy

private theorem exists_built (hgh : g.SameProductions h) {ι : Type} [PredictiveItem ι]
    [SharedItem ι] {a : Automaton ι} (ha : canonical ι g g.firstTable = .ok a) :
    ∃ b, canonical ι h h.firstTable = .ok b ∧ CanonicalFor g a ∧ CanonicalFor h b := by
  have hsize := hgh.agreeReachable.map_size_canonical ι
  rw [ha] at hsize
  cases hb : canonical ι h h.firstTable with
  | ok b => exact ⟨b, rfl, canonicalFor_of_eq_ok ha, canonicalFor_of_eq_ok hb⟩
  | error e =>
    rw [hb] at hsize
    cases hsize

private theorem classify_of_conflictFree (hgh : g.SameProductions h) {ι κ : Type}
    [PredictiveItem ι] [SharedItem ι] [Item κ] {u : Automaton ι → Automaton κ} {d : Discipline}
    {reduceOn reduceOn' : κ → List Symbol}
    (hg : g.classify d = .ok () ↔ g.checkAcyclic = .ok () ∧
      ∃ a, canonical ι g g.firstTable = .ok a ∧ (u a).ConflictFree g reduceOn)
    (hh : h.classify d = .ok () ↔ h.checkAcyclic = .ok () ∧
      ∃ b, canonical ι h h.firstTable = .ok b ∧ (u b).ConflictFree h reduceOn')
    (hfree : ∀ a b, CanonicalFor g a → CanonicalFor h b → (u a).ConflictFree g reduceOn →
      (u b).ConflictFree h reduceOn')
    (hok : g.classify d = .ok ()) : h.classify d = .ok () := by
  obtain ⟨hacyclic, a, ha, hfa⟩ := hg.mp hok
  obtain ⟨b, hb, hca, hcb⟩ := hgh.exists_built ha
  exact hh.mpr ⟨hgh.checkAcyclic_iff.mp hacyclic, b, hb, hfree a b hca hcb hfa⟩

private theorem classify (hgh : g.SameProductions h) {d : Discipline} (hd : d ≠ .ll1)
    (hok : g.classify d = .ok ()) : h.classify d = .ok () := by
  have hagree := hgh.agreeReachable
  cases d with
  | ll1 => exact absurd rfl hd
  | lr0 =>
    refine hgh.classify_of_conflictFree (u := id) classify_lr0_iff classify_lr0_iff ?_ hok
    intro a b hca hcb hfree
    refine hfree.of_holdsOutlines hagree (hca.followsWalks_bare _) (hcb.followsWalks_bare _) ?_
    refine CanonicalFor.holdsOutlines_bare hagree hca hcb fun c d y _ hy => ?_
    exact mem_everyToken_iff.mpr (hgh.isToken_iff.mpr (mem_everyToken_iff.mp hy))
  | slr1 =>
    refine hgh.classify_of_conflictFree (u := id) classify_slr1_iff classify_slr1_iff ?_ hok
    intro a b hca hcb hfree
    refine hfree.of_holdsOutlines hagree (hca.followsWalks_bare _) (hcb.followsWalks_bare _) ?_
    exact CanonicalFor.holdsOutlines_bare hagree hca hcb fun c d y ho hy => hgh.mem_followOn ho hy
  | lr1 =>
    refine hgh.classify_of_conflictFree (u := id) classify_lr1_iff classify_lr1_iff ?_ hok
    intro a b hca hcb hfree
    exact hfree.of_holdsOutlines hagree hca.followsWalks hcb.followsWalks
      (CanonicalFor.holdsOutlines hagree hca hcb)
  | lalr1 =>
    refine hgh.classify_of_conflictFree classify_lalr1_iff classify_lalr1_iff ?_ hok
    intro a b hca hcb hfree
    exact hfree.of_holdsOutlines hagree hca.followsWalks_mergeByCore hcb.followsWalks_mergeByCore
      (CanonicalFor.holdsOutlines_mergeByCore hagree hca hcb)

theorem classify_iff (hgh : g.SameProductions h) {d : Discipline} (hd : d ≠ .ll1) :
    g.classify d = .ok () ↔ h.classify d = .ok () :=
  ⟨hgh.classify hd, hgh.symm.classify hd⟩

/-! ### Prediction tables -/

private theorem toldApart (hgh : g.SameProductions h) {r s : Rule} (hrs : g.ToldApart r s) :
    h.ToldApart r s where
  not_nullable hhead hr hs := hrs.not_nullable hhead (fun x hx => hgh.mem_nullable_iff.mpr (hr x hx))
    fun x hx => hgh.mem_nullable_iff.mpr (hs x hx)
  not_begins hhead y hr hs :=
    hrs.not_begins hhead y (hgh.begins_iff.mpr hr) (hgh.begins_iff.mpr hs)

private theorem pairwise_toldApart (hgh : g.SameProductions h)
    (hperm : (g.rules.toList.map Rule.symbols).Perm (h.rules.toList.map Rule.symbols))
    (hp : g.rules.toList.Pairwise g.ToldApart) : h.rules.toList.Pairwise h.ToldApart := by
  have hsymbols : (g.rules.toList.map Rule.symbols).Pairwise
      fun u v => ∀ r s : Rule, r.symbols = u → s.symbols = v → g.ToldApart r s := by
    refine List.pairwise_map.mpr (hp.imp fun hrs r s hr hs => ?_)
    exact hrs.of_symbols hr.symm hs.symm
  have hsymm : ∀ u v, (∀ r s : Rule, r.symbols = u → s.symbols = v → g.ToldApart r s) →
      ∀ r s : Rule, r.symbols = v → s.symbols = u → g.ToldApart r s :=
    fun u v huv r s hr hs => (huv s r hs hr).symm
  have hsymbols' := (hperm.pairwise_iff fun {u v} => hsymm u v).mp hsymbols
  exact (List.pairwise_map.mp hsymbols').imp fun hrs => hgh.toldApart (hrs _ _ rfl rfl)

private theorem not_mem_follow (hgh : g.SameProductions h)
    (hclash : ∀ x ∈ g.nullable, ∀ y ∈ g.first x, y ∉ g.follow x) :
    ∀ x ∈ h.nullable, ∀ y ∈ h.first x, y ∉ h.follow x := by
  intro x hx y hy hf
  have hxg := hgh.mem_nullable_iff.mpr hx
  have hn := mem_nonterminals_of_nullable hxg
  refine hclash x hxg y ?_ ((hgh.mem_follow_iff hn).mpr hf)
  rw [mem_first_iff_begins hn, hgh.begins_iff]
  exact begins_of_mem_first hy

private theorem classify_ll1 (hgh : g.SameProductions h)
    (hperm : (g.rules.toList.map Rule.symbols).Perm (h.rules.toList.map Rule.symbols))
    (hok : g.classify .ll1 = .ok ()) : h.classify .ll1 = .ok () := by
  obtain ⟨hg, hcheck⟩ := classify_ll1_iff.mp hok
  obtain ⟨htold, hclash⟩ := checkPredictive_eq_ok_iff_toldApart.mp hcheck
  exact classify_ll1_iff.mpr ⟨hgh.checkAcyclic_iff.mp hg, checkPredictive_eq_ok_iff_toldApart.mpr
    ⟨hgh.pairwise_toldApart hperm htold, hgh.not_mem_follow hclash⟩⟩

theorem classify_ll1_iff_of_perm (hgh : g.SameProductions h)
    (hperm : (g.rules.toList.map Rule.symbols).Perm (h.rules.toList.map Rule.symbols)) :
    g.classify .ll1 = .ok () ↔ h.classify .ll1 = .ok () :=
  ⟨hgh.classify_ll1 hperm, hgh.symm.classify_ll1 hperm.symm⟩

end SameProductions

/-! ### Lists of rules -/

variable {rules rules' : List Rule}

private theorem sameProductions_of_lists (hg : g.rules = rules.toArray)
    (hh : h.rules = rules'.toArray)
    (hstart : rules.head?.map Rule.head = rules'.head?.map Rule.head)
    (hsame : ∀ s, s ∈ rules.map Rule.symbols ↔ s ∈ rules'.map Rule.symbols) :
    g.SameProductions h where
  start_eq := by
    have hfirst {g : Grammar} {rules : List Rule} (hg : g.rules = rules.toArray) :
        some g.start = rules.head?.map Rule.head := by
      rw [some_start_eq, hg, List.getElem?_toArray, List.head?_eq_getElem?]
    exact Option.some.inj ((hfirst hg).trans (hstart.trans (hfirst hh).symm))
  produces_iff x body := by
    have hlist {g : Grammar} {rules : List Rule} (hg : g.rules = rules.toArray) :
        g.Produces x body ↔ x :: body ∈ rules.map Rule.symbols := by
      rw [Produces, hg, List.mem_map]
      simp [Rule.symbols]
    rw [hlist hg, hlist hh, hsame]

/-- Neither the order in which the rules are written nor their repetition changes what the
disciplines but LL(1) say of a grammar; LL(1) depends on the repetitions, not on the order. -/
theorem verdicts_of_same_rules {g h : Grammar} {rules rules' : List Rule}
    (hg : ofProductions (rules.map .rule) = .ok g) (hh : ofProductions (rules'.map .rule) = .ok h)
    (hstart : rules.head?.map Rule.head = rules'.head?.map Rule.head)
    (hsame : ∀ s, s ∈ rules.map Rule.symbols ↔ s ∈ rules'.map Rule.symbols) :
    (∀ d ≠ Discipline.ll1, g.classify d = .ok () ↔ h.classify d = .ok ()) ∧
    (∀ d, (∃ c, g.classify d = .error (.invalid (.cyclic c))) ↔
      ∃ c, h.classify d = .error (.invalid (.cyclic c))) ∧
    g.lr0Automaton.map Automaton.size = h.lr0Automaton.map Automaton.size ∧
    g.lr1Automaton.map Automaton.size = h.lr1Automaton.map Automaton.size ∧
    g.lalr1Automaton.map Automaton.size = h.lalr1Automaton.map Automaton.size ∧
    ((rules.map Rule.symbols).Perm (rules'.map Rule.symbols) →
      (g.classify .ll1 = .ok () ↔ h.classify .ll1 = .ok ())) := by
  have hgr := ofProductions_eq_ok_iff.mp hg
  have hhr := ofProductions_eq_ok_iff.mp hh
  have hgh := sameProductions_of_lists hgr hhr hstart hsame
  refine ⟨fun d hd => hgh.classify_iff hd, fun d => hgh.classify_cyclic_iff,
    hgh.agreeReachable.map_size_canonical DottedRule,
    hgh.agreeReachable.map_size_canonical LookaheadItem,
    hgh.agreeReachable.map_size_lalr1Automaton, fun hperm => ?_⟩
  refine hgh.classify_ll1_iff_of_perm ?_
  rw [hgr, hhr]
  exact hperm

/-- The two rules of nested parentheses can be written in either order. -/
theorem verdicts_of_same_rules_nested :
    ∃ h, ofProductions (nestedRules.toList.reverse.map .rule) = .ok h ∧
      h.classify .lr0 = .ok () ∧ h.classify .ll1 = .ok () := by
  have hg : ofProductions (nestedRules.toList.map .rule) = .ok nested := by rfl
  obtain ⟨h, hh⟩ := exists_of_isOk
    (c := ofProductions (nestedRules.toList.reverse.map .rule)) (by decide +kernel)
  have hperm : (nestedRules.toList.map Rule.symbols).Perm
      (nestedRules.toList.reverse.map Rule.symbols) := by
    rw [List.map_reverse]
    exact (List.reverse_perm _).symm
  have hall := verdicts_of_same_rules hg hh (by decide) fun _ => hperm.mem_iff
  refine ⟨h, hh, (hall.1 .lr0 (by decide)).mp (by decide +kernel), ?_⟩
  exact (hall.2.2.2.2.2 hperm).mp (by decide +kernel)

end Grammar

end GrammarTables
