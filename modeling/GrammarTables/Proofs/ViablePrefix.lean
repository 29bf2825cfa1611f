import GrammarTables.Proofs.AwaitedItems
import GrammarTables.Proofs.DerivationOrder
import GrammarTables.Proofs.Outcomes
import GrammarTables.Table.Basic

/-!
# Viable prefixes

An item is valid after some symbols if a rightmost derivation has them in front of the part of the
body that the item still expects. If every nonterminal derives a string of terminals, the valid
items are those that are awaited, so the walks of the automaton are the viable prefixes.
-/

namespace GrammarTables

namespace Grammar

/-- Some rightmost derivation applies the item's production right behind the symbols before its
body, and the lookahead comes next. -/
def ValidAfter (g : Grammar) (l : List Symbol) (i : LookaheadItem) : Prop :=
  g.FirstOccurrence i.core.production ∧
    i.core.dot.toNat ≤ (g.body i.core.production).length ∧
    ∃ front w, g.TerminalString w ∧
      g.AugmentedForm (front.map some ++ g.head? i.core.production :: w.map some) ∧
      l = front ++ (g.body i.core.production).take i.core.dot.toNat ∧ i.lookahead = nextToken w

/-- The symbols begin a rightmost sentential form and do not go beyond its handle. -/
def ViablePrefix (g : Grammar) (l : List Symbol) : Prop :=
  ∃ p ∈ g, ∃ front w, g.TerminalString w ∧
    g.AugmentedForm (front.map some ++ g.head? p :: w.map some) ∧ l <+: front ++ g.body p

variable {g : Grammar} {l : List Symbol} {i j : LookaheadItem} {x : Symbol}

/-! ### Awaited items are valid -/

theorem validAfter_initial : g.ValidAfter [] (PredictiveItem.initial : LookaheadItem) := by
  have hw : g.TerminalString [] := by simp
  exact ⟨firstOccurrence_accept, Nat.zero_le _, [], [], hw, .refl, rfl, rfl⟩

theorem ValidAfter.shift (h : g.ValidAfter l i) (hx : i.core.next? g = some x) :
    g.ValidAfter (l ++ [x]) (PredictiveItem.shifted i) := by
  obtain ⟨hp, -, front, w, hw, hform, rfl, hlook⟩ := h
  refine ⟨hp, ?_, front, w, hw, hform, ?_, hlook⟩
  · change i.core.shifted.dot.toNat ≤ _
    rw [DottedRule.dot_shifted hx]
    exact DottedRule.dot_lt_of_next? hx
  · rw [List.append_assoc]
    exact congrArg (front ++ ·) (DottedRule.take_shifted hx).symm

private theorem exists_derives_of_begins (hg : g.unproductive = []) {u w : List Symbol} {y : Symbol}
    (hu : ∀ x ∈ u, x ∈ g.terminals ∨ x ∈ g.nonterminals) (hw : g.TerminalString w)
    (h : g.Begins (u ++ [nextToken w]) y) :
    ∃ v, g.TerminalString v ∧ g.Derives u v ∧ nextToken (v ++ w) = y := by
  rcases begins_append.mp h with h | h
  · obtain ⟨htoken, v, hd⟩ := h
    have hknown := hd.mem_terminals_or_nonterminals hu
    have hy : y ∈ g.terminals :=
      (hknown y List.mem_cons_self).resolve_right htoken.not_mem_nonterminals
    obtain ⟨v', hv', hd'⟩ := exists_terminalString fun x hx =>
      productive_of_mem hg (hknown x (List.mem_cons_of_mem y hx))
    exact ⟨y :: v', terminalString_cons.mpr ⟨hy, hv'⟩, hd.trans ((Derives.refl [y]).cons hd'), rfl⟩
  · obtain ⟨hnull, h⟩ := h
    have hy := (begins_token_iff (isToken_nextToken hw)).mp h
    exact ⟨[], by simp, derives_nil_iff.mpr hnull, hy.symm⟩

theorem ValidAfter.predict (hg : g.unproductive = []) (h : g.ValidAfter l i)
    (hi : g.Admissible i) (hij : g.Predicts i j) : g.ValidAfter l j := by
  obtain ⟨-, -, front, w, hw, hform, rfl, hlook⟩ := h
  obtain ⟨x, rest, hr, hp, hd, hy⟩ := (LookaheadItem.predicts_iff hi).mp hij
  obtain ⟨hfirst, hx⟩ := mem_alternatives_iff.mp hp
  have hmem : i.core.production ∈ g := hi.production_mem
  have hrest : ∀ y ∈ rest, y ∈ g.terminals ∨ y ∈ g.nonterminals := by
    intro y hy
    apply mem_terminals_or_nonterminals_of_remainder hmem
    rw [hr]
    exact List.mem_cons_of_mem x hy
  rw [hlook] at hy
  obtain ⟨v, hv, hderives, hnext⟩ := exists_derives_of_begins hg hrest hw hy
  have hbody : g.body i.core.production =
      (g.body i.core.production).take i.core.dot.toNat ++ x :: rest := by
    rw [← hr, DottedRule.remainder_eq, List.take_append_drop]
  generalize hread : (g.body i.core.production).take i.core.dot.toNat = read at hbody ⊢
  -- Rewrite by the item's production, then derive the rest of its body from the right.
  have hstep := Relation.ReflTransGen.tail hform
    (AugmentedStep.rewrite (front.map some) w i.core.production hmem hw)
  have hright := rightDerives_of_derives hderives hv (front ++ read ++ [x]) hw
  have hform' : g.AugmentedForm ((front ++ read ++ [x] ++ rest ++ w).map some) := by
    have heq : (front.map some ++ (g.body i.core.production).map some ++ w.map some) =
        (front ++ read ++ [x] ++ rest ++ w).map some := by
      rw [hbody]
      simp
    rw [← heq]
    exact hstep
  have hlast := hform'.trans hright
  refine ⟨hfirst, by rw [hd]; exact Nat.zero_le _, front ++ read, v ++ w,
    terminalString_append.mpr ⟨hv, hw⟩, ?_, by simp [hd], hnext.symm⟩
  rw [hx]
  simpa using hlast

theorem Awaits.validAfter (hg : g.unproductive = []) (h : g.Awaits l i) : g.ValidAfter l i := by
  induction h with
  | initial => exact validAfter_initial
  | predict hi hij ih => exact ih.predict hg hi.admissible hij
  | shift _ hx ih => exact ih.shift hx

/-! ### Valid items are awaited -/

private theorem awaits_of_rightDerives {s : List Symbol} (h : g.RightDerives [g.start] s) :
    ∀ u x v p w, s = u ++ x :: v → p ∈ g.alternatives x → g.TerminalString w → g.Derives v w →
      g.Awaits u (⟨⟨p, 0⟩, nextToken w⟩ : LookaheadItem) := by
  induction h with
  | refl =>
    intro u x v p w hs hp hw hv
    have hi : g.Awaits [] (⟨⟨.accept, 0⟩, nextToken []⟩ : LookaheadItem) := .initial
    obtain ⟨rfl, hs⟩ | ⟨_, _, hs⟩ := List.append_eq_cons_iff.mp hs.symm
    · obtain ⟨rfl, rfl⟩ := List.cons_eq_cons.mp hs
      have hb : g.body .accept = [] ++ g.start :: [] := body_accept
      have hy := begins_nextToken hv hw (w := []) (isToken_nextToken terminalString_nil)
      simpa using hi.descend hb hp hy
    · simp at hs
  | tail _ hs ih =>
    intro u x v p w hc hp hw hv
    obtain ⟨front, z, r, hr, hz⟩ := hs
    have hx := mem_nonterminals_of_head? (head?_of_mem_alternatives hp)
    rcases append_eq_append_cons_iff.mp hc with hleft | hright
    · obtain ⟨v', hfront, rfl⟩ := hleft
      rcases append_eq_append_cons_iff.mp hfront with hleft | hbody
      · -- The nonterminal stood there before the step.
        obtain ⟨v'', rfl, rfl⟩ := hleft
        have hstep : g.Derives (v'' ++ r.head :: z) (v'' ++ r.body ++ z) :=
          .single (.rewrite v'' z r hr)
        exact ih u x _ p w (by simp) hp hw (hstep.trans hv)
      · -- The step has brought it, with the body of a rule whose own item is awaited.
        obtain ⟨b, rfl, hb⟩ := hbody
        obtain ⟨q, hq, hbq⟩ := exists_alternative hr
        obtain ⟨w₁, w₂, rfl, hv', hz'⟩ := hv.exists_append
        obtain rfl := hz'.eq_of_terminalString hz
        have hi := ih front r.head _ q _ rfl hq hz (.refl _)
        exact hi.descend (hbq.trans hb) hp
          (begins_nextToken hv' (terminalString_append.mp hw).1 (isToken_nextToken hz))
    · -- Behind the rewritten nonterminal there are terminals only.
      obtain ⟨b, -, rfl⟩ := hright
      have ht : x ∈ g.terminals := hz x (by simp)
      exact absurd hx (not_mem_nonterminals_of_terminal ht)

theorem ValidAfter.awaits (h : g.ValidAfter l i) : g.Awaits l i := by
  obtain ⟨hp, hdot, front, w, hw, hform, rfl, hlook⟩ := h
  have hfront : g.Awaits front (⟨⟨i.core.production, 0⟩, nextToken w⟩ : LookaheadItem) := by
    rcases augmentedForm_iff.mp hform with hs | hs
    · obtain ⟨hempty, hs⟩ | ⟨_, _, hs⟩ := List.append_eq_cons_iff.mp hs
      · obtain ⟨hx, hs⟩ := List.cons_eq_cons.mp hs
        rw [List.map_eq_nil_iff] at hempty hs
        rw [hempty, hs, eq_accept_of_head? hp.1 hx]
        exact .initial
      · simp at hs
    · obtain ⟨s, hs, hd⟩ := hs
      obtain ⟨front', rest, rfl, hf, hrest⟩ := List.map_eq_append_iff.mp hs.symm
      obtain ⟨x, w', rfl, hx, hw'⟩ := List.map_eq_cons_iff.mp hrest
      obtain rfl := map_some_inj.mp hf
      obtain rfl := map_some_inj.mp hw'
      have halt := mem_alternatives_iff.mpr ⟨hp, hx.symm⟩
      exact awaits_of_rightDerives hd _ x _ _ _ rfl halt hw (.refl _)
  have hi := hfront.shift_take hdot
  rw [UInt16.ofNat_toNat, ← hlook] at hi
  exact hi

/-- If every nonterminal derives a string of terminals, an item is awaited where it is valid. -/
theorem awaits_iff_validAfter (hg : g.unproductive = []) : g.Awaits l i ↔ g.ValidAfter l i :=
  ⟨fun h => h.validAfter hg, ValidAfter.awaits⟩

/-! ### Walks through the automaton -/

private theorem exists_firstOccurrence {p : ProductionId} (hp : p ∈ g) :
    ∃ q, g.FirstOccurrence q ∧ g.head? q = g.head? p ∧ g.body q = g.body p := by
  rcases mem_iff.mp hp with rfl | hr
  · exact ⟨.accept, validAfter_initial.1, rfl, rfl⟩
  · obtain ⟨r, hr⟩ := hr
    obtain ⟨q, hq, hb⟩ := exists_alternative (rule_mem hr)
    obtain ⟨hfirst, hx⟩ := mem_alternatives_iff.mp hq
    exact ⟨q, hfirst, hx.trans (head?_of_rule hr).symm, hb.trans (body_of_rule hr).symm⟩

private theorem exists_validAfter_handle {p : ProductionId} (hp : p ∈ g) {front w : List Symbol}
    (hw : g.TerminalString w)
    (hform : g.AugmentedForm (front.map some ++ g.head? p :: w.map some)) :
    ∃ i, g.ValidAfter (front ++ g.body p) i := by
  obtain ⟨q, hq, hx, hb⟩ := exists_firstOccurrence hp
  have hdot := toNat_ofNat_of_le_length_body (Nat.le_refl (g.body q).length)
  refine ⟨⟨⟨q, .ofNat (g.body q).length⟩, nextToken w⟩, hq, Nat.le_of_eq hdot, front, w, hw, ?_, ?_,
    rfl⟩
  · rw [hx]
    exact hform
  · rw [hdot, List.take_length, hb]

theorem ValidAfter.viablePrefix (h : g.ValidAfter l i) : g.ViablePrefix l := by
  obtain ⟨hp, -, front, w, hw, hform, rfl, -⟩ := h
  refine ⟨_, hp.1, front, w, hw, hform, ?_⟩
  rw [List.prefix_append_right_inj]
  exact List.take_prefix _ _

/-- The walks of the LR(1) automaton are the viable prefixes, and the state after a viable prefix
holds the items that are valid there. -/
theorem after?_lr1Automaton (hg : g.unproductive = []) {a : Automaton LookaheadItem}
    (ha : g.lr1Automaton = .ok a) (l : List Symbol) :
    ((∃ q, a.after? l = some q) ↔ g.ViablePrefix l) ∧
      ∀ q, a.after? l = some q →
        ∃ s, a.state? q = some s ∧ ∀ i, i ∈ s.items ↔ g.ValidAfter l i := by
  have h := canonicalFor_of_eq_ok ha
  refine ⟨⟨?_, ?_⟩, ?_⟩
  · intro hq
    obtain ⟨i, hi⟩ := h.exists_after?_iff.mp hq
    exact (hi.validAfter hg).viablePrefix
  · intro hv
    obtain ⟨p, hp, front, w, hw, hform, hprefix⟩ := hv
    obtain ⟨i, hi⟩ := exists_validAfter_handle hp hw hform
    obtain ⟨q, hq⟩ := h.exists_after?_iff.mpr ⟨i, hi.awaits⟩
    obtain ⟨rest, hrest⟩ := hprefix
    rw [← hrest] at hq
    exact Automaton.exists_after?_of_append hq
  · intro q hq
    obtain ⟨s, hs⟩ := h.exists_state hq
    refine ⟨s, hs, ?_⟩
    intro i
    rw [h.mem_items_iff hq hs, awaits_iff_validAfter hg]

theorem after?_lr1Automaton_nested :
    nested.ViablePrefix [.named "("] ∧ ¬nested.ViablePrefix [.named ")"] := by
  have hg : nested.unproductive = [] := by decide +kernel
  obtain ⟨a, ha⟩ := exists_of_isOk (c := nested.lr1Automaton) (by decide +kernel)
  have hwalk (l : List Symbol) :
      (nested.lr1Automaton.toOption.bind fun a => a.after? l) = a.after? l := by
    rw [ha]
    rfl
  have hopen : (a.after? [.named "("]).isSome := by
    rw [← hwalk]
    decide +kernel
  have hclose : a.after? [.named ")"] = none := by
    rw [← hwalk]
    decide +kernel
  refine ⟨?_, ?_⟩
  · exact (after?_lr1Automaton hg ha _).1.mp (Option.isSome_iff_exists.mp hopen)
  · intro hv
    obtain ⟨q, hq⟩ := (after?_lr1Automaton hg ha _).1.mpr hv
    rw [hclose] at hq
    cases hq

end Grammar

end GrammarTables
