import Mathlib.Order.WellFounded
import GrammarTables.Proofs.PredictionTable

/-!
# Grammars parsed by prediction have LR(1) tables

A top-down parser replaces the symbol on top of its stack by the body of the rule that the next
token predicts. In a grammar that can be parsed by prediction it cannot do so forever without reading
the token, so no symbol comes back on top of itself (`not_transGen_expands`). The items that can go on
with one token, after the same symbols, lie on one chain: each is predicted by the one before it, by
the rule that the token tells. So no two of them are completed, and a completed one does not meet one
that expects the token. An LL(1) grammar without unproductive nonterminals is therefore LR(1).
-/

namespace GrammarTables

namespace Grammar

variable {g : Grammar} {x y z : Symbol}

/-- The body that replaces the first symbol on the token has the second one on top. -/
def Expands (g : Grammar) (y x z : Symbol) : Prop :=
  ∃ r ∈ g.rules, r.head = x ∧ y ∈ g.predictedTokens r ∧ ∃ v, r.body = z :: v

theorem not_expands_of_not_mem (hx : x ∉ g.nonterminals) : ¬g.Expands y x z := by
  rintro ⟨r, hr, rfl, -⟩
  exact hx (head_mem_nonterminals hr)

namespace Predictive

private theorem acc_of_nullable (h : g.Predictive) (hx : x ∈ g.nullable) (hy : y ∉ g.first x) :
    Acc (Function.swap (g.Expands y)) x := by
  refine (infer_induction (P := fun x => x ∈ g.nullable ∧
    (y ∉ g.first x → Acc (Function.swap (g.Expands y)) x)) ?_ x hx).2 hy
  intro r hr hb
  simp only [Bool.false_eq_true, false_or] at hb
  have hnull : ∀ z ∈ r.body, z ∈ g.nullable := fun z hz => (hb z hz).1
  refine ⟨mem_nullable_of_rule hr hnull, fun hy => ⟨_, ?_⟩⟩
  rintro z ⟨s, hs, hhead, hys, v, hv⟩
  have hbegin {t : Rule} (ht : t ∈ g.rules) (hth : t.head = r.head) : ¬g.Begins t.body y :=
    fun hbegin => hy (mem_first_iff_rule.mpr ⟨t, ht, hth, hbegin⟩)
  have hfollow := ((mem_predictedTokens_iff hs).mp hys).resolve_left (hbegin hs hhead)
  rw [hhead] at hfollow
  have hyr := (mem_predictedTokens_iff hr).mpr (Or.inr ⟨hnull, hfollow.2⟩)
  obtain rfl := h.eq_of_predicted hs hr hhead hys hyr
  refine (hb z (by simp [hv])).2 fun hyz => hbegin hs rfl ?_
  rw [hv, begins_cons]
  exact Or.inl (begins_of_mem_first hyz)

private theorem acc_of_mem_first (h : g.Predictive) (hy : y ∈ g.first x) :
    Acc (Function.swap (g.Expands y)) x := by
  have ht : g.IsToken y := Or.inl (mem_terminals_of_mem_first hy)
  refine first_induction (P := Acc (Function.swap (g.Expands y))) ?_ hy
  intro r hr u z v hb hu hz
  have hbegins : g.Begins (z :: v) y := by
    rw [begins_cons]
    rcases hz with ⟨-, rfl⟩ | ⟨hz, -⟩
    · exact Or.inl ((begins_token_iff ht).mpr rfl)
    · exact Or.inl (begins_of_mem_first hz)
  have hyr : y ∈ g.predictedTokens r := (mem_predictedTokens_iff hr).mpr
    (Or.inl (hb ▸ begins_append.mpr (Or.inr ⟨hu, hbegins⟩)))
  refine ⟨_, ?_⟩
  rintro z' ⟨s, hs, hhead, hys, v', hv'⟩
  obtain rfl := h.eq_of_predicted hs hr hhead hys hyr
  rw [hv'] at hb
  -- either the next symbol on top is nearer to the token, or it vanishes in front of it
  cases u with
  | nil =>
    obtain ⟨rfl, -⟩ := List.cons_eq_cons.mp hb
    rcases hz with ⟨hn, -⟩ | ⟨-, hz⟩
    · exact ⟨_, fun w hw => absurd hw (not_expands_of_not_mem hn)⟩
    · exact hz
  | cons a u =>
    obtain ⟨rfl, rfl⟩ := List.cons_eq_cons.mp hb
    have hnull := hu z' (by simp)
    have hfollow : y ∈ g.follow z' := mem_follow_of_begins (u := []) hs hv'
      (mem_nonterminals_of_nullable hnull)
      (begins_append.mpr (Or.inr ⟨fun b hb => hu b (by simp [hb]), hbegins⟩))
    exact h.acc_of_nullable hnull fun hyz => h.not_mem_follow z' hnull y hyz hfollow

theorem acc_expands (h : g.Predictive) (y x : Symbol) :
    Acc (Function.swap (g.Expands y)) x := by
  by_cases hy : y ∈ g.first x
  · exact h.acc_of_mem_first hy
  · by_cases hx : x ∈ g.nullable
    · exact h.acc_of_nullable hx hy
    · refine ⟨_, ?_⟩
      rintro z ⟨r, hr, rfl, hyr, -⟩
      rcases (mem_predictedTokens_iff hr).mp hyr with hb | ⟨hn, -⟩
      · exact absurd (mem_first_iff_rule.mpr ⟨r, hr, rfl, hb⟩) hy
      · exact absurd (mem_nullable_of_rule hr hn) hx

/-- No symbol comes back on top of itself. -/
theorem not_transGen_expands (h : g.Predictive) : ¬Relation.TransGen (g.Expands y) x x :=
  not_transGen_of_acc (h.acc_expands y)

end Predictive

end Grammar

namespace Grammar

variable {g : Grammar} {l : List Symbol} {x y z : Symbol} {c d : DottedRule}
  {i j : LookaheadItem}

/-! ### Chains of cores -/

/-- The core predicts the other one, whose rule the token tells. -/
def LeadsOn (g : Grammar) (y : Symbol) (c d : DottedRule) : Prop :=
  g.Predicts c d ∧ ∃ r, g.production? d.production = some (.rule r) ∧ y ∈ g.predictedTokens r

theorem LeadsOn.exists_next? (h : g.LeadsOn y c d) : ∃ x, c.next? g = some x := by
  obtain ⟨x, hx, -⟩ := DottedRule.predicts_iff.mp h.1
  exact ⟨x, hx⟩

theorem LeadsOn.expands (h : g.LeadsOn y c d) (hc : c.next? g = some x) (hd : d.next? g = some z) :
    g.Expands y x z := by
  obtain ⟨hcd, r, hr, hy⟩ := h
  obtain ⟨x', hc', ha, hdot⟩ := DottedRule.predicts_iff.mp hcd
  obtain rfl : x = x' := Option.some.inj (hc.symm.trans hc')
  have hhead := (head?_of_rule hr).symm.trans (head?_of_mem_alternatives ha)
  obtain ⟨v, hv⟩ := DottedRule.next?_eq_some_iff.mp hd
  rw [DottedRule.remainder_eq, hdot, body_of_rule hr] at hv
  exact ⟨r, rule_mem hr, Option.some.inj hhead, hy, v, hv⟩

theorem transGen_expands_of_leadsOn (h : Relation.TransGen (g.LeadsOn y) c d)
    (hc : c.next? g = some x) (hd : d.next? g = some z) :
    Relation.TransGen (g.Expands y) x z := by
  induction h generalizing z with
  | single h => exact .single (h.expands hc hd)
  | tail _ h ih =>
    obtain ⟨w, hw⟩ := h.exists_next?
    exact (ih hw).tail (h.expands hw hd)

namespace Predictive

theorem rightUnique_leadsOn (h : g.Predictive) (y : Symbol) :
    Relator.RightUnique (g.LeadsOn y) := by
  rintro c ⟨p, n⟩ ⟨q, m⟩ ⟨hp, r, hr, hyr⟩ ⟨hq, s, hs, hys⟩
  obtain ⟨x, hx, hp, rfl⟩ := DottedRule.predicts_iff.mp hp
  obtain ⟨x', hx', hq, rfl⟩ := DottedRule.predicts_iff.mp hq
  obtain rfl : x = x' := Option.some.inj (hx.symm.trans hx')
  have hhead : some r.head = some s.head :=
    (head?_of_rule hr).symm.trans ((head?_of_mem_alternatives hp).trans
      ((head?_of_mem_alternatives hq).symm.trans (head?_of_rule hs)))
  obtain rfl := h.eq_of_predicted (rule_mem hr) (rule_mem hs) (Option.some.inj hhead) hyr hys
  have hbody := (body_of_rule hr).trans (body_of_rule hs).symm
  exact congrArg (DottedRule.mk · 0) (eq_of_mem_alternatives hp hq hbody)

theorem eq_of_leadsOn (h : g.Predictive) (hcd : Relation.ReflTransGen (g.LeadsOn y) c d)
    (hc : c.next? g = some x) (hd : d.next? g = some x) : c = d := by
  rcases Relation.reflTransGen_iff_eq_or_transGen.mp hcd with heq | hchain
  · exact heq.symm
  · exact absurd (transGen_expands_of_leadsOn hchain hc hd) h.not_transGen_expands

end Predictive

/-! ### Items that go on with a token -/

/-- The token begins what is left of the item, with its lookahead behind. -/
def GoesOn (g : Grammar) (i : LookaheadItem) (y : Symbol) : Prop :=
  g.Begins (i.core.remainder g ++ [i.lookahead]) y

theorem goesOn_iff (hx : i.core.next? g = some x) : g.GoesOn i y ↔
    g.Begins [x] y ∨ x ∈ g.nullable ∧ g.GoesOn (PredictiveItem.shifted i) y := by
  have hrest : i.core.shifted.remainder g = i.core.rest g := DottedRule.remainder_shifted hx
  rw [GoesOn, DottedRule.remainder_eq_cons hx, List.cons_append, begins_cons, ← hrest]
  rfl

/-- If a predicted item goes on with a token, so does the item that predicts it, and the token tells
its rule. -/
theorem GoesOn.of_predicts (hi : g.Awaits l i) (hij : g.Predicts i j) (hy : g.GoesOn j y) :
    g.GoesOn i y ∧ g.LeadsOn y i.core j.core := by
  obtain ⟨x, rest, hrest, hp, hdot, hlook⟩ := (LookaheadItem.predicts_iff hi.admissible).mp hij
  obtain ⟨r, hr, rfl⟩ := head?_eq_some_iff.mp (head?_of_mem_alternatives hp)
  have hnext := DottedRule.next?_eq_some_iff.mpr ⟨rest, hrest⟩
  have hpredicts := DottedRule.predicts_iff.mpr ⟨_, hnext, hp, hdot⟩
  rw [GoesOn, DottedRule.remainder_eq, hdot, body_of_rule hr] at hy
  rw [GoesOn, hrest, List.cons_append, begins_cons]
  rcases begins_append.mp hy with hy | ⟨hn, hy⟩
  · have hpredicted := (mem_predictedTokens_iff (rule_mem hr)).mpr (Or.inl hy)
    exact ⟨Or.inl (hy.of_derives (derives_rule (rule_mem hr))), hpredicts, r, hr, hpredicted⟩
  · obtain rfl := (begins_token_iff hlook.1).mp hy
    have hfollow := (hi.predict hij).lookahead_mem_followOn
    rw [mem_followOn_iff (head?_of_rule hr)] at hfollow
    have hpredicted := (mem_predictedTokens_iff (rule_mem hr)).mpr (Or.inr ⟨hn, hfollow⟩)
    exact ⟨Or.inr ⟨mem_nullable_of_rule (rule_mem hr) hn, hlook⟩, hpredicts, r, hr, hpredicted⟩

/-- The awaited items that go on with the token lie on one chain. -/
def OnChain (g : Grammar) (l : List Symbol) (y : Symbol) : Prop :=
  ∃ c, ∀ i : LookaheadItem, g.Awaits l i → g.GoesOn i y →
    Relation.ReflTransGen (g.LeadsOn y) c i.core

private theorem leadsOn_of_kernel (hinit : l = [] → c = .initial)
    (hshift : ∀ front x (i : LookaheadItem), l = front ++ [x] → g.Awaits front i →
      i.core.next? g = some x → g.GoesOn (PredictiveItem.shifted i) y → c = i.core.shifted)
    (hi : g.Awaits l i) (hy : g.GoesOn i y) : Relation.ReflTransGen (g.LeadsOn y) c i.core := by
  induction hi with
  | initial =>
    rw [hinit rfl]
    exact .refl
  | predict hi hij ih =>
    obtain ⟨hyi, hlead⟩ := hy.of_predicts hi hij
    exact (ih hinit hshift hyi).tail hlead
  | shift hi hx _ =>
    rw [hshift _ _ _ rfl hi hx hy]
    exact .refl

private theorem onChain_nil (g : Grammar) (y : Symbol) : g.OnChain [] y :=
  ⟨.initial, fun _ => leadsOn_of_kernel (fun _ => rfl) (by simp)⟩

private theorem onChain_concat (h : ∀ i : LookaheadItem, g.Awaits l i → i.core.next? g = some x →
      g.GoesOn (PredictiveItem.shifted i) y → c = i.core.shifted) : g.OnChain (l ++ [x]) y := by
  refine ⟨c, fun _ => leadsOn_of_kernel (by simp) ?_⟩
  intro front x' i hl hi hx hy
  obtain ⟨rfl, hlast⟩ := List.append_inj' hl rfl
  cases hlast
  exact h i hi hx hy

namespace Predictive

theorem total_of_onChain (h : g.Predictive) (hc : g.OnChain l y) (hi : g.Awaits l i)
    (hj : g.Awaits l j) (hyi : g.GoesOn i y) (hyj : g.GoesOn j y) :
    Relation.ReflTransGen (g.LeadsOn y) i.core j.core ∨
      Relation.ReflTransGen (g.LeadsOn y) j.core i.core := by
  obtain ⟨c, hc⟩ := hc
  exact Relation.ReflTransGen.total_of_right_unique (h.rightUnique_leadsOn y) (hc i hi hyi)
    (hc j hj hyj)

private theorem core_eq_of_shifted (h : g.Predictive) (hu : g.unproductive = [])
    (hc : ∀ z, g.OnChain l z) (hi : g.Awaits l i) (hj : g.Awaits l j)
    (hxi : i.core.next? g = some x) (hxj : j.core.next? g = some x)
    (hyi : g.GoesOn (PredictiveItem.shifted i) y) (hyj : g.GoesOn (PredictiveItem.shifted j) y) :
    i.core = j.core := by
  -- both go on with a token that the symbol begins with, or with `y` if the symbol vanishes
  obtain ⟨z, hzi, hzj⟩ : ∃ z, g.GoesOn i z ∧ g.GoesOn j z := by
    obtain ⟨w, hw, hd⟩ := productive_of_mem hu (mem_terminals_or_nonterminals_of_next? hxi)
    rw [exists_congr fun z => and_congr (goesOn_iff hxi) (goesOn_iff hxj)]
    cases w with
    | nil =>
      have hn : x ∈ g.nullable := derives_nil_iff.mp hd x (by simp)
      exact ⟨y, Or.inr ⟨hn, hyi⟩, Or.inr ⟨hn, hyj⟩⟩
    | cons z w =>
      have hz : g.Begins [x] z := ⟨Or.inl (terminalString_cons.mp hw).1, w, hd⟩
      exact ⟨z, Or.inl hz, Or.inl hz⟩
  rcases h.total_of_onChain (hc z) hi hj hzi hzj with hij | hji
  · exact h.eq_of_leadsOn hij hxi hxj
  · exact (h.eq_of_leadsOn hji hxj hxi).symm

theorem onChain (h : g.Predictive) (hu : g.unproductive = []) (l : List Symbol) (y : Symbol) :
    g.OnChain l y := by
  induction l using List.reverseRecOn generalizing y with
  | nil => exact onChain_nil g y
  | append_singleton l x ih =>
    by_cases hk : ∃ i : LookaheadItem, g.Awaits l i ∧ i.core.next? g = some x ∧
        g.GoesOn (PredictiveItem.shifted i) y
    · obtain ⟨i, hi, hxi, hyi⟩ := hk
      refine onChain_concat (c := i.core.shifted) fun j hj hxj hyj => ?_
      rw [h.core_eq_of_shifted hu ih hi hj hxi hxj hyi hyj]
    · exact onChain_concat (c := .initial) fun j hj hxj hyj => absurd ⟨j, hj, hxj, hyj⟩ hk

theorem core_eq_of_not_leadsOn (h : g.Predictive) (hu : g.unproductive = [])
    (hi : g.Awaits l i) (hj : g.Awaits l j) (hyi : g.GoesOn i y) (hyj : g.GoesOn j y)
    (hni : ∀ d, ¬g.LeadsOn y i.core d) (hnj : ∀ d, ¬g.LeadsOn y j.core d) : i.core = j.core := by
  rcases h.total_of_onChain (h.onChain hu l y) hi hj hyi hyj with hij | hji
  · exact ((Relation.reflTransGen_iff_eq hni).mp hij).symm
  · exact (Relation.reflTransGen_iff_eq hnj).mp hji

end Predictive

theorem not_leadsOn_of_isComplete (hc : c.isComplete g = true) : ¬g.LeadsOn y c d := by
  intro h
  obtain ⟨x, hx⟩ := h.exists_next?
  rw [DottedRule.next?_eq_none_of_isComplete hc] at hx
  cases hx

theorem goesOn_of_isComplete (hi : g.Admissible i) (hc : i.core.isComplete g = true) :
    g.GoesOn i i.lookahead := by
  rw [GoesOn, List.isEmpty_iff.mp hc, List.nil_append]
  exact (begins_token_iff (hi.isToken _ (by simp [Item.lookaheads]))).mpr rfl

end Grammar

/-! ### The verdicts -/

namespace CanonicalFor

variable {g : Grammar} {a : Automaton LookaheadItem}

theorem conflictFree_of_predictive (ha : CanonicalFor g a) (h : g.Predictive)
    (hu : g.unproductive = []) : a.ConflictFree g Item.lookaheads where
  production_eq q c c' y hc hc' hcomp hcomp' := by
    obtain ⟨s, hs, -⟩ := holds_iff.mp hc
    obtain ⟨l, hl⟩ := ha.reachable q s hs
    have hi := ha.awaits_of_holds hl hc
    have hi' := ha.awaits_of_holds hl hc'
    have hcore := h.core_eq_of_not_leadsOn hu hi hi'
      (Grammar.goesOn_of_isComplete hi.admissible hcomp)
      (Grammar.goesOn_of_isComplete hi'.admissible hcomp')
      (fun _ => Grammar.not_leadsOn_of_isComplete hcomp)
      fun _ => Grammar.not_leadsOn_of_isComplete hcomp'
    exact congrArg DottedRule.production hcore
  step?_eq_none q c y hc hcomp hy := by
    rw [Option.eq_none_iff_forall_not_mem]
    intro q' hq'
    obtain ⟨s, hs, hx⟩ := Automaton.step?_eq_some.mp hq'
    obtain ⟨l, hl⟩ := ha.reachable q s hs
    obtain ⟨j, hj, hjy⟩ := (ha.isSome_next? q s hs y).mp (by rw [hx]; rfl)
    have hterm := (Grammar.mem_terminals_or_nonterminals_of_next? hjy).resolve_right hy
    have hi := ha.awaits_of_holds hl hc
    have hleads (d : DottedRule) : ¬g.LeadsOn y j.core d := by
      rintro ⟨hd, -⟩
      obtain ⟨x, hx, hp, -⟩ := DottedRule.predicts_iff.mp hd
      obtain rfl : y = x := Option.some.inj (hjy.symm.trans hx)
      rw [Grammar.alternatives_eq_nil hy] at hp
      cases hp
    have hcore := h.core_eq_of_not_leadsOn hu hi (ha.awaits_of_mem hl hs hj)
      (Grammar.goesOn_of_isComplete hi.admissible hcomp)
      ((Grammar.goesOn_iff hjy).mpr (Or.inl ((Grammar.begins_token_iff (Or.inl hterm)).mpr rfl)))
      (fun _ => Grammar.not_leadsOn_of_isComplete hcomp) hleads
    have hnone : j.core.next? g = none := hcore ▸ DottedRule.next?_eq_none_of_isComplete hcomp
    exact absurd (hjy.symm.trans hnone) (by simp)

end CanonicalFor

namespace Grammar

variable {g : Grammar}

/-- A grammar without unproductive nonterminals that belongs to LL(1) belongs to LR(1), if its
automaton has a number for each state. -/
theorem classify_lr1_of_ll1 (hu : g.unproductive = []) (h : g.classify .ll1 = .ok ()) :
    g.classify .lr1 = .ok () ∨
      g.lr1Automaton = .error .tooManyStates ∧
        g.classify .lr1 = .error (.invalid .tooManyStates) := by
  obtain ⟨hg, hcheck⟩ := classify_ll1_iff.mp h
  rcases exists_canonical_or LookaheadItem g with ⟨a, ha⟩ | herror
  · refine Or.inl (classify_lr1_iff.mpr ⟨hg, a, ha, ?_⟩)
    exact (canonicalFor_of_eq_ok ha).conflictFree_of_predictive (predictive_of_check hcheck) hu
  · refine Or.inr ⟨herror, ?_⟩
    rw [classify, table, hg, lr1Automaton, herror]
    rfl

theorem classify_lr1_of_ll1_lists :
    lists.classify .ll1 = .ok () ∧ lists.classify .lr1 = .ok () := by
  have h : lists.classify .ll1 = .ok () := by decide +kernel
  have hbuilt : lists.lr1Automaton.isOk := by decide +kernel
  refine ⟨h, (classify_lr1_of_ll1 (by decide +kernel) h).resolve_right fun herror => ?_⟩
  rw [herror.1] at hbuilt
  cases hbuilt

end Grammar

end GrammarTables
