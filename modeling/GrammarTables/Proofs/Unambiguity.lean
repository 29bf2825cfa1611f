import GrammarTables.Proofs.PredictionTable
import GrammarTables.Proofs.Recognition

/-!
# Grammars of a discipline are unambiguous

A table without conflict lets a parser build one tree only, and a prediction by one token lets a
reader expect one tree only.
-/

namespace GrammarTables

/-- A sentence has one tree only. Rules with the same head and body give the same trees. -/
def Grammar.Unambiguous (g : Grammar) : Prop :=
  ∀ t u : Tree Unit, t.ValidFor g → u.ValidFor g → t.root = g.start → u.root = g.start →
    t.yield = u.yield → t = u

/-! ### Tables without conflict -/

namespace Automaton.ConflictFree

variable {ι : Type} [Item ι] {g : Grammar} {a : Automaton ι} {reduceOn : ι → List Symbol}
  {c c₁ c₂ : TreeConfiguration}

open ActionTable

private theorem not_shift_of_reduce (h : a.ConflictFree g reduceOn) (ha : a.Proper) {q q' : StateId}
    {x : Symbol} {p : ProductionId} {acts acts' : Actions}
    (hc : (ofAutomaton g reduceOn a).cell? q x = some acts) (hp : p ∈ acts.reduces)
    (hc' : (ofAutomaton g reduceOn a).cell? q x = some acts') : acts'.shift ≠ some q' := by
  intro hq
  obtain ⟨d, hd, hcomp, -⟩ := (mem_reduces_iff hc).mp hp
  obtain ⟨hx, hstep⟩ := step?_of_shift ha hc' hq
  rw [h.step?_eq_none q d x hd hcomp hx] at hstep
  cases hstep

private theorem eq_of_mem_reduces (h : a.ConflictFree g reduceOn) {q : StateId} {x : Symbol}
    {p p' : ProductionId} {acts acts' : Actions}
    (hc : (ofAutomaton g reduceOn a).cell? q x = some acts) (hp : p ∈ acts.reduces)
    (hc' : (ofAutomaton g reduceOn a).cell? q x = some acts') (hp' : p' ∈ acts'.reduces) :
    p = p' := by
  obtain ⟨d, hd, hcomp, rfl⟩ := (mem_reduces_iff hc).mp hp
  obtain ⟨d', hd', hcomp', rfl⟩ := (mem_reduces_iff hc').mp hp'
  exact h.production_eq q d d' x hd hd' hcomp hcomp'

/-- The parser has no choice. -/
theorem buildsTo_unique (h : a.ConflictFree g reduceOn) (ha : a.Proper)
    (h₁ : (ofAutomaton g reduceOn a).BuildsTo g c c₁)
    (h₂ : (ofAutomaton g reduceOn a).BuildsTo g c c₂) : c₁ = c₂ := by
  rcases buildsTo_cases h₁ with hs₁ | hr₁
  · obtain ⟨q₁, x₁, w₁, acts₁, hi₁, hc₁, hq₁, rfl⟩ := hs₁
    rcases buildsTo_cases h₂ with hs₂ | hr₂
    · obtain ⟨q₂, x₂, w₂, acts₂, hi₂, hc₂, hq₂, rfl⟩ := hs₂
      rw [hi₁] at hi₂
      cases hi₂
      rw [hc₁] at hc₂
      cases hc₂
      rw [hq₁] at hq₂
      cases hq₂
      rfl
    · obtain ⟨q₂, children, frames, acts₂, p, x₂, -, hc₂, hp, -, -, -, -⟩ := hr₂
      rw [hi₁] at hc₂
      exact absurd hq₁ (h.not_shift_of_reduce ha hc₂ hp hc₁)
  · obtain ⟨q₁, children₁, frames₁, acts₁, p₁, x₁, hf₁, hc₁, hp₁, hx₁, hn₁, hq₁, rfl⟩ := hr₁
    rcases buildsTo_cases h₂ with hs₂ | hr₂
    · obtain ⟨q₂, x₂, w₂, acts₂, hi₂, hc₂, hq₂, -⟩ := hs₂
      rw [hi₂] at hc₁
      exact absurd hq₂ (h.not_shift_of_reduce ha hc₁ hp₁ hc₂)
    · obtain ⟨q₂, children₂, frames₂, acts₂, p₂, x₂, hf₂, hc₂, hp₂, hx₂, hn₂, hq₂, rfl⟩ := hr₂
      obtain rfl := h.eq_of_mem_reduces hc₁ hp₁ hc₂ hp₂
      obtain ⟨rfl, rfl⟩ := List.append_inj (hf₁.symm.trans hf₂) (hn₁.trans hn₂.symm)
      rw [hx₁] at hx₂
      cases hx₂
      rw [hq₁] at hq₂
      cases hq₂
      rfl

theorem not_buildsTo_of_accepting (h : a.ConflictFree g reduceOn) (ha : a.Proper)
    (hc : (ofAutomaton g reduceOn a).Accepting c.forget) :
    ¬(ofAutomaton g reduceOn a).BuildsTo g c c₁ := by
  intro hm
  obtain ⟨acts, hcell, hp⟩ := accepting_forget_iff.mp hc
  cases hm with
  | shift hc' hq => exact h.not_shift_of_reduce ha hcell hp hc' hq
  | reduce hc' hp' hx _ _ =>
    have heq := h.eq_of_mem_reduces hcell hp hc' hp'
    rw [← heq] at hx
    cases hx

theorem eq_of_accepting (h : a.ConflictFree g reduceOn) (ha : a.Proper)
    (h₁ : Relation.ReflTransGen ((ofAutomaton g reduceOn a).BuildsTo g) c c₁)
    (h₂ : Relation.ReflTransGen ((ofAutomaton g reduceOn a).BuildsTo g) c c₂)
    (hc₁ : (ofAutomaton g reduceOn a).Accepting c₁.forget)
    (hc₂ : (ofAutomaton g reduceOn a).Accepting c₂.forget) : c₁ = c₂ := by
  have hunique : Relator.RightUnique ((ofAutomaton g reduceOn a).BuildsTo g) :=
    fun _ _ _ => h.buildsTo_unique ha
  rcases Relation.ReflTransGen.total_of_right_unique hunique h₁ h₂ with hrun | hrun
  · rcases hrun.cases_head with heq | hmove
    · exact heq
    · obtain ⟨c', hmove, -⟩ := hmove
      exact absurd hmove (h.not_buildsTo_of_accepting ha hc₁)
  · rcases hrun.cases_head with heq | hmove
    · exact heq.symm
    · obtain ⟨c', hmove, -⟩ := hmove
      exact absurd hmove (h.not_buildsTo_of_accepting ha hc₂)

theorem unambiguous (h : a.ConflictFree g reduceOn) (hg : a.Guides g reduceOn) :
    g.Unambiguous := by
  intro t u ht hu hrt hru hy
  obtain ⟨q, hrun, hacc⟩ := hg.exists_builds ht hrt
  obtain ⟨q', hrun', hacc'⟩ := hg.exists_builds hu hru
  rw [← hy] at hrun'
  have heq := h.eq_of_accepting hg.proper hrun hrun' hacc hacc'
  cases heq
  rfl

end Automaton.ConflictFree

/-! ### Prediction by one token -/

namespace Grammar.Predictive

variable {g : Grammar} {ts us : List (Tree Unit)} {w w' : List Symbol}

private theorem nextToken_mem_predictedTokens {r : Rule} (hr : r ∈ g.rules)
    (hts : ∀ t ∈ ts, t.ValidFor g) (htr : ts.map Tree.root = r.body)
    (hw : nextToken w ∈ g.follow r.head) :
    nextToken (Tree.yields ts ++ w) ∈ g.predictedTokens r := by
  have hd := Tree.derives_yields hts
  rw [htr] at hd
  rw [mem_predictedTokens_iff hr]
  rcases begins_or_eq_nil (w := w) hd (Tree.terminalString_of_valid hts) with hb | ⟨hempty, hnull⟩
  · exact Or.inl hb
  · rw [hempty, List.nil_append]
    exact Or.inr ⟨hnull, hw⟩

private theorem rule_eq (h : g.Predictive) {r s : Rule} (hr : r ∈ g.rules) (hs : s ∈ g.rules)
    (hhead : r.head = s.head) (hts : ∀ t ∈ ts, t.ValidFor g) (hus : ∀ u ∈ us, u.ValidFor g)
    (htr : ts.map Tree.root = r.body) (hur : us.map Tree.root = s.body)
    (hy : Tree.yields ts ++ w = Tree.yields us ++ w') (hw : nextToken w ∈ g.follow r.head)
    (hw' : nextToken w' ∈ g.follow r.head) : r = s := by
  have hyr := nextToken_mem_predictedTokens hr hts htr hw
  have hys := nextToken_mem_predictedTokens hs hus hur (hhead ▸ hw')
  rw [hy] at hyr
  exact h.eq_of_predicted hr hs hhead hyr hys

/-- No other tree with the same root reads the same input, if what comes next may follow. -/
private def OnlyTree (g : Grammar) (t : Tree Unit) : Prop :=
  ∀ u w w', u.ValidFor g → u.root = t.root → t.yield ++ w = u.yield ++ w' →
    (t.root ∈ g.nonterminals →
      nextToken w ∈ g.follow t.root ∧ nextToken w' ∈ g.follow t.root) → t = u

private theorem nextToken_mem_follow {r : Rule} (hr : r ∈ g.rules) {v : List Symbol} {t : Tree Unit}
    (hb : r.body = v ++ t.root :: ts.map Tree.root) (hts : ∀ t ∈ ts, t.ValidFor g)
    (hw : nextToken w ∈ g.follow r.head) (hx : t.root ∈ g.nonterminals) :
    nextToken (Tree.yields ts ++ w) ∈ g.follow t.root :=
  mem_follow_of_rule hr hb hx hw (begins_nextToken (Tree.derives_yields hts)
    (Tree.terminalString_of_valid hts) (isToken_of_mem_follow hw))

private theorem forest_eq {r : Rule} (hr : r ∈ g.rules) {v : List Symbol}
    (hb : r.body = v ++ ts.map Tree.root) (hroots : us.map Tree.root = ts.map Tree.root)
    (honly : ∀ t ∈ ts, OnlyTree g t) (hts : ∀ t ∈ ts, t.ValidFor g)
    (hus : ∀ u ∈ us, u.ValidFor g) (hy : Tree.yields ts ++ w = Tree.yields us ++ w')
    (hw : nextToken w ∈ g.follow r.head) (hw' : nextToken w' ∈ g.follow r.head) : ts = us := by
  induction ts generalizing us v with
  | nil => exact (List.map_eq_nil_iff.mp hroots).symm
  | cons t ts ih =>
    obtain ⟨u, us, rfl, hu, hrest⟩ := List.map_eq_cons_iff.mp hroots
    rw [List.forall_mem_cons] at honly hts hus
    rw [Tree.yields, Tree.yields, List.append_assoc, List.append_assoc] at hy
    rw [List.map_cons] at hb
    have hb' : r.body = v ++ u.root :: us.map Tree.root := by rw [hb, hu, hrest]
    have htu : t = u := by
      apply honly.1 u _ _ hus.1 hu hy
      intro hx
      refine ⟨nextToken_mem_follow hr hb hts.2 hw hx, ?_⟩
      rw [← hu] at hx ⊢
      exact nextToken_mem_follow hr hb' hus.2 hw' hx
    rw [htu, List.append_cancel_left_eq] at hy
    have hfront : r.body = (v ++ [t.root]) ++ ts.map Tree.root := by rw [hb]; simp
    rw [htu, ih hfront hrest honly.2 hts.2 hus.2 hy]

private theorem onlyTree (h : g.Predictive) {t : Tree Unit} (ht : t.ValidFor g) : OnlyTree g t := by
  induction ht with
  | leaf x hx =>
    intro u w w' hu hroot _ _
    cases hu with
    | leaf y hy => exact congrArg Tree.leaf hroot.symm
    | node _ s us hs _ _ =>
      have hhead : s.head = x := hroot
      have hn := head_mem_nonterminals hs
      rw [hhead] at hn
      exact absurd hn (not_mem_nonterminals_of_terminal hx)
  | node _ r ts hr hb hts ih =>
    intro u w w' hu hroot hy hnext
    obtain ⟨hw, hw'⟩ := hnext (head_mem_nonterminals hr)
    cases hu with
    | leaf y hterm =>
      have hhead : y = r.head := hroot
      rw [hhead] at hterm
      exact absurd (head_mem_nonterminals hr) (not_mem_nonterminals_of_terminal hterm)
    | node _ s us hs hbs hus =>
      have hhead : r.head = s.head := hroot.symm
      obtain rfl : r = s := h.rule_eq hr hs hhead hts hus hb hbs hy hw hw'
      have hbody : r.body = [] ++ ts.map Tree.root := hb.symm
      rw [forest_eq hr hbody (hbs.trans hb.symm) ih hts hus hy hw hw']

theorem unambiguous (h : g.Predictive) : g.Unambiguous := by
  intro t u ht hu hrt hru hy
  apply h.onlyTree ht u [] [] hu (hru.trans hrt.symm) (by rw [hy])
  intro _
  rw [hrt]
  exact ⟨endOfInput_mem_follow_start, endOfInput_mem_follow_start⟩

end Grammar.Predictive

namespace Grammar

/-- A grammar that belongs to any of the disciplines is unambiguous. -/
theorem unambiguous_of_classify {g : Grammar} {d : Discipline} (h : g.classify d = .ok ()) :
    g.Unambiguous := by
  have hslr (h : g.classify .slr1 = .ok ()) : g.Unambiguous := by
    obtain ⟨-, a, ha, hfree⟩ := classify_slr1_iff.mp h
    exact hfree.unambiguous (canonicalFor_of_eq_ok ha).guides_followOn
  cases d with
  | ll1 =>
    obtain ⟨t, ht, hcheck⟩ := classify_eq_ok_iff.mp h
    obtain ⟨_, -, ht⟩ := bind_eq_ok_iff.mp ht
    obtain ⟨_, -, ht⟩ := bind_eq_ok_iff.mp ht
    cases ht
    exact (predictive_of_check hcheck).unambiguous
  | lr0 => exact hslr (classify_slr1_of_lr0 h)
  | slr1 => exact hslr h
  | lr1 =>
    obtain ⟨-, a, ha, hfree⟩ := classify_lr1_iff.mp h
    exact hfree.unambiguous (canonicalFor_of_eq_ok ha).guides
  | lalr1 =>
    obtain ⟨-, a, ha, hfree⟩ := classify_lalr1_iff.mp h
    exact hfree.unambiguous (canonicalFor_of_eq_ok ha).guides_mergeByCore

theorem unambiguous_of_classify_nested :
    (∀ d ∈ Discipline.all, nested.classify d = .ok ()) ∧ nested.Unambiguous := by
  have hd : ∀ d ∈ Discipline.all, nested.classify d = .ok () := by decide +kernel
  exact ⟨hd, unambiguous_of_classify (hd .ll1 (by decide))⟩

end Grammar

end GrammarTables
