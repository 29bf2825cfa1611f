import GrammarTables.Analysis
import GrammarTables.Proofs.FirstSets

/-!
# Tokens that follow a nonterminal

FOLLOW sets are the least sets closed under the rules: in a body, what the rest begins with follows
a nonterminal, and so does what follows the head where the rest may vanish (`mem_follow_of_rule`,
`follow_induction`). So they hold what comes right behind a nonterminal in derived strings
(`mem_followSets_iff_derives`).
-/

namespace GrammarTables.Grammar

variable {g : Grammar} {x y a : Symbol} {r : Rule} {u v : List Symbol}

def follow (g : Grammar) (x : Symbol) : OrderedSet Symbol :=
  (g.followSets g.firstTable).getD x ∅

theorem get?_followSets (hx : x ∈ g.nonterminals) :
    (g.followSets g.firstTable).get? x = some (g.follow x) := by
  simp [follow, followSets, OrderedMap.getD, OrderedMap.get?_ofKeys, hx]

private theorem mem_suffixes_iff {l s : List Symbol} :
    s ∈ (suffixesInto #[] l).toList ↔ ∃ u, l = u ++ s := by
  rw [Array.mem_toList_iff, Array.mem_iff_getElem?]
  simp only [getElem?_suffixes]
  constructor
  · intro h
    obtain ⟨i, hi⟩ := h
    split at hi
    · cases hi
      exact ⟨l.take i, (List.take_append_drop i l).symm⟩
    · cases hi
  · intro h
    obtain ⟨u, rfl⟩ := h
    exact ⟨u.length, by simp⟩

private def pairsBefore (g : Grammar) (x z : Symbol) : List (Symbol × Symbol) :=
  match g.firstTable.sets.get? z with
  | some first => first.toList.map fun y => (x, y)
  | none => [(x, z)]

private theorem mem_pairsBefore {z : Symbol} : (x, y) ∈ g.pairsBefore x z ↔ g.StartsWith z y := by
  rw [pairsBefore, get?_firstSets, StartsWith]
  by_cases hz : z ∈ g.nonterminals
  · simp [hz]
  · have hf : y ∉ g.first z := by
      rw [first, OrderedMap.getD, get?_firstSets, if_neg hz]
      exact List.not_mem_nil
    simp [hz, hf]

private theorem mem_followedWithin {body : List Symbol} :
    (x, y) ∈ g.followedWithin g.firstTable body ↔
      x ∈ g.nonterminals ∧ ∃ u v, body = u ++ x :: v ∧ g.LeadsWith v y := by
  rw [followedWithin, List.mem_flatMap]
  constructor
  · intro h
    obtain ⟨s, hs, hm⟩ := h
    obtain ⟨u, rfl⟩ := mem_suffixes_iff.mp hs
    cases s with
    | nil => simp at hm
    | cons z v =>
      dsimp only at hm
      split at hm
      · rename_i hz
        obtain ⟨w, hw, hwy⟩ := List.mem_flatMap.mp hm
        have hzx : x = z := by
          split at hwy
          · obtain ⟨_, -, he⟩ := List.mem_map.mp hwy
            exact (congrArg Prod.fst he).symm
          · exact congrArg Prod.fst (List.mem_singleton.mp hwy)
        subst hzx
        exact ⟨isNonterminal_iff.mp hz, u, v, rfl, w, hw, mem_pairsBefore.mp hwy⟩
      · simp at hm
  · intro h
    obtain ⟨hx, u, v, rfl, w, hw, hwy⟩ := h
    refine ⟨x :: v, mem_suffixes_iff.mpr ⟨u, rfl⟩, ?_⟩
    dsimp only
    rw [if_pos (isNonterminal_iff.mpr hx)]
    exact List.mem_flatMap.mpr ⟨w, hw, mem_pairsBefore.mpr hwy⟩

private theorem directFollow_iff : (g.directFollow g.firstTable).Edge x y ↔
    x = g.start ∧ y = .endOfInput ∨
      ∃ r ∈ g.rules, x ∈ g.nonterminals ∧ ∃ u v, r.body = u ++ x :: v ∧ g.LeadsWith v y := by
  rw [Relation.Edge, directFollow, Relation.mem_targets_ofEdges, List.mem_cons, Prod.mk.injEq,
    List.mem_flatMap]
  simp only [mem_followedWithin, Array.mem_toList_iff]

private theorem inheritedFollow_iff : (g.inheritedFollow g.firstTable).Edge x y ↔
    ∃ r ∈ g.rules, r.head = y ∧ x ∈ g.nonterminals ∧
      ∃ u v, r.body = u ++ x :: v ∧ ∀ z ∈ v, z ∈ g.nullable := by
  have hlast (r : Rule) : x ∈ leading g.nullable r.body.reverse ↔
      ∃ u v, r.body = u ++ x :: v ∧ ∀ z ∈ v, z ∈ g.nullable := by
    rw [mem_leading_iff]
    constructor
    · intro h
      obtain ⟨u, v, hb, hu⟩ := h
      refine ⟨v.reverse, u.reverse, ?_, by simpa using hu⟩
      rw [← List.reverse_reverse r.body, hb]
      simp
    · intro h
      obtain ⟨u, v, hb, hv⟩ := h
      exact ⟨v.reverse, u.reverse, by simp [hb], by simpa using hv⟩
  rw [Relation.Edge, inheritedFollow, Relation.mem_targets_ofEdges]
  simp only [List.mem_flatMap, List.mem_map, List.mem_filter, Array.mem_toList_iff, Prod.mk.injEq,
    isNonterminal_iff, firstTable_nullable]
  grind

private theorem mem_follow_iff : y ∈ g.follow x ↔ x ∈ g.nonterminals ∧
    ∃ z, Relation.ReflTransGen (g.inheritedFollow g.firstTable).Edge x z ∧
      (g.directFollow g.firstTable).Edge z y := by
  rw [← Relation.edge_propagate_iff]
  simp only [follow, followSets, OrderedMap.getD, OrderedMap.get?_ofKeys]
  by_cases hx : x ∈ g.nonterminals
  · simp [hx, Relation.Edge]
  · simp only [hx, if_false, Option.getD_none, false_and, iff_false]
    exact List.not_mem_nil

theorem isToken_of_mem_follow (h : y ∈ g.follow x) : g.IsToken y := by
  obtain ⟨-, z, -, hz⟩ := mem_follow_iff.mp h
  rcases directFollow_iff.mp hz with hz | hz
  · exact Or.inr hz.2
  · obtain ⟨r, hr, -, u, v, hb, w, hw, hwy⟩ := hz
    rcases hwy with hwy | hwy
    · obtain ⟨hn, rfl⟩ := hwy
      obtain ⟨p, q, rfl, -⟩ := mem_leading_iff.mp hw
      exact Or.inl ((mem_terminals_or_nonterminals hr (by simp [hb])).resolve_right hn)
    · exact Or.inl (mem_terminals_of_mem_first hwy)

theorem endOfInput_mem_follow_start : Symbol.endOfInput ∈ g.follow g.start :=
  mem_follow_iff.mpr ⟨g.start_mem_nonterminals, g.start, .refl,
    directFollow_iff.mpr (Or.inl ⟨rfl, rfl⟩)⟩

theorem mem_follow_of_begins (hr : r ∈ g.rules) (hb : r.body = u ++ x :: v)
    (hx : x ∈ g.nonterminals) (hy : g.Begins v y) : y ∈ g.follow x :=
  mem_follow_iff.mpr ⟨hx, x, .refl,
    directFollow_iff.mpr (Or.inr ⟨r, hr, hx, u, v, hb, (begins_iff.mp hy).2⟩)⟩

/-- A token that follows the head, read after the rest of the body, tells what follows a nonterminal
of the body. -/
theorem mem_follow_of_rule (hr : r ∈ g.rules) (hb : r.body = u ++ x :: v)
    (hx : x ∈ g.nonterminals) (ha : a ∈ g.follow r.head) (hy : g.Begins (v ++ [a]) y) :
    y ∈ g.follow x := by
  rcases begins_append.mp hy with hy | hy
  · exact mem_follow_of_begins hr hb hx hy
  · obtain ⟨hv, hy⟩ := hy
    have hya := (begins_token_iff (isToken_of_mem_follow ha)).mp hy
    subst hya
    obtain ⟨-, z, hz, hzy⟩ := mem_follow_iff.mp ha
    exact mem_follow_iff.mpr
      ⟨hx, z, .head (inheritedFollow_iff.mpr ⟨r, hr, rfl, hx, u, v, hb, hv⟩) hz, hzy⟩

/-- Whatever holds of the end of the input behind the start symbol, and is handed on by the rules,
holds of all FOLLOW sets. -/
theorem follow_induction {P : Symbol → Symbol → Prop} (start : P g.start .endOfInput)
    (begins : ∀ r ∈ g.rules, ∀ u x v y, r.body = u ++ x :: v → g.Begins v y → P x y)
    (vanishes : ∀ r ∈ g.rules, ∀ u x v y, r.body = u ++ x :: v → (∀ z ∈ v, z ∈ g.nullable) →
      P r.head y → P x y) (h : y ∈ g.follow x) : P x y := by
  have ht := isToken_of_mem_follow h
  obtain ⟨-, z, hxz, hzy⟩ := mem_follow_iff.mp h
  clear h
  induction hxz using Relation.ReflTransGen.head_induction_on with
  | refl =>
    rcases directFollow_iff.mp hzy with ⟨rfl, rfl⟩ | ⟨r, hr, -, u, v, hb, hv⟩
    · exact start
    · exact begins r hr u z v y hb (begins_iff.mpr ⟨ht, hv⟩)
  | @head x _ hs _ ih =>
    obtain ⟨r, hr, rfl, hx, u, v, hb, hv⟩ := inheritedFollow_iff.mp hs
    exact vanishes r hr u x v y hb hv ih

/-! ### What comes behind a nonterminal -/

/-- What the string begins with behind any of its nonterminals follows the nonterminal. -/
def KeepsFollow (g : Grammar) (s : List Symbol) : Prop :=
  ∀ u x v y, s = u ++ x :: v → x ∈ g.nonterminals → g.Begins v y → y ∈ g.follow x

theorem not_begins_nil : ¬g.Begins [] y := by
  intro h
  obtain ⟨-, z, hz, -⟩ := begins_iff.mp h
  simp at hz

theorem keepsFollow_singleton (x : Symbol) : g.KeepsFollow [x] := by
  intro u z v y hs _ hy
  rcases List.append_eq_cons_iff.mp hs.symm with ⟨-, hs⟩ | ⟨u', -, hs⟩
  · obtain ⟨-, rfl⟩ := List.cons_eq_cons.mp hs
    exact absurd hy not_begins_nil
  · simp at hs

theorem keepsFollow_start : g.KeepsFollow [g.start, .endOfInput] := by
  intro u x v y hs hx hy
  rcases List.append_eq_cons_iff.mp hs.symm with ⟨-, hs⟩ | ⟨u', -, hs⟩
  · obtain ⟨rfl, rfl⟩ := List.cons_eq_cons.mp hs
    rw [(begins_token_iff (Or.inr rfl)).mp hy]
    exact endOfInput_mem_follow_start
  · have hend : x ∈ [Symbol.endOfInput] := by simp [hs]
    rw [List.mem_singleton.mp hend] at hx
    exact absurd hx endOfInput_not_mem_nonterminals

private theorem KeepsFollow.step {s t : List Symbol} (h : g.KeepsFollow s) (hst : g.Step s t) :
    g.KeepsFollow t := by
  obtain ⟨p, q, r, hr⟩ := hst
  intro u x v y hs hx hy
  rcases append_eq_append_cons_iff.mp hs with ⟨v', hfront, rfl⟩ | ⟨q', -, rfl⟩
  · rcases append_eq_append_cons_iff.mp hfront with ⟨p', rfl, rfl⟩ | ⟨b, -, hb⟩
    · -- The nonterminal stands in front of the one that the step has replaced.
      exact h u x (p' ++ r.head :: q) y (by simp) hx
        (hy.of_derives (.single (.rewrite p' q r hr)))
    · -- The step has brought it, and what comes behind its head may show through.
      rcases begins_append.mp hy with hy | ⟨hv, hy⟩
      · exact mem_follow_of_begins hr hb hx hy
      · have hhead := h p r.head q y rfl (head_mem_nonterminals hr) hy
        exact mem_follow_of_rule hr hb hx hhead
          (begins_append.mpr (Or.inr ⟨hv, (begins_token_iff hy.1).mpr rfl⟩))
  · -- It stands behind the replaced one.
    exact h (p ++ r.head :: q') x v y (by simp) hx hy

theorem KeepsFollow.derives {s t : List Symbol} (h : g.KeepsFollow s) (hst : g.Derives s t) :
    g.KeepsFollow t := by
  induction hst with
  | refl => exact h
  | tail _ hstep ih => exact ih.step hstep

theorem mem_follow_of_derives {s : List Symbol} (h : g.Derives [g.start, .endOfInput] s)
    (hs : s = u ++ x :: v) (hx : x ∈ g.nonterminals) (hy : g.Begins v y) : y ∈ g.follow x :=
  keepsFollow_start.derives h u x v y hs hx hy

/-- Some nonterminal derives a string in which the token comes right behind the symbol, or the token
is the end of the input and the start symbol derives a string that the symbol ends. -/
def ComesBehind (g : Grammar) (x y : Symbol) : Prop :=
  (y ∈ g.terminals ∧ ∃ b ∈ g.nonterminals, ∃ u v, g.Derives [b] (u ++ x :: y :: v)) ∨
    y = .endOfInput ∧ ∃ u, g.Derives [g.start] (u ++ [x])

private theorem comesBehind_of_begins (hr : r ∈ g.rules) (hb : r.body = u ++ x :: v)
    (hy : g.Begins v y) : g.ComesBehind x y := by
  obtain ⟨ht, w, hw⟩ := hy
  have hd : g.Derives [r.head] (u ++ x :: y :: w) := by
    have hx := hw.context (u ++ [x]) []
    simp only [List.append_assoc, List.singleton_append, List.append_nil, ← hb] at hx
    exact (derives_rule hr).trans hx
  have hknown := hd.mem_terminals_or_nonterminals (by simp [head_mem_nonterminals hr]) y (by simp)
  exact Or.inl ⟨hknown.resolve_right ht.not_mem_nonterminals, _, head_mem_nonterminals hr, u, w, hd⟩

private theorem ComesBehind.of_rule (h : g.ComesBehind r.head y) (hr : r ∈ g.rules)
    (hb : r.body = u ++ x :: v) (hv : ∀ z ∈ v, z ∈ g.nullable) : g.ComesBehind x y := by
  have hd : g.Derives [r.head] (u ++ [x]) := by
    have hvanish := (derives_nil_iff.mpr hv).context (u ++ [x]) []
    simp only [List.append_assoc, List.singleton_append, List.append_nil, ← hb] at hvanish
    exact (derives_rule hr).trans hvanish
  rcases h with ⟨ht, b, hbn, u', v', hbd⟩ | ⟨rfl, u', hs⟩
  · refine Or.inl ⟨ht, b, hbn, u' ++ u, v', hbd.trans ?_⟩
    simpa using hd.context u' (y :: v')
  · refine Or.inr ⟨rfl, u' ++ u, hs.trans ?_⟩
    simpa using hd.context u' []

theorem comesBehind_of_mem_follow (h : y ∈ g.follow x) : g.ComesBehind x y := by
  refine follow_induction (P := g.ComesBehind) ?_ ?_ ?_ h
  · exact Or.inr ⟨rfl, [], .refl _⟩
  · exact fun r hr u x v y hb hy => comesBehind_of_begins hr hb hy
  · exact fun r hr u x v y hb hv ih => ih.of_rule hr hb hv

theorem ComesBehind.mem_follow (h : g.ComesBehind x y) (hx : x ∈ g.nonterminals) :
    y ∈ g.follow x := by
  rcases h with ⟨ht, b, -, u, v, hd⟩ | ⟨rfl, u, hd⟩
  · exact (keepsFollow_singleton b).derives hd u x (y :: v) y rfl hx ⟨Or.inl ht, v, .refl _⟩
  · have hend : g.Derives [g.start, .endOfInput] (u ++ [x] ++ [.endOfInput]) := hd.append (.refl _)
    exact mem_follow_of_derives hend (List.append_assoc u [x] _) hx
      ((begins_token_iff (Or.inr rfl)).mpr rfl)

/-- The FOLLOW set of a nonterminal holds exactly the tokens that come right behind it in derived
strings. -/
theorem mem_followSets_iff_derives (g : Grammar) :
    (∀ x ∈ g.nonterminals, ∃ follow, (g.followSets g.firstTable).get? x = some follow ∧
      ∀ y, y ∈ follow ↔ g.ComesBehind x y) ∧
    ∃ follow, (g.followSets g.firstTable).get? g.start = some follow ∧ .endOfInput ∈ follow := by
  refine ⟨fun x hx => ⟨g.follow x, get?_followSets hx, fun y => ?_⟩, ?_⟩
  · constructor
    · exact comesBehind_of_mem_follow
    · intro h
      exact h.mem_follow hx
  · exact ⟨g.follow g.start, get?_followSets g.start_mem_nonterminals, endOfInput_mem_follow_start⟩

def asideRules : Array Rule :=
  #[⟨.named "S", [.named "a"], 0⟩, ⟨.named "B", [.named "S", .named "N", .named "b"], 1⟩,
    ⟨.named "N", [], 2⟩]

/-- A grammar in which only an unreachable nonterminal brings a terminal behind the start symbol. -/
def aside : Grammar :=
  ofRules asideRules {
    nonempty := by decide
    size_le := by decide
    isNamed_head := by simp [asideRules, Symbol.isNamed]
    isNamed_body := by simp [asideRules, Symbol.isNamed]
    length_body_le := by simp [asideRules] }

/-- Behind `S` come `b`, which is derived from `B` only, and the end of the input. -/
theorem mem_followSets_iff_derives_aside : aside.unreachable = [.named "B", .named "N"] ∧
    ∃ follow, (aside.followSets aside.firstTable).get? (.named "S") = some follow ∧
      .named "b" ∈ follow ∧ .endOfInput ∈ follow := by
  refine ⟨by decide +kernel, ?_⟩
  obtain ⟨hentries, -⟩ := mem_followSets_iff_derives aside
  obtain ⟨follow, hget, hmem⟩ := hentries (.named "S") (by decide +kernel)
  have hrule : ⟨.named "B", [.named "S", .named "N", .named "b"], 1⟩ ∈ aside.rules := by
    decide +kernel
  have hvanish : aside.Derives [.named "N"] [] :=
    derives_rule (r := ⟨.named "N", [], 2⟩) (by decide +kernel)
  refine ⟨follow, hget, (hmem _).mpr (Or.inl ⟨?_, .named "B", ?_, [], [], ?_⟩),
    (hmem _).mpr (Or.inr ⟨rfl, [], ?_⟩)⟩
  · rw [← isTerminal_iff]
    decide +kernel
  · decide +kernel
  · exact (derives_rule hrule).trans (hvanish.context [.named "S"] [.named "b"])
  · have hstart : aside.start = .named "S" := by decide +kernel
    rw [hstart]
    exact .refl _

end GrammarTables.Grammar
