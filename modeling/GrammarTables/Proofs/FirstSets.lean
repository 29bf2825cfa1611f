import GrammarTables.Analysis
import GrammarTables.Proofs.Derivation
import GrammarTables.Proofs.Inference
import GrammarTables.Proofs.Outcomes
import GrammarTables.Proofs.TransitiveClosure

/-!
# First symbols

Left corners lead from a nonterminal to the symbols that begin the strings derived from it, and its
FIRST set holds the terminals among them (`mem_first_iff_leftCorners`). `firstOf` finds the tokens
that begin a string derived from a given one (`mem_firstOf_iff`).
-/

namespace GrammarTables

theorem mem_leading_iff {nullable : OrderedSet Symbol} {x : Symbol} {l : List Symbol} :
    x ∈ leading nullable l ↔ ∃ u v, l = u ++ x :: v ∧ ∀ z ∈ u, z ∈ nullable := by
  induction l with
  | nil => simp
  | cons y l ih =>
    rw [leading_cons, List.mem_cons]
    constructor
    · intro h
      rcases h with rfl | h
      · exact ⟨[], l, rfl, by simp⟩
      · split at h
        · rename_i hy
          obtain ⟨u, v, rfl, hu⟩ := ih.mp h
          exact ⟨y :: u, v, rfl, by simpa [hy] using hu⟩
        · simp at h
    · intro h
      obtain ⟨u, v, hl, hu⟩ := h
      cases u with
      | nil => exact Or.inl (List.cons_eq_cons.mp hl).1.symm
      | cons z u =>
        obtain ⟨rfl, rfl⟩ := List.cons_eq_cons.mp hl
        rw [if_pos (hu y (by simp))]
        exact Or.inr (ih.mpr ⟨u, v, rfl, fun z hz => hu z (by simp [hz])⟩)

theorem mem_of_mem_leading {nullable : OrderedSet Symbol} {x : Symbol} {l : List Symbol}
    (h : x ∈ leading nullable l) : x ∈ l := by
  obtain ⟨u, v, rfl, -⟩ := mem_leading_iff.mp h
  simp

theorem mem_leading_iff_standsBetween {nullable : OrderedSet Symbol} {x : Symbol}
    {l : List Symbol} :
    x ∈ leading nullable l ↔ StandsBetween (· ∈ nullable) (fun _ => True) x l := by
  simp [mem_leading_iff, StandsBetween]

theorem mem_leading_append {nullable : OrderedSet Symbol} {x : Symbol} {u v : List Symbol} :
    x ∈ leading nullable (u ++ v) ↔
      x ∈ leading nullable u ∨ (∀ z ∈ u, z ∈ nullable) ∧ x ∈ leading nullable v := by
  simp [mem_leading_iff_standsBetween, standsBetween_append]

/-- The next token of an input, after which the input ends. -/
def nextToken (w : List Symbol) : Symbol := w.headD .endOfInput

namespace Grammar

variable {g : Grammar} {x y z : Symbol} {u : List Symbol}

def IsToken (g : Grammar) (y : Symbol) : Prop := y ∈ g.terminals ∨ y = .endOfInput

instance (g : Grammar) (y : Symbol) : Decidable (g.IsToken y) :=
  inferInstanceAs (Decidable (y ∈ g.terminals ∨ y = .endOfInput))

/-- The token begins a string that is derived from the given one. -/
def Begins (g : Grammar) (u : List Symbol) (y : Symbol) : Prop :=
  g.IsToken y ∧ ∃ v, g.Derives u (y :: v)

def first (g : Grammar) (x : Symbol) : OrderedSet Symbol := g.firstTable.sets.getD x ∅

theorem IsToken.not_mem_nonterminals (h : g.IsToken y) : y ∉ g.nonterminals := by
  rcases h with h | rfl
  · exact not_mem_nonterminals_of_terminal h
  · exact endOfInput_not_mem_nonterminals

theorem stopsAt_iff : g.firstTable.stopsAt y = true ↔ g.IsToken y := by
  simp only [FirstTable.stopsAt, firstTable, IsToken, Bool.or_eq_true, decide_eq_true_eq,
    OrderedSet.contains_iff]
  exact or_comm

theorem get?_firstSets :
    g.firstTable.sets.get? x = if x ∈ g.nonterminals then some (g.first x) else none := by
  simp only [first, firstTable, firstSets, OrderedMap.getD, OrderedMap.get?_ofKeys]
  by_cases hx : x ∈ g.nonterminals
  · simp [hx]
  · simp [hx]

/-! ### Left corners -/

/-- The second symbol stands in a body of the first, behind symbols that may vanish. -/
def LeftCorner (g : Grammar) (x z : Symbol) : Prop :=
  g.Brings (· ∈ g.nullable) (fun _ => True) x z

theorem leftCorner_iff :
    g.LeftCorner x z ↔ ∃ r ∈ g.rules, r.head = x ∧ z ∈ leading g.nullable r.body := by
  simp only [LeftCorner, Brings, mem_leading_iff_standsBetween]

theorem mem_nonterminals_of_leftCorners (h : Relation.TransGen g.LeftCorner x z) :
    x ∈ g.nonterminals := by
  obtain ⟨y, hxy, -⟩ := Relation.TransGen.head'_iff.mp h
  exact hxy.mem_nonterminals

private theorem edge_directFirst_iff :
    (g.directFirst g.nullable).Edge x y ↔ g.LeftCorner x y ∧ y ∉ g.nonterminals := by
  rw [Relation.Edge, directFirst, Relation.mem_targets_ofEdges, leftCorner_iff]
  simp only [List.mem_flatMap, List.mem_map, List.mem_filter, Array.mem_toList_iff, Prod.mk.injEq,
    Bool.not_eq_true', ← Bool.not_eq_true, isNonterminal_iff]
  grind

private theorem edge_inheritedFirst_eq : (g.inheritedFirst g.nullable).Edge =
    fun x y => g.LeftCorner x y ∧ y ∈ g.nonterminals := by
  funext x y
  rw [Relation.Edge, inheritedFirst, Relation.mem_targets_ofEdges, leftCorner_iff]
  simp only [List.mem_flatMap, List.mem_map, List.mem_filter, Array.mem_toList_iff, Prod.mk.injEq,
    isNonterminal_iff]
  grind

private theorem mem_first_iff : y ∈ g.first x ↔ x ∈ g.nonterminals ∧
    ∃ z, Relation.ReflTransGen (g.inheritedFirst g.nullable).Edge x z ∧
      (g.directFirst g.nullable).Edge z y := by
  rw [← Relation.edge_propagate_iff]
  simp only [first, firstTable, firstSets, OrderedMap.getD, OrderedMap.get?_ofKeys]
  by_cases hx : x ∈ g.nonterminals
  · simp [hx, Relation.Edge]
  · simp only [hx, if_false, Option.getD_none, false_and, iff_false]
    exact List.not_mem_nil

/-- The FIRST set of a nonterminal holds the symbols that left corners lead to, nonterminals
apart. -/
theorem mem_first_iff_leftCorners :
    y ∈ g.first x ↔ Relation.TransGen g.LeftCorner x y ∧ y ∉ g.nonterminals := by
  have hchain : Relation.TransGen g.LeftCorner x y ↔
      ∃ z, Relation.ReflTransGen (fun x y => g.LeftCorner x y ∧ y ∈ g.nonterminals) x z ∧
        g.LeftCorner z y := transGen_brings_iff
  rw [mem_first_iff, edge_inheritedFirst_eq]
  constructor
  · rintro ⟨-, z, hxz, hzy⟩
    obtain ⟨hzy, hy⟩ := edge_directFirst_iff.mp hzy
    exact ⟨hchain.mpr ⟨z, hxz, hzy⟩, hy⟩
  · rintro ⟨hxy, hy⟩
    obtain ⟨z, hxz, hzy⟩ := hchain.mp hxy
    exact ⟨mem_nonterminals_of_leftCorners hxy, z, hxz, edge_directFirst_iff.mpr ⟨hzy, hy⟩⟩

theorem mem_nonterminals_of_mem_first (h : y ∈ g.first x) : x ∈ g.nonterminals :=
  mem_nonterminals_of_leftCorners (mem_first_iff_leftCorners.mp h).1

theorem mem_terminals_of_mem_first (h : y ∈ g.first x) : y ∈ g.terminals := by
  obtain ⟨hcorners, hn⟩ := mem_first_iff_leftCorners.mp h
  obtain ⟨z, -, hzy⟩ := Relation.TransGen.tail'_iff.mp hcorners
  obtain ⟨r, hr, -, hy⟩ := leftCorner_iff.mp hzy
  exact (mem_terminals_or_nonterminals hr (mem_of_mem_leading hy)).resolve_right hn

theorem exists_derives_cons_iff : (∃ v, g.Derives u (z :: v)) ↔
    ∃ x ∈ leading g.nullable u, Relation.ReflTransGen g.LeftCorner x z := by
  simp only [mem_leading_iff_standsBetween]
  refine Iff.trans ?_ (derives_standsBetween_iff g.handedUp_nullable g.handedUp_true)
  constructor
  · rintro ⟨v, h⟩
    exact ⟨z :: v, h, [], v, rfl, by simp, by simp⟩
  · rintro ⟨t, h, p, q, rfl, hp, -⟩
    exact ⟨q, h.trans ((derives_nil_iff.mpr hp).append (.refl (z :: q)))⟩

/-! ### What a symbol begins with -/

/-- A symbol begins with its FIRST set, a terminal with itself. -/
def StartsWith (g : Grammar) (x y : Symbol) : Prop :=
  x ∉ g.nonterminals ∧ y = x ∨ y ∈ g.first x

private theorem reflTransGen_leftCorner_iff (hy : y ∉ g.nonterminals) :
    Relation.ReflTransGen g.LeftCorner z y ↔ g.StartsWith z y := by
  rw [Relation.reflTransGen_iff_eq_or_transGen, StartsWith, mem_first_iff_leftCorners,
    and_iff_left hy]
  apply or_congr_left
  constructor
  · rintro rfl
    exact ⟨hy, rfl⟩
  · exact And.right

/-- The string begins with what one of its leading symbols starts with. -/
def LeadsWith (g : Grammar) (u : List Symbol) (y : Symbol) : Prop :=
  ∃ z ∈ leading g.nullable u, g.StartsWith z y

theorem leadsWith_append {v : List Symbol} : g.LeadsWith (u ++ v) y ↔
    g.LeadsWith u y ∨ (∀ x ∈ u, x ∈ g.nullable) ∧ g.LeadsWith v y := by
  simp only [LeadsWith, mem_leading_append]
  grind

theorem leadsWith_singleton : g.LeadsWith [x] y ↔ g.StartsWith x y := by
  simp [LeadsWith, leading_cons]

/-- A symbol that is not replaced begins a derived string exactly if a leading symbol of the string
starts with it. -/
theorem exists_derives_iff (hy : y ∉ g.nonterminals) :
    (∃ v, g.Derives u (y :: v)) ↔ g.LeadsWith u y := by
  simp only [exists_derives_cons_iff, reflTransGen_leftCorner_iff hy, LeadsWith]

private theorem derives_of_mem_first (h : y ∈ g.first x) : ∃ v, g.Derives [x] (y :: v) :=
  (exists_derives_iff (mem_first_iff_leftCorners.mp h).2).mpr (leadsWith_singleton.mpr (Or.inr h))

theorem begins_of_mem_first (h : y ∈ g.first x) : g.Begins [x] y :=
  ⟨Or.inl (mem_terminals_of_mem_first h), derives_of_mem_first h⟩

theorem mem_first_iff_begins (hx : x ∈ g.nonterminals) : y ∈ g.first x ↔ g.Begins [x] y := by
  constructor
  · exact begins_of_mem_first
  · intro h
    have hs := (exists_derives_iff h.1.not_mem_nonterminals).mp h.2
    exact (leadsWith_singleton.mp hs).resolve_left fun hn => hn.1 hx

/-! ### First symbols of strings -/

theorem begins_iff : g.Begins u y ↔ g.IsToken y ∧ g.LeadsWith u y :=
  and_congr_right fun hy => exists_derives_iff hy.not_mem_nonterminals

theorem begins_append {v : List Symbol} : g.Begins (u ++ v) y ↔
    g.Begins u y ∨ (∀ x ∈ u, x ∈ g.nullable) ∧ g.Begins v y := by
  simp only [begins_iff, leadsWith_append]
  grind

theorem begins_cons :
    g.Begins (x :: u) y ↔ g.Begins [x] y ∨ x ∈ g.nullable ∧ g.Begins u y := by
  rw [← List.singleton_append, begins_append]
  simp

theorem Begins.of_leading {v : List Symbol} (h : g.Begins [x] y) (hu : ∀ z ∈ u, z ∈ g.nullable) :
    g.Begins (u ++ x :: v) y := by
  rw [begins_append, begins_cons]
  exact Or.inr ⟨hu, Or.inl h⟩

theorem Begins.of_derives {v : List Symbol} (h : g.Begins v y) (hd : g.Derives u v) :
    g.Begins u y := by
  obtain ⟨hy, w, hw⟩ := h
  exact ⟨hy, w, hd.trans hw⟩

theorem begins_token_iff (hx : g.IsToken x) : g.Begins [x] y ↔ y = x := by
  have hf : y ∉ g.first x := fun hy => hx.not_mem_nonterminals (mem_nonterminals_of_mem_first hy)
  rw [begins_iff, leadsWith_singleton, StartsWith]
  constructor
  · intro h
    exact (h.2.resolve_right hf).2
  · intro h
    subst h
    exact ⟨hx, Or.inl ⟨hx.not_mem_nonterminals, rfl⟩⟩

/-- Whatever a rule hands on from a leading symbol of its body to its head holds of all nonterminals
that begin with the token. -/
theorem first_induction {P : Symbol → Prop}
    (step : ∀ r ∈ g.rules, ∀ u z v, r.body = u ++ z :: v → (∀ a ∈ u, a ∈ g.nullable) →
      z ∉ g.nonterminals ∧ y = z ∨ y ∈ g.first z ∧ P z → P r.head) (h : y ∈ g.first x) : P x := by
  obtain ⟨hcorners, hn⟩ := mem_first_iff_leftCorners.mp h
  clear h
  induction hcorners using Relation.TransGen.head_induction_on with
  | single hxy =>
    obtain ⟨r, hr, rfl, hy⟩ := leftCorner_iff.mp hxy
    obtain ⟨u, v, hb, hu⟩ := mem_leading_iff.mp hy
    exact step r hr u y v hb hu (Or.inl ⟨hn, rfl⟩)
  | @head _ w hxw hwy ih =>
    obtain ⟨r, hr, rfl, hw⟩ := leftCorner_iff.mp hxw
    obtain ⟨u, v, hb, hu⟩ := mem_leading_iff.mp hw
    exact step r hr u w v hb hu (Or.inr ⟨mem_first_iff_leftCorners.mpr ⟨hwy, hn⟩, ih⟩)

theorem mem_first_iff_rule :
    y ∈ g.first x ↔ ∃ r ∈ g.rules, r.head = x ∧ g.Begins r.body y := by
  constructor
  · intro h
    obtain ⟨hcorners, hn⟩ := mem_first_iff_leftCorners.mp h
    obtain ⟨z, hxz, hzy⟩ := Relation.TransGen.head'_iff.mp hcorners
    obtain ⟨r, hr, hx, hz⟩ := leftCorner_iff.mp hxz
    exact ⟨r, hr, hx, begins_iff.mpr
      ⟨Or.inl (mem_terminals_of_mem_first h), z, hz, (reflTransGen_leftCorner_iff hn).mp hzy⟩⟩
  · rintro ⟨r, hr, rfl, hy⟩
    obtain ⟨ht, z, hz, hzy⟩ := begins_iff.mp hy
    have hn := ht.not_mem_nonterminals
    exact mem_first_iff_leftCorners.mpr ⟨.head' (leftCorner_iff.mpr ⟨r, hr, rfl, hz⟩)
      ((reflTransGen_leftCorner_iff hn).mpr hzy), hn⟩

/-! ### The next token -/

theorem isToken_nextToken {w : List Symbol} (hw : g.TerminalString w) :
    g.IsToken (nextToken w) := by
  cases w with
  | nil => exact Or.inr rfl
  | cons x w => exact Or.inl (terminalString_cons.mp hw).1

theorem nextToken_eq_endOfInput_iff {w : List Symbol} (hw : g.TerminalString w) :
    nextToken w = .endOfInput ↔ w = [] := by
  cases w with
  | nil => simp [nextToken]
  | cons x w =>
    have hx : x ≠ .endOfInput := by
      intro h
      rw [h] at hw
      exact endOfInput_not_mem_terminals (terminalString_cons.mp hw).1
    simp [nextToken, hx]

theorem begins_or_eq_nil {v w : List Symbol} (h : g.Derives u v) (hv : g.TerminalString v) :
    g.Begins u (nextToken (v ++ w)) ∨ v = [] ∧ ∀ x ∈ u, x ∈ g.nullable := by
  cases v with
  | nil => exact Or.inr ⟨rfl, derives_nil_iff.mp h⟩
  | cons z v => exact Or.inl ⟨Or.inl (terminalString_cons.mp hv).1, v, h⟩

theorem begins_nextToken {v w : List Symbol} (h : g.Derives u v) (hv : g.TerminalString v)
    (hw : g.IsToken (nextToken w)) :
    g.Begins (u ++ [nextToken w]) (nextToken (v ++ w)) := by
  rw [begins_append]
  rcases begins_or_eq_nil (w := w) h hv with hb | hn
  · exact Or.inl hb
  · obtain ⟨rfl, hn⟩ := hn
    exact Or.inr ⟨hn, (begins_token_iff hw).mpr rfl⟩

/-! ### The computed first symbols -/

theorem firstTable_nullable : g.firstTable.nullable = g.nullable := rfl

theorem scan_cons_token (hx : g.IsToken x) (acc : OrderedSet Symbol) :
    g.firstTable.scan acc (x :: u) = .ok (acc.insert x, false) := by
  rw [FirstTable.scan, if_pos (stopsAt_iff.mpr hx)]

theorem scan_cons_nonterminal (hx : x ∈ g.nonterminals) (acc : OrderedSet Symbol) :
    g.firstTable.scan acc (x :: u) = if x ∈ g.nullable
      then g.firstTable.scan (acc.union (g.first x)) u
      else .ok (acc.union (g.first x), false) := by
  have ht : ¬g.IsToken x := fun ht => ht.not_mem_nonterminals hx
  rw [FirstTable.scan, if_neg (mt stopsAt_iff.mp ht), get?_firstSets, if_pos hx]
  simp only [firstTable_nullable, OrderedSet.contains_iff]

theorem scan_cons_unknown (ht : ¬g.IsToken x) (hn : x ∉ g.nonterminals) (acc : OrderedSet Symbol) :
    g.firstTable.scan acc (x :: u) = .error (.unexpectedSymbol x) := by
  rw [FirstTable.scan, if_neg (mt stopsAt_iff.mp ht), get?_firstSets, if_neg hn]

private theorem scan_spec {acc s : OrderedSet Symbol} {b : Bool}
    (h : g.firstTable.scan acc u = .ok (s, b)) :
    (∀ y, y ∈ s ↔ y ∈ acc ∨ g.IsToken y ∧ g.LeadsWith u y) ∧
      (b = true ↔ ∀ x ∈ u, x ∈ g.nullable) := by
  induction u generalizing acc with
  | nil =>
    cases h
    simp [LeadsWith]
  | cons x u ih =>
    have hcons (y : Symbol) : g.LeadsWith (x :: u) y ↔
        g.StartsWith x y ∨ x ∈ g.nullable ∧ g.LeadsWith u y := by
      rw [← List.singleton_append, leadsWith_append, leadsWith_singleton]
      simp
    by_cases ht : g.IsToken x
    · rw [scan_cons_token ht] at h
      cases h
      have hn := ht.not_mem_nonterminals
      have hx : x ∉ g.nullable := fun hx => hn (mem_nonterminals_of_nullable hx)
      have hf (y : Symbol) : y ∉ g.first x := fun hy => hn (mem_nonterminals_of_mem_first hy)
      refine ⟨fun y => ?_, by simp [hx]⟩
      simp only [OrderedSet.mem_insert, hcons, StartsWith]
      grind
    · by_cases hn : x ∈ g.nonterminals
      · have hstart (y : Symbol) : g.IsToken y ∧ g.StartsWith x y ↔ y ∈ g.first x := by
          simp only [StartsWith, hn, not_true_eq_false, false_and, false_or,
            and_iff_right_iff_imp]
          exact fun hy => Or.inl (mem_terminals_of_mem_first hy)
        rw [scan_cons_nonterminal hn] at h
        split at h
        · rename_i hx
          obtain ⟨hm, hb⟩ := ih h
          refine ⟨fun y => ?_, by simp [hb, hx]⟩
          rw [hm, OrderedSet.mem_union, ← hstart, hcons]
          grind
        · rename_i hx
          cases h
          refine ⟨fun y => ?_, by simp [hx]⟩
          rw [OrderedSet.mem_union, ← hstart, hcons]
          grind
      · rw [scan_cons_unknown ht hn] at h
        cases h

/-- The first symbols of a string are the tokens that begin a string derived from it. -/
theorem mem_firstOf_iff {s : OrderedSet Symbol} (h : g.firstTable.firstOf u = .ok s) :
    y ∈ s ↔ g.Begins u y := by
  rw [FirstTable.firstOf] at h
  obtain ⟨result, hs, hr⟩ := bind_eq_ok_iff.mp h
  cases hr
  have he : y ∉ (∅ : OrderedSet Symbol) := List.not_mem_nil
  rw [(scan_spec hs).1, begins_iff, or_iff_right he]

private theorem exists_scan (h : ∀ x ∈ u, g.IsToken x ∨ x ∈ g.nonterminals)
    (acc : OrderedSet Symbol) : ∃ result, g.firstTable.scan acc u = .ok result := by
  induction u generalizing acc with
  | nil => exact ⟨_, rfl⟩
  | cons x u ih =>
    rcases h x (by simp) with ht | hn
    · exact ⟨_, scan_cons_token ht acc⟩
    · rw [scan_cons_nonterminal hn]
      split
      · exact ih (fun y hy => h y (by simp [hy])) _
      · exact ⟨_, rfl⟩

theorem exists_firstOf (h : ∀ x ∈ u, g.IsToken x ∨ x ∈ g.nonterminals) :
    ∃ s, g.firstTable.firstOf u = .ok s := by
  obtain ⟨⟨s, b⟩, hs⟩ := exists_scan h ∅
  refine ⟨s, ?_⟩
  rw [FirstTable.firstOf, hs]
  rfl

theorem exists_firstOf_body {r : Rule} (hr : r ∈ g.rules) :
    ∃ s, g.firstTable.firstOf r.body = .ok s :=
  exists_firstOf fun _ hx => (mem_terminals_or_nonterminals hr hx).imp_left Or.inl

theorem isNullable_eq_map_scan (acc : OrderedSet Symbol) (u : List Symbol) :
    g.firstTable.isNullable u = (g.firstTable.scan acc u).map Prod.snd := by
  induction u generalizing acc with
  | nil => rfl
  | cons x u ih =>
    rw [FirstTable.isNullable]
    by_cases ht : g.IsToken x
    · rw [if_pos (stopsAt_iff.mpr ht), scan_cons_token ht]
      rfl
    · rw [if_neg (mt stopsAt_iff.mp ht)]
      have hk : g.firstTable.sets.keys.contains x = true ↔ x ∈ g.nonterminals :=
        OrderedSet.contains_iff
      by_cases hn : x ∈ g.nonterminals
      · rw [hk.mpr hn, scan_cons_nonterminal hn, firstTable_nullable]
        by_cases hx : x ∈ g.nullable
        · rw [if_pos hx, ← ih, OrderedSet.contains_iff.mpr hx]
          rfl
        · have hc : g.nullable.contains x = false := by
            rw [← Bool.not_eq_true, OrderedSet.contains_iff]
            exact hx
          rw [if_neg hx, hc]
          rfl
      · have hc : g.firstTable.sets.keys.contains x = false := by
          rw [← Bool.not_eq_true, hk]
          exact hn
        rw [hc, scan_cons_unknown ht hn]
        rfl

theorem eq_true_iff_of_isNullable {b : Bool} (h : g.firstTable.isNullable u = .ok b) :
    b = true ↔ ∀ x ∈ u, x ∈ g.nullable := by
  rw [isNullable_eq_map_scan ∅] at h
  cases hs : g.firstTable.scan ∅ u with
  | error e =>
    rw [hs] at h
    cases h
  | ok result =>
    rw [hs] at h
    cases h
    exact (scan_spec hs).2

theorem isNullable_eq_ok (h : ∀ x ∈ u, g.IsToken x ∨ x ∈ g.nonterminals) :
    g.firstTable.isNullable u = .ok (u.all g.nullable.contains) := by
  obtain ⟨⟨s, b⟩, hs⟩ := exists_scan h ∅
  have hb : g.firstTable.isNullable u = .ok b := by
    rw [isNullable_eq_map_scan ∅, hs]
    rfl
  rw [hb, Except.ok.injEq, Bool.eq_iff_iff, eq_true_iff_of_isNullable hb]
  simp [OrderedSet.contains_iff]

/-! ### The map of FIRST sets -/

/-- The map has one entry for every nonterminal, in their order. The entry holds the terminals that
the sentential forms of the nonterminal begin with. -/
theorem mem_firstSets_iff_derives (g : Grammar) :
    g.firstTable.sets.toList.map Prod.fst = g.nonterminals.toList ∧
      ∀ x ∈ g.nonterminals, ∃ first, g.firstTable.sets.get? x = some first ∧
        ∀ y, y ∈ first ↔ y ∈ g.terminals ∧ ∃ v, g.Derives [x] (y :: v) := by
  refine ⟨OrderedMap.map_fst_toList _, fun x hx => ⟨g.first x, ?_, fun y => ?_⟩⟩
  · rw [get?_firstSets, if_pos hx]
  · constructor
    · intro hy
      exact ⟨mem_terminals_of_mem_first hy, derives_of_mem_first hy⟩
    · intro h
      obtain ⟨ht, hv⟩ := h
      exact (mem_first_iff_begins hx).mpr ⟨Or.inl ht, hv⟩

def hiddenLoopRules : Array Rule :=
  #[⟨.named "S", [.named "N", .named "S", .named "a"], 0⟩, ⟨.named "S", [.named "L"], 1⟩,
    ⟨.named "S", [.named "c"], 2⟩, ⟨.named "N", [], 3⟩, ⟨.named "N", [.named "n"], 4⟩,
    ⟨.named "L", [.named "L"], 5⟩]

/-- A cyclic grammar with hidden left recursion, in which a FIRST set is empty. -/
def hiddenLoop : Grammar :=
  ofRules hiddenLoopRules {
    nonempty := by decide
    size_le := by decide
    isNamed_head := by simp [hiddenLoopRules, Symbol.isNamed]
    isNamed_body := by simp [hiddenLoopRules, Symbol.isNamed]
    length_body_le := by simp [hiddenLoopRules] }

/-- Sentential forms of `S` begin with `c` and `n`, and none of `L` begins with a terminal. -/
theorem mem_firstSets_iff_derives_hiddenLoop :
    (∀ y, y ∈ hiddenLoop.terminals ∧ (∃ v, hiddenLoop.Derives [.named "S"] (y :: v)) ↔
      y = .named "c" ∨ y = .named "n") ∧
    ∀ y, ¬(y ∈ hiddenLoop.terminals ∧ ∃ v, hiddenLoop.Derives [.named "L"] (y :: v)) := by
  obtain ⟨-, hentries⟩ := mem_firstSets_iff_derives hiddenLoop
  obtain ⟨s, hs, hmem⟩ := hentries (.named "S") (by decide +kernel)
  obtain ⟨l, hl, hnone⟩ := hentries (.named "L") (by decide +kernel)
  have hs' : (hiddenLoop.firstTable.sets.get? (.named "S")).map OrderedSet.toList =
      some [.named "c", .named "n"] := by decide +kernel
  have hl' : (hiddenLoop.firstTable.sets.get? (.named "L")).map OrderedSet.toList = some [] := by
    decide +kernel
  rw [hs, Option.map_some, Option.some.injEq] at hs'
  rw [hl, Option.map_some, Option.some.injEq] at hl'
  constructor
  · intro y
    rw [← hmem, ← OrderedSet.mem_toList, hs']
    simp
  · intro y
    rw [← hnone, ← OrderedSet.mem_toList, hl']
    simp

end Grammar

end GrammarTables
