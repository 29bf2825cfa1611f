import GrammarTables.Proofs.FirstSets
import GrammarTables.Proofs.Productions
import GrammarTables.Proofs.Reachability

/-!
# Grammars with common rules

Two grammars agree on a set of symbols if each of the symbols has the same bodies in both, which are
strings of such symbols. Then these strings derive the same strings in both grammars and begin with
the same tokens, whatever the order of the rules is, how often they are repeated and what rules the
other symbols have. Grammars that agree on all symbols, or on those that can be reached, are the
cases in use.
-/

namespace GrammarTables.Grammar

variable {g h : Grammar} {x y : Symbol} {u v : List Symbol}

/-- Some rule has the head and the body. -/
def Produces (g : Grammar) (x : Symbol) (body : List Symbol) : Prop :=
  ∃ r ∈ g.rules, r.head = x ∧ r.body = body

theorem mem_nonterminals_iff_produces : x ∈ g.nonterminals ↔ ∃ body, g.Produces x body := by
  rw [mem_nonterminals]
  constructor
  · rintro ⟨r, hr, hx⟩
    exact ⟨r.body, r, hr, hx, rfl⟩
  · rintro ⟨_, r, hr, hx, -⟩
    exact ⟨r, hr, hx⟩

theorem Reachable.of_produces (hx : g.Reachable x) (hu : g.Produces x u) (hy : y ∈ u) :
    g.Reachable y := by
  obtain ⟨r, hr, rfl, rfl⟩ := hu
  exact hx.of_mem_body hr hy

theorem Reachable.mem_terminals_iff (hx : g.Reachable x) :
    x ∈ g.terminals ↔ x ∉ g.nonterminals := by
  have hknown : x ∈ g.terminals ∨ x ∈ g.nonterminals := by
    refine reachable_induction (P := fun x => x ∈ g.terminals ∨ x ∈ g.nonterminals)
      (Or.inr g.start_mem_nonterminals) ?_ hx
    intro r hr _ _ y hy
    exact mem_terminals_or_nonterminals hr hy
  exact ⟨not_mem_nonterminals_of_terminal, hknown.resolve_right⟩

/-! ### Agreement on a set of symbols -/

/-- The symbols of the set have the same bodies in both grammars, which stay within the set. -/
structure AgreeOn (S : Symbol → Prop) (g h : Grammar) : Prop where
  closed : ∀ x body, S x → g.Produces x body → ∀ y ∈ body, S y
  produces_iff : ∀ x, S x → ∀ body, g.Produces x body ↔ h.Produces x body
  mem_terminals_iff : ∀ x, S x → (x ∈ g.terminals ↔ x ∈ h.terminals)

namespace AgreeOn

variable {S : Symbol → Prop}

theorem symm (hgh : AgreeOn S g h) : AgreeOn S h g where
  closed x body hx hb := hgh.closed x body hx ((hgh.produces_iff x hx body).mpr hb)
  produces_iff x hx body := (hgh.produces_iff x hx body).symm
  mem_terminals_iff x hx := (hgh.mem_terminals_iff x hx).symm

theorem mem_nonterminals_iff (hgh : AgreeOn S g h) (hx : S x) :
    x ∈ g.nonterminals ↔ x ∈ h.nonterminals := by
  rw [mem_nonterminals_iff_produces, mem_nonterminals_iff_produces,
    exists_congr (hgh.produces_iff x hx)]

private theorem derives (hgh : AgreeOn S g h) (hu : ∀ x ∈ u, S x) (hd : g.Derives u v) :
    h.Derives u v ∧ ∀ x ∈ v, S x := by
  induction hd with
  | refl => exact ⟨.refl u, hu⟩
  | tail _ hs ih =>
    obtain ⟨p, q, r, hr⟩ := hs
    obtain ⟨hd, hall⟩ := ih
    have hhead := hall r.head (by simp)
    obtain ⟨s, hs, hsr, hbody⟩ := (hgh.produces_iff _ hhead _).mp ⟨r, hr, rfl, rfl⟩
    constructor
    · have hstep := Step.rewrite p q s hs
      rw [hsr, hbody] at hstep
      exact hd.tail hstep
    · intro x hx
      rcases List.mem_append.mp hx with hx | hx
      · rcases List.mem_append.mp hx with hx | hx
        · exact hall x (by simp [hx])
        · exact hgh.closed _ _ hhead ⟨r, hr, rfl, rfl⟩ x hx
      · exact hall x (by simp [hx])

theorem mem_nullable_iff (hgh : AgreeOn S g h) (hx : S x) : x ∈ g.nullable ↔ x ∈ h.nullable := by
  have hall : ∀ y ∈ [x], S y := by simpa using hx
  have hone {g : Grammar} : x ∈ g.nullable ↔ g.Derives [x] [] := by simp [derives_nil_iff]
  rw [hone, hone]
  exact ⟨fun hd => (hgh.derives hall hd).1, fun hd => (hgh.symm.derives hall hd).1⟩

private theorem begins (hgh : AgreeOn S g h) (hu : ∀ x ∈ u, S x) (hy : g.Begins u y) :
    h.Begins u y := by
  obtain ⟨ht, v, hd⟩ := hy
  obtain ⟨hd', hall⟩ := hgh.derives hu hd
  exact ⟨ht.imp_left (hgh.mem_terminals_iff y (hall y (by simp))).mp, v, hd'⟩

theorem begins_iff (hgh : AgreeOn S g h) (hu : ∀ x ∈ u, S x) : g.Begins u y ↔ h.Begins u y :=
  ⟨hgh.begins hu, hgh.symm.begins hu⟩

end AgreeOn

/-! ### Agreement on what can be reached -/

/-- The grammars have the same start symbol, and reachable symbols have the same bodies in both. -/
structure AgreeReachable (g h : Grammar) : Prop where
  start_eq : g.start = h.start
  produces_iff : ∀ x, g.Reachable x → ∀ body, g.Produces x body ↔ h.Produces x body

namespace AgreeReachable

private theorem reachable (hgh : g.AgreeReachable h) (hx : g.Reachable x) : h.Reachable x := by
  refine reachable_induction (P := h.Reachable) ?_ ?_ hx
  · rw [hgh.start_eq]
    exact reachable_start
  · intro r hr hg hh y hy
    exact hh.of_produces ((hgh.produces_iff _ hg _).mp ⟨r, hr, rfl, rfl⟩) hy

theorem symm (hgh : g.AgreeReachable h) : h.AgreeReachable g := by
  refine ⟨hgh.start_eq.symm, fun x hx body => (hgh.produces_iff x ?_ body).symm⟩
  refine reachable_induction (P := g.Reachable) ?_ ?_ hx
  · rw [← hgh.start_eq]
    exact reachable_start
  · intro r hr _ hg y hy
    exact hg.of_produces ((hgh.produces_iff _ hg _).mpr ⟨r, hr, rfl, rfl⟩) hy

theorem agreeOn (hgh : g.AgreeReachable h) : AgreeOn g.Reachable g h where
  closed _ _ hx hb _ hy := hx.of_produces hb hy
  produces_iff := hgh.produces_iff
  mem_terminals_iff x hx := by
    rw [hx.mem_terminals_iff, (hgh.reachable hx).mem_terminals_iff, mem_nonterminals_iff_produces,
      mem_nonterminals_iff_produces, exists_congr (hgh.produces_iff x hx)]

theorem exists_alternative (hgh : g.AgreeReachable h) (hx : g.Reachable x) {p : ProductionId}
    (hp : p ∈ g.alternatives x) : ∃ q ∈ h.alternatives x, h.body q = g.body p := by
  obtain ⟨r, hr, hhead, hbody⟩ := exists_rule_of_head? (head?_of_mem_alternatives hp)
  obtain ⟨s, hs, rfl, hsb⟩ := (hgh.produces_iff x hx _).mp ⟨r, hr, hhead, hbody⟩
  obtain ⟨q, hq, hqb⟩ := Grammar.exists_alternative hs
  exact ⟨q, hq, hqb.trans hsb⟩

end AgreeReachable

end GrammarTables.Grammar
