import GrammarTables.Proofs.CanonicalCollection
import GrammarTables.Proofs.FollowSets

/-!
# Awaited items

What has been read when an item is awaited ends with the part of its body before the dot. An awaited
item with a lookahead reduces on a token that may follow its head, and leaving its lookahead out
gives an awaited core.
-/

namespace GrammarTables.Grammar

variable {g : Grammar} {l : List Symbol} {x : Symbol}

section Items

variable {ι : Type} [PredictiveItem ι] [LawfulItem ι] {i : ι}

theorem Awaits.admissible (h : g.Awaits l i) : g.Admissible i := by
  induction h with
  | initial => exact admissible_initial g
  | predict _ hij ih => exact ih.predicted hij
  | shift _ hx ih => exact ih.shifted hx

/-- The production is awaited in front of the part of its body that has been read. -/
theorem Awaits.exists_append (h : g.Awaits l i) : ∃ front j,
    l = front ++ (g.body (Item.core i).production).take (Item.core i).dot.toNat ∧
      Item.core j = ⟨(Item.core i).production, 0⟩ ∧ g.Awaits front (j : ι) := by
  induction h with
  | initial =>
    rw [LawfulItem.core_initial]
    exact ⟨[], _, rfl, LawfulItem.core_initial, .initial⟩
  | @predict l i j hi hij _ =>
    obtain ⟨-, hd, -⟩ := LawfulItem.of_predicts g i j hi.admissible.belongs hij
    exact ⟨l, j, by simp [hd], by rw [← hd], hi.predict hij⟩
  | @shift l i x _ hx ih =>
    obtain ⟨front, j, rfl, hj, hf⟩ := ih
    refine ⟨front, j, ?_, ?_, hf⟩
    · rw [LawfulItem.core_shifted, List.append_assoc]
      exact congrArg (front ++ ·) (DottedRule.take_shifted hx).symm
    · rw [LawfulItem.core_shifted]
      exact hj

theorem Awaits.exists_append_body (h : g.Awaits l i) (hc : (Item.core i).isComplete g = true) :
    ∃ front j, l = front ++ g.body (Item.core i).production ∧
      Item.core j = ⟨(Item.core i).production, 0⟩ ∧ g.Awaits front (j : ι) := by
  obtain ⟨front, j, hl, hj⟩ := h.exists_append
  rw [List.take_of_length_le (DottedRule.isComplete_iff.mp hc)] at hl
  exact ⟨front, j, hl, hj⟩

theorem dot_shifted_ne_zero (hx : (Item.core i).next? g = some x) :
    (Item.core (PredictiveItem.shifted i)).dot ≠ 0 := by
  intro hz
  have hs := DottedRule.dot_shifted hx
  rw [← LawfulItem.core_shifted, hz] at hs
  simp at hs

theorem Awaits.eq_nil_of_accept (h : g.Awaits l i) (hi : Item.core i = ⟨.accept, 0⟩) : l = [] := by
  cases h with
  | initial => rfl
  | predict hj hji =>
    obtain ⟨⟨x, -, hx⟩, -⟩ := LawfulItem.of_predicts g _ i hj.admissible.belongs hji
    rw [hi] at hx
    exact absurd rfl (ne_accept_of_head? (head?_of_mem_alternatives hx))
  | shift _ hx => exact absurd (congrArg DottedRule.dot hi) (dot_shifted_ne_zero hx)

theorem Awaits.eq_start_of_accept (h : g.Awaits l i) (hp : (Item.core i).production = .accept)
    (hc : (Item.core i).isComplete g = true) : l = [g.start] := by
  obtain ⟨front, j, rfl, hj, hf⟩ := h.exists_append_body hc
  rw [hp] at hj ⊢
  rw [hf.eq_nil_of_accept hj, List.nil_append, body_accept]

/-- A rule is awaited next to an item that expects its head. -/
theorem Awaits.exists_expects_head {p : ProductionId} (h : g.Awaits l i)
    (hi : Item.core i = ⟨p, 0⟩) (hp : p ≠ .accept) :
    ∃ x j, g.head? p = some x ∧ g.Awaits l (j : ι) ∧ (Item.core j).next? g = some x := by
  cases h with
  | initial =>
    rw [LawfulItem.core_initial] at hi
    exact absurd (congrArg DottedRule.production hi).symm hp
  | predict hj hji =>
    obtain ⟨⟨x, hx, ha⟩, -⟩ := LawfulItem.of_predicts g _ i hj.admissible.belongs hji
    rw [hi] at ha
    exact ⟨x, _, head?_of_mem_alternatives ha, hj, hx⟩
  | shift _ hx => exact absurd (congrArg DottedRule.dot hi) (dot_shifted_ne_zero hx)

end Items

/-! ### Lookaheads -/

section Lookaheads

variable {i : LookaheadItem}

theorem Awaits.core (h : g.Awaits l i) : g.Awaits l i.core := by
  induction h with
  | initial => exact .initial
  | predict hi hij ih =>
    obtain ⟨x, rest, hr, hp, hd, -⟩ := (LookaheadItem.predicts_iff hi.admissible).mp hij
    exact ih.predict (DottedRule.predicts_iff.mpr
      ⟨x, DottedRule.next?_eq_some_iff.mpr ⟨rest, hr⟩, hp, hd⟩)
  | shift _ hx ih => exact ih.shift hx

theorem Awaits.shift_take {p : ProductionId} {y : Symbol}
    (h : g.Awaits l (⟨⟨p, 0⟩, y⟩ : LookaheadItem)) {n : Nat} (hn : n ≤ (g.body p).length) :
    g.Awaits (l ++ (g.body p).take n) (⟨⟨p, .ofNat n⟩, y⟩ : LookaheadItem) := by
  induction n with
  | zero => simpa using h
  | succ n ih =>
    have hlt : n < (g.body p).length := hn
    have hdot := toNat_ofNat_of_le_length_body (Nat.le_of_lt hlt)
    have hnext : (⟨p, .ofNat n⟩ : DottedRule).next? g = some (g.body p)[n] := by
      rw [DottedRule.next?, DottedRule.remainder_eq, List.head?_drop, hdot]
      exact List.getElem?_eq_getElem hlt
    have hshift := (ih (Nat.le_of_lt hlt)).shift hnext
    rw [List.append_assoc, List.take_append_getElem hlt] at hshift
    have hsucc : UInt16.ofNat (n + 1) = UInt16.ofNat n + 1 := UInt16.ofNat_add n 1
    rw [hsucc]
    exact hshift

/-- Where the body of an awaited item is read up to a nonterminal, its alternatives are awaited with
each token that the rest of the body and the lookahead may bring next. -/
theorem Awaits.descend {u v : List Symbol} {p q : ProductionId} {y z : Symbol}
    (h : g.Awaits l (⟨⟨q, 0⟩, y⟩ : LookaheadItem)) (hb : g.body q = u ++ x :: v)
    (hp : p ∈ g.alternatives x) (hz : g.Begins (v ++ [y]) z) :
    g.Awaits (l ++ u) (⟨⟨p, 0⟩, z⟩ : LookaheadItem) := by
  have hlen : u.length ≤ (g.body q).length := by
    rw [hb, List.length_append]
    exact Nat.le_add_right _ _
  have hdot := toNat_ofNat_of_le_length_body hlen
  have hi := h.shift_take hlen
  rw [hb, List.take_left' rfl] at hi
  refine hi.predict ((LookaheadItem.predicts_iff hi.admissible).mpr ⟨x, v, ?_, hp, rfl, hz⟩)
  rw [DottedRule.remainder_eq, hdot, hb, List.drop_left' rfl]

/-- The tokens on which a completed core reduces in an SLR(1) table. -/
def followOn (g : Grammar) (d : DottedRule) : List Symbol :=
  match g.head? d.production with
  | none => [.endOfInput]
  | some head => (g.follow head).toList

theorem followOn_accept {d : DottedRule} (h : d.production = .accept) :
    g.followOn d = [.endOfInput] := by
  rw [followOn, h]
  rfl

theorem mem_followOn_iff {d : DottedRule} {y : Symbol} (h : g.head? d.production = some x) :
    y ∈ g.followOn d ↔ y ∈ g.follow x := by
  rw [followOn, h]
  rfl

theorem mem_follow_of_mem_followOn {d : DottedRule} {rest : List Symbol} {y z : Symbol}
    (hp : d.production ∈ g) (hr : d.remainder g = x :: rest) (hx : x ∈ g.nonterminals)
    (hy : y ∈ g.followOn d) (hz : g.Begins (rest ++ [y]) z) : z ∈ g.follow x := by
  rw [DottedRule.remainder_eq] at hr
  have hb := (List.take_append_drop d.dot.toNat (g.body d.production)).symm
  rw [hr] at hb
  rcases mem_iff.mp hp with ha | hrule
  · rw [followOn_accept ha, List.mem_singleton] at hy
    rw [ha, body_accept] at hb
    obtain ⟨-, hb⟩ | ⟨a, -, hb⟩ := List.append_eq_cons_iff.mp hb.symm
    · obtain ⟨rfl, rfl⟩ := List.cons_eq_cons.mp hb
      rw [hy, List.nil_append, begins_token_iff (Or.inr rfl)] at hz
      rw [hz]
      exact endOfInput_mem_follow_start
    · simp at hb
  · obtain ⟨r, hrule⟩ := hrule
    rw [mem_followOn_iff (head?_of_rule hrule)] at hy
    rw [body_of_rule hrule] at hb
    exact mem_follow_of_rule (rule_mem hrule) hb hx hy hz

theorem Awaits.lookahead_mem_followOn (h : g.Awaits l i) : i.lookahead ∈ g.followOn i.core := by
  induction h with
  | initial =>
    rw [followOn_accept rfl]
    exact List.mem_singleton.mpr rfl
  | predict hi hij ih =>
    obtain ⟨x, rest, hr, hp, -, hy⟩ := (LookaheadItem.predicts_iff hi.admissible).mp hij
    have hx := head?_of_mem_alternatives hp
    rw [mem_followOn_iff hx]
    exact mem_follow_of_mem_followOn hi.admissible.production_mem hr (mem_nonterminals_of_head? hx)
      ih hy
  | shift _ _ ih => exact ih

end Lookaheads

end GrammarTables.Grammar
