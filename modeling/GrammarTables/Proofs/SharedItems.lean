import GrammarTables.Proofs.AwaitedItems
import GrammarTables.Proofs.SharedRules

/-!
# Items of grammars that agree

The outline of an item tells what the item says without the id of its production. Grammars that
agree on reachable symbols await items with the same outlines after the same symbols
(`Awaits.exists_outline`), and an awaited item is known by its outline (`Awaits.eq_of_outline`).
-/

namespace GrammarTables

/-- An item without the id of its production. -/
structure Outline where
  head? : Option Symbol
  body : List Symbol
  dot : UInt16
  lookaheads : List Symbol

def Grammar.outline (g : Grammar) {ι : Type} [Item ι] (i : ι) : Outline where
  head? := g.head? (Item.core i).production
  body := g.body (Item.core i).production
  dot := (Item.core i).dot
  lookaheads := Item.lookaheads i

variable {g h : Grammar}

section Outline

variable {ι : Type} [Item ι] {i j : ι}

theorem remainder_eq_of_outline (ho : g.outline i = h.outline j) :
    (Item.core i).remainder g = (Item.core j).remainder h := by
  have hb : g.body (Item.core i).production = h.body (Item.core j).production :=
    congrArg Outline.body ho
  have hd : (Item.core i).dot = (Item.core j).dot := congrArg Outline.dot ho
  rw [DottedRule.remainder_eq, DottedRule.remainder_eq, hb, hd]

theorem next?_eq_of_outline (ho : g.outline i = h.outline j) :
    (Item.core i).next? g = (Item.core j).next? h :=
  congrArg List.head? (remainder_eq_of_outline ho)

theorem isComplete_eq_of_outline (ho : g.outline i = h.outline j) :
    (Item.core i).isComplete g = (Item.core j).isComplete h :=
  congrArg List.isEmpty (remainder_eq_of_outline ho)

theorem outline_core_eq (ho : g.outline i = h.outline j) :
    g.outline (Item.core i) = h.outline (Item.core j) :=
  congrArg (fun o => { o with lookaheads := [] }) ho

end Outline

/-- Items that are known by their cores and lookaheads, and that predict by the bodies of the symbol
after the dot and by what comes behind it. -/
class SharedItem (ι : Type) [PredictiveItem ι] : Prop extends LawfulItem ι where
  ext : ∀ i j : ι, Item.core i = Item.core j → Item.lookaheads i = Item.lookaheads j → i = j
  exists_predicts : ∀ (g h : Grammar) (i j k : ι), g.AgreeReachable h →
    (∀ x ∈ (Item.core i).remainder g, g.Reachable x) → g.Admissible i → h.Admissible j →
    g.outline i = h.outline j → g.Predicts i k → ∃ m, h.Predicts j m ∧ g.outline k = h.outline m

private theorem outline_alternative {x : Symbol} {p q : ProductionId} (hp : p ∈ g.alternatives x)
    (hq : q ∈ h.alternatives x) (hb : h.body q = g.body p) (y : Symbol) :
    g.outline (⟨⟨p, 0⟩, y⟩ : LookaheadItem) = h.outline (⟨⟨q, 0⟩, y⟩ : LookaheadItem) := by
  have hhead : g.head? p = h.head? q := by
    rw [Grammar.head?_of_mem_alternatives hp, Grammar.head?_of_mem_alternatives hq]
  change Outline.mk (g.head? p) (g.body p) 0 [y] = Outline.mk (h.head? q) (h.body q) 0 [y]
  rw [hhead, hb]

instance : SharedItem DottedRule where
  ext _ _ hc _ := hc
  exists_predicts g h i j k hgh hr _ _ ho hik := by
    obtain ⟨production, dot⟩ := k
    obtain ⟨x, hx, hp, rfl⟩ := DottedRule.predicts_iff.mp hik
    obtain ⟨rest, hrest⟩ := DottedRule.next?_eq_some_iff.mp hx
    obtain ⟨q, hq, hb⟩ := hgh.exists_alternative (hr x (by simp [Item.core, hrest])) hp
    refine ⟨⟨q, 0⟩, DottedRule.predicts_iff.mpr ⟨x, ?_, hq, rfl⟩, ?_⟩
    · exact (next?_eq_of_outline ho).symm.trans hx
    · exact outline_core_eq (outline_alternative hp hq hb .endOfInput)

instance : SharedItem LookaheadItem where
  ext i j hc hl := by
    cases i
    cases j
    cases hc
    cases hl
    rfl
  exists_predicts g h i j k hgh hr hi hj ho hik := by
    obtain ⟨⟨production, dot⟩, lookahead⟩ := k
    obtain ⟨x, rest, hrest, hp, rfl, hy⟩ := (LookaheadItem.predicts_iff hi).mp hik
    have hreach : ∀ z ∈ x :: rest, g.Reachable z := hrest ▸ hr
    obtain ⟨q, hq, hb⟩ := hgh.exists_alternative (hreach x (by simp)) hp
    have hlook : i.lookahead = j.lookahead := List.singleton_inj.mp (congrArg Outline.lookaheads ho)
    have hti : g.IsToken i.lookahead := hi.isToken _ (List.mem_singleton.mpr rfl)
    have htj : h.IsToken j.lookahead := hj.isToken _ (List.mem_singleton.mpr rfl)
    have hbegins : h.Begins (rest ++ [j.lookahead]) lookahead := by
      have hrest : ∀ z ∈ rest, g.Reachable z := fun z hz => hreach z (by simp [hz])
      rw [Grammar.begins_append, Grammar.begins_token_iff htj, ← hlook, ← hgh.agreeOn.begins_iff hrest,
        ← forall₂_congr fun z hz => hgh.agreeOn.mem_nullable_iff (hrest z hz)]
      rwa [Grammar.begins_append, Grammar.begins_token_iff hti] at hy
    refine ⟨⟨⟨q, 0⟩, lookahead⟩, (LookaheadItem.predicts_iff hj).mpr ?_, ?_⟩
    · exact ⟨x, rest, (remainder_eq_of_outline ho).symm.trans hrest, hq, rfl, hbegins⟩
    · exact outline_alternative hp hq hb lookahead

namespace Grammar

variable {ι : Type} [PredictiveItem ι] {l l' : List Symbol} {i j : ι}

section Lawful

variable [LawfulItem ι]

theorem Awaits.firstOccurrence (hi : g.Awaits l i) :
    g.FirstOccurrence (Item.core i).production := by
  induction hi with
  | initial =>
    rw [LawfulItem.core_initial]
    exact firstOccurrence_accept
  | predict hi hij _ =>
    obtain ⟨⟨x, -, hp⟩, -⟩ := LawfulItem.of_predicts g _ _ hi.admissible.belongs hij
    exact (mem_alternatives_iff.mp hp).1
  | shift _ _ ih =>
    rw [LawfulItem.core_shifted]
    exact ih

theorem Awaits.reachable (hi : g.Awaits l i) :
    ∀ x ∈ g.body (Item.core i).production, g.Reachable x := by
  induction hi with
  | initial =>
    intro x hx
    rw [LawfulItem.core_initial] at hx
    rw [List.mem_singleton.mp hx]
    exact reachable_start
  | @predict l i j hi hij ih =>
    intro y hy
    obtain ⟨⟨x, hx, hp⟩, -⟩ := LawfulItem.of_predicts g i j hi.admissible.belongs hij
    exact (ih x (DottedRule.mem_body_of_next? hx)).of_produces
      (exists_rule_of_head? (head?_of_mem_alternatives hp)) hy
  | shift _ _ ih =>
    rw [LawfulItem.core_shifted]
    exact ih

theorem Awaits.reachable_of_mem (hi : g.Awaits l i) : ∀ x ∈ l, g.Reachable x := by
  induction hi with
  | initial => simp
  | predict _ _ ih => exact ih
  | shift hi hx ih =>
    intro y hy
    rcases List.mem_append.mp hy with hy | hy
    · exact ih y hy
    · rw [List.mem_singleton.mp hy]
      exact hi.reachable _ (DottedRule.mem_body_of_next? hx)

theorem Awaits.core_eq_of_outline (hi : g.Awaits l i) (hj : g.Awaits l' j)
    (ho : g.outline (Item.core i) = g.outline (Item.core j)) : Item.core i = Item.core j :=
  congrArg₂ DottedRule.mk (hi.firstOccurrence.eq hj.firstOccurrence (congrArg Outline.head? ho)
    (congrArg Outline.body ho)) (congrArg Outline.dot ho)

end Lawful

variable [SharedItem ι]

/-- Grammars that agree await items with the same outlines. -/
theorem Awaits.exists_outline (hgh : g.AgreeReachable h) (hi : g.Awaits l i) :
    ∃ j : ι, h.Awaits l j ∧ g.outline i = h.outline j := by
  induction hi with
  | initial =>
    refine ⟨_, .initial, ?_⟩
    rw [outline, outline, LawfulItem.core_initial]
    exact congrArg (fun x => Outline.mk none [x] 0 _) hgh.start_eq
  | @predict l i k hi hik ih =>
    obtain ⟨j, hj, ho⟩ := ih
    have hr : ∀ x ∈ (Item.core i).remainder g, g.Reachable x := by
      intro x hx
      rw [DottedRule.remainder_eq] at hx
      exact hi.reachable x (List.mem_of_mem_drop hx)
    obtain ⟨m, hjm, hkm⟩ :=
      SharedItem.exists_predicts g h i j k hgh hr hi.admissible hj.admissible ho hik
    exact ⟨m, hj.predict hjm, hkm⟩
  | @shift l i x _ hx ih =>
    obtain ⟨j, hj, ho⟩ := ih
    refine ⟨_, hj.shift ((next?_eq_of_outline ho).symm.trans hx), ?_⟩
    rw [outline, outline, LawfulItem.core_shifted, LawfulItem.core_shifted,
      LawfulItem.lookaheads_shifted, LawfulItem.lookaheads_shifted]
    exact congrArg (fun o => { o with dot := o.dot + 1 }) ho

theorem Awaits.eq_of_outline (hi : g.Awaits l i) (hj : g.Awaits l' j)
    (ho : g.outline i = g.outline j) : i = j :=
  SharedItem.ext i j (hi.core_eq_of_outline hj (outline_core_eq ho))
    (congrArg Outline.lookaheads ho)

end Grammar

end GrammarTables
