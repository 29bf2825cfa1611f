import GrammarTables.Proofs.Guides

/-!
# Moves of a parser

A parser keeps a stack of states and the rest of its input. Where the automaton guides the parser,
the states of the stack are those after the prefixes of a string of symbols, and a string with the
rest of the input derives what was read before.
-/

namespace GrammarTables

/-- The states of a parser, the last one first, and the rest of its input. -/
structure Configuration where
  stack : List StateId
  input : List Symbol

namespace ActionTable

/-- One move: the next token is shifted, or a rule is reduced. -/
inductive MovesTo (g : Grammar) (table : ActionTable) : Configuration → Configuration → Prop where
  | shift {q q' : StateId} {stack : List StateId} {x : Symbol} {w : List Symbol} {acts : Actions}
    (hc : table.cell? q x = some acts) (hq : acts.shift = some q') :
    MovesTo g table ⟨q :: stack, x :: w⟩ ⟨q' :: q :: stack, w⟩
  | reduce {q q' q₀ : StateId} {stack rest : List StateId} {w : List Symbol} {acts : Actions}
    {p : ProductionId} {x : Symbol} (hc : table.cell? q (nextToken w) = some acts)
    (hp : p ∈ acts.reduces) (hx : g.head? p = some x)
    (hd : (q :: stack).drop (g.body p).length = q₀ :: rest) (hq : table.goto? q₀ x = some q') :
    MovesTo g table ⟨q :: stack, w⟩ ⟨q' :: q₀ :: rest, w⟩

/-- The augmented production may be reduced. -/
def Accepting (table : ActionTable) (c : Configuration) : Prop :=
  ∃ q stack acts, c.stack = q :: stack ∧ table.cell? q (nextToken c.input) = some acts ∧
    .accept ∈ acts.reduces

/-- Some moves lead from the initial state to acceptance. -/
def Accepts (g : Grammar) (table : ActionTable) (w : List Symbol) : Prop :=
  ∃ c, Relation.ReflTransGen (table.MovesTo g) ⟨[.ofIndex 0], w⟩ c ∧ table.Accepting c

/-- The accepted strings of terminals are the sentences of the grammar. -/
def Recognizes (g : Grammar) (table : ActionTable) : Prop :=
  ∀ w, g.TerminalString w → (table.Accepts g w ↔ g.Derives [g.start] w)

end ActionTable

/-! ### Stacks -/

namespace Automaton

variable {ι : Type} (a : Automaton ι)

/-- The stack holds the states after the prefixes of a string of symbols. -/
inductive StackFor : List Symbol → List StateId → Prop where
  | bottom : StackFor [] [.ofIndex 0]
  | push {l : List Symbol} {q q' : StateId} {stack : List StateId} {x : Symbol}
    (h : StackFor l (q :: stack)) (hq : a.step? q x = some q') :
    StackFor (l ++ [x]) (q' :: q :: stack)

variable {a} {l m : List Symbol} {q : StateId} {stack : List StateId}

theorem StackFor.after? (h : a.StackFor l (q :: stack)) : a.after? l = some q := by
  generalize hs : q :: stack = s at h
  induction h generalizing q stack with
  | bottom =>
    cases hs
    exact after?_nil
  | push _ hq ih =>
    cases hs
    exact after?_concat_eq_some.mpr ⟨_, ih rfl, hq⟩

theorem StackFor.drop (h : a.StackFor (l ++ m) stack) : a.StackFor l (stack.drop m.length) := by
  induction m using List.reverseRecOn generalizing stack with
  | nil => simpa using h
  | append_singleton m x ih =>
    rw [← List.append_assoc] at h
    generalize hk : l ++ m ++ [x] = k at h
    cases h with
    | bottom => simp at hk
    | push h _ =>
      obtain ⟨rfl, -⟩ := List.append_inj' hk rfl
      simpa using ih h

end Automaton

/-! ### Soundness -/

namespace Automaton.Guides

variable {ι : Type} [Item ι] {g : Grammar} {a : Automaton ι} {reduceOn : ι → List Symbol}
  {l : List Symbol} {c c' : Configuration}

open ActionTable

/-- A move stays on the stacks of strings, and goes back along a derivation. -/
theorem exists_stackFor_of_movesTo (h : a.Guides g reduceOn) (hl : a.StackFor l c.stack)
    (hm : (ofAutomaton g reduceOn a).MovesTo g c c') :
    ∃ l', a.StackFor l' c'.stack ∧ g.Derives (l' ++ c'.input) (l ++ c.input) := by
  cases hm with
  | @shift q q' stack x w acts hc hq =>
    refine ⟨l ++ [x], hl.push (step?_of_shift h.proper hc hq).2, ?_⟩
    rw [List.append_assoc]
    exact .refl _
  | @reduce q q' q₀ stack rest w acts p x hc hp hx hd hq =>
    obtain ⟨d, hheld, hcomp, rfl⟩ := (mem_reduces_iff hc).mp hp
    obtain ⟨front, _, rfl, -⟩ := (h.awaits l q d _ hl.after? hheld).exists_append_body hcomp
    have hdrop : a.StackFor front (q₀ :: rest) := hd ▸ hl.drop
    refine ⟨front ++ [x], hdrop.push ((goto?_eq_some h.proper).mp hq).2, ?_⟩
    obtain ⟨r, hr, rfl, hb⟩ := Grammar.exists_rule_of_head? hx
    change g.Derives _ (front ++ g.body d.production ++ w)
    rw [← hb]
    exact (Grammar.derives_rule hr).context front w

theorem suffix_of_movesTo {table : ActionTable} (hm : table.MovesTo g c c') :
    c'.input <:+ c.input := by
  cases hm with
  | shift => exact List.suffix_cons _ _
  | reduce => exact List.suffix_refl _

theorem derives_of_accepting (h : a.Guides g reduceOn) (hl : a.StackFor l c.stack)
    (hw : g.TerminalString c.input) (hc : (ofAutomaton g reduceOn a).Accepting c) :
    g.Derives [g.start] (l ++ c.input) := by
  obtain ⟨q, stack, acts, hs, hcell, hp⟩ := hc
  rw [hs] at hl
  obtain ⟨d, hheld, hcomp, hd⟩ := (mem_reduces_iff hcell).mp hp
  have hempty := (Grammar.nextToken_eq_endOfInput_iff hw).mp (h.endOfInput q d _ hheld hd)
  rw [(h.awaits l q d _ hl.after? hheld).eq_start_of_accept hd hcomp, hempty]
  exact .refl _

theorem derives_of_moves (h : a.Guides g reduceOn) (hl : a.StackFor l c.stack)
    (hw : g.TerminalString c.input)
    (hm : Relation.ReflTransGen ((ofAutomaton g reduceOn a).MovesTo g) c c')
    (hc : (ofAutomaton g reduceOn a).Accepting c') : g.Derives [g.start] (l ++ c.input) := by
  induction hm using Relation.ReflTransGen.head_induction_on generalizing l with
  | refl => exact h.derives_of_accepting hl hw hc
  | head hmove _ ih =>
    obtain ⟨l', hl', hd⟩ := h.exists_stackFor_of_movesTo hl hmove
    have hw' := fun x hx => hw x ((suffix_of_movesTo hmove).subset hx)
    exact (ih hl' hw').trans hd

theorem derives_of_accepts (h : a.Guides g reduceOn) {w : List Symbol} (hw : g.TerminalString w)
    (hc : (ofAutomaton g reduceOn a).Accepts g w) : g.Derives [g.start] w := by
  obtain ⟨c, hm, hc⟩ := hc
  exact h.derives_of_moves .bottom hw hm hc

end Automaton.Guides

end GrammarTables
