import Mathlib.Data.List.Perm.Subperm
import GrammarTables.Analysis
import GrammarTables.Proofs.Derivation

/-!
# Nullable and productive nonterminals

The inference finds the least set of heads that is closed under the rules (`mem_infer_of_rule`,
`infer_induction`), and lists a head after the symbols that let it hold (`inferredInOrder_infer`).
So a nonterminal is inferred if and only if it derives a string of symbols that hold from the start
(`mem_infer_iff_derives`). With no such symbols, these are the nullable nonterminals; with the
terminals, all but the unproductive ones.
-/

namespace GrammarTables.Grammar

variable {g : Grammar} {base : Symbol → Bool} {x : Symbol}

/-! ### The inference -/

private def learn (base : Symbol → Bool) (known : OrderedSet Symbol) (r : Rule) :
    OrderedSet Symbol :=
  if known.contains r.head then known
  else if r.body.all fun x => base x || known.contains x then known.insert r.head
  else known

private theorem inferPass_eq (g : Grammar) (base : Symbol → Bool) (known : OrderedSet Symbol) :
    g.inferPass base known = g.rules.toList.foldl (learn base) known :=
  (Array.foldl_toList (learn base)).symm

private theorem all_known_iff {known : OrderedSet Symbol} {body : List Symbol} :
    (body.all fun x => base x || known.contains x) = true ↔
      ∀ x ∈ body, base x = true ∨ x ∈ known := by
  simp [List.all_eq_true, OrderedSet.contains_iff]

private theorem learn_cases (base : Symbol → Bool) (known : OrderedSet Symbol) (r : Rule) :
    learn base known r = known ∨
      r.head ∉ known ∧ (∀ x ∈ r.body, base x = true ∨ x ∈ known) ∧
        learn base known r = known.insert r.head := by
  rw [learn]
  split
  · exact Or.inl rfl
  · rename_i hn
    split
    · rename_i ha
      refine Or.inr ⟨?_, all_known_iff.mp ha, rfl⟩
      intro h
      exact hn (OrderedSet.contains_iff.mpr h)
    · exact Or.inl rfl

private theorem head_mem_of_learn_eq {known : OrderedSet Symbol} {r : Rule}
    (h : learn base known r = known) (hb : ∀ x ∈ r.body, base x = true ∨ x ∈ known) :
    r.head ∈ known := by
  by_contra hn
  have hc : known.contains r.head = false := by
    rw [← Bool.not_eq_true, OrderedSet.contains_iff]
    exact hn
  rw [learn, hc, if_neg (by simp), if_pos (all_known_iff.mpr hb)] at h
  rw [← h, OrderedSet.mem_insert] at hn
  exact hn (Or.inl rfl)

private theorem isPrefix_learn (base : Symbol → Bool) (known : OrderedSet Symbol) (r : Rule) :
    known.toList <+: (learn base known r).toList := by
  rcases learn_cases base known r with h | h
  · simp [h]
  · rw [h.2.2]
    exact known.toList_isPrefix_insert r.head

private theorem isPrefix_foldl_learn (base : Symbol → Bool) (l : List Rule)
    (known : OrderedSet Symbol) : known.toList <+: (l.foldl (learn base) known).toList := by
  induction l generalizing known with
  | nil => exact List.prefix_refl _
  | cons r l ih => exact (isPrefix_learn base known r).trans (ih _)

private theorem head_mem_of_foldl_size {l : List Rule} {known : OrderedSet Symbol}
    (h : (l.foldl (learn base) known).size = known.size) {r : Rule} (hr : r ∈ l)
    (hb : ∀ x ∈ r.body, base x = true ∨ x ∈ known) : r.head ∈ known := by
  induction l with
  | nil => simp at hr
  | cons s l ih =>
    -- known heads are never dropped, so that none is new anywhere if their number stays
    have hs : learn base known s = known := by
      apply OrderedSet.ext_toList
      apply Eq.symm
      apply (isPrefix_learn base known s).eq_of_length
      apply Nat.le_antisymm (isPrefix_learn base known s).length_le
      have hl := (isPrefix_foldl_learn base l (learn base known s)).length_le
      simp only [OrderedSet.length_toList] at hl ⊢
      rw [List.foldl_cons] at h
      omega
    rcases List.mem_cons.mp hr with rfl | hr
    · exact head_mem_of_learn_eq hs hb
    · rw [List.foldl_cons, hs] at h
      exact ih h hr

private theorem foldl_learn_invariant {Q : OrderedSet Symbol → Prop} {l : List Rule}
    (hQ : ∀ known, Q known → ∀ r ∈ l, r.head ∉ known →
      (∀ x ∈ r.body, base x = true ∨ x ∈ known) → Q (known.insert r.head))
    {known : OrderedSet Symbol} (hk : Q known) : Q (l.foldl (learn base) known) := by
  induction l generalizing known with
  | nil => exact hk
  | cons r l ih =>
    rw [List.foldl_cons]
    apply ih fun known hk s hs => hQ known hk s (by simp [hs])
    rcases learn_cases base known r with h | h
    · rw [h]
      exact hk
    · obtain ⟨hn, hb, he⟩ := h
      rw [he]
      exact hQ known hk r (by simp) hn hb

private theorem inferRest_invariant {Q : OrderedSet Symbol → Prop}
    (hQ : ∀ known, Q known → ∀ r ∈ g.rules, r.head ∉ known →
      (∀ x ∈ r.body, base x = true ∨ x ∈ known) → Q (known.insert r.head))
    {n : Nat} {known : OrderedSet Symbol} (hk : Q known) : Q (g.inferRest base n known) := by
  induction n generalizing known with
  | zero => exact hk
  | succ n ih =>
    have hp : Q (g.inferPass base known) := by
      rw [inferPass_eq]
      exact foldl_learn_invariant
        (fun known hk r hr => hQ known hk r (Array.mem_toList_iff.mp hr)) hk
    rw [inferRest]
    split
    · exact hk
    · exact ih hp

theorem infer_invariant {Q : OrderedSet Symbol → Prop} (empty : Q ∅)
    (insert : ∀ known, Q known → ∀ r ∈ g.rules, r.head ∉ known →
      (∀ x ∈ r.body, base x = true ∨ x ∈ known) → Q (known.insert r.head)) : Q (g.infer base) :=
  inferRest_invariant insert empty

private theorem forall_mem_insert {P : Symbol → Prop} {known : OrderedSet Symbol} {r : Rule}
    (hP : (∀ x ∈ r.body, base x = true ∨ P x) → P r.head) (hk : ∀ x ∈ known, P x)
    (hb : ∀ x ∈ r.body, base x = true ∨ x ∈ known) : ∀ x ∈ known.insert r.head, P x := by
  intro x hx
  rcases OrderedSet.mem_insert.mp hx with rfl | hx
  · exact hP fun y hy => (hb y hy).imp id (hk y)
  · exact hk x hx

/-- Whatever the rules hand on from bodies to heads holds of all inferred heads. -/
theorem infer_induction {P : Symbol → Prop}
    (hP : ∀ r ∈ g.rules, (∀ x ∈ r.body, base x = true ∨ P x) → P r.head) :
    ∀ x ∈ g.infer base, P x :=
  infer_invariant (Q := fun known => ∀ x ∈ known, P x)
    (fun _ hx => absurd (OrderedSet.mem_toList.mpr hx) List.not_mem_nil)
    fun _ hk r hr _ hb => forall_mem_insert (hP r hr) hk hb

/-- The heads were inferred one after another: each has a rule whose body holds by what was known
before it. -/
def InferredInOrder (g : Grammar) (base : Symbol → Bool) (l : List Symbol) : Prop :=
  ∀ l₁ x l₂, l = l₁ ++ x :: l₂ → ∃ r ∈ g.rules, r.head = x ∧ ∀ y ∈ r.body, base y = true ∨ y ∈ l₁

theorem InferredInOrder.concat {l : List Symbol} {r : Rule} (h : g.InferredInOrder base l)
    (hr : r ∈ g.rules) (hb : ∀ y ∈ r.body, base y = true ∨ y ∈ l) :
    g.InferredInOrder base (l ++ [r.head]) := by
  intro l₁ x l₂ hl
  rcases append_eq_append_cons_iff.mp hl with ⟨l₂', rfl, -⟩ | ⟨l₁', rfl, hx⟩
  · exact h l₁ x l₂' rfl
  · rcases List.cons_eq_append_iff.mp hx with ⟨rfl, hx⟩ | ⟨_, -, hx⟩
    · obtain ⟨rfl, -⟩ := List.cons_eq_cons.mp hx
      exact ⟨r, hr, rfl, by simpa using hb⟩
    · simp at hx

/-- Every inferred head is listed after the symbols of a body that lets it hold. -/
theorem inferredInOrder_infer (g : Grammar) (base : Symbol → Bool) :
    g.InferredInOrder base (g.infer base).toList := by
  refine infer_invariant (Q := fun known => g.InferredInOrder base known.toList) ?_ ?_
  · intro l₁ x l₂ hl
    simp at hl
  · intro known hk r hr hn hb
    rw [OrderedSet.toList_insert_of_not_mem hn]
    exact hk.concat hr hb

theorem mem_nonterminals_of_mem_infer (h : x ∈ g.infer base) : x ∈ g.nonterminals :=
  infer_induction (fun _ hr _ => head_mem_nonterminals hr) x h

private theorem mem_inferRest_of_rule {n : Nat} {known : OrderedSet Symbol}
    (hn : g.nonterminals.size ≤ n + known.size) (hk : ∀ x ∈ known, x ∈ g.nonterminals) {r : Rule}
    (hr : r ∈ g.rules) (hb : ∀ x ∈ r.body, base x = true ∨ x ∈ g.inferRest base n known) :
    r.head ∈ g.inferRest base n known := by
  induction n generalizing known with
  | zero =>
    have hsub : known.toList.Subperm g.nonterminals.toList := known.nodup_toList.subperm hk
    have hperm := hsub.perm_of_length_le (by simpa using hn)
    exact hperm.mem_iff.mpr (head_mem_nonterminals hr)
  | succ n ih =>
    have hp := isPrefix_foldl_learn base g.rules.toList known
    rw [← inferPass_eq] at hp
    rw [inferRest] at hb ⊢
    split
    · rename_i hs
      rw [if_pos hs] at hb
      rw [inferPass_eq] at hs
      exact head_mem_of_foldl_size hs (Array.mem_toList_iff.mpr hr) hb
    · rename_i hs
      rw [if_neg hs] at hb
      have hlt : known.size < (g.inferPass base known).size :=
        Nat.lt_of_le_of_ne hp.length_le (Ne.symm hs)
      apply ih (by omega) _ hb
      rw [inferPass_eq]
      exact foldl_learn_invariant (Q := fun known => ∀ x ∈ known, x ∈ g.nonterminals)
        (fun _ hk s hs _ hb => forall_mem_insert
          (fun _ => head_mem_nonterminals (Array.mem_toList_iff.mp hs)) hk hb) hk

theorem mem_infer_of_rule {r : Rule} (hr : r ∈ g.rules)
    (hb : ∀ x ∈ r.body, base x = true ∨ x ∈ g.infer base) : r.head ∈ g.infer base :=
  mem_inferRest_of_rule (Nat.le_add_right _ _)
    (fun _ hx => absurd (OrderedSet.mem_toList.mpr hx) List.not_mem_nil) hr hb

/-! ### Inference and derivations -/

theorem exists_derives_of_mem_infer (h : x ∈ g.infer base) :
    ∃ w, (∀ y ∈ w, base y = true) ∧ g.Derives [x] w := by
  apply infer_induction _ x h
  intro r hr hb
  obtain ⟨w, hw, hd⟩ : ∃ w, (∀ y ∈ w, base y = true) ∧ g.Derives r.body w := by
    apply exists_derives_of_each
    intro y hy
    rcases hb y hy with hbase | hderives
    · exact ⟨[y], by simpa using hbase, .refl [y]⟩
    · exact hderives
  exact ⟨w, hw, (derives_rule hr).trans hd⟩

theorem handedUp_infer (g : Grammar) (base : Symbol → Bool) :
    g.HandedUp fun x => base x = true ∨ x ∈ g.infer base :=
  fun _ hr hb => Or.inr (mem_infer_of_rule hr hb)

/-- If no nonterminal holds from the start, those are inferred that derive a string of symbols that
do. -/
theorem mem_infer_iff_derives (hbase : ∀ x ∈ g.nonterminals, base x = false) :
    x ∈ g.infer base ↔
      x ∈ g.nonterminals ∧ ∃ w, (∀ y ∈ w, base y = true) ∧ g.Derives [x] w := by
  constructor
  · intro h
    exact ⟨mem_nonterminals_of_mem_infer h, exists_derives_of_mem_infer h⟩
  · rintro ⟨hx, w, hw, hd⟩
    have hheld := (handedUp_infer g base).of_derives hd (fun y hy => Or.inl (hw y hy)) x (by simp)
    refine hheld.resolve_left fun hb => ?_
    rw [hbase x hx] at hb
    cases hb

/-! ### Nullable strings -/

theorem mem_nullable_of_rule {r : Rule} (hr : r ∈ g.rules) (hb : ∀ x ∈ r.body, x ∈ g.nullable) :
    r.head ∈ g.nullable :=
  mem_infer_of_rule hr fun x hx => Or.inr (hb x hx)

theorem handedUp_nullable (g : Grammar) : g.HandedUp (· ∈ g.nullable) :=
  fun _ => mem_nullable_of_rule

theorem mem_nonterminals_of_nullable (h : x ∈ g.nullable) : x ∈ g.nonterminals :=
  mem_nonterminals_of_mem_infer h

theorem exists_rule_of_nullable (h : x ∈ g.nullable) :
    ∃ r ∈ g.rules, r.head = x ∧ ∀ y ∈ r.body, y ∈ g.nullable := by
  have hall : ∀ x ∈ g.nullable, x ∈ g.nullable ∧
      ∃ r ∈ g.rules, r.head = x ∧ ∀ y ∈ r.body, y ∈ g.nullable := by
    apply infer_induction
    intro r hr hb
    have hbody : ∀ y ∈ r.body, y ∈ g.nullable := fun y hy =>
      ((hb y hy).resolve_left (by simp)).1
    exact ⟨mem_nullable_of_rule hr hbody, r, hr, rfl, hbody⟩
  exact (hall x h).2

private theorem exists_derives_nil_iff {u : List Symbol} :
    (∃ w, (∀ y ∈ w, false = true) ∧ g.Derives u w) ↔ g.Derives u [] := by
  constructor
  · rintro ⟨w, hw, hd⟩
    obtain rfl : w = [] := List.eq_nil_iff_forall_not_mem.mpr fun y hy => by simpa using hw y hy
    exact hd
  · intro h
    exact ⟨[], by simp, h⟩

theorem mem_nullable_iff_derives :
    x ∈ g.nullable ↔ x ∈ g.nonterminals ∧ g.Derives [x] [] := by
  rw [nullable, mem_infer_iff_derives fun _ _ => rfl, exists_derives_nil_iff]

theorem derives_nil_iff {u : List Symbol} : g.Derives u [] ↔ ∀ x ∈ u, x ∈ g.nullable := by
  constructor
  · intro h
    exact (handedUp_nullable g).of_derives h (by simp)
  · intro h
    exact exists_derives_nil_iff.mp
      (exists_derives_of_each fun x hx => exists_derives_of_mem_infer (h x hx))

/-! ### Productive strings -/

/-- The symbol derives a string of terminals. -/
def Productive (g : Grammar) (x : Symbol) : Prop := ∃ w, g.TerminalString w ∧ g.Derives [x] w

theorem exists_terminalString {u : List Symbol} (h : ∀ x ∈ u, g.Productive x) :
    ∃ w, g.TerminalString w ∧ g.Derives u w :=
  exists_derives_of_each h

theorem productive_of_terminal (h : x ∈ g.terminals) : g.Productive x :=
  ⟨[x], by simp [h], .refl [x]⟩

theorem mem_infer_isTerminal_iff :
    x ∈ g.infer g.isTerminal ↔ x ∈ g.nonterminals ∧ g.Productive x := by
  rw [mem_infer_iff_derives]
  · simp only [isTerminal_iff, Productive, TerminalString]
  · intro y hy
    rw [← Bool.not_eq_true, isTerminal_iff]
    exact fun ht => not_mem_nonterminals_of_terminal ht hy

theorem mem_unproductive_iff : x ∈ g.unproductive ↔ x ∈ g.nonterminals ∧ ¬g.Productive x := by
  rw [unproductive, List.mem_filter, OrderedSet.mem_toList, Bool.not_eq_true', ← Bool.not_eq_true,
    OrderedSet.contains_iff, mem_infer_isTerminal_iff]
  simp +contextual

theorem productive_of_unproductive_eq_nil (h : g.unproductive = []) (hx : x ∈ g.nonterminals) :
    g.Productive x := by
  have hn : x ∉ g.unproductive := by simp [h]
  rw [mem_unproductive_iff, not_and, Classical.not_not] at hn
  exact hn hx

theorem productive_of_mem (h : g.unproductive = []) (hx : x ∈ g.terminals ∨ x ∈ g.nonterminals) :
    g.Productive x :=
  hx.elim productive_of_terminal (productive_of_unproductive_eq_nil h)

/-- Passing over the rules until nothing changes finds exactly the nonterminals that derive the
empty string, and exactly those that derive no string of terminals. -/
theorem mem_nullable_and_mem_unproductive_iff (g : Grammar) (x : Symbol) :
    (x ∈ g.nullable ↔ x ∈ g.nonterminals ∧ g.Derives [x] []) ∧
      (x ∈ g.unproductive ↔
        x ∈ g.nonterminals ∧ ¬∃ w, g.TerminalString w ∧ g.Derives [x] w) :=
  ⟨mem_nullable_iff_derives, mem_unproductive_iff⟩

end GrammarTables.Grammar
