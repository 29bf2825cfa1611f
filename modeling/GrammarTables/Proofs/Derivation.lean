import Mathlib.Logic.Relation
import GrammarTables.Grammar.Basic

/-!
# Derivations

A rule of a grammar replaces its head by its body anywhere in a string of symbols. Derivations can
be put side by side, and a derivation from two strings side by side falls into two. What rules hand on
from all symbols of a body to the head goes back along derivations (`HandedUp.of_derives`).

Each symbol of a derived string comes from a symbol of the string that the derivation starts with,
along a chain of rules that have the next symbol in their bodies. If all symbols before it have a
property that rules hand on from bodies to heads, and all symbols behind it another, this is so
along the whole chain (`derives_standsBetween_iff`). Where the symbols on one side vanish, the
chains are those of left recursion; where those on both sides do, those of cycles; and without a
condition, those that lead to the reachable symbols.
-/

namespace GrammarTables

namespace Grammar

/-- One rule is applied at one place of a string. -/
inductive Step (g : Grammar) : List Symbol → List Symbol → Prop where
  | rewrite (u v : List Symbol) (r : Rule) (h : r ∈ g.rules) :
    Step g (u ++ r.head :: v) (u ++ r.body ++ v)

/-- Rules lead from the first string to the second. -/
def Derives (g : Grammar) : List Symbol → List Symbol → Prop := Relation.ReflTransGen g.Step

/-- Rules lead from the first string to the second, at least one of them. -/
def DerivesInSteps (g : Grammar) : List Symbol → List Symbol → Prop := Relation.TransGen g.Step

def TerminalString (g : Grammar) (w : List Symbol) : Prop := ∀ x ∈ w, x ∈ g.terminals

variable {g : Grammar} {u v w : List Symbol} {x : Symbol}

theorem isNonterminal_iff : g.isNonterminal x = true ↔ x ∈ g.nonterminals :=
  OrderedSet.contains_iff

theorem isTerminal_iff : g.isTerminal x = true ↔ x ∈ g.terminals := OrderedSet.contains_iff

theorem not_mem_nonterminals_of_terminal (h : x ∈ g.terminals) : x ∉ g.nonterminals :=
  (mem_terminals.mp h).1

theorem head_mem_nonterminals {r : Rule} (h : r ∈ g.rules) : r.head ∈ g.nonterminals :=
  mem_nonterminals.mpr ⟨r, h, rfl⟩

theorem mem_terminals_or_nonterminals {r : Rule} (h : r ∈ g.rules) (hx : x ∈ r.body) :
    x ∈ g.terminals ∨ x ∈ g.nonterminals := by
  by_cases hn : x ∈ g.nonterminals
  · exact Or.inr hn
  · exact Or.inl (mem_terminals.mpr ⟨hn, r, h, hx⟩)

theorem isNamed_of_mem_terminals (h : x ∈ g.terminals) : x.isNamed := by
  obtain ⟨-, r, hr, hx⟩ := mem_terminals.mp h
  exact g.wellFormed.isNamed_body r hr x hx

theorem isNamed_of_mem_nonterminals (h : x ∈ g.nonterminals) : x.isNamed := by
  obtain ⟨r, hr, rfl⟩ := mem_nonterminals.mp h
  exact g.wellFormed.isNamed_head r hr

theorem endOfInput_not_mem_terminals : Symbol.endOfInput ∉ g.terminals := by
  intro h
  have := isNamed_of_mem_terminals h
  simp [Symbol.isNamed] at this

theorem endOfInput_not_mem_nonterminals : Symbol.endOfInput ∉ g.nonterminals := by
  intro h
  have := isNamed_of_mem_nonterminals h
  simp [Symbol.isNamed] at this

@[simp] theorem terminalString_nil : g.TerminalString [] := by
  intro x hx
  simp at hx

@[simp] theorem terminalString_cons :
    g.TerminalString (x :: w) ↔ x ∈ g.terminals ∧ g.TerminalString w := by
  simp [TerminalString]

@[simp] theorem terminalString_append :
    g.TerminalString (u ++ v) ↔ g.TerminalString u ∧ g.TerminalString v := by
  simp only [TerminalString, List.mem_append]
  grind

theorem append_eq_append_cons_iff {a b u v : List Symbol} : a ++ b = u ++ x :: v ↔
    (∃ v', a = u ++ x :: v' ∧ v = v' ++ b) ∨ ∃ b', u = a ++ b' ∧ b = b' ++ x :: v := by
  constructor
  · intro h
    rcases List.append_eq_append_iff.mp h with hc | hc
    · exact Or.inr hc
    · obtain ⟨c, ha, hc⟩ := hc
      rcases List.cons_eq_append_iff.mp hc with hn | hn
      · obtain ⟨rfl, rfl⟩ := hn
        exact Or.inr ⟨[], by simpa using ha.symm, rfl⟩
      · obtain ⟨v', rfl, rfl⟩ := hn
        exact Or.inl ⟨v', ha, rfl⟩
  · intro h
    rcases h with hc | hc
    · obtain ⟨v', rfl, rfl⟩ := hc
      simp
    · obtain ⟨b', rfl, rfl⟩ := hc
      simp

/-! ### Derivations side by side -/

theorem Derives.refl (u : List Symbol) : g.Derives u u := Relation.ReflTransGen.refl

theorem Derives.trans (h : g.Derives u v) (h' : g.Derives v w) : g.Derives u w :=
  Relation.ReflTransGen.trans h h'

theorem derives_rule {r : Rule} (h : r ∈ g.rules) : g.Derives [r.head] r.body := by
  have hs := Step.rewrite (g := g) [] [] r h
  simp only [List.nil_append, List.append_nil] at hs
  exact .single hs

theorem Step.context (h : g.Step u v) (l m : List Symbol) : g.Step (l ++ u ++ m) (l ++ v ++ m) := by
  obtain ⟨p, q, r, hr⟩ := h
  have hs := Step.rewrite (l ++ p) (q ++ m) r hr
  simpa using hs

theorem Derives.context (h : g.Derives u v) (l m : List Symbol) :
    g.Derives (l ++ u ++ m) (l ++ v ++ m) := by
  induction h with
  | refl => exact .refl _
  | tail _ hs ih => exact ih.tail (hs.context l m)

theorem Derives.append {u' v' : List Symbol} (h : g.Derives u v) (h' : g.Derives u' v') :
    g.Derives (u ++ u') (v ++ v') := by
  have hl := h.context [] u'
  have hr := h'.context v []
  simp only [List.nil_append, List.append_nil] at hl hr
  exact hl.trans hr

theorem Derives.cons (h : g.Derives [x] v) (h' : g.Derives u w) :
    g.Derives (x :: u) (v ++ w) := h.append h'

private theorem step_append (h : g.Step (u ++ v) w) :
    (∃ u', w = u' ++ v ∧ g.Step u u') ∨ ∃ v', w = u ++ v' ∧ g.Step v v' := by
  generalize hs : u ++ v = s at h
  obtain ⟨p, q, r, hr⟩ := h
  rcases List.append_eq_append_iff.mp hs with hc | hc
  · obtain ⟨a, hp, hv⟩ := hc
    refine Or.inr ⟨a ++ r.body ++ q, by simp [hp], ?_⟩
    rw [hv]
    exact Step.rewrite a q r hr
  · obtain ⟨a, hu, hq⟩ := hc
    cases a with
    | nil =>
      refine Or.inr ⟨r.body ++ q, by simp [hu], ?_⟩
      have hv : v = r.head :: q := by simpa using hq.symm
      rw [hv]
      exact Step.rewrite [] q r hr
    | cons y a =>
      obtain ⟨rfl, rfl⟩ := List.cons_eq_cons.mp hq
      refine Or.inl ⟨p ++ r.body ++ a, by simp, ?_⟩
      rw [hu]
      exact Step.rewrite p a r hr

theorem Derives.exists_append (h : g.Derives (u ++ v) w) :
    ∃ u' v', w = u' ++ v' ∧ g.Derives u u' ∧ g.Derives v v' := by
  induction h with
  | refl => exact ⟨u, v, rfl, .refl u, .refl v⟩
  | tail _ hs ih =>
    obtain ⟨u', v', rfl, hu, hv⟩ := ih
    rcases step_append hs with hc | hc
    · obtain ⟨u'', rfl, hu'⟩ := hc
      exact ⟨u'', v', rfl, hu.tail hu', hv⟩
    · obtain ⟨v'', rfl, hv'⟩ := hc
      exact ⟨u', v'', rfl, hu, hv.tail hv'⟩

theorem Derives.eq_of_terminalString (h : g.Derives u v) (hu : g.TerminalString u) : v = u := by
  induction h with
  | refl => rfl
  | tail _ hs ih =>
    subst ih
    obtain ⟨p, q, r, hr⟩ := hs
    have ht : r.head ∈ g.terminals := hu r.head (by simp)
    exact absurd (head_mem_nonterminals hr) (not_mem_nonterminals_of_terminal ht)

theorem Derives.mem_terminals_or_nonterminals (h : g.Derives u v)
    (hu : ∀ x ∈ u, x ∈ g.terminals ∨ x ∈ g.nonterminals) :
    ∀ x ∈ v, x ∈ g.terminals ∨ x ∈ g.nonterminals := by
  induction h with
  | refl => exact hu
  | tail _ hs ih =>
    obtain ⟨p, q, r, hr⟩ := hs
    intro x hx
    rcases List.mem_append.mp hx with hx | hx
    · rcases List.mem_append.mp hx with hx | hx
      · exact ih x (by simp [hx])
      · exact Grammar.mem_terminals_or_nonterminals hr hx
    · exact ih x (by simp [hx])

/-! ### Properties that rules hand on -/

/-- A head has the property as soon as all symbols of one of its bodies have it. -/
def HandedUp (g : Grammar) (P : Symbol → Prop) : Prop :=
  ∀ r ∈ g.rules, (∀ x ∈ r.body, P x) → P r.head

theorem HandedUp.of_step {P : Symbol → Prop} (hP : g.HandedUp P) (h : g.Step u v)
    (hv : ∀ x ∈ v, P x) : ∀ x ∈ u, P x := by
  obtain ⟨p, q, r, hr⟩ := h
  intro x hx
  rcases List.mem_append.mp hx with hx | hx
  · exact hv x (by simp [hx])
  · rcases List.mem_cons.mp hx with rfl | hx
    · exact hP r hr fun y hy => hv y (by simp [hy])
    · exact hv x (by simp [hx])

/-- What holds of all symbols of a derived string holds of those that it is derived from. -/
theorem HandedUp.of_derives {P : Symbol → Prop} (hP : g.HandedUp P) (h : g.Derives u v)
    (hv : ∀ x ∈ v, P x) : ∀ x ∈ u, P x := by
  induction h using Relation.ReflTransGen.head_induction_on with
  | refl => exact hv
  | head hs _ ih => exact hP.of_step hs ih

/-- Derivations of strings of certain symbols, one from each symbol of a string, can be put side by
side. -/
theorem exists_derives_of_each {P : Symbol → Prop}
    (h : ∀ x ∈ u, ∃ w, (∀ y ∈ w, P y) ∧ g.Derives [x] w) :
    ∃ w, (∀ y ∈ w, P y) ∧ g.Derives u w := by
  induction u with
  | nil => exact ⟨[], by simp, .refl []⟩
  | cons x u ih =>
    obtain ⟨v, hv, hx⟩ := h x (by simp)
    obtain ⟨w, hw, hu⟩ := ih fun y hy => h y (by simp [hy])
    exact ⟨v ++ w, List.forall_mem_append.mpr ⟨hv, hw⟩, hx.cons hu⟩

/-! ### Samples -/

def nestedRules : Array Rule :=
  #[⟨.named "S", [.named "(", .named "S", .named ")"], 0⟩, ⟨.named "S", [.named "x"], 1⟩]

/-- The grammar of nested parentheses around `x`, which belongs to all disciplines. -/
def nested : Grammar :=
  ofRules nestedRules {
    nonempty := by decide
    size_le := by decide
    isNamed_head := by simp [nestedRules, Symbol.isNamed]
    isNamed_body := by simp [nestedRules, Symbol.isNamed]
    length_body_le := by simp [nestedRules] }

def listRules : Array Rule :=
  #[⟨.named "L", [.named "x", .named "T"], 0⟩,
    ⟨.named "T", [.named ",", .named "x", .named "T"], 1⟩, ⟨.named "T", [], 2⟩]

/-- The grammar of lists with commas, in which a nonterminal may vanish. -/
def lists : Grammar :=
  ofRules listRules {
    nonempty := by decide
    size_le := by decide
    isNamed_head := by simp [listRules, Symbol.isNamed]
    isNamed_body := by simp [listRules, Symbol.isNamed]
    length_body_le := by simp [listRules] }

end Grammar

/-! ## Where the symbols of a derived string come from -/

variable {P Q : Symbol → Prop} {x z : Symbol} {s t : List Symbol}

/-- The symbol stands in the string between symbols of the first kind and symbols of the second. -/
def StandsBetween (P Q : Symbol → Prop) (z : Symbol) (s : List Symbol) : Prop :=
  ∃ u v, s = u ++ z :: v ∧ (∀ y ∈ u, P y) ∧ ∀ y ∈ v, Q y

theorem standsBetween_append : StandsBetween P Q z (s ++ t) ↔
    StandsBetween P Q z s ∧ (∀ y ∈ t, Q y) ∨ (∀ y ∈ s, P y) ∧ StandsBetween P Q z t := by
  constructor
  · rintro ⟨u, v, hst, hu, hv⟩
    rcases Grammar.append_eq_append_cons_iff.mp hst with ⟨v', rfl, rfl⟩ | ⟨t', rfl, rfl⟩
    · obtain ⟨hv', ht⟩ := List.forall_mem_append.mp hv
      exact Or.inl ⟨⟨u, v', rfl, hu, hv'⟩, ht⟩
    · obtain ⟨hs, ht'⟩ := List.forall_mem_append.mp hu
      exact Or.inr ⟨hs, t', v, rfl, ht', hv⟩
  · rintro (⟨⟨u, v, rfl, hu, hv⟩, ht⟩ | ⟨hs, u, v, rfl, hu, hv⟩)
    · exact ⟨u, v ++ t, by simp, hu, List.forall_mem_append.mpr ⟨hv, ht⟩⟩
    · exact ⟨s ++ u, v, by simp, List.forall_mem_append.mpr ⟨hs, hu⟩, hv⟩

theorem standsBetween_singleton : StandsBetween P Q z [x] ↔ z = x := by
  constructor
  · rintro ⟨u, v, hs, -⟩
    rcases List.append_eq_cons_iff.mp hs.symm with ⟨-, hs⟩ | ⟨u', -, hs⟩
    · exact (List.cons_eq_cons.mp hs).1
    · simp at hs
  · rintro rfl
    exact ⟨[], [], rfl, by simp, by simp⟩

theorem mem_iff_standsBetween :
    z ∈ s ↔ StandsBetween (fun _ => True) (fun _ => True) z s := by
  simp [StandsBetween, List.mem_iff_append]

namespace Grammar

variable {g : Grammar}

/-- A rule puts the second symbol in place of the first, between symbols of two kinds. -/
def Brings (g : Grammar) (P Q : Symbol → Prop) (x z : Symbol) : Prop :=
  ∃ r ∈ g.rules, r.head = x ∧ StandsBetween P Q z r.body

theorem Brings.mem_nonterminals (h : g.Brings P Q x z) : x ∈ g.nonterminals := by
  obtain ⟨r, hr, rfl, -⟩ := h
  exact head_mem_nonterminals hr

theorem transGen_brings_iff : Relation.TransGen (g.Brings P Q) x z ↔
    ∃ y, Relation.ReflTransGen (fun x y => g.Brings P Q x y ∧ y ∈ g.nonterminals) x y ∧
      g.Brings P Q y z := by
  rw [Relation.TransGen.tail'_iff]
  refine exists_congr fun y => and_congr_left fun hyz => ?_
  have hy := hyz.mem_nonterminals
  constructor
  · intro h
    clear hyz
    induction h with
    | refl => exact .refl
    | tail _ hstep ih => exact (ih hstep.mem_nonterminals).tail ⟨hstep, hy⟩
  · exact fun h => Relation.ReflTransGen.mono (fun _ _ hstep => hstep.1) x y h

theorem handedUp_true (g : Grammar) : g.HandedUp fun _ => True := fun _ _ _ => trivial

theorem step_singleton_iff : g.Step [x] t ↔ ∃ r ∈ g.rules, r.head = x ∧ r.body = t := by
  constructor
  · intro h
    generalize hs : [x] = s at h
    obtain ⟨p, q, r, hr⟩ := h
    rcases List.append_eq_cons_iff.mp hs.symm with ⟨rfl, hs⟩ | ⟨p', -, hs⟩
    · obtain ⟨hx, rfl⟩ := List.cons_eq_cons.mp hs
      exact ⟨r, hr, hx.symm, by simp⟩
    · simp at hs
  · rintro ⟨r, hr, rfl, rfl⟩
    simpa using Step.rewrite [] [] r hr

/-! ### Along a derivation -/

private theorem exists_of_step (hP : g.HandedUp P) (hQ : g.HandedUp Q) (h : g.Step s t)
    (hz : StandsBetween P Q z t) :
    ∃ x, StandsBetween P Q x s ∧ Relation.ReflTransGen (g.Brings P Q) x z := by
  obtain ⟨p, q, r, hr⟩ := h
  rw [List.append_assoc, standsBetween_append, standsBetween_append, List.forall_mem_append] at hz
  rcases hz with ⟨hz, hb, hq⟩ | ⟨hp, ⟨hz, hq⟩ | ⟨hb, hz⟩⟩
  · have hbehind : ∀ y ∈ r.head :: q, Q y := List.forall_mem_cons.mpr ⟨hQ r hr hb, hq⟩
    exact ⟨z, standsBetween_append.mpr (Or.inl ⟨hz, hbehind⟩), .refl⟩
  · exact ⟨r.head, ⟨p, q, rfl, hp, hq⟩, .single ⟨r, hr, rfl, hz⟩⟩
  · have hz' : StandsBetween P Q z ([r.head] ++ q) :=
      standsBetween_append.mpr (Or.inr ⟨by simpa using hP r hr hb, hz⟩)
    exact ⟨z, standsBetween_append.mpr (Or.inr ⟨hp, hz'⟩), .refl⟩

private theorem Brings.exists_step (h : g.Brings P Q x z) (hx : StandsBetween P Q x s) :
    ∃ t, g.Step s t ∧ StandsBetween P Q z t := by
  obtain ⟨r, hr, rfl, hz⟩ := h
  obtain ⟨u, v, rfl, hu, hv⟩ := hx
  refine ⟨u ++ r.body ++ v, .rewrite u v r hr, ?_⟩
  rw [List.append_assoc, standsBetween_append, standsBetween_append]
  exact Or.inr ⟨hu, Or.inl ⟨hz, hv⟩⟩

/-- A symbol stands in a derived string exactly if rules bring it in place of one that stands in the
string that the derivation starts with. -/
theorem derives_standsBetween_iff (hP : g.HandedUp P) (hQ : g.HandedUp Q) :
    (∃ t, g.Derives s t ∧ StandsBetween P Q z t) ↔
      ∃ x, StandsBetween P Q x s ∧ Relation.ReflTransGen (g.Brings P Q) x z := by
  constructor
  · rintro ⟨t, h, hz⟩
    induction h using Relation.ReflTransGen.head_induction_on with
    | refl => exact ⟨z, hz, .refl⟩
    | head hs _ ih =>
      obtain ⟨y, hy, hyz⟩ := ih
      obtain ⟨x, hx, hxy⟩ := exists_of_step hP hQ hs hy
      exact ⟨x, hx, hxy.trans hyz⟩
  · rintro ⟨x, hx, h⟩
    induction h with
    | refl => exact ⟨s, .refl s, hx⟩
    | tail _ hyz ih =>
      obtain ⟨t, hd, hy⟩ := ih
      obtain ⟨t', hs, hz⟩ := hyz.exists_step hy
      exact ⟨t', hd.tail hs, hz⟩

/-- From a single symbol, one or more rules lead to the symbols of the strings that it derives in
one or more steps. -/
theorem derivesInSteps_standsBetween_iff (hP : g.HandedUp P) (hQ : g.HandedUp Q) :
    (∃ t, g.DerivesInSteps [x] t ∧ StandsBetween P Q z t) ↔
      Relation.TransGen (g.Brings P Q) x z := by
  constructor
  · rintro ⟨t, h, hz⟩
    obtain ⟨s, hs, hst⟩ := Relation.TransGen.head'_iff.mp h
    obtain ⟨r, hr, rfl, rfl⟩ := step_singleton_iff.mp hs
    obtain ⟨y, hy, hyz⟩ := (derives_standsBetween_iff hP hQ).mp ⟨t, hst, hz⟩
    exact .head' ⟨r, hr, rfl, hy⟩ hyz
  · intro h
    obtain ⟨y, ⟨r, hr, rfl, hy⟩, hyz⟩ := Relation.TransGen.head'_iff.mp h
    obtain ⟨t, hd, hz⟩ := (derives_standsBetween_iff hP hQ).mpr ⟨y, hy, hyz⟩
    exact ⟨t, .head' (step_singleton_iff.mpr ⟨r, hr, rfl, rfl⟩) hd, hz⟩

end Grammar

end GrammarTables
