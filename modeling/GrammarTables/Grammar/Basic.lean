import GrammarTables.Grammar.Error
import GrammarTables.GrammarText.Reader
import GrammarTables.Ordered.Map

/-!
# Context-free grammars

A grammar is a list of rules within the limits of `WellFormedRules`, together with the look-ups
that the rest of the library needs. Heads of rules are nonterminals, all other symbols of bodies are
terminals, and the first head is the start symbol. `Grammar.ofProductions` accepts exactly the lists
within the limits.
-/

namespace GrammarTables

/-- The suffixes of a list, the list itself first and the empty list last. -/
def suffixesInto {α : Type} (acc : Array (List α)) : List α → Array (List α)
  | [] => acc.push []
  | a :: l => suffixesInto (acc.push (a :: l)) l

private theorem getElem?_suffixesInto {α : Type} (l : List α) (acc : Array (List α)) (i : Nat) :
    (suffixesInto acc l)[i]? =
      if i < acc.size then acc[i]?
      else if i ≤ acc.size + l.length then some (l.drop (i - acc.size)) else none := by
  induction l generalizing acc with
  | nil =>
    rw [suffixesInto, Array.getElem?_push]
    grind
  | cons a l ih =>
    rw [suffixesInto, ih, Array.size_push, Array.getElem?_push, List.length_cons]
    by_cases h : i < acc.size
    · simp [h, Nat.lt_succ_of_lt h, Nat.ne_of_lt h]
    · by_cases he : i = acc.size
      · simp [he]
      · obtain ⟨n, rfl⟩ : ∃ n, i = acc.size + 1 + n := ⟨i - (acc.size + 1), by omega⟩
        have hd : acc.size + 1 + n - acc.size = n + 1 := by omega
        have hn : acc.size + 1 + n - (acc.size + 1) = n := by omega
        rw [hd, hn, List.drop_succ_cons]
        grind

theorem getElem?_suffixes {α : Type} (l : List α) (i : Nat) :
    (suffixesInto #[] l)[i]? = if i ≤ l.length then some (l.drop i) else none := by
  simp [getElem?_suffixesInto]

/-- The limits of a grammar: ids and positions in bodies are 16-bit words, and the unnamed symbols
stand in no rule. -/
structure WellFormedRules (rules : Array Rule) : Prop where
  nonempty : 0 < rules.size
  size_le : rules.size ≤ 65534
  isNamed_head : ∀ r ∈ rules, r.head.isNamed
  isNamed_body : ∀ r ∈ rules, ∀ x ∈ r.body, x.isNamed
  length_body_le : ∀ r ∈ rules, r.body.length ≤ 65535

def numberedRules (rules : List Rule) : List (ProductionId × Rule) :=
  rules.zipIdx.map fun (r, index) => (⟨UInt16.ofNat (index + 1)⟩, r)

/-- The rules that do not repeat an earlier one, each with its id. -/
def distinctRules (rules : List Rule) : List (ProductionId × Rule) :=
  let bySymbols := OrderedMap.group ((numberedRules rules).map fun (p, r) => (r.symbols, (p, r)))
  bySymbols.toList.filterMap fun (_, same) => same.head?

structure RuleIndex where
  /-- The head of the first rule. -/
  start : Symbol
  /-- The heads. -/
  nonterminals : OrderedSet Symbol
  /-- The symbols of bodies that are no heads. -/
  terminals : OrderedSet Symbol
  /-- The different productions of each nonterminal, by their first ids. -/
  alternatives : OrderedMap Symbol (List ProductionId)
  /-- The suffixes of the body of every production, by id. -/
  suffixes : Array (Array (List Symbol))

def RuleIndex.ofRules (rules : Array Rule) (h : 0 < rules.size) : RuleIndex :=
  let start := rules[0].head
  let nonterminals := OrderedSet.ofList (rules.toList.map Rule.head)
  let bodySymbols := rules.toList.flatMap Rule.body
  { start
    nonterminals
    terminals := OrderedSet.ofList (bodySymbols.filter fun x => !nonterminals.contains x)
    alternatives :=
      OrderedMap.group ((distinctRules rules.toList).map fun (p, r) => (r.head, p))
    suffixes := #[suffixesInto #[] [start]] ++ rules.map fun r => suffixesInto #[] r.body }

/-- A context-free grammar. -/
structure Grammar where
  /-- The rules, in order. -/
  rules : Array Rule
  wellFormed : WellFormedRules rules
  /-- The look-ups of the rules. -/
  index : RuleIndex
  index_eq : index = RuleIndex.ofRules rules wellFormed.nonempty

namespace Grammar

def ofRules (rules : Array Rule) (h : WellFormedRules rules) : Grammar :=
  ⟨rules, h, RuleIndex.ofRules rules h.nonempty, rfl⟩

theorem ext_rules {g h : Grammar} (hr : g.rules = h.rules) : g = h := by
  obtain ⟨rules, _, _, rfl⟩ := g
  obtain ⟨rules', _, _, rfl⟩ := h
  cases hr
  rfl

/-! ### Building a grammar -/

/-- What keeps a production out of a rule list, its body's symbols apart. -/
def headFault? : Production → Option GrammarError
  | .augmented => some .augmentedInRules
  | .rule r =>
    if !r.head.isNamed then some (.unexpectedSymbol r.head)
    else if 65535 < r.body.length then some (.bodyTooLong r.head)
    else none

/-- The first symbol of the body that may not stand in a rule. -/
def bodyFault? (p : Production) : Option GrammarError :=
  (p.body.find? fun x => !x.isNamed).map .unexpectedSymbol

theorem headFault?_eq_none_iff {p : Production} :
    headFault? p = none ↔ ∃ r, .rule r = p ∧ r.head.isNamed ∧ r.body.length ≤ 65535 := by
  cases p with
  | augmented => simp [headFault?]
  | rule r =>
    by_cases hn : r.head.isNamed
    · simp [headFault?, hn]
    · simp [headFault?, hn]

theorem bodyFault?_eq_none_iff {p : Production} :
    bodyFault? p = none ↔ ∀ x ∈ p.body, x.isNamed := by
  simp [bodyFault?]

theorem wellFormedRules_of_faults {ps : List Production} (hne : ps ≠ []) (hlen : ps.length ≤ 65534)
    (hh : ps.findSome? headFault? = none) (hb : ps.findSome? bodyFault? = none) :
    WellFormedRules (ps.filterMap Production.rule?).toArray := by
  simp only [List.findSome?_eq_none_iff, headFault?_eq_none_iff, bodyFault?_eq_none_iff] at hh hb
  have hmem {r : Rule} (h : r ∈ (ps.filterMap Production.rule?).toArray) : .rule r ∈ ps := by
    obtain ⟨p, hp, hr⟩ := List.mem_filterMap.mp (List.mem_toArray.mp h)
    cases p with
    | augmented => cases hr
    | rule r' =>
      cases hr
      exact hp
  refine ⟨?_, ?_, fun r h => ?_, fun r h x hx => ?_, fun r h => ?_⟩
  · cases ps with
    | nil => exact absurd rfl hne
    | cons p ps =>
      cases p with
      | augmented =>
        obtain ⟨r, hr, -⟩ := hh .augmented (by simp)
        cases hr
      | rule r => simp [Production.rule?]
  · have := List.length_filterMap_le Production.rule? ps
    simp only [List.size_toArray]
    omega
  · obtain ⟨_, hr, hnamed, -⟩ := hh _ (hmem h)
    cases hr
    exact hnamed
  · exact hb _ (hmem h) x hx
  · obtain ⟨_, hr, -, hle⟩ := hh _ (hmem h)
    cases hr
    exact hle

/-- The grammar of a list of productions. The number of productions is checked first, then every
head with the length of its body, and the symbols of the bodies last. -/
def ofProductions (ps : List Production) : Except GrammarError Grammar :=
  if hne : ps = [] then .error .noProductions
  else if hlen : ps.length ≤ 65534 then
    match hh : ps.findSome? headFault? with
    | some e => .error e
    | none =>
      match hb : ps.findSome? bodyFault? with
      | some e => .error e
      | none => .ok (ofRules _ (wellFormedRules_of_faults hne hlen hh hb))
  else .error .tooManyProductions

def ofText (source : String) : Except GrammarError Grammar :=
  match readRules source with
  | .error e => .error (.line e)
  | .ok rules => ofProductions (rules.map .rule)

/-- The grammar of a file, of which the bytes are given if it exists. -/
def ofFile (bytes : Option ByteArray) : Except GrammarError Grammar :=
  match bytes with
  | none => .error (.file .missing)
  | some bytes =>
    match String.fromUTF8? bytes with
    | none => .error (.file .notUtf8)
    | some source => ofText source

/-! ### Look-ups -/

def start (g : Grammar) : Symbol := g.index.start

/-- The symbols that head a rule, in order of their first rules. -/
def nonterminals (g : Grammar) : OrderedSet Symbol := g.index.nonterminals

/-- The other symbols of the grammar, in order of first occurrence. -/
def terminals (g : Grammar) : OrderedSet Symbol := g.index.terminals

def isNonterminal (g : Grammar) (x : Symbol) : Bool := g.nonterminals.contains x

/-- Whether the symbol stands in a body and heads no rule. -/
def isTerminal (g : Grammar) (x : Symbol) : Bool := g.terminals.contains x

/-- The different productions that a symbol heads, each by the first id it has. -/
def alternatives (g : Grammar) (x : Symbol) : List ProductionId := g.index.alternatives.getD x []

def numbered (g : Grammar) : List (ProductionId × Rule) := numberedRules g.rules.toList

def production? (g : Grammar) (p : ProductionId) : Option Production :=
  match p.index? with
  | none => some .augmented
  | some index => g.rules[index]?.map .rule

instance : Membership ProductionId Grammar := ⟨fun g p => (g.production? p).isSome⟩

instance (g : Grammar) (p : ProductionId) : Decidable (p ∈ g) :=
  inferInstanceAs (Decidable ((g.production? p).isSome = true))

/-- What the production derives in one step; the augmented production derives the start symbol,
and an id without production has an empty body. -/
def body (g : Grammar) (p : ProductionId) : List Symbol :=
  match g.production? p with
  | some .augmented => [g.start]
  | some (.rule r) => r.body
  | none => []

/-- The head of a rule; the augmented production has none. -/
def head? (g : Grammar) (p : ProductionId) : Option Symbol :=
  (g.production? p).bind fun production => production.rule?.map Rule.head

def bodyFrom (g : Grammar) (p : ProductionId) (position : Nat) : List Symbol :=
  (do let suffixes ← g.index.suffixes[p.word.toNat]?; suffixes[position]?).getD []

/-! ### What the look-ups hold -/

theorem nonterminals_eq (g : Grammar) :
    g.nonterminals = OrderedSet.ofList (g.rules.toList.map Rule.head) := by
  rw [nonterminals, g.index_eq]
  rfl

theorem terminals_eq (g : Grammar) : g.terminals =
    OrderedSet.ofList ((g.rules.toList.flatMap Rule.body).filter fun x => x ∉ g.nonterminals) := by
  rw [nonterminals_eq, terminals, g.index_eq]
  refine congrArg OrderedSet.ofList (List.filter_congr fun x _ => ?_)
  rw [Bool.eq_iff_iff, Bool.not_eq_true', ← Bool.not_eq_true, OrderedSet.contains_iff,
    decide_eq_true_eq]

theorem mem_nonterminals {g : Grammar} {x : Symbol} :
    x ∈ g.nonterminals ↔ ∃ r ∈ g.rules, r.head = x := by
  rw [nonterminals_eq]
  simp

theorem mem_terminals {g : Grammar} {x : Symbol} :
    x ∈ g.terminals ↔ x ∉ g.nonterminals ∧ ∃ r ∈ g.rules, x ∈ r.body := by
  simp only [terminals_eq, OrderedSet.mem_ofList, List.mem_filter, List.mem_flatMap,
    Array.mem_toList_iff, decide_eq_true_eq]
  exact and_comm

theorem some_start_eq (g : Grammar) : some g.start = g.rules[0]?.map Rule.head := by
  rw [start, g.index_eq, Array.getElem?_eq_getElem g.wellFormed.nonempty]
  rfl

theorem start_mem_nonterminals (g : Grammar) : g.start ∈ g.nonterminals := by
  obtain ⟨r, hr, h⟩ := Option.map_eq_some_iff.mp g.some_start_eq.symm
  exact mem_nonterminals.mpr ⟨r, Array.mem_of_getElem? hr, h⟩

@[simp] theorem bodyFrom_eq (g : Grammar) (p : ProductionId) (position : Nat) :
    g.bodyFrom p position = (g.body p).drop position := by
  have hs : g.index.suffixes[p.word.toNat]? = (g.production? p).map fun _ =>
      suffixesInto #[] (g.body p) := by
    rw [body, start, g.index_eq]
    by_cases hp : p = .accept
    · subst hp
      have ha : g.production? .accept = some .augmented := rfl
      have h0 : ProductionId.accept.word.toNat = 0 := rfl
      simp only [ha, Option.map_some, h0, RuleIndex.ofRules]
      rw [Array.getElem?_append_left (by simp)]
      rfl
    · obtain ⟨n, hn⟩ : ∃ n, p.word.toNat = n + 1 :=
        Nat.exists_eq_succ_of_ne_zero fun h0 => hp (by
          cases p
          exact congrArg ProductionId.mk (UInt16.toNat_inj.mp h0))
      have hi : p.index? = some n := by simp [ProductionId.index?, hp, hn]
      simp only [production?, hi, RuleIndex.ofRules, hn]
      rw [Array.getElem?_append_right (by simp)]
      cases hr : g.rules[n]? <;> simp [hr]
  rw [bodyFrom, hs]
  cases hp : g.production? p with
  | none => simp [body, hp]
  | some production =>
    simp only [Option.map_some, Option.bind_eq_bind, Option.bind_some, getElem?_suffixes]
    split
    · rfl
    · rw [Option.getD_none, List.drop_eq_nil_of_le (by omega)]

def productionText (g : Grammar) (p : ProductionId) : String :=
  match g.production? p with
  | some (.rule r) => r.text
  | _ => "$start -> " ++ g.start.text

/-- All rules, one a line, each with its index. -/
def text (g : Grammar) : String :=
  String.join (g.rules.toList.zipIdx.map fun (r, index) =>
    toString index ++ ": " ++ r.text ++ "\n")

end Grammar

end GrammarTables
