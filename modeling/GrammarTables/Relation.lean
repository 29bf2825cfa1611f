import GrammarTables.Ordered.Map

/-!
# Finite relations

A relation lists, for each node that has a row, the nodes it leads to. Rows and targets keep the
order in which they were first written; a row may be empty. A relation is read through `targets`:
`mem_targets_add` and `mem_targets_ofEdges` say which edges an operation leaves behind.
-/

namespace GrammarTables

universe u

/-- A finite binary relation, with one row of targets for each of its nodes. -/
structure Relation (α : Type u) [Ord α] [Std.TransOrd α] where
  /-- The targets of each node. -/
  rows : OrderedMap α (OrderedSet α)

namespace Relation

variable {α : Type u} [Ord α] [Std.TransOrd α]

def empty : Relation α := ⟨∅⟩

instance : EmptyCollection (Relation α) := ⟨empty⟩

/-- The targets of `a`; a node without a row has none. -/
def targets (r : Relation α) (a : α) : OrderedSet α := r.rows.getD a ∅

def contains (r : Relation α) (a b : α) : Bool := (r.targets a).contains b

def edges (r : Relation α) : List (α × α) :=
  r.rows.toList.flatMap fun row => row.2.toList.map fun b => (row.1, b)

/-- Whether two relations have the same rows, each with the same targets, in whatever order. -/
def sameRows (r s : Relation α) : Bool :=
  r.rows.size == s.rows.size && r.rows.toList.all fun row =>
    match s.rows.get? row.1 with
    | some targets => row.2.sameElements targets
    | none => false

theorem contains_iff {r : Relation α} {a b : α} : r.contains a b = true ↔ b ∈ r.targets a :=
  OrderedSet.contains_iff

theorem mem_edges {r : Relation α} {a b : α} : (a, b) ∈ r.edges ↔ b ∈ r.targets a := by
  rw [edges, List.mem_flatMap, targets, OrderedMap.getD]
  constructor
  · rintro ⟨⟨x, row⟩, hx, hb⟩
    obtain ⟨y, hy, he⟩ := List.mem_map.mp hb
    cases he
    rw [OrderedMap.mem_toList.mp hx]
    exact hy
  · intro hb
    cases hr : r.rows.get? a with
    | none =>
      rw [hr] at hb
      exact absurd (OrderedSet.mem_toList.mpr hb) List.not_mem_nil
    | some row =>
      rw [hr] at hb
      exact ⟨(a, row), OrderedMap.mem_toList.mpr hr, List.mem_map.mpr ⟨b, hb, rfl⟩⟩

variable [Std.LawfulEqOrd α]

def add (r : Relation α) (a b : α) : Relation α := ⟨r.rows.update a ∅ (·.insert b)⟩

def ofEdges (l : List (α × α)) : Relation α := ⟨(OrderedMap.group l).mapValues OrderedSet.ofList⟩

theorem keys_ofEdges (l : List (α × α)) :
    (ofEdges l).rows.keys = OrderedSet.ofList (l.map Prod.fst) :=
  OrderedMap.keys_group l

/-! ### The edges after an operation -/

variable [DecidableEq α]

theorem mem_targets_add {r : Relation α} {a b c d : α} :
    d ∈ (r.add a b).targets c ↔ c = a ∧ d = b ∨ d ∈ r.targets c := by
  rw [targets, OrderedMap.getD, add, OrderedMap.get?_update]
  by_cases h : c = a
  · subst h
    simp [targets]
  · simp [h, targets, OrderedMap.getD]

theorem mem_targets_ofEdges {l : List (α × α)} {a b : α} :
    b ∈ (ofEdges l).targets a ↔ (a, b) ∈ l := by
  have hg : (ofEdges l).targets a =
      OrderedSet.ofList ((OrderedMap.group l).getD a []) := by
    rw [targets, OrderedMap.getD, ofEdges, OrderedMap.get?_mapValues, OrderedMap.getD]
    cases (OrderedMap.group l).get? a <;> rfl
  rw [hg, OrderedSet.mem_ofList, OrderedMap.getD_group, List.mem_map]
  constructor
  · rintro ⟨⟨x, y⟩, hx, rfl⟩
    obtain ⟨hl, he⟩ := List.mem_filter.mp hx
    cases of_decide_eq_true he
    exact hl
  · intro h
    exact ⟨(a, b), List.mem_filter.mpr ⟨h, decide_eq_true rfl⟩, rfl⟩

end Relation

/-! ### Transitive closure and propagation

`closure` relates a node to all nodes that a path of one or more edges leads to. `propagate` lets
every node inherit the targets of the nodes it can reach in a second relation. -/

namespace Relation

variable {α : Type u} [Ord α] [Std.TransOrd α] [Std.LawfulEqOrd α]

/-- Give a row, perhaps empty, to every target. -/
def withTargetRows (r : Relation α) : Relation α :=
  ⟨r.edges.foldl (fun rows edge => rows.update edge.2 ∅ id) r.rows⟩

/-- Let every node that leads to `k` lead also to the targets of `k`. -/
def joinThrough (r : Relation α) (k : α) : Relation α :=
  let via := r.targets k
  if via.isEmpty then r
  else ⟨r.rows.mapValues fun row => if row.contains k then row.union via else row⟩

/-- The transitive closure. Every node gets a row: after the rows of the relation come those of the
nodes that are only targets. -/
def closure (r : Relation α) : Relation α :=
  let full := r.withTargetRows
  full.rows.keys.toList.foldl joinThrough full

/-- Every node keeps its targets and inherits those of each node that it reaches in `along`. -/
def propagate (r along : Relation α) : Relation α :=
  ⟨along.closure.edges.foldl
    (fun rows edge =>
      match r.rows.get? edge.2 with
      | some inherited => rows.update edge.1 ∅ (·.union inherited)
      | none => rows)
    r.rows⟩

end Relation

/-! ### Searching for a cycle

A depth-first search from every row in turn. Nodes from which the search has returned without a
cycle are finished and are not entered again. -/

namespace Relation

variable {α : Type u} [Ord α] [Std.TransOrd α] [Std.LawfulEqOrd α] [DecidableEq α]

/-- Search on from `node`, which the nodes of `path` (last one first) lead to. The search fails with
the first walk that comes back to one of its own nodes, and else returns the finished nodes. -/
def search (r : Relation α) :
    Nat → List α → OrderedSet α → α → Except (List α) (OrderedSet α)
  | 0, _, finished, _ => .ok finished
  | depth + 1, path, finished, node =>
    if finished.contains node then .ok finished
    else if node ∈ path then .error (node :: path).reverse
    else do
      let finished ← (r.targets node).toList.foldlM (r.search depth (node :: path)) finished
      return finished.insert node

/-- A walk from a row of the relation to the first node that it meets twice, both occurrences
included; empty if the relation has no cycle. A walk without repetition has all its nodes but the
last among the rows, which bounds the depth of the search. -/
def cycle (r : Relation α) : List α :=
  match r.rows.keys.toList.foldlM (r.search (r.rows.size + 1) []) ∅ with
  | .ok _ => []
  | .error walk => walk

end Relation

end GrammarTables
