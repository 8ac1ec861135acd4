import TacAnalysis.Program.Basic

/-!
# Call graphs

A call graph says where runs begin, which methods they can reach and which call sites
may call which methods. Each list holds what was entered, once, in the order of its
first entry; all other views are read off these lists.
-/

namespace TacAnalysis

/-- A call site that may call a method. -/
structure CallEdge where
  /-- The kind of the call. -/
  kind : CallKind
  /-- The statement that makes the call. -/
  site : Site
  /-- The method that may be called. -/
  callee : MethodId
  deriving DecidableEq, Inhabited

/-- Which methods may be called from where. -/
structure CallGraph where
  /-- The methods with which runs begin. -/
  entries : List MethodId
  /-- The methods that runs can reach. -/
  reachable : List MethodId
  /-- The calls that runs can make. -/
  edges : List CallEdge
  deriving DecidableEq, Inhabited

namespace CallGraph

/-- Nothing is known yet. -/
def empty : CallGraph := ⟨[], [], []⟩

/-- Appends an element to a list, unless it is there already. -/
def addOnce {α : Type} [DecidableEq α] (x : α) (xs : List α) : List α :=
  if x ∈ xs then xs else xs ++ [x]

@[simp] theorem mem_addOnce {α : Type} [DecidableEq α] {x y : α} {xs : List α} :
    y ∈ addOnce x xs ↔ y = x ∨ y ∈ xs := by
  unfold addOnce
  split
  · grind
  · simp [or_comm]

/-- A list without repetitions stays one. -/
theorem nodup_addOnce {α : Type} [DecidableEq α] {x : α} {xs : List α} (h : xs.Nodup) :
    (addOnce x xs).Nodup := by
  unfold addOnce
  split
  · exact h
  · rename_i hx
    rw [List.nodup_append]
    refine ⟨h, by simp, ?_⟩
    rintro a ha b hb rfl
    rw [List.mem_singleton] at hb
    exact hx (hb ▸ ha)

variable (g : CallGraph)

/-- Adds a method with which runs begin. -/
def addEntry (m : MethodId) : CallGraph := { g with entries := addOnce m g.entries }

/-- Adds a reachable method. -/
def addReachable (m : MethodId) : CallGraph := { g with reachable := addOnce m g.reachable }

/-- Adds a call. -/
def addEdge (e : CallEdge) : CallGraph := { g with edges := addOnce e g.edges }

/-- Whether a method is reachable. -/
def contains (m : MethodId) : Bool := decide (m ∈ g.reachable)

/-- Whether a call is known. -/
def hasEdge (e : CallEdge) : Bool := decide (e ∈ g.edges)

/-- The methods that a call site may call, once for each edge. -/
def calleesOf (s : Site) : List MethodId := (g.edges.filter (·.site = s)).map (·.callee)

/-- The call sites that may call a method, once for each edge. -/
def callersOf (m : MethodId) : List Site := (g.edges.filter (·.callee = m)).map (·.site)

/-- How many methods are reachable. -/
def reachableCount : Nat := g.reachable.length

/-- How many calls are known. -/
def edgeCount : Nat := g.edges.length

end CallGraph

/-- Whether a list of numbers comes before another one of the same length, or is the same:
the first place where they differ decides. -/
def lexLE : List Nat → List Nat → Bool
  | x :: xs, y :: ys => x < y || (x == y && lexLE xs ys)
  | _, _ => true

/-- What edges are ordered by: kind, then site, then callee. -/
def CallEdge.sortKey (e : CallEdge) : List Nat :=
  [e.kind.rank, e.site.method, e.site.index, e.callee]

/-- Whether an edge is not behind another one in listings. -/
def CallEdge.precedes (a b : CallEdge) : Bool := lexLE a.sortKey b.sortKey

/-- The calls in the order of edges. -/
def CallGraph.sortedEdges (g : CallGraph) : List CallEdge := g.edges.mergeSort CallEdge.precedes

end TacAnalysis
