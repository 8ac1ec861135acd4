/-!
# Searching a graph

Both searches visit every node that can be reached from the pending ones once, and list
them in the order of the visits. They differ in where newly found nodes wait: before the
others in a depth-first search, behind them in a breadth-first search. A node may be
pending more than once; only its first turn counts.

Each turn takes one pending node, and a node adds its successors once, so over nodes
below `size` there are never more turns than pending nodes and successors together.
-/

namespace TacAnalysis.Search

/-- Takes at most `turns` turns: `arrange` puts the successors of a visited node among
the pending ones. The visited nodes are listed in order. -/
def visit (next : Nat → List Nat) (arrange : List Nat → List Nat → List Nat) :
    Nat → List Nat → List Nat → List Nat
  | 0, visited, _ => visited
  | _, visited, [] => visited
  | turns + 1, visited, n :: pending =>
    if n ∈ visited then visit next arrange turns visited pending
    else visit next arrange turns (visited ++ [n]) (arrange (next n) pending)

/-- A number of turns that suffices over nodes below `size`. -/
def turnBound (next : Nat → List Nat) (size : Nat) (pending : List Nat) : Nat :=
  (List.range size).foldl (fun turns n => turns + (next n).length) pending.length

/-- The nodes in the order of a depth-first search. -/
def depthFirst (next : Nat → List Nat) (size : Nat) (pending : List Nat) : List Nat :=
  visit next (fun new old => new ++ old) (turnBound next size pending) [] pending

/-- The nodes in the order of a breadth-first search. -/
def breadthFirst (next : Nat → List Nat) (size : Nat) (pending : List Nat) : List Nat :=
  visit next (fun new old => old ++ new) (turnBound next size pending) [] pending

end TacAnalysis.Search
