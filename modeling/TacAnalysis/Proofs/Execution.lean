import Mathlib.Logic.Function.Basic
import TacAnalysis.Proofs.Constants.Arithmetic
import TacAnalysis.Proofs.ControlFlow.WellFormed

/-!
# Runs of a method

What a method can do, as far as its integer variables are concerned. A run knows the values
of those that it has assigned or that were passed to it. Literals, copies and operators on
such variables give what they say; a comparison of anything else gives some truth value, and
every other right-hand side, like the result of a call, some integer. A quotient by zero
gives nothing, so a run ends there.

A run moves along the edges of the graph, to which a condition on the edges that it may take
is added. One condition takes a branch or a switch by the value on which it depends. A run
never reads an integer variable that it does not know.
-/

namespace TacAnalysis

/-- The values of the integer variables that a run knows. -/
abbrev Store := VarId → Option Int32

/-- How far a run has come: the node that it is at, and what it knows there. -/
structure RunState where
  /-- The node that comes next. -/
  node : NodeId
  /-- The values that the run knows. -/
  store : Store

variable (p : Program) (g : FlowGraph)

/-- A right-hand side can give a value to an integer variable. -/
def Yields (s : Store) (exp : Exp) (c : Int32) : Prop :=
  match exp with
  | .intLiteral value => c = value
  | .var source => p.holdsInt source = true → s source = some c
  | .binary e =>
    if p.holdsInt e.lhs = true ∧ p.holdsInt e.rhs = true then
      ∃ a b, s e.lhs = some a ∧ s e.rhs = some b ∧ e.op.result? a b = some c
    else e.op.isComparison = true → ∃ b, c = truth b
  | _ => True

/-- A node with this statement can turn one store into another. -/
def Effect (s : Store) (stmt : Option Stmt) (t : Store) : Prop :=
  match stmt with
  | some (.assign lhs rhs) =>
    if p.holdsInt lhs = true then ∃ c, Yields p s rhs c ∧ t = Function.update s lhs (some c)
    else t = s
  | some (.invoke call) =>
    match call.result with
    | some result =>
      if p.holdsInt result = true then ∃ c, t = Function.update s result (some c) else t = s
    | none => t = s
  | _ => t = s

/-- A condition can hold, if `taken`, or fail. Between integer variables it holds if its
value is not zero; of anything else nothing is known. -/
def Decides (s : Store) (condition : BinaryExp) (taken : Bool) : Prop :=
  p.holdsInt condition.lhs = true → p.holdsInt condition.rhs = true →
    ∃ a b c, s condition.lhs = some a ∧ s condition.rhs = some b ∧
      condition.op.result? a b = some c ∧ (c ≠ 0 ↔ taken = true)

/-- The values that a run knows let control take an edge. -/
def Selects (s : Store) (e : FlowEdge) : Prop :=
  match g.stmt? e.source, e.kind with
  | some (.branch condition _), .ifTrue => Decides p s condition true
  | some (.branch condition _), .ifFalse => Decides p s condition false
  | some (.switch selector _ _), .switchCase value =>
    p.holdsInt selector = true → s selector = some value
  | some (.switch selector cases _), .switchDefault =>
    p.holdsInt selector = true → ∃ c, s selector = some c ∧ ∀ branch ∈ cases, branch.1 ≠ c
  | _, _ => True

/-- A run moves along an edge of the graph. -/
structure Moves (e : FlowEdge) (c d : RunState) : Prop where
  /-- The edge is one of the graph. -/
  mem_edges : e ∈ g.edges
  /-- The edge leaves the node that comes next. -/
  source_eq : e.source = c.node
  /-- The node to which the edge leads comes next afterwards. -/
  target_eq : e.target = d.node
  /-- The integer variables that the node reads are known. -/
  known : ∀ stmt, g.stmt? c.node = some stmt → ∀ v ∈ stmt.uses, p.holdsInt v = true →
    c.store v ≠ none
  /-- The statement of the node has its effect. -/
  effect : Effect p c.store (g.stmt? c.node) d.store

/-- A run that only takes edges as `may` allows has passed the nodes of a list, the last
one first, and arrives at a state. It begins at the entry, where it knows just the
integer parameters. -/
inductive Arrives (may : Store → FlowEdge → Prop) : List NodeId → RunState → Prop where
  | entry (s : Store)
      (known : ∀ v, s v ≠ none ↔ v ∈ g.method.params ∧ p.holdsInt v = true) :
      Arrives may [] ⟨g.entry, s⟩
  | move {past : List NodeId} {c d : RunState} {e : FlowEdge} (before : Arrives may past c)
      (moves : Moves p g e c d) (allowed : may c.store e) : Arrives may (c.node :: past) d

variable {p g}

/-- A run moves on behind a statement that reads known variables. -/
theorem Moves.of_stmt? {e : FlowEdge} {c d : RunState} {stmt : Stmt} (he : e ∈ g.edges)
    (hsource : e.source = c.node) (htarget : e.target = d.node) (hstmt : g.stmt? c.node = some stmt)
    (hknown : ∀ v ∈ stmt.uses, p.holdsInt v = true → c.store v ≠ none)
    (heffect : Effect p c.store (some stmt) d.store) : Moves p g e c d where
  mem_edges := he
  source_eq := hsource
  target_eq := htarget
  known other hother := by
    rw [hstmt] at hother
    rwa [← Option.some.inj hother]
  effect := hstmt ▸ heffect

variable {may : Store → FlowEdge → Prop} {past : List NodeId} {c : RunState}

/-- A run never leaves the nodes of the graph. -/
theorem node_lt_of_arrives (hg : g.WellFormed) (h : Arrives p g may past c) :
    c.node < g.nodeCount := by
  cases h with
  | entry => exact Nat.succ_pos _
  | move _ moves => exact Nat.lt_succ_of_le (moves.target_eq ▸ hg.target_le _ moves.mem_edges)

/-- All nodes that a run has passed are nodes of the graph. -/
theorem lt_of_mem_past (hg : g.WellFormed) (h : Arrives p g may past c) :
    ∀ n ∈ past, n < g.nodeCount := by
  induction h with
  | entry => simp
  | move before _ _ ih =>
    intro n hn
    rcases List.mem_cons.1 hn with rfl | hn
    · exact node_lt_of_arrives hg before
    · exact ih n hn

end TacAnalysis
