import TacAnalysis.Solver.Inter
import TacAnalysis.Solver.Intra

/-!
# Gen/kill problems

The classical bit-vector analyses: a fact is a set of integers, whatever they stand for,
and a node or an edge removes some members and then adds others. Facts are united or
intersected where paths meet.
-/

namespace TacAnalysis

/-- A fact of a gen/kill problem. -/
abbrev GenKill.Fact := SortedSet Int

/-- What a node or an edge does to a fact. -/
structure GenKill where
  /-- The members that are added. -/
  gen : GenKill.Fact
  /-- The members that are removed first. -/
  kill : GenKill.Fact

namespace GenKill

/-- Nothing is added or removed. -/
def identity : GenKill := ⟨∅, ∅⟩

/-- The fact behind a node or an edge. -/
def apply (e : GenKill) (fact : Fact) : Fact := (fact.diff e.kill).union e.gen

@[simp] theorem mem_apply {e : GenKill} {fact : Fact} {x : Int} :
    x ∈ e.apply fact ↔ (x ∈ fact ∧ ¬ x ∈ e.kill) ∨ x ∈ e.gen := by
  simp [apply]

/-- The transfer of a node: its new output, and whether it differs from the old one. -/
def transfer (e : GenKill) (input output : Fact) : Bool × Fact :=
  (decide (e.apply input ≠ output), e.apply input)

/-- How facts are joined. -/
inductive Join where
  | union
  | intersect
  deriving DecidableEq

/-- Joins a fact into a target. -/
def Join.meet (j : Join) (fact target : Fact) : Fact :=
  match j with
  | union => target.union fact
  | intersect => target.inter fact

/-- A problem; sites that it does not mention change nothing. -/
structure Problem where
  /-- Where facts flow to. -/
  direction : Direction
  /-- How facts are joined where paths meet. -/
  join : Join
  /-- The fact at the boundary. -/
  boundary : Fact
  /-- The fact that all other nodes start with. -/
  initial : Fact
  /-- What the statement at a site does. -/
  atSite : Site → GenKill
  /-- What an edge between nodes of the whole program does. -/
  atEdge : SuperEdgeKind → GenKill

namespace Problem

variable (s : Problem)

/-- The problem on the graph of one method. -/
def analysis (g : FlowGraph) : FlowAnalysis Fact where
  direction := s.direction
  boundary := s.boundary
  initial := s.initial
  meet := s.join.meet
  transfer n := match g.stmtIndex? n with
    | some index => (s.atSite ⟨g.method.id, index⟩).transfer
    | none => identity.transfer

/-- The problem on the control flow of a whole program; facts flow forward. -/
def superAnalysis (g : SuperGraph) : SuperAnalysis Fact where
  boundary := s.boundary
  initial := s.initial
  meet := s.join.meet
  transfer n := match g.locals[n]? with
    | some (h, l) => match h.stmtIndex? l with
      | some index => (s.atSite ⟨h.method.id, index⟩).transfer
      | none => identity.transfer
    | none => identity.transfer
  along e := (s.atEdge e.kind).apply

end Problem

end GenKill

end TacAnalysis
