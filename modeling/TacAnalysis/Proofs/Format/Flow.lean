import TacAnalysis.Format.Flow
import TacAnalysis.Proofs.Format.Program

/-!
# Reading graphs back

Calls, control-flow edges and the edges between methods are read back as they were written, if
their numbers are in range.

Main statements: `CallEdge.reads`, `FlowEdge.reads`, `NodeKind.reads` and `SuperEdge.reads`.
-/

namespace TacAnalysis

open Json

/-- The numbers of a call edge. -/
def CallEdge.numbers (e : CallEdge) : List Nat := e.callee :: e.site.numbers

/-- Call edges are read back. -/
theorem CallEdge.reads {e : CallEdge} (h : InRange e.numbers) :
    Reads CallEdge.decode e.toJson e := by
  have hkind := e.kind.reads
  have hsite := Site.reads (inRange_cons.1 h).2
  have hcallee := reads_nat (inRange_cons.1 h).1
  refine .record rfl (by decide) ⟨hkind.plain, hsite.plain, hcallee.plain⟩
    fun room hroom => ?_
  obtain ⟨h₁, h₂, h₃⟩ := hroom
  simp [hkind.field h₁, hsite.field h₂, hcallee.field h₃]

/-- The numbers in what a node stands for. -/
def NodeKind.numbers : NodeKind → List Nat
  | stmt index => [index]
  | _ => []

/-- What nodes stand for is read back. -/
theorem NodeKind.reads {kind : NodeKind} (h : InRange kind.numbers) :
    Reads NodeKind.decode kind.toJson kind := by
  cases kind with
  | entry => exact .plainChoice rfl
  | stmt index => exact .taggedChoice rfl ((reads_nat (inRange_cons.1 h).1).map stmt)
  | exit => exact .plainChoice rfl

/-- Kinds of edges are read back. -/
theorem EdgeKind.reads (kind : EdgeKind) : Reads EdgeKind.decode kind.toJson kind := by
  cases kind with
  | switchCase value => exact .taggedChoice rfl ((reads_int32 value).map switchCase)
  | _ => exact .plainChoice rfl

/-- The numbers of a control-flow edge. -/
def FlowEdge.numbers (e : FlowEdge) : List Nat := [e.source, e.target]

/-- Control-flow edges are read back. -/
theorem FlowEdge.reads {e : FlowEdge} (h : InRange e.numbers) :
    Reads FlowEdge.decode e.toJson e := by
  simp only [numbers, inRange_cons] at h
  have hsource := reads_nat h.1
  have htarget := reads_nat h.2.1
  have hkind := e.kind.reads
  refine .record rfl (by decide) ⟨hsource.plain, htarget.plain, hkind.plain⟩
    fun room hroom => ?_
  obtain ⟨h₁, h₂, h₃⟩ := hroom
  simp [hsource.field h₁, htarget.field h₂, hkind.field h₃]

namespace SuperEdgeKind

/-- The numbers in why control goes along an edge. -/
def numbers : SuperEdgeKind → List Nat
  | normal _ => []
  | callToReturn site => site.numbers
  | call site callee => callee :: site.numbers
  | ret site callee => callee :: site.numbers

/-- A call site with a callee is read back. -/
theorem reads_link {site : Site} {callee : MethodId} (h : InRange (callee :: site.numbers))
    (make : Site → MethodId → SuperEdgeKind) :
    Reads (decodeLink make) (linkToJson site callee) (make site callee) := by
  have hsite := Site.reads (inRange_cons.1 h).2
  have hcallee := reads_nat (inRange_cons.1 h).1
  refine .record rfl (by decide) ⟨hsite.plain, hcallee.plain⟩ fun room hroom => ?_
  obtain ⟨h₁, h₂⟩ := hroom
  simp [hsite.field h₁, hcallee.field h₂]

/-- Why control goes along an edge is read back. -/
theorem reads {kind : SuperEdgeKind} (h : InRange kind.numbers) :
    Reads SuperEdgeKind.decode kind.toJson kind := by
  cases kind with
  | normal kind => exact .taggedChoice rfl (kind.reads.map normal)
  | callToReturn site =>
    have hsite := Site.reads h
    refine .taggedChoice rfl (.record rfl (by decide) hsite.plain fun room h₁ => ?_)
    simp [hsite.field h₁]
  | call site callee => exact .taggedChoice rfl (reads_link h call)
  | ret site callee => exact .taggedChoice rfl (reads_link h ret)

end SuperEdgeKind

/-- The numbers of an edge between nodes of a whole program. -/
def SuperEdge.numbers (e : SuperEdge) : List Nat := [e.source, e.target] ++ e.kind.numbers

/-- Edges between nodes of a whole program are read back. -/
theorem SuperEdge.reads {e : SuperEdge} (h : InRange e.numbers) :
    Reads SuperEdge.decode e.toJson e := by
  simp only [numbers, inRange_append, inRange_cons] at h
  have hsource := reads_nat h.1.1
  have htarget := reads_nat h.1.2.1
  have hkind := SuperEdgeKind.reads h.2
  refine .record rfl (by decide) ⟨hsource.plain, htarget.plain, hkind.plain⟩
    fun room hroom => ?_
  obtain ⟨h₁, h₂, h₃⟩ := hroom
  simp [hsource.field h₁, htarget.field h₂, hkind.field h₃]

end TacAnalysis
