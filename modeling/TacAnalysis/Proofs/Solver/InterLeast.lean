import TacAnalysis.CallGraph.ByHierarchy
import TacAnalysis.Proofs.Solver.Inter
import TacAnalysis.Proofs.Solver.Least

/-!
# Least solutions over a whole program

A run ends in a solution of the equations, whether the transfers are monotone or not. If they
are, and the transfer of the entry does not lower the boundary fact, all facts of a run stay
below every solution, so the run ends in the least one.

Without the condition on the entry this fails: a run starts with the boundary fact behind the
entry, and edges carry it on before the entry has its first turn.

Main statement: `exists_solve?_of_build`.
-/

namespace TacAnalysis.SuperAnalysis

variable {F : Type} [PartialOrder F] {a : SuperAnalysis F} {g : SuperGraph} {entry : Nat}
  {f : Nat → F → F} {s t : SolverState F} {input output : Nat → F} {order : WorklistOrder}
  {budget : Nat}

/-- A solution that is below every other one. -/
structure IsLeastSolution (a : SuperAnalysis F) (g : SuperGraph) (entry : Nat) (f : Nat → F → F)
    (input output : Nat → F) : Prop extends a.IsSolution g entry f input output where
  /-- What flows into a node is below what every solution has there. -/
  input_le : ∀ {input' output' : Nat → F}, a.IsSolution g entry f input' output' →
    ∀ n < g.nodeCount, input n ≤ input' n
  /-- What leaves a node is below what every solution has there. -/
  output_le : ∀ {input' output' : Nat → F}, a.IsSolution g entry f input' output' →
    ∀ n < g.nodeCount, output n ≤ output' n

/-- The facts of a state are below given ones. -/
structure Below (a : SuperAnalysis F) (g : SuperGraph) (input output : Nat → F)
    (s : SolverState F) : Prop where
  /-- What flows into the nodes is. -/
  input_le : ∀ n < g.nodeCount, s.inputs a.initial n ≤ input n
  /-- What leaves the nodes is. -/
  output_le : ∀ n < g.nodeCount, s.outputs a.initial n ≤ output n

/-- A run starts below every solution, if the entry does not lower the boundary fact. -/
theorem IsSolution.below_start (h : a.IsSolution g entry f input output) (hj : a.IsJoin)
    (hentry : entry < g.nodeCount) (hmono : Monotone (f entry))
    (hboundary : a.boundary ≤ f entry a.boundary) :
    a.Below g input output (a.start g entry order) := by
  refine ⟨fun n hn => ?_, fun n hn => ?_⟩
  · rw [(start_eq_ite hn).1]
    split
    · rename_i hn
      exact hn ▸ h.boundary_le
    · exact hj.initial_le _
  · rw [(start_eq_ite hn).2]
    split
    · rename_i hn
      rw [hn, h.output_eq entry hentry]
      exact hboundary.trans (hmono h.boundary_le)
    · exact hj.initial_le _

/-- A step stays below every solution, if the transfers are monotone. -/
theorem IsSolution.below_step (h : a.IsSolution g entry f input output) (hg : g.WellFormed)
    (hj : a.IsJoin) (hf : a.Computes f) (hmono : ∀ n < g.nodeCount, Monotone (f n))
    (halong : ∀ e ∈ g.edges, Monotone (a.along e)) (hs : a.Consistent g entry f s)
    (hbelow : a.Below g input output s) (hstep : a.step g s = some t) :
    a.Below g input output t := by
  obtain ⟨n, ht⟩ := exists_turns hf hs hstep
  have hn := hs.waiting_lt n ht.waiting
  have hjoined : a.joined g s n ≤ input n := by
    refine (joined_le_iff hj).2 ⟨hbelow.input_le n hn, fun e he htarget => ?_⟩
    have hsource := hbelow.output_le e.source (hg.source_lt e he)
    exact (halong e he hsource).trans (htarget ▸ h.along_le e he)
  refine ⟨fun m hm => ?_, fun m hm => ?_⟩
  · rw [ht.inputs_eq, Function.update_apply]
    split
    · rename_i hmn
      exact hmn ▸ hjoined
    · exact hbelow.input_le m hm
  · rw [ht.outputs_eq, Function.update_apply]
    split
    · rename_i hmn
      rw [hmn, h.output_eq n hn]
      exact hmono n hn hjoined
    · exact hbelow.output_le m hm

/-- With monotone transfers a run ends in the least solution. -/
theorem isLeastSolution_of_run? (hg : g.WellFormed) (hj : a.IsJoin) (hf : a.Computes f)
    (hentry : entry < g.nodeCount) (hmono : ∀ n < g.nodeCount, Monotone (f n))
    (halong : ∀ e ∈ g.edges, Monotone (a.along e)) (hboundary : a.boundary ≤ f entry a.boundary)
    (h : a.run? g entry order budget = some s) :
    a.IsLeastSolution g entry f (s.inputs a.initial) (s.outputs a.initial) := by
  have hbelow : ∀ {input' output' : Nat → F}, a.IsSolution g entry f input' output' →
      a.Below g input' output' s := by
    intro input' output' h'
    have hstart : a.Below g input' output' (a.start g entry order) :=
      h'.below_start hj hentry (hmono entry hentry) hboundary
    exact (of_run? hg hj hf hentry hstart
      (fun s t hs hbelow hstep => h'.below_step hg hj hf hmono halong hs hbelow hstep) h).2.1
  exact ⟨isSolution_of_run? hg hj hf hentry h, fun h' => (hbelow h').input_le,
    fun h' => (hbelow h').output_le⟩

/-- On every graph of a whole program that has an entry, in either order, the solver ends with
a solution of the equations. It is the least one if the transfers are monotone and the
entry does not lower the boundary fact. -/
theorem exists_solve?_of_build [WellFoundedGT F] {p : Program} {calls : CallGraph}
    (hbuild : SuperGraph.build p calls = .ok g) (hentry : entryNode? g = some entry)
    (hj : a.IsJoin) (hf : a.Computes f) (order : WorklistOrder) :
    (∃ budget r, a.solve? g order budget = some r) ∧
      ∀ budget r, a.solve? g order budget = some r → ∃ input output,
        (∀ n, r.inFact? n = (if n < g.nodeCount then some (input n) else none) ∧
          r.outFact? n = if n < g.nodeCount then some (output n) else none) ∧
        a.IsSolution g entry f input output ∧
        ((∀ n < g.nodeCount, Monotone (f n)) → (∀ e ∈ g.edges, Monotone (a.along e)) →
          a.boundary ≤ f entry a.boundary → a.IsLeastSolution g entry f input output) := by
  have hg := SuperGraph.wellFormed_of_build hbuild
  have hlt := entryNode?_lt hentry
  refine ⟨?_, fun budget r hr => ?_⟩
  · obtain ⟨budget, s, hs⟩ := exists_run? hg hj hf hlt order
    exact ⟨budget, result s, by rw [solve?_eq_map hentry, hs, Option.map_some]⟩
  · obtain ⟨s, hs, hinput, houtput⟩ := facts_of_solve? hg hj hf hentry hr
    exact ⟨s.inputs a.initial, s.outputs a.initial, fun n => ⟨hinput n, houtput n⟩,
      isSolution_of_run? hg hj hf hlt hs,
      fun hmono halong hboundary => isLeastSolution_of_run? hg hj hf hlt hmono halong hboundary hs⟩

/-! ## A method that calls itself -/

/-- A node with a statement adds one to the count. -/
def countStmt (g : SuperGraph) (n : Nat) (count : Fin 11) : Fin 11 :=
  if (g.stmt? n).isSome then FlowAnalysis.oneMore count else count

/-- The longest way to a node, in statements and up to ten. -/
def longestRun (g : SuperGraph) : SuperAnalysis (Fin 11) where
  boundary := FlowAnalysis.noCount
  initial := FlowAnalysis.noCount
  meet := max
  transfer n input output := (decide (countStmt g n input ≠ output), countStmt g n input)
  along _ count := count

theorem isJoin_longestRun (g : SuperGraph) : (longestRun g).IsJoin where
  initial_le := Fin.zero_le
  meet_le_iff _ _ _ := max_le_iff

theorem computes_longestRun (g : SuperGraph) : (longestRun g).Computes (countStmt g) where
  output_eq _ _ _ := rfl
  changed_iff _ _ _ := decide_eq_true_iff

theorem countStmt_mono (g : SuperGraph) (n : Nat) : Monotone (countStmt g n) := by
  intro x y hxy
  unfold countStmt
  split
  · exact FlowAnalysis.oneMore_mono hxy
  · exact hxy

/-- The entry method calls itself. -/
def recurringCommands : List Command := [
  .addClass "A" none [], .addMethod 0 "void main()" true,
  .pushStmts 0 [.invoke ⟨.static, ⟨0, "void main()"⟩, none, [], none⟩, .ret none],
  .setEntry 0]

/-- The program of these declarations. -/
def recurring : Program := (Program.ofCommands? recurringCommands).get (by decide +kernel)

/-- The graph of the program: the call leads back to the entry, and the exit to what follows
the call. -/
def recurringGraph : SuperGraph where
  program := recurring
  graphs := [⟨recurring.methods.head (by decide +kernel),
    [⟨0, 1, .entry⟩, ⟨1, 2, .fallThrough⟩, ⟨2, 3, .ret⟩]⟩]
  edges := [⟨0, 1, .normal .entry⟩, ⟨1, 2, .callToReturn ⟨0, 0⟩⟩, ⟨2, 3, .normal .ret⟩,
    ⟨1, 0, .call ⟨0, 0⟩ 0⟩, ⟨3, 2, .ret ⟨0, 0⟩ 0⟩]

theorem build_recurring :
    SuperGraph.build recurring (CallGraph.ofHierarchy recurring) = .ok recurringGraph := by
  rfl

/-- The entry is entered again and again, so the count reaches ten behind it and everywhere
else in either order, and no solution has less. -/
theorem longestRun_recurring :
    SuperGraph.build recurring (CallGraph.ofHierarchy recurring) = .ok recurringGraph ∧
      entryNode? recurringGraph = some 0 ∧ (longestRun recurringGraph).IsJoin ∧
      (longestRun recurringGraph).Computes (countStmt recurringGraph) ∧
      ∀ order, (∀ n < 4, ((longestRun recurringGraph).solve? recurringGraph order 60).map
          (·.outFact? n) = some (some 10)) ∧
        ∀ input output, (longestRun recurringGraph).IsSolution recurringGraph 0
          (countStmt recurringGraph) input output → ∀ n < 4, 10 ≤ output n := by
  have hentry : entryNode? recurringGraph = some 0 := by decide +kernel
  have hcount : recurringGraph.nodeCount = 4 := by decide +kernel
  refine ⟨build_recurring, hentry, isJoin_longestRun _, computes_longestRun _, fun order => ?_⟩
  have hten : ∀ n < 4, ((longestRun recurringGraph).solve? recurringGraph order 60).map
      (·.outFact? n) = some (some 10) := by
    cases order <;> decide +kernel
  refine ⟨hten, fun input' output' hsolution n hn => ?_⟩
  obtain ⟨r, hr, hfact⟩ := Option.map_eq_some_iff.1 (hten n hn)
  obtain ⟨input, output, hfacts, -, hleast⟩ := (exists_solve?_of_build build_recurring hentry
    (isJoin_longestRun _) (computes_longestRun _) order).2 60 r hr
  have hle := (hleast (fun m _ => countStmt_mono _ m) (fun _ _ => monotone_id)
    (Fin.zero_le _)).output_le hsolution n (hcount ▸ hn)
  have houtput := (hfacts n).2
  rw [if_pos (hcount ▸ hn), hfact] at houtput
  exact Option.some.inj houtput ▸ hle

end TacAnalysis.SuperAnalysis
