import TacAnalysis.PointsTo.Solver

/-!
# The rules of pointer analysis

What an inclusion-based pointer analysis with calls resolved on the way is meant to find:
the least sets of reached methods, calls, flows between places and objects at places that
are closed under the rules for statements. The rules say nothing about the order in which
anything is found, or about what waits for what.
-/

namespace TacAnalysis

/-- The statement makes objects flow from one place to another. -/
inductive Stmt.Links : Stmt → Pointer → Pointer → Prop where
  | copy (lhs source : VarId) : Links (.assign lhs (.var source)) (.var source) (.var lhs)
  | cast (lhs source : VarId) (ty : Ty) : Links (.assign lhs (.cast ty source)) (.var source) (.var lhs)
  | loadStatic (lhs : VarId) (f : FieldId) :
      Links (.assign lhs (.staticField f)) (.staticField f) (.var lhs)
  | storeStatic (f : FieldId) (value : VarId) :
      Links (.storeField none f value) (.var value) (.staticField f)

/-- The statement goes through `base`, and makes objects flow to or from the memory of an
object at `base`. -/
inductive Stmt.LinksThrough (base : VarId) (o : ObjId) : Stmt → Pointer → Pointer → Prop where
  | storeField (f : FieldId) (value : VarId) :
      LinksThrough base o (.storeField (some base) f value) (.var value) (.instanceField o f)
  | loadField (lhs : VarId) (f : FieldId) :
      LinksThrough base o (.assign lhs (.instanceField base f)) (.instanceField o f) (.var lhs)
  | storeArray (index value : VarId) :
      LinksThrough base o (.storeArray base index value) (.var value) (.arrayIndex o)
  | loadArray (lhs index : VarId) :
      LinksThrough base o (.assign lhs (.arrayAccess base index)) (.arrayIndex o) (.var lhs)

/-- The call makes objects flow into the callee, to the parameters, as many as there are
arguments, and out of it, from the returned variables. -/
inductive Invoke.Passes (call : Invoke) (callee : Method) : Pointer → Pointer → Prop where
  | argument {arg param : VarId} (h : (arg, param) ∈ call.args.zip callee.params) :
      Passes call callee (.var arg) (.var param)
  | result {v result : VarId} (hv : .ret (some v) ∈ callee.stmts) (h : call.result = some result) :
      Passes call callee (.var v) (.var result)

/-- A statement makes objects flow between one pair of places only. -/
theorem Stmt.Links.unique {stmt : Stmt} {x y z w : Pointer} (h : stmt.Links x y)
    (h' : stmt.Links z w) : z = x ∧ w = y := by
  cases h <;> cases h' <;> exact ⟨rfl, rfl⟩

/-- Something that a pointer analysis finds. -/
inductive PointsToFact where
  /-- The method is reached. -/
  | reached (m : MethodId)
  /-- The call is made. -/
  | called (e : CallEdge)
  /-- Objects flow from one place to another. -/
  | flows (x y : Pointer)
  /-- The object comes to the place. -/
  | holds (x : Pointer) (o : ObjId)

/-- The facts that the rules derive. -/
inductive Derived (p : Program) (h : HeapModel) : PointsToFact → Prop where
  | entry {m : MethodId} (hentry : p.entry = some m) : Derived p h (.reached m)
  | link {site : Site} {stmt : Stmt} {x y : Pointer} (reached : Derived p h (.reached site.method))
      (hstmt : p.stmt? site = some stmt) (hlink : stmt.Links x y) : Derived p h (.flows x y)
  | alloc {site : Site} {lhs : VarId} {ty : Ty} {o : ObjId}
      (reached : Derived p h (.reached site.method))
      (hstmt : p.stmt? site = some (.assign lhs (.new ty))) (hobj : h.objAt? site = some o) :
      Derived p h (.holds (.var lhs) o)
  | staticCall {site : Site} {call : Invoke} {callee : MethodId}
      (reached : Derived p h (.reached site.method))
      (hstmt : p.stmt? site = some (.invoke call)) (hkind : call.kind = .static)
      (hcallee : p.resolveCallee none call = some callee) :
      Derived p h (.called ⟨.static, site, callee⟩)
  | linkThrough {site : Site} {stmt : Stmt} {base : VarId} {o : ObjId} {x y : Pointer}
      (holds : Derived p h (.holds (.var base) o)) (hstmt : p.stmt? site = some stmt)
      (hlink : stmt.LinksThrough base o x y) : Derived p h (.flows x y)
  | instanceCall {site : Site} {call : Invoke} {receiver : VarId} {o : ObjId} {callee : MethodId}
      (holds : Derived p h (.holds (.var receiver) o))
      (hstmt : p.stmt? site = some (.invoke call)) (hreceiver : call.receiver = some receiver)
      (hcallee : p.resolveCallee (h.ty? o) call = some callee) :
      Derived p h (.called ⟨call.kind, site, callee⟩)
  | self {site : Site} {call : Invoke} {receiver self : VarId} {o : ObjId} {callee : MethodId}
      {method : Method} (holds : Derived p h (.holds (.var receiver) o))
      (hstmt : p.stmt? site = some (.invoke call)) (hreceiver : call.receiver = some receiver)
      (hcallee : p.resolveCallee (h.ty? o) call = some callee)
      (hmethod : p.method? callee = some method) (hself : method.thisVar = some self) :
      Derived p h (.holds (.var self) o)
  | callee {e : CallEdge} (called : Derived p h (.called e)) : Derived p h (.reached e.callee)
  | pass {e : CallEdge} {call : Invoke} {method : Method} {x y : Pointer}
      (called : Derived p h (.called e)) (hstmt : p.stmt? e.site = some (.invoke call))
      (hmethod : p.method? e.callee = some method) (hpass : call.Passes method x y) :
      Derived p h (.flows x y)
  | flow {x y : Pointer} {o : ObjId} (flows : Derived p h (.flows x y))
      (holds : Derived p h (.holds x o)) : Derived p h (.holds y o)

end TacAnalysis
