import MergeForm.Arena.Basic
import MergeForm.Passes.Observer

/-! Programs as trees.  A tree has its operands, blocks and merge entries in it and its names as
strings, so it knows nothing of numbers and runs.  It is put into an arena from the bottom up: the
parts of a node, then their list, then the node.  The log of a tree is what a reader meets in it. -/

namespace MergeForm

/-! ### Trees -/

mutual

/-- An expression with its source span. -/
inductive ExprTree
  | node (form : FormTree) (span : Span)

/-- An expression proper; references to functions and types are leaves. -/
inductive FormTree
  | var (name : String)
  | const (value : Const)
  | untypedFn (func : FnId)
  | typedFn (func : FnId)
  | typeValue (ty : TypeId)
  | attribute (value : ExprTree) (name : String)
  | cast (value : ExprTree) (ty : TypeId)
  | closureElt (closure : ExprTree) (index : UInt32)
  | tupleProj (tuple : ExprTree) (index : UInt32)
  | tuple (elts : List ExprTree)
  | struct (args : List ExprTree)
  | array (elts : List ExprTree)
  | index (value index : ExprTree)
  | slice (start stop step : ExprTree)
  | range (start stop step : ExprTree)
  | primCall (prim : Prim) (args : List ExprTree)
  | call (func : ExprTree) (args : List ExprTree)
  | closure (func : ExprTree) (args : List ExprTree)
  | alloc (count : ExprTree) (eltTy : TypeId)
  | allocArray (shape : ExprTree) (eltTy : TypeId)
  | arrayView (data shape strides offset size : ExprTree)
  | shape (array : ExprTree)
  | strides (array : ExprTree)
  | ravel (array : ExprTree)
  | reshape (array shape : ExprTree)
  | map (func : ExprTree) (args : List ExprTree)
  | outerMap (func : ExprTree) (args : List ExprTree)
  | reduce (func : ExprTree) (init : Option ExprTree) (args : List ExprTree)
  | scan (func : ExprTree) (init : Option ExprTree) (args : List ExprTree)
  | indexMap (func shape : ExprTree)
  | indexReduce (func combine shape init : ExprTree)
  | indexScan (func : ExprTree) (init : Option ExprTree) (shape : ExprTree)

end

/-- The expressions that may stand on the left of an assignment. -/
inductive TargetTree
  | var (name : String)
  | tuple (elts : List ExprTree)
  | index (value index : ExprTree)
  | attribute (value : ExprTree) (name : String)

def TargetTree.form : TargetTree → FormTree
  | .var s => .var s
  | .tuple elts => .tuple elts
  | .index v i => .index v i
  | .attribute v s => .attribute v s

/-- A target with its source span. -/
structure TargetNode where
  target : TargetTree
  span : Span

/-- One entry of a merge map. -/
structure EntryTree where
  name : String
  left : ExprTree
  right : ExprTree

mutual

/-- A statement with its source span. -/
inductive StmtTree
  | node (form : StmtFormTree) (span : Span)

/-- A statement proper, with its blocks and its merge map in it. -/
inductive StmtFormTree
  | assign (lhs : TargetNode) (rhs : ExprTree)
  | eval (value : ExprTree)
  | ret (value : ExprTree)
  | comment (words : String)
  | ifElse (cond : ExprTree) (trueBlock falseBlock : List StmtTree) (merge : List EntryTree)
  | whileLoop (cond : ExprTree) (body : List StmtTree) (merge : List EntryTree)
  | forLoop (var : TargetNode) (start stop step : ExprTree) (body : List StmtTree)
      (merge : List EntryTree)
  | parFor (func bounds : ExprTree)

end

structure FunctionTree where
  name : String
  typing : Typing
  params : List String
  body : List StmtTree
  span : Span

/-! ### Building -/

/-- An arena and the names of what is in it. -/
structure Draft where
  names : Interner
  arena : Arena

namespace Draft

def intern (s : String) : StateM Draft Name := fun d =>
  ((d.names.intern s).1, { d with names := (d.names.intern s).2 })

def expr (f : Expr.Form) (span : Span) : StateM Draft ExprId := fun d =>
  ((d.arena.addExpr ⟨.form f, span⟩).1, { d with arena := (d.arena.addExpr ⟨.form f, span⟩).2 })

def list (ids : List ExprId) : StateM Draft ExprRange := fun d =>
  ((d.arena.addList ids).1, { d with arena := (d.arena.addList ids).2 })

/-- Stores a block of statements, each given as a form with its span. -/
def block (parts : List (Stmt.Form × Span)) : StateM Draft StmtRange := fun d =>
  let stmts := parts.map fun p => ⟨.form p.1, p.2⟩
  ((d.arena.addBlock stmts).1, { d with arena := (d.arena.addBlock stmts).2 })

def merge (phis : List Phi) : StateM Draft PhiRange := fun d =>
  ((d.arena.addMerge phis).1, { d with arena := (d.arena.addMerge phis).2 })

end Draft

mutual

def ExprTree.build : ExprTree → StateM Draft ExprId
  | .node form span => do Draft.expr (← form.build) span

/-- Stores what is below a form; the form itself is stored with its span. -/
def FormTree.build : FormTree → StateM Draft Expr.Form
  | .var s => return .var (← Draft.intern s)
  | .const c => return .const c
  | .untypedFn f => return .untypedFn f
  | .typedFn f => return .typedFn f
  | .typeValue t => return .typeValue t
  | .attribute v s => return .attribute (← v.build) (← Draft.intern s)
  | .cast v t => return .cast (← v.build) t
  | .closureElt c i => return .closureElt (← c.build) i
  | .tupleProj t i => return .tupleProj (← t.build) i
  | .tuple elts => return .tuple (← ExprTree.buildAll elts >>= Draft.list)
  | .struct args => return .struct (← ExprTree.buildAll args >>= Draft.list)
  | .array elts => return .array (← ExprTree.buildAll elts >>= Draft.list)
  | .index v i => return .index (← v.build) (← i.build)
  | .slice x y z => return .slice (← x.build) (← y.build) (← z.build)
  | .range x y z => return .range (← x.build) (← y.build) (← z.build)
  | .primCall p args => return .primCall p (← ExprTree.buildAll args >>= Draft.list)
  | .call g args => return .call (← g.build) (← ExprTree.buildAll args >>= Draft.list)
  | .closure g args => return .closure (← g.build) (← ExprTree.buildAll args >>= Draft.list)
  | .alloc c t => return .alloc (← c.build) t
  | .allocArray s t => return .allocArray (← s.build) t
  | .arrayView d s t o n =>
    return .arrayView (← d.build) (← s.build) (← t.build) (← o.build) (← n.build)
  | .shape x => return .shape (← x.build)
  | .strides x => return .strides (← x.build)
  | .ravel x => return .ravel (← x.build)
  | .reshape x s => return .reshape (← x.build) (← s.build)
  | .map g args => return .map (← g.build) (← ExprTree.buildAll args >>= Draft.list)
  | .outerMap g args => return .outerMap (← g.build) (← ExprTree.buildAll args >>= Draft.list)
  | .reduce g i args =>
    return .reduce (← g.build) (← ExprTree.buildInit i) (← ExprTree.buildAll args >>= Draft.list)
  | .scan g i args =>
    return .scan (← g.build) (← ExprTree.buildInit i) (← ExprTree.buildAll args >>= Draft.list)
  | .indexMap g s => return .indexMap (← g.build) (← s.build)
  | .indexReduce g c s i =>
    return .indexReduce (← g.build) (← c.build) (← s.build) (← i.build)
  | .indexScan g i s => return .indexScan (← g.build) (← ExprTree.buildInit i) (← s.build)

def ExprTree.buildAll : List ExprTree → StateM Draft (List ExprId)
  | [] => return []
  | t :: ts => return (← t.build) :: (← ExprTree.buildAll ts)

def ExprTree.buildInit : Option ExprTree → StateM Draft (Option ExprId)
  | none => return none
  | some t => return some (← t.build)

end

def TargetNode.build (t : TargetNode) : StateM Draft ExprId := do
  Draft.expr (← t.target.form.build) t.span

def EntryTree.build (e : EntryTree) : StateM Draft Phi := do
  return ⟨← Draft.intern e.name, ← e.left.build, ← e.right.build⟩

def EntryTree.buildAll : List EntryTree → StateM Draft (List Phi)
  | [] => return []
  | e :: es => return (← e.build) :: (← EntryTree.buildAll es)

mutual

def StmtTree.build : StmtTree → StateM Draft (Stmt.Form × Span)
  | .node form span => return (← form.build, span)

/-- Stores what is below a statement, its blocks and its merge map after its expressions; the
statement itself is stored with the block that it is in. -/
def StmtFormTree.build : StmtFormTree → StateM Draft Stmt.Form
  | .assign l r => return .assign (← l.build) (← r.build)
  | .eval e => return .eval (← e.build)
  | .ret e => return .ret (← e.build)
  | .comment s => return .comment (← Draft.intern s)
  | .ifElse c t f m =>
    return .ifElse (← c.build) (← StmtTree.buildAll t >>= Draft.block)
      (← StmtTree.buildAll f >>= Draft.block) (← EntryTree.buildAll m >>= Draft.merge)
  | .whileLoop c b m =>
    return .whileLoop (← c.build) (← StmtTree.buildAll b >>= Draft.block)
      (← EntryTree.buildAll m >>= Draft.merge)
  | .forLoop v i o s b m =>
    return .forLoop (← v.build) (← i.build) (← o.build) (← s.build)
      (← StmtTree.buildAll b >>= Draft.block) (← EntryTree.buildAll m >>= Draft.merge)
  | .parFor g b => return .parFor (← g.build) (← b.build)

def StmtTree.buildAll : List StmtTree → StateM Draft (List (Stmt.Form × Span))
  | [] => return []
  | t :: ts => return (← t.build) :: (← StmtTree.buildAll ts)

end

def FunctionTree.build (t : FunctionTree) : StateM Draft Function := do
  let body ← StmtTree.buildAll t.body >>= Draft.block
  let name ← Draft.intern t.name
  let params ← t.params.mapM Draft.intern
  return ⟨name, t.typing, params, body, t.span⟩

/-! ### Reading -/

mutual

def ExprTree.log : ExprTree → List String
  | .node form _ => form.log

/-- The variables and constants of an expression, from left to right. -/
def FormTree.log : FormTree → List String
  | .var s => ["var:" ++ s]
  | .const c => ["const:" ++ Mark.constText c]
  | .untypedFn _ | .typedFn _ | .typeValue _ => []
  | .attribute v _ => v.log
  | .cast v _ => v.log
  | .closureElt c _ => c.log
  | .tupleProj t _ => t.log
  | .tuple elts => ExprTree.logAll elts
  | .struct args => ExprTree.logAll args
  | .array elts => ExprTree.logAll elts
  | .index v i => v.log ++ i.log
  | .slice x y z => x.log ++ y.log ++ z.log
  | .range x y z => x.log ++ y.log ++ z.log
  | .primCall _ args => ExprTree.logAll args
  | .call g args => g.log ++ ExprTree.logAll args
  | .closure g args => g.log ++ ExprTree.logAll args
  | .alloc c _ => c.log
  | .allocArray s _ => s.log
  | .arrayView d s t o n => d.log ++ s.log ++ t.log ++ o.log ++ n.log
  | .shape x => x.log
  | .strides x => x.log
  | .ravel x => x.log
  | .reshape x s => x.log ++ s.log
  | .map g args => g.log ++ ExprTree.logAll args
  | .outerMap g args => g.log ++ ExprTree.logAll args
  | .reduce g i args => g.log ++ ExprTree.logInit i ++ ExprTree.logAll args
  | .scan g i args => g.log ++ ExprTree.logInit i ++ ExprTree.logAll args
  | .indexMap g s => g.log ++ s.log
  | .indexReduce g c s i => g.log ++ c.log ++ s.log ++ i.log
  | .indexScan g i s => g.log ++ ExprTree.logInit i ++ s.log

def ExprTree.logAll : List ExprTree → List String
  | [] => []
  | t :: ts => t.log ++ ExprTree.logAll ts

def ExprTree.logInit : Option ExprTree → List String
  | none => []
  | some t => t.log

end

def EntryTree.log (e : EntryTree) : List String :=
  ("phi:" ++ e.name) :: (e.left.log ++ e.right.log)

mutual

def StmtTree.log : StmtTree → List String
  | .node form _ => form.log

/-- A branch is merged behind its blocks.  A loop is entered before what is evaluated on every turn,
and its merge map comes at the end of the body. -/
def StmtFormTree.log : StmtFormTree → List String
  | .assign l r => l.target.form.log ++ r.log
  | .eval e => e.log
  | .ret e => e.log
  | .comment s => ["comment:" ++ s]
  | .ifElse c t f m =>
    c.log ++ StmtTree.logAll t ++ StmtTree.logAll f ++ "merge_if" :: m.flatMap EntryTree.log
  | .whileLoop c b m =>
    "merge_start" :: c.log ++ StmtTree.logAll b ++ "merge_repeat" :: m.flatMap EntryTree.log
  | .forLoop v i o s b m =>
    v.target.form.log ++ i.log ++ "merge_start" :: o.log ++ (StmtTree.logAll b ++ s.log) ++
      "merge_repeat" :: m.flatMap EntryTree.log
  | .parFor g b => g.log ++ b.log

def StmtTree.logAll : List StmtTree → List String
  | [] => []
  | t :: ts => t.log ++ StmtTree.logAll ts

end

def FunctionTree.log (t : FunctionTree) : List String := StmtTree.logAll t.body

end MergeForm
