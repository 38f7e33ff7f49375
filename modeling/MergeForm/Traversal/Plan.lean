import MergeForm.Arena.Basic
import MergeForm.Traversal.Visit

/-! The default traversal.  The plan of a visit lists what is done below it, in order: further
visits, and the fault that stops the traversal where something does not resolve.  The yield of a
visit says what becomes of the outputs from below it. -/

namespace MergeForm

inductive Task
  | visit (v : Visit)
  | fail (f : Fault)
  /-- The visits of `count` statements from number `first` on, each begun only after the one before
  it is done. -/
  | stmts (first count : Nat)

namespace Task

/-- The single steps of a task: visits, and faults where the traversal stops. -/
def steps : Task → List (Except Fault Visit)
  | .visit v => [.ok v]
  | .fail f => [.error f]
  | .stmts first count => (List.range' first count).map fun i => .ok (.stmt (Id.ofIndex i))

def exprs (ids : List ExprId) : List Task := ids.map fun id => .visit (.expr id)

end Task

namespace Arena

/-- The visits of the expressions of a list, or the fault that the list does not resolve. -/
def listTasks (a : Arena) (r : ExprRange) : List Task :=
  match a.list? r with
  | some ids => Task.exprs ids
  | none => [.fail (.dangling (.exprList r))]

/-- The visits of the entries of a merge map, or the fault that the map does not resolve. -/
def mergeTasks (a : Arena) (r : PhiRange) : List Task :=
  match a.merge? r with
  | some phis => phis.map fun p => .visit (.phi p)
  | none => [.fail (.dangling (.merge r))]

/-- What is done below a statement.  The merge map of a branch is visited after both blocks; that of
a loop once before what is evaluated on every turn, and once more at the end of the body. -/
def stmtPlan : Stmt.Form → List Task
  | .assign l r => [.visit (.target l), .visit (.expr r)]
  | .eval e => [.visit (.expr e)]
  | .ret e => [.visit (.expr e)]
  | .comment _ => []
  | .ifElse c t f m =>
    [.visit (.expr c), .visit (.block t), .visit (.block f), .visit (.mergeIf m)]
  | .whileLoop c b m =>
    [.visit (.loopEntry m), .visit (.expr c), .visit (.block b), .visit (.loopRepeat m)]
  | .forLoop v i o s b m =>
    [.visit (.target v), .visit (.expr i), .visit (.loopEntry m), .visit (.expr o),
      .visit (.block b), .visit (.expr s), .visit (.loopRepeat m)]
  | .parFor g b => [.visit (.expr g), .visit (.expr b)]

/-- What is done below an expression: the operands that stand by themselves, then the list of
arguments.  The list is resolved only when its turn comes, after the operands before it. -/
def exprPlan (a : Arena) : Expr.Form → List Task
  | .var _ | .const _ | .untypedFn _ | .typedFn _ | .typeValue _ => []
  | .attribute v _ => Task.exprs [v]
  | .cast v _ => Task.exprs [v]
  | .closureElt c _ => Task.exprs [c]
  | .tupleProj t _ => Task.exprs [t]
  | .tuple r => a.listTasks r
  | .struct r => a.listTasks r
  | .array r => a.listTasks r
  | .index v i => Task.exprs [v, i]
  | .slice x y z => Task.exprs [x, y, z]
  | .range x y z => Task.exprs [x, y, z]
  | .primCall _ r => a.listTasks r
  | .call g r => .visit (.expr g) :: a.listTasks r
  | .closure g r => .visit (.expr g) :: a.listTasks r
  | .alloc c _ => Task.exprs [c]
  | .allocArray s _ => Task.exprs [s]
  | .arrayView d s t o n => Task.exprs [d, s, t, o, n]
  | .shape x => Task.exprs [x]
  | .strides x => Task.exprs [x]
  | .ravel x => Task.exprs [x]
  | .reshape x s => Task.exprs [x, s]
  | .map g r => .visit (.expr g) :: a.listTasks r
  | .outerMap g r => .visit (.expr g) :: a.listTasks r
  | .reduce g i r => Task.exprs (g :: i.toList) ++ a.listTasks r
  | .scan g i r => Task.exprs (g :: i.toList) ++ a.listTasks r
  | .indexMap g s => Task.exprs [g, s]
  | .indexReduce g c s i => Task.exprs [g, c, s, i]
  | .indexScan g none s => Task.exprs [g, s]
  | .indexScan g (some i) s => Task.exprs [g, i, s]

/-- What the default traversal does below a visit. -/
def plan (a : Arena) : Visit → List Task
  | .function f => [.visit (.block f.body)]
  | .block r => [.stmts r.first r.idCount]
  | .stmt id =>
    match a.stmt? id with
    | none => [.fail (.dangling (.stmt id))]
    | some ⟨.error, span⟩ => [.fail (.unrecognized (.stmt id) span)]
    | some ⟨.form f, _⟩ => [.visit (.stmtForm f)]
  | .stmtForm f => stmtPlan f
  | .expr id =>
    match a.expr? id with
    | none => [.fail (.dangling (.expr id))]
    | some ⟨.error, span⟩ => [.fail (.unrecognized (.expr id) span)]
    | some ⟨.form f, _⟩ => [.visit (.exprForm f)]
  | .exprForm f => a.exprPlan f
  | .exprList r => a.listTasks r
  | .target id =>
    match a.expr? id with
    | none => [.fail (.dangling (.expr id))]
    | some ⟨.error, span⟩ => [.fail (.unrecognized (.expr id) span)]
    | some ⟨.form f, span⟩ =>
      match f.target? with
      | some t => [.visit (.targetForm t)]
      | none => [.fail (.notTarget f.tag id span)]
  | .targetForm t => [.visit (.exprForm t.form)]
  | .merge r => a.mergeTasks r
  | .mergeIf r => [.visit (.merge r)]
  | .loopEntry _ => []
  | .loopRepeat r => [.visit (.merge r)]
  | .phi p => Task.exprs [p.left, p.right]

end Arena

/-! ### Outputs -/

/-- What a visit gives out of the outputs from below it. -/
inductive Yield
  /-- Nothing: statements have no output. -/
  | nothing
  /-- The blank output of the pass, whatever came from below. -/
  | blank
  /-- The outputs from below, one by one. -/
  | each
  deriving DecidableEq

def Yield.apply {α : Type} (blank : α) : Yield → List α → List α
  | .nothing, _ => []
  | .blank, _ => [blank]
  | .each, outs => outs

/-- The output of an expression is lost in the expression around it, but for a conversion and the
choice of an element, which pass it on; a list gives out one output for each of its elements. -/
def Visit.yield : Visit → Yield
  | .expr _ | .exprList _ | .target _ | .targetForm _ => .each
  | .exprForm (.cast _ _) | .exprForm (.tupleProj _ _) => .each
  | .exprForm _ => .blank
  | _ => .nothing

end MergeForm
