import MergeForm.Id
import MergeForm.Name
import MergeForm.Span

/-! Statements.  A branch and both loops carry the merge map that reconciles the values of the names
reassigned on their paths: for a branch the value of the true path and that of the false path, for a
loop the value on entry and the value that comes back from the end of the body. -/

namespace MergeForm

namespace Stmt

/-- A statement proper, with its parts by number or by run. -/
inductive Form
  | assign (lhs rhs : ExprId)
  /-- An expression for its effect. -/
  | eval (value : ExprId)
  | ret (value : ExprId)
  | comment (words : Name)
  | ifElse (cond : ExprId) (trueBlock falseBlock : StmtRange) (merge : PhiRange)
  | whileLoop (cond : ExprId) (body : StmtRange) (merge : PhiRange)
  | forLoop (var start stop step : ExprId) (body : StmtRange) (merge : PhiRange)
  /-- The call of `func` at every index within `bounds`, in any order. -/
  | parFor (func bounds : ExprId)
  deriving DecidableEq

inductive Kind
  | form (f : Form)
  /-- The placeholder for a statement that could not be built. -/
  | error
  deriving DecidableEq

def Form.merge? : Form → Option PhiRange
  | .ifElse _ _ _ m => some m
  | .whileLoop _ _ m => some m
  | .forLoop _ _ _ _ _ m => some m
  | _ => none

def Kind.merge? : Kind → Option PhiRange
  | .form f => f.merge?
  | .error => none

def Form.name : Form → String
  | .assign .. => "Assign"
  | .eval .. => "ExprStmt"
  | .ret .. => "Return"
  | .comment .. => "Comment"
  | .ifElse .. => "If"
  | .whileLoop .. => "While"
  | .forLoop .. => "ForLoop"
  | .parFor .. => "ParFor"

def Kind.name : Kind → String
  | .form f => f.name
  | .error => "Error"

/-- What a form holds, without its name. -/
def Form.payload : Form → String
  | .assign l r => Text.record "Assign" [("lhs", l.text), ("rhs", r.text)]
  | .eval e => e.text
  | .ret e => e.text
  | .comment n => n.text
  | .ifElse c t f m =>
    Text.record "If" [("cond", c.text), ("true_block", t.text), ("false_block", f.text),
      ("merge", m.text)]
  | .whileLoop c b m =>
    Text.record "While" [("cond", c.text), ("body", b.text), ("merge", m.text)]
  | .forLoop v a o s b m =>
    Text.record "ForLoop" [("var", v.text), ("start", a.text), ("stop", o.text), ("step", s.text),
      ("body", b.text), ("merge", m.text)]
  | .parFor f b => Text.record "ParFor" [("func", f.text), ("bounds", b.text)]

def Form.text (f : Form) : String := Text.wrap f.name f.payload

def Kind.text : Kind → String
  | .form f => f.text
  | .error => Kind.error.name

end Stmt

structure Stmt where
  kind : Stmt.Kind
  span : Span
  deriving DecidableEq

def Stmt.text (s : Stmt) : String := s.kind.text ++ " @ " ++ s.span.text

end MergeForm
