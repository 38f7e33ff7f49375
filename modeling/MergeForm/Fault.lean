import MergeForm.Expr.Tag
import MergeForm.Text

/-! Faults of a traversal.  Each means that the program was built wrong: a number or a run that does
not resolve, a placeholder where a node has to stand, or an assignment to something that cannot be
assigned to. -/

namespace MergeForm

inductive NodeRef
  | expr (id : ExprId)
  | stmt (id : StmtId)
  | exprList (r : ExprRange)
  | merge (r : PhiRange)
  deriving DecidableEq

namespace NodeRef

/-- The node as messages speak of it. -/
def phrase : NodeRef → String
  | .expr id => "expression #" ++ Text.word id.val
  | .stmt id => "statement #" ++ Text.word id.val
  | .exprList r => "expression list " ++ r.text
  | .merge r => "merge map " ++ r.text

def text : NodeRef → String
  | .expr id => Text.wrap "Expr" id.text
  | .stmt id => Text.wrap "Stmt" id.text
  | .exprList r => Text.wrap "ExprList" r.text
  | .merge r => Text.wrap "Merge" r.text

end NodeRef

/-- The cause for which a traversal stops. -/
inductive Fault
  | unrecognized (node : NodeRef) (span : Span)
  /-- The expression stands on the left of an assignment and is no target. -/
  | notTarget (tag : Expr.Tag) (id : ExprId) (span : Span)
  | dangling (node : NodeRef)
  deriving DecidableEq

namespace Fault

def node : Fault → NodeRef
  | .unrecognized node _ => node
  | .notTarget _ id _ => .expr id
  | .dangling node => node

def message : Fault → String
  | .unrecognized node span =>
    "unrecognized node kind for " ++ node.phrase ++ " at " ++ span.text
  | .notTarget tag id span =>
    "LHS not implemented: " ++ tag.name ++ " target " ++ id.text ++ " at " ++ span.text
  | .dangling node => "dangling reference to " ++ node.phrase

end Fault

end MergeForm
