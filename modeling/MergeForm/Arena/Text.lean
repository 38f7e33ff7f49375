import MergeForm.Arena.Basic
import MergeForm.Expr.Text

/-! The text of an arena: a record of its five tables. -/

namespace MergeForm.Arena

def text (a : Arena) : String :=
  Text.record "IrArena" [
    ("exprs", Text.list (a.exprs.toList.map Expr.text)),
    ("expr_lists", Text.list (a.operands.toList.map Id.text)),
    ("stmts", Text.list (a.stmts.toList.map Stmt.text)),
    ("phis", Text.list (a.phis.toList.map Phi.text)),
    ("functions", Text.list (a.functions.toList.map Function.text))]

end MergeForm.Arena
