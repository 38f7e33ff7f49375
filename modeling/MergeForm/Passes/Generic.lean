import MergeForm.Arena.Children
import MergeForm.Passes.Observer

/-! The generic walk.  It goes from an expression to its operands by `Arena.children` alone, without
regard to the form, and writes down variables and constants on the way.  A placeholder has no
operands, so the walk passes over it. -/

namespace MergeForm

/-- The visits of the operands of `k`, or the fault that they do not resolve. -/
def Arena.childTasks (a : Arena) (k : Expr.Kind) : List Task :=
  match a.children k with
  | .ok ids => Task.exprs ids
  | .error f => [.fail f]

/-- The default traversal with the generic walk at every expression. -/
def Pass.generic (a : Arena) : Pass (Array Mark) Unit where
  hook
    | .expr id, log =>
      match a.expr? id with
      | none => (⟨[.fail (.dangling (.expr id))], fun _ => []⟩, log)
      | some ⟨.form (.var n), _⟩ => (.leaf [()], log.push (.var n))
      | some ⟨.form (.const c), _⟩ => (.leaf [()], log.push (.const c))
      | some ⟨k, _⟩ => (⟨a.childTasks k, fun _ => [()]⟩, log)
    | v, log => (a.move () v, log)

end MergeForm
