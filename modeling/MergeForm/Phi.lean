import MergeForm.Id
import MergeForm.Name

/-! One entry of a merge map: a name and the two values that meet under it. -/

namespace MergeForm

/-- The name `name` stands for `left` or `right`, depending on the way by which control came. -/
structure Phi where
  name : Name
  left : ExprId
  right : ExprId
  deriving DecidableEq

def Phi.text (p : Phi) : String :=
  Text.record "PhiNode" [("name", p.name.text), ("left", p.left.text), ("right", p.right.text)]

end MergeForm
