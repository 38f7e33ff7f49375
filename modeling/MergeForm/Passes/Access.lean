import MergeForm.Interner
import MergeForm.Traversal.Pass

/-! The variables that are read and those that are assigned to, in the order in which the traversal
meets them. -/

namespace MergeForm

inductive Access
  | use (name : Name)
  | define (name : Name)
  deriving DecidableEq

def Access.text (names : Interner) : Access → String
  | .use n => "use:" ++ names.lookup n
  | .define n => "def:" ++ names.lookup n

/-- Writes down each access to a variable.  A variable that is assigned to is not read. -/
def Pass.accesses (a : Arena) : Pass (Array Access) Unit where
  hook
    | .exprForm (.var n), log => (.leaf [()], log.push (.use n))
    | .targetForm (.var n), log => (.leaf [()], log.push (.define n))
    | v, log => (a.move () v, log)

end MergeForm
