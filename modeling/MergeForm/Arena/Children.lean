import MergeForm.Arena.Basic

/-! The operands of an expression as one list.  Operands come in the order in which they are
written, a starting value only when it is there, and a list of arguments last.  A list that does not
resolve is a fault before any operand is given out; the placeholder has no operands. -/

namespace MergeForm

/-- Operands in front of an argument list. -/
def Arena.before (a : Arena) (heads : List ExprId) (r : ExprRange) : Except Fault (List ExprId) :=
  (a.list r).map fun args => heads ++ args

def Arena.children (a : Arena) : Expr.Kind → Except Fault (List ExprId)
  | .error => .ok []
  | .form f =>
    match f with
    | .var _ | .const _ | .untypedFn _ | .typedFn _ | .typeValue _ => .ok []
    | .attribute v _ => .ok [v]
    | .cast v _ => .ok [v]
    | .closureElt c _ => .ok [c]
    | .tupleProj t _ => .ok [t]
    | .tuple r => a.list r
    | .struct r => a.list r
    | .array r => a.list r
    | .index v i => .ok [v, i]
    | .slice x y z => .ok [x, y, z]
    | .range x y z => .ok [x, y, z]
    | .primCall _ r => a.list r
    | .call g r => a.before [g] r
    | .closure g r => a.before [g] r
    | .alloc c _ => .ok [c]
    | .allocArray s _ => .ok [s]
    | .arrayView d s t o n => .ok [d, s, t, o, n]
    | .shape x => .ok [x]
    | .strides x => .ok [x]
    | .ravel x => .ok [x]
    | .reshape x s => .ok [x, s]
    | .map g r => a.before [g] r
    | .outerMap g r => a.before [g] r
    | .reduce g i r => a.before (g :: i.toList) r
    | .scan g i r => a.before (g :: i.toList) r
    | .indexMap g s => .ok [g, s]
    | .indexReduce g c s i => .ok [g, c, s, i]
    | .indexScan g i s => .ok (g :: (i.toList ++ [s]))

end MergeForm
