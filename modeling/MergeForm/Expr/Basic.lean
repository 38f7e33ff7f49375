import MergeForm.Const
import MergeForm.Id
import MergeForm.Name
import MergeForm.Prim
import MergeForm.Span

/-! Expressions.  A form is an expression proper with its operands by number; a kind is a form or
the placeholder that stands where no form could be built; an expression is a kind with its source
span. -/

namespace MergeForm

namespace Expr

/-- An expression proper, with its operands by number or by run. -/
inductive Form
  | var (name : Name)
  | const (value : Const)
  | untypedFn (func : FnId)
  | typedFn (func : FnId)
  | typeValue (ty : TypeId)
  | attribute (value : ExprId) (name : Name)
  | cast (value : ExprId) (ty : TypeId)
  /-- The captured value of a closure with the given index. -/
  | closureElt (closure : ExprId) (index : UInt32)
  /-- The element of a tuple with the given fixed index. -/
  | tupleProj (tuple : ExprId) (index : UInt32)
  | tuple (elts : ExprRange)
  | struct (args : ExprRange)
  | array (elts : ExprRange)
  | index (value index : ExprId)
  /-- A slice; an end that was left out is the constant without a value. -/
  | slice (start stop step : ExprId)
  | range (start stop step : ExprId)
  | primCall (prim : Prim) (args : ExprRange)
  | call (func : ExprId) (args : ExprRange)
  /-- A function applied to some of its arguments, which it captures. -/
  | closure (func : ExprId) (args : ExprRange)
  | alloc (count : ExprId) (eltTy : TypeId)
  | allocArray (shape : ExprId) (eltTy : TypeId)
  /-- An array header over data that is already there. -/
  | arrayView (data shape strides offset size : ExprId)
  | shape (array : ExprId)
  | strides (array : ExprId)
  | ravel (array : ExprId)
  | reshape (array shape : ExprId)
  | map (func : ExprId) (args : ExprRange)
  | outerMap (func : ExprId) (args : ExprRange)
  | reduce (func : ExprId) (init : Option ExprId) (args : ExprRange)
  | scan (func : ExprId) (init : Option ExprId) (args : ExprRange)
  /-- The values of `func` at every index of `shape`. -/
  | indexMap (func shape : ExprId)
  /-- The values of `func` at every index of `shape`, put together by `combine` from `init` on. -/
  | indexReduce (func combine shape init : ExprId)
  | indexScan (func : ExprId) (init : Option ExprId) (shape : ExprId)
  deriving DecidableEq

inductive Kind
  | form (f : Form)
  /-- The placeholder for an expression that could not be built. -/
  | error
  deriving DecidableEq

/-- The forms that may stand on the left of an assignment. -/
inductive Target
  | var (name : Name)
  | tuple (elts : ExprRange)
  | index (value index : ExprId)
  | attribute (value : ExprId) (name : Name)
  deriving DecidableEq

/-- A target as the form that it is when read. -/
def Target.form : Target → Form
  | .var n => .var n
  | .tuple r => .tuple r
  | .index v i => .index v i
  | .attribute v n => .attribute v n

def Form.target? : Form → Option Target
  | .var n => some (.var n)
  | .tuple r => some (.tuple r)
  | .index v i => some (.index v i)
  | .attribute v n => some (.attribute v n)
  | _ => none

theorem Form.target?_form (t : Target) : t.form.target? = some t := by
  cases t <;> rfl

/-- A target and its form determine each other. -/
theorem Form.target?_eq_some_iff {f : Form} {t : Target} : f.target? = some t ↔ f = t.form := by
  constructor
  · intro h
    cases f <;> simp only [Form.target?, Option.some.injEq, reduceCtorEq] at h <;> subst h <;> rfl
  · rintro rfl
    exact Form.target?_form t

end Expr

structure Expr where
  kind : Expr.Kind
  span : Span
  deriving DecidableEq

end MergeForm
