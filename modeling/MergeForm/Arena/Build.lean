import MergeForm.Arena.Basic

/-! Building common nodes.  A form without a span of its own gets the dummy span, and a form over a
list stores the list first. -/

namespace MergeForm.Arena

def addForm (a : Arena) (f : Expr.Form) : ExprId × Arena := a.addExpr ⟨.form f, .dummy⟩

def addTuple (a : Arena) (elts : List ExprId) : ExprId × Arena :=
  let (r, a) := a.addList elts
  a.addForm (.tuple r)

def addArray (a : Arena) (elts : List ExprId) : ExprId × Arena :=
  let (r, a) := a.addList elts
  a.addForm (.array r)

def addPrim (a : Arena) (p : Prim) (args : List ExprId) : ExprId × Arena :=
  let (r, a) := a.addList args
  a.addForm (.primCall p r)

/-! ### Deep nests -/

/-- The ways to put one expression around another. -/
inductive Wrap
  | tuple
  | neg
  | cast
  | proj
  | shape
  /-- The inner expression indexed by a fixed one. -/
  | index
  /-- A fold of a fixed function over nothing, with the inner expression as starting value. -/
  | init
  deriving DecidableEq

/-- Puts one wrapper around `inner`; `seed` is the fixed expression of the wrappers that have
one. -/
def addWrap (a : Arena) (w : Wrap) (seed inner : ExprId) : ExprId × Arena :=
  match w with
  | .tuple => a.addTuple [inner]
  | .neg => a.addPrim .neg [inner]
  | .cast => a.addForm (.cast inner (Id.ofIndex 0))
  | .proj => a.addForm (.tupleProj inner 0)
  | .shape => a.addForm (.shape inner)
  | .index => a.addForm (.index inner seed)
  | .init =>
    let (r, a) := a.addList []
    a.addForm (.reduce seed (some inner) r)

/-- Puts `n` wrappers around `inner`, one around the other. -/
def addWraps (a : Arena) (w : Wrap) (seed inner : ExprId) : Nat → ExprId × Arena
  | 0 => (inner, a)
  | n + 1 =>
    let (outer, a) := a.addWrap w seed inner
    a.addWraps w seed outer n

/-- Puts `n` branches around `inner`, one around the other, with the inner block on the true path
or on the false path and nothing on the other. -/
def addBranches (a : Arena) (cond : ExprId) (onTrue : Bool) (inner : StmtRange) :
    Nat → StmtRange × Arena
  | 0 => (inner, a)
  | n + 1 =>
    let branch : Stmt.Form :=
      if onTrue then .ifElse cond inner .empty .empty else .ifElse cond .empty inner .empty
    let (outer, a) := a.addBlock [⟨.form branch, .dummy⟩]
    a.addBranches cond onTrue outer n

end MergeForm.Arena
