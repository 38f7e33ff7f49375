import MergeForm.Expr.Basic
import MergeForm.Fault
import MergeForm.Function
import MergeForm.Phi
import MergeForm.Stmt

/-! The arena: one table for each sort of node and one for the operand lists, each filled by
appending.  A number or run given out by an append keeps its meaning, since later appends only make
the tables longer.  Nothing is checked on the way in; a number or run that does not resolve is found
when it is looked up. -/

namespace MergeForm

structure Arena where
  exprs : Array Expr
  operands : Array ExprId
  stmts : Array Stmt
  phis : Array Phi
  functions : Array Function
  deriving DecidableEq

namespace Arena

def empty : Arena := ⟨#[], #[], #[], #[], #[]⟩

instance : Inhabited Arena := ⟨empty⟩

/-! ### Appending -/

/-- The run that `count` entries take up behind a table of `size` entries. -/
def slotsAfter {f : Family} (size count : Nat) : Slots f := ⟨size.toUInt32, count.toUInt32⟩

def addExpr (a : Arena) (e : Expr) : ExprId × Arena :=
  (Id.ofIndex a.exprs.size, { a with exprs := a.exprs.push e })

def addList (a : Arena) (ids : List ExprId) : ExprRange × Arena :=
  (slotsAfter a.operands.size ids.length, { a with operands := a.operands.appendList ids })

/-- Stores a block; the blocks nested in it have to be stored before. -/
def addBlock (a : Arena) (stmts : List Stmt) : StmtRange × Arena :=
  (slotsAfter a.stmts.size stmts.length, { a with stmts := a.stmts.appendList stmts })

/-- Stores a merge map; the order of its entries is kept. -/
def addMerge (a : Arena) (phis : List Phi) : PhiRange × Arena :=
  (slotsAfter a.phis.size phis.length, { a with phis := a.phis.appendList phis })

def addFunction (a : Arena) (f : Function) : FnId × Arena :=
  (Id.ofIndex a.functions.size, { a with functions := a.functions.push f })

/-! ### Looking up -/

def expr? (a : Arena) (id : ExprId) : Option Expr := a.exprs[id.index]?

def list? (a : Arena) (r : ExprRange) : Option (List ExprId) := r.entries? a.operands

def stmt? (a : Arena) (id : StmtId) : Option Stmt := a.stmts[id.index]?

def block? (a : Arena) (r : StmtRange) : Option (List Stmt) := r.entries? a.stmts

def phi? (a : Arena) (id : PhiId) : Option Phi := a.phis[id.index]?

def merge? (a : Arena) (r : PhiRange) : Option (List Phi) := r.entries? a.phis

def function? (a : Arena) (id : FnId) : Option Function := a.functions[id.index]?

/-- The operand list in `r`; a run that does not resolve is a fault. -/
def list (a : Arena) (r : ExprRange) : Except Fault (List ExprId) :=
  match a.list? r with
  | some ids => .ok ids
  | none => .error (.dangling (.exprList r))

/-- The merge map in `r`; a run that does not resolve is a fault. -/
def merge (a : Arena) (r : PhiRange) : Except Fault (List Phi) :=
  match a.merge? r with
  | some phis => .ok phis
  | none => .error (.dangling (.merge r))

/-- All functions with their numbers, in the order in which they were stored. -/
def numberedFunctions (a : Arena) : List (FnId × Function) :=
  a.functions.toList.mapIdx fun i f => (Id.ofIndex i, f)

end Arena

end MergeForm
