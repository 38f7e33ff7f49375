import MergeForm.Analysis.Names
import MergeForm.Traversal.Stack

/-! The names that a function defines and those that it reads.  Parameters, variables assigned to
and the names of merge maps are defined; variables in expressions are read, those among the values
of a merge map included.  Where a loop is entered, its merge map has only the values from before the
loop, so those alone are read there. -/

namespace MergeForm

structure VarSummary where
  defs : Names
  uses : Names

namespace VarSummary

def empty : VarSummary := ⟨.empty, .empty⟩

def define (s : VarSummary) (n : Name) : VarSummary := { s with defs := s.defs.insert n }

def use (s : VarSummary) (n : Name) : VarSummary := { s with uses := s.uses.insert n }

def isDefined (s : VarSummary) (n : Name) : Bool := n ∈ s.defs

def isUsed (s : VarSummary) (n : Name) : Bool := n ∈ s.uses

/-- The names that are read and not defined, in the order of their first reading. -/
def free (s : VarSummary) : List Name := s.uses.toList.filter fun n => !s.isDefined n

/-- The elements of a list as assignment targets, or the fault that the list does not resolve. -/
def targetTasks (a : Arena) (r : ExprRange) : List Task :=
  match a.list? r with
  | some ids => ids.map fun id => .visit (.target id)
  | none => [.fail (.dangling (.exprList r))]

/-- What is done where a loop with the merge map `r` is entered. -/
def enterLoop (a : Arena) (r : PhiRange) (s : VarSummary) : Move Unit × VarSummary :=
  match a.merge? r with
  | some phis =>
    (⟨Task.exprs (phis.map Phi.left), fun _ => []⟩, phis.foldl (fun s p => s.define p.name) s)
  | none => (⟨[.fail (.dangling (.merge r))], fun _ => []⟩, s)

def pass (a : Arena) : Pass VarSummary Unit where
  hook
    | .function f, s => (a.move () (.function f), f.params.foldl define s)
    | .exprForm (.var n), s => (.leaf [()], s.use n)
    | .targetForm (.var n), s => (.leaf [()], s.define n)
    | .targetForm (.tuple r), s => (⟨targetTasks a r, fun _ => [()]⟩, s)
    | .phi p, s => (a.move () (.phi p), s.define p.name)
    | .loopEntry r, s => enterLoop a r s
    | v, s => (a.move () v, s)

/-- The names that `f` defines and reads, met with visits nested at most `depth` deep. -/
def run (a : Arena) (depth : Nat) (f : Function) : Outcome VarSummary :=
  let (r, s) := (pass a).traverse depth [.visit (.function f)] .empty
  r.map fun _ => s

end VarSummary

/-- The names that `f` defines and reads. -/
def Arena.collectVars (a : Arena) (f : Function) : Outcome VarSummary :=
  VarSummary.run a a.depth f

end MergeForm
