import MergeForm.Traversal.Stack

/-! The recorder writes down every visit.  It can leave out what lies below visits of chosen hooks,
and it can break the traversal off with a fault after a chosen number of visits. -/

namespace MergeForm

/-- What is left out and where the record ends. -/
structure Recorder where
  /-- The hooks below which nothing is done. -/
  prune : List Hook
  /-- The number of visits after which the next one is a fault. -/
  limit : Option Nat

namespace Recorder

/-- The recorder that leaves nothing out and goes on to the end. -/
def full : Recorder := ⟨[], none⟩

/-- The fault that breaks a traversal off: it is about the reserved expression number. -/
def stopFault : Fault := .dangling (.expr .invalid)

/-- The default traversal with every visit written down, but for what is left out or cut off. -/
def pass (r : Recorder) (a : Arena) : Pass (Array Visit) Unit where
  hook v log :=
    if r.limit = some log.size then (⟨[.fail stopFault], fun _ => []⟩, log)
    else if v.hook ∈ r.prune then (v.cut (), log.push v)
    else (a.move () v, log.push v)

/-- A bound on the nesting of visits: that of the arena, and one visit more for each that is written
down before a limit. -/
def depth (r : Recorder) (a : Arena) : Nat := a.depth + (r.limit.getD 0 + 1)

/-- The end of the traversal that carries out `tasks`, and the visits written down. -/
def run (r : Recorder) (a : Arena) (tasks : List Task) : Outcome (List Unit) × Array Visit :=
  (r.pass a).traverse (r.depth a) tasks #[]

end Recorder

end MergeForm
