import MergeForm.Traversal.Pass

/-! Descent into functions.  By default a reference to a function is a leaf; this pass goes on into
the body of each function the first time it meets a reference to it, so that functions that refer to
themselves or to each other do no harm. -/

namespace MergeForm

/-- A function that was gone into, and the sort of reference that led to it. -/
structure Entered where
  typing : Typing
  func : FnId
  deriving DecidableEq

namespace Entered

def text (e : Entered) : String :=
  (match e.typing with
    | .untyped => "untyped:"
    | .typed => "typed:") ++ Text.word e.func.val

end Entered

/-- The functions that references were met to, and those gone into, in order. -/
structure Descent where
  seen : List FnId
  entered : Array Entered

namespace Descent

def start : Descent := ⟨[], #[]⟩

/-- What is done at a reference to `id`: nothing if there was one before or there is no such
function, and else the visit of the function. -/
def follow (a : Arena) (typing : Typing) (id : FnId) (d : Descent) : Move Unit × Descent :=
  if id ∈ d.seen then (.leaf [()], d)
  else
    match a.function? id with
    | none => (.leaf [()], { d with seen := id :: d.seen })
    | some f =>
      (⟨[.visit (.function f)], fun _ => [()]⟩,
        { seen := id :: d.seen, entered := d.entered.push ⟨typing, id⟩ })

end Descent

/-- The default traversal with functions gone into at the first reference to them. -/
def Pass.descend (a : Arena) : Pass Descent Unit where
  hook
    | .exprForm (.untypedFn id), d => d.follow a .untyped id
    | .exprForm (.typedFn id), d => d.follow a .typed id
    | v, d => (a.move () v, d)

end MergeForm
