import MergeForm.Id
import MergeForm.Name
import MergeForm.Span

/-! Functions.  Expressions refer to functions by number, and a traversal takes such a reference for
a leaf: it does not go on into the body. -/

namespace MergeForm

/-- Whether the types of a function's body are known. -/
inductive Typing
  | untyped
  | typed
  deriving DecidableEq

instance : Inhabited Typing := ⟨.untyped⟩

def Typing.text : Typing → String
  | .untyped => "Untyped"
  | .typed => "Typed"

structure Function where
  name : Name
  typing : Typing
  params : List Name
  body : StmtRange
  span : Span
  deriving DecidableEq

def Function.text (f : Function) : String :=
  Text.record "Function" [("name", f.name.text), ("kind", f.typing.text),
    ("params", Text.list (f.params.map Name.text)), ("body", f.body.text), ("span", f.span.text)]

end MergeForm
