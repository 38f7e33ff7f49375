import MergeForm.Expr.Tag

/-! The text of expressions.  A form is its tag around its payload; the payload is the text of the
one value that the form holds, or a record of its fields.  The two mapping forms share a record
name, and so do the two folding forms. -/

namespace MergeForm.Expr

def optionText (e : Option ExprId) : String := Text.option (e.map Id.text)

def applyText (record : String) (func : ExprId) (args : ExprRange) : String :=
  Text.record record [("func", func.text), ("args", args.text)]

def foldText (func : ExprId) (init : Option ExprId) (args : ExprRange) : String :=
  Text.record "Reduce" [("func", func.text), ("init", optionText init), ("args", args.text)]

/-- What a form holds, without its tag. -/
def Form.payload : Form → String
  | .var n => n.text
  | .const c => c.text
  | .untypedFn f => f.text
  | .typedFn f => f.text
  | .typeValue t => t.text
  | .attribute v n => Text.record "Attribute" [("value", v.text), ("name", n.text)]
  | .cast v t => Text.record "Cast" [("value", v.text), ("ty", t.text)]
  | .closureElt c i => Text.record "ClosureElt" [("closure", c.text), ("index", Text.word i)]
  | .tupleProj t i => Text.record "TupleProj" [("tuple", t.text), ("index", Text.word i)]
  | .tuple r => r.text
  | .struct r => r.text
  | .array r => r.text
  | .index v i => Text.record "Index" [("value", v.text), ("index", i.text)]
  | .slice a b c => Text.record "Slice" [("start", a.text), ("stop", b.text), ("step", c.text)]
  | .range a b c => Text.record "Range" [("start", a.text), ("stop", b.text), ("step", c.text)]
  | .primCall p r => Text.record "PrimCall" [("prim", p.text), ("args", r.text)]
  | .call f r => applyText "Call" f r
  | .closure f r => applyText "Closure" f r
  | .alloc c t => Text.record "Alloc" [("count", c.text), ("elt_ty", t.text)]
  | .allocArray s t => Text.record "AllocArray" [("shape", s.text), ("elt_ty", t.text)]
  | .arrayView d s t o n =>
    Text.record "ArrayView" [("data", d.text), ("shape", s.text), ("strides", t.text),
      ("offset", o.text), ("size", n.text)]
  | .shape a => a.text
  | .strides a => a.text
  | .ravel a => a.text
  | .reshape a s => Text.record "Reshape" [("array", a.text), ("shape", s.text)]
  | .map f r => applyText "Map" f r
  | .outerMap f r => applyText "Map" f r
  | .reduce f i r => foldText f i r
  | .scan f i r => foldText f i r
  | .indexMap f s => Text.record "IndexMap" [("func", f.text), ("shape", s.text)]
  | .indexReduce f c s i =>
    Text.record "IndexReduce" [("func", f.text), ("combine", c.text), ("shape", s.text),
      ("init", i.text)]
  | .indexScan f i s =>
    Text.record "IndexScan" [("func", f.text), ("init", optionText i), ("shape", s.text)]

def Form.text (f : Form) : String := Text.wrap f.tag.name f.payload

def Kind.text : Kind → String
  | .form f => f.text
  | .error => Tag.error.name

def text (e : Expr) : String := e.kind.text ++ " @ " ++ e.span.text

end MergeForm.Expr
