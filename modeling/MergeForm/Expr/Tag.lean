import MergeForm.Expr.Basic

/-! The tag of an expression kind: which kind it is, without its operands.  Tags name kinds in
messages and count them in tallies. -/

namespace MergeForm.Expr

inductive Tag
  | var
  | const
  | untypedFn
  | typedFn
  | typeValue
  | attribute
  | cast
  | closureElt
  | tupleProj
  | tuple
  | struct
  | array
  | index
  | slice
  | range
  | primCall
  | call
  | closure
  | alloc
  | allocArray
  | arrayView
  | shape
  | strides
  | ravel
  | reshape
  | map
  | outerMap
  | reduce
  | scan
  | indexMap
  | indexReduce
  | indexScan
  | error
  deriving DecidableEq

namespace Tag

def all : List Tag :=
  [.var, .const, .untypedFn, .typedFn, .typeValue, .attribute, .cast, .closureElt, .tupleProj,
    .tuple, .struct, .array, .index, .slice, .range, .primCall, .call, .closure, .alloc,
    .allocArray, .arrayView, .shape, .strides, .ravel, .reshape, .map, .outerMap, .reduce, .scan,
    .indexMap, .indexReduce, .indexScan, .error]

theorem mem_all (t : Tag) : t ∈ all := by
  cases t <;> decide

theorem nodup_all : all.Nodup := by decide

def name : Tag → String
  | .var => "Var"
  | .const => "Const"
  | .untypedFn => "UntypedFn"
  | .typedFn => "TypedFn"
  | .typeValue => "TypeValue"
  | .attribute => "Attribute"
  | .cast => "Cast"
  | .closureElt => "ClosureElt"
  | .tupleProj => "TupleProj"
  | .tuple => "Tuple"
  | .struct => "Struct"
  | .array => "Array"
  | .index => "Index"
  | .slice => "Slice"
  | .range => "Range"
  | .primCall => "PrimCall"
  | .call => "Call"
  | .closure => "Closure"
  | .alloc => "Alloc"
  | .allocArray => "AllocArray"
  | .arrayView => "ArrayView"
  | .shape => "Shape"
  | .strides => "Strides"
  | .ravel => "Ravel"
  | .reshape => "Reshape"
  | .map => "Map"
  | .outerMap => "OuterMap"
  | .reduce => "Reduce"
  | .scan => "Scan"
  | .indexMap => "IndexMap"
  | .indexReduce => "IndexReduce"
  | .indexScan => "IndexScan"
  | .error => "Error"

/-- Whether no expression of this tag has operands.  The placeholder is not counted as a leaf. -/
def isLeaf : Tag → Bool
  | .var | .const | .untypedFn | .typedFn | .typeValue => true
  | _ => false

def isTarget : Tag → Bool
  | .var | .tuple | .index | .attribute => true
  | _ => false

end Tag

def Form.tag : Form → Tag
  | .var .. => .var
  | .const .. => .const
  | .untypedFn .. => .untypedFn
  | .typedFn .. => .typedFn
  | .typeValue .. => .typeValue
  | .attribute .. => .attribute
  | .cast .. => .cast
  | .closureElt .. => .closureElt
  | .tupleProj .. => .tupleProj
  | .tuple .. => .tuple
  | .struct .. => .struct
  | .array .. => .array
  | .index .. => .index
  | .slice .. => .slice
  | .range .. => .range
  | .primCall .. => .primCall
  | .call .. => .call
  | .closure .. => .closure
  | .alloc .. => .alloc
  | .allocArray .. => .allocArray
  | .arrayView .. => .arrayView
  | .shape .. => .shape
  | .strides .. => .strides
  | .ravel .. => .ravel
  | .reshape .. => .reshape
  | .map .. => .map
  | .outerMap .. => .outerMap
  | .reduce .. => .reduce
  | .scan .. => .scan
  | .indexMap .. => .indexMap
  | .indexReduce .. => .indexReduce
  | .indexScan .. => .indexScan

def Kind.tag : Kind → Tag
  | .form f => f.tag
  | .error => .error

/-- How often each tag occurs among `ks`, for the tags that occur, in the order of the tags. -/
def Kind.tally (ks : List Kind) : List (Tag × Nat) :=
  (Tag.all.map fun t => (t, ks.countP fun k => k.tag == t)).filter fun entry => entry.2 != 0

/-- For each kind the place of the first one that equals it. -/
def Kind.firstEqual (ks : List Kind) : List Nat := ks.map fun k => ks.idxOf k

/-- The tag alone tells whether a form may be assigned to. -/
theorem Form.isTarget_tag (f : Form) : f.tag.isTarget = f.target?.isSome := by
  cases f <;> rfl

theorem Form.tag_ne_error (f : Form) : f.tag ≠ .error := by
  cases f <;> exact Tag.noConfusion

end MergeForm.Expr
