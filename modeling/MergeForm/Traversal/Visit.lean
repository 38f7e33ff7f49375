import MergeForm.Expr.Text
import MergeForm.Function
import MergeForm.Phi
import MergeForm.Stmt

/-! The visits that make up a traversal.  A visit is what is being entered: a function, a block, a
statement by number and then as the form that it is, an expression likewise, an assignment target
likewise, a list of operands, or a merge map on one of its ways in.  The hook of a visit is its
sort, by which a pass decides what to do. -/

namespace MergeForm

inductive Visit
  | function (f : Function)
  | block (r : StmtRange)
  | stmt (id : StmtId)
  | stmtForm (f : Stmt.Form)
  | expr (id : ExprId)
  | exprForm (f : Expr.Form)
  | exprList (r : ExprRange)
  /-- An expression on the left of an assignment. -/
  | target (id : ExprId)
  | targetForm (t : Expr.Target)
  | merge (r : PhiRange)
  /-- The merge map of a branch, where its paths meet. -/
  | mergeIf (r : PhiRange)
  /-- The merge map of a loop, where the loop is entered. -/
  | loopEntry (r : PhiRange)
  /-- The merge map of a loop, where control comes back from the end of the body. -/
  | loopRepeat (r : PhiRange)
  | phi (p : Phi)
  deriving DecidableEq

inductive Hook
  | function
  | block
  | stmt
  | assign
  | eval
  | ret
  | comment
  | ifElse
  | whileLoop
  | forLoop
  | parFor
  | expr
  | exprForm (t : Expr.Tag)
  | exprList
  | target
  | targetVar
  | targetTuple
  | targetIndex
  | targetAttribute
  | merge
  | mergeIf
  | loopEntry
  | loopRepeat
  | phi
  deriving DecidableEq

def Expr.Tag.hookName : Expr.Tag → String
  | .var => "var"
  | .const => "const"
  | .untypedFn => "untyped_fn"
  | .typedFn => "typed_fn"
  | .typeValue => "type_value"
  | .attribute => "attribute"
  | .cast => "cast"
  | .closureElt => "closure_elt"
  | .tupleProj => "tuple_proj"
  | .tuple => "tuple"
  | .struct => "struct"
  | .array => "array"
  | .index => "index"
  | .slice => "slice"
  | .range => "range"
  | .primCall => "prim_call"
  | .call => "call"
  | .closure => "closure"
  | .alloc => "alloc"
  | .allocArray => "alloc_array"
  | .arrayView => "array_view"
  | .shape => "shape"
  | .strides => "strides"
  | .ravel => "ravel"
  | .reshape => "reshape"
  | .map => "map"
  | .outerMap => "outer_map"
  | .reduce => "reduce"
  | .scan => "scan"
  | .indexMap => "index_map"
  | .indexReduce => "index_reduce"
  | .indexScan => "index_scan"
  | .error => "error"

namespace Hook

def name : Hook → String
  | .function => "fn"
  | .block => "block"
  | .stmt => "stmt"
  | .assign => "assign"
  | .eval => "expr_stmt"
  | .ret => "return"
  | .comment => "comment"
  | .ifElse => "if"
  | .whileLoop => "while"
  | .forLoop => "for_loop"
  | .parFor => "par_for"
  | .expr => "expr"
  | .exprForm t => t.hookName
  | .exprList => "expr_list"
  | .target => "lhs"
  | .targetVar => "lhs_var"
  | .targetTuple => "lhs_tuple"
  | .targetIndex => "lhs_index"
  | .targetAttribute => "lhs_attribute"
  | .merge => "merge"
  | .mergeIf => "merge_if"
  | .loopEntry => "merge_loop_start"
  | .loopRepeat => "merge_loop_repeat"
  | .phi => "phi"

/-- All hooks, those of statements and targets before those of expressions. -/
def all : List Hook :=
  [.function, .block, .stmt, .assign, .eval, .ret, .comment, .ifElse, .whileLoop, .forLoop,
    .parFor, .expr, .exprList, .target, .targetVar, .targetTuple, .targetIndex, .targetAttribute,
    .merge, .mergeIf, .loopEntry, .loopRepeat, .phi] ++ Expr.Tag.all.map .exprForm

theorem mem_all (h : Hook) : h ∈ all := by
  cases h with
  | exprForm t => exact List.mem_append_right _ (List.mem_map_of_mem (Expr.Tag.mem_all t))
  | _ => decide

def ofName? (s : String) : Option Hook := all.find? fun h => h.name == s

end Hook

def Stmt.Form.hook : Stmt.Form → Hook
  | .assign .. => .assign
  | .eval .. => .eval
  | .ret .. => .ret
  | .comment .. => .comment
  | .ifElse .. => .ifElse
  | .whileLoop .. => .whileLoop
  | .forLoop .. => .forLoop
  | .parFor .. => .parFor

def Expr.Target.hook : Expr.Target → Hook
  | .var .. => .targetVar
  | .tuple .. => .targetTuple
  | .index .. => .targetIndex
  | .attribute .. => .targetAttribute

namespace Visit

def hook : Visit → Hook
  | .function _ => .function
  | .block _ => .block
  | .stmt _ => .stmt
  | .stmtForm f => f.hook
  | .expr _ => .expr
  | .exprForm f => .exprForm f.tag
  | .exprList _ => .exprList
  | .target _ => .target
  | .targetForm t => t.hook
  | .merge _ => .merge
  | .mergeIf _ => .mergeIf
  | .loopEntry _ => .loopEntry
  | .loopRepeat _ => .loopRepeat
  | .phi _ => .phi

def payload : Visit → String
  | .function f => f.name.text
  | .block r => r.text
  | .stmt id => id.text
  | .stmtForm f => f.payload
  | .expr id => id.text
  | .exprForm f => f.payload
  | .exprList r => r.text
  | .target id => id.text
  | .targetForm t => t.form.payload
  | .merge r => r.text
  | .mergeIf r => r.text
  | .loopEntry r => r.text
  | .loopRepeat r => r.text
  | .phi p => p.text

def text (v : Visit) : String := v.hook.name ++ " " ++ v.payload

end Visit

end MergeForm
