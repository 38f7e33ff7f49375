import MergeForm.Text

/-! Primitive operators.  A primitive is a symbol and no expression, so a traversal never enters
it. -/

namespace MergeForm

inductive Prim
  | add
  | sub
  | mul
  | div
  | mod
  | neg
  | abs
  | sqrt
  | exp
  | log
  | power
  | min
  | max
  | eq
  | notEq
  | lt
  | ltE
  | gt
  | gtE
  | and
  | or
  | not
  deriving DecidableEq

namespace Prim

def all : List Prim :=
  [.add, .sub, .mul, .div, .mod, .neg, .abs, .sqrt, .exp, .log, .power, .min, .max, .eq, .notEq,
    .lt, .ltE, .gt, .gtE, .and, .or, .not]

theorem mem_all (p : Prim) : p ∈ all := by
  cases p <;> decide

theorem nodup_all : all.Nodup := by decide

def arity : Prim → Nat
  | .neg | .abs | .sqrt | .exp | .log | .not => 1
  | _ => 2

/-- The name under which a primitive is called in generated code. -/
def symbol : Prim → String
  | .add => "add"
  | .sub => "sub"
  | .mul => "mul"
  | .div => "div"
  | .mod => "mod"
  | .neg => "neg"
  | .abs => "abs"
  | .sqrt => "sqrt"
  | .exp => "exp"
  | .log => "log"
  | .power => "power"
  | .min => "minimum"
  | .max => "maximum"
  | .eq => "equal"
  | .notEq => "not_equal"
  | .lt => "less"
  | .ltE => "less_equal"
  | .gt => "greater"
  | .gtE => "greater_equal"
  | .and => "logical_and"
  | .or => "logical_or"
  | .not => "logical_not"

def text : Prim → String
  | .add => "Add"
  | .sub => "Sub"
  | .mul => "Mul"
  | .div => "Div"
  | .mod => "Mod"
  | .neg => "Neg"
  | .abs => "Abs"
  | .sqrt => "Sqrt"
  | .exp => "Exp"
  | .log => "Log"
  | .power => "Power"
  | .min => "Min"
  | .max => "Max"
  | .eq => "Eq"
  | .notEq => "NotEq"
  | .lt => "Lt"
  | .ltE => "LtE"
  | .gt => "Gt"
  | .gtE => "GtE"
  | .and => "And"
  | .or => "Or"
  | .not => "Not"

def ofText? (s : String) : Option Prim := all.find? fun p => p.text == s

end Prim

end MergeForm
