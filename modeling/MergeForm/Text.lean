/-! The one-line text form: the few shapes from which the text of every value of the library is put
together.  Numbers are decimal, the items of a list stand in square brackets, a wrapped value stands
in parentheses behind its wrapper, and a record lists its fields in braces behind its name. -/

namespace MergeForm.Text

def nat (n : Nat) : String := n.repr

def word (n : UInt32) : String := nat n.toNat

/-- An integer in decimal digits, with a minus sign in front of a negative one. -/
def int : Int → String
  | .ofNat n => nat n
  | .negSucc n => "-" ++ nat (n + 1)

/-- The last `count` hexadecimal digits of `n`, in lower case. -/
def hex : Nat → Nat → String
  | 0, _ => ""
  | count + 1, n => (hex count (n / 16)).push (Nat.digitChar (n % 16))

def bool (b : Bool) : String := if b then "true" else "false"

/-- Items with a comma and a blank between them. -/
def items (xs : List String) : String := String.intercalate ", " xs

/-- Items in square brackets; without items the brackets touch. -/
def list (xs : List String) : String := "[" ++ items xs ++ "]"

/-- A wrapper around a body, as in `head(body)`. -/
def wrap (head body : String) : String := head ++ "(" ++ body ++ ")"

/-- A value that may be missing: `Some(body)` where it is there, `None` where it is not. -/
def option (body : Option String) : String :=
  match body with
  | some b => wrap "Some" b
  | none => "None"

/-- A half-open interval of numbers, as in `3..4`. -/
def interval (low high : Nat) : String := nat low ++ ".." ++ nat high

/-- A record: its name, then its fields in order, each a label and the text of its value. -/
def record (name : String) (fields : List (String × String)) : String :=
  name ++ " \x7b " ++ items (fields.map fun (label, value) => label ++ ": " ++ value) ++ " \x7d"

end MergeForm.Text
