import MergeForm.Text

/-! Constant values.  A float is kept as its 64 bits, so that equality of constants is equality of
bits: a NaN equals itself and the two zeros differ. -/

namespace MergeForm

inductive Const
  | int (value : Int64)
  | float (bits : UInt64)
  | bool (value : Bool)
  /-- No value; also an unbounded end of a slice. -/
  | none
  deriving DecidableEq

namespace Const

def floatBits? : Const → Option UInt64
  | .float bits => some bits
  | _ => Option.none

def text : Const → String
  | .int value => Text.wrap "Int" (Text.int value.toInt)
  | .float bits => Text.wrap "Float" (Text.nat bits.toNat)
  | .bool value => Text.wrap "Bool" (Text.bool value)
  | .none => "None"

end Const

end MergeForm
