import MergeForm.Bytes.Decoder

/-! The byte form of values.  Numbers have a fixed width with the lowest byte first; a truth value
is one byte; a value that may be missing has one byte in front that tells whether it is there; a
list has its length in eight bytes in front; an alternative has its number in four bytes in front.
Nothing stands between the parts of a value. -/

namespace MergeForm

class Wire (α : Type) where
  encode : α → List UInt8
  decode : Decoder α

namespace Wire

/-- The number `n` in `count` bytes, the lowest first. -/
def number : Nat → Nat → List UInt8
  | 0, _ => []
  | count + 1, n => n.toUInt8 :: number count (n / 256)

/-- Alternative number `i` with its parts. -/
def variant (i : Nat) (parts : List UInt8) : List UInt8 := number 4 i ++ parts

instance : Wire UInt32 where
  encode n := number 4 n.toNat
  decode := Nat.toUInt32 <$> Decoder.number 4

instance : Wire UInt64 where
  encode n := number 8 n.toNat
  decode := Nat.toUInt64 <$> Decoder.number 8

/-- A signed number is written as the unsigned one with the same bits. -/
instance : Wire Int64 where
  encode n := encode n.toUInt64
  decode := UInt64.toInt64 <$> decode

instance : Wire Bool where
  encode b := [if b then 1 else 0]
  decode := do
    let b ← Decoder.byte
    if b = 0 then return false
    else if b = 1 then return true
    else Decoder.fail (.badBool b)

instance {α : Type} [Wire α] : Wire (Option α) where
  encode
    | none => [0]
    | some x => 1 :: encode x
  decode := do
    let b ← Decoder.byte
    if b = 0 then return none
    else if b = 1 then return some (← decode)
    else Decoder.fail (.badOption b)

instance {α : Type} [Wire α] : Wire (Array α) where
  encode xs := number 8 xs.size ++ xs.toList.flatMap encode
  decode := do
    let n ← Decoder.number 8
    Decoder.repeated decode n #[]

instance {α : Type} [Wire α] : Wire (List α) where
  encode xs := encode xs.toArray
  decode := Array.toList <$> decode

end Wire

end MergeForm
