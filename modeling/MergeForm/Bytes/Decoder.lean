import MergeForm.Text

/-! Reading values from bytes.  A decoder takes a value off the front of a list of bytes and leaves
the rest; the first thing that is wrong, reading forward, ends it with the cause. -/

namespace MergeForm

inductive DecodeError
  | endOfInput
  /-- The number of an alternative is not below the number of alternatives. -/
  | badVariant (index count : Nat)
  /-- The byte of a truth value is neither 0 nor 1. -/
  | badBool (byte : UInt8)
  /-- The byte in front of a value that may be missing is neither 0 nor 1. -/
  | badOption (byte : UInt8)
  deriving DecidableEq

namespace DecodeError

def reason : DecodeError → String
  | .endOfInput => "io error: unexpected end of file"
  | .badVariant index count =>
    "invalid value: integer `" ++ Text.nat index ++ "`, expected variant index 0 <= i < " ++
      Text.nat count
  | .badBool byte =>
    "invalid u8 while decoding bool, expected 0 or 1, found " ++ Text.nat byte.toNat
  | .badOption byte => "tag for enum is not valid, found " ++ Text.nat byte.toNat

def message (e : DecodeError) : String := "failed to deserialize IR arena: " ++ e.reason

end DecodeError

def Decoder (α : Type) : Type := List UInt8 → Except DecodeError (α × List UInt8)

namespace Decoder

variable {α β : Type}

def give (x : α) : Decoder α := fun bytes => .ok (x, bytes)

def andThen (d : Decoder α) (next : α → Decoder β) : Decoder β := fun bytes =>
  match d bytes with
  | .ok (x, rest) => next x rest
  | .error e => .error e

instance : Monad Decoder where
  pure := give
  bind := andThen

def fail (e : DecodeError) : Decoder α := fun _ => .error e

def byte : Decoder UInt8
  | [] => .error .endOfInput
  | b :: rest => .ok (b, rest)

/-- A number of `count` bytes, the lowest first. -/
def number : Nat → Decoder Nat
  | 0 => give 0
  | count + 1 => do
    let low ← byte
    let high ← number count
    return low.toNat + 256 * high

/-- As many as `n` values, put behind those in `before`. -/
def repeated (d : Decoder α) : Nat → Array α → Decoder (Array α)
  | 0, before => give before
  | n + 1, before => fun bytes =>
    match d bytes with
    | .ok (x, rest) => repeated d n (before.push x) rest
    | .error e => .error e

/-- The number of an alternative in four bytes, then a value of that alternative. -/
def choose (alternatives : List (Decoder α)) : Decoder α := do
  let i ← number 4
  match alternatives[i]? with
  | some d => d
  | none => fail (.badVariant i alternatives.length)

end Decoder

end MergeForm
