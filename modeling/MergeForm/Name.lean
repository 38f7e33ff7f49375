import MergeForm.Text

/-! Interned identifiers.  A name is a number; equality of names is equality of numbers. -/

namespace MergeForm

structure Name where
  val : UInt32
  deriving DecidableEq, Hashable

namespace Name

def empty : Name := ⟨0⟩

instance : Inhabited Name := ⟨empty⟩

/-- The place of the name's string in an interner. -/
def index (n : Name) : Nat := n.val.toNat

/-- The name of place `n`, for `n` below `2^32`. -/
def ofIndex (n : Nat) : Name := ⟨n.toUInt32⟩

theorem ofIndex_index (n : Name) : ofIndex n.index = n := by
  simp [ofIndex, index]

theorem index_ofIndex {n : Nat} (h : n < UInt32.size) : (ofIndex n).index = n :=
  UInt32.toNat_ofNat_of_lt h

/-- The number behind the word for names, as in `Name(3)`. -/
def text (n : Name) : String := Text.wrap "Name" (Text.word n.val)

end Name

end MergeForm
