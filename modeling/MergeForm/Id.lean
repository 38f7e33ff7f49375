import MergeForm.Text

/-! Numbers that stand for nodes.  Nodes never own their children: an operand, a statement, a merge
entry, a function or a type is referred to by its 32-bit number in its family, and consecutive
entries of one table by a run of slots. -/

namespace MergeForm

inductive Family
  | expr
  | stmt
  | phi
  | fn
  | type
  deriving DecidableEq

/-- The family's name in the text of its numbers. -/
def Family.label : Family → String
  | .expr => "Expr"
  | .stmt => "Stmt"
  | .phi => "Phi"
  | .fn => "Fn"
  | .type => "Type"

structure Id (f : Family) where
  val : UInt32
  deriving DecidableEq, Hashable

abbrev ExprId := Id .expr
abbrev StmtId := Id .stmt
abbrev PhiId := Id .phi
abbrev FnId := Id .fn
abbrev TypeId := Id .type

namespace Id

variable {f : Family}

/-- The largest number is reserved: it stands for no member. -/
def invalid : Id f := ⟨0xFFFFFFFF⟩

instance : Inhabited (Id f) := ⟨invalid⟩

def isValid (id : Id f) : Bool := id != invalid

def index (id : Id f) : Nat := id.val.toNat

/-- The number of slot `n`, for `n` below `2^32`. -/
def ofIndex (n : Nat) : Id f := ⟨n.toUInt32⟩

/-- The number after `id`; the reserved number is followed by 0. -/
def next (id : Id f) : Id f := ⟨id.val + 1⟩

/-- Numbers are ordered by value, whether they stand for a member or not. -/
instance : LT (Id f) := ⟨fun a b => a.val < b.val⟩

instance (a b : Id f) : Decidable (a < b) := inferInstanceAs (Decidable (a.val < b.val))

/-- The number behind its family, as in `ExprId(3)`; the reserved number is `ExprId::INVALID`. -/
def text (id : Id f) : String :=
  if id.isValid then Text.wrap (f.label ++ "Id") (Text.word id.val)
  else f.label ++ "Id::INVALID"

theorem index_lt (id : Id f) : id.index < UInt32.size := id.val.toNat_lt

theorem ofIndex_index (id : Id f) : ofIndex id.index = id := by
  simp [ofIndex, index]

theorem index_ofIndex {n : Nat} (h : n < UInt32.size) : (ofIndex n : Id f).index = n := by
  simp only [index, ofIndex, Nat.toUInt32, UInt32.toNat_ofNat']
  exact Nat.mod_eq_of_lt h

end Id

/-- A run of consecutive slots of the table of a family. -/
structure Slots (f : Family) where
  start : UInt32
  len : UInt32
  deriving DecidableEq, Hashable

/-- An ordered list of operands: slots of the operand table. -/
abbrev ExprRange := Slots .expr

/-- A block: slots of the statement table. -/
abbrev StmtRange := Slots .stmt

/-- A merge map: slots of the merge-entry table. -/
abbrev PhiRange := Slots .phi

namespace Slots

variable {f : Family}

def empty : Slots f := ⟨0, 0⟩

instance : Inhabited (Slots f) := ⟨empty⟩

def isEmpty (r : Slots f) : Bool := r.len == 0

def first (r : Slots f) : Nat := r.start.toNat

def size (r : Slots f) : Nat := r.len.toNat

def stop (r : Slots f) : Nat := r.first + r.size

/-- The number after the last one of the run, held at the reserved number. -/
def lastId (r : Slots f) : Nat := min r.stop 0xFFFFFFFF

/-- How many of the slots have a number of their own: all of them below the reserved number. -/
def idCount (r : Slots f) : Nat := r.lastId - r.first

/-- At most `n` of the run's numbers, from the first on. -/
def firstIds (r : Slots f) (n : Nat) : List (Id f) :=
  (List.range' r.first (min n r.idCount)).map Id.ofIndex

def ids (r : Slots f) : List (Id f) := (List.range' r.first r.idCount).map Id.ofIndex

/-- The slots behind their family, as in `StmtRange(4..7)`, held at the reserved number. -/
def text (r : Slots f) : String :=
  Text.wrap (f.label ++ "Range") (Text.interval r.first r.lastId)

/-- The entries of `table` in the run, if the run ends within the table. -/
def entries? {α : Type} (r : Slots f) (table : Array α) : Option (List α) :=
  if r.stop ≤ table.size then some (table.extract r.first r.stop).toList else none

/-- Below the reserved number all slots of a run have a number. -/
theorem idCount_eq_size {r : Slots f} (h : r.stop < UInt32.size) : r.idCount = r.size := by
  simp only [idCount, lastId, stop, UInt32.size] at h ⊢
  omega

/-- The first numbers of a run, without the run in full. -/
theorem firstIds_eq_take (r : Slots f) (n : Nat) : r.firstIds n = r.ids.take n := by
  rw [firstIds, ids, ← List.map_take]
  congr 1
  apply List.ext_getElem
  · simp
  · simp

/-- A run of no slots too has to end within the table. -/
theorem entries?_isSome_iff {α : Type} (r : Slots f) (table : Array α) :
    (r.entries? table).isSome ↔ r.stop ≤ table.size := by
  simp only [entries?]
  split <;> simp_all

end Slots

end MergeForm
