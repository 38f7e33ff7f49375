import MergeForm.Name
import Std.Data.HashMap

/-! The store of identifiers.  Each string that is interned gets the next free number the first time
and the same number ever after; number 0 is the empty string from the start.  The map from strings
to numbers and the table of strings are inverses of each other. -/

namespace MergeForm

/-- The cause for which a string gets no name. -/
inductive InternError
  /-- The string is new and all numbers are given out. -/
  | overflow
  deriving DecidableEq

def InternError.message : InternError → String
  | .overflow => "interner exceeded capacity of u32::MAX strings"

/-- The table of strings by number and the map back. -/
structure Interner where
  texts : Array String
  numbers : Std.HashMap String Nat
  numbers_eq : ∀ (s : String) (n : Nat), numbers[s]? = some n ↔ texts[n]? = some s
  zero_eq : texts[0]? = some ""

namespace Interner

/-- The store that holds only the empty string. -/
def fresh : Interner where
  texts := #[""]
  numbers := Std.HashMap.emptyWithCapacity.insert "" 0
  numbers_eq s n := by
    rw [Std.HashMap.getElem?_insert, List.getElem?_toArray, List.getElem?_singleton]
    by_cases hs : "" = s <;> by_cases hn : n = 0 <;> simp [hs, hn, Ne.symm]
  zero_eq := rfl

instance : Inhabited Interner := ⟨fresh⟩

def size (t : Interner) : Nat := t.texts.size

/-- No store is empty, since the empty string is in all of them. -/
def isEmpty (t : Interner) : Bool := t.size == 0

/-- The name of `s`, and the store afterwards. -/
def intern (t : Interner) (s : String) : Name × Interner :=
  match h : t.numbers[s]? with
  | some n => (Name.ofIndex n, t)
  | none =>
    (Name.ofIndex t.texts.size,
      { texts := t.texts.push s
        numbers := t.numbers.insert s t.texts.size
        numbers_eq := by
          intro u n
          have old := t.numbers_eq
          rw [Std.HashMap.getElem?_insert, Array.getElem?_push]
          by_cases hu : s = u <;> by_cases hn : n = t.texts.size
          · simp [hu, hn]
          · have : t.texts[n]? ≠ some s := fun e => by simp [(old s n).mpr e] at h
            simp_all [eq_comm]
          · have : t.texts[n]? = none := by simp [hn]
            have := old u n
            simp_all
          · simp [hu, hn, old]
        zero_eq := by
          have := t.zero_eq
          rw [Array.getElem?_push]
          split
          · next h0 => simp [← h0] at this
          · exact this })

/-- The name of `s` and the store afterwards, where a number is there for `s`. -/
def tryIntern (t : Interner) (s : String) : Except InternError (Name × Interner) :=
  if s ∈ t.numbers ∨ t.size < UInt32.size then .ok (t.intern s) else .error .overflow

/-- The string of a name; a name that was never given out has the empty string. -/
def lookup (t : Interner) (n : Name) : String := t.texts[n.index]?.getD ""

theorem isEmpty_eq_false (t : Interner) : t.isEmpty = false := by
  have := t.zero_eq
  cases h : t.texts.size with
  | zero => simp [h] at this
  | succ n => simp [isEmpty, size, h]

end Interner

end MergeForm
