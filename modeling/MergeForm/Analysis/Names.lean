import MergeForm.Name
import Std.Data.HashSet

/-! Names in the order of their first mention, each once. -/

namespace MergeForm

/-- The names in `order`, with the same names in `known` for looking up. -/
structure Names where
  order : Array Name
  known : Std.HashSet Name
  mem_known : ∀ n, n ∈ known ↔ n ∈ order
  nodup : order.toList.Nodup

namespace Names

def empty : Names where
  order := #[]
  known := Std.HashSet.emptyWithCapacity
  mem_known n := by simp
  nodup := List.nodup_nil

instance : Membership Name Names := ⟨fun s n => n ∈ s.order⟩

instance (s : Names) (n : Name) : Decidable (n ∈ s) :=
  decidable_of_iff (n ∈ s.known) (s.mem_known n)

def insert (s : Names) (n : Name) : Names :=
  if h : n ∈ s then s
  else
    { order := s.order.push n
      known := s.known.insert n
      mem_known := by
        intro m
        rw [Std.HashSet.mem_insert, Array.mem_push, s.mem_known, beq_iff_eq]
        exact ⟨fun h => h.elim (fun e => .inr e.symm) .inl,
          fun h => h.elim .inr (fun e => .inl e.symm)⟩
      nodup := by
        rw [Array.toList_push, List.nodup_append]
        refine ⟨s.nodup, by simp, ?_⟩
        intro x hx y hy
        rw [List.mem_singleton] at hy
        subst hy
        rintro rfl
        exact h (Array.mem_toList_iff.mp hx) }

def toList (s : Names) : List Name := s.order.toList

@[simp] theorem mem_toList {s : Names} {n : Name} : n ∈ s.toList ↔ n ∈ s := Array.mem_toList_iff

@[simp] theorem toList_empty : empty.toList = [] := rfl

/-- A name that is new goes to the end, and one that is not changes nothing. -/
theorem toList_insert (s : Names) (n : Name) :
    (s.insert n).toList = if n ∈ s then s.toList else s.toList ++ [n] := by
  unfold insert
  split <;> simp [toList]

end Names

end MergeForm
