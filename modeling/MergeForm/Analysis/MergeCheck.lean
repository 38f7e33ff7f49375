import MergeForm.Traversal.Stack
import Std.Data.HashMap

/-! Repeated names in merge maps.  A merge map binds each of its names once; an entry whose name an
earlier entry of the same map has is reported with the first entry of that name.  The merge map of a
branch is looked at where its paths meet and that of a loop at the end of the body, so each once. -/

namespace MergeForm

/-- Two entries of one merge map with the same name, by their places in the map. -/
structure Duplicate where
  name : Name
  first : Nat
  second : Nat
  merge : PhiRange
  deriving DecidableEq

namespace MergeCheck

structure Scan where
  position : Nat
  /-- The place of the first entry of each name. -/
  firsts : Std.HashMap Name Nat
  found : Array Duplicate

/-- Reads one more entry of the map `r`. -/
def Scan.entry (r : PhiRange) (s : Scan) (p : Phi) : Scan :=
  match s.firsts[p.name]? with
  | some first =>
    { s with
      position := s.position + 1
      found := s.found.push ⟨p.name, first, s.position, r⟩ }
  | none =>
    { s with
      position := s.position + 1
      firsts := s.firsts.insert p.name s.position }

/-- Puts the repeated names among the entries `phis` of the map `r` behind those in `found`. -/
def check (r : PhiRange) (phis : List Phi) (found : Array Duplicate) : Array Duplicate :=
  (phis.foldl (Scan.entry r) ⟨0, Std.HashMap.emptyWithCapacity, found⟩).found

/-- The default traversal with every merge map looked at before its entries are visited. -/
def pass (a : Arena) : Pass (Array Duplicate) Unit where
  hook
    | .merge r, found =>
      (a.move () (.merge r),
        match a.merge? r with
        | some phis => check r phis found
        | none => found)
    | v, found => (a.move () v, found)

/-- The repeated names in all merge maps of `f`, found with visits nested at most `depth` deep. -/
def run (a : Arena) (depth : Nat) (f : Function) : Outcome (Array Duplicate) :=
  let (r, found) := (pass a).traverse depth [.visit (.function f)] #[]
  r.map fun _ => found

end MergeCheck

/-- The repeated names in all merge maps of `f`, map by map in the order of the traversal. -/
def Arena.checkMerges (a : Arena) (f : Function) : Outcome (Array Duplicate) :=
  MergeCheck.run a a.depth f

end MergeForm
