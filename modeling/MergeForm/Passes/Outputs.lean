import MergeForm.Interner
import MergeForm.Traversal.Pass

/-! Passes with outputs.  Each gives the outputs of a few forms; those of all others are blank, but
for the forms that pass the output of their operand on. -/

namespace MergeForm.Pass

/-- Counts variables and constants, those in tuples included. -/
def leafCount (a : Arena) : Pass Unit Nat where
  hook
    | .exprForm (.var _), s => (.leaf [1], s)
    | .exprForm (.const _), s => (.leaf [1], s)
    | .exprForm (.tuple r), s => (⟨[.visit (.exprList r)], fun outs => [outs.foldl Nat.add 0]⟩, s)
    | v, s => (a.move 0 v, s)

/-- Writes variables out, those that are assigned to behind an equals sign, and arrays with their
elements in square brackets. -/
def echo (a : Arena) (names : Interner) : Pass Unit String where
  hook
    | .exprForm (.var n), s => (.leaf [names.lookup n], s)
    | .targetForm (.var n), s => (.leaf ["=" ++ names.lookup n], s)
    | .exprForm (.array r), s =>
      (⟨[.visit (.exprList r)], fun outs => ["[" ++ String.intercalate "," outs ++ "]"]⟩, s)
    | v, s => (a.move "" v, s)

end MergeForm.Pass
