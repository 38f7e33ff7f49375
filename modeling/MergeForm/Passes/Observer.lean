import MergeForm.Interner
import MergeForm.Traversal.Pass

/-! Passes that only watch.  An observer makes the default move at every visit and writes down some
of the visits; what it writes has no effect on the traversal. -/

namespace MergeForm

namespace Pass

/-- The default traversal without anything written down. -/
def bare (a : Arena) : Pass Unit Unit where
  hook v s := (a.move () v, s)

/-- The default traversal with `note v` written down at each visit `v` for which there is one. -/
def observe {ε : Type} (a : Arena) (note : Visit → Option ε) : Pass (Array ε) Unit where
  hook v log :=
    (a.move () v,
      match note v with
      | some e => log.push e
      | none => log)

end Pass

/-! ### Visits by number -/

inductive Numbered
  | expr (id : ExprId)
  | target (id : ExprId)
  | stmt (id : StmtId)
  deriving DecidableEq

namespace Numbered

def ofVisit? : Visit → Option Numbered
  | .expr id => some (.expr id)
  | .target id => some (.target id)
  | .stmt id => some (.stmt id)
  | _ => none

/-- A letter for the sort of visit, then the number. -/
def text : Numbered → String
  | .expr id => "e" ++ Text.word id.val
  | .target id => "l" ++ Text.word id.val
  | .stmt id => "s" ++ Text.word id.val

end Numbered

def Pass.counter (a : Arena) : Pass (Array Numbered) Unit := .observe a Numbered.ofVisit?

/-! ### Leaves and merges -/

/-- What a reader of the program meets: leaves with a value of their own, comments, and merges. -/
inductive Mark
  | var (name : Name)
  | const (value : Const)
  | comment (words : Name)
  | mergeIf
  | loopEntry
  | loopRepeat
  | phi (name : Name)
  deriving DecidableEq

namespace Mark

def ofVisit? : Visit → Option Mark
  | .exprForm (.var n) => some (.var n)
  | .exprForm (.const c) => some (.const c)
  | .stmtForm (.comment n) => some (.comment n)
  | .mergeIf _ => some .mergeIf
  | .loopEntry _ => some .loopEntry
  | .loopRepeat _ => some .loopRepeat
  | .phi p => some (.phi p.name)
  | _ => none

/-- A constant; a float as its bits in hexadecimal. -/
def constText : Const → String
  | .int value => Text.int value.toInt
  | .float bits => "0x" ++ Text.hex 16 bits.toNat
  | .bool value => Text.bool value
  | .none => "none"

/-- The mark with its names as `names` has them. -/
def text (names : Interner) : Mark → String
  | .var n => "var:" ++ names.lookup n
  | .const c => "const:" ++ constText c
  | .comment n => "comment:" ++ names.lookup n
  | .mergeIf => "merge_if"
  | .loopEntry => "merge_start"
  | .loopRepeat => "merge_repeat"
  | .phi n => "phi:" ++ names.lookup n

end Mark

def Pass.trace (a : Arena) : Pass (Array Mark) Unit := .observe a Mark.ofVisit?

end MergeForm
