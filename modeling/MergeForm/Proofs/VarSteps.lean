import MergeForm.Analysis.VarSummary
import MergeForm.Proofs.Depth

/-! The steps of the collection of names.  They are the default ones but in three places: a variable
is a leaf, a tuple that is assigned to has its elements assigned to, and where a loop is entered the
values from before the loop are visited. -/

namespace MergeForm

theorem Arena.collectVars_eq (a : Arena) (f : Function) :
    a.collectVars f = ((VarSummary.pass a).traverse a.depth [.visit (.function f)] .empty).1.map
      fun _ => ((VarSummary.pass a).traverse a.depth [.visit (.function f)] .empty).2 := rfl

namespace VarSummary

/-- The single steps below a visit where names are collected. -/
def steps (a : Arena) (v : Visit) : List (Except Fault Visit) := ((pass a).hook v empty).1.steps

def note (a : Arena) (s : VarSummary) (v : Visit) : VarSummary := ((pass a).hook v s).2

theorem follows (a : Arena) : (pass a).Follows (steps a) (note a) where
  steps v s := by
    cases v with
    | exprForm f => cases f <;> rfl
    | targetForm t => cases t <;> rfl
    | loopEntry r =>
      simp only [steps, pass, enterLoop]
      cases a.merge? r <;> rfl
    | _ => rfl
  state _ _ := rfl

/-- A variable is a leaf here, and all other forms have their default steps. -/
theorem steps_exprForm_subset (a : Arena) (f : Expr.Form) :
    steps a (.exprForm f) ⊆ a.steps (.exprForm f) := by
  cases f with
  | var n => exact List.nil_subset _
  | _ => exact List.Subset.refl _

@[simp] theorem steps_targetVar (a : Arena) (n : Name) : steps a (.targetForm (.var n)) = [] := rfl

theorem steps_exprForm {a : Arena} {f : Expr.Form} (hf : ∀ n, f ≠ .var n) :
    steps a (.exprForm f) = a.steps (.exprForm f) := by
  cases f with
  | var n => exact absurd rfl (hf n)
  | _ => rfl

theorem steps_tuple (a : Arena) (r : ExprRange) :
    steps a (.targetForm (.tuple r)) =
      match a.list? r with
      | some ids => (ids.map Visit.target).map .ok
      | none => [.error (.dangling (.exprList r))] := by
  simp only [steps, pass, Move.steps, targetTasks]
  cases a.list? r with
  | none => rfl
  | some ids =>
    show (ids.map fun id => Task.visit (.target id)).flatMap Task.steps =
      (ids.map Visit.target).map .ok
    rw [List.flatMap_map, List.map_map, List.map_eq_flatMap]
    rfl

theorem steps_loopEntry (a : Arena) (r : PhiRange) :
    steps a (.loopEntry r) =
      match a.merge? r with
      | some phis => exprSteps (phis.map Phi.left)
      | none => [.error (.dangling (.merge r))] := by
  simp only [steps, pass, enterLoop]
  cases a.merge? r with
  | none => rfl
  | some phis => exact flatMap_steps_exprs _

/-- A fault that the default traversal does not have below the visit is that the list of a tuple or
the merge map of a loop does not resolve. -/
theorem error_mem_steps {a : Arena} {v : Visit} {g : Fault} (h : .error g ∈ steps a v) :
    .error g ∈ a.steps v ∨ (∃ r, v = .targetForm (.tuple r) ∧ a.list? r = none) ∨
      ∃ r, v = .loopEntry r ∧ a.merge? r = none := by
  cases v with
  | exprForm f => exact .inl (steps_exprForm_subset a f h)
  | targetForm t =>
    cases t with
    | var n => simp at h
    | tuple r =>
      rw [steps_tuple] at h
      cases hr : a.list? r with
      | none => exact .inr (.inl ⟨r, rfl, hr⟩)
      | some ids => simp [hr] at h
    | _ => exact .inl h
  | loopEntry r =>
    rw [steps_loopEntry] at h
    cases hr : a.merge? r with
    | none => exact .inr (.inr ⟨r, rfl, hr⟩)
    | some phis =>
      simp only [hr] at h
      exact absurd h (error_notMem_exprSteps _ g)
  | _ => exact .inl h

end VarSummary

/-- What an analysis may do below a visit: the steps of the default traversal, and those to the
elements of a tuple that is assigned to and to the values from before a loop. -/
inductive Visit.Under (a : Arena) : Visit → Visit → Prop
  | step {v w : Visit} : .ok w ∈ a.steps v → Under a w v
  | element {r : ExprRange} {ids : List ExprId} {y : ExprId} :
    a.list? r = some ids → y ∈ ids → Under a (.target y) (.targetForm (.tuple r))
  | entered {r : PhiRange} {phis : List Phi} {p : Phi} :
    a.merge? r = some phis → p ∈ phis → Under a (.expr p.left) (.loopEntry r)

namespace Visit.Under

variable {a : Arena} {v w : Visit}

theorem of_varSummary (h : .ok w ∈ VarSummary.steps a v) : Under a w v := by
  cases v with
  | exprForm f => exact .step (VarSummary.steps_exprForm_subset a f h)
  | targetForm t =>
    cases t with
    | var n => simp at h
    | tuple r =>
      rw [VarSummary.steps_tuple] at h
      cases hr : a.list? r with
      | none => simp [hr] at h
      | some ids =>
        obtain ⟨y, hy, rfl⟩ : ∃ y ∈ ids, .target y = w := by simpa [hr] using h
        exact .element hr hy
    | _ => exact .step h
  | loopEntry r =>
    rw [VarSummary.steps_loopEntry] at h
    cases hr : a.merge? r with
    | none => simp [hr] at h
    | some phis =>
      obtain ⟨p, hp, rfl⟩ : ∃ p ∈ phis, .expr p.left = w := by
        simpa [hr, exprSteps] using h
      exact .entered hr hp
  | _ => exact .step h

/-- Where the steps are not the default ones, they lead to visits by number. -/
theorem holds_or_rank_lt (h : Under a w v) : a.holds w = true ∨ a.rank w < a.rank v := by
  have byNumber (hn : Numbered.ofVisit? w ≠ none) (hv : 0 < a.rank v) :
      a.holds w = true ∨ a.rank w < a.rank v :=
    (a.holds_or_rank_eq_zero hn).imp_right fun hz => by omega
  cases h with
  | step h => exact a.graded v w h
  | element => exact byNumber (by simp [Numbered.ofVisit?]) (by simp [Arena.rank])
  | entered => exact byNumber (by simp [Numbered.ofVisit?]) (by simp [Arena.rank])

end Visit.Under

namespace VarSummary

theorem graded (a : Arena) : Graded a (steps a) :=
  fun _ _ h => (Visit.Under.of_varSummary h).holds_or_rank_lt

end VarSummary

end MergeForm
