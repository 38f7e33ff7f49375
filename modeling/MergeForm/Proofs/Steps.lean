import MergeForm.Arena.Children
import MergeForm.Proofs.Trail

/-! The single steps of the default traversal below each visit.  The operands of a form are some
that stand by themselves and then, in some forms, one list; both the plan of the form and its
children are read off these two, so that they agree wherever the list resolves. -/

namespace MergeForm

def Expr.Kind.form? : Expr.Kind → Option Expr.Form
  | .form f => some f
  | .error => none

def Stmt.Kind.form? : Stmt.Kind → Option Stmt.Form
  | .form f => some f
  | .error => none

def Expr.Form.heads : Expr.Form → List ExprId
  | .var _ | .const _ | .untypedFn _ | .typedFn _ | .typeValue _ => []
  | .attribute v _ => [v]
  | .cast v _ => [v]
  | .closureElt c _ => [c]
  | .tupleProj t _ => [t]
  | .tuple _ | .struct _ | .array _ | .primCall _ _ => []
  | .index v i => [v, i]
  | .slice x y z => [x, y, z]
  | .range x y z => [x, y, z]
  | .call g _ | .closure g _ | .map g _ | .outerMap g _ => [g]
  | .alloc c _ => [c]
  | .allocArray s _ => [s]
  | .arrayView d s t o n => [d, s, t, o, n]
  | .shape x | .strides x | .ravel x => [x]
  | .reshape x s => [x, s]
  | .reduce g i _ | .scan g i _ => g :: i.toList
  | .indexMap g s => [g, s]
  | .indexReduce g c s i => [g, c, s, i]
  | .indexScan g i s => g :: (i.toList ++ [s])

def Expr.Form.list? : Expr.Form → Option ExprRange
  | .tuple r | .struct r | .array r | .primCall _ r => some r
  | .call _ r | .closure _ r | .map _ r | .outerMap _ r => some r
  | .reduce _ _ r | .scan _ _ r => some r
  | _ => none

/-- The expressions of a statement, those that are assigned to included. -/
def Stmt.Form.operands : Stmt.Form → List ExprId
  | .assign l r => [l, r]
  | .eval e | .ret e => [e]
  | .comment _ => []
  | .ifElse c _ _ _ | .whileLoop c _ _ => [c]
  | .forLoop v i o s _ _ => [v, i, o, s]
  | .parFor g b => [g, b]

/-- The blocks of a statement, in the order in which they are gone through. -/
def Stmt.Form.blocks : Stmt.Form → List StmtRange
  | .ifElse _ t f _ => [t, f]
  | .whileLoop _ b _ => [b]
  | .forLoop _ _ _ _ b _ => [b]
  | _ => []

/-- The entries of a merge map, none if it does not resolve. -/
def Arena.entries (a : Arena) (r : PhiRange) : List Phi := (a.merge? r).getD []

def exprSteps (ids : List ExprId) : List (Except Fault Visit) := ids.map fun id => .ok (.expr id)

@[simp] theorem flatMap_steps_exprs (ids : List ExprId) :
    (Task.exprs ids).flatMap Task.steps = exprSteps ids := by
  rw [Task.exprs, exprSteps, List.flatMap_map, List.map_eq_flatMap]
  rfl

theorem exprSteps_append (ids ids' : List ExprId) :
    exprSteps (ids ++ ids') = exprSteps ids ++ exprSteps ids' := List.map_append

theorem exprSteps_inj {ids ids' : List ExprId} (h : exprSteps ids = exprSteps ids') :
    ids = ids' := by
  refine (List.map_inj_right fun x y hxy => ?_).mp h
  simpa using hxy

theorem ok_mem_exprSteps {ids : List ExprId} {w : Visit} :
    .ok w ∈ exprSteps ids ↔ ∃ id ∈ ids, w = .expr id := by
  simp [exprSteps, eq_comm]

theorem error_notMem_exprSteps (ids : List ExprId) (f : Fault) : .error f ∉ exprSteps ids := by
  simp [exprSteps]

/-- The visit that a task is, if it is a single one. -/
def Task.visit? : Task → Option Visit
  | .visit v => some v
  | _ => none

namespace Arena

variable (a : Arena)

theorem exprPlan_eq (f : Expr.Form) :
    a.exprPlan f = Task.exprs f.heads ++ f.list?.elim [] a.listTasks := by
  cases f with
  | indexScan g i s => cases i <;> rfl
  | reduce g i r => rfl
  | scan g i r => rfl
  | _ => simp [exprPlan, Expr.Form.heads, Expr.Form.list?, Task.exprs]

theorem children_form (f : Expr.Form) :
    a.children (.form f) = f.list?.elim (.ok f.heads) (a.before f.heads) := by
  have alone (r : ExprRange) : a.before [] r = a.list r := by
    simp only [before]
    cases a.list r <;> rfl
  cases f <;> simp [children, Expr.Form.heads, Expr.Form.list?, alone]

theorem steps_listTasks_some {r : ExprRange} {ids : List ExprId} (h : a.list? r = some ids) :
    (a.listTasks r).flatMap Task.steps = exprSteps ids := by
  simp [listTasks, h]

theorem steps_listTasks_none {r : ExprRange} (h : a.list? r = none) :
    (a.listTasks r).flatMap Task.steps = [.error (.dangling (.exprList r))] := by
  simp [listTasks, h, Task.steps]

theorem steps_exprForm (f : Expr.Form) :
    a.steps (.exprForm f) =
      exprSteps f.heads ++ f.list?.elim [] fun r => (a.listTasks r).flatMap Task.steps := by
  simp only [steps, plan, exprPlan_eq, List.flatMap_append, flatMap_steps_exprs]
  cases f.list? <;> rfl

/-- A form has children where its steps are all visits, and then the steps are the visits of the
children. -/
theorem children_eq_ok_iff (f : Expr.Form) (ids : List ExprId) :
    a.children (.form f) = .ok ids ↔ a.steps (.exprForm f) = exprSteps ids := by
  rw [children_form, steps_exprForm]
  cases f.list? with
  | none =>
    simp only [Option.elim_none, List.append_nil, Except.ok.injEq]
    exact ⟨fun h => h ▸ rfl, exprSteps_inj⟩
  | some r =>
    simp only [Option.elim_some, before, list]
    cases h : a.list? r with
    | none =>
      refine ⟨fun h => by simp [Except.map] at h, fun hs => ?_⟩
      refine absurd ?_ (error_notMem_exprSteps ids (.dangling (.exprList r)))
      simp [← hs, a.steps_listTasks_none h]
    | some args =>
      rw [a.steps_listTasks_some h, ← exprSteps_append]
      simp only [Except.map, Except.ok.injEq]
      exact ⟨fun h => h ▸ rfl, exprSteps_inj⟩

/-- The fault for which a form has no children is among its steps. -/
theorem error_mem_of_children {f : Expr.Form} {g : Fault}
    (h : a.children (.form f) = .error g) : .error g ∈ a.steps (.exprForm f) := by
  rw [children_form] at h
  rw [steps_exprForm]
  cases hf : f.list? with
  | none => simp [hf] at h
  | some r =>
    cases hr : a.list? r with
    | none =>
      obtain rfl : Fault.dangling (.exprList r) = g := by
        simpa [hf, before, list, hr, Except.map] using h
      simp [a.steps_listTasks_none hr]
    | some ids => simp [hf, before, list, hr, Except.map] at h

theorem eq_expr_of_mem_listTasks {r : ExprRange} {w : Visit}
    (h : .ok w ∈ (a.listTasks r).flatMap Task.steps) : ∃ id, w = .expr id := by
  cases hr : a.list? r with
  | none => simp [a.steps_listTasks_none hr] at h
  | some ids =>
    rw [a.steps_listTasks_some hr] at h
    obtain ⟨id, -, rfl⟩ := ok_mem_exprSteps.mp h
    exact ⟨id, rfl⟩

theorem eq_expr_of_mem_exprForm {f : Expr.Form} {w : Visit}
    (h : .ok w ∈ a.steps (.exprForm f)) : ∃ id, w = .expr id := by
  rw [steps_exprForm] at h
  rcases List.mem_append.mp h with h | h
  · obtain ⟨id, -, rfl⟩ := ok_mem_exprSteps.mp h
    exact ⟨id, rfl⟩
  · cases hf : f.list? with
    | none => simp [hf] at h
    | some r => exact a.eq_expr_of_mem_listTasks (by simpa [hf] using h)

/-! ### The steps below the other visits -/

theorem steps_block (r : StmtRange) :
    a.steps (.block r) = r.ids.map fun id => .ok (.stmt id) := by
  simp [steps, plan, Task.steps, Slots.ids]

theorem steps_stmtForm (f : Stmt.Form) :
    a.steps (.stmtForm f) = ((stmtPlan f).filterMap Task.visit?).map .ok := by
  cases f <;> rfl

theorem steps_stmt (id : StmtId) :
    a.steps (.stmt id) =
      match a.stmt? id with
      | none => [.error (.dangling (.stmt id))]
      | some ⟨.error, span⟩ => [.error (.unrecognized (.stmt id) span)]
      | some ⟨.form f, _⟩ => [.ok (.stmtForm f)] := by
  rcases h : a.stmt? id with _ | ⟨_ | _, span⟩ <;> simp [steps, plan, h, Task.steps]

theorem steps_expr (id : ExprId) :
    a.steps (.expr id) =
      match a.expr? id with
      | none => [.error (.dangling (.expr id))]
      | some ⟨.error, span⟩ => [.error (.unrecognized (.expr id) span)]
      | some ⟨.form f, _⟩ => [.ok (.exprForm f)] := by
  rcases h : a.expr? id with _ | ⟨_ | _, span⟩ <;> simp [steps, plan, h, Task.steps]

theorem steps_target (id : ExprId) :
    a.steps (.target id) =
      match a.expr? id with
      | none => [.error (.dangling (.expr id))]
      | some ⟨.error, span⟩ => [.error (.unrecognized (.expr id) span)]
      | some ⟨.form f, span⟩ =>
        match f.target? with
        | some t => [.ok (.targetForm t)]
        | none => [.error (.notTarget f.tag id span)] := by
  rcases h : a.expr? id with _ | ⟨f | _, span⟩
  · simp [steps, plan, h, Task.steps]
  · cases ht : f.target? <;> simp [steps, plan, h, ht, Task.steps]
  · simp [steps, plan, h, Task.steps]

theorem steps_merge (r : PhiRange) :
    a.steps (.merge r) =
      match a.merge? r with
      | some phis => phis.map fun p => .ok (.phi p)
      | none => [.error (.dangling (.merge r))] := by
  cases h : a.merge? r with
  | none => simp [steps, plan, mergeTasks, h, Task.steps]
  | some phis =>
    simp only [steps, plan, mergeTasks, h]
    rw [List.flatMap_map, List.map_eq_flatMap]
    rfl

/-! What is visited below a visit. -/

variable {a} {w : Visit}

theorem ok_mem_steps_stmt {id : StmtId} :
    .ok w ∈ a.steps (.stmt id) ↔ ∃ f span, a.stmt? id = some ⟨.form f, span⟩ ∧ w = .stmtForm f := by
  rw [steps_stmt]
  rcases hs : a.stmt? id with _ | ⟨f | _, span⟩ <;> simp

/-- Below a statement there are its expressions, its blocks and its merge map. -/
theorem of_ok_mem_steps_stmtForm {f : Stmt.Form} (h : .ok w ∈ a.steps (.stmtForm f)) :
    (∃ x ∈ f.operands, w = .expr x ∨ w = .target x) ∨ (∃ r ∈ f.blocks, w = .block r) ∨
      ∃ m, f.merge? = some m ∧ (w = .mergeIf m ∨ w = .loopEntry m ∨ w = .loopRepeat m) := by
  cases f <;> simp [steps, plan, stmtPlan, Task.steps] at h <;>
    simp [Stmt.Form.operands, Stmt.Form.blocks, Stmt.Form.merge?] <;> grind

theorem ok_mem_steps_expr {id : ExprId} :
    .ok w ∈ a.steps (.expr id) ↔ ∃ f span, a.expr? id = some ⟨.form f, span⟩ ∧ w = .exprForm f := by
  rw [steps_expr]
  rcases hs : a.expr? id with _ | ⟨f | _, span⟩ <;> simp

theorem ok_mem_steps_target {id : ExprId} :
    .ok w ∈ a.steps (.target id) ↔
      ∃ t span, a.expr? id = some ⟨.form (Expr.Target.form t), span⟩ ∧ w = .targetForm t := by
  rw [steps_target]
  rcases hs : a.expr? id with _ | ⟨f | _, span⟩
  · simp
  · simp only [Option.some.injEq, Expr.mk.injEq, Expr.Kind.form.injEq,
      ← Expr.Form.target?_eq_some_iff]
    cases f.target? <;> simp
  · simp

theorem ok_mem_steps_merge {r : PhiRange} :
    .ok w ∈ a.steps (.merge r) ↔ ∃ phis p, a.merge? r = some phis ∧ p ∈ phis ∧ w = .phi p := by
  rw [steps_merge]
  cases hr : a.merge? r <;> simp [eq_comm]

variable (a)

/-! What a visit is when none of the steps below it is a fault. -/

theorem stmt_of_steps {id : StmtId} {below : List Visit} (h : a.steps (.stmt id) = below.map .ok) :
    ∃ f span, a.stmt? id = some ⟨.form f, span⟩ ∧ below = [.stmtForm f] := by
  rw [steps_stmt] at h
  rcases hs : a.stmt? id with _ | ⟨f | _, span⟩
  · cases below <;> simp [hs] at h
  · simp only [hs] at h
    exact ⟨f, span, rfl, Trail.map_ok_inj h.symm⟩
  · cases below <;> simp [hs] at h

theorem expr_of_steps {id : ExprId} {below : List Visit} (h : a.steps (.expr id) = below.map .ok) :
    ∃ f span, a.expr? id = some ⟨.form f, span⟩ ∧ below = [.exprForm f] := by
  rw [steps_expr] at h
  rcases hs : a.expr? id with _ | ⟨f | _, span⟩
  · cases below <;> simp [hs] at h
  · simp only [hs] at h
    exact ⟨f, span, rfl, Trail.map_ok_inj h.symm⟩
  · cases below <;> simp [hs] at h

theorem exprForm_of_steps {f : Expr.Form} {below : List Visit}
    (h : a.steps (.exprForm f) = below.map .ok) :
    ∃ ids : List ExprId, a.children (.form f) = .ok ids ∧ below = ids.map .expr := by
  cases hc : a.children (.form f) with
  | ok ids =>
    have hids : exprSteps ids = (ids.map Visit.expr).map .ok := List.map_map.symm
    rw [(a.children_eq_ok_iff f ids).mp hc, hids] at h
    exact ⟨ids, rfl, Trail.map_ok_inj h.symm⟩
  | error g =>
    have hmem := a.error_mem_of_children hc
    simp [h] at hmem

theorem list_of_steps {r : ExprRange} {below : List Visit}
    (h : a.steps (.exprList r) = below.map .ok) :
    ∃ ids : List ExprId, a.list? r = some ids ∧ below = ids.map .expr := by
  change (a.listTasks r).flatMap Task.steps = below.map .ok at h
  cases hr : a.list? r with
  | none =>
    rw [a.steps_listTasks_none hr] at h
    cases below <;> simp at h
  | some ids =>
    have hids : exprSteps ids = (ids.map Visit.expr).map .ok := List.map_map.symm
    rw [a.steps_listTasks_some hr, hids] at h
    exact ⟨ids, rfl, Trail.map_ok_inj h.symm⟩

theorem target_of_steps {id : ExprId} {below : List Visit}
    (h : a.steps (.target id) = below.map .ok) :
    ∃ t span, a.expr? id = some ⟨.form (Expr.Target.form t), span⟩ ∧ below = [.targetForm t] := by
  rw [steps_target] at h
  rcases hs : a.expr? id with _ | ⟨f | _, span⟩
  · cases below <;> simp [hs] at h
  · cases ht : f.target? with
    | none => cases below <;> simp [hs, ht] at h
    | some t =>
      simp only [hs, ht] at h
      obtain rfl := Expr.Form.target?_eq_some_iff.mp ht
      exact ⟨t, span, rfl, Trail.map_ok_inj h.symm⟩
  · cases below <;> simp [hs] at h

theorem merge_of_steps {r : PhiRange} {below : List Visit} (h : a.steps (.merge r) = below.map .ok) :
    ∃ phis : List Phi, a.merge? r = some phis ∧ below = phis.map .phi := by
  rw [steps_merge] at h
  cases hr : a.merge? r with
  | none => cases below <;> simp [hr] at h
  | some phis =>
    have hphis : phis.map (fun p => (.ok (.phi p) : Except Fault Visit)) =
        (phis.map Visit.phi).map .ok := List.map_map.symm
    simp only [hr, hphis] at h
    exact ⟨phis, rfl, Trail.map_ok_inj h.symm⟩

theorem merge_below_stmtForm {f : Stmt.Form} {r : PhiRange} (h : f.merge? = some r) :
    ∃ v, .ok v ∈ a.steps (.stmtForm f) ∧ .ok (.merge r) ∈ a.steps v := by
  cases f with
  | ifElse c t f m =>
    obtain rfl : m = r := by simpa [Stmt.Form.merge?] using h
    exact ⟨.mergeIf m, by simp [steps, plan, stmtPlan, Task.steps],
      by simp [steps, plan, Task.steps]⟩
  | whileLoop c b m =>
    obtain rfl : m = r := by simpa [Stmt.Form.merge?] using h
    exact ⟨.loopRepeat m, by simp [steps, plan, stmtPlan, Task.steps],
      by simp [steps, plan, Task.steps]⟩
  | forLoop v i o s b m =>
    obtain rfl : m = r := by simpa [Stmt.Form.merge?] using h
    exact ⟨.loopRepeat m, by simp [steps, plan, stmtPlan, Task.steps],
      by simp [steps, plan, Task.steps]⟩
  | _ => simp [Stmt.Form.merge?] at h

theorem steps_phi (p : Phi) : a.steps (.phi p) = exprSteps [p.left, p.right] := rfl

theorem left_mem_steps_phi (p : Phi) : .ok (.expr p.left) ∈ a.steps (.phi p) :=
  List.mem_cons_self ..

theorem steps_targetForm (t : Expr.Target) : a.steps (.targetForm t) = [.ok (.exprForm t.form)] :=
  rfl

theorem ok_mem_steps_tuple {r : ExprRange} {ids : List ExprId} (h : a.list? r = some ids)
    {id : ExprId} (hid : id ∈ ids) : .ok (.expr id) ∈ a.steps (.exprForm (.tuple r)) := by
  rw [steps_exprForm]
  simpa [Expr.Form.heads, Expr.Form.list?, a.steps_listTasks_some h, exprSteps] using hid

end Arena

/-! ### Which visits are above which -/

/-- What `v` has to be for the visit on the right to be below it. -/
def Visit.Above (a : Arena) (v : Visit) : Visit → Prop
  | .function _ | .exprList _ => False
  | .block r => (∃ f, v = .function f ∧ f.body = r) ∨ ∃ f, v = .stmtForm f
  | .stmt id => ∃ r, v = .block r ∧ id ∈ r.ids
  | .stmtForm f => ∃ id span, v = .stmt id ∧ a.stmt? id = some ⟨.form f, span⟩
  | .expr _ =>
    (∃ f, v = .stmtForm f) ∨ (∃ f, v = .exprForm f) ∨ (∃ r, v = .exprList r) ∨ ∃ p, v = .phi p
  | .exprForm f =>
    (∃ id span, v = .expr id ∧ a.expr? id = some ⟨.form f, span⟩) ∨
      ∃ t, v = .targetForm t ∧ t.form = f
  | .target _ => ∃ f, v = .stmtForm f
  | .targetForm t => ∃ id span, v = .target id ∧ a.expr? id = some ⟨.form t.form, span⟩
  | .merge r => v = .mergeIf r ∨ v = .loopRepeat r
  | .mergeIf r | .loopEntry r | .loopRepeat r => ∃ f, v = .stmtForm f ∧ f.merge? = some r
  | .phi p => ∃ r phis, v = .merge r ∧ a.merge? r = some phis ∧ p ∈ phis

theorem Arena.above_of_mem_steps {a : Arena} {v w : Visit} (h : .ok w ∈ a.steps v) :
    v.Above a w := by
  cases v with
  | function f =>
    obtain rfl : w = .block f.body := by simpa [steps, plan, Task.steps] using h
    exact .inl ⟨f, rfl, rfl⟩
  | block r =>
    obtain ⟨id, hid, rfl⟩ : ∃ id ∈ r.ids, .stmt id = w := by simpa [steps_block] using h
    exact ⟨r, rfl, hid⟩
  | stmt id =>
    obtain ⟨f, span, hs, rfl⟩ := ok_mem_steps_stmt.mp h
    exact ⟨id, span, rfl, hs⟩
  | stmtForm f =>
    rcases of_ok_mem_steps_stmtForm h with ⟨x, -, rfl | rfl⟩ | ⟨r, -, rfl⟩ |
      ⟨m, hm, rfl | rfl | rfl⟩
    · exact .inl ⟨f, rfl⟩
    · exact ⟨f, rfl⟩
    · exact .inr ⟨f, rfl⟩
    · exact ⟨f, rfl, hm⟩
    · exact ⟨f, rfl, hm⟩
    · exact ⟨f, rfl, hm⟩
  | expr id =>
    obtain ⟨f, span, hs, rfl⟩ := ok_mem_steps_expr.mp h
    exact .inl ⟨id, span, rfl, hs⟩
  | exprForm f =>
    obtain ⟨id, rfl⟩ := a.eq_expr_of_mem_exprForm h
    exact .inr (.inl ⟨f, rfl⟩)
  | exprList r =>
    obtain ⟨id, rfl⟩ := a.eq_expr_of_mem_listTasks h
    exact .inr (.inr (.inl ⟨r, rfl⟩))
  | target id =>
    obtain ⟨t, span, hs, rfl⟩ := ok_mem_steps_target.mp h
    exact ⟨id, span, rfl, hs⟩
  | targetForm t =>
    obtain rfl : w = .exprForm t.form := by simpa [steps, plan, Task.steps] using h
    exact .inr ⟨t, rfl, rfl⟩
  | merge r =>
    obtain ⟨phis, p, hs, hp, rfl⟩ := ok_mem_steps_merge.mp h
    exact ⟨r, phis, rfl, hs, hp⟩
  | mergeIf r =>
    obtain rfl : w = .merge r := by simpa [steps, plan, Task.steps] using h
    exact .inl rfl
  | loopEntry r => simp [steps, plan] at h
  | loopRepeat r =>
    obtain rfl : w = .merge r := by simpa [steps, plan, Task.steps] using h
    exact .inr rfl
  | phi p =>
    rw [steps_phi] at h
    obtain ⟨id, -, rfl⟩ := ok_mem_exprSteps.mp h
    exact .inr (.inr (.inr ⟨p, rfl⟩))

end MergeForm
