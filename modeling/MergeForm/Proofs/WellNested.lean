import Mathlib.Data.Finite.Prod
import Mathlib.Data.Fintype.EquivFin
import MergeForm.Proofs.VarSteps

/-! Arenas in which no expression and no block contains itself.  There every traversal ends: below
an expression there are its operands, and below a block the blocks of its statements, and since
there are only so many numbers, neither goes on without end. -/

namespace MergeForm

instance (f : Family) : Finite (Id f) :=
  .of_injective (fun id => (⟨id.index, id.index_lt⟩ : Fin UInt32.size)) fun x y hxy => by
    rw [← x.ofIndex_index, ← y.ofIndex_index]
    exact congrArg Id.ofIndex (Fin.mk.inj hxy)

instance (f : Family) : Finite (Slots f) :=
  .of_injective (fun r => ((⟨r.start⟩, ⟨r.len⟩) : Id f × Id f)) fun r r' h => by
    cases r
    cases r'
    simpa using h

/-- A relation under which nothing comes back to itself is well-founded over finitely many
members. -/
theorem wellFounded_of_acyclic {α : Type} [Finite α] {R : α → α → Prop}
    (h : ∀ x, ¬Relation.TransGen R x x) : WellFounded (flip R) := by
  have htrans : IsTrans α (flip (Relation.TransGen R)) := ⟨fun _ _ _ hyx hzy => hzy.trans hyx⟩
  have hirrefl : Std.Irrefl (flip (Relation.TransGen R)) := ⟨h⟩
  have hwf := Finite.wellFounded_of_trans_of_irrefl (flip (Relation.TransGen R))
  exact Subrelation.wf (r := flip (Relation.TransGen R)) (fun hyx => .single hyx) hwf

namespace Arena

/-- The operands of a form: those that stand by themselves, and its list if that resolves. -/
def operandsOf (a : Arena) (f : Expr.Form) : List ExprId := f.heads ++ (f.list?.bind a.list?).getD []

/-- The expression `y` is an operand of the expression `x`. -/
def Operand (a : Arena) (x y : ExprId) : Prop :=
  ∃ f span, a.expr? x = some ⟨.form f, span⟩ ∧ y ∈ a.operandsOf f

/-- The block `r'` belongs to a statement in the block `r`. -/
def Nests (a : Arena) (r r' : StmtRange) : Prop :=
  ∃ x ∈ r.ids, ∃ f span, a.stmt? x = some ⟨.form f, span⟩ ∧ r' ∈ f.blocks

/-- No expression contains itself, and no block does. -/
structure WellNested (a : Arena) : Prop where
  exprs : ∀ x, ¬Relation.TransGen a.Operand x x
  blocks : ∀ r, ¬Relation.TransGen a.Nests r r

/-- Numbers fall from every expression to its operands, and from every statement to those in its
blocks. -/
structure Falls (a : Arena) : Prop where
  exprs : ∀ i < a.exprs.size, ∀ e ∈ a.exprs[i]?, ∀ f ∈ e.kind.form?,
    ∀ y ∈ a.operandsOf f, y.index < i
  stmts : ∀ i < a.stmts.size, ∀ s ∈ a.stmts[i]?, ∀ f ∈ s.kind.form?,
    ∀ r ∈ f.blocks, ∀ y ∈ r.ids, y.index < i

instance (a : Arena) : Decidable a.Falls :=
  decidable_of_iff (_ ∧ _) ⟨fun h => ⟨h.1, h.2⟩, fun h => ⟨h.exprs, h.stmts⟩⟩

variable {a : Arena}

theorem operand_of_mem_steps {f : Expr.Form} {w : Visit} (h : .ok w ∈ a.steps (.exprForm f)) :
    ∃ y ∈ a.operandsOf f, w = .expr y := by
  rw [steps_exprForm] at h
  rcases List.mem_append.mp h with h | h
  · obtain ⟨y, hy, rfl⟩ := ok_mem_exprSteps.mp h
    exact ⟨y, List.mem_append_left _ hy, rfl⟩
  · cases hf : f.list? with
    | none => simp [hf] at h
    | some r =>
      cases hr : a.list? r with
      | none => simp [hf, a.steps_listTasks_none hr] at h
      | some ids =>
        obtain ⟨y, hy, rfl⟩ := ok_mem_exprSteps.mp (by simpa [hf, a.steps_listTasks_some hr] using h)
        exact ⟨y, by simp [operandsOf, hf, hr, hy], rfl⟩

theorem Falls.operand_lt (h : a.Falls) {x y : ExprId} (hxy : a.Operand x y) :
    y.index < x.index := by
  obtain ⟨f, span, hx, hy⟩ := hxy
  obtain ⟨hlt, -⟩ := Array.getElem?_eq_some_iff.mp hx
  exact h.exprs x.index hlt _ hx f rfl y hy

/-- A block is in one around it through a statement that has a greater number than all of its
own. -/
theorem Falls.exists_above (h : a.Falls) {r r' : StmtRange} (hr : Relation.TransGen a.Nests r r') :
    ∃ x ∈ r.ids, ∀ y ∈ r'.ids, y.index < x.index := by
  have above {x : StmtId} {f : Stmt.Form} {span : Span} {r' : StmtRange}
      (hx : a.stmt? x = some ⟨.form f, span⟩) (hr' : r' ∈ f.blocks) :
      ∀ y ∈ r'.ids, y.index < x.index := by
    obtain ⟨hlt, -⟩ := Array.getElem?_eq_some_iff.mp hx
    exact h.stmts x.index hlt _ hx f rfl r' hr'
  induction hr with
  | single hr' =>
    obtain ⟨x, hx, f, span, hs, hr'⟩ := hr'
    exact ⟨x, hx, above hs hr'⟩
  | tail _ hr' ih =>
    obtain ⟨x, hx, hbelow⟩ := ih
    obtain ⟨z, hz, f, span, hs, hr'⟩ := hr'
    exact ⟨x, hx, fun y hy => (above hs hr' y hy).trans (hbelow z hz)⟩

theorem Falls.wellNested (h : a.Falls) : a.WellNested where
  exprs x hx := by
    have hlt {y : ExprId} (hxy : Relation.TransGen a.Operand x y) : y.index < x.index := by
      induction hxy with
      | single hxy => exact h.operand_lt hxy
      | tail _ hyz ih => exact (h.operand_lt hyz).trans ih
    exact Nat.lt_irrefl _ (hlt hx)
  blocks r hr := by
    obtain ⟨x, hx, hlt⟩ := h.exists_above hr
    exact Nat.lt_irrefl _ (hlt x hx)

end Arena

namespace Arena.WellNested

open Visit (Under)

variable {a : Arena}

/-! ### No endless nest of visits -/

theorem acc_exprForm {f : Expr.Form} (hops : ∀ y ∈ a.operandsOf f, Acc (Under a) (.expr y)) :
    Acc (Under a) (.exprForm f) := by
  refine .intro _ fun w hw => ?_
  cases hw with
  | step h =>
    obtain ⟨y, hy, rfl⟩ := operand_of_mem_steps h
    exact hops y hy

variable (h : a.WellNested)
include h

theorem acc_expr (x : ExprId) : Acc (Under a) (.expr x) := by
  induction x using (wellFounded_of_acyclic h.exprs).induction with
  | _ x ih =>
    refine .intro _ fun w hw => ?_
    cases hw with
    | step hw =>
      obtain ⟨f, span, hx, rfl⟩ := ok_mem_steps_expr.mp hw
      exact acc_exprForm fun y hy => ih y ⟨f, span, hx, hy⟩

theorem acc_targetForm {t : Expr.Target}
    (hops : ∀ y ∈ a.operandsOf t.form, Acc (Under a) (.target y)) :
    Acc (Under a) (.targetForm t) := by
  refine .intro _ fun w hw => ?_
  cases hw with
  | step hw =>
    obtain rfl : w = .exprForm t.form := by simpa [steps, plan, Task.steps] using hw
    exact acc_exprForm fun y _ => h.acc_expr y
  | @element r ids y hr hy =>
    refine hops y ?_
    simpa [operandsOf, Expr.Target.form, Expr.Form.heads, Expr.Form.list?, hr] using hy

theorem acc_target (x : ExprId) : Acc (Under a) (.target x) := by
  induction x using (wellFounded_of_acyclic h.exprs).induction with
  | _ x ih =>
    refine .intro _ fun w hw => ?_
    cases hw with
    | step hw =>
      obtain ⟨t, span, hx, rfl⟩ := ok_mem_steps_target.mp hw
      exact h.acc_targetForm fun y hy => ih y ⟨t.form, span, hx, hy⟩

theorem acc_phi (p : Phi) : Acc (Under a) (.phi p) := by
  refine .intro _ fun w hw => ?_
  cases hw with
  | step hw =>
    rw [steps_phi] at hw
    obtain ⟨x, -, rfl⟩ := ok_mem_exprSteps.mp hw
    exact h.acc_expr x

theorem acc_merge (r : PhiRange) : Acc (Under a) (.merge r) := by
  refine .intro _ fun w hw => ?_
  cases hw with
  | step hw =>
    obtain ⟨-, p, -, -, rfl⟩ := ok_mem_steps_merge.mp hw
    exact h.acc_phi p

theorem acc_whereMet (r : PhiRange) :
    Acc (Under a) (.mergeIf r) ∧ Acc (Under a) (.loopRepeat r) := by
  constructor
  all_goals
    refine .intro _ fun w hw => ?_
    cases hw with
    | step hw =>
      obtain rfl : w = .merge r := by simpa [steps, plan, Task.steps] using hw
      exact h.acc_merge r

theorem acc_loopEntry (r : PhiRange) : Acc (Under a) (.loopEntry r) := by
  refine .intro _ fun w hw => ?_
  cases hw with
  | step hw => simp [steps, plan] at hw
  | @entered _ _ p => exact h.acc_expr p.left

theorem acc_stmtForm {f : Stmt.Form} (hblocks : ∀ r ∈ f.blocks, Acc (Under a) (.block r)) :
    Acc (Under a) (.stmtForm f) := by
  refine .intro _ fun w hw => ?_
  cases hw with
  | step hw =>
    rcases of_ok_mem_steps_stmtForm hw with ⟨x, -, rfl | rfl⟩ | ⟨r, hr, rfl⟩ |
      ⟨m, -, rfl | rfl | rfl⟩
    · exact h.acc_expr x
    · exact h.acc_target x
    · exact hblocks r hr
    · exact (h.acc_whereMet m).1
    · exact h.acc_loopEntry m
    · exact (h.acc_whereMet m).2

theorem acc_stmt {x : StmtId} (hblocks : ∀ f span, a.stmt? x = some ⟨.form f, span⟩ →
    ∀ r ∈ f.blocks, Acc (Under a) (.block r)) : Acc (Under a) (.stmt x) := by
  refine .intro _ fun w hw => ?_
  cases hw with
  | step hw =>
    obtain ⟨f, span, hs, rfl⟩ := ok_mem_steps_stmt.mp hw
    exact h.acc_stmtForm (hblocks f span hs)

theorem acc_block (r : StmtRange) : Acc (Under a) (.block r) := by
  induction r using (wellFounded_of_acyclic h.blocks).induction with
  | _ r ih =>
    refine .intro _ fun w hw => ?_
    cases hw with
    | step hw =>
      obtain ⟨x, hx, rfl⟩ : ∃ x ∈ r.ids, .stmt x = w := by simpa [steps_block] using hw
      exact h.acc_stmt fun f span hs r' hr' => ih r' ⟨x, hx, f, span, hs, hr'⟩

/-- From no visit does an endless nest of visits start. -/
theorem acc (v : Visit) : Acc (Under a) v := by
  cases v with
  | block r => exact h.acc_block r
  | stmt x => exact h.acc_stmt fun _ _ _ r _ => h.acc_block r
  | stmtForm f => exact h.acc_stmtForm fun r _ => h.acc_block r
  | expr x => exact h.acc_expr x
  | exprForm f => exact acc_exprForm fun y _ => h.acc_expr y
  | target x => exact h.acc_target x
  | targetForm t => exact h.acc_targetForm fun y _ => h.acc_target y
  | merge r => exact h.acc_merge r
  | mergeIf r => exact (h.acc_whereMet r).1
  | loopEntry r => exact h.acc_loopEntry r
  | loopRepeat r => exact (h.acc_whereMet r).2
  | phi p => exact h.acc_phi p
  | function f =>
    refine .intro _ fun w hw => ?_
    cases hw with
    | step hw =>
      obtain rfl : w = .block f.body := by simpa [steps, plan, Task.steps] using hw
      exact h.acc_block f.body
  | exprList r =>
    refine .intro _ fun w hw => ?_
    cases hw with
    | step hw =>
      obtain ⟨x, rfl⟩ := a.eq_expr_of_mem_listTasks hw
      exact h.acc_expr x

/-- All steps end, if they lead nowhere that an analysis does not. -/
theorem exists_trail {next : Visit → List (Except Fault Visit)}
    (hnext : ∀ v w, .ok w ∈ next v → Under a w v) (steps : List (Except Fault Visit)) :
    ∃ n visits stop, Trail next n steps visits stop := by
  refine Ends.exists_trail fun v hv => ?_
  clear hv
  induction h.acc v with
  | intro v _ ih => exact Ends.exists_trail fun w hw => ih w (hnext v w hw)

end Arena.WellNested

end MergeForm
