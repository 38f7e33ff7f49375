import MergeForm.Arena.Build
import MergeForm.Proofs.WellNested

/-! Arenas in which everything resolves.  Each expression, statement, merge entry and function
mentions only what was stored before it; so numbers fall from every node to its parts, and no visit
that starts at something stored comes to a number or run that does not resolve. -/

namespace MergeForm

/-! ### Runs of slots and longer tables -/

section

variable {f : Family} {α : Type}

theorem Slots.index_lt_of_mem_ids {r : Slots f} {x : Id f} (h : x ∈ r.ids) : x.index < r.stop := by
  obtain ⟨n, hn, rfl⟩ := List.mem_map.mp h
  obtain ⟨hfirst, hlt⟩ := List.mem_range'_1.mp hn
  have hlast : n < r.lastId := by
    simp only [idCount] at hlt
    omega
  obtain ⟨hstop, hword⟩ : n < r.stop ∧ n < 0xFFFFFFFF := lt_min_iff.mp hlast
  rw [Id.index_ofIndex (hword.trans (by decide))]
  exact hstop

theorem Slots.exists_entries {r : Slots f} {table : Array α} (h : r.stop ≤ table.size) :
    ∃ xs, r.entries? table = some xs ∧ ∀ x ∈ xs, x ∈ table := by
  refine ⟨_, if_pos h, fun x hx => ?_⟩
  rw [Array.toList_extract, List.extract_eq_take_drop] at hx
  exact Array.mem_toList_iff.mp (List.mem_of_mem_drop (List.mem_of_mem_take hx))

theorem appendList_eq (table : Array α) (more : List α) :
    table.appendList more = table ++ more.toArray := by
  rw [Array.appendList_eq_append]
  exact Array.toList_inj.mp (by simp)

theorem size_appendList (table : Array α) (more : List α) :
    (table.appendList more).size = table.size + more.length := by
  rw [appendList_eq]
  simp

theorem mem_appendList {table : Array α} {more : List α} {x : α} :
    x ∈ table.appendList more ↔ x ∈ table ∨ x ∈ more := by
  rw [appendList_eq]
  simp

/-- An entry of a longer table is one of the old ones, or one of the new ones behind them. -/
theorem of_getElem?_appendList {table : Array α} {more : List α} {i : Nat} {x : α}
    (h : (table.appendList more)[i]? = some x) :
    table[i]? = some x ∨ table.size ≤ i ∧ x ∈ more := by
  rw [appendList_eq, Array.getElem?_append] at h
  split at h
  · exact .inl h
  · next hi =>
    rw [List.getElem?_toArray] at h
    exact .inr ⟨Nat.not_lt.mp hi, List.mem_of_getElem? h⟩

theorem of_getElem?_push {table : Array α} {new x : α} {i : Nat}
    (h : (table.push new)[i]? = some x) : table[i]? = some x ∨ i = table.size ∧ x = new := by
  rw [Array.getElem?_push] at h
  split at h
  · next hi => exact .inr ⟨hi, (Option.some.inj h).symm⟩
  · exact .inl h

/-- A run within a table has the same entries after more have been stored. -/
theorem Slots.entries?_appendList {r : Slots f} {table : Array α} (h : r.stop ≤ table.size)
    (more : List α) : r.entries? (table.appendList more) = r.entries? table := by
  have hlonger : r.stop ≤ (table.appendList more).size := by
    rw [size_appendList]
    omega
  have hextract : (table.appendList more).extract r.first r.stop =
      table.extract r.first r.stop := by
    rw [appendList_eq, Array.extract_append, Nat.sub_eq_zero_of_le h]
    simp
  rw [entries?, entries?, if_pos hlonger, if_pos h, hextract]

theorem Arena.stop_slotsAfter_le (f : Family) (size count : Nat) :
    (Arena.slotsAfter size count : Slots f).stop ≤ size + count := by
  have hsize : size.toUInt32.toNat ≤ size := Nat.mod_le _ _
  have hcount : count.toUInt32.toNat ≤ count := Nat.mod_le _ _
  simp only [slotsAfter, Slots.stop, Slots.first, Slots.size]
  omega

theorem Id.index_ofIndex_lt {size size' : Nat} (h : size < size') :
    (Id.ofIndex size : Id f).index < size' := by
  have hle : size.toUInt32.toNat ≤ size := Nat.mod_le _ _
  simp only [ofIndex, index]
  omega

end

/-! ### Closed arenas -/

/-- The operands of a form resolve to expressions below `n`. -/
structure Expr.Form.Below (a : Arena) (n : Nat) (f : Expr.Form) : Prop where
  operands : ∀ y ∈ a.operandsOf f, y.index < n
  list : ∀ r ∈ f.list?, r.stop ≤ a.operands.size

theorem Expr.Form.Below.mono {a : Arena} {n m : Nat} {f : Expr.Form} (h : f.Below a n)
    (hle : n ≤ m) : f.Below a m :=
  ⟨fun y hy => (h.operands y hy).trans_le hle, h.list⟩

/-- The parts of a form resolve, its blocks to statements below `n`. -/
structure Stmt.Form.Below (a : Arena) (n : Nat) (f : Stmt.Form) : Prop where
  operands : ∀ x ∈ f.operands, x.index < a.exprs.size
  blocks : ∀ r ∈ f.blocks, r.stop ≤ n
  merge : ∀ m ∈ f.merge?, m.stop ≤ a.phis.size

theorem Stmt.Form.Below.mono {a : Arena} {n m : Nat} {f : Stmt.Form} (h : f.Below a n)
    (hle : n ≤ m) : f.Below a m :=
  ⟨h.operands, fun r hr => (h.blocks r hr).trans hle, h.merge⟩

/-- Both values of an entry resolve. -/
structure Phi.Within (a : Arena) (p : Phi) : Prop where
  left : p.left.index < a.exprs.size
  right : p.right.index < a.exprs.size

/-- Everything that is stored mentions only what was stored before it. -/
structure Arena.Closed (a : Arena) : Prop where
  exprs : ∀ i : Nat, ∀ e ∈ a.exprs[i]?, ∀ f ∈ e.kind.form?, f.Below a i
  operands : ∀ y ∈ a.operands, y.index < a.exprs.size
  stmts : ∀ i : Nat, ∀ s ∈ a.stmts[i]?, ∀ f ∈ s.kind.form?, f.Below a i
  phis : ∀ p ∈ a.phis, p.Within a
  functions : ∀ f ∈ a.functions, f.body.stop ≤ a.stmts.size

/-- The arena `a'` has all that `a` has, in the same slots. -/
structure Arena.Grows (a a' : Arena) : Prop where
  exprs : a.exprs.size ≤ a'.exprs.size
  operands : ∃ more, a'.operands = a.operands.appendList more
  stmts : a.stmts.size ≤ a'.stmts.size
  phis : a.phis.size ≤ a'.phis.size
  functions : a.functions.size ≤ a'.functions.size

namespace Arena

variable {a a' : Arena}

theorem exists_list {r : ExprRange} (h : r.stop ≤ a.operands.size) :
    ∃ ids, a.list? r = some ids ∧ ∀ y ∈ ids, y ∈ a.operands := Slots.exists_entries h

theorem exists_merge {r : PhiRange} (h : r.stop ≤ a.phis.size) :
    ∃ phis, a.merge? r = some phis ∧ ∀ p ∈ phis, p ∈ a.phis := Slots.exists_entries h

/-- A form resolves if the operands that stand by themselves do and its list is within its table. -/
theorem Closed.below (h : a.Closed) {f : Expr.Form} (hheads : ∀ x ∈ f.heads, x.index < a.exprs.size)
    (hlist : ∀ r ∈ f.list?, r.stop ≤ a.operands.size) : f.Below a a.exprs.size := by
  refine ⟨fun y hy => ?_, hlist⟩
  rcases List.mem_append.mp hy with hy | hy
  · exact hheads y hy
  · cases hf : f.list? with
    | none => simp [hf] at hy
    | some r =>
      obtain ⟨ids, hr, hids⟩ := exists_list (hlist r hf)
      exact h.operands y (hids y (by simpa [hf, hr] using hy))

theorem closed_empty : empty.Closed := by
  constructor <;> simp [empty]

namespace Grows

theorem operands_size (h : a.Grows a') : a.operands.size ≤ a'.operands.size := by
  obtain ⟨more, hmore⟩ := h.operands
  rw [hmore, size_appendList]
  omega

theorem list? (h : a.Grows a') {r : ExprRange} (hr : r.stop ≤ a.operands.size) :
    a'.list? r = a.list? r := by
  obtain ⟨more, hmore⟩ := h.operands
  rw [Arena.list?, hmore, Slots.entries?_appendList hr, Arena.list?]

theorem exprForm (h : a.Grows a') {n : Nat} {f : Expr.Form} (hf : f.Below a n) : f.Below a' n := by
  refine ⟨fun y hy => hf.operands y ?_, fun r hr => (hf.list r hr).trans h.operands_size⟩
  cases hr : f.list? with
  | none => simpa [operandsOf, hr] using hy
  | some r => simpa [operandsOf, hr, h.list? (hf.list r hr)] using hy

theorem stmtForm (h : a.Grows a') {n : Nat} {f : Stmt.Form} (hf : f.Below a n) : f.Below a' n where
  operands x hx := (hf.operands x hx).trans_le h.exprs
  blocks := hf.blocks
  merge m hm := (hf.merge m hm).trans h.phis

theorem phi (h : a.Grows a') {p : Phi} (hp : p.Within a) : p.Within a' :=
  ⟨hp.left.trans_le h.exprs, hp.right.trans_le h.exprs⟩

end Grows

/-- An arena stays closed if whatever is new in it mentions only what the old arena has. -/
theorem Closed.grow (h : a.Closed) (hg : a.Grows a')
    (exprs : ∀ (i : Nat) e, a'.exprs[i]? = some e →
      a.exprs[i]? = some e ∨ ∀ f ∈ e.kind.form?, f.Below a i)
    (operands : ∀ y ∈ a'.operands, y ∈ a.operands ∨ y.index < a.exprs.size)
    (stmts : ∀ (i : Nat) s, a'.stmts[i]? = some s →
      a.stmts[i]? = some s ∨ ∀ f ∈ s.kind.form?, f.Below a i)
    (phis : ∀ p ∈ a'.phis, p ∈ a.phis ∨ p.Within a)
    (functions : ∀ f ∈ a'.functions, f ∈ a.functions ∨ f.body.stop ≤ a.stmts.size) :
    a'.Closed where
  exprs i e he f hf := by
    rcases exprs i e he with hold | hnew
    · exact hg.exprForm (h.exprs i e hold f hf)
    · exact hg.exprForm (hnew f hf)
  operands y hy := by
    rcases operands y hy with hold | hnew
    · exact (h.operands y hold).trans_le hg.exprs
    · exact hnew.trans_le hg.exprs
  stmts i s hs f hf := by
    rcases stmts i s hs with hold | hnew
    · exact hg.stmtForm (h.stmts i s hold f hf)
    · exact hg.stmtForm (hnew f hf)
  phis p hp := by
    rcases phis p hp with hold | hnew
    · exact hg.phi (h.phis p hold)
    · exact hg.phi hnew
  functions f hf := by
    rcases functions f hf with hold | hnew
    · exact (h.functions f hold).trans hg.stmts
    · exact hnew.trans hg.stmts

theorem grows_addExpr (a : Arena) (e : Expr) : a.Grows (a.addExpr e).2 :=
  ⟨by simp [addExpr], ⟨[], rfl⟩, Nat.le_refl _, Nat.le_refl _, Nat.le_refl _⟩

theorem grows_addList (a : Arena) (ids : List ExprId) : a.Grows (a.addList ids).2 :=
  ⟨Nat.le_refl _, ⟨ids, rfl⟩, Nat.le_refl _, Nat.le_refl _, Nat.le_refl _⟩

theorem grows_addBlock (a : Arena) (stmts : List Stmt) : a.Grows (a.addBlock stmts).2 :=
  ⟨Nat.le_refl _, ⟨[], rfl⟩, by simp only [addBlock, size_appendList]; omega, Nat.le_refl _,
    Nat.le_refl _⟩

theorem grows_addMerge (a : Arena) (phis : List Phi) : a.Grows (a.addMerge phis).2 :=
  ⟨Nat.le_refl _, ⟨[], rfl⟩, Nat.le_refl _, by simp only [addMerge, size_appendList]; omega,
    Nat.le_refl _⟩

theorem grows_addFunction (a : Arena) (f : Function) : a.Grows (a.addFunction f).2 :=
  ⟨Nat.le_refl _, ⟨[], rfl⟩, Nat.le_refl _, Nat.le_refl _, by simp [addFunction]⟩

namespace Closed

theorem addExpr (h : a.Closed) {e : Expr} (he : ∀ f ∈ e.kind.form?, f.Below a a.exprs.size) :
    (a.addExpr e).2.Closed := by
  refine h.grow (a.grows_addExpr e) (fun i e' he' => ?_) (fun _ => .inl) (fun _ _ => .inl)
    (fun _ => .inl) (fun _ => .inl)
  rcases of_getElem?_push he' with hold | ⟨rfl, rfl⟩
  · exact .inl hold
  · exact .inr he

theorem addList (h : a.Closed) {ids : List ExprId} (hids : ∀ y ∈ ids, y.index < a.exprs.size) :
    (a.addList ids).2.Closed := by
  refine h.grow (a.grows_addList ids) (fun _ _ => .inl) (fun y hy => ?_) (fun _ _ => .inl)
    (fun _ => .inl) (fun _ => .inl)
  exact (mem_appendList.mp hy).imp_right (hids y)

theorem addBlock (h : a.Closed) {stmts : List Stmt}
    (hstmts : ∀ s ∈ stmts, ∀ f ∈ s.kind.form?, f.Below a a.stmts.size) :
    (a.addBlock stmts).2.Closed := by
  refine h.grow (a.grows_addBlock stmts) (fun _ _ => .inl) (fun _ => .inl) (fun i s hs => ?_)
    (fun _ => .inl) (fun _ => .inl)
  rcases of_getElem?_appendList hs with hold | ⟨hi, hs⟩
  · exact .inl hold
  · refine .inr fun f hf => ?_
    obtain ⟨hoperands, hblocks, hmerge⟩ := hstmts s hs f hf
    exact ⟨hoperands, fun r hr => (hblocks r hr).trans hi, hmerge⟩

theorem addMerge (h : a.Closed) {phis : List Phi} (hphis : ∀ p ∈ phis, p.Within a) :
    (a.addMerge phis).2.Closed := by
  refine h.grow (a.grows_addMerge phis) (fun _ _ => .inl) (fun _ => .inl) (fun _ _ => .inl)
    (fun p hp => ?_) (fun _ => .inl)
  exact (mem_appendList.mp hp).imp_right (hphis p)

theorem addFunction (h : a.Closed) {f : Function} (hf : f.body.stop ≤ a.stmts.size) :
    (a.addFunction f).2.Closed := by
  refine h.grow (a.grows_addFunction f) (fun _ _ => .inl) (fun _ => .inl) (fun _ _ => .inl)
    (fun _ => .inl) (fun g hg => ?_)
  rcases Array.mem_push.mp hg with hg | rfl
  · exact .inl hg
  · exact .inr hf

/-- In a closed arena numbers fall, so nothing in it contains itself. -/
theorem falls (h : a.Closed) : a.Falls where
  exprs i _ e he f hf := (h.exprs i e he f hf).operands
  stmts i _ s hs f hf r hr _ hy :=
    (Slots.index_lt_of_mem_ids hy).trans_le ((h.stmts i s hs f hf).blocks r hr)

end Closed

end Arena

/-! ### Visits that resolve -/

/-- All that the visit looks up is there. -/
def Visit.Resolves (a : Arena) : Visit → Prop
  | .function f => f.body.stop ≤ a.stmts.size
  | .block r => r.stop ≤ a.stmts.size
  | .stmt x => x.index < a.stmts.size
  | .stmtForm f => f.Below a a.stmts.size
  | .expr x | .target x => x.index < a.exprs.size
  | .exprForm f => f.Below a a.exprs.size
  | .targetForm t => t.form.Below a a.exprs.size
  | .exprList r => r.stop ≤ a.operands.size
  | .merge r | .mergeIf r | .loopEntry r | .loopRepeat r => r.stop ≤ a.phis.size
  | .phi p => p.Within a

namespace Arena

variable {a : Arena}

theorem Closed.exprForm (h : a.Closed) {x : ExprId} {f : Expr.Form} {span : Span}
    (hx : a.expr? x = some ⟨.form f, span⟩) : f.Below a a.exprs.size := by
  obtain ⟨hlt, -⟩ := Array.getElem?_eq_some_iff.mp hx
  exact (h.exprs x.index _ hx f rfl).mono hlt.le

theorem Closed.stmtForm (h : a.Closed) {x : StmtId} {f : Stmt.Form} {span : Span}
    (hx : a.stmt? x = some ⟨.form f, span⟩) : f.Below a a.stmts.size := by
  obtain ⟨hlt, -⟩ := Array.getElem?_eq_some_iff.mp hx
  exact (h.stmts x.index _ hx f rfl).mono hlt.le

theorem Closed.merge (h : a.Closed) {r : PhiRange} {phis : List Phi} {p : Phi}
    (hle : r.stop ≤ a.phis.size) (hr : a.merge? r = some phis) (hp : p ∈ phis) : p.Within a := by
  obtain ⟨phis', hr', hsub⟩ := exists_merge hle
  obtain rfl := Option.some.inj (hr.symm.trans hr')
  exact h.phis p (hsub p hp)

end Arena

namespace Visit.Resolves

variable {a : Arena} {v w : Visit}

/-- Below what resolves everything does. -/
theorem under (h : a.Closed) (hv : v.Resolves a) (hw : Under a w v) : w.Resolves a := by
  cases hw with
  | @element r ids y hr hy =>
    refine hv.operands y ?_
    simpa [Arena.operandsOf, Expr.Target.form, Expr.Form.heads, Expr.Form.list?, hr] using hy
  | entered hr hp => exact (h.merge hv hr hp).left
  | step hw =>
    cases v with
    | function f =>
      obtain rfl : w = .block f.body := by simpa [Arena.steps, Arena.plan, Task.steps] using hw
      exact hv
    | block r =>
      obtain ⟨x, hx, rfl⟩ : ∃ x ∈ r.ids, .stmt x = w := by simpa [Arena.steps_block] using hw
      exact (Slots.index_lt_of_mem_ids hx).trans_le hv
    | stmt x =>
      obtain ⟨f, span, hs, rfl⟩ := Arena.ok_mem_steps_stmt.mp hw
      exact h.stmtForm hs
    | stmtForm f =>
      rcases Arena.of_ok_mem_steps_stmtForm hw with ⟨x, hx, rfl | rfl⟩ | ⟨r, hr, rfl⟩ |
        ⟨m, hm, rfl | rfl | rfl⟩
      · exact hv.operands x hx
      · exact hv.operands x hx
      · exact hv.blocks r hr
      · exact hv.merge m hm
      · exact hv.merge m hm
      · exact hv.merge m hm
    | expr x =>
      obtain ⟨f, span, hx, rfl⟩ := Arena.ok_mem_steps_expr.mp hw
      exact h.exprForm hx
    | exprForm f =>
      obtain ⟨y, hy, rfl⟩ := Arena.operand_of_mem_steps hw
      exact hv.operands y hy
    | exprList r =>
      obtain ⟨ids, hr, hids⟩ := Arena.exists_list hv
      change .ok w ∈ (a.listTasks r).flatMap Task.steps at hw
      rw [a.steps_listTasks_some hr] at hw
      obtain ⟨y, hy, rfl⟩ := ok_mem_exprSteps.mp hw
      exact h.operands y (hids y hy)
    | target x =>
      obtain ⟨t, span, hx, rfl⟩ := Arena.ok_mem_steps_target.mp hw
      exact h.exprForm hx
    | targetForm t =>
      obtain rfl : w = .exprForm t.form := by simpa [Arena.steps, Arena.plan, Task.steps] using hw
      exact hv
    | merge r =>
      obtain ⟨phis, p, hr, hp, rfl⟩ := Arena.ok_mem_steps_merge.mp hw
      exact h.merge hv hr hp
    | mergeIf r | loopRepeat r =>
      obtain rfl : w = .merge r := by simpa [Arena.steps, Arena.plan, Task.steps] using hw
      exact hv
    | loopEntry r => simp [Arena.steps, Arena.plan] at hw
    | phi p =>
      rw [Arena.steps_phi] at hw
      obtain ⟨x, hx, rfl⟩ := ok_mem_exprSteps.mp hw
      rcases (by simpa using hx : x = p.left ∨ x = p.right) with rfl | rfl
      · exact hv.left
      · exact hv.right

/-- Nothing is missing right below a visit that resolves. -/
theorem dangling_notMem (hv : v.Resolves a) (node : NodeRef) :
    .error (.dangling node) ∉ a.steps v := by
  cases v with
  | stmt x =>
    obtain ⟨⟨f | _, span⟩, hs⟩ : ∃ s, a.stmt? x = some s := ⟨_, Array.getElem?_eq_getElem hv⟩ <;>
      simp [Arena.steps_stmt, hs]
  | expr x =>
    obtain ⟨⟨f | _, span⟩, hx⟩ : ∃ e, a.expr? x = some e := ⟨_, Array.getElem?_eq_getElem hv⟩ <;>
      simp [Arena.steps_expr, hx]
  | target x =>
    obtain ⟨⟨f | _, span⟩, hx⟩ : ∃ e, a.expr? x = some e := ⟨_, Array.getElem?_eq_getElem hv⟩
    · cases ht : f.target? <;> simp [Arena.steps_target, hx, ht]
    · simp [Arena.steps_target, hx]
  | exprForm f =>
    rw [Arena.steps_exprForm]
    cases hf : f.list? with
    | none => simp [error_notMem_exprSteps]
    | some r =>
      obtain ⟨ids, hr, -⟩ := Arena.exists_list (hv.list r hf)
      simp [a.steps_listTasks_some hr, error_notMem_exprSteps]
  | exprList r =>
    obtain ⟨ids, hr, -⟩ := Arena.exists_list hv
    change _ ∉ (a.listTasks r).flatMap Task.steps
    simp [a.steps_listTasks_some hr, error_notMem_exprSteps]
  | merge r =>
    obtain ⟨phis, hr, -⟩ := Arena.exists_merge hv
    simp [Arena.steps_merge, hr]
  | stmtForm f => simp [Arena.steps_stmtForm]
  | _ => simp [Arena.steps, Arena.plan, Task.steps, Task.exprs]

theorem dangling_notMem_varSummary (hv : v.Resolves a) (node : NodeRef) :
    .error (.dangling node) ∉ VarSummary.steps a v := by
  cases v with
  | exprForm f => exact fun h => hv.dangling_notMem node (VarSummary.steps_exprForm_subset a f h)
  | targetForm t =>
    cases t with
    | var n => simp
    | tuple r =>
      obtain ⟨ids, hr, -⟩ := Arena.exists_list (hv.list r rfl)
      simp [VarSummary.steps_tuple, hr]
    | _ => exact hv.dangling_notMem node
  | loopEntry r =>
    obtain ⟨phis, hr, -⟩ := Arena.exists_merge hv
    simp [VarSummary.steps_loopEntry, hr, error_notMem_exprSteps]
  | _ => exact hv.dangling_notMem node

end Visit.Resolves

end MergeForm
