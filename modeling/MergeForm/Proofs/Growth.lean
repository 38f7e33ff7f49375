import MergeForm.Proofs.Agreement
import MergeForm.Proofs.Cutoff
import MergeForm.Proofs.InternedNames
import MergeForm.Proofs.MergeMaps
import MergeForm.Proofs.ScopedBuild

/-! Arenas that are added to.  What resolves once resolves to the same in every larger arena, and no
traversal looks at the table of functions.  So a traversal that misses nothing is the same for good,
and one that misses something has at least come as far in every larger arena. -/

namespace MergeForm

/-- The fault that something does not resolve. -/
def Fault.IsDangling (f : Fault) : Prop := ∃ node, f = .dangling node

/-! ### Larger arenas -/

section

variable {α : Type} {f : Family} {table later : Array α}

theorem Slots.entries?_of_prefix (h : table.toList <+: later.toList) {r : Slots f} {xs : List α}
    (hr : r.entries? table = some xs) : r.entries? later = some xs := by
  obtain ⟨more, hmore⟩ := h
  have hlater : later = table.appendList more := by
    apply Array.toList_inj.mp
    simp [← hmore]
  have hfits : r.stop ≤ table.size := (r.entries?_isSome_iff table).mp (by simp [hr])
  rw [hlater, entries?_appendList hfits, hr]

end

/-- The arena `b` begins with the tables of `a`, but for the functions, which may be others. -/
structure Arena.Begins (a b : Arena) : Prop where
  exprs : a.exprs.toList <+: b.exprs.toList
  operands : a.operands.toList <+: b.operands.toList
  stmts : a.stmts.toList <+: b.stmts.toList
  phis : a.phis.toList <+: b.phis.toList

namespace Arena.Begins

variable {a b : Arena}

theorem refl (a : Arena) : a.Begins a :=
  ⟨List.prefix_refl _, List.prefix_refl _, List.prefix_refl _, List.prefix_refl _⟩

theorem trans {c : Arena} (h : a.Begins b) (h' : b.Begins c) : a.Begins c :=
  ⟨h.exprs.trans h'.exprs, h.operands.trans h'.operands, h.stmts.trans h'.stmts,
    h.phis.trans h'.phis⟩

theorem addExpr (a : Arena) (e : Expr) : a.Begins (a.addExpr e).2 :=
  { refl a with exprs := by simp [Arena.addExpr] }

theorem addList (a : Arena) (ids : List ExprId) : a.Begins (a.addList ids).2 :=
  { refl a with operands := by simp [Arena.addList] }

/-- Whatever is stored is put behind what is there. -/
theorem apply (s : Scope) (op : Op) : s.arena.Begins (s.apply op).arena := by
  cases op with
  | expr e => exact addExpr _ e
  | list ids => exact addList _ ids
  | block stmts => exact { refl s.arena with stmts := by simp [Scope.apply, addBlock] }
  | merge phis => exact { refl s.arena with phis := by simp [Scope.apply, addMerge] }
  | function f => exact { refl s.arena with }
  | tuple elts => exact (addList _ elts).trans (addExpr _ _)
  | array elts => exact (addList _ elts).trans (addExpr _ _)
  | prim p args => exact (addList _ args).trans (addExpr _ _)

theorem run (s : Scope) (ops : List Op) : s.arena.Begins (s.run ops).arena := by
  induction ops generalizing s with
  | nil => exact refl _
  | cons op ops ih => exact (apply s op).trans (ih (s.apply op))

theorem expr? (h : a.Begins b) {id : ExprId} {e : Expr} (he : a.expr? id = some e) :
    b.expr? id = some e :=
  getElem?_of_prefix_toList h.exprs he

theorem stmt? (h : a.Begins b) {id : StmtId} {s : Stmt} (hs : a.stmt? id = some s) :
    b.stmt? id = some s :=
  getElem?_of_prefix_toList h.stmts hs

theorem list? (h : a.Begins b) {r : ExprRange} {ids : List ExprId} (hr : a.list? r = some ids) :
    b.list? r = some ids :=
  Slots.entries?_of_prefix h.operands hr

theorem merge? (h : a.Begins b) {r : PhiRange} {phis : List Phi} (hr : a.merge? r = some phis) :
    b.merge? r = some phis :=
  Slots.entries?_of_prefix h.phis hr

/-! ### Steps in a larger arena -/

theorem listTasks (h : a.Begins b) (r : ExprRange) :
    Continues Fault.IsDangling ((a.listTasks r).flatMap Task.steps)
      ((b.listTasks r).flatMap Task.steps) := by
  cases hr : a.list? r with
  | none =>
    rw [a.steps_listTasks_none hr]
    exact .past _ _ ⟨_, rfl⟩
  | some ids =>
    rw [a.steps_listTasks_some hr, b.steps_listTasks_some (h.list? hr)]
    exact .refl _

/-- Where the smaller arena has something missing the larger one may go on. -/
theorem steps (h : a.Begins b) (v : Visit) :
    Continues Fault.IsDangling (a.steps v) (b.steps v) := by
  cases v with
  | stmt id =>
    cases hs : a.stmt? id with
    | none =>
      rw [a.steps_stmt, hs]
      exact .past _ _ ⟨_, rfl⟩
    | some s =>
      rw [a.steps_stmt, b.steps_stmt, hs, h.stmt? hs]
      exact .refl _
  | expr id =>
    cases he : a.expr? id with
    | none =>
      rw [a.steps_expr, he]
      exact .past _ _ ⟨_, rfl⟩
    | some e =>
      rw [a.steps_expr, b.steps_expr, he, h.expr? he]
      exact .refl _
  | target id =>
    cases he : a.expr? id with
    | none =>
      rw [a.steps_target, he]
      exact .past _ _ ⟨_, rfl⟩
    | some e =>
      rw [a.steps_target, b.steps_target, he, h.expr? he]
      exact .refl _
  | exprForm f =>
    rw [a.steps_exprForm, b.steps_exprForm]
    refine Continues.append_left ?_ _
    cases f.list? with
    | none => exact .nil
    | some r => exact h.listTasks r
  | exprList r => exact h.listTasks r
  | merge r =>
    cases hr : a.merge? r with
    | none =>
      rw [a.steps_merge, hr]
      exact .past _ _ ⟨_, rfl⟩
    | some phis =>
      rw [a.steps_merge, b.steps_merge, hr, h.merge? hr]
      exact .refl _
  | _ => exact .refl _

theorem prunedSteps (h : a.Begins b) (hooks : List Hook) (v : Visit) :
    Continues Fault.IsDangling (Recorder.prunedSteps hooks a v)
      (Recorder.prunedSteps hooks b v) := by
  rw [Recorder.prunedSteps, Recorder.prunedSteps]
  split
  · exact .nil
  · exact h.steps v

theorem varSteps (h : a.Begins b) (v : Visit) :
    Continues Fault.IsDangling (VarSummary.steps a v) (VarSummary.steps b v) := by
  have hdefault := h.steps v
  cases v with
  | exprForm f =>
    cases f with
    | var n => exact .nil
    | _ => exact hdefault
  | targetForm t =>
    cases t with
    | tuple r =>
      cases hr : a.list? r with
      | none =>
        rw [VarSummary.steps_tuple, hr]
        exact .past _ _ ⟨_, rfl⟩
      | some ids =>
        rw [VarSummary.steps_tuple, VarSummary.steps_tuple, hr, h.list? hr]
        exact .refl _
    | var n => exact .nil
    | _ => exact hdefault
  | loopEntry r =>
    cases hr : a.merge? r with
    | none =>
      rw [VarSummary.steps_loopEntry, hr]
      exact .past _ _ ⟨_, rfl⟩
    | some phis =>
      rw [VarSummary.steps_loopEntry, VarSummary.steps_loopEntry, hr, h.merge? hr]
      exact .refl _
  | _ => exact hdefault

end Arena.Begins

/-! ### Passes in a larger arena -/

/-- The pass `q` does what `p` does, but that it may go on where `p` has something missing. -/
def Pass.Continued {σ α : Type} (p q : Pass σ α) : Prop :=
  ∀ v s, (∃ f rest, f.IsDangling ∧ (p.hook v s).1.steps = .error f :: rest) ∨
    ((q.hook v s).2 = (p.hook v s).2 ∧ (q.hook v s).1.finish = (p.hook v s).1.finish ∧
      Continues Fault.IsDangling (p.hook v s).1.steps (q.hook v s).1.steps)

theorem Outcome.resolved_of_andThen {σ α β : Type} {run : Outcome α × σ}
    {next : α → σ → Outcome β × σ} (h : (andThen run next).1.Resolved) : run.1.Resolved := by
  rcases run with ⟨_ | f | _, s⟩
  · trivial
  · cases f <;> exact h
  · exact h

namespace Pass

variable {σ α : Type} {p q : Pass σ α}

theorem perform_continued {go go' : Visit → σ → Outcome (List α) × σ}
    (same : ∀ v s, (go v s).1.Resolved → go' v s = go v s)
    {steps steps' : List (Except Fault Visit)} (hc : Continues Fault.IsDangling steps steps') :
    ∀ s, (perform go steps s).1.Resolved → perform go' steps' s = perform go steps s := by
  induction hc with
  | nil => exact fun s _ => rfl
  | cons step hrest ih =>
    intro s hres
    cases step with
    | error f => rfl
    | ok v =>
      simp only [perform] at hres ⊢
      rw [same v s (Outcome.resolved_of_andThen hres)]
      rcases hv : go v s with ⟨out | f | _, t⟩
      · simp only [hv, Outcome.andThen_ok] at hres ⊢
        rw [ih t (Outcome.resolved_of_andThen hres)]
      · rfl
      · rfl
  | past rest steps' hf =>
    intro s hres
    obtain ⟨node, rfl⟩ := hf
    exact hres.elim

theorem Continued.visit (h : Continued p q) (depth : Nat) : ∀ v s,
    (p.visit depth v s).1.Resolved → q.visit depth v s = p.visit depth v s := by
  induction depth with
  | zero => exact fun v s _ => rfl
  | succ depth ih =>
    intro v s hres
    rw [visit_eq] at hres
    have hbelow := Outcome.resolved_of_andThen hres
    rw [visit_eq, visit_eq]
    rcases h v s with ⟨f, rest, ⟨node, rfl⟩, hsteps⟩ | ⟨hstate, hfinish, hsteps⟩
    · rw [hsteps] at hbelow
      exact hbelow.elim
    · rw [hstate, hfinish, perform_continued ih hsteps _ hbelow]

/-- A traversal that misses nothing is the same where something could have been missed. -/
theorem Continued.traverse (h : Continued p q) (depth : Nat) (tasks : List Task) (s : σ)
    (hres : (p.traverse depth tasks s).1.Resolved) :
    q.traverse depth tasks s = p.traverse depth tasks s := by
  rw [traverse_eq] at hres
  rw [traverse_eq, traverse_eq]
  exact perform_continued (h.visit depth) (.refl _) s hres

/-- The same for either pass within a bound that suffices for its own arena. -/
theorem Follows.traverse_continued {b : Arena} {next : Visit → List (Except Fault Visit)}
    {note : σ → Visit → σ} (hq : q.Follows next note) (hg : Graded b next) (h : Continued p q)
    {depth depth' : Nat} (hd : b.depth ≤ depth') (tasks : List Task) (s : σ)
    (hres : (p.traverse depth tasks s).1.Resolved) :
    q.traverse depth' tasks s = p.traverse depth tasks s := by
  have hsame := h.traverse depth tasks s hres
  have hend : (q.traverse depth tasks s).1 ≠ .tooDeep := by
    rw [hsame]
    exact (Outcome.resolved_iff.mp hres).1
  rw [hq.traverse_eq_of_ends hg hend hd, hsame]

end Pass

namespace Arena.Begins

variable {a b : Arena}

theorem recorder (h : a.Begins b) (hooks : List Hook) :
    Pass.Continued ((⟨hooks, none⟩ : Recorder).pass a) ((⟨hooks, none⟩ : Recorder).pass b) := by
  intro v log
  have hsteps := h.prunedSteps hooks v
  rw [← (Recorder.follows_prune hooks a).steps v log,
    ← (Recorder.follows_prune hooks b).steps v log] at hsteps
  refine .inr ⟨?_, ?_, hsteps⟩
  · rw [Recorder.hook_prune, Recorder.hook_prune]
  · rw [Recorder.hook_prune, Recorder.hook_prune]
    split <;> rfl

theorem mergeCheck (h : a.Begins b) : Pass.Continued (MergeCheck.pass a) (MergeCheck.pass b) := by
  intro v found
  have hsteps := h.steps v
  rw [← (MergeCheck.follows a).steps v found, ← (MergeCheck.follows b).steps v found] at hsteps
  cases v with
  | merge r =>
    cases hr : a.merge? r with
    | none =>
      refine .inl ⟨.dangling (.merge r), [], ⟨_, rfl⟩, ?_⟩
      rw [(MergeCheck.follows a).steps, steps_merge, hr]
    | some phis => exact .inr ⟨by simp [MergeCheck.pass, hr, h.merge? hr], rfl, hsteps⟩
  | _ => exact .inr ⟨rfl, rfl, hsteps⟩

theorem varSummary (h : a.Begins b) : Pass.Continued (VarSummary.pass a) (VarSummary.pass b) := by
  intro v s
  have hsteps := h.varSteps v
  rw [← (VarSummary.follows a).steps v s, ← (VarSummary.follows b).steps v s] at hsteps
  cases v with
  | exprForm f => cases f <;> exact .inr ⟨rfl, rfl, hsteps⟩
  | targetForm t => cases t <;> exact .inr ⟨rfl, rfl, hsteps⟩
  | loopEntry r =>
    cases hr : a.merge? r with
    | none =>
      refine .inl ⟨.dangling (.merge r), [], ⟨_, rfl⟩, ?_⟩
      rw [(VarSummary.follows a).steps, VarSummary.steps_loopEntry, hr]
    | some phis =>
      refine .inr ⟨?_, ?_, hsteps⟩ <;>
        simp [VarSummary.pass, VarSummary.enterLoop, hr, h.merge? hr]
  | _ => exact .inr ⟨rfl, rfl, hsteps⟩

end Arena.Begins

/-- What a recorder that leaves out some visits has written down, as a trail. -/
theorem Recorder.prune_trail {hooks : List Hook} {a : Arena} {tasks : List Task}
    (h : ((⟨hooks, none⟩ : Recorder).run a tasks).1 ≠ .tooDeep) :
    Trail (prunedSteps hooks a) ((⟨hooks, none⟩ : Recorder).depth a) (tasks.flatMap Task.steps)
      ((⟨hooks, none⟩ : Recorder).run a tasks).2.toList
      ((⟨hooks, none⟩ : Recorder).run a tasks).1.fault? := by
  obtain ⟨visits, ht, hlog⟩ := (follows_prune hooks a).traverse_trail h
  rw [List.foldl_push_eq_append', Array.empty_append] at hlog
  rw [run, hlog]
  exact ht

/-- A traversal that misses nothing in an arena is the same in every larger one, whatever functions
the two have, and so are the analyses; a traversal that misses something has come no farther than
the one in a larger arena comes. -/
theorem unchanged_in_larger (a b : Arena) (h : a.Begins b) :
    (∀ hooks tasks, ((⟨hooks, none⟩ : Recorder).run a tasks).1.Resolved →
      (⟨hooks, none⟩ : Recorder).run b tasks = (⟨hooks, none⟩ : Recorder).run a tasks) ∧
    (∀ hooks tasks node,
      ((⟨hooks, none⟩ : Recorder).run a tasks).1 = .fault (.dangling node) →
      (∃ depth, (((⟨hooks, none⟩ : Recorder).pass b).traverse depth tasks #[]).1 ≠ .tooDeep) →
      ((⟨hooks, none⟩ : Recorder).run a tasks).2.toList <+:
        ((⟨hooks, none⟩ : Recorder).run b tasks).2.toList) ∧
    ∀ f, ((a.checkMerges f).Resolved → b.checkMerges f = a.checkMerges f) ∧
      ((a.collectVars f).Resolved → b.collectVars f = a.collectVars f) := by
  refine ⟨fun hooks tasks hres => ?_, fun hooks tasks node hfault hends => ?_, fun f => ⟨?_, ?_⟩⟩
  · exact (Recorder.follows_prune hooks b).traverse_continued (Recorder.graded_prune hooks b)
      (h.recorder hooks) (Recorder.depth_le _ b) tasks #[] hres
  · have hend : ((⟨hooks, none⟩ : Recorder).run a tasks).1 ≠ .tooDeep := by simp [hfault]
    have ha := Recorder.prune_trail hend
    have hb := Recorder.prune_trail (Recorder.ends_prune hends)
    exact (Trail.prefix_of_continues (h.prunedSteps hooks) ha hb (.refl _)).1
  · intro hres
    have hsame := (MergeCheck.follows b).traverse_continued b.graded h.mergeCheck (Nat.le_refl _)
      [.visit (.function f)] #[] (Outcome.resolved_map.mp hres)
    simp only [Arena.checkMerges, MergeCheck.run, hsame]
  · intro hres
    have hsame := (VarSummary.follows b).traverse_continued (VarSummary.graded b) h.varSummary
      (Nat.le_refl _) [.visit (.function f)] .empty (Outcome.resolved_map.mp hres)
    simp only [Arena.collectVars, VarSummary.run, hsame]

/-- A condition and a comment, in a loop with a value that is not stored yet. -/
def openLoop : Scope :=
  { Scope.start with
    arena :=
      { Arena.empty with
        exprs := #[⟨.form (.const (.bool true)), .dummy⟩]
        stmts := #[⟨.form (.comment ⟨2⟩), .dummy⟩, ⟨.form (.whileLoop ⟨0⟩ ⟨0, 1⟩ ⟨0, 1⟩), .dummy⟩]
        phis := #[⟨⟨1⟩, ⟨0⟩, ⟨1⟩⟩] } }

/-- The value, and a function with the comment alone in its body. -/
def closingOps : List Op :=
  [.expr ⟨.form (.var ⟨1⟩), .dummy⟩, .function ⟨⟨3⟩, .untyped, [⟨1⟩], ⟨0, 1⟩, .dummy⟩]

/-- The comment is visited as before, and the loop farther than before. -/
theorem openLoop_larger :
    openLoop.arena.Begins (openLoop.run closingOps).arena ∧
      Recorder.full.run (openLoop.run closingOps).arena [.visit (.block ⟨0, 1⟩)] =
        (.ok [], #[.block ⟨0, 1⟩, .stmt ⟨0⟩, .stmtForm (.comment ⟨2⟩)]) ∧
      (Recorder.full.run openLoop.arena [.visit (.stmt ⟨1⟩)]).1 =
        .fault (.dangling (.expr ⟨1⟩)) ∧
      (Recorder.full.run openLoop.arena [.visit (.stmt ⟨1⟩)]).2.toList <+:
        (Recorder.full.run (openLoop.run closingOps).arena [.visit (.stmt ⟨1⟩)]).2.toList ∧
      (openLoop.run closingOps).arena.checkMerges ⟨⟨3⟩, .untyped, [⟨1⟩], ⟨0, 1⟩, .dummy⟩ =
        .ok #[] ∧
      (openLoop.run closingOps).arena.collectVars ⟨⟨3⟩, .untyped, [⟨1⟩], ⟨0, 1⟩, .dummy⟩ =
        openLoop.arena.collectVars ⟨⟨3⟩, .untyped, [⟨1⟩], ⟨0, 1⟩, .dummy⟩ := by
  have hbegins := Arena.Begins.run openLoop closingOps
  obtain ⟨hsame, hfarther, hanalyses⟩ := unchanged_in_larger _ _ hbegins
  have hcomment : Recorder.full.run openLoop.arena [.visit (.block ⟨0, 1⟩)] =
      (.ok [], #[.block ⟨0, 1⟩, .stmt ⟨0⟩, .stmtForm (.comment ⟨2⟩)]) := by
    rw [Recorder.run, Pass.traverse_eq]
    rfl
  have hloop : (Recorder.full.run openLoop.arena [.visit (.stmt ⟨1⟩)]).1 =
      .fault (.dangling (.expr ⟨1⟩)) := by
    rw [Recorder.run, Pass.traverse_eq]
    rfl
  have hends : ∃ depth, ((Recorder.full.pass (openLoop.run closingOps).arena).traverse depth
      [.visit (.stmt ⟨1⟩)] #[]).1 ≠ .tooDeep := by
    refine ⟨16, ?_⟩
    rw [Pass.traverse_eq]
    decide
  have hcheck : openLoop.arena.checkMerges ⟨⟨3⟩, .untyped, [⟨1⟩], ⟨0, 1⟩, .dummy⟩ = .ok #[] := by
    simp only [Arena.checkMerges, MergeCheck.run, Pass.traverse_eq]
    rfl
  have hvars : (openLoop.arena.collectVars ⟨⟨3⟩, .untyped, [⟨1⟩], ⟨0, 1⟩, .dummy⟩).Resolved := by
    simp only [Arena.collectVars, VarSummary.run, Pass.traverse_eq]
    trivial
  refine ⟨hbegins, ?_, hloop, hfarther [] _ _ hloop hends, ?_, (hanalyses _).2 hvars⟩
  · exact (hsame [] _ (by rw [← Recorder.full, hcomment]; trivial)).trans hcomment
  · exact ((hanalyses _).1 (by rw [hcheck]; trivial)).trans hcheck

end MergeForm
