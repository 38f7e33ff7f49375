import MergeForm.Proofs.VisitOrder

/-! Faults and what they tell.  A traversal that ends gets through just where all that it visits is
sound, and a fault tells what is wrong at the place where the record stops. -/

namespace MergeForm

/-- A node that is visited is stored and no placeholder, it may be assigned to where it stands for a
target, and the operand list or merge map that it has resolves. -/
def Visit.Sound (a : Arena) : Visit → Prop
  | .expr id => ∃ f span, a.expr? id = some ⟨.form f, span⟩ ∧
    ∀ r, f.list? = some r → a.list? r ≠ none
  | .target id => ∃ f span, a.expr? id = some ⟨.form f, span⟩ ∧ f.tag.isTarget = true ∧
    ∀ r, f.list? = some r → a.list? r ≠ none
  | .stmt id => ∃ f span, a.stmt? id = some ⟨.form f, span⟩ ∧
    ∀ r, f.merge? = some r → a.merge? r ≠ none
  | _ => True

def Arena.ExprMet (a : Arena) (log : List Visit) (f : Expr.Form) : Prop :=
  ∃ id span, (.expr id ∈ log ∨ .target id ∈ log) ∧ a.expr? id = some ⟨.form f, span⟩

def Arena.StmtMet (a : Arena) (log : List Visit) (f : Stmt.Form) : Prop :=
  ∃ id span, .stmt id ∈ log ∧ a.stmt? id = some ⟨.form f, span⟩

/-- What the fault tells is so, and it is found right after the visits in `log`.  A list is looked
up when all operands before it have been gone through. -/
def Fault.Genuine (a : Arena) (log : List Visit) : Fault → Prop
  | .dangling (.expr id) =>
    a.expr? id = none ∧ (log.getLast? = some (.expr id) ∨ log.getLast? = some (.target id))
  | .dangling (.stmt id) => a.stmt? id = none ∧ log.getLast? = some (.stmt id)
  | .dangling (.exprList r) =>
    a.list? r = none ∧ ∃ before f below, log = before ++ .exprForm f :: below ∧ a.ExprMet log f ∧
      f.list? = some r ∧ Flattening a (f.heads.map .expr) below
  | .dangling (.merge r) =>
    a.merge? r = none ∧ log.getLast? = some (.merge r) ∧
      ∃ f, a.StmtMet log f ∧ f.merge? = some r
  | .unrecognized (.expr id) span =>
    a.expr? id = some ⟨.error, span⟩ ∧
      (log.getLast? = some (.expr id) ∨ log.getLast? = some (.target id))
  | .unrecognized (.stmt id) span =>
    a.stmt? id = some ⟨.error, span⟩ ∧ log.getLast? = some (.stmt id)
  | .unrecognized (.exprList _) _ | .unrecognized (.merge _) _ => False
  | .notTarget tag id span =>
    (∃ kind, a.expr? id = some ⟨kind, span⟩ ∧ kind.tag = tag) ∧ tag.isTarget = false ∧
      tag ≠ .error ∧ log.getLast? = some (.target id)

/-! ### The record of a function -/

section

variable {a : Arena} {f : Function} {n : Nat} {log : List Visit} {stop : Option Fault}

theorem Trail.above (h : Trail a.steps n [.ok (.function f)] log stop) {w : Visit} (hw : w ∈ log) :
    w = .function f ∨ ∃ v ∈ log, v.Above a w := by
  rcases h.origin hw with hw | ⟨v, hv, hw⟩
  · exact .inl (by simpa using hw)
  · exact .inr ⟨v, hv, Arena.above_of_mem_steps hw⟩

theorem Trail.exprList_notMem (h : Trail a.steps n [.ok (.function f)] log stop) (r : ExprRange) :
    .exprList r ∉ log := by
  intro hr
  rcases h.above hr with h | ⟨v, -, hv⟩
  · cases h
  · exact hv

theorem Trail.exprMet (h : Trail a.steps n [.ok (.function f)] log stop) {g : Expr.Form}
    (hg : .exprForm g ∈ log) : a.ExprMet log g := by
  rcases h.above hg with h' | ⟨v, hv, ⟨id, span, rfl, hs⟩ | ⟨t, rfl, rfl⟩⟩
  · cases h'
  · exact ⟨id, span, .inl hv, hs⟩
  · rcases h.above hv with h' | ⟨u, hu, id, span, rfl, hs⟩
    · cases h'
    · exact ⟨id, span, .inr hu, hs⟩

theorem Trail.stmtMet (h : Trail a.steps n [.ok (.function f)] log stop) {g : Stmt.Form}
    (hg : .stmtForm g ∈ log) : a.StmtMet log g := by
  rcases h.above hg with h' | ⟨v, hv, id, span, rfl, hs⟩
  · cases h'
  · exact ⟨id, span, hv, hs⟩

/-- A merge map that is visited is that of a statement that has been visited. -/
theorem Trail.merge_met (h : Trail a.steps n [.ok (.function f)] log stop) {r : PhiRange}
    (hr : .merge r ∈ log) : ∃ g, a.StmtMet log g ∧ g.merge? = some r := by
  rcases h.above hr with h' | ⟨v, hv, rfl | rfl⟩
  · cases h'
  all_goals
    rcases h.above hv with h' | ⟨u, hu, g, rfl, hg⟩
    · cases h'
    · exact ⟨g, h.stmtMet hu, hg⟩

/-! ### What a fault tells -/

/-- The fault that stops the trail of a function is genuine. -/
theorem Trail.genuine (h : Trail a.steps n [.ok (.function f)] log stop) {g : Fault}
    (hg : stop = some g) : g.Genuine a log := by
  rcases h.faultIn hg with hfirst | ⟨before, v, below, rfl, hf⟩
  · simpa using hfirst.error_mem
  have hv : v ∈ before ++ v :: below := by simp
  cases v with
  | stmt id =>
    rw [Arena.steps_stmt] at hf
    rcases hs : a.stmt? id with _ | ⟨k | _, span⟩
    · obtain ⟨rfl, rfl⟩ := Trail.FaultIn.only (by simpa [hs] using hf)
      exact ⟨hs, by simp⟩
    · simpa [hs] using hf.error_mem
    · obtain ⟨rfl, rfl⟩ := Trail.FaultIn.only (by simpa [hs] using hf)
      exact ⟨hs, by simp⟩
  | expr id =>
    rw [Arena.steps_expr] at hf
    rcases hs : a.expr? id with _ | ⟨k | _, span⟩
    · obtain ⟨rfl, rfl⟩ := Trail.FaultIn.only (by simpa [hs] using hf)
      exact ⟨hs, .inl (by simp)⟩
    · simpa [hs] using hf.error_mem
    · obtain ⟨rfl, rfl⟩ := Trail.FaultIn.only (by simpa [hs] using hf)
      exact ⟨hs, .inl (by simp)⟩
  | target id =>
    rw [Arena.steps_target] at hf
    rcases hs : a.expr? id with _ | ⟨k | _, span⟩
    · obtain ⟨rfl, rfl⟩ := Trail.FaultIn.only (by simpa [hs] using hf)
      exact ⟨hs, .inr (by simp)⟩
    · cases ht : k.target? with
      | some t => simpa [hs, ht] using hf.error_mem
      | none =>
        obtain ⟨rfl, rfl⟩ := Trail.FaultIn.only (by simpa [hs, ht] using hf)
        refine ⟨⟨.form k, hs, rfl⟩, ?_, k.tag_ne_error, by simp⟩
        rw [k.isTarget_tag, ht]
        rfl
    · obtain ⟨rfl, rfl⟩ := Trail.FaultIn.only (by simpa [hs] using hf)
      exact ⟨hs, .inr (by simp)⟩
  | exprForm k =>
    rw [Arena.steps_exprForm] at hf
    cases hl : k.list? with
    | none =>
      have hmem := hf.error_mem
      rw [hl, Option.elim_none, List.append_nil] at hmem
      exact absurd hmem (error_notMem_exprSteps _ g)
    | some r =>
      rw [hl, Option.elim_some] at hf
      cases hr : a.list? r with
      | some ids =>
        rw [a.steps_listTasks_some hr, ← exprSteps_append] at hf
        exact absurd hf.error_mem (error_notMem_exprSteps _ g)
      | none =>
        -- The one fault stands behind the visits of the heads, so these have all been made.
        have hheads : exprSteps k.heads = (k.heads.map Visit.expr).map .ok := by
          rw [exprSteps, List.map_map]
          rfl
        rw [a.steps_listTasks_none hr, hheads] at hf
        obtain ⟨rfl, depth, ht⟩ := hf.last
        refine ⟨hr, before, k, below, rfl, h.exprMet hv, hl, ?_⟩
        rw [← flatMap_whole_map .expr .expr fun _ => rfl]
        exact ht.flattening rfl _ rfl
  | exprList r => exact absurd hv (h.exprList_notMem r)
  | merge r =>
    rw [Arena.steps_merge] at hf
    cases hs : a.merge? r with
    | none =>
      obtain ⟨rfl, rfl⟩ := Trail.FaultIn.only (by simpa [hs] using hf)
      exact ⟨hs, by simp, h.merge_met hv⟩
    | some phis => simpa [hs] using hf.error_mem
  | stmtForm k =>
    have hmem := hf.error_mem
    cases k <;> simp [Arena.steps, Arena.plan, Arena.stmtPlan, Task.steps] at hmem
  | block r => simpa [Arena.steps_block] using hf.error_mem
  | phi p =>
    rw [Arena.steps_phi] at hf
    exact absurd hf.error_mem (error_notMem_exprSteps _ g)
  -- Below the other visits no step is a fault.
  | _ => simpa [Arena.steps, Arena.plan, Task.steps] using hf.error_mem

/-- A genuine fault is at odds with the soundness of what has been visited. -/
theorem Fault.Genuine.exists_not_sound {g : Fault} (h : g.Genuine a log) :
    ∃ v ∈ log, ¬v.Sound a := by
  have last {v : Visit} (hv : log.getLast? = some v) : v ∈ log := List.mem_of_getLast? hv
  match g with
  | .dangling (.expr id) =>
    rcases h with ⟨hs, hv | hv⟩
    · exact ⟨_, last hv, fun ⟨k, span, hk, _⟩ => by simp [hs] at hk⟩
    · exact ⟨_, last hv, fun ⟨k, span, hk, _⟩ => by simp [hs] at hk⟩
  | .dangling (.stmt id) =>
    obtain ⟨hs, hv⟩ := h
    exact ⟨_, last hv, fun ⟨k, span, hk, _⟩ => by simp [hs] at hk⟩
  | .dangling (.exprList r) =>
    obtain ⟨hr, -, k, -, -, ⟨id, span, hv | hv, hs⟩, hl, -⟩ := h
    · refine ⟨_, hv, fun ⟨k', span', hk, hlist⟩ => ?_⟩
      obtain ⟨rfl, rfl⟩ : k = k' ∧ span = span' := by simpa [hs] using hk
      exact hlist r hl hr
    · refine ⟨_, hv, fun ⟨k', span', hk, _, hlist⟩ => ?_⟩
      obtain ⟨rfl, rfl⟩ : k = k' ∧ span = span' := by simpa [hs] using hk
      exact hlist r hl hr
  | .dangling (.merge r) =>
    obtain ⟨hr, -, k, ⟨id, span, hv, hs⟩, hm⟩ := h
    refine ⟨_, hv, fun ⟨k', span', hk, hmerge⟩ => ?_⟩
    obtain ⟨rfl, rfl⟩ : k = k' ∧ span = span' := by simpa [hs] using hk
    exact hmerge r hm hr
  | .unrecognized (.expr id) span =>
    rcases h with ⟨hs, hv | hv⟩
    · exact ⟨_, last hv, fun ⟨k, span, hk, _⟩ => by simp [hs] at hk⟩
    · exact ⟨_, last hv, fun ⟨k, span, hk, _⟩ => by simp [hs] at hk⟩
  | .unrecognized (.stmt id) span =>
    obtain ⟨hs, hv⟩ := h
    exact ⟨_, last hv, fun ⟨k, span, hk, _⟩ => by simp [hs] at hk⟩
  | .unrecognized (.exprList r) span => exact absurd h id
  | .unrecognized (.merge r) span => exact absurd h id
  | .notTarget tag id span =>
    obtain ⟨⟨kind, hs, rfl⟩, htag, -, hv⟩ := h
    refine ⟨_, last hv, fun ⟨k, span', hk, hk', _⟩ => ?_⟩
    obtain ⟨rfl, rfl⟩ : kind = .form k ∧ span = span' := by simpa [hs] using hk
    simp [Expr.Kind.tag, hk'] at htag

/-! ### What is visited without a fault -/

theorem Trail.list_resolves (h : Trail a.steps n [.ok (.function f)] log none) {g : Expr.Form}
    (hg : .exprForm g ∈ log) {r : ExprRange} (hr : g.list? = some r) : a.list? r ≠ none := by
  intro hn
  refine h.error_notMem_next hg (.dangling (.exprList r)) ?_
  rw [Arena.steps_exprForm, hr, Option.elim_some, a.steps_listTasks_none hn]
  simp

theorem Trail.merge_resolves (h : Trail a.steps n [.ok (.function f)] log none) {g : Stmt.Form}
    (hg : .stmtForm g ∈ log) {r : PhiRange} (hr : g.merge? = some r) : a.merge? r ≠ none := by
  intro hn
  obtain ⟨v, hv, hmerge⟩ := a.merge_below_stmtForm hr
  refine h.error_notMem_next (h.mem_of_mem_next (h.mem_of_mem_next hg hv) hmerge)
    (.dangling (.merge r)) ?_
  rw [Arena.steps_merge, hn]
  simp

theorem Trail.sound (h : Trail a.steps n [.ok (.function f)] log none) {v : Visit}
    (hv : v ∈ log) : v.Sound a := by
  cases v with
  | stmt id =>
    have hstep := h.error_notMem_next hv
    have hnext (w : Visit) : .ok w ∈ a.steps (.stmt id) → w ∈ log := h.mem_of_mem_next hv
    rw [Arena.steps_stmt] at hstep hnext
    rcases hs : a.stmt? id with _ | ⟨k | _, span⟩
    · simp [hs] at hstep
    · exact ⟨k, span, hs, fun r hr => h.merge_resolves (hnext _ (by simp [hs])) hr⟩
    · simp [hs] at hstep
  | expr id =>
    have hstep := h.error_notMem_next hv
    have hnext (w : Visit) : .ok w ∈ a.steps (.expr id) → w ∈ log := h.mem_of_mem_next hv
    rw [Arena.steps_expr] at hstep hnext
    rcases hs : a.expr? id with _ | ⟨k | _, span⟩
    · simp [hs] at hstep
    · exact ⟨k, span, hs, fun r hr => h.list_resolves (hnext _ (by simp [hs])) hr⟩
    · simp [hs] at hstep
  | target id =>
    have hstep := h.error_notMem_next hv
    have hnext (w : Visit) : .ok w ∈ a.steps (.target id) → w ∈ log := h.mem_of_mem_next hv
    rw [Arena.steps_target] at hstep hnext
    rcases hs : a.expr? id with _ | ⟨k | _, span⟩
    · simp [hs] at hstep
    · cases ht : k.target? with
      | none => simp [hs, ht] at hstep
      | some t =>
        have htarget : .targetForm t ∈ log := hnext _ (by simp [hs, ht])
        have hform : .exprForm t.form ∈ log :=
          h.mem_of_mem_next htarget (by simp [Arena.steps, Arena.plan, Task.steps])
        obtain rfl := Expr.Form.target?_eq_some_iff.mp ht
        refine ⟨t.form, span, hs, ?_, fun r hr => h.list_resolves hform hr⟩
        rw [Expr.Form.isTarget_tag, ht]
        rfl
    · simp [hs] at hstep
  | _ => trivial

end

/-! ### The default traversal of a function -/

/-- A default traversal that may end does so.  It gets through just where all that the record has is
sound; a fault is the one at which the record too stops, and tells what is wrong there. -/
theorem ok_iff_sound_and_fault_genuine (a : Arena) (f : Function)
    (h : a.Terminates [.visit (.function f)]) :
    (a.traverse (Pass.bare a) [.visit (.function f)] ()).1 ≠ .tooDeep ∧
      ((∃ outs, (a.traverse (Pass.bare a) [.visit (.function f)] ()).1 = .ok outs) ↔
        ∀ v ∈ (Recorder.full.run a [.visit (.function f)]).2.toList, v.Sound a) ∧
      ∀ g, (a.traverse (Pass.bare a) [.visit (.function f)] ()).1 = .fault g →
        (Recorder.full.run a [.visit (.function f)]).1 = .fault g ∧
          g.Genuine a (Recorder.full.run a [.visit (.function f)]).2.toList := by
  obtain ⟨n, log, stop, ht⟩ := h.exists_trail
  obtain ⟨hend, hstop, -⟩ := (Pass.follows_bare a).trail_traverse ht (Nat.le_refl _) ()
  obtain ⟨-, hstop', hlog⟩ := Recorder.trail_run ht
  have htrail : Trail a.steps n [.ok (.function f)] log stop := ht
  rw [hlog]
  refine ⟨hend, ⟨fun hok v hv => ?_, fun hsound => ?_⟩, fun g hg => ?_⟩
  · obtain rfl : none = stop := (Outcome.exists_ok_iff.mp hok).2.symm.trans hstop
    exact htrail.sound hv
  · cases stop with
    | none => exact Outcome.exists_ok_iff.mpr ⟨hend, hstop⟩
    | some g =>
      -- A fault is genuine, so what it is about is not sound.
      obtain ⟨v, hv, hn⟩ := (htrail.genuine rfl).exists_not_sound
      exact absurd (hsound v hv) hn
  · have hg' : stop = some g := hstop.symm.trans (Outcome.fault?_eq_some_iff.mpr hg)
    exact ⟨Outcome.fault?_eq_some_iff.mp (hstop'.trans hg'), htrail.genuine hg'⟩

/-- A function whose one statement is a tuple, with operands that have never been stored. -/
def lostOperands : Arena × Function :=
  ({ Arena.empty with
      exprs := #[⟨.form (.tuple ⟨3, 1⟩), .dummy⟩]
      stmts := #[⟨.form (.eval ⟨0⟩), .dummy⟩] },
    { name := .empty, typing := .untyped, params := [], body := ⟨0, 1⟩, span := .dummy })

theorem lostOperands_fault_genuine :
    lostOperands.1.Terminates [.visit (.function lostOperands.2)] ∧
      Fault.Genuine lostOperands.1
        (Recorder.full.run lostOperands.1 [.visit (.function lostOperands.2)]).2.toList
        (.dangling (.exprList ⟨3, 1⟩)) := by
  have hends : lostOperands.1.Terminates [.visit (.function lostOperands.2)] := by
    refine ⟨8, ?_⟩
    rw [Pass.traverse_eq]
    decide
  have hfault : (lostOperands.1.traverse (Pass.bare lostOperands.1)
      [.visit (.function lostOperands.2)] ()).1 = .fault (.dangling (.exprList ⟨3, 1⟩)) := by
    rw [Arena.traverse, Pass.traverse_eq]
    decide
  obtain ⟨-, -, hgenuine⟩ := ok_iff_sound_and_fault_genuine lostOperands.1 lostOperands.2 hends
  exact ⟨hends, (hgenuine _ hfault).2⟩

end MergeForm
