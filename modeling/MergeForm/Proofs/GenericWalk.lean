import Mathlib.Logic.Relation
import MergeForm.Proofs.GenericSteps
import MergeForm.Proofs.WellNested

/-! The generic walk against a trace of the default traversal, over any expression.  On sound input
the two cannot be told apart; where the traversal stops with a fault, the walk has the same fault
but for a list that does not resolve and for a placeholder. -/

namespace MergeForm

namespace Arena

variable {a : Arena}

/-! ### The unfolding of an expression -/

theorem mem_steps_of_operand {f : Expr.Form} {y : ExprId} (h : y ∈ a.operandsOf f) :
    .ok (.expr y) ∈ a.steps (.exprForm f) := by
  rw [steps_exprForm]
  rcases List.mem_append.mp h with h | h
  · exact List.mem_append_left _ (ok_mem_exprSteps.mpr ⟨y, h, rfl⟩)
  · refine List.mem_append_right _ ?_
    cases hf : f.list? with
    | none => simp [hf] at h
    | some r =>
      cases hr : a.list? r with
      | none => simp [hf, hr] at h
      | some ids =>
        simp only [Option.elim_some, a.steps_listTasks_some hr]
        exact ok_mem_exprSteps.mpr ⟨y, by simpa [hf, hr] using h, rfl⟩

/-- The visits that the unfolding of the expression `id` consists of. -/
def Unfolds (a : Arena) (id : ExprId) : Visit → Prop
  | .expr y => Relation.ReflTransGen a.Operand id y
  | .exprForm f =>
    ∃ x span, Relation.ReflTransGen a.Operand id x ∧ a.expr? x = some ⟨.form f, span⟩
  | _ => False

theorem Unfolds.step {id : ExprId} {v w : Visit} (hv : a.Unfolds id v) (hw : .ok w ∈ a.steps v) :
    a.Unfolds id w := by
  cases v with
  | expr x =>
    obtain ⟨f, span, hx, rfl⟩ := ok_mem_steps_expr.mp hw
    exact ⟨x, span, hv, hx⟩
  | exprForm f =>
    obtain ⟨x, span, hreach, hx⟩ := hv
    obtain ⟨y, hy, rfl⟩ := operand_of_mem_steps hw
    exact hreach.tail ⟨f, span, hx, hy⟩
  | _ => exact hv.elim

theorem unfolds_self (a : Arena) (id : ExprId) (v : Visit)
    (hv : (.ok v : Except Fault Visit) ∈ [.ok (.expr id)]) : a.Unfolds id v := by
  obtain rfl : v = .expr id := by simpa using hv
  exact Relation.ReflTransGen.refl

/-- A traversal without a fault visits the whole unfolding. -/
theorem mem_of_reaches {n : Nat} {id : ExprId} {visits : List Visit}
    (h : Trail a.steps n [.ok (.expr id)] visits none) {y : ExprId}
    (hy : Relation.ReflTransGen a.Operand id y) : .expr y ∈ visits := by
  induction hy with
  | refl =>
    obtain ⟨_, below, -, rfl, -⟩ := Trail.single_iff.mp h
    exact List.mem_cons_self ..
  | tail _ hyz ih =>
    obtain ⟨f, span, hy, hz⟩ := hyz
    have hform := h.mem_of_mem_next ih (ok_mem_steps_expr.mpr ⟨f, span, hy, rfl⟩)
    exact h.mem_of_mem_next hform (mem_steps_of_operand hz)

/-- A fault in the unfolding of an expression is a missing expression, a placeholder, or a list that
does not resolve. -/
theorem Unfolds.fault {id : ExprId} {v : Visit} {g : Fault} (hv : a.Unfolds id v)
    (hg : .error g ∈ a.steps v) :
    (∃ x, g = .dangling (.expr x) ∧ a.expr? x = none) ∨
      (∃ x span, g = .unrecognized (.expr x) span ∧ a.expr? x = some ⟨.error, span⟩) ∨
      ∃ r, a.lostList? v = some r := by
  cases v with
  | expr x =>
    rw [steps_expr] at hg
    rcases hx : a.expr? x with _ | ⟨f | _, span⟩
    · exact .inl ⟨x, by simpa [hx] using hg, hx⟩
    · simp [hx] at hg
    · exact .inr (.inl ⟨x, span, by simpa [hx] using hg, hx⟩)
  | exprForm f =>
    rw [steps_exprForm] at hg
    rcases List.mem_append.mp hg with hg | hg
    · exact absurd hg (error_notMem_exprSteps _ _)
    · cases hf : f.list? with
      | none => simp [hf] at hg
      | some r =>
        cases hr : a.list? r with
        | none => exact .inr (.inr ⟨r, lostList?_eq_some_iff.mpr ⟨hf, hr⟩⟩)
        | some ids => simp [hf, a.steps_listTasks_some hr, error_notMem_exprSteps] at hg
  | _ => exact hv.elim

end Arena

/-! ### The generic walk against a trace -/

section

variable {a : Arena} {id : ExprId}

/-- The generic walk of an expression, told by its steps with a visit for each form. -/
theorem Pass.generic_run {n : Nat} {visits : List Visit} {stop : Option Fault}
    (h : Trail a.lenientSteps n [.ok (.expr id)] visits stop) :
    (a.traverse (.generic a) [.visit (.expr id)] #[]).1 ≠ .tooDeep ∧
      (a.traverse (.generic a) [.visit (.expr id)] #[]).1.fault? = stop ∧
      (a.traverse (.generic a) [.visit (.expr id)] #[]).2 =
        (visits.filterMap Mark.ofVisit?).toArray := by
  obtain ⟨walked, hw, hsaid⟩ := Arena.contract n (fun w hw => ⟨id, by simpa using hw⟩) h
  replace hw : Trail a.genericSteps n ([Task.visit (.expr id)].flatMap Task.steps) walked stop := hw
  obtain ⟨hend, hstop, hlog⟩ := (follows_generic a).trail_traverse_of_graded a.graded_generic hw
    (Nat.le_refl _) #[]
  refine ⟨hend, hstop, hlog.trans ?_⟩
  rw [foldl_note, Array.empty_append, hsaid]

theorem Pass.exists_lenient_trail (a : Arena) (id : ExprId)
    (h : (a.traverse (.generic a) [.visit (.expr id)] #[]).1 ≠ .tooDeep) :
    ∃ n visits stop, Trail a.lenientSteps n [.ok (.expr id)] visits stop := by
  obtain ⟨walked, hw, -⟩ := (follows_generic a).traverse_trail h
  obtain ⟨m, visits, hv, -⟩ := Arena.expand hw fun w hw => ⟨id, by simpa [Task.steps] using hw⟩
  exact ⟨m, visits, _, hv⟩

/-- A trace of the default traversal of an expression. -/
theorem Pass.trace_run {n : Nat} {visits : List Visit} {stop : Option Fault}
    (h : Trail a.steps n [.ok (.expr id)] visits stop) :
    (a.traverse (.trace a) [.visit (.expr id)] #[]).1 ≠ .tooDeep ∧
      (a.traverse (.trace a) [.visit (.expr id)] #[]).1.fault? = stop ∧
      (a.traverse (.trace a) [.visit (.expr id)] #[]).2 =
        (visits.filterMap Mark.ofVisit?).toArray := by
  replace h : Trail a.steps n ([Task.visit (.expr id)].flatMap Task.steps) visits stop := h
  obtain ⟨hend, hstop, hlog⟩ :=
    (follows_observe a Mark.ofVisit?).trail_traverse h (Nat.le_refl _) #[]
  exact ⟨hend, hstop, hlog.trans (by rw [foldl_note, Array.empty_append])⟩

theorem Pass.exists_trail_of_trace (a : Arena) (id : ExprId)
    (h : (a.traverse (.trace a) [.visit (.expr id)] #[]).1 ≠ .tooDeep) :
    ∃ n visits stop, Trail a.steps n [.ok (.expr id)] visits stop := by
  obtain ⟨visits, ht, -⟩ := (follows_observe a Mark.ofVisit?).traverse_trail h
  exact ⟨_, visits, _, ht⟩

end

namespace Arena

variable {a : Arena}

/-- Without a fault there is no lost list. -/
theorem findSome?_lostList?_eq_none {n : Nat} {steps : List (Except Fault Visit)}
    {visits : List Visit} (h : Trail a.steps n steps visits none) :
    visits.findSome? a.lostList? = none := by
  refine List.findSome?_eq_none_iff.mpr fun v hv => ?_
  refine Option.eq_none_iff_forall_ne_some.mpr fun r hr => ?_
  exact h.error_notMem_next hv _ (error_mem_of_lost hr)

theorem lenient_of_default {n : Nat} {id : ExprId} {visits : List Visit}
    (h : Trail a.steps n [.ok (.expr id)] visits none) :
    Trail a.lenientSteps n [.ok (.expr id)] visits none ∧
      ∀ y, Relation.ReflTransGen a.Operand id y → ∀ span, a.expr? y ≠ some ⟨.error, span⟩ := by
  have hsame := lenientSteps_eq_of_mem h (findSome?_lostList?_eq_none h) (by simp)
  refine ⟨h.congr hsame, fun y hy span hspan => ?_⟩
  have hstop := h.stop_eq_of_mem (mem_of_reaches h hy) (steps_placeholder hspan)
  simp at hstop

theorem default_of_lenient {n : Nat} {id : ExprId} {visits : List Visit}
    (h : Trail a.lenientSteps n [.ok (.expr id)] visits none)
    (hclean : ∀ y, Relation.ReflTransGen a.Operand id y → ∀ span, a.expr? y ≠ some ⟨.error, span⟩) :
    Trail a.steps n [.ok (.expr id)] visits none := by
  have hunfolds : ∀ v ∈ visits, a.Unfolds id v :=
    h.all_of_keeps (fun v w hv hw => hv.step (mem_steps_of_lenient hw)) (a.unfolds_self id)
  refine h.congr fun v hv => (lenientSteps_eq ?_ ?_).symm
  · refine Option.eq_none_iff_forall_ne_some.mpr fun r hr => ?_
    cases v with
    | exprForm f =>
      have hstop := h.stop_eq_of_mem hv (eagerSteps_lost hr)
      simp at hstop
    | _ => simp [lostList?] at hr
  · rintro x span rfl hx
    exact hclean x (hunfolds _ hv) span hx

end Arena

/-- The default traversal of an expression gets through just where the generic walk does and there
is no placeholder in the unfolding of the expression, and then a trace of the one has written down
the same as the other. -/
theorem generic_ok_iff (a : Arena) (id : ExprId) (log : Array Mark) :
    (∃ outs, a.traverse (.trace a) [.visit (.expr id)] #[] = (.ok outs, log)) ↔
      (∃ outs, a.traverse (.generic a) [.visit (.expr id)] #[] = (.ok outs, log)) ∧
        ∀ y, Relation.ReflTransGen a.Operand id y → ∀ span, a.expr? y ≠ some ⟨.error, span⟩ := by
  constructor
  · rintro ⟨outs, hrun⟩
    obtain ⟨n, visits, stop, ht⟩ := Pass.exists_trail_of_trace a id (by simp [hrun])
    obtain ⟨-, hstop, hlog⟩ := Pass.trace_run ht
    rw [hrun] at hstop hlog
    obtain rfl : none = stop := hstop
    obtain ⟨hv, hclean⟩ := Arena.lenient_of_default ht
    obtain ⟨hend, hstop, hwalked⟩ := Pass.generic_run hv
    obtain ⟨outs, houts⟩ := Outcome.exists_ok_iff.mpr ⟨hend, hstop⟩
    exact ⟨⟨outs, Prod.ext houts (hwalked.trans hlog.symm)⟩, hclean⟩
  · rintro ⟨⟨outs, hrun⟩, hclean⟩
    obtain ⟨n, visits, stop, hv⟩ := Pass.exists_lenient_trail a id (by simp [hrun])
    obtain ⟨-, hstop, hlog⟩ := Pass.generic_run hv
    rw [hrun] at hstop hlog
    obtain rfl : none = stop := hstop
    obtain ⟨hend, hstop, htraced⟩ := Pass.trace_run (Arena.default_of_lenient hv hclean)
    obtain ⟨outs, houts⟩ := Outcome.exists_ok_iff.mpr ⟨hend, hstop⟩
    exact ⟨outs, Prod.ext houts (htraced.trans hlog.symm)⟩

/-! ### Faults of the generic walk -/

namespace Arena

variable {a : Arena}

/-- Where a placeholder stands the lenient walk goes on. -/
theorem continues_lenient (v : Visit) :
    Continues (fun f => ∃ node span, f = .unrecognized node span) (a.eagerSteps v)
      (a.lenientSteps v) := by
  by_cases hv : ∃ id span, v = .expr id ∧ a.expr? id = some ⟨.error, span⟩
  · obtain ⟨id, span, rfl, hid⟩ := hv
    rw [eagerSteps_kept rfl, steps_placeholder hid]
    exact .past _ _ ⟨_, _, rfl⟩
  · have hsame : a.lenientSteps v = a.eagerSteps v :=
      lenientSteps_eq_eager fun id span hid hspan => hv ⟨id, span, hid, hspan⟩
    rw [hsame]
    exact Continues.refl _

/-- The first lost list stops the walk that resolves lists first. -/
theorem lenient_of_lost {n : Nat} {steps : List (Except Fault Visit)} {visits : List Visit}
    {stop : Option Fault} (h : Trail a.steps n steps visits stop) {r : ExprRange}
    (hr : visits.findSome? a.lostList? = some r) :
    ∃ visits', visits' <+: visits ∧
      Trail a.lenientSteps n steps visits' (some (.dangling (.exprList r))) := by
  have hkept (v : Visit) (hv : a.lostFault? v = none) : a.eagerSteps v = a.steps v :=
    eagerSteps_kept (by simpa [lostFault?] using hv)
  have hcut (v : Visit) (f : Fault) (hv : a.lostFault? v = some f) :
      a.eagerSteps v = [.error f] := by
    obtain ⟨r', hr', rfl⟩ := Option.map_eq_some_iff.mp hv
    exact eagerSteps_lost hr'
  have hfirst : visits.findSome? a.lostFault? = some (.dangling (.exprList r)) := by
    have hmap := List.map_findSome? (f := a.lostList?) (l := visits)
      (g := fun r => Fault.dangling (.exprList r))
    rw [hr] at hmap
    exact hmap.symm
  obtain ⟨visits', hpart, ht⟩ := h.cut hkept hcut hfirst
  refine ⟨visits', hpart, ht.congr fun v hv => lenientSteps_eq_eager fun id span hid hspan => ?_⟩
  subst hid
  have hstop := ht.stop_eq_of_mem hv ((eagerSteps_kept rfl).trans (steps_placeholder hspan))
  simp at hstop

/-- A trail without a lost list is the same where lists are resolved first. -/
theorem eager_of_default {n : Nat} {steps : List (Except Fault Visit)} {visits : List Visit}
    {stop : Option Fault} (h : Trail a.steps n steps visits stop)
    (hlost : visits.findSome? a.lostList? = none) : Trail a.eagerSteps n steps visits stop :=
  h.congr fun v hv => eagerSteps_kept (List.findSome?_eq_none_iff.mp hlost v hv)

/-- The fault of a trail without a lost list is a missing expression or a placeholder. -/
theorem fault_of_no_lost {n : Nat} {id : ExprId} {visits : List Visit} {g : Fault}
    (h : Trail a.steps n [.ok (.expr id)] visits (some g))
    (hlost : visits.findSome? a.lostList? = none) :
    (∃ x, g = .dangling (.expr x) ∧ a.expr? x = none) ∨
      ∃ x span, g = .unrecognized (.expr x) span ∧ a.expr? x = some ⟨.error, span⟩ := by
  have hunfolds : ∀ v ∈ visits, a.Unfolds id v :=
    h.all_of_keeps (fun v w hv hw => hv.step hw) (a.unfolds_self id)
  rcases h.faultIn rfl with hfirst | ⟨before, v, below, rfl, hf⟩
  · exact absurd hfirst.error_mem (by simp)
  have hv : v ∈ before ++ v :: below := by simp
  rcases (hunfolds v hv).fault hf.error_mem with hmissing | hplaceholder | ⟨r, hr⟩
  · exact .inl hmissing
  · exact .inr hplaceholder
  · have hnone := List.findSome?_eq_none_iff.mp hlost v hv
    simp [hr] at hnone

end Arena

/-- What the generic walk does where a trace of the default traversal stops with a fault.  If any
form that the traversal has come to has a list that does not resolve, the walk reports the first of
these lists, ahead of anything below its form.  Else a missing expression is the same fault at the
same place for both, and up to a placeholder that stops the traversal both write down the same. -/
theorem generic_of_trace_fault (a : Arena) (id : ExprId) (g : Fault) (log : Array Mark)
    (htrace : a.traverse (.trace a) [.visit (.expr id)] #[] = (.fault g, log))
    (hends : (a.traverse (.generic a) [.visit (.expr id)] #[]).1 ≠ .tooDeep) :
    ∃ visits : List Visit,
      Recorder.full.run a [.visit (.expr id)] = (.fault g, visits.toArray) ∧
        ((∃ r, visits.findSome? a.lostList? = some r ∧
            (a.traverse (.generic a) [.visit (.expr id)] #[]).1 =
              .fault (.dangling (.exprList r)) ∧
            (a.traverse (.generic a) [.visit (.expr id)] #[]).2.toList <+: log.toList) ∨
          (visits.findSome? a.lostList? = none ∧
            (∃ x, g = .dangling (.expr x) ∧ a.expr? x = none) ∧
            a.traverse (.generic a) [.visit (.expr id)] #[] = (.fault g, log)) ∨
          (visits.findSome? a.lostList? = none ∧
            (∃ x span, g = .unrecognized (.expr x) span ∧ a.expr? x = some ⟨.error, span⟩) ∧
            log.toList <+: (a.traverse (.generic a) [.visit (.expr id)] #[]).2.toList)) := by
  obtain ⟨n, visits, stop, ht⟩ := Pass.exists_trail_of_trace a id (by simp [htrace])
  obtain ⟨-, hstop, hlog⟩ := Pass.trace_run ht
  rw [htrace] at hstop hlog
  obtain rfl : some g = stop := hstop
  obtain rfl : log = (visits.filterMap Mark.ofVisit?).toArray := hlog
  have ht' : Trail a.steps n ([Task.visit (.expr id)].flatMap Task.steps) visits (some g) := ht
  obtain ⟨-, hrecord, hvisits⟩ := Recorder.trail_run ht'
  refine ⟨visits, Prod.ext (Outcome.fault?_eq_some_iff.mp hrecord) hvisits, ?_⟩
  cases hlost : visits.findSome? a.lostList? with
  | some r =>
    obtain ⟨visits', hpart, hv⟩ := Arena.lenient_of_lost ht hlost
    obtain ⟨-, hfault, hwalked⟩ := Pass.generic_run hv
    refine .inl ⟨r, rfl, Outcome.fault?_eq_some_iff.mp hfault, ?_⟩
    rw [hwalked]
    exact hpart.filterMap _
  | none =>
    refine .inr ?_
    rcases Arena.fault_of_no_lost ht hlost with ⟨x, rfl, hx⟩ | ⟨x, span, rfl, hx⟩
    · have hsame := Arena.lenientSteps_eq_of_mem ht hlost (by simp)
      obtain ⟨-, hfault, hwalked⟩ := Pass.generic_run (ht.congr hsame)
      exact .inl ⟨rfl, ⟨x, rfl, hx⟩, Prod.ext (Outcome.fault?_eq_some_iff.mp hfault) hwalked⟩
    · obtain ⟨m, visits', stop', hv⟩ := Pass.exists_lenient_trail a id hends
      obtain ⟨-, -, hwalked⟩ := Pass.generic_run hv
      obtain ⟨hpart, -⟩ := Trail.prefix_of_continues Arena.continues_lenient
        (Arena.eager_of_default ht hlost) hv (Continues.refl _)
      refine .inr ⟨rfl, ⟨x, span, rfl, hx⟩, ?_⟩
      rw [hwalked]
      exact hpart.filterMap _

/-- A placeholder; a variable under an index that is missing; and a call of something missing with
arguments that do not resolve. -/
def faultyOperands : Arena :=
  { Arena.empty with
    exprs := #[⟨.error, .dummy⟩, ⟨.form (.var ⟨1⟩), .dummy⟩, ⟨.form (.index ⟨1⟩ ⟨7⟩), .dummy⟩,
      ⟨.form (.call ⟨7⟩ ⟨5, 1⟩), .dummy⟩] }

/-- The missing index is the same fault, after the same variable. -/
theorem faultyOperands_index :
    faultyOperands.traverse (.trace faultyOperands) [.visit (.expr ⟨2⟩)] #[] =
        (.fault (.dangling (.expr ⟨7⟩)), #[.var ⟨1⟩]) ∧
      (faultyOperands.traverse (.generic faultyOperands) [.visit (.expr ⟨2⟩)] #[]).1 ≠ .tooDeep ∧
      faultyOperands.expr? ⟨7⟩ = none ∧
      faultyOperands.traverse (.generic faultyOperands) [.visit (.expr ⟨2⟩)] #[] =
        (.fault (.dangling (.expr ⟨7⟩)), #[.var ⟨1⟩]) := by
  have htrace : faultyOperands.traverse (.trace faultyOperands) [.visit (.expr ⟨2⟩)] #[] =
      (.fault (.dangling (.expr ⟨7⟩)), #[.var ⟨1⟩]) := by
    rw [Arena.traverse, Pass.traverse_eq]
    rfl
  have hends : (faultyOperands.traverse (.generic faultyOperands) [.visit (.expr ⟨2⟩)] #[]).1 ≠
      .tooDeep := by
    rw [Arena.traverse, Pass.traverse_eq]
    decide
  obtain ⟨visits, hrun, hcases⟩ := generic_of_trace_fault faultyOperands ⟨2⟩ _ _ htrace hends
  have hrecord : Recorder.full.run faultyOperands [.visit (.expr ⟨2⟩)] =
      (.fault (.dangling (.expr ⟨7⟩)), #[.expr ⟨2⟩, .exprForm (.index ⟨1⟩ ⟨7⟩), .expr ⟨1⟩,
        .exprForm (.var ⟨1⟩), .expr ⟨7⟩]) := by
    rw [Recorder.run, Pass.traverse_eq]
    rfl
  obtain rfl : visits = [.expr ⟨2⟩, .exprForm (.index ⟨1⟩ ⟨7⟩), .expr ⟨1⟩, .exprForm (.var ⟨1⟩),
      .expr ⟨7⟩] := by
    simpa using congrArg (fun run => run.2.toList) (hrun.symm.trans hrecord)
  rcases hcases with ⟨r, hr, -⟩ | ⟨-, ⟨x, hx, hmissing⟩, hsame⟩ | ⟨-, ⟨x, span, hg, -⟩, -⟩
  · have hnone : none = some r := hr
    cases hnone
  · obtain rfl : ⟨7⟩ = x := by simpa using hx
    exact ⟨htrace, hends, hmissing, hsame⟩
  · cases hg

/-- The traversal stops at the placeholder and the walk does not; the missing callee and the lost
arguments of the call are both faults, and each of the two reports another. -/
theorem faultyOperands_differ :
    (faultyOperands.traverse (.trace faultyOperands) [.visit (.expr ⟨0⟩)] #[]).1 =
        .fault (.unrecognized (.expr ⟨0⟩) .dummy) ∧
      (faultyOperands.traverse (.generic faultyOperands) [.visit (.expr ⟨0⟩)] #[]).1 = .ok [()] ∧
      (faultyOperands.traverse (.trace faultyOperands) [.visit (.expr ⟨3⟩)] #[]).1 =
        .fault (.dangling (.expr ⟨7⟩)) ∧
      (faultyOperands.traverse (.generic faultyOperands) [.visit (.expr ⟨3⟩)] #[]).1 =
        .fault (.dangling (.exprList ⟨5, 1⟩)) := by
  simp only [Arena.traverse, Pass.traverse_eq]
  exact ⟨rfl, rfl, rfl, rfl⟩

end MergeForm
