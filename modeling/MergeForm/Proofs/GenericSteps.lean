import MergeForm.Passes.Generic
import MergeForm.Proofs.Agreement
import MergeForm.Proofs.Depth

/-! The steps of the generic walk beside those of the default traversal.  There are three
differences: the generic walk resolves the list of a form before it visits any operand, it passes
over placeholders, and it makes no visit for a form.  `Arena.eagerSteps` has the first of them alone
and `Arena.lenientSteps` the first two, so that each difference is dealt with by itself. -/

namespace MergeForm

namespace Arena

/-- The operand list of a form, where that does not resolve. -/
def lostList? (a : Arena) : Visit → Option ExprRange
  | .exprForm f => f.list?.filter fun r => (a.list? r).isNone
  | _ => none

/-- The default steps, but that a form resolves its list before its operands are visited. -/
def eagerSteps (a : Arena) (v : Visit) : List (Except Fault Visit) :=
  match a.lostList? v with
  | some r => [.error (.dangling (.exprList r))]
  | none => a.steps v

/-- The same, but that nothing is done where a placeholder stands. -/
def lenientSteps (a : Arena) : Visit → List (Except Fault Visit)
  | .expr id =>
    match a.expr? id with
    | some ⟨.error, _⟩ => []
    | _ => a.steps (.expr id)
  | v => a.eagerSteps v

/-- The single steps of the generic walk below a visit. -/
def genericSteps (a : Arena) : Visit → List (Except Fault Visit)
  | .expr id =>
    match a.expr? id with
    | none => [.error (.dangling (.expr id))]
    | some e => (a.childTasks e.kind).flatMap Task.steps
  | v => a.steps v

/-- What the generic walk writes down at a visit. -/
def leafMark? (a : Arena) : Visit → Option Mark
  | .expr id => ((a.expr? id).bind fun e => e.kind.form?).bind fun f => Mark.ofVisit? (.exprForm f)
  | _ => none

/-- The fault that a list is lost. -/
def lostFault? (a : Arena) (v : Visit) : Option Fault :=
  (a.lostList? v).map fun r => .dangling (.exprList r)

variable {a : Arena}

theorem lostList?_eq_some_iff {f : Expr.Form} {r : ExprRange} :
    a.lostList? (.exprForm f) = some r ↔ f.list? = some r ∧ a.list? r = none := by
  simp [lostList?]

theorem eagerSteps_lost {v : Visit} {r : ExprRange} (h : a.lostList? v = some r) :
    a.eagerSteps v = [.error (.dangling (.exprList r))] := by
  rw [eagerSteps, h]

theorem eagerSteps_kept {v : Visit} (h : a.lostList? v = none) : a.eagerSteps v = a.steps v := by
  rw [eagerSteps, h]

/-- The children of a form are what is visited below it where lists are resolved first. -/
theorem steps_childTasks (f : Expr.Form) :
    (a.childTasks (.form f)).flatMap Task.steps = a.eagerSteps (.exprForm f) := by
  rw [childTasks, children_form]
  cases hf : f.list? with
  | none =>
    have hkept : a.lostList? (.exprForm f) = none := by simp [lostList?, hf]
    simp [eagerSteps_kept hkept, steps_exprForm, hf]
  | some r =>
    cases hr : a.list? r with
    | none =>
      rw [eagerSteps_lost (lostList?_eq_some_iff.mpr ⟨hf, hr⟩)]
      simp [before, list, hr, Except.map, Task.steps]
    | some args =>
      have hkept : a.lostList? (.exprForm f) = none := by
        simp [lostList?, hf, Option.filter_some, hr]
      rw [eagerSteps_kept hkept, steps_exprForm, hf]
      simp [before, list, hr, Except.map, exprSteps_append, a.steps_listTasks_some hr]

theorem genericSteps_error {id : ExprId} {span : Span} (h : a.expr? id = some ⟨.error, span⟩) :
    a.genericSteps (.expr id) = [] := by
  simp [genericSteps, h, childTasks, children, Task.exprs]

theorem genericSteps_form {id : ExprId} {f : Expr.Form} {span : Span}
    (h : a.expr? id = some ⟨.form f, span⟩) :
    a.genericSteps (.expr id) = a.eagerSteps (.exprForm f) := by
  simp only [genericSteps, h, steps_childTasks]

theorem leafMark?_form {id : ExprId} {f : Expr.Form} {span : Span}
    (h : a.expr? id = some ⟨.form f, span⟩) :
    a.leafMark? (.expr id) = Mark.ofVisit? (.exprForm f) := by
  simp [leafMark?, h, Expr.Kind.form?]

end Arena

theorem Pass.follows_generic (a : Arena) :
    (Pass.generic a).Follows a.genericSteps fun log v => (a.leafMark? v).elim log log.push where
  steps v log := by
    cases v with
    | expr id =>
      rcases h : a.expr? id with _ | ⟨f | _, span⟩
      · simp [Pass.generic, Arena.genericSteps, h, Move.steps, Task.steps]
      · cases f <;> simp [Pass.generic, Arena.genericSteps, h, Move.steps, Move.leaf,
          Arena.childTasks, Arena.children, Task.exprs]
      · simp [Pass.generic, Arena.genericSteps, h, Move.steps]
    | _ => rfl
  state v log := by
    cases v with
    | expr id =>
      rcases h : a.expr? id with _ | ⟨f | _, span⟩
      · simp [Pass.generic, Arena.leafMark?, h]
      · rw [Arena.leafMark?_form h]
        cases f <;> simp [Pass.generic, h, Mark.ofVisit?]
      · simp [Pass.generic, Arena.leafMark?, h, Expr.Kind.form?]
    | _ => rfl

namespace Arena

variable {a : Arena}

theorem eq_expr_of_mem_eagerSteps {f : Expr.Form} {w : Visit}
    (h : .ok w ∈ a.eagerSteps (.exprForm f)) : ∃ id, w = .expr id := by
  rw [eagerSteps] at h
  split at h
  · simp at h
  · exact a.eq_expr_of_mem_exprForm h

theorem eq_expr_of_mem_genericSteps {id : ExprId} {w : Visit}
    (h : .ok w ∈ a.genericSteps (.expr id)) : (∃ y, w = .expr y) ∧ a.expr? id ≠ none := by
  rcases hid : a.expr? id with _ | ⟨f | _, span⟩
  · simp [genericSteps, hid] at h
  · rw [genericSteps_form hid] at h
    exact ⟨eq_expr_of_mem_eagerSteps h, by simp⟩
  · simp [genericSteps_error hid] at h

theorem graded_generic (a : Arena) : Graded a a.genericSteps := by
  intro v w h
  cases v with
  | expr id =>
    obtain ⟨⟨y, rfl⟩, hid⟩ := eq_expr_of_mem_genericSteps h
    have hheld : a.holds (.expr id) = true := by simpa [holds, Option.isSome_iff_ne_none] using hid
    refine (a.holds_or_rank_eq_zero (by simp [Numbered.ofVisit?])).imp_right fun hz => ?_
    rw [hz]
    simp [rank, hheld]
  | _ => exact a.graded _ w h

/-! ### No visit for a form -/

/-- All visits among the steps are of expressions by number. -/
def ExprsOnly (steps : List (Except Fault Visit)) : Prop := ∀ w, .ok w ∈ steps → ∃ id, w = .expr id

/-- The generic walk writes down at `walked` what a trace says at `visits`. -/
def SaysAs (a : Arena) (walked visits : List Visit) : Prop :=
  walked.filterMap a.leafMark? = visits.filterMap Mark.ofVisit?

theorem SaysAs.append {walked walked' visits visits' : List Visit} (h : a.SaysAs walked visits)
    (h' : a.SaysAs walked' visits') : a.SaysAs (walked ++ walked') (visits ++ visits') := by
  simp only [SaysAs, List.filterMap_append] at h h' ⊢
  rw [h, h']

/-- At an expression that leads nowhere neither has anything to say. -/
theorem SaysAs.silent {id : ExprId} {walked visits : List Visit} (h : a.SaysAs walked visits)
    (hmark : a.leafMark? (.expr id) = none) :
    a.SaysAs (.expr id :: walked) (.expr id :: visits) := by
  rw [SaysAs] at h ⊢
  rw [List.filterMap_cons, List.filterMap_cons, hmark, h]
  rfl

/-- What a trace says at a form, the walk says at the expression. -/
theorem SaysAs.form {id : ExprId} {f : Expr.Form} {walked visits : List Visit}
    (h : a.SaysAs walked visits)
    (hmark : a.leafMark? (.expr id) = Mark.ofVisit? (.exprForm f)) :
    a.SaysAs (.expr id :: walked) (.expr id :: .exprForm f :: visits) := by
  rw [SaysAs] at h ⊢
  rw [List.filterMap_cons, List.filterMap_cons, List.filterMap_cons, hmark, h]
  rfl

/-- An expression by number leads nowhere, or to its form; then the walk does at once what is done
below the form. -/
theorem leads_nowhere_or_to_form (a : Arena) (id : ExprId) :
    (a.lenientSteps (.expr id) = a.genericSteps (.expr id) ∧
      (∀ w, .ok w ∉ a.genericSteps (.expr id)) ∧ a.leafMark? (.expr id) = none) ∨
    ∃ f, a.lenientSteps (.expr id) = [.ok (.exprForm f)] ∧
      a.lenientSteps (.exprForm f) = a.genericSteps (.expr id) ∧
      a.leafMark? (.expr id) = Mark.ofVisit? (.exprForm f) := by
  rcases hid : a.expr? id with _ | ⟨f | _, span⟩
  · exact .inl (by simp [lenientSteps, genericSteps, leafMark?, steps_expr, hid])
  · refine .inr ⟨f, ?_, (genericSteps_form hid).symm, leafMark?_form hid⟩
    simp [lenientSteps, steps_expr, hid]
  · refine .inl ⟨?_, ?_, by simp [leafMark?, hid, Expr.Kind.form?]⟩
    · simp [lenientSteps, genericSteps_error hid, hid]
    · simp [genericSteps_error hid]

theorem exprsOnly_genericSteps (a : Arena) (id : ExprId) : ExprsOnly (a.genericSteps (.expr id)) :=
  fun _ h => (eq_expr_of_mem_genericSteps h).1

theorem ExprsOnly.of_cons {step : Except Fault Visit} {rest : List (Except Fault Visit)}
    (h : ExprsOnly (step :: rest)) : ExprsOnly rest :=
  fun w hw => h w (List.mem_cons_of_mem _ hw)

/-- The generic walk gets through the steps to the fault `stop`, if to any, and writes down what a
trace says at `visits`. -/
def Walks (a : Arena) (n : Nat) (steps : List (Except Fault Visit)) (visits : List Visit)
    (stop : Option Fault) : Prop :=
  ∃ walked, Trail a.genericSteps n steps walked stop ∧ a.SaysAs walked visits

/-- What is below an expression by number, given what is farther below: the visit of the form falls
out, so two levels become one. -/
theorem contract_below {k : Nat} {id : ExprId} {below : List Visit} {stop : Option Fault}
    (ih : ∀ j < k, ∀ {steps : List (Except Fault Visit)} {visits : List Visit}, ExprsOnly steps →
      Trail a.lenientSteps j steps visits stop → a.Walks j steps visits stop)
    (hb : Trail a.lenientSteps k (a.lenientSteps (.expr id)) below stop) :
    ∃ walked, Trail a.genericSteps k (a.genericSteps (.expr id)) walked stop ∧
      a.SaysAs (.expr id :: walked) (.expr id :: below) := by
  rcases a.leads_nowhere_or_to_form id with ⟨heq, hno, hmark⟩ | ⟨f, hid, hform, hmark⟩
  · rw [heq] at hb
    obtain ⟨rfl, hw⟩ := hb.of_no_visit hno
    exact ⟨[], hw, SaysAs.silent rfl hmark⟩
  · rw [hid] at hb
    obtain ⟨j, inner, rfl, rfl, hin⟩ := Trail.single_iff.mp hb
    rw [hform] at hin
    obtain ⟨walked, hw, hsaid⟩ := ih j (Nat.lt_succ_self j) (a.exprsOnly_genericSteps id) hin
    exact ⟨walked, hw.mono (Nat.le_succ j), hsaid.form hmark⟩

/-- What the steps with a visit for each form do, the generic walk does. -/
theorem contract (n : Nat) : ∀ {steps : List (Except Fault Visit)} {visits : List Visit}
    {stop : Option Fault}, ExprsOnly steps → Trail a.lenientSteps n steps visits stop →
      a.Walks n steps visits stop := by
  induction n using Nat.strongRecOn with
  | _ n ihn =>
    intro steps
    induction steps with
    | nil =>
      intro visits stop _ h
      cases h
      exact ⟨[], .done, rfl⟩
    | cons step rest ih =>
      intro visits stop hexprs h
      cases h with
      | fault f => exact ⟨[], .fault f rest, rfl⟩
      | visit hb ha =>
        obtain ⟨id, rfl⟩ := hexprs _ (List.mem_cons_self ..)
        obtain ⟨walked, hw, hsaid⟩ := contract_below (fun j hj => ihn j (by omega)) hb
        obtain ⟨walked', hw', hsaid'⟩ := ih hexprs.of_cons ha
        exact ⟨_, .visit hw hw', hsaid.append hsaid'⟩
      | broken hb =>
        obtain ⟨id, rfl⟩ := hexprs _ (List.mem_cons_self ..)
        obtain ⟨walked, hw, hsaid⟩ := contract_below (fun j hj => ihn j (by omega)) hb
        exact ⟨_, .broken hw, hsaid⟩

theorem expand_below {m : Nat} {id : ExprId} {walked visits : List Visit} {stop : Option Fault}
    (hv : Trail a.lenientSteps m (a.genericSteps (.expr id)) visits stop)
    (hsaid : a.SaysAs walked visits) :
    ∃ below, Trail a.lenientSteps (m + 1) (a.lenientSteps (.expr id)) below stop ∧
      a.SaysAs (.expr id :: walked) (.expr id :: below) := by
  rcases a.leads_nowhere_or_to_form id with ⟨heq, -, hmark⟩ | ⟨f, hid, hform, hmark⟩
  · rw [← heq] at hv
    exact ⟨visits, hv.mono (Nat.le_succ m), hsaid.silent hmark⟩
  · rw [← hform] at hv
    rw [hid]
    exact ⟨_, Trail.single_iff.mpr ⟨m, visits, rfl, rfl, hv⟩, hsaid.form hmark⟩

/-- What the generic walk does, the steps with a visit for each form do. -/
theorem expand {n : Nat} {steps : List (Except Fault Visit)} {walked : List Visit}
    {stop : Option Fault} (h : Trail a.genericSteps n steps walked stop)
    (hexprs : ExprsOnly steps) :
    ∃ m visits, Trail a.lenientSteps m steps visits stop ∧ a.SaysAs walked visits := by
  induction h with
  | done => exact ⟨0, [], .done, rfl⟩
  | fault f rest => exact ⟨0, [], .fault f rest, rfl⟩
  | visit _ _ ihb iha =>
    obtain ⟨id, rfl⟩ := hexprs _ (List.mem_cons_self ..)
    obtain ⟨m, visits, hv, hsaid⟩ := ihb (a.exprsOnly_genericSteps id)
    obtain ⟨below, hb, hsaid⟩ := expand_below hv hsaid
    obtain ⟨k, after, ha, hsaid'⟩ := iha hexprs.of_cons
    refine ⟨max (m + 1) k + 1, .expr id :: (below ++ after), ?_, hsaid.append hsaid'⟩
    exact .visit (hb.mono (by omega)) (ha.mono (by omega))
  | broken _ ih =>
    obtain ⟨id, rfl⟩ := hexprs _ (List.mem_cons_self ..)
    obtain ⟨m, visits, hv, hsaid⟩ := ih (a.exprsOnly_genericSteps id)
    obtain ⟨below, hb, hsaid⟩ := expand_below hv hsaid
    exact ⟨m + 2, .expr id :: below, .broken hb, hsaid⟩

/-! ### Where no list is lost and no placeholder met -/

theorem steps_placeholder {id : ExprId} {span : Span} (h : a.expr? id = some ⟨.error, span⟩) :
    a.steps (.expr id) = [.error (.unrecognized (.expr id) span)] := by
  simp [steps_expr, h]

theorem lenientSteps_eq_eager {v : Visit}
    (hplaceholder : ∀ id span, v = .expr id → a.expr? id ≠ some ⟨.error, span⟩) :
    a.lenientSteps v = a.eagerSteps v := by
  cases v with
  | expr id =>
    rw [eagerSteps_kept rfl]
    rcases hid : a.expr? id with _ | ⟨f | _, span⟩
    · simp [lenientSteps, hid]
    · simp [lenientSteps, hid]
    · exact absurd hid (hplaceholder id span rfl)
  | _ => rfl

theorem lenientSteps_eq {v : Visit} (hlost : a.lostList? v = none)
    (hplaceholder : ∀ id span, v = .expr id → a.expr? id ≠ some ⟨.error, span⟩) :
    a.lenientSteps v = a.steps v :=
  (lenientSteps_eq_eager hplaceholder).trans (eagerSteps_kept hlost)

/-- Along a trail that comes to no lost list and does not end at a placeholder, nothing is
different. -/
theorem lenientSteps_eq_of_mem {n : Nat} {steps : List (Except Fault Visit)} {visits : List Visit}
    {stop : Option Fault} (h : Trail a.steps n steps visits stop)
    (hlost : visits.findSome? a.lostList? = none)
    (hstop : ∀ node span, stop ≠ some (.unrecognized node span)) :
    ∀ v ∈ visits, a.lenientSteps v = a.steps v := by
  intro v hv
  refine lenientSteps_eq (List.findSome?_eq_none_iff.mp hlost v hv) fun id span hid hspan => ?_
  subst hid
  exact hstop _ _ (h.stop_eq_of_mem hv (steps_placeholder hspan))

theorem error_mem_of_lost {v : Visit} {r : ExprRange} (h : a.lostList? v = some r) :
    .error (.dangling (.exprList r)) ∈ a.steps v := by
  cases v with
  | exprForm f =>
    obtain ⟨hf, hr⟩ := lostList?_eq_some_iff.mp h
    simp [steps_exprForm, hf, a.steps_listTasks_none hr]
  | _ => simp [lostList?] at h

theorem mem_steps_of_lenient {v w : Visit} (h : .ok w ∈ a.lenientSteps v) : .ok w ∈ a.steps v := by
  have heager {v : Visit} (h : .ok w ∈ a.eagerSteps v) : .ok w ∈ a.steps v := by
    rw [eagerSteps] at h
    split at h
    · simp at h
    · exact h
  cases v with
  | expr id =>
    rcases hid : a.expr? id with _ | ⟨f | _, span⟩ <;> simp_all [lenientSteps]
  | _ => exact heager h

end Arena

end MergeForm
