import MergeForm.Proofs.Depth
import MergeForm.Proofs.Drafts

/-! Rules of building.  What has been stored for some steps is visited by them in every later draft,
each of the new expressions and statements once and nothing else, and a reader meets the same there
each time.  Each way to store something, and each way to put steps together, has a rule of its
own. -/

namespace MergeForm

/-! ### What is read below some steps -/

namespace Numbered

/-- The expression that is visited, be it read or assigned to. -/
def exprId? : Numbered → Option ExprId
  | .expr id | .target id => some id
  | .stmt _ => none

def stmtId? : Numbered → Option StmtId
  | .stmt id => some id
  | _ => none

theorem count_expr (ns : List Numbered) (id : ExprId) :
    ns.count (.expr id) + ns.count (.target id) = (ns.filterMap exprId?).count id := by
  induction ns with
  | nil => rfl
  | cons n ns ih => cases n <;> simp [exprId?, List.filterMap_cons, List.count_cons, ← ih] <;> omega

theorem count_stmt (ns : List Numbered) (id : StmtId) :
    ns.count (.stmt id) = (ns.filterMap stmtId?).count id := by
  induction ns with
  | nil => rfl
  | cons n ns ih => cases n <;> simp [stmtId?, List.filterMap_cons, List.count_cons, ← ih]

end Numbered

def Visit.exprId? (v : Visit) : Option ExprId := (Numbered.ofVisit? v).bind Numbered.exprId?

def Visit.stmtId? (v : Visit) : Option StmtId := (Numbered.ofVisit? v).bind Numbered.stmtId?

/-- A visit that is neither counted nor read. -/
structure Visit.Silent (v : Visit) : Prop where
  expr : v.exprId? = none
  stmt : v.stmtId? = none
  mark : Mark.ofVisit? v = none

namespace Draft

/-- The steps are carried out in the draft without a fault.  Expressions and statements are visited
as often as they are in `es` and `ss`, and `log` is what a reader meets. -/
def Reads (d : Draft) (steps : List (Except Fault Visit)) (es : List ExprId) (ss : List StmtId)
    (log : List String) : Prop :=
  ∃ n visits, Trail d.arena.steps n steps visits none ∧
    (visits.filterMap Visit.exprId?).Perm es ∧ (visits.filterMap Visit.stmtId?).Perm ss ∧
      (visits.filterMap Mark.ofVisit?).map (Mark.text d.names) = log

namespace Reads

variable {d : Draft} {steps steps' : List (Except Fault Visit)} {es es' : List ExprId}
  {ss ss' : List StmtId} {log log' : List String}

theorem nil (d : Draft) : d.Reads [] [] [] [] := ⟨0, [], .done, .nil, .nil, rfl⟩

theorem append (h : d.Reads steps es ss log) (h' : d.Reads steps' es' ss' log') :
    d.Reads (steps ++ steps') (es ++ es') (ss ++ ss') (log ++ log') := by
  obtain ⟨n, visits, ht, hes, hss, rfl⟩ := h
  obtain ⟨n', visits', ht', hes', hss', rfl⟩ := h'
  refine ⟨_, visits ++ visits', ht.append ht', ?_, ?_, ?_⟩
  · rw [List.filterMap_append]
    exact hes.append hes'
  · rw [List.filterMap_append]
    exact hss.append hss'
  · rw [List.filterMap_append, List.map_append]

theorem perm (h : d.Reads steps es ss log) (hes : es.Perm es') (hss : ss.Perm ss') :
    d.Reads steps es' ss' log := by
  obtain ⟨n, visits, ht, hes₀, hss₀, hlog⟩ := h
  exact ⟨n, visits, ht, hes₀.trans hes, hss₀.trans hss, hlog⟩

theorem enter (v : Visit) (h : d.Reads (d.arena.steps v) es ss log) :
    d.Reads [.ok v] (v.exprId?.toList ++ es) (v.stmtId?.toList ++ ss)
      ((Mark.ofVisit? v).toList.map (Mark.text d.names) ++ log) := by
  obtain ⟨n, visits, ht, hes, hss, rfl⟩ := h
  refine ⟨n + 1, v :: (visits ++ []), .visit ht .done, ?_, ?_, ?_⟩
  · cases hv : v.exprId? <;> simp [hv, hes]
  · cases hv : v.stmtId? <;> simp [hv, hss]
  · cases hv : Mark.ofVisit? v <;> simp [hv]

theorem silent {v : Visit} (hv : v.Silent) (h : d.Reads (d.arena.steps v) es ss log) :
    d.Reads [.ok v] es ss log := by
  simpa [hv.expr, hv.stmt, hv.mark] using h.enter v

theorem uncons {step : Except Fault Visit} (h : d.Reads (step :: steps) es ss log) :
    ∃ es₁ ss₁ log₁ es₂ ss₂ log₂, d.Reads [step] es₁ ss₁ log₁ ∧ d.Reads steps es₂ ss₂ log₂ ∧
      (es₁ ++ es₂).Perm es ∧ (ss₁ ++ ss₂).Perm ss ∧ log₁ ++ log₂ = log := by
  obtain ⟨n, visits, ht, hes, hss, hlog⟩ := h
  cases ht with
  | @visit k v _ below after _ hb ha =>
    refine ⟨_, _, _, _, _, _, ⟨k + 1, v :: (below ++ []), .visit hb .done, .refl _, .refl _, rfl⟩,
      ⟨k + 1, after, ha, .refl _, .refl _, rfl⟩, ?_, ?_, ?_⟩
    · rw [← List.filterMap_append, List.append_nil]
      exact hes
    · rw [← List.filterMap_append, List.append_nil]
      exact hss
    · rw [← List.map_append, ← List.filterMap_append, List.append_nil]
      exact hlog

/-- Statements are read by number as they are read as forms, each of them visited once. -/
theorem stmts {ids : List StmtId} {parts : List (Stmt.Form × Span)}
    (hstored : List.Forall₂ (fun id p => d.arena.stmt? id = some ⟨.form p.1, p.2⟩) ids parts) :
    ∀ {es ss log}, d.Reads (parts.map fun p => .ok (.stmtForm p.1)) es ss log →
      d.Reads (ids.map fun id => .ok (.stmt id)) es (ids ++ ss) log := by
  induction hstored with
  | nil => exact fun h => h
  | @cons id p ids parts hid _ ih =>
    intro es ss log h
    obtain ⟨es₁, ss₁, log₁, es₂, ss₂, log₂, hform, hrest, hes, hss, rfl⟩ := h.uncons
    have hstmt : d.Reads [.ok (.stmt id)] es₁ (id :: ss₁) log₁ := by
      refine Reads.enter (.stmt id) ?_
      rw [Arena.steps_stmt, hid]
      exact hform
    refine (hstmt.append (ih hrest)).perm hes ?_
    exact ((List.perm_append_comm_assoc ss₁ ids ss₂).trans (hss.append_left ids)).cons id

end Reads

/-! ### Rules of building -/

/-- From `d` to `d'` things are stored for the steps `todo`: in every later draft these steps visit
each of the new expressions and statements once and nothing else, and `log` is read there. -/
structure Built (d d' : Draft) (todo : Arena → List (Except Fault Visit)) (log : List String) :
    Prop where
  grows : d.Extends d'
  reads : ∀ later : Draft, d'.Extends later → later.Fits →
    later.Reads (todo later.arena) (Id.between d.arena.exprs.size d'.arena.exprs.size)
      (Id.between d.arena.stmts.size d'.arena.stmts.size) log

namespace Built

variable {d d' d'' : Draft} {todo todo' : Arena → List (Except Fault Visit)}
  {log log' : List String}

theorem nil (d : Draft) : Built d d (fun _ => []) [] where
  grows := .refl d
  reads later _ _ := by simpa using Reads.nil later

/-- One thing stored after another, in either order of the steps. -/
theorem append (h : Built d d' todo log) (h' : Built d' d'' todo' log') :
    Built d d'' (fun a => todo a ++ todo' a) (log ++ log') where
  grows := h.grows.trans h'.grows
  reads later hlater hfits := by
    have hread := (h.reads later (h'.grows.trans hlater) hfits).append
      (h'.reads later hlater hfits)
    rwa [Id.between_append h.grows.exprs_le h'.grows.exprs_le,
      Id.between_append h.grows.stmts_le h'.grows.stmts_le] at hread

theorem swap (h : Built d d' todo log) (h' : Built d' d'' todo' log') :
    Built d d'' (fun a => todo' a ++ todo a) (log' ++ log) where
  grows := h.grows.trans h'.grows
  reads later hlater hfits := by
    have hread := ((h'.reads later hlater hfits).append
      (h.reads later (h'.grows.trans hlater) hfits)).perm List.perm_append_comm
        List.perm_append_comm
    rwa [Id.between_append h.grows.exprs_le h'.grows.exprs_le,
      Id.between_append h.grows.stmts_le h'.grows.stmts_le] at hread

/-- Things stored that are neither expressions nor statements. -/
theorem more (h : Built d d' todo log) (hgrows : d'.Extends d'')
    (hexprs : d''.arena.exprs.size = d'.arena.exprs.size)
    (hstmts : d''.arena.stmts.size = d'.arena.stmts.size)
    (htodo : ∀ later : Draft, d''.Extends later → later.Fits →
      todo' later.arena = todo later.arena) : Built d d'' todo' log where
  grows := h.grows.trans hgrows
  reads later hlater hfits := by
    rw [htodo later hlater hfits, hexprs, hstmts]
    exact h.reads later (hgrows.trans hlater) hfits

theorem intern (h : Built d d' todo log) (s : String) : Built d (intern s d').2 todo log :=
  h.more (d'.extends_intern s) rfl rfl fun _ _ _ => rfl

theorem list {ids : List ExprId} (h : Built d d' (fun _ => exprSteps ids) log) :
    Built d (list ids d').2 (fun a => a.steps (.exprList (list ids d').1)) log :=
  h.more (d'.extends_list ids) rfl rfl fun later hlater hfits =>
    later.arena.steps_listTasks_some (list?_later hlater hfits)

theorem merge {phis : List Phi} (h : Built d d' (fun _ => phis.map fun p => .ok (.phi p)) log) :
    Built d (merge phis d').2 (fun a => a.steps (.merge (merge phis d').1)) log :=
  h.more (d'.extends_merge phis) rfl rfl fun later hlater hfits => by
    rw [Arena.steps_merge, merge?_later hlater hfits]

/-- A visit that is not read, with what is below it. -/
theorem silent {v : Visit} (h : Built d d' todo log) (hsteps : ∀ a : Arena, a.steps v = todo a)
    (hv : v.Silent) : Built d d' (fun _ => [.ok v]) log where
  grows := h.grows
  reads later hlater hfits := by
    have hread := h.reads later hlater hfits
    rw [← hsteps] at hread
    exact hread.silent hv

theorem form {f : Expr.Form} (h : Built d d' todo log)
    (hsteps : ∀ a : Arena, a.steps (.exprForm f) = todo a)
    (hmark : Mark.ofVisit? (.exprForm f) = none) : Built d d' (fun _ => [.ok (.exprForm f)]) log :=
  h.silent hsteps ⟨rfl, rfl, hmark⟩

/-- A visit that is read as `text`, with what is below it. -/
theorem marked {v : Visit} {m : Mark} {text : String} (h : Built d d' todo log)
    (hsteps : ∀ a : Arena, a.steps v = todo a) (hexpr : v.exprId? = none)
    (hstmt : v.stmtId? = none) (hmark : Mark.ofVisit? v = some m)
    (htext : ∀ later : Draft, d'.Extends later → later.Fits → m.text later.names = text) :
    Built d d' (fun _ => [.ok v]) (text :: log) where
  grows := h.grows
  reads later hlater hfits := by
    have hread := h.reads later hlater hfits
    rw [← hsteps] at hread
    have hentered := hread.enter v
    rw [hexpr, hstmt, hmark] at hentered
    rw [← htext later hlater hfits]
    exact hentered

/-- An expression that has been stored is visited by its number, in one of the two ways. -/
theorem store {f : Expr.Form} {span : Span} {v : Visit} (h : Built d d' todo log)
    (hsteps : ∀ a : Arena, a.expr? (expr f span d').1 = some ⟨.form f, span⟩ →
      a.steps v = todo a)
    (hexpr : v.exprId? = some (expr f span d').1) (hstmt : v.stmtId? = none)
    (hmark : Mark.ofVisit? v = none) : Built d (expr f span d').2 (fun _ => [.ok v]) log where
  grows := h.grows.trans (d'.extends_expr f span)
  reads later hlater hfits := by
    have hread := h.reads later ((d'.extends_expr f span).trans hlater) hfits
    rw [← hsteps later.arena (expr?_later hlater hfits)] at hread
    have hentered := hread.enter v
    rw [hexpr, hstmt, hmark] at hentered
    have hnew : (expr f span d').2.arena.exprs.size = d'.arena.exprs.size + 1 :=
      Array.size_push ..
    have hid : [(expr f span d').1] = Id.between d'.arena.exprs.size (d'.arena.exprs.size + 1) :=
      (Id.between_succ _).symm
    refine hentered.perm ?_ (.refl _)
    rw [Option.toList_some, hid, hnew, ← Id.between_append h.grows.exprs_le (Nat.le_succ _)]
    exact List.perm_append_comm

theorem expr {f : Expr.Form} (h : Built d d' (fun _ => [.ok (.exprForm f)]) log) (span : Span) :
    Built d (expr f span d').2 (fun _ => [.ok (.expr (Draft.expr f span d').1)]) log :=
  h.store (fun a ha => by rw [a.steps_expr, ha]) rfl rfl rfl

theorem target {t : Expr.Target} (h : Built d d' (fun _ => [.ok (.exprForm t.form)]) log)
    (span : Span) :
    Built d (Draft.expr t.form span d').2 (fun _ => [.ok (.target (Draft.expr t.form span d').1)])
      log :=
  (h.silent (v := .targetForm t) (fun _ => rfl) ⟨rfl, rfl, rfl⟩).store
    (fun a ha => by rw [a.steps_target, ha]; simp [Expr.Form.target?_form]) rfl rfl rfl

theorem block {parts : List (Stmt.Form × Span)}
    (h : Built d d' (fun _ => parts.map fun p => .ok (.stmtForm p.1)) log) :
    Built d (block parts d').2 (fun _ => [.ok (.block (block parts d').1)]) log where
  grows := h.grows.trans (d'.extends_block parts)
  reads later hlater hfits := by
    have hread := h.reads later ((d'.extends_block parts).trans hlater) hfits
    obtain ⟨hids, hstored⟩ := block_later hlater hfits
    have hstmts := hread.stmts hstored
    rw [← Arena.steps_block] at hstmts
    refine (hstmts.silent ⟨rfl, rfl, rfl⟩).perm (.refl _) ?_
    rw [hids, ← Id.between_append h.grows.stmts_le (d'.extends_block parts).stmts_le]
    exact List.perm_append_comm

end Built

end Draft

end MergeForm
