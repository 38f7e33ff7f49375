import MergeForm.Passes.Outputs
import MergeForm.Proofs.Depth

/-! Where outputs come from.  A pass with outputs gives one for each expression: its own for some
forms, that of the operand where the operand is passed on, one made of those of a list's elements,
and a blank one else.  What is below a form is visited whether its output is used or not, so such a
pass gets through, and faults, just where the default traversal does. -/

namespace MergeForm

/-! ### What expressions give -/

/-- Where the output of an expression comes from. -/
inductive Source (α : Type)
  | value (x : α)
  | operand (id : ExprId)
  | elements (r : ExprRange) (join : List α → α)

/-- Where the output of a stored expression comes from. -/
def Arena.sourceOf {α : Type} (a : Arena) (source : Expr.Form → Source α) (id : ExprId) :
    Option (Source α) :=
  match a.expr? id with
  | some ⟨.form f, _⟩ => some (source f)
  | _ => none

/-- The outputs of the expressions of a list, one for each. -/
inductive Gives {α : Type} (source : Expr.Form → Source α) (a : Arena) :
    List ExprId → List α → Prop
  | nil : Gives source a [] []
  | value {id : ExprId} {x : α} {ids : List ExprId} {xs : List α} :
    a.sourceOf source id = some (.value x) → Gives source a ids xs →
    Gives source a (id :: ids) (x :: xs)
  | operand {id y : ExprId} {x : α} {ids : List ExprId} {xs : List α} :
    a.sourceOf source id = some (.operand y) → Gives source a [y] [x] → Gives source a ids xs →
    Gives source a (id :: ids) (x :: xs)
  | elements {id : ExprId} {r : ExprRange} {join : List α → α} {els ids : List ExprId}
    {outs xs : List α} : a.sourceOf source id = some (.elements r join) → a.list? r = some els →
    Gives source a els outs → Gives source a ids xs → Gives source a (id :: ids) (join outs :: xs)

namespace Gives

variable {α : Type} {source : Expr.Form → Source α} {a : Arena} {ids : List ExprId} {xs : List α}

theorem length_eq (h : Gives source a ids xs) : xs.length = ids.length := by
  induction h with
  | nil => rfl
  | value _ _ ih => simp [ih]
  | operand _ _ _ _ ih => simp [ih]
  | elements _ _ _ _ _ ih => simp [ih]

theorem exists_of_single {id : ExprId} (h : Gives source a [id] xs) : ∃ x, xs = [x] :=
  List.length_eq_one_iff.mp h.length_eq

theorem append {ids' : List ExprId} {xs' : List α} (h : Gives source a ids xs)
    (h' : Gives source a ids' xs') : Gives source a (ids ++ ids') (xs ++ xs') := by
  induction h with
  | nil => exact h'
  | value hs _ ih => exact .value hs ih
  | operand hs hy _ _ ih => exact .operand hs hy ih
  | elements hs hr hels _ _ ih => exact .elements hs hr hels ih

theorem unique {ys : List α} (h : Gives source a ids xs) (h' : Gives source a ids ys) :
    xs = ys := by
  induction h generalizing ys with
  | nil =>
    cases h'
    rfl
  | @value id x _ _ hs _ ih =>
    cases h' with
    | @value _ x' _ _ hs' h' =>
      obtain rfl : x = x' := by simpa [hs] using hs'
      rw [ih h']
    | operand hs' => simp [hs] at hs'
    | elements hs' => simp [hs] at hs'
  | @operand id y x _ _ hs _ _ ihy ih =>
    cases h' with
    | value hs' => simp [hs] at hs'
    | @operand _ y' x' _ _ hs' hy' h' =>
      obtain rfl : y = y' := by simpa [hs] using hs'
      obtain rfl : x = x' := by simpa using ihy hy'
      rw [ih h']
    | elements hs' => simp [hs] at hs'
  | @elements id r join els _ outs _ hs hr _ _ ihels ih =>
    cases h' with
    | value hs' => simp [hs] at hs'
    | operand hs' => simp [hs] at hs'
    | @elements _ r' join' els' _ outs' _ hs' hr' hels' h' =>
      obtain ⟨rfl, rfl⟩ : r = r' ∧ join = join' := by simpa [hs] using hs'
      obtain rfl : els = els' := by simpa [hr] using hr'
      rw [ihels hels', ih h']

end Gives

/-! ### Passes that give outputs -/

/-- How a pass has to answer the visit of the form `f` for its output to come from there. -/
def Source.AnsweredBy {α : Type} (a : Arena) (f : Expr.Form) (m : Move α) : Source α → Prop
  | .value x => m.steps = a.steps (.exprForm f) ∧ ∀ outs, m.finish outs = [x]
  | .operand y => m.steps = [.ok (.expr y)] ∧ m.steps = a.steps (.exprForm f) ∧
    ∀ outs, m.finish outs = outs
  | .elements r join => m.steps = [.ok (.exprList r)] ∧
    a.steps (.exprList r) = a.steps (.exprForm f) ∧ ∀ outs, m.finish outs = [join outs]

/-- The pass gives the outputs that come from `source`, and passes those of lists on. -/
structure Pass.Reports {α : Type} (p : Pass Unit α) (a : Arena) (source : Expr.Form → Source α) :
    Prop where
  expr : ∀ id, (p.hook (.expr id) ()).1.steps = a.steps (.expr id) ∧
    ∀ outs, (p.hook (.expr id) ()).1.finish outs = outs
  list : ∀ r, (p.hook (.exprList r) ()).1.steps = a.steps (.exprList r) ∧
    ∀ outs, (p.hook (.exprList r) ()).1.finish outs = outs
  form : ∀ f, (source f).AnsweredBy a f (p.hook (.exprForm f) ()).1
  graded : Graded a fun v => (p.hook v ()).1.steps

/-- The number of variables and constants, those in tuples included. -/
def leafSource : Expr.Form → Source Nat
  | .var _ | .const _ => .value 1
  | .tuple r => .elements r fun outs => outs.foldl (· + ·) 0
  | .cast y _ | .tupleProj y _ => .operand y
  | _ => .value 0

/-- Variables as they are written, and arrays with their elements in square brackets. -/
def echoSource (names : Interner) : Expr.Form → Source String
  | .var n => .value (names.lookup n)
  | .array r => .elements r fun outs => "[" ++ String.intercalate "," outs ++ "]"
  | .cast y _ | .tupleProj y _ => .operand y
  | _ => .value ""

/-- Steps stay graded where a form visits its list as a list. -/
theorem Arena.graded_of_lists {a : Arena} {next : Visit → List (Except Fault Visit)}
    (h : ∀ v, next v ⊆ a.steps v ∨ ∃ f r, v = .exprForm f ∧ next v = [.ok (.exprList r)]) :
    Graded a next := by
  intro v w hw
  rcases h v with hsub | ⟨f, r, rfl, hlist⟩
  · exact a.graded v w (hsub hw)
  · obtain rfl : w = .exprList r := by simpa [hlist] using hw
    exact .inr (by simp [rank])

namespace Pass

theorem leafCount_reports (a : Arena) : (leafCount a).Reports a leafSource where
  expr _ := ⟨rfl, fun _ => rfl⟩
  list _ := ⟨rfl, fun _ => rfl⟩
  form f := by
    cases f with
    | tuple r => exact ⟨rfl, rfl, fun _ => rfl⟩
    | cast y t => exact ⟨rfl, rfl, fun _ => rfl⟩
    | tupleProj y i => exact ⟨rfl, rfl, fun _ => rfl⟩
    | _ => exact ⟨rfl, fun _ => rfl⟩
  graded := Arena.graded_of_lists fun v => by
    cases v with
    | exprForm f =>
      cases f with
      | tuple r => exact .inr ⟨_, r, rfl, rfl⟩
      | _ => exact .inl (List.Subset.refl _)
    | _ => exact .inl (List.Subset.refl _)

theorem echo_reports (a : Arena) (names : Interner) :
    (echo a names).Reports a (echoSource names) where
  expr _ := ⟨rfl, fun _ => rfl⟩
  list _ := ⟨rfl, fun _ => rfl⟩
  form f := by
    cases f with
    | array r => exact ⟨rfl, rfl, fun _ => rfl⟩
    | cast y t => exact ⟨rfl, rfl, fun _ => rfl⟩
    | tupleProj y i => exact ⟨rfl, rfl, fun _ => rfl⟩
    | _ => exact ⟨rfl, fun _ => rfl⟩
  graded := Arena.graded_of_lists fun v => by
    cases v with
    | exprForm f =>
      cases f with
      | array r => exact .inr ⟨_, r, rfl, rfl⟩
      | _ => exact .inl (List.Subset.refl _)
    | targetForm t =>
      cases t with
      | var n => exact .inl (List.nil_subset _)
      | _ => exact .inl (List.Subset.refl _)
    | _ => exact .inl (List.Subset.refl _)

end Pass

/-! ### The outputs of a visit -/

namespace Pass

section

variable {σ α : Type}

/-- Steps get through in the order in which they stand, and their outputs are put together. -/
theorem perform_eq_ok {go : Visit → σ → Outcome (List α) × σ} {steps : List (Except Fault Visit)}
    {s s' : σ} {outs : List α} (h : perform go steps s = (.ok outs, s')) :
    ∃ vs : List Visit, steps = vs.map .ok ∧ ∃ parts, parts.flatten = outs ∧
      List.Forall₂ (fun v part => ∃ t t', go v t = (.ok part, t')) vs parts := by
  induction steps generalizing s outs with
  | nil =>
    obtain ⟨rfl, -⟩ : [] = outs ∧ s = s' := by simpa [perform] using h
    exact ⟨[], rfl, [], rfl, .nil⟩
  | cons step rest ih =>
    cases step with
    | error f => simp [perform] at h
    | ok v =>
      simp only [perform, Outcome.andThen_eq_ok_iff] at h
      obtain ⟨part, mid, hv, more, last, hrest, hlast⟩ := h
      obtain ⟨rfl, rfl⟩ : part ++ more = outs ∧ last = s' := by simpa using hlast
      obtain ⟨vs, rfl, parts, rfl, hparts⟩ := ih hrest
      exact ⟨v :: vs, rfl, part :: parts, rfl, .cons ⟨s, mid, hv⟩ hparts⟩

/-- A visit that gets through gives outputs of which `Out` holds, if each visit makes such outputs
out of those of the visits right below it. -/
theorem visit_outputs {p : Pass σ α} {Out : Visit → List α → Prop}
    (step : ∀ v s (below : List Visit) parts, (p.hook v s).1.steps = below.map .ok →
      List.Forall₂ Out below parts → Out v ((p.hook v s).1.finish parts.flatten))
    {depth : Nat} {v : Visit} {s s' : σ} {outs : List α}
    (h : p.visit depth v s = (.ok outs, s')) : Out v outs := by
  induction depth generalizing v s s' outs with
  | zero => simp [visit] at h
  | succ depth ih =>
    rw [visit_eq, Outcome.andThen_eq_ok_iff] at h
    obtain ⟨inner, mid, hinner, hlast⟩ := h
    obtain ⟨rfl, -⟩ : (p.hook v s).1.finish inner = outs ∧ mid = s' := by simpa using hlast
    obtain ⟨below, hsteps, parts, rfl, hparts⟩ := perform_eq_ok hinner
    refine step v s below parts hsteps (hparts.imp fun w part hw => ?_)
    obtain ⟨t, t', hw⟩ := hw
    exact ih hw

end

variable {α : Type} {source : Expr.Form → Source α} {a : Arena}

/-- What is known of the outputs of a visit: those of an expression and of a list are as they should
be, and those of a form as they have to be for an expression of that form. -/
def Out (source : Expr.Form → Source α) (a : Arena) : Visit → List α → Prop
  | .expr id, outs => Gives source a [id] outs
  | .exprForm f, outs => ∀ id span, a.expr? id = some ⟨.form f, span⟩ → Gives source a [id] outs
  | .exprList r, outs => ∃ ids, a.list? r = some ids ∧ Gives source a ids outs
  | _, _ => True

theorem gives_flatten {ids : List ExprId} {parts : List (List α)}
    (h : List.Forall₂ (Out source a) (ids.map .expr) parts) : Gives source a ids parts.flatten := by
  induction ids generalizing parts with
  | nil =>
    cases h
    exact .nil
  | cons id ids ih =>
    obtain _ | ⟨hid, hids⟩ := h
    have hone : Gives source a [id] _ := hid
    exact hone.append (ih hids)

namespace Reports

variable {p : Pass Unit α}

theorem out_step (h : p.Reports a source) (v : Visit) (s : Unit) (below : List Visit)
    (parts : List (List α)) (hsteps : (p.hook v s).1.steps = below.map .ok)
    (hparts : List.Forall₂ (Out source a) below parts) :
    Out source a v ((p.hook v s).1.finish parts.flatten) := by
  cases v with
  | expr id =>
    obtain ⟨hsame, hfinish⟩ := h.expr id
    obtain ⟨f, span, hf, rfl⟩ := a.expr_of_steps (hsame.symm.trans hsteps)
    obtain ⟨part, hpart, rfl⟩ := Trail.exists_of_forall₂_singleton hparts
    rw [hfinish, List.flatten_singleton]
    exact hpart id span hf
  | exprForm f =>
    intro id span hf
    have hid : a.sourceOf source id = some (source f) := by simp [Arena.sourceOf, hf]
    have hform := h.form f
    cases hs : source f with
    | value x =>
      rw [hs] at hid hform
      rw [hform.2]
      exact .value hid .nil
    | operand y =>
      rw [hs] at hid hform
      obtain ⟨hoperand, -, hfinish⟩ := hform
      obtain rfl : [.expr y] = below := Trail.map_ok_inj (hoperand.symm.trans hsteps)
      obtain ⟨part, hpart, rfl⟩ := Trail.exists_of_forall₂_singleton hparts
      obtain ⟨x, rfl⟩ := Gives.exists_of_single hpart
      rw [hfinish]
      exact .operand hid hpart .nil
    | elements r join =>
      rw [hs] at hid hform
      obtain ⟨hlist, -, hfinish⟩ := hform
      obtain rfl : [.exprList r] = below := Trail.map_ok_inj (hlist.symm.trans hsteps)
      obtain ⟨part, ⟨els, hr, hels⟩, rfl⟩ := Trail.exists_of_forall₂_singleton hparts
      rw [hfinish, List.flatten_singleton]
      exact .elements hid hr hels .nil
  | exprList r =>
    obtain ⟨hsame, hfinish⟩ := h.list r
    obtain ⟨ids, hr, rfl⟩ := a.list_of_steps (hsame.symm.trans hsteps)
    rw [hfinish]
    exact ⟨ids, hr, gives_flatten hparts⟩
  | _ => trivial

end Reports

end Pass

/-! ### Where the passes end -/

/-- Whether a visit is that of an expression, its form, or a list of expressions. -/
def Visit.OfExpr : Visit → Prop
  | .expr _ | .exprForm _ | .exprList _ => True
  | _ => False

theorem Arena.ofExpr_of_mem_steps {a : Arena} {v w : Visit} (hv : v.OfExpr)
    (hw : .ok w ∈ a.steps v) : w.OfExpr := by
  cases v with
  | expr id =>
    obtain ⟨f, span, -, rfl⟩ := ok_mem_steps_expr.mp hw
    trivial
  | exprForm f =>
    obtain ⟨id, rfl⟩ := a.eq_expr_of_mem_exprForm hw
    trivial
  | exprList r =>
    obtain ⟨id, rfl⟩ := a.eq_expr_of_mem_listTasks hw
    trivial
  | _ => exact absurd hv id

theorem Pass.follows_hook {α : Type} (p : Pass Unit α) :
    p.Follows (fun v => (p.hook v ()).1.steps) fun s _ => s where
  steps _ _ := rfl
  state _ _ := rfl

namespace Pass.Reports

variable {α : Type} {source : Expr.Form → Source α} {a : Arena} {p : Pass Unit α}

/-- Below an expression there is just what the default traversal has there, or that as a list. -/
theorem steps_or_list (h : p.Reports a source) {v : Visit} (hv : v.OfExpr) :
    (p.hook v ()).1.steps = a.steps v ∨
      ∃ r, (p.hook v ()).1.steps = [.ok (.exprList r)] ∧ a.steps (.exprList r) = a.steps v := by
  cases v with
  | expr id => exact .inl (h.expr id).1
  | exprForm f =>
    have hform := h.form f
    cases hs : source f with
    | value x =>
      rw [hs] at hform
      exact .inl hform.1
    | operand y =>
      rw [hs] at hform
      exact .inl hform.2.1
    | elements r join =>
      rw [hs] at hform
      exact .inr ⟨r, hform.1, hform.2.1⟩
  | exprList r => exact .inl (h.list r).1
  | _ => exact absurd hv id

theorem runs_below (h : p.Reports a source) {v : Visit} (hv : v.OfExpr) {m : Nat}
    {stop : Option Fault} (hm : p.Runs m (a.steps v) () stop ()) :
    p.Runs (m + 1) (p.hook v ()).1.steps () stop () := by
  rcases h.steps_or_list hv with hsame | ⟨r, hlist, hsame⟩
  · rw [hsame]
    exact hm.mono (Nat.le_succ m)
  · rw [← hsame, ← (h.list r).1] at hm
    rw [hlist]
    cases stop with
    | none => exact .visit hm .done
    | some f => exact .broken hm

/-- Among expressions the pass ends where the default traversal does. -/
theorem runs_of_trail (h : p.Reports a source) {n : Nat} {steps : List (Except Fault Visit)}
    {visits : List Visit} {stop : Option Fault} (ht : Trail a.steps n steps visits stop)
    (hsteps : ∀ v, .ok v ∈ steps → v.OfExpr) : ∃ m, p.Runs m steps () stop () := by
  induction ht with
  | done => exact ⟨0, .done⟩
  | fault f rest => exact ⟨0, .fault f rest⟩
  | @visit _ v rest _ _ _ _ _ ihb iha =>
    have hv : v.OfExpr := hsteps v (List.mem_cons_self ..)
    obtain ⟨m, hm⟩ := ihb fun w hw => Arena.ofExpr_of_mem_steps hv hw
    obtain ⟨k, hk⟩ := iha fun w hw => hsteps w (List.mem_cons_of_mem _ hw)
    exact ⟨max m k + 2, .visit ((h.runs_below hv hm).mono (by omega)) (hk.mono (by omega))⟩
  | @broken _ v rest _ f _ ih =>
    have hv : v.OfExpr := hsteps v (List.mem_cons_self ..)
    obtain ⟨m, hm⟩ := ih fun w hw => Arena.ofExpr_of_mem_steps hv hw
    exact ⟨m + 2, .broken (h.runs_below hv hm)⟩

theorem ends (h : p.Reports a source) {v : Visit} (hv : v.OfExpr)
    (hterm : a.Terminates [.visit v]) :
    (a.traverse p [.visit v] ()).1 ≠ .tooDeep ∧
      (a.traverse p [.visit v] ()).1.fault? = (a.traverse (bare a) [.visit v] ()).1.fault? := by
  obtain ⟨n, visits, stop, ht⟩ := hterm.exists_trail
  obtain ⟨m, hm⟩ := h.runs_of_trail ht (by simpa [Task.steps] using hv)
  obtain ⟨hend, hstop, -⟩ := hm.perform_eq
  rw [← traverse_eq] at hend hstop
  have hsame := p.follows_hook.traverse_eq_of_ends h.graded hend (Nat.le_refl a.depth)
  obtain ⟨-, hbare, -⟩ := (follows_bare a).trail_traverse ht (Nat.le_refl a.depth) ()
  simp only [Arena.traverse]
  rw [hsame, hbare]
  exact ⟨hend, hstop⟩

/-! ### Lists -/

theorem each_of_visits (h : p.Reports a source) {depth : Nat} (hle : depth ≤ a.depth)
    {ids : List ExprId} {parts : List (List α)}
    (hparts : List.Forall₂ (fun v part => ∃ s s', p.visit depth v s = (.ok part, s'))
      (ids.map .expr) parts) :
    List.Forall₂ (fun id x => (a.traverse p [.visit (.expr id)] ()).1 = .ok [x]) ids
      parts.flatten := by
  induction ids generalizing parts with
  | nil =>
    cases hparts
    exact .nil
  | cons id ids ih =>
    obtain _ | ⟨⟨s, s', hid⟩, hids⟩ := hparts
    obtain ⟨x, rfl⟩ := Gives.exists_of_single (visit_outputs h.out_step hid)
    have hdeeper := p.visit_of_le hle (.expr id) s (by rw [hid]; simp)
    refine .cons ?_ (ih hids)
    rw [Arena.traverse, traverse_visit, hdeeper, hid]

theorem perform_of_each {ids : List ExprId} {outs : List α}
    (h : List.Forall₂ (fun id x => (a.traverse p [.visit (.expr id)] ()).1 = .ok [x]) ids outs) :
    perform (p.visit a.depth) (exprSteps ids) () = (.ok outs, ()) := by
  induction h with
  | nil => rfl
  | @cons id x ids outs hid _ ih =>
    rw [Arena.traverse, traverse_visit] at hid
    have hvisit : p.visit a.depth (.expr id) () = (.ok [x], ()) := Prod.ext hid rfl
    change perform (p.visit a.depth) (.ok (.expr id) :: exprSteps ids) () = _
    simp [perform, hvisit, ih]

/-- A list gives the outputs of its elements in order. -/
theorem list_ok_iff (h : p.Reports a source) (r : ExprRange) (outs : List α) :
    (a.traverse p [.visit (.exprList r)] ()).1 = .ok outs ↔
      ∃ ids, a.list? r = some ids ∧
        List.Forall₂ (fun id x => (a.traverse p [.visit (.expr id)] ()).1 = .ok [x]) ids outs := by
  obtain ⟨hsame, hfinish⟩ := h.list r
  constructor
  · intro hrun
    rw [Arena.traverse, traverse_visit] at hrun
    cases hdepth : a.depth with
    | zero => simp [hdepth, visit] at hrun
    | succ depth =>
      have hvisit : p.visit (depth + 1) (.exprList r) () = (.ok outs, ()) :=
        Prod.ext (hdepth ▸ hrun) rfl
      rw [visit_eq, Outcome.andThen_eq_ok_iff] at hvisit
      obtain ⟨inner, mid, hinner, hlast⟩ := hvisit
      obtain rfl : inner = outs := by simpa [hfinish] using hlast
      obtain ⟨below, hsteps, parts, rfl, hparts⟩ := perform_eq_ok hinner
      obtain ⟨ids, hr, rfl⟩ := a.list_of_steps (hsame.symm.trans hsteps)
      exact ⟨ids, hr, h.each_of_visits (by omega) hparts⟩
  · rintro ⟨ids, hr, heach⟩
    have hlist : (p.hook (.exprList r) ()).1.steps = exprSteps ids :=
      hsame.trans (a.steps_listTasks_some hr)
    have hvisit : p.traverse (a.depth + 1) [.visit (.exprList r)] () = (.ok outs, ()) := by
      rw [traverse_visit, visit_eq, hlist, perform_of_each heach, Outcome.andThen_ok, hfinish]
    have hend : (p.traverse (a.depth + 1) [.visit (.exprList r)] ()).1 ≠ .tooDeep := by
      simp [hvisit]
    rw [Arena.traverse, p.follows_hook.traverse_eq_of_ends h.graded hend (Nat.le_refl a.depth), hvisit]

end Pass.Reports

/-! ### What the passes compute -/

/-- The pass ends on expressions and lists of them where the default traversal does, and in the same
way; where that gets through, its output for an expression is the one that `source` leads to; and
for a list it has the outputs of the elements, in order and one for each. -/
structure Pass.Computes {α : Type} (p : Pass Unit α) (a : Arena) (source : Expr.Form → Source α) :
    Prop where
  ends : ∀ v : Visit, v.OfExpr → a.Terminates [.visit v] →
    (a.traverse p [.visit v] ()).1 ≠ .tooDeep ∧
      (a.traverse p [.visit v] ()).1.map (fun _ => ()) =
        (a.traverse (bare a) [.visit v] ()).1.map fun _ => ()
  output : ∀ id outs, (a.traverse (bare a) [.visit (.expr id)] ()).1 = .ok outs →
    ∃ x, (a.traverse p [.visit (.expr id)] ()).1 = .ok [x] ∧
      ∀ y, Gives source a [id] [y] ↔ y = x
  list : ∀ r outs, (a.traverse p [.visit (.exprList r)] ()).1 = .ok outs ↔
    ∃ ids, a.list? r = some ids ∧
      List.Forall₂ (fun id x => (a.traverse p [.visit (.expr id)] ()).1 = .ok [x]) ids outs

theorem Outcome.map_unit_eq {α β : Type} {out : Outcome α} {out' : Outcome β}
    (h : out ≠ .tooDeep) (h' : out' ≠ .tooDeep) (hfault : out.fault? = out'.fault?) :
    out.map (fun _ => ()) = out'.map fun _ => () := by
  cases out <;> cases out' <;> simp_all [fault?, map]

theorem Pass.Reports.computes {α : Type} {p : Pass Unit α} {a : Arena}
    {source : Expr.Form → Source α} (h : p.Reports a source) : p.Computes a source where
  ends v hv hterm := by
    obtain ⟨hend, hfault⟩ := h.ends hv hterm
    have hbare := ((follows_bare a).terminates_iff (Nat.le_refl a.depth) ()).mpr hterm
    exact ⟨hend, Outcome.map_unit_eq hend hbare hfault⟩
  output id outs hbare := by
    have hterm : a.Terminates [.visit (.expr id)] := by
      refine ⟨a.depth, ?_⟩
      rw [← Arena.traverse, hbare]
      simp
    obtain ⟨hend, hfault⟩ := h.ends (v := .expr id) trivial hterm
    rw [hbare] at hfault
    obtain ⟨xs, hxs⟩ := Outcome.exists_ok_iff.mpr ⟨hend, hfault⟩
    have hvisit : p.visit a.depth (.expr id) () = (.ok xs, ()) := by
      rw [Arena.traverse, traverse_visit] at hxs
      exact Prod.ext hxs rfl
    have hgives : Gives source a [id] xs := visit_outputs h.out_step hvisit
    obtain ⟨x, rfl⟩ := hgives.exists_of_single
    exact ⟨x, hxs, fun y => ⟨fun hy => by simpa using hy.unique hgives, fun hy => hy ▸ hgives⟩⟩
  list := h.list_ok_iff

/-- The number of leaves and the text of an expression come from where they should, for every
arena; nothing below an expression whose output is not used is passed over. -/
theorem outputs_flow (a : Arena) (names : Interner) :
    (Pass.leafCount a).Computes a leafSource ∧
      (Pass.echo a names).Computes a (echoSource names) :=
  ⟨(Pass.leafCount_reports a).computes, (Pass.echo_reports a names).computes⟩

example :
    ((Pass.leafCount
      { Arena.empty with
        exprs := #[⟨.form (.var ⟨1⟩), .dummy⟩, ⟨.form (.const (.bool true)), .dummy⟩,
          ⟨.form (.cast ⟨1⟩ ⟨0⟩), .dummy⟩, ⟨.form (.shape ⟨0⟩), .dummy⟩,
          ⟨.form (.tuple ⟨0, 3⟩), .dummy⟩]
        operands := #[⟨0⟩, ⟨2⟩, ⟨3⟩] }).visit 12 (.expr ⟨4⟩) ()).1 = .ok [2] := by
  decide

end MergeForm
