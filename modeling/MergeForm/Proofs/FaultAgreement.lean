import Mathlib.Logic.Relation
import MergeForm.Proofs.Faults
import MergeForm.Proofs.MergeMaps
import MergeForm.Proofs.Observation
import MergeForm.Proofs.VarNames

/-! Agreement on faults.  The check of merge maps stops where the default traversal does.  The
collection of names comes to the same nodes by other ways: it goes through the values from before a
loop where the loop is entered, and through the elements of a tuple that is assigned to as targets.
So where it gets through, the default traversal does too; and where the default traversal gets
through, nothing but an element that is no target can stop it. -/

namespace MergeForm

/-! ### The check of merge maps -/

namespace MergeCheck

theorem bare_movesAlike (a : Arena) : Pass.MovesAlike (Pass.bare a) (pass a) fun _ _ => True where
  move v _ found _ := by cases v <;> rfl
  state _ _ _ _ := trivial

/-- The check ends as the default traversal does. -/
theorem checkMerges_map_unit (a : Arena) (f : Function) :
    (a.checkMerges f).map (fun _ => ()) =
      (a.traverse (Pass.bare a) [.visit (.function f)] ()).1.map fun _ => () := by
  have hrun := (bare_movesAlike a).traverse a.depth [.visit (.function f)] (s := ()) (t := #[])
    trivial
  rw [Arena.checkMerges_eq, Outcome.map_map, Arena.traverse, hrun.outcome]

end MergeCheck

namespace Outcome

variable {α β : Type} {out : Outcome α} {out' : Outcome β}

theorem fault_iff_of_map_unit (h : out.map (fun _ => ()) = out'.map fun _ => ()) (g : Fault) :
    out = .fault g ↔ out' = .fault g := by
  cases out <;> cases out' <;> simp_all [map]

theorem ok_iff_of_map_unit (h : out.map (fun _ => ()) = out'.map fun _ => ()) :
    (∃ x, out = .ok x) ↔ ∃ y, out' = .ok y := by
  cases out <;> cases out' <;> simp_all [map]

end Outcome

/-! ### From the collection of names to the default traversal -/

/-- The default traversal gets through below the visit; for a target, also where it is read. -/
def Visit.Passes (a : Arena) : Visit → Prop
  | .target id => Trail.Clears a.steps (.target id) ∧ Trail.Clears a.steps (.expr id)
  | .targetForm t => Trail.Clears a.steps (.exprForm t.form)
  | v => Trail.Clears a.steps v

namespace Visit

variable {a : Arena}

theorem Passes.clears {v : Visit} (h : v.Passes a) : Trail.Clears a.steps v := by
  cases v with
  | target id => exact h.1
  | targetForm t => exact .single rfl h
  | _ => exact h

theorem passes_targetForm {t : Expr.Target} {below : List Visit}
    (hsteps : VarSummary.steps a (.targetForm t) = below.map .ok)
    (h : ∀ w ∈ below, w.Passes a) : Passes a (.targetForm t) := by
  cases t with
  | var n => exact .intro [] rfl (by simp)
  | tuple r =>
    rw [VarSummary.steps_tuple] at hsteps
    cases hr : a.list? r with
    | none => cases below <;> simp [hr] at hsteps
    | some ids =>
      simp only [hr] at hsteps
      obtain rfl := Trail.map_ok_inj hsteps
      have hread : a.steps (.exprForm (.tuple r)) = (ids.map Visit.expr).map .ok := by
        rw [List.map_map]
        exact a.steps_listTasks_some hr
      refine .intro (ids.map .expr) hread fun w hw => ?_
      obtain ⟨id, hid, rfl⟩ := List.mem_map.mp hw
      exact (h (.target id) (List.mem_map_of_mem hid)).2
  | index v i =>
    obtain rfl : [.exprForm (.index v i)] = below := Trail.map_ok_inj hsteps
    exact h (.exprForm (.index v i)) (by simp)
  | «attribute» v n =>
    obtain rfl : [.exprForm (.attribute v n)] = below := Trail.map_ok_inj hsteps
    exact h (.exprForm (.attribute v n)) (by simp)

theorem passes_step (v : Visit) (below : List Visit)
    (hsteps : VarSummary.steps a v = below.map .ok) (h : ∀ w ∈ below, w.Passes a) :
    v.Passes a := by
  have byDefault (hv : a.steps v = below.map .ok) : Trail.Clears a.steps v :=
    .intro below hv fun w hw => (h w hw).clears
  cases v with
  | exprForm f =>
    by_cases hf : ∃ n, f = .var n
    · obtain ⟨n, rfl⟩ := hf
      exact .intro [] rfl (by simp)
    · exact byDefault ((VarSummary.steps_exprForm fun n hn => hf ⟨n, hn⟩).symm.trans hsteps)
  | target id =>
    obtain ⟨t, span, hs, rfl⟩ := a.target_of_steps hsteps
    have hform : Trail.Clears a.steps (.exprForm t.form) := h (.targetForm t) (by simp)
    refine ⟨byDefault hsteps, .single ?_ hform⟩
    rw [Arena.steps_expr, hs]
  | targetForm t => exact passes_targetForm hsteps h
  | loopEntry r => exact .intro [] rfl (by simp)
  | _ => exact byDefault hsteps

end Visit

/-- Where the collection of names gets through, so does the default traversal. -/
theorem Trail.bare_of_varSummary {a : Arena} {f : Function} {n : Nat} {visits : List Visit}
    (h : Trail (VarSummary.steps a) n [.ok (.function f)] visits none) :
    ∃ m log, Trail a.steps m [.ok (.function f)] log none := by
  have hclears : Clears a.steps (.function f) :=
    h.holds_of_below Visit.passes_step rfl (.function f) (by simp)
  exact exists_of_clears [.function f] (by simpa using hclears)

/-! ### From the default traversal to the collection of names -/

namespace VarSummary

/-- The collection of names ends below the visit. -/
def EndsAt (a : Arena) (v : Visit) : Prop := ∃ n, Ends (steps a) n v

theorem EndsAt.intro {a : Arena} {v : Visit} (h : ∀ w, .ok w ∈ steps a v → EndsAt a w) :
    EndsAt a v := by
  obtain ⟨n, visits, stop, ht⟩ := Ends.exists_trail h
  exact ⟨n, visits, stop, ht⟩

end VarSummary

open VarSummary (EndsAt) in
/-- The collection of names ends below the visit, and also where it comes to the same node by a way
of its own. -/
def Visit.Settles (a : Arena) : Visit → Prop
  | .expr id => EndsAt a (.expr id) ∧ EndsAt a (.target id)
  | .exprForm f => EndsAt a (.exprForm f) ∧ ∀ t : Expr.Target, t.form = f → EndsAt a (.targetForm t)
  | .merge r => EndsAt a (.merge r) ∧ EndsAt a (.loopEntry r)
  | .mergeIf r => EndsAt a (.mergeIf r) ∧ EndsAt a (.loopEntry r)
  | .loopRepeat r => EndsAt a (.loopRepeat r) ∧ EndsAt a (.loopEntry r)
  | .phi p => EndsAt a (.phi p) ∧ EndsAt a (.expr p.left)
  | .loopEntry _ => True
  | v => EndsAt a v

namespace Visit

open VarSummary (EndsAt)

variable {a : Arena}

theorem Settles.endsAt {v : Visit} (h : v.Settles a) (hv : ∀ r, v ≠ .loopEntry r) : EndsAt a v := by
  cases v with
  | expr id => exact h.1
  | exprForm f => exact h.1
  | merge r => exact h.1
  | mergeIf r => exact h.1
  | loopRepeat r => exact h.1
  | phi p => exact h.1
  | loopEntry r => exact absurd rfl (hv r)
  | _ => exact h

theorem Settles.of_below {v : Visit} {below : List Visit} (hsteps : a.steps v = below.map .ok)
    (h : ∀ w ∈ below, w.Settles a) {w : Visit} (hw : .ok w ∈ a.steps v) : w.Settles a :=
  h w (by simpa [hsteps] using hw)

/-- The collection of names ends where it goes as the default traversal does and enters no loop. -/
theorem endsAt_of_default {v : Visit} {below : List Visit} (hsteps : a.steps v = below.map .ok)
    (h : ∀ w ∈ below, w.Settles a) (hsub : VarSummary.steps a v ⊆ a.steps v)
    (hentry : ∀ r, .ok (.loopEntry r) ∉ a.steps v) : EndsAt a v := by
  refine .intro fun w hw => (Settles.of_below hsteps h (hsub hw)).endsAt ?_
  rintro r rfl
  exact hentry r (hsub hw)

theorem loopEntry_notMem_steps {v : Visit} (hv : ∀ f, v ≠ .stmtForm f) (r : PhiRange) :
    .ok (.loopEntry r) ∉ a.steps v := by
  intro hr
  obtain ⟨f, rfl, -⟩ := Arena.above_of_mem_steps hr
  exact hv f rfl

theorem settles_expr {id : ExprId} {below : List Visit}
    (hsteps : a.steps (.expr id) = below.map .ok) (h : ∀ w ∈ below, w.Settles a) :
    Settles a (.expr id) := by
  obtain ⟨f, span, hs, rfl⟩ := a.expr_of_steps hsteps
  obtain ⟨hread, hassigned⟩ : Settles a (.exprForm f) := h (.exprForm f) (by simp)
  refine ⟨.intro fun w hw => ?_, .intro fun w hw => ?_⟩
  · obtain ⟨f', span', hs', rfl⟩ := Arena.ok_mem_steps_expr.mp hw
    obtain ⟨rfl, -⟩ : f = f' ∧ span = span' := by simpa [hs] using hs'
    exact hread
  · obtain ⟨t, span', hs', rfl⟩ := Arena.ok_mem_steps_target.mp hw
    obtain ⟨rfl, -⟩ : f = t.form ∧ span = span' := by simpa [hs] using hs'
    exact hassigned t rfl

theorem settles_exprForm {f : Expr.Form} {below : List Visit}
    (hsteps : a.steps (.exprForm f) = below.map .ok) (h : ∀ w ∈ below, w.Settles a) :
    Settles a (.exprForm f) := by
  have hread : EndsAt a (.exprForm f) :=
    endsAt_of_default hsteps h (VarSummary.steps_exprForm_subset a f)
      (loopEntry_notMem_steps (by simp))
  refine ⟨hread, fun t ht => .intro fun w hw => ?_⟩
  subst ht
  cases Under.of_varSummary hw with
  | step hw =>
    obtain rfl : w = .exprForm t.form := by simpa [Arena.steps_targetForm] using hw
    exact hread
  | element hr hid => exact (Settles.of_below hsteps h (a.ok_mem_steps_tuple hr hid)).2

theorem settles_merge {r : PhiRange} {below : List Visit}
    (hsteps : a.steps (.merge r) = below.map .ok) (h : ∀ w ∈ below, w.Settles a) :
    Settles a (.merge r) := by
  refine ⟨endsAt_of_default hsteps h (List.Subset.refl _) (loopEntry_notMem_steps (by simp)),
    .intro fun w hw => ?_⟩
  cases Under.of_varSummary hw with
  | step hw => simp [Arena.steps, Arena.plan] at hw
  | entered hr hp =>
    have hphi := Arena.ok_mem_steps_merge.mpr ⟨_, _, hr, hp, rfl⟩
    exact (Settles.of_below hsteps h hphi).2

/-- A statement comes to its merge map in the end, and where it enters a loop with that map, all
values from before the loop are among those that are gone through then. -/
theorem settles_stmtForm {f : Stmt.Form} {below : List Visit}
    (hsteps : a.steps (.stmtForm f) = below.map .ok) (h : ∀ w ∈ below, w.Settles a) :
    Settles a (.stmtForm f) := by
  refine EndsAt.intro fun w hw => ?_
  have hw' : .ok w ∈ a.steps (.stmtForm f) := hw
  by_cases hentry : ∃ r, w = .loopEntry r
  · obtain ⟨r, rfl⟩ := hentry
    obtain ⟨_, hf, hmerge⟩ := Arena.above_of_mem_steps hw'
    cases hf
    -- The map is not below the entry in the default traversal, but below the way back.
    obtain ⟨v, hv, hbelow⟩ := a.merge_below_stmtForm hmerge
    have hsettles := Settles.of_below hsteps h hv
    rcases Arena.above_of_mem_steps hbelow with rfl | rfl
    · exact hsettles.2
    · exact hsettles.2
  · exact (Settles.of_below hsteps h hw').endsAt fun r hr => hentry ⟨r, hr⟩

theorem settles_step (v : Visit) (below : List Visit) (hsteps : a.steps v = below.map .ok)
    (h : ∀ w ∈ below, w.Settles a) : v.Settles a := by
  have ends (hv : ∀ f, v ≠ .stmtForm f) (hsub : VarSummary.steps a v ⊆ a.steps v) : EndsAt a v :=
    endsAt_of_default hsteps h hsub (loopEntry_notMem_steps hv)
  cases v with
  | stmtForm f => exact settles_stmtForm hsteps h
  | expr id => exact settles_expr hsteps h
  | exprForm f => exact settles_exprForm hsteps h
  | targetForm t =>
    have hform : Settles a (.exprForm t.form) :=
      Settles.of_below hsteps h (List.mem_singleton_self _)
    exact hform.2 t rfl
  | merge r => exact settles_merge hsteps h
  | mergeIf r =>
    have hmerge : Settles a (.merge r) := Settles.of_below hsteps h (List.mem_singleton_self _)
    exact ⟨ends (by simp) (List.Subset.refl _), hmerge.2⟩
  | loopRepeat r =>
    have hmerge : Settles a (.merge r) := Settles.of_below hsteps h (List.mem_singleton_self _)
    exact ⟨ends (by simp) (List.Subset.refl _), hmerge.2⟩
  | loopEntry r => trivial
  | phi p =>
    have hleft : Settles a (.expr p.left) := Settles.of_below hsteps h (a.left_mem_steps_phi p)
    exact ⟨ends (by simp) (List.Subset.refl _), hleft.1⟩
  | _ => exact ends (by simp) (List.Subset.refl _)

end Visit

/-- Where the default traversal gets through, the collection of names ends. -/
theorem Trail.varSummary_ends {a : Arena} {f : Function} {n : Nat} {log : List Visit}
    (h : Trail a.steps n [.ok (.function f)] log none) :
    ∃ m visits stop, Trail (VarSummary.steps a) m [.ok (.function f)] visits stop := by
  have hends : VarSummary.EndsAt a (.function f) :=
    h.holds_of_below Visit.settles_step rfl (.function f) (by simp)
  refine Ends.exists_trail fun v hv => ?_
  obtain rfl : v = .function f := by simpa using hv
  exact hends

/-! ### What can stop the collection of names -/

/-- The expression `x` is a tuple with `y` among its elements. -/
def Arena.HasElement (a : Arena) (x y : ExprId) : Prop :=
  ∃ r span ids, a.expr? x = some ⟨.form (.tuple r), span⟩ ∧ a.list? r = some ids ∧ y ∈ ids

/-- The expression `y` lies within a tuple among the targets of `log`. -/
def Arena.WithinTarget (a : Arena) (log : List Visit) (y : ExprId) : Prop :=
  ∃ x, .target x ∈ log ∧ Relation.TransGen a.HasElement x y

/-- The collection of names may come to the visit, where the default traversal makes the visits
`log`: the visit is one of these, or it is that of a target within a tuple, and then the default
traversal reads the same expression. -/
inductive Visit.Comes (a : Arena) (log : List Visit) : Visit → Prop
  | visited {v : Visit} : v ∈ log → Comes a log v
  | target {y : ExprId} : a.WithinTarget log y → .expr y ∈ log → Comes a log (.target y)
  | targetForm {y : ExprId} {t : Expr.Target} {span : Span} : a.WithinTarget log y →
    .expr y ∈ log → a.expr? y = some ⟨.form t.form, span⟩ → Comes a log (.targetForm t)

section

variable {a : Arena} {f : Function} {n : Nat} {log : List Visit}

theorem Arena.WithinTarget.element {x y : ExprId} (h : a.WithinTarget log x)
    (hy : a.HasElement x y) : a.WithinTarget log y := by
  obtain ⟨z, hz, hx⟩ := h
  exact ⟨z, hz, hx.tail hy⟩

namespace Trail

/-- The default traversal reads what is assigned to. -/
theorem exprForm_of_targetForm (h : Trail a.steps n [.ok (.function f)] log none) {t : Expr.Target}
    (ht : .targetForm t ∈ log) : .exprForm t.form ∈ log :=
  h.mem_of_mem_next ht (List.mem_singleton_self _)

theorem exprForm_of_expr (h : Trail a.steps n [.ok (.function f)] log none) {y : ExprId}
    {g : Expr.Form} {span : Span} (hy : .expr y ∈ log) (hs : a.expr? y = some ⟨.form g, span⟩) :
    .exprForm g ∈ log :=
  h.mem_of_mem_next hy (Arena.ok_mem_steps_expr.mpr ⟨g, span, hs, rfl⟩)

theorem expr_of_element (h : Trail a.steps n [.ok (.function f)] log none) {r : ExprRange}
    {ids : List ExprId} {y : ExprId} (hr : .exprForm (.tuple r) ∈ log) (hids : a.list? r = some ids)
    (hy : y ∈ ids) : .expr y ∈ log :=
  h.mem_of_mem_next hr (a.ok_mem_steps_tuple hids hy)

/-- A loop that is entered comes back in the end, and its map is gone through then. -/
theorem expr_of_loopEntry (h : Trail a.steps n [.ok (.function f)] log none) {r : PhiRange}
    {phis : List Phi} {p : Phi} (hr : .loopEntry r ∈ log) (hphis : a.merge? r = some phis)
    (hp : p ∈ phis) : .expr p.left ∈ log := by
  rcases h.above hr with h' | ⟨_, hform, g, rfl, hg⟩
  · cases h'
  obtain ⟨v, hv, hmerge⟩ := a.merge_below_stmtForm hg
  have hmap : .merge r ∈ log := h.mem_of_mem_next (h.mem_of_mem_next hform hv) hmerge
  have hphi : .phi p ∈ log :=
    h.mem_of_mem_next hmap (Arena.ok_mem_steps_merge.mpr ⟨phis, p, hphis, hp, rfl⟩)
  exact h.mem_of_mem_next hphi (a.left_mem_steps_phi p)

theorem comes_step (h : Trail a.steps n [.ok (.function f)] log none) (v w : Visit)
    (hv : v.Comes a log) (hw : .ok w ∈ VarSummary.steps a v) : w.Comes a log := by
  cases Visit.Under.of_varSummary hw with
  | step hw =>
    cases hv with
    | visited hv => exact .visited (h.mem_of_mem_next hv hw)
    | target hy hread =>
      obtain ⟨t, span, hs, rfl⟩ := Arena.ok_mem_steps_target.mp hw
      exact .targetForm hy hread hs
    | @targetForm y t span hy hread hs =>
      obtain rfl : w = .exprForm t.form := by simpa [Arena.steps_targetForm] using hw
      exact .visited (h.exprForm_of_expr hread hs)
  | @element r ids y hr hy =>
    -- The default traversal reads the tuple as well, and thereby its elements.
    cases hv with
    | visited hv =>
      rcases h.above hv with h' | ⟨_, hx, x, span, rfl, hs⟩
      · cases h'
      · exact .target ⟨x, hx, .single ⟨r, span, ids, hs, hr, hy⟩⟩
          (h.expr_of_element (h.exprForm_of_targetForm hv) hr hy)
    | @targetForm x _ span hx hread hs =>
      exact .target (hx.element ⟨r, span, ids, hs, hr, hy⟩)
        (h.expr_of_element (h.exprForm_of_expr hread hs) hr hy)
  | entered hr hp =>
    cases hv with
    | visited hv => exact .visited (h.expr_of_loopEntry hv hr hp)

/-- Below the visits that the collection of names comes to, the one fault there can be is that an
expression within a tuple is no target. -/
theorem fault_of_comes (h : Trail a.steps n [.ok (.function f)] log none) {v : Visit}
    (hv : v.Comes a log) {g : Fault} (hg : .error g ∈ VarSummary.steps a v) :
    ∃ k y span, g = .notTarget k.tag y span ∧ a.expr? y = some ⟨.form k, span⟩ ∧
      k.target? = none ∧ a.WithinTarget log y := by
  have resolved {r : ExprRange} (hr : .exprForm (.tuple r) ∈ log) : a.list? r ≠ none :=
    h.list_resolves hr rfl
  cases hv with
  | visited hv =>
    rcases VarSummary.error_mem_steps hg with hg | ⟨r, rfl, hr⟩ | ⟨r, rfl, hr⟩
    · exact absurd hg (h.error_notMem_next hv g)
    · exact absurd hr (resolved (h.exprForm_of_targetForm hv))
    · rcases h.above hv with h' | ⟨_, hform, k, rfl, hk⟩
      · cases h'
      · exact absurd hr (h.merge_resolves hform hk)
  | @target y hy hread =>
    obtain ⟨k, span, hs, -⟩ := h.sound hread
    have hg' : .error g ∈ a.steps (.target y) := hg
    rw [a.steps_target, hs] at hg'
    cases hk : k.target? with
    | some t => simp [hk] at hg'
    | none => exact ⟨k, y, span, by simpa [hk] using hg', hs, hk, hy⟩
  | @targetForm y t span hy hread hs =>
    rcases VarSummary.error_mem_steps hg with hg | ⟨r, ht, hr⟩ | ⟨r, ht, -⟩
    · simp [Arena.steps_targetForm] at hg
    · cases ht
      exact absurd hr (resolved (h.exprForm_of_expr hread hs))
    · cases ht

end Trail

/-- Where the default traversal gets through, the collection of names does too, or it stops at an
expression within a tuple that is no target. -/
theorem Trail.collectVars_ends (h : Trail a.steps n [.ok (.function f)] log none) :
    (∃ s, a.collectVars f = .ok s) ∨
      ∃ g id span, a.collectVars f = .fault (.notTarget g.tag id span) ∧
        a.expr? id = some ⟨.form g, span⟩ ∧ g.target? = none ∧ a.WithinTarget log id := by
  obtain ⟨m, visits, stop, ht⟩ := h.varSummary_ends
  have ht' : Trail (VarSummary.steps a) m ([Task.visit (.function f)].flatMap Task.steps) visits
    stop := ht
  obtain ⟨hend, hstop, -⟩ := (VarSummary.follows a).trail_traverse_of_graded (VarSummary.graded a)
    ht' (Nat.le_refl _) .empty
  rw [Arena.collectVars_eq]
  cases stop with
  | none =>
    obtain ⟨outs, houts⟩ := Outcome.exists_ok_iff.mpr ⟨hend, hstop⟩
    exact .inl ⟨_, by rw [houts, Outcome.map]⟩
  | some g =>
    have hroot (v : Visit) (hv : Except.ok v ∈ [Except.ok (Visit.function f)]) : v.Comes a log :=
      .visited (h.mem_of_mem_steps hv)
    rcases ht.fault_origin h.comes_step hroot rfl with hfirst | ⟨v, hv, hg⟩
    · simp at hfirst
    · obtain ⟨k, y, span, rfl, hs, hk, hy⟩ := h.fault_of_comes hv hg
      refine .inr ⟨k, y, span, ?_, hs, hk, hy⟩
      rw [Outcome.fault?_eq_some_iff.mp hstop, Outcome.map]

end

/-! ### The analyses and the default traversal -/

/-- The check of merge maps stops with a fault just where the default traversal does, and with the
same one; it gets through just where that does.  Where names are collected without a fault, both get
through.  Where the check gets through, the collection of names does so too, or it stops at a form
that is no target and lies within a tuple that the default traversal visits as a target; so nothing
that is missing and no placeholder stops it. -/
theorem analyses_agree_on_faults (a : Arena) (f : Function) :
    ((∀ g, a.checkMerges f = .fault g ↔
        (a.traverse (Pass.bare a) [.visit (.function f)] ()).1 = .fault g) ∧
      ((∃ problems, a.checkMerges f = .ok problems) ↔
        ∃ outs, (a.traverse (Pass.bare a) [.visit (.function f)] ()).1 = .ok outs)) ∧
      (∀ s, a.collectVars f = .ok s →
        (∃ outs, (a.traverse (Pass.bare a) [.visit (.function f)] ()).1 = .ok outs) ∧
          ∃ problems, a.checkMerges f = .ok problems) ∧
      ∀ problems, a.checkMerges f = .ok problems →
        (∃ s, a.collectVars f = .ok s) ∨
          ∃ g id span, a.collectVars f = .fault (.notTarget g.tag id span) ∧
            a.expr? id = some ⟨.form g, span⟩ ∧ g.target? = none ∧
              a.WithinTarget (Recorder.full.run a [.visit (.function f)]).2.toList id := by
  have hcheck := MergeCheck.checkMerges_map_unit a f
  have hok := Outcome.ok_iff_of_map_unit hcheck
  refine ⟨⟨Outcome.fault_iff_of_map_unit hcheck, hok⟩, fun s hs => ?_, fun problems hp => ?_⟩
  · obtain ⟨n, visits, ht, -⟩ := VarSummary.collectVars_ok_iff_trail.mp hs
    have hbare : ∃ outs, (a.traverse (Pass.bare a) [.visit (.function f)] ()).1 = .ok outs :=
      Pass.bare_ok_iff.mpr ht.bare_of_varSummary
    exact ⟨hbare, hok.mpr hbare⟩
  · obtain ⟨n, log, ht⟩ := Pass.bare_ok_iff.mp (hok.mp ⟨problems, hp⟩)
    have hlog : (Recorder.full.run a [.visit (.function f)]).2.toList = log := by
      rw [(Recorder.trail_run ht).2.2]
    rw [hlog]
    exact Trail.collectVars_ends ht

/-- Two statements on a pair of a variable and a constant, of which the first assigns to it and the
second evaluates it. -/
def constantInTarget : Arena :=
  { Arena.empty with
    exprs := #[⟨.form (.var ⟨1⟩), .dummy⟩, ⟨.form (.const (.bool true)), .dummy⟩,
      ⟨.form (.tuple ⟨0, 2⟩), .dummy⟩]
    operands := #[⟨0⟩, ⟨1⟩]
    stmts := #[⟨.form (.assign ⟨2⟩ ⟨0⟩), .dummy⟩, ⟨.form (.eval ⟨2⟩), .dummy⟩] }

/-- Only the collection of names stops at the constant, and only in the assignment. -/
theorem constantInTarget_stops :
    (∃ problems, constantInTarget.checkMerges ⟨⟨3⟩, .untyped, [], ⟨1, 1⟩, .dummy⟩ = .ok problems) ∧
      constantInTarget.checkMerges ⟨⟨3⟩, .untyped, [], ⟨0, 1⟩, .dummy⟩ = .ok #[] ∧
      constantInTarget.WithinTarget (Recorder.full.run constantInTarget
        [.visit (.function ⟨⟨3⟩, .untyped, [], ⟨0, 1⟩, .dummy⟩)]).2.toList ⟨1⟩ := by
  have heval : constantInTarget.collectVars ⟨⟨3⟩, .untyped, [], ⟨1, 1⟩, .dummy⟩ =
      .ok (VarSummary.summarize [.use ⟨1⟩]) := by
    simp only [Arena.collectVars, VarSummary.run, Pass.traverse_eq]
    rfl
  have hassign : constantInTarget.collectVars ⟨⟨3⟩, .untyped, [], ⟨0, 1⟩, .dummy⟩ =
      .fault (.notTarget .const ⟨1⟩ .dummy) := by
    simp only [Arena.collectVars, VarSummary.run, Pass.traverse_eq]
    rfl
  have hcheck : constantInTarget.checkMerges ⟨⟨3⟩, .untyped, [], ⟨0, 1⟩, .dummy⟩ = .ok #[] := by
    simp only [Arena.checkMerges, MergeCheck.run, Pass.traverse_eq]
    rfl
  obtain ⟨-, hvars, -⟩ :=
    analyses_agree_on_faults constantInTarget ⟨⟨3⟩, .untyped, [], ⟨1, 1⟩, .dummy⟩
  obtain ⟨-, -, hmerges⟩ :=
    analyses_agree_on_faults constantInTarget ⟨⟨3⟩, .untyped, [], ⟨0, 1⟩, .dummy⟩
  refine ⟨(hvars _ heval).2, hcheck, ?_⟩
  rcases hmerges _ hcheck with ⟨s, hs⟩ | ⟨g, id, span, hfault, -, -, hwithin⟩
  · simp [hassign] at hs
  · obtain ⟨-, rfl, -⟩ : .const = g.tag ∧ ⟨1⟩ = id ∧ .dummy = span := by
      simpa [hassign] using hfault
    exact hwithin

end MergeForm
