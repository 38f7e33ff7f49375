import MergeForm.Proofs.Depth

/-! Observation.  Passes that make the same moves end alike, whatever they write down on the way,
and what one of them has written down can be told from what another has.  So no observer disturbs
the traversal, and each writes down a selection of what the recorder does. -/

namespace MergeForm

/-! ### Passes that move alike -/

namespace Pass

section

variable {σ τ α : Type} {R : σ → τ → Prop}

/-- The runs end in the same way, in related states. -/
structure EndAlike (R : σ → τ → Prop) {β : Type} (run : Outcome β × σ) (run' : Outcome β × τ) :
    Prop where
  outcome : run.1 = run'.1
  state : R run.2 run'.2

theorem EndAlike.andThen {β γ : Type} {run : Outcome β × σ} {run' : Outcome β × τ}
    {next : β → σ → Outcome γ × σ} {next' : β → τ → Outcome γ × τ} (h : EndAlike R run run')
    (hnext : ∀ x s t, R s t → EndAlike R (next x s) (next' x t)) :
    EndAlike R (Outcome.andThen run next) (Outcome.andThen run' next') := by
  rcases run with ⟨out, s⟩
  rcases run' with ⟨out', t⟩
  obtain ⟨rfl, hst⟩ : out = out' ∧ R s t := ⟨h.outcome, h.state⟩
  cases out with
  | ok x => exact hnext x s t hst
  | fault f => exact ⟨rfl, hst⟩
  | tooDeep => exact ⟨rfl, hst⟩

theorem EndAlike.perform {g : Visit → Visit} {go : Visit → σ → Outcome (List α) × σ}
    {go' : Visit → τ → Outcome (List α) × τ}
    (h : ∀ v s t, R s t → EndAlike R (go v s) (go' (g v) t)) (steps : List (Except Fault Visit)) :
    ∀ s t, R s t →
      EndAlike R (Pass.perform go steps s) (Pass.perform go' (steps.map (Except.map g)) t) := by
  induction steps with
  | nil => exact fun s t hst => ⟨rfl, hst⟩
  | cons step rest ih =>
    intro s t hst
    cases step with
    | error f => exact ⟨rfl, hst⟩
    | ok v =>
      exact (h v s t hst).andThen fun out s t hst =>
        (ih s t hst).andThen fun outs s t hst => ⟨rfl, hst⟩

/-- From related states, what `q` does at the visit that `g` makes of `v` is what `g` makes of what
`p` does at `v`, and they come to related states. -/
structure Matches (p : Pass σ α) (q : Pass τ α) (g : Visit → Visit) (R : σ → τ → Prop) : Prop where
  steps : ∀ v s t, R s t → (q.hook (g v) t).1.steps = (p.hook v s).1.steps.map (Except.map g)
  finish : ∀ v s t, R s t → (q.hook (g v) t).1.finish = (p.hook v s).1.finish
  state : ∀ v s t, R s t → R (p.hook v s).2 (q.hook (g v) t).2

namespace Matches

variable {p : Pass σ α} {q : Pass τ α} {g : Visit → Visit}

theorem visit (h : Matches p q g R) (depth : Nat) :
    ∀ v s t, R s t → EndAlike R (p.visit depth v s) (q.visit depth (g v) t) := by
  induction depth with
  | zero => exact fun v s t hst => ⟨rfl, hst⟩
  | succ depth ih =>
    intro v s t hst
    rw [visit_eq, visit_eq, h.steps v s t hst, h.finish v s t hst]
    exact (EndAlike.perform ih _ _ _ (h.state v s t hst)).andThen fun outs s t hst => ⟨rfl, hst⟩

theorem traverse (h : Matches p q g R) (depth : Nat) {tasks tasks' : List Task}
    (htasks : tasks'.flatMap Task.steps = (tasks.flatMap Task.steps).map (Except.map g)) {s : σ}
    {t : τ} (hst : R s t) : EndAlike R (p.traverse depth tasks s) (q.traverse depth tasks' t) := by
  rw [traverse_eq, traverse_eq, htasks]
  exact EndAlike.perform (h.visit depth) _ s t hst

end Matches

/-- From related states the passes make the same move at every visit and come to related states. -/
structure MovesAlike (p : Pass σ α) (q : Pass τ α) (R : σ → τ → Prop) : Prop where
  move : ∀ v s t, R s t → (p.hook v s).1 = (q.hook v t).1
  state : ∀ v s t, R s t → R (p.hook v s).2 (q.hook v t).2

namespace MovesAlike

variable {p : Pass σ α} {q : Pass τ α}

theorem map_id_steps (steps : List (Except Fault Visit)) : steps.map (Except.map id) = steps := by
  have hid : (Except.map id : Except Fault Visit → Except Fault Visit) = id := by
    funext step
    cases step <;> rfl
  rw [hid, List.map_id]

theorem toMatches (h : MovesAlike p q R) : Matches p q id R where
  steps v s t hst := by rw [map_id_steps, h.move v s t hst, id]
  finish v s t hst := by rw [h.move v s t hst, id]
  state := h.state

theorem traverse (h : MovesAlike p q R) (depth : Nat) (tasks : List Task) {s : σ} {t : τ}
    (hst : R s t) : EndAlike R (p.traverse depth tasks s) (q.traverse depth tasks t) :=
  h.toMatches.traverse depth (map_id_steps _).symm hst

end MovesAlike

end

/-! ### Observers and the recorder -/

theorem bare_movesAlike (a : Arena) :
    MovesAlike (bare a) (Recorder.full.pass a) fun _ _ => True where
  move v _ log := by simp [bare, Recorder.pass, Recorder.full]
  state _ _ _ _ := trivial

/-- What an observer has written down are the notes of the visits that the recorder has. -/
theorem observe_movesAlike {ε : Type} (a : Arena) (note : Visit → Option ε) :
    MovesAlike (observe a note) (Recorder.full.pass a)
      fun log visits => log.toList = visits.toList.filterMap note where
  move v _ log := by simp [observe, Recorder.pass, Recorder.full]
  state v log visits hlog := by
    cases hv : note v <;> simp [observe, Recorder.pass, Recorder.full, hv, hlog]

end Pass

theorem Recorder.run_full_eq {a : Arena} {tasks : List Task} (h : a.Terminates tasks) :
    full.run a tasks = (full.pass a).traverse a.depth tasks #[] :=
  Pass.traverse_of_le _ (full.depth_le a) tasks #[]
    (((follows_full a).terminates_iff (Nat.le_refl _) #[]).mpr h)

theorem Pass.endAlike_bare {a : Arena} {tasks : List Task} (h : a.Terminates tasks) :
    EndAlike (fun _ _ => True) (a.traverse (bare a) tasks ()) (Recorder.full.run a tasks) := by
  rw [Recorder.run_full_eq h]
  exact (bare_movesAlike a).traverse a.depth tasks trivial

theorem Pass.endAlike_observe {ε : Type} {a : Arena} {tasks : List Task} (h : a.Terminates tasks)
    (note : Visit → Option ε) :
    EndAlike (fun log visits => log.toList = visits.toList.filterMap note)
      (a.traverse (observe a note) tasks #[]) (Recorder.full.run a tasks) := by
  rw [Recorder.run_full_eq h]
  exact (observe_movesAlike a note).traverse a.depth tasks rfl

/-! ### What the counter and the trace select -/

/-- What an observer notes, if it has a note just at the visits of some hooks. -/
theorem map_filterMap_note {ε β : Type} {note : Visit → Option ε} {hooks : List Hook} {tell : ε → β}
    {say : Visit → β}
    (h : ∀ v, (note v).map tell = if v.hook ∈ hooks then some (say v) else none)
    (visits : List Visit) :
    (visits.filterMap note).map tell = (visits.filter fun v => v.hook ∈ hooks).map say := by
  induction visits with
  | nil => rfl
  | cons v visits ih =>
    have hv := h v
    rw [List.filterMap_cons, List.filter_cons]
    cases hn : note v <;> by_cases hh : v.hook ∈ hooks <;> simp_all

namespace Numbered

/-- The hooks of the visits by number. -/
def hooks : List Hook := [.expr, .target, .stmt]

def visit : Numbered → Visit
  | .expr id => .expr id
  | .target id => .target id
  | .stmt id => .stmt id

theorem map_visit_ofVisit? (v : Visit) :
    (ofVisit? v).map visit = if v.hook ∈ hooks then some v else none := by
  cases v with
  | stmtForm f => cases f <;> rfl
  | targetForm t => cases t <;> rfl
  | _ => rfl

end Numbered

/-- The hooks of the visits that a trace marks. -/
def Mark.hooks : List Hook :=
  [.exprForm .var, .exprForm .const, .comment, .mergeIf, .loopEntry, .loopRepeat, .phi]

/-- What a trace says of a visit that it marks. -/
def Visit.said (names : Interner) : Visit → String
  | .exprForm (.var n) => "var:" ++ names.lookup n
  | .exprForm (.const c) => "const:" ++ Mark.constText c
  | .stmtForm (.comment n) => "comment:" ++ names.lookup n
  | .mergeIf _ => "merge_if"
  | .loopEntry _ => "merge_start"
  | .loopRepeat _ => "merge_repeat"
  | .phi p => "phi:" ++ names.lookup p.name
  | _ => ""

theorem Mark.map_text_ofVisit? (names : Interner) (v : Visit) :
    (ofVisit? v).map (text names) = if v.hook ∈ hooks then some (v.said names) else none := by
  cases v with
  | stmtForm f => cases f <;> rfl
  | exprForm f => cases f <;> rfl
  | targetForm t => cases t <;> rfl
  | _ => rfl

/-- A default traversal that may end does so, and nobody who watches it disturbs it: the counter,
the trace and the recorder end as it does, with or without a fault.  The counter has written down
those visits of the record that are by number, and the trace what is said at those that it marks. -/
theorem observed_alike (a : Arena) (names : Interner) (tasks : List Task)
    (h : a.Terminates tasks) :
    (a.traverse (.bare a) tasks ()).1 ≠ .tooDeep ∧
      (Recorder.full.run a tasks).1 = (a.traverse (.bare a) tasks ()).1 ∧
      (a.traverse (.counter a) tasks #[]).1 = (a.traverse (.bare a) tasks ()).1 ∧
      (a.traverse (.trace a) tasks #[]).1 = (a.traverse (.bare a) tasks ()).1 ∧
      (a.traverse (.counter a) tasks #[]).2.toList.map Numbered.visit =
        (Recorder.full.run a tasks).2.toList.filter (fun v => v.hook ∈ Numbered.hooks) ∧
      (a.traverse (.trace a) tasks #[]).2.toList.map (Mark.text names) =
        ((Recorder.full.run a tasks).2.toList.filter fun v => v.hook ∈ Mark.hooks).map
          (Visit.said names) := by
  have hbare := Pass.endAlike_bare h
  have hcounter := Pass.endAlike_observe h Numbered.ofVisit?
  have htrace := Pass.endAlike_observe h Mark.ofVisit?
  refine ⟨((Pass.follows_bare a).terminates_iff (Nat.le_refl _) ()).mpr h, hbare.outcome.symm,
    hcounter.outcome.trans hbare.outcome.symm, htrace.outcome.trans hbare.outcome.symm, ?_, ?_⟩
  · rw [Pass.counter, hcounter.state, map_filterMap_note Numbered.map_visit_ofVisit?, List.map_id']
  · rw [Pass.trace, htrace.state, map_filterMap_note (Mark.map_text_ofVisit? names)]

/-- A loop around a comment.  The value that comes back under the one name of its merge map has
never been stored. -/
def loopLostValue : Arena :=
  { Arena.empty with
    exprs := #[⟨.form (.var ⟨1⟩), .dummy⟩, ⟨.form (.const (.bool true)), .dummy⟩]
    stmts := #[⟨.form (.comment ⟨2⟩), .dummy⟩, ⟨.form (.whileLoop ⟨1⟩ ⟨0, 1⟩ ⟨0, 1⟩), .dummy⟩]
    phis := #[⟨⟨1⟩, ⟨0⟩, ⟨7⟩⟩] }

/-- The trace stops where the traversal does, and has said what it met up to there. -/
theorem loopLostValue_observed :
    loopLostValue.Terminates [.visit (.stmt ⟨1⟩)] ∧
      (loopLostValue.traverse (.trace loopLostValue) [.visit (.stmt ⟨1⟩)] #[]).1 =
        .fault (.dangling (.expr ⟨7⟩)) ∧
      (loopLostValue.traverse (.counter loopLostValue) [.visit (.stmt ⟨1⟩)] #[]).2.toList.map
        Numbered.visit = [.stmt ⟨1⟩, .expr ⟨1⟩, .stmt ⟨0⟩, .expr ⟨0⟩, .expr ⟨7⟩] ∧
      (loopLostValue.traverse (.trace loopLostValue) [.visit (.stmt ⟨1⟩)] #[]).2.toList.map
        (Mark.text .fresh) =
          ["merge_start", "const:true", "comment:", "merge_repeat", "phi:", "var:"] := by
  have hends : loopLostValue.Terminates [.visit (.stmt ⟨1⟩)] := by
    refine ⟨16, ?_⟩
    rw [Pass.traverse_eq]
    decide
  obtain ⟨-, hrecord, -, htrace, hnumbers, hsaid⟩ :=
    observed_alike loopLostValue .fresh [.visit (.stmt ⟨1⟩)] hends
  have hrun : Recorder.full.run loopLostValue [.visit (.stmt ⟨1⟩)] =
      (.fault (.dangling (.expr ⟨7⟩)),
        #[.stmt ⟨1⟩, .stmtForm (.whileLoop ⟨1⟩ ⟨0, 1⟩ ⟨0, 1⟩), .loopEntry ⟨0, 1⟩, .expr ⟨1⟩,
          .exprForm (.const (.bool true)), .block ⟨0, 1⟩, .stmt ⟨0⟩, .stmtForm (.comment ⟨2⟩),
          .loopRepeat ⟨0, 1⟩, .merge ⟨0, 1⟩, .phi ⟨⟨1⟩, ⟨0⟩, ⟨7⟩⟩, .expr ⟨0⟩,
          .exprForm (.var ⟨1⟩), .expr ⟨7⟩]) := by
    rw [Recorder.run, Pass.traverse_eq]
    rfl
  rw [hrun] at hrecord hnumbers hsaid
  exact ⟨hends, htrace.trans hrecord.symm, hnumbers, hsaid⟩

end MergeForm
