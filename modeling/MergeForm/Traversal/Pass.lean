import MergeForm.Traversal.Plan

/-! Passes over an arena.  A pass answers each visit with a move: what to do below it and what to
make of the outputs from there, and it may change its state on the way.  `Pass.visit` is the meaning
of a pass: the visits nest as the moves say, the first fault ends everything, and a nest deeper than
a given bound is reported as such. -/

namespace MergeForm

inductive Outcome (α : Type)
  | ok (a : α)
  | fault (f : Fault)
  /-- The visits nest deeper than the bound. -/
  | tooDeep
  deriving DecidableEq

namespace Outcome

variable {σ α β : Type}

def map (g : α → β) : Outcome α → Outcome β
  | .ok a => .ok (g a)
  | .fault f => .fault f
  | .tooDeep => .tooDeep

/-- Goes on with the result and the state, unless the traversal has ended early. -/
def andThen (run : Outcome α × σ) (next : α → σ → Outcome β × σ) : Outcome β × σ :=
  match run with
  | (.ok a, s) => next a s
  | (.fault f, s) => (.fault f, s)
  | (.tooDeep, s) => (.tooDeep, s)

variable (s : σ) (next : α → σ → Outcome β × σ)

@[simp] theorem andThen_ok (a : α) : andThen (.ok a, s) next = next a s := rfl

@[simp] theorem andThen_fault (f : Fault) : andThen (.fault f, s) next = (.fault f, s) := rfl

@[simp] theorem andThen_tooDeep : andThen (.tooDeep, s) next = (.tooDeep, s) := rfl

end Outcome

/-- The answer to a visit. -/
structure Move (α : Type) where
  tasks : List Task
  finish : List α → List α

namespace Move

/-- A move that does nothing below the visit and gives out `outs`. -/
def leaf {α : Type} (outs : List α) : Move α := ⟨[], fun _ => outs⟩

def steps {α : Type} (m : Move α) : List (Except Fault Visit) := m.tasks.flatMap Task.steps

end Move

/-- The default answer to a visit, with `blank` as the output of a lost expression. -/
def Arena.move {α : Type} (a : Arena) (blank : α) (v : Visit) : Move α :=
  ⟨a.plan v, v.yield.apply blank⟩

/-- The answer that does nothing below a visit: an expression gives out the blank output, a list
none. -/
def Visit.cut {α : Type} (blank : α) : Visit → Move α
  | .expr _ | .exprForm _ | .target _ | .targetForm _ => .leaf [blank]
  | _ => .leaf []

/-- A way to answer visits, with a state and outputs. -/
structure Pass (σ α : Type) where
  hook : Visit → σ → Move α × σ

namespace Pass

variable {σ α : Type}

/-- The steps in order, each visit made by `go`, with all their outputs. -/
def perform (go : Visit → σ → Outcome (List α) × σ) :
    List (Except Fault Visit) → σ → Outcome (List α) × σ
  | [], s => (.ok [], s)
  | .error f :: _, s => (.fault f, s)
  | .ok v :: rest, s =>
    Outcome.andThen (go v s) fun out s =>
      Outcome.andThen (perform go rest s) fun outs s => (.ok (out ++ outs), s)

/-- The visit `v` in state `s`, with visits nested at most `depth` deep. -/
def visit (p : Pass σ α) : Nat → Visit → σ → Outcome (List α) × σ
  | 0, _, s => (.tooDeep, s)
  | depth + 1, v, s =>
    let (m, s) := p.hook v s
    Outcome.andThen (perform (p.visit depth) m.steps s) fun outs s => (.ok (m.finish outs), s)

/-- A visit is its move, what is done below it, and what is made of the outputs. -/
theorem visit_eq (p : Pass σ α) (depth : Nat) (v : Visit) (s : σ) :
    p.visit (depth + 1) v s =
      Outcome.andThen (perform (p.visit depth) (p.hook v s).1.steps (p.hook v s).2)
        fun outs s' => (.ok ((p.hook v s).1.finish outs), s') := rfl

/-! ### A larger bound -/

/-- What two ways to make visits agree on wherever the first is deep enough. -/
theorem perform_congr {go go' : Visit → σ → Outcome (List α) × σ}
    (agree : ∀ v s, (go v s).1 ≠ .tooDeep → go' v s = go v s) :
    ∀ (steps : List (Except Fault Visit)) (s : σ), (perform go steps s).1 ≠ .tooDeep →
      perform go' steps s = perform go steps s := by
  intro steps
  induction steps with
  | nil => intro s _; rfl
  | cons step rest ih =>
    intro s h
    cases step with
    | error f => rfl
    | ok v =>
      simp only [perform] at h ⊢
      have hv : (go v s).1 ≠ .tooDeep := fun hv => by
        rcases hg : go v s with ⟨_ | _ | _, t⟩ <;> simp_all
      rw [agree v s hv]
      rcases hg : go v s with ⟨out | f | _, t⟩
      · simp only [hg, Outcome.andThen_ok] at h ⊢
        have hr : (perform go rest t).1 ≠ .tooDeep := fun hr => by
          rcases hp : perform go rest t with ⟨_ | _ | _, u⟩ <;> simp_all
        rw [ih t hr]
      · rfl
      · rfl

/-- A visit that ends within a bound ends the same way within a larger one. -/
theorem visit_succ (p : Pass σ α) (depth : Nat) : ∀ (v : Visit) (s : σ),
    (p.visit depth v s).1 ≠ .tooDeep → p.visit (depth + 1) v s = p.visit depth v s := by
  induction depth with
  | zero => intro v s h; exact absurd rfl h
  | succ depth ih =>
    intro v s h
    rw [visit_eq] at h
    have hm : (perform (p.visit depth) (p.hook v s).1.steps (p.hook v s).2).1 ≠ .tooDeep :=
      fun hm => by
        rcases hp : perform (p.visit depth) (p.hook v s).1.steps (p.hook v s).2 with
          ⟨_ | _ | _, t⟩ <;> simp_all
    rw [visit_eq, visit_eq, perform_congr ih _ _ hm]

theorem visit_of_le (p : Pass σ α) {depth depth' : Nat} (hle : depth ≤ depth') (v : Visit) (s : σ)
    (h : (p.visit depth v s).1 ≠ .tooDeep) : p.visit depth' v s = p.visit depth v s := by
  induction hle with
  | refl => rfl
  | step _ ih => rw [visit_succ p _ v s (by rw [ih]; exact h), ih]

end Pass

/-- A bound on the nesting of visits over `a`.  Of the visits that lie in one another no two are
alike in a traversal that ends, and the visits of one function, one statement or one expression that
lie directly in one another are fewer than eight; each number is counted twice, once as an operand
and once as an assignment target. -/
def Arena.depth (a : Arena) : Nat :=
  (a.functions.size + 2) * (16 * (a.exprs.size + a.stmts.size + 2))

end MergeForm
