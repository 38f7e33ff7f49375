import MergeForm.Traversal.Stack

/-! What a pass does to its state.  A run is told without the outputs of the pass and without the
bound as a reason to end: from which state to which it leads, and which fault ends it, if any. -/

namespace MergeForm

namespace Outcome

variable {σ α β : Type}

theorem map_map {γ : Type} (g : β → γ) (f : α → β) (out : Outcome α) :
    (out.map f).map g = out.map fun x => g (f x) := by
  cases out <;> rfl

/-- The fault that ended a traversal, if one did. -/
def fault? : Outcome α → Option Fault
  | .fault f => some f
  | _ => none

theorem fault?_eq_some_iff {out : Outcome α} {f : Fault} :
    out.fault? = some f ↔ out = .fault f := by
  cases out <;> simp [fault?]

theorem exists_ok_iff {out : Outcome α} :
    (∃ x, out = .ok x) ↔ out ≠ .tooDeep ∧ out.fault? = none := by
  cases out <;> simp [fault?]

theorem ends_of_andThen {run : Outcome α × σ} {next : α → σ → Outcome β × σ}
    (h : (andThen run next).1 ≠ .tooDeep) : run.1 ≠ .tooDeep := by
  rcases run with ⟨_ | _ | _, s⟩
  · simp
  · simp
  · exact absurd rfl h

theorem andThen_eq_ok_iff {run : Outcome α × σ} {next : α → σ → Outcome β × σ} {b : β} {s : σ} :
    andThen run next = (.ok b, s) ↔ ∃ a mid, run = (.ok a, mid) ∧ next a mid = (.ok b, s) := by
  rcases run with ⟨a | _ | _, t⟩
  · refine ⟨fun h => ⟨a, t, rfl, h⟩, ?_⟩
    rintro ⟨a', mid, hrun, h⟩
    obtain ⟨rfl, rfl⟩ : a = a' ∧ t = mid := by simpa using hrun
    exact h
  · simp
  · simp

theorem state_of_andThen {P : σ → Prop} {run : Outcome α × σ} {next : α → σ → Outcome β × σ}
    (hrun : P run.2) (hnext : ∀ a s, P s → P (next a s).2) : P (andThen run next).2 := by
  rcases run with ⟨_ | _ | _, s⟩
  · exact hnext _ s hrun
  · exact hrun
  · exact hrun

/-! What is made of the outputs at the end changes neither the end nor the state. -/

variable (run : Outcome α × σ) (finish : α → β)

@[simp] theorem andThen_finish_eq_tooDeep :
    (andThen run fun a s => (.ok (finish a), s)).1 = .tooDeep ↔ run.1 = .tooDeep := by
  rcases run with ⟨_ | _ | _, s⟩ <;> simp

@[simp] theorem fault?_andThen_finish :
    (andThen run fun a s => (.ok (finish a), s)).1.fault? = run.1.fault? := by
  rcases run with ⟨_ | _ | _, s⟩ <;> rfl

@[simp] theorem state_andThen_finish :
    (andThen run fun a s => (.ok (finish a), s)).2 = run.2 := by
  rcases run with ⟨_ | _ | _, s⟩ <;> rfl

end Outcome

namespace Pass

variable {σ α : Type}

/-- What ends within a bound ends the same way within a larger one. -/
theorem traverse_of_le (p : Pass σ α) {depth depth' : Nat} (hle : depth ≤ depth')
    (tasks : List Task) (s : σ) (h : (p.traverse depth tasks s).1 ≠ .tooDeep) :
    p.traverse depth' tasks s = p.traverse depth tasks s := by
  rw [traverse_eq] at h
  rw [traverse_eq, traverse_eq]
  exact perform_congr (fun v s hv => p.visit_of_le hle v s hv) _ s h

theorem perform_keeps {P : σ → Prop} {go : Visit → σ → Outcome (List α) × σ}
    (step : ∀ v s, P s → P (go v s).2) :
    ∀ (steps : List (Except Fault Visit)) (s : σ), P s → P (perform go steps s).2
  | [], _, hs => hs
  | .error _ :: _, _, hs => hs
  | .ok v :: rest, s, hs =>
    Outcome.state_of_andThen (step v s hs) fun _ t ht =>
      Outcome.state_of_andThen (perform_keeps step rest t ht) fun _ _ hu => hu

/-- What every hook keeps of its state, a visit keeps, however it ends. -/
theorem visit_keeps {p : Pass σ α} {P : σ → Prop} (step : ∀ v s, P s → P (p.hook v s).2)
    (depth : Nat) : ∀ (v : Visit) (s : σ), P s → P (p.visit depth v s).2 := by
  induction depth with
  | zero => exact fun v s hs => hs
  | succ depth ih =>
    intro v s hs
    rw [visit_eq, Outcome.state_andThen_finish]
    exact perform_keeps ih _ _ (step v s hs)

/-- With visits nested at most `depth` deep, the steps lead the pass from one state to another and
end in the given fault, if in any. -/
inductive Runs (p : Pass σ α) : Nat → List (Except Fault Visit) → σ → Option Fault → σ → Prop
  | done {depth : Nat} {s : σ} : Runs p depth [] s none s
  | fault {depth : Nat} {s : σ} (f : Fault) (rest : List (Except Fault Visit)) :
    Runs p depth (.error f :: rest) s (some f) s
  | visit {depth : Nat} {v : Visit} {rest : List (Except Fault Visit)} {s mid s' : σ}
    {stop : Option Fault} : Runs p depth (p.hook v s).1.steps (p.hook v s).2 none mid →
    Runs p (depth + 1) rest mid stop s' → Runs p (depth + 1) (.ok v :: rest) s stop s'
  | broken {depth : Nat} {v : Visit} {rest : List (Except Fault Visit)} {s s' : σ} {f : Fault} :
    Runs p depth (p.hook v s).1.steps (p.hook v s).2 (some f) s' →
    Runs p (depth + 1) (.ok v :: rest) s (some f) s'

variable {p : Pass σ α} {depth : Nat} {steps : List (Except Fault Visit)} {s s' : σ}
  {stop : Option Fault}

/-- What ends within a bound is a run. -/
theorem runs_perform (depth : Nat) : ∀ (steps : List (Except Fault Visit)) (s : σ),
    (perform (p.visit depth) steps s).1 ≠ .tooDeep →
      p.Runs depth steps s (perform (p.visit depth) steps s).1.fault?
        (perform (p.visit depth) steps s).2 := by
  induction depth with
  | zero =>
    intro steps s hd
    match steps with
    | [] => exact .done
    | .error f :: rest => exact .fault f rest
    | .ok v :: rest => exact absurd rfl hd
  | succ depth ihd =>
    -- Within one bound the steps are taken from the left; what is below a visit has the one before.
    intro steps
    induction steps with
    | nil => exact fun s _ => .done
    | cons step rest ih =>
      intro s hd
      cases step with
      | error f => exact .fault f rest
      | ok v =>
        simp only [perform] at hd ⊢
        have hv := Outcome.ends_of_andThen hd
        rw [visit_eq] at hv
        have hbelow := ihd _ _ (Outcome.ends_of_andThen hv)
        rw [visit_eq] at hd ⊢
        rcases hr : perform (p.visit depth) (p.hook v s).1.steps (p.hook v s).2 with ⟨out | f | _, t⟩
        · simp only [hr, Outcome.andThen_ok] at hd hbelow ⊢
          have hafter := ih t (Outcome.ends_of_andThen hd)
          rw [Outcome.fault?_andThen_finish, Outcome.state_andThen_finish]
          exact .visit hbelow hafter
        · rw [hr] at hbelow
          exact .broken hbelow
        · simp [hr] at hd

namespace Runs

/-- A run within a bound is what the pass does with that bound. -/
theorem perform_eq (h : p.Runs depth steps s stop s') :
    (perform (p.visit depth) steps s).1 ≠ .tooDeep ∧
      (perform (p.visit depth) steps s).1.fault? = stop ∧
        (perform (p.visit depth) steps s).2 = s' := by
  induction h with
  | done => exact ⟨by simp [perform], rfl, rfl⟩
  | fault f rest => exact ⟨by simp [perform], rfl, rfl⟩
  | @visit depth v rest s mid s' stop _ _ ihb iha =>
    obtain ⟨hd, hf, hs⟩ := ihb
    simp only [perform, visit_eq]
    rcases hr : perform (p.visit depth) (p.hook v s).1.steps (p.hook v s).2 with ⟨out | f | _, t⟩
    · obtain rfl : t = mid := by simpa [hr] using hs
      simpa using iha
    · simp [hr, Outcome.fault?] at hf
    · simp [hr] at hd
  | @broken depth v rest s s' f _ ih =>
    obtain ⟨hd, hf, hs⟩ := ih
    simp only [perform, visit_eq]
    rcases hr : perform (p.visit depth) (p.hook v s).1.steps (p.hook v s).2 with ⟨out | g | _, t⟩
    · simp [hr, Outcome.fault?] at hf
    · rw [hr] at hf hs
      exact ⟨by simp, hf, hs⟩
    · simp [hr] at hd

theorem mono (h : p.Runs depth steps s stop s') {depth' : Nat} (hle : depth ≤ depth') :
    p.Runs depth' steps s stop s' := by
  induction h generalizing depth' with
  | done => exact .done
  | fault f rest => exact .fault f rest
  | visit _ _ ihb iha =>
    obtain ⟨d, rfl⟩ : ∃ d, depth' = d + 1 := ⟨depth' - 1, by omega⟩
    exact .visit (ihb (by omega)) (iha hle)
  | broken _ ih =>
    obtain ⟨d, rfl⟩ : ∃ d, depth' = d + 1 := ⟨depth' - 1, by omega⟩
    exact .broken (ih (by omega))

/-- What every hook keeps of its state, a run keeps. -/
theorem invariant {P : σ → Prop} (step : ∀ v s, P s → P (p.hook v s).2)
    (h : p.Runs depth steps s stop s') (hs : P s) : P s' := by
  induction h with
  | done => exact hs
  | fault => exact hs
  | @visit _ v _ s _ _ _ _ _ ihb iha => exact iha (ihb (step v s hs))
  | @broken _ v _ s _ _ _ ih => exact ih (step v s hs)

end Runs

end Pass

end MergeForm
