import MergeForm.Proofs.Pruning

/-! Traversals that are broken off.  A recorder with a limit faults at the first visit past the
limit.  Its run is that of the recorder without the limit, cut off there: up to the limit nothing is
different, and after the fault nothing is visited, whatever the traversal was in the middle of. -/

namespace MergeForm

namespace Recorder

/-- The run `run` broken off after `n` visits, if it makes more. -/
def breakOff {α : Type} (n : Nat) (run : Outcome α × Array Visit) : Outcome α × Array Visit :=
  if run.2.size ≤ n then run else (.fault stopFault, run.2.take n)

section

variable {α β : Type} {n : Nat} {run : Outcome α × Array Visit}

theorem breakOff_of_le (h : run.2.size ≤ n) : breakOff n run = run := if_pos h

theorem breakOff_of_lt (h : n < run.2.size) :
    breakOff n run = (.fault stopFault, run.2.take n) := if_neg (Nat.not_le.mpr h)

/-- A record that goes on from `log` has the same first visits. -/
theorem take_eq_of_prefix {log log' : Array Visit} (h : log.toList <+: log'.toList)
    (hn : n ≤ log.size) : log'.take n = log.take n := by
  obtain ⟨more, hmore⟩ := h
  apply Array.toList_inj.mp
  simp [← hmore, List.take_append_of_le_length, hn]

/-- What is done after a run that is broken off is broken off with it. -/
theorem breakOff_andThen {next next' : α → Array Visit → Outcome β × Array Visit}
    (hnext : ∀ x log, log.size ≤ n → next' x log = breakOff n (next x log))
    (hgrows : ∀ x log, log.toList <+: (next x log).2.toList) :
    Outcome.andThen (breakOff n run) next' = breakOff n (Outcome.andThen run next) := by
  rcases Nat.lt_or_ge n run.2.size with hlt | hle
  · have hprefix : run.2.toList <+: (Outcome.andThen run next).2.toList :=
      Outcome.state_of_andThen (P := fun log => run.2.toList <+: log.toList) (List.prefix_refl _)
        fun x log hlog => hlog.trans (hgrows x log)
    have hlonger : n < (Outcome.andThen run next).2.size := Nat.lt_of_lt_of_le hlt hprefix.length_le
    rw [breakOff_of_lt hlt, Outcome.andThen_fault, breakOff_of_lt hlonger,
      take_eq_of_prefix hprefix (Nat.le_of_lt hlt)]
  · rw [breakOff_of_le hle]
    rcases run with ⟨x | f | _, log⟩
    · exact hnext x log hle
    · exact (if_pos hle).symm
    · exact (if_pos hle).symm

end

variable (hooks : List Hook) (a : Arena)

/-- The single steps below a visit for a recorder that leaves out what is below visits of some
hooks. -/
def prunedSteps (v : Visit) : List (Except Fault Visit) := if v.hook ∈ hooks then [] else a.steps v

theorem follows_prune :
    ((⟨hooks, none⟩ : Recorder).pass a).Follows (prunedSteps hooks a) Array.push where
  steps v log := by
    by_cases hv : v.hook ∈ hooks
    · simp [hook_prune, prunedSteps, hv, steps_cut]
    · simp [hook_prune, prunedSteps, hv, Move.steps, Arena.move, Arena.steps]
  state v log := by rw [hook_prune]

theorem graded_prune : Graded a (prunedSteps hooks a) := by
  intro v w hw
  by_cases hv : v.hook ∈ hooks
  · simp [prunedSteps, hv] at hw
  · exact a.graded v w (by simpa [prunedSteps, hv] using hw)

variable {hooks} {a} {tasks : List Task} in
theorem ends_prune
    (h : ∃ depth, (((⟨hooks, none⟩ : Recorder).pass a).traverse depth tasks #[]).1 ≠ .tooDeep) :
    ((⟨hooks, none⟩ : Recorder).run a tasks).1 ≠ .tooDeep := by
  obtain ⟨depth, hd⟩ := h
  obtain ⟨visits, ht, -⟩ := (follows_prune hooks a).traverse_trail hd
  exact ((follows_prune hooks a).trail_traverse_of_graded (graded_prune hooks a) ht
    (depth_le _ a) #[]).1

/-- Visits are only ever put behind those that are written down already. -/
theorem prefix_visit (depth : Nat) (v : Visit) (log : Array Visit) :
    log.toList <+: (((⟨hooks, none⟩ : Recorder).pass a).visit depth v log).2.toList := by
  refine Pass.visit_keeps (P := fun log' => log.toList <+: log'.toList) (fun v s hs => ?_) depth v
    log (List.prefix_refl _)
  rw [hook_prune, Array.toList_push]
  exact hs.trans (List.prefix_append _ _)

theorem prefix_perform (depth : Nat) (steps : List (Except Fault Visit)) (log : Array Visit) :
    log.toList <+:
      (Pass.perform (((⟨hooks, none⟩ : Recorder).pass a).visit depth) steps log).2.toList :=
  Pass.perform_keeps (P := fun log' => log.toList <+: log'.toList)
    (fun v s hs => hs.trans (prefix_visit hooks a depth v s)) steps log (List.prefix_refl _)

/-- A visit that is made at all is written down. -/
theorem prefix_visit_succ (depth : Nat) (v : Visit) (log : Array Visit) :
    (log.push v).toList <+:
      (((⟨hooks, none⟩ : Recorder).pass a).visit (depth + 1) v log).2.toList := by
  rw [Pass.visit_eq, Outcome.state_andThen_finish, hook_prune]
  exact prefix_perform hooks a depth _ (log.push v)

theorem perform_limit {n depth : Nat}
    (h : ∀ v log, log.size ≤ n → ((⟨hooks, some n⟩ : Recorder).pass a).visit depth v log =
      breakOff n (((⟨hooks, none⟩ : Recorder).pass a).visit depth v log)) :
    ∀ (steps : List (Except Fault Visit)) (log : Array Visit), log.size ≤ n →
      Pass.perform (((⟨hooks, some n⟩ : Recorder).pass a).visit depth) steps log =
        breakOff n (Pass.perform (((⟨hooks, none⟩ : Recorder).pass a).visit depth) steps log) := by
  intro steps
  induction steps with
  | nil => exact fun log hlog => (breakOff_of_le hlog).symm
  | cons step rest ih =>
    intro log hlog
    cases step with
    | error f => exact (breakOff_of_le hlog).symm
    | ok v =>
      simp only [Pass.perform]
      rw [h v log hlog]
      refine breakOff_andThen (fun out log hlog => ?_) fun out log => ?_
      · rw [ih log hlog]
        exact breakOff_andThen (fun outs log hlog => (breakOff_of_le hlog).symm)
          fun outs log => List.prefix_refl _
      · exact Outcome.state_of_andThen (P := fun log' : Array Visit => log.toList <+: log'.toList)
          (prefix_perform hooks a depth rest log) fun outs log' hlog' => hlog'

/-- A visit made with the limit is the visit made without it, broken off. -/
theorem visit_limit (n depth : Nat) : ∀ (v : Visit) (log : Array Visit), log.size ≤ n →
    ((⟨hooks, some n⟩ : Recorder).pass a).visit depth v log =
      breakOff n (((⟨hooks, none⟩ : Recorder).pass a).visit depth v log) := by
  induction depth with
  | zero => exact fun v log hlog => (breakOff_of_le hlog).symm
  | succ depth ih =>
    intro v log hlog
    by_cases hfull : n = log.size
    · -- The hook faults, and without the limit the visit itself is past it.
      subst hfull
      have hpast := prefix_visit_succ hooks a depth v log
      have hlonger := hpast.length_le
      rw [Array.length_toList, Array.size_push, Array.length_toList] at hlonger
      rw [breakOff_of_lt hlonger, take_eq_of_prefix hpast (by simp)]
      simp [Pass.visit_eq, pass, Move.steps, Task.steps, Pass.perform]
    · have hhook : ((⟨hooks, some n⟩ : Recorder).pass a).hook v log =
          (if v.hook ∈ hooks then v.cut () else a.move () v, log.push v) := by
        by_cases hv : v.hook ∈ hooks <;> simp [pass, hv, hfull]
      have hroom : (log.push v).size ≤ n := by
        rw [Array.size_push]
        omega
      rw [Pass.visit_eq, Pass.visit_eq, hook_prune, hhook, perform_limit hooks a ih _ _ hroom]
      exact breakOff_andThen (fun outs log hlog => (breakOff_of_le hlog).symm)
        fun outs log => List.prefix_refl _

end Recorder

/-- Where the recorder without a limit comes to an end, with or without a fault, the recorder with a
limit does just the same if it need not write down more visits than that, and else writes down as
many of them as it may and ends in the fault of the limit. -/
theorem Recorder.run_limit (a : Arena) (tasks : List Task) (hooks : List Hook) (n : Nat)
    (h : ∃ depth, (((⟨hooks, none⟩ : Recorder).pass a).traverse depth tasks #[]).1 ≠ .tooDeep) :
    ((⟨hooks, none⟩ : Recorder).run a tasks).1 ≠ .tooDeep ∧
      (⟨hooks, some n⟩ : Recorder).run a tasks =
        if ((⟨hooks, none⟩ : Recorder).run a tasks).2.size ≤ n then
          (⟨hooks, none⟩ : Recorder).run a tasks
        else (.fault stopFault, ((⟨hooks, none⟩ : Recorder).run a tasks).2.take n) := by
  have hends := ends_prune h
  refine ⟨hends, ?_⟩
  have hdeeper : (⟨hooks, none⟩ : Recorder).depth a ≤ (⟨hooks, some n⟩ : Recorder).depth a := by
    simp [Recorder.depth]
  change _ = breakOff n _
  rw [run, run, ← Pass.traverse_of_le _ hdeeper tasks #[] hends, Pass.traverse_eq, Pass.traverse_eq]
  exact perform_limit hooks a (visit_limit hooks a n _) _ #[] (Nat.zero_le n)

/-- The limit is reached inside the condition of the branch. -/
theorem branchOfAssign_limit :
    (∃ depth, (((⟨[.exprForm .cast], none⟩ : Recorder).pass branchOfAssign).traverse depth
        [.visit (.stmt ⟨1⟩)] #[]).1 ≠ .tooDeep) ∧
      (⟨[.exprForm .cast], some 3⟩ : Recorder).run branchOfAssign [.visit (.stmt ⟨1⟩)] =
        (.fault (.dangling (.expr .invalid)),
          #[.stmt ⟨1⟩, .stmtForm (.ifElse ⟨1⟩ ⟨0, 1⟩ .empty .empty), .expr ⟨1⟩]) := by
  have hends : ∃ depth, (((⟨[.exprForm .cast], none⟩ : Recorder).pass branchOfAssign).traverse depth
      [.visit (.stmt ⟨1⟩)] #[]).1 ≠ .tooDeep := by
    refine ⟨16, ?_⟩
    rw [Pass.traverse_eq]
    decide
  obtain ⟨-, hrun⟩ :=
    Recorder.run_limit branchOfAssign [.visit (.stmt ⟨1⟩)] [.exprForm .cast] 3 hends
  refine ⟨hends, hrun.trans ?_⟩
  rw [Recorder.run, Pass.traverse_eq]
  rfl

end MergeForm
