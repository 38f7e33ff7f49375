import MergeForm.Proofs.Depth

/-! Parts that are left out of the record.  The visits of a traversal make a forest, in which what
is visited during a visit lies below it.  A recorder that leaves out what is below visits of some
hooks writes down that forest with just these parts cut away, and everything else as before. -/

namespace MergeForm

/-- A visit with the visits made during it. -/
inductive VisitTree
  | node (v : Visit) (below : List VisitTree)

namespace VisitTree

mutual

/-- The visits of a tree in the order in which they are begun. -/
def visits : VisitTree → List Visit
  | .node v below => v :: forestVisits below

/-- The visits of a forest, tree by tree. -/
def forestVisits : List VisitTree → List Visit
  | [] => []
  | t :: ts => t.visits ++ forestVisits ts

end

mutual

/-- The tree without what is below the visits of the given hooks. -/
def prune (hooks : List Hook) : VisitTree → VisitTree
  | .node v below => .node v (if v.hook ∈ hooks then [] else pruneForest hooks below)

def pruneForest (hooks : List Hook) : List VisitTree → List VisitTree
  | [] => []
  | t :: ts => t.prune hooks :: pruneForest hooks ts

end

theorem pruneForest_append (hooks : List Hook) (ts us : List VisitTree) :
    pruneForest hooks (ts ++ us) = pruneForest hooks ts ++ pruneForest hooks us := by
  induction ts with
  | nil => rfl
  | cons t ts ih => simp [pruneForest, ih]

theorem forestVisits_append (ts us : List VisitTree) :
    forestVisits (ts ++ us) = forestVisits ts ++ forestVisits us := by
  induction ts with
  | nil => rfl
  | cons t ts ih => simp [forestVisits, ih]

end VisitTree

open VisitTree

/-- The default traversal with every visit written down, in which each visit gives out itself with
all that is visited during it. -/
def Pass.nest (a : Arena) : Pass (Array Visit) VisitTree where
  hook v log := (⟨a.plan v, fun below => [.node v below]⟩, log.push v)

theorem Pass.follows_nest (a : Arena) : (Pass.nest a).Follows a.steps Array.push where
  steps _ _ := rfl
  state _ _ := rfl

namespace Recorder

/-- The run `nested` writes down the visits of the trees that it gives out, and where it gets
through `pruned` writes down those of the pruned trees. -/
def Prunes (hooks : List Hook) (nested : Array Visit → Outcome (List VisitTree) × Array Visit)
    (pruned : Array Visit → Outcome (List Unit) × Array Visit) : Prop :=
  ∀ log forest log', nested log = (.ok forest, log') →
    log' = log ++ (forestVisits forest).toArray ∧
      ∀ start, ∃ outs,
        pruned start = (.ok outs, start ++ (forestVisits (pruneForest hooks forest)).toArray)

theorem Prunes.perform {hooks : List Hook}
    {go : Visit → Array Visit → Outcome (List VisitTree) × Array Visit}
    {go' : Visit → Array Visit → Outcome (List Unit) × Array Visit}
    (h : ∀ v, Prunes hooks (go v) (go' v)) (steps : List (Except Fault Visit)) :
    Prunes hooks (Pass.perform go steps) (Pass.perform go' steps) := by
  induction steps with
  | nil =>
    intro log forest log' hrun
    obtain ⟨rfl, rfl⟩ : [] = forest ∧ log = log' := by simpa [Pass.perform] using hrun
    refine ⟨by simp [forestVisits], fun start => ⟨[], ?_⟩⟩
    simp [Pass.perform, forestVisits, pruneForest]
  | cons step rest ih =>
    intro log forest log' hrun
    cases step with
    | error f => simp [Pass.perform] at hrun
    | ok v =>
      simp only [Pass.perform, Outcome.andThen_eq_ok_iff] at hrun
      obtain ⟨ts, mid, hv, us, last, hrest, hlast⟩ := hrun
      obtain ⟨rfl, rfl⟩ : ts ++ us = forest ∧ last = log' := by simpa using hlast
      obtain ⟨rfl, hpruned⟩ := h v log ts mid hv
      obtain ⟨rfl, hpruned'⟩ := ih _ us last hrest
      refine ⟨by simp [forestVisits_append], fun start => ?_⟩
      obtain ⟨outs, hout⟩ := hpruned start
      obtain ⟨outs', hout'⟩ := hpruned' (start ++ (forestVisits (pruneForest hooks ts)).toArray)
      refine ⟨outs ++ outs', ?_⟩
      simp [Pass.perform, hout, hout', pruneForest_append, forestVisits_append]

theorem hook_prune (hooks : List Hook) (a : Arena) (v : Visit) (log : Array Visit) :
    ((⟨hooks, none⟩ : Recorder).pass a).hook v log =
      (if v.hook ∈ hooks then v.cut () else a.move () v, log.push v) := by
  by_cases hv : v.hook ∈ hooks <;> simp [pass, hv]

theorem steps_cut (v : Visit) : (v.cut () : Move Unit).steps = [] := by
  cases v <;> rfl

theorem prunes_visit (hooks : List Hook) (a : Arena) (depth : Nat) (v : Visit) :
    Prunes hooks ((Pass.nest a).visit depth v)
      (((⟨hooks, none⟩ : Recorder).pass a).visit depth v) := by
  induction depth generalizing v with
  | zero =>
    intro log forest log' hrun
    simp [Pass.visit] at hrun
  | succ depth ih =>
    intro log forest log' hrun
    simp only [Pass.visit_eq, Outcome.andThen_eq_ok_iff] at hrun
    obtain ⟨below, mid, hbelow, hlast⟩ := hrun
    obtain ⟨rfl, rfl⟩ : [.node v below] = forest ∧ mid = log' := by
      simpa [Pass.nest] using hlast
    obtain ⟨hlog, hpruned⟩ := Prunes.perform ih _ (log.push v) below mid hbelow
    refine ⟨by simp [hlog, forestVisits, VisitTree.visits], fun start => ?_⟩
    by_cases hv : v.hook ∈ hooks
    · refine ⟨(v.cut ()).finish [], ?_⟩
      simp [Pass.visit_eq, hook_prune, hv, steps_cut, Pass.perform, forestVisits, VisitTree.visits,
        pruneForest, VisitTree.prune]
    · obtain ⟨outs, hout⟩ := hpruned (start.push v)
      have hsteps : ((Pass.nest a).hook v log).1.steps = (a.move () v).steps := rfl
      rw [hsteps] at hout
      refine ⟨(a.move () v).finish outs, ?_⟩
      simp [Pass.visit_eq, hook_prune, hv, hout, forestVisits, VisitTree.visits, pruneForest,
        VisitTree.prune]

end Recorder

/-- Where the full recorder gets through, its record is that of a forest in which each visit has
below it what is visited during it; and a recorder that leaves out what is below visits of some
hooks gets through too, and writes down what that forest is without these parts. -/
theorem Recorder.run_prune (a : Arena) (tasks : List Task) (hooks : List Hook) (outs : List Unit)
    (log : Array Visit) (h : full.run a tasks = (.ok outs, log)) :
    ∃ forest, a.traverse (Pass.nest a) tasks #[] = (.ok forest, log) ∧
      log.toList = forestVisits forest ∧
      ∃ outs', (⟨hooks, none⟩ : Recorder).run a tasks =
        (.ok outs', (forestVisits (pruneForest hooks forest)).toArray) := by
  obtain ⟨hend, hstop⟩ := Outcome.exists_ok_iff.mp ⟨outs, congrArg Prod.fst h⟩
  have ht := run_trail hend
  rw [hstop, h] at ht
  have hlog : log.toList.foldl Array.push #[] = log := by
    rw [List.foldl_push_eq_append', Array.empty_append, Array.toArray_toList]
  obtain ⟨forest, hnest⟩ :=
    ((Pass.follows_nest a).traverse_ok_iff a.graded tasks #[] log).mpr ⟨_, _, ht, hlog⟩
  have hperform := hnest
  rw [Pass.traverse_eq] at hperform
  obtain ⟨hvisits, hpruned⟩ :=
    Prunes.perform (prunes_visit hooks a a.depth) _ #[] forest log hperform
  obtain ⟨outs', hout⟩ := hpruned #[]
  refine ⟨forest, hnest, by simp [hvisits], outs', ?_⟩
  rw [← Pass.traverse_eq] at hout
  rw [run, Pass.traverse_of_le _ (depth_le _ a) _ _ (by simp [hout]), hout]
  simp

/-- A branch whose true block has the assignment of a converted variable to the variable. -/
def branchOfAssign : Arena :=
  { Arena.empty with
    exprs := #[⟨.form (.var ⟨1⟩), .dummy⟩, ⟨.form (.cast ⟨0⟩ ⟨0⟩), .dummy⟩]
    stmts := #[⟨.form (.assign ⟨0⟩ ⟨1⟩), .dummy⟩,
      ⟨.form (.ifElse ⟨1⟩ ⟨0, 1⟩ .empty .empty), .dummy⟩] }

/-- Targets and conversions are still visited, and nothing below them is. -/
theorem branchOfAssign_prune :
    ∃ log, Recorder.full.run branchOfAssign [.visit (.stmt ⟨1⟩)] = (.ok [], log) ∧
      ∃ forest, log.toList = forestVisits forest ∧
        forestVisits (pruneForest [.target, .exprForm .cast] forest) =
          [.stmt ⟨1⟩, .stmtForm (.ifElse ⟨1⟩ ⟨0, 1⟩ .empty .empty), .expr ⟨1⟩,
            .exprForm (.cast ⟨0⟩ ⟨0⟩), .block ⟨0, 1⟩, .stmt ⟨0⟩, .stmtForm (.assign ⟨0⟩ ⟨1⟩),
            .target ⟨0⟩, .expr ⟨1⟩, .exprForm (.cast ⟨0⟩ ⟨0⟩), .block .empty, .mergeIf .empty,
            .merge .empty] := by
  have hfull : ∃ log, Recorder.full.run branchOfAssign [.visit (.stmt ⟨1⟩)] = (.ok [], log) := by
    rw [Recorder.run, Pass.traverse_eq]
    exact ⟨_, rfl⟩
  obtain ⟨log, hlog⟩ := hfull
  obtain ⟨forest, -, hforest, outs, hpruned⟩ :=
    Recorder.run_prune branchOfAssign [.visit (.stmt ⟨1⟩)] [.target, .exprForm .cast] [] log hlog
  refine ⟨log, hlog, forest, hforest, ?_⟩
  rw [Recorder.run, Pass.traverse_eq] at hpruned
  exact congrArg Array.toList (congrArg Prod.snd hpruned).symm

end MergeForm
