import MergeForm.Proofs.Cutoff

/-! The two merge hooks of a loop nest like brackets.  A record is read with a stack of the loops
under way: the entry into a loop puts its merge map on top, and the return from the end of the body
takes it off again.  Every record can be read so as far as it goes, wherever the traversal stops;
and where it gets through, each loop has one pair of its own around what is done on a turn. -/

namespace MergeForm

/-- The loops that are under way after the visits, the innermost first, if they were `stack` before
and every return was to the innermost one. -/
def openLoops (stack : List PhiRange) : List Visit → Option (List PhiRange)
  | [] => some stack
  | .loopEntry r :: rest => openLoops (r :: stack) rest
  | .loopRepeat r :: rest =>
    match stack with
    | top :: below => if top = r then openLoops below rest else none
    | [] => none
  | _ :: rest => openLoops stack rest

theorem openLoops_append (stack : List PhiRange) (log more : List Visit) :
    openLoops stack (log ++ more) = (openLoops stack log).bind fun s => openLoops s more := by
  fun_induction openLoops stack log with
  | case1 => rfl
  | case2 stack r rest ih => simpa [openLoops] using ih
  | case3 r rest below ih => simpa [openLoops] using ih
  | case4 r rest top below hne => simp [openLoops, hne]
  | case5 r rest => simp [openLoops]
  | case6 stack v rest hentry hrepeat ih => simpa [openLoops] using ih

/-- What can be read to the end can be read up to any place. -/
theorem openLoops_of_prefix {stack left : List PhiRange} {log more : List Visit}
    (h : log <+: more) (hmore : openLoops stack more = some left) :
    ∃ under, openLoops stack log = some under := by
  obtain ⟨rest, rfl⟩ := h
  rw [openLoops_append] at hmore
  obtain ⟨under, hunder, -⟩ := Option.bind_eq_some_iff.mp hmore
  exact ⟨under, hunder⟩

namespace Visit

/-- The loop that has to be under way for a visit, on top of whatever is under way around it. -/
def needs : Visit → List PhiRange
  | .loopRepeat r => [r]
  | _ => []

/-- The loop that a visit leaves under way. -/
def leaves : Visit → List PhiRange
  | .loopEntry r => [r]
  | _ => []

theorem openLoops_cons (v : Visit) (stack : List PhiRange) (rest : List Visit) :
    openLoops (v.needs ++ stack) (v :: rest) = openLoops (v.leaves ++ stack) rest := by
  cases v <;> simp [needs, leaves, openLoops]

/-- Whether a visit is not one of the two merge hooks of a loop. -/
def Plain (v : Visit) : Prop := v.hook ≠ .loopEntry ∧ v.hook ≠ .loopRepeat

theorem Plain.needs_leaves {v : Visit} (h : v.Plain) : v.needs = [] ∧ v.leaves = [] := by
  obtain ⟨hentry, hrepeat⟩ := h
  cases v with
  | loopEntry r => exact absurd rfl hentry
  | loopRepeat r => exact absurd rfl hrepeat
  | _ => exact ⟨rfl, rfl⟩

/-- Whether a visit is that of a loop. -/
def IsLoop (v : Visit) : Prop := v.hook = .whileLoop ∨ v.hook = .forLoop

theorem IsLoop.form {v : Visit} (h : v.IsLoop) : (∃ c b m, v = .stmtForm (.whileLoop c b m)) ∨
    ∃ t i o s b m, v = .stmtForm (.forLoop t i o s b m) := by
  cases v with
  | stmtForm f => cases f <;> simp [IsLoop, hook, Stmt.Form.hook] at h ⊢
  | targetForm t => cases t <;> simp [IsLoop, hook, Expr.Target.hook] at h
  | _ => simp [IsLoop, hook] at h

end Visit

/-- The merge hooks of a loop are right below the loop. -/
theorem Arena.plain_of_mem_steps {a : Arena} {v : Visit} (hv : ¬v.IsLoop) :
    ∀ w, .ok w ∈ a.steps v → w.Plain := by
  by_cases hform : ∃ f, v = .stmtForm f
  · obtain ⟨f, rfl⟩ := hform
    cases f with
    | whileLoop c b m => exact absurd (.inl rfl) hv
    | forLoop t i o s b m => exact absurd (.inr rfl) hv
    | _ => simp [steps, plan, stmtPlan, Task.steps, Visit.Plain, Visit.hook]
  · intro w hw
    have habove := above_of_mem_steps hw
    cases w with
    | loopEntry r => exact absurd (habove.imp fun _ h => h.1) hform
    | loopRepeat r => exact absurd (habove.imp fun _ h => h.1) hform
    | stmtForm f => cases f <;> simp [Visit.Plain, Visit.hook, Stmt.Form.hook]
    | targetForm t => cases t <;> simp [Visit.Plain, Visit.hook, Expr.Target.hook]
    | _ => simp [Visit.Plain, Visit.hook]

/-- With the loops `s` under way at first the steps can be made in order, with `s'` under way at the
end if none of them is a fault. -/
inductive Chains : List PhiRange → List (Except Fault Visit) → List PhiRange → Prop
  | nil (s : List PhiRange) : Chains s [] s
  | fault {s s' : List PhiRange} (f : Fault) (rest : List (Except Fault Visit)) :
    Chains s (.error f :: rest) s'
  | visit {v : Visit} {rest : List (Except Fault Visit)} {s s' : List PhiRange} :
    Chains (v.leaves ++ s) rest s' → Chains (v.needs ++ s) (.ok v :: rest) s'

namespace Chains

/-- Steps without the merge hooks of a loop leave everything as it is. -/
theorem of_plain {steps : List (Except Fault Visit)} (s : List PhiRange)
    (h : ∀ v, .ok v ∈ steps → v.needs = [] ∧ v.leaves = []) : Chains s steps s := by
  induction steps with
  | nil => exact .nil s
  | cons step rest ih =>
    cases step with
    | error f => exact .fault f rest
    | ok v =>
      obtain ⟨hneeds, hleaves⟩ := h v (List.mem_cons_self ..)
      have hrest := ih fun w hw => h w (List.mem_cons_of_mem _ hw)
      have hv : Chains (v.needs ++ s) (.ok v :: rest) s := .visit (by simpa [hleaves] using hrest)
      simpa [hneeds] using hv

end Chains

/-- Below each visit the loops that it enters are left again, but for the one that it leaves under
way itself. -/
theorem Arena.chains_steps (a : Arena) (v : Visit) : Chains v.leaves (a.steps v) v.leaves := by
  by_cases hv : v.IsLoop
  · rcases hv.form with ⟨c, b, m, rfl⟩ | ⟨t, i, o, s, b, m, rfl⟩
    · exact .visit (v := .loopEntry m) (s := []) (.visit (v := .expr c) (s := [m])
        (.visit (v := .block b) (s := [m]) (.visit (v := .loopRepeat m) (s := []) (.nil []))))
    · exact .visit (v := .target t) (s := []) (.visit (v := .expr i) (s := [])
        (.visit (v := .loopEntry m) (s := []) (.visit (v := .expr o) (s := [m])
          (.visit (v := .block b) (s := [m]) (.visit (v := .expr s) (s := [m])
            (.visit (v := .loopRepeat m) (s := []) (.nil [])))))))
  · exact .of_plain _ fun w hw => (plain_of_mem_steps hv w hw).needs_leaves

namespace Recorder

/-! ### Reading the record of a run -/

/-- With the loops `s` under way at first, what the run writes down can be read, whatever is under
way around it; and `s'` are under way where it gets through. -/
def Reads {α : Type} (s s' : List PhiRange) (run : Array Visit → Outcome α × Array Visit) : Prop :=
  ∀ log, ∃ new, (run log).2.toList = log.toList ++ new ∧
    ∀ stack, ∃ left, openLoops (s ++ stack) new = some (left ++ stack) ∧
      ∀ x, (run log).1 = .ok x → left = s'

namespace Reads

variable {α β : Type} {s s' mid : List PhiRange}
  {run : Array Visit → Outcome α × Array Visit}

/-- Where nothing is written down, all that is under way stays so. -/
theorem silent {out : Outcome α} (h : ∀ x, out = .ok x → s = s') :
    Reads s s' fun log => (out, log) :=
  fun _ => ⟨[], by simp, fun _ => ⟨s, rfl, h⟩⟩

theorem push {v : Visit} (h : Reads v.leaves s' run) :
    Reads v.needs s' fun log => run (log.push v) := by
  intro log
  obtain ⟨new, hnew, hread⟩ := h (log.push v)
  refine ⟨v :: new, hnew.trans (by simp), fun stack => ?_⟩
  rw [v.openLoops_cons]
  exact hread stack

/-- A run does not touch what is under way around it. -/
theorem frame (h : Reads s s' run) (around : List PhiRange) :
    Reads (s ++ around) (s' ++ around) run := by
  intro log
  obtain ⟨new, hnew, hread⟩ := h log
  refine ⟨new, hnew, fun stack => ?_⟩
  obtain ⟨left, hleft, hend⟩ := hread (around ++ stack)
  exact ⟨left ++ around, by simpa using hleft, fun x hx => by rw [hend x hx]⟩

theorem andThen {next : α → Array Visit → Outcome β × Array Visit} (h : Reads s mid run)
    (hnext : ∀ x, Reads mid s' (next x)) : Reads s s' fun log => Outcome.andThen (run log) next := by
  intro log
  obtain ⟨new, hnew, hread⟩ := h log
  dsimp only
  rcases hrun : run log with ⟨x | f | _, log'⟩
  · obtain ⟨more, hmore, hread'⟩ := hnext x log'
    rw [hrun] at hnew hread
    rw [Outcome.andThen_ok]
    refine ⟨new ++ more, by rw [hmore, hnew, List.append_assoc], fun stack => ?_⟩
    obtain ⟨left, hleft, hend⟩ := hread stack
    obtain rfl := hend x rfl
    obtain ⟨last, hlast, hend'⟩ := hread' stack
    exact ⟨last, by rw [openLoops_append, hleft, Option.bind_some, hlast], hend'⟩
  · refine ⟨new, by simpa [hrun] using hnew, fun stack => ?_⟩
    obtain ⟨left, hleft, -⟩ := hread stack
    exact ⟨left, hleft, by simp⟩
  · refine ⟨new, by simpa [hrun] using hnew, fun stack => ?_⟩
    obtain ⟨left, hleft, -⟩ := hread stack
    exact ⟨left, hleft, by simp⟩

theorem perform {go : Visit → Array Visit → Outcome (List Unit) × Array Visit}
    (h : ∀ v, Reads v.needs v.leaves (go v)) {steps : List (Except Fault Visit)}
    (hsteps : Chains s steps s') : Reads s s' (Pass.perform go steps) := by
  induction hsteps with
  | nil s => exact silent fun _ _ => rfl
  | fault f rest => exact silent (by simp)
  | @visit v rest s s' _ ih =>
    exact ((h v).frame s).andThen fun out => ih.andThen fun outs => silent fun _ _ => rfl

end Reads

/-- What is written down during a visit can be read, wherever the traversal stops. -/
theorem reads_visit (a : Arena) (depth : Nat) (v : Visit) :
    Reads v.needs v.leaves ((full.pass a).visit depth v) := by
  induction depth generalizing v with
  | zero => exact .silent (by simp)
  | succ depth ih =>
    have hbelow : Reads v.leaves v.leaves fun log =>
        Outcome.andThen (Pass.perform ((full.pass a).visit depth) (a.steps v) log)
          fun outs log => (.ok ((a.move () v).finish outs), log) :=
      (Reads.perform ih (a.chains_steps v)).andThen fun _ => .silent fun _ _ => rfl
    have hvisit : (full.pass a).visit (depth + 1) v = fun log =>
        Outcome.andThen (Pass.perform ((full.pass a).visit depth) (a.steps v) (log.push v))
          fun outs log => (.ok ((a.move () v).finish outs), log) := by
      funext log
      simp [Pass.visit_eq, pass, full, Move.steps, Arena.move, Arena.steps]
    rw [hvisit]
    exact hbelow.push

/-- A visit made with a limit writes down the first visits of the one made without, and where it
gets through it is the same. -/
theorem visit_limited (a : Arena) (limit : Option Nat) (depth : Nat) (v : Visit) :
    (((⟨[], limit⟩ : Recorder).pass a).visit depth v #[]).2.toList <+:
        ((full.pass a).visit depth v #[]).2.toList ∧
      ∀ outs, (((⟨[], limit⟩ : Recorder).pass a).visit depth v #[]).1 = .ok outs →
        ((⟨[], limit⟩ : Recorder).pass a).visit depth v #[] = (full.pass a).visit depth v #[] := by
  cases limit with
  | none => exact ⟨List.prefix_refl _, fun _ _ => rfl⟩
  | some n =>
    have hrun : ((⟨[], some n⟩ : Recorder).pass a).visit depth v #[] =
        breakOff n ((full.pass a).visit depth v #[]) :=
      visit_limit [] a n depth v #[] (Nat.zero_le n)
    rw [hrun]
    rcases Nat.lt_or_ge n ((full.pass a).visit depth v #[]).2.size with hlt | hle
    · rw [breakOff_of_lt hlt]
      exact ⟨by simpa using List.take_prefix _ _, by simp⟩
    · rw [breakOff_of_le hle]
      exact ⟨List.prefix_refl _, fun _ _ => rfl⟩

end Recorder

/-! ### The pair of each loop -/

/-- The recorder gets through the visit `v` by itself and writes `log` down. -/
def Arena.Records (a : Arena) (v : Visit) (log : List Visit) : Prop :=
  ∃ outs, Recorder.full.run a [.visit v] = (.ok outs, log.toArray)

/-- The merge hooks of loops come in pairs: one pair for each loop, around all that is visited for
its condition and its body, or for its end, its body and its step. -/
inductive LoopsPaired (a : Arena) : List Visit → Prop
  | nil : LoopsPaired a []
  | plain {v : Visit} {rest : List Visit} : v.Plain → ¬v.IsLoop → LoopsPaired a rest →
    LoopsPaired a (v :: rest)
  | whileLoop {c : ExprId} {b : StmtRange} (m : PhiRange) {cond body rest : List Visit} :
    a.Records (.expr c) cond → a.Records (.block b) body →
    LoopsPaired a cond → LoopsPaired a body → LoopsPaired a rest →
    LoopsPaired a
      (.stmtForm (.whileLoop c b m) :: .loopEntry m :: (cond ++ body ++ .loopRepeat m :: rest))
  | forLoop {v i o s : ExprId} {b : StmtRange} (m : PhiRange)
    {target start stop body step rest : List Visit} :
    a.Records (.target v) target → a.Records (.expr i) start → a.Records (.expr o) stop →
    a.Records (.block b) body → a.Records (.expr s) step →
    LoopsPaired a target → LoopsPaired a start → LoopsPaired a stop → LoopsPaired a body →
    LoopsPaired a step → LoopsPaired a rest →
    LoopsPaired a
      (.stmtForm (.forLoop v i o s b m) :: (target ++ start ++
        .loopEntry m :: (stop ++ body ++ step ++ .loopRepeat m :: rest)))

namespace LoopsPaired

variable {a : Arena}

theorem append {log more : List Visit} (h : LoopsPaired a log) (h' : LoopsPaired a more) :
    LoopsPaired a (log ++ more) := by
  induction h with
  | nil => exact h'
  | plain hv hloop _ ih => exact .plain hv hloop ih
  | whileLoop m hc hb hcond hbody _ _ _ ih =>
    simpa using LoopsPaired.whileLoop m hc hb hcond hbody ih
  | forLoop m hv hi ho hb hs htarget hstart hstop hbody hstep _ _ _ _ _ _ ih =>
    simpa using LoopsPaired.forLoop m hv hi ho hb hs htarget hstart hstop hbody hstep ih

end LoopsPaired

/-- What is written down for a visit `v` without a fault: the visit, and after it the pairs of all
loops below it. -/
structure Visit.Pairs (a : Arena) (v : Visit) (log : List Visit) : Prop where
  trail : ∃ n, Trail a.steps n [.ok v] log none
  paired : v.Plain → LoopsPaired a log
  entry : ∀ r, v = .loopEntry r → log = [v]
  back : ∀ r, v = .loopRepeat r → ∃ rest, log = v :: rest ∧ LoopsPaired a rest

namespace Visit.Pairs

variable {a : Arena} {v : Visit} {log : List Visit}

theorem records (h : v.Pairs a log) : a.Records v log := by
  obtain ⟨n, ht⟩ := h.trail
  have htask : Trail a.steps n ([.visit v].flatMap Task.steps) log none := ht
  obtain ⟨hend, hstop, hlog⟩ := Recorder.trail_run htask
  obtain ⟨outs, houts⟩ := Outcome.exists_ok_iff.mpr ⟨hend, hstop⟩
  exact ⟨outs, Prod.ext houts hlog⟩

theorem exists_trail {below : List Visit} {parts : List (List Visit)}
    (h : List.Forall₂ (Pairs a) below parts) :
    ∃ n, Trail a.steps n (below.map .ok) parts.flatten none := by
  induction h with
  | nil => exact ⟨0, .done⟩
  | @cons v log below parts hv _ ih =>
    obtain ⟨n, hn⟩ := hv.trail
    obtain ⟨m, hm⟩ := ih
    exact ⟨_, hn.append hm⟩

theorem paired_flatten {below : List Visit} {parts : List (List Visit)}
    (h : List.Forall₂ (Pairs a) below parts)
    (hbelow : ∀ w ∈ below, w.Plain) : LoopsPaired a parts.flatten := by
  induction h with
  | nil => exact .nil
  | @cons v log below parts hv _ ih =>
    have hrest := ih fun w hw => hbelow w (List.mem_cons_of_mem _ hw)
    exact (hv.paired (hbelow v (List.mem_cons_self ..))).append hrest

end Visit.Pairs

/-- The step of a loop: its pair of hooks with what is visited in between. -/
theorem Visit.Pairs.of_loop {a : Arena} {v : Visit} (below : List Visit)
    (parts : List (List Visit)) (hsteps : a.steps v = below.map .ok)
    (h : List.Forall₂ (Pairs a) below parts) (hv : v.IsLoop) :
    LoopsPaired a (v :: parts.flatten) := by
  rcases hv.form with ⟨c, b, m, rfl⟩ | ⟨t, i, o, s, b, m, rfl⟩
  · obtain rfl : [.loopEntry m, .expr c, .block b, .loopRepeat m] = below :=
      Trail.map_ok_inj hsteps
    obtain _ | ⟨hentry, _ | ⟨hcond, _ | ⟨hbody, _ | ⟨hback, _ | _⟩⟩⟩⟩ := h
    obtain rfl := hentry.entry m rfl
    obtain ⟨rest, rfl, hrest⟩ := hback.back m rfl
    simpa using LoopsPaired.whileLoop m hcond.records hbody.records (hcond.paired ⟨nofun, nofun⟩)
      (hbody.paired ⟨nofun, nofun⟩) hrest
  · obtain rfl : [.target t, .expr i, .loopEntry m, .expr o, .block b, .expr s, .loopRepeat m] =
        below := Trail.map_ok_inj hsteps
    obtain _ | ⟨htarget, _ | ⟨hstart, _ | ⟨hentry, _ | ⟨hstop, _ | ⟨hbody, _ | ⟨hstep, _ |
      ⟨hback, _ | _⟩⟩⟩⟩⟩⟩⟩ := h
    obtain rfl := hentry.entry m rfl
    obtain ⟨rest, rfl, hrest⟩ := hback.back m rfl
    simpa using LoopsPaired.forLoop m htarget.records hstart.records hstop.records hbody.records
      hstep.records (htarget.paired ⟨nofun, nofun⟩) (hstart.paired ⟨nofun, nofun⟩)
      (hstop.paired ⟨nofun, nofun⟩) (hbody.paired ⟨nofun, nofun⟩) (hstep.paired ⟨nofun, nofun⟩)
      hrest

theorem Visit.pairs_of_below {a : Arena} (v : Visit) (below : List Visit)
    (parts : List (List Visit)) (hsteps : a.steps v = below.map .ok)
    (h : List.Forall₂ (Pairs a) below parts) : v.Pairs a ([v] ++ parts.flatten) := by
  have htrail : ∃ n, Trail a.steps n [.ok v] (v :: parts.flatten) none := by
    obtain ⟨n, hn⟩ := Pairs.exists_trail h
    have hv : Trail a.steps (n + 1) [.ok v] (v :: (parts.flatten ++ [])) none :=
      .visit (hsteps ▸ hn) .done
    exact ⟨n + 1, by simpa using hv⟩
  -- Only below a loop are there merge hooks of loops among the visits; all others are plain.
  by_cases hloop : v.IsLoop
  · refine ⟨htrail, fun _ => Pairs.of_loop below parts hsteps h hloop, ?_, ?_⟩
    · rintro r rfl
      simp [IsLoop, hook] at hloop
    · rintro r rfl
      simp [IsLoop, hook] at hloop
  · have hplain : ∀ w ∈ below, w.Plain := fun w hw =>
      Arena.plain_of_mem_steps (a := a) hloop w (by simp [hsteps, hw])
    have hbelow := Pairs.paired_flatten h hplain
    refine ⟨htrail, fun hv => .plain hv hloop hbelow, ?_, fun r _ => ⟨_, rfl, hbelow⟩⟩
    rintro r rfl
    obtain rfl : [] = below := Trail.map_ok_inj hsteps
    cases h
    rfl

/-- The record of a visit without a fault has the hooks of its loops in pairs. -/
theorem Trail.loopsPaired {a : Arena} {v : Visit} {n : Nat} {log : List Visit}
    (ht : Trail a.steps n [.ok v] log none) (hv : v.Plain) : LoopsPaired a log := by
  obtain ⟨parts, hparts, hlog⟩ := ht.compose Visit.pairs_of_below rfl [v] rfl
  obtain ⟨part, hpart, rfl⟩ := Trail.exists_of_forall₂_singleton hparts
  obtain rfl : log = part := by simpa using hlog
  exact hpart.paired hv

/-- Whatever is visited, with or without a limit, and wherever the traversal stops: at every place
of the record each return has been to the innermost loop under way, by its own merge map; and where
the traversal gets through no loop is under way at the end, and each has one pair of hooks around
what is visited on a turn. -/
theorem Recorder.loops_nest (a : Arena) (limit : Option Nat) (depth : Nat) (v : Visit)
    (hv : v.Plain) (out : Outcome (List Unit)) (log : Array Visit)
    (hrun : ((⟨[], limit⟩ : Recorder).pass a).traverse depth [.visit v] #[] = (out, log)) :
    (∀ n, ∃ under, openLoops [] (log.toList.take n) = some under) ∧
      ((∃ outs, out = .ok outs) →
        openLoops [] log.toList = some [] ∧ LoopsPaired a log.toList) := by
  obtain ⟨hfirst, hsame⟩ := visit_limited a limit depth v
  obtain ⟨new, hnew, hread⟩ := reads_visit a depth v #[]
  obtain ⟨left, hleft, hend⟩ := hread []
  obtain ⟨hneeds, hleaves⟩ := hv.needs_leaves
  rw [List.nil_append] at hnew
  rw [Pass.traverse_visit] at hrun
  -- A limit takes nothing but the end of the record away, and what is left of it can be read too.
  rw [hrun, hnew] at hfirst
  refine ⟨fun n => ?_, ?_⟩
  · exact openLoops_of_prefix ((List.take_prefix n _).trans hfirst) (by simpa [hneeds] using hleft)
  · rintro ⟨outs, rfl⟩
    have hfull : (full.pass a).visit depth v #[] = (.ok outs, log) :=
      (hsame outs (by rw [hrun])).symm.trans hrun
    obtain rfl : log.toList = new := by rw [← hnew, hfull]
    obtain rfl : left = v.leaves := hend outs (by rw [hfull])
    have htraverse : (full.pass a).traverse depth [.visit v] #[] = (.ok outs, log) := by
      rw [Pass.traverse_visit, hfull]
    have hends : ((full.pass a).traverse depth [.visit v] #[]).1 ≠ .tooDeep := by simp [htraverse]
    obtain ⟨visits, ht, hvisits⟩ := (follows_full a).traverse_trail hends
    obtain rfl : log.toList = visits := by
      rw [htraverse, List.foldl_push_eq_append', Array.empty_append] at hvisits
      exact congrArg Array.toList hvisits
    rw [htraverse] at ht
    exact ⟨by simpa [hneeds, hleaves] using hleft, ht.loopsPaired hv⟩

/-- A loop over a range with a loop of its own in the body. -/
def loopInLoop : Arena :=
  { Arena.empty with
    exprs := #[⟨.form (.var ⟨1⟩), .dummy⟩]
    phis := #[⟨⟨1⟩, ⟨0⟩, ⟨0⟩⟩]
    stmts := #[⟨.form (.whileLoop ⟨0⟩ .empty .empty), .dummy⟩,
      ⟨.form (.forLoop ⟨0⟩ ⟨0⟩ ⟨0⟩ ⟨0⟩ ⟨0, 1⟩ ⟨0, 1⟩), .dummy⟩] }

theorem loopInLoop_nest :
    (Visit.stmt ⟨1⟩).Plain ∧
      ∃ log, ((⟨[], some 60⟩ : Recorder).pass loopInLoop).traverse 20 [.visit (.stmt ⟨1⟩)] #[] =
          (.ok [], log) ∧
        (∃ under, openLoops [] (log.toList.take 20) = some under) ∧
        openLoops [] log.toList = some [] ∧ LoopsPaired loopInLoop log.toList := by
  have hplain : (Visit.stmt ⟨1⟩).Plain := ⟨nofun, nofun⟩
  have hends : ∃ log, ((⟨[], some 60⟩ : Recorder).pass loopInLoop).traverse 20
      [.visit (.stmt ⟨1⟩)] #[] = (.ok [], log) := by
    rw [Pass.traverse_visit]
    exact ⟨_, rfl⟩
  obtain ⟨log, hlog⟩ := hends
  obtain ⟨hread, hpairs⟩ :=
    Recorder.loops_nest loopInLoop (some 60) 20 (.stmt ⟨1⟩) hplain (.ok []) log hlog
  exact ⟨hplain, log, hlog, hread 20, hpairs ⟨[], rfl⟩⟩

end MergeForm
