import MergeForm.Traversal.Pass

/-! Traversal with a stack of its own.  Nests of many thousand visits are too deep for recursion on
the machine's stack, so a pass is run by a loop over a list of frames, one for each visit that is
under way.  The loop ends since each turn takes the top of a stack of ranks away and puts smaller
ranks in its place.  `Pass.traverse_eq` says that the loop computes what `Pass.visit` means. -/

namespace MergeForm

/-! ### Stacks of ranks -/

/-- A stack of numbers, of which only the top can be replaced, and only by smaller ones. -/
structure Ranks where
  toList : List Nat

namespace Ranks

/-- The stack `after` is `before` with its top replaced by any number of smaller ranks. -/
def Step (after before : Ranks) : Prop :=
  ∃ top new rest, before.toList = top :: rest ∧ after.toList = new ++ rest ∧ ∀ r ∈ new, r < top

theorem acc_cons (top : Nat) : ∀ rest, Acc Step ⟨rest⟩ → Acc Step ⟨top :: rest⟩ := by
  induction top using Nat.strongRecOn with
  | _ top ih =>
    intro rest hrest
    refine ⟨_, fun ⟨after⟩ ⟨t, new, r, hb, ha, hlt⟩ => ?_⟩
    simp only [List.cons.injEq] at hb ha
    obtain ⟨rfl, rfl⟩ := hb
    subst ha
    have smaller : ∀ new : List Nat, (∀ r ∈ new, r < top) → Acc Step ⟨new ++ rest⟩ := by
      intro new hlt
      induction new with
      | nil => exact hrest
      | cons n new ihn =>
        exact ih n (hlt n (by simp)) _ (ihn fun x hx => hlt x (List.mem_cons_of_mem _ hx))
    exact smaller new hlt

theorem acc (s : List Nat) : Acc Step ⟨s⟩ := by
  induction s with
  | nil => exact ⟨_, fun _ ⟨_, _, _, h, _⟩ => by simp at h⟩
  | cons top rest ih => exact acc_cons top rest ih

instance : WellFoundedRelation Ranks where
  rel := Step
  wf := ⟨fun s => acc s.toList⟩

end Ranks

/-! ### Frames -/

/-- A visit under way: the tasks that are left, each of which may nest `depth` deep, the outputs so
far with the last one first, and what is made of the outputs at the end. -/
structure Frame (α : Type) where
  depth : Nat
  tasks : List Task
  outs : List α
  finish : List α → List α

/-- The rank of a task: a visit counts for its depth, a run of statements for one visit each. -/
def Task.ranks (depth : Nat) : Task → List Nat
  | .visit _ => [depth + 1]
  | .fail _ => [1]
  | .stmts _ count => List.replicate count (depth + 1) ++ [1]

namespace Frame

variable {α : Type}

def ranks (f : Frame α) : List Nat := f.tasks.flatMap (Task.ranks f.depth) ++ [0]

theorem le_of_mem_ranks {f : Frame α} {r : Nat} (h : r ∈ f.ranks) : r ≤ f.depth + 1 := by
  simp only [ranks, List.mem_append, List.mem_flatMap, List.mem_singleton] at h
  obtain ⟨t, _, h⟩ | h := h
  · cases t with
    | visit v => simp only [Task.ranks, List.mem_singleton] at h; omega
    | fail f => simp only [Task.ranks, List.mem_singleton] at h; omega
    | stmts i n =>
      simp only [Task.ranks, List.mem_append, List.mem_replicate, List.mem_singleton] at h
      omega
  · omega

def stackRanks (fs : List (Frame α)) : Ranks := ⟨fs.flatMap ranks⟩

/-- A frame that is done makes way for the one below it. -/
theorem step_done {depth depth' : Nat} {outs before after : List α}
    {finish finish' : List α → List α} {tasks : List Task} {rest : List (Frame α)} :
    Ranks.Step (stackRanks (⟨depth', tasks, after, finish'⟩ :: rest))
      (stackRanks (⟨depth, [], outs, finish⟩ :: ⟨depth', tasks, before, finish'⟩ :: rest)) :=
  ⟨0, [], _, rfl, rfl, by simp⟩

/-- A frame for the visit in the first place of the ranks is put on top. -/
theorem step_push {depth : Nat} {task : Task} (more : List Task) {tasks tasks' : List Task}
    {outs : List α} {finish finish' : List α → List α} {rest : List (Frame α)}
    (h : task.ranks (depth + 1) = (depth + 2) :: more.flatMap (Task.ranks (depth + 1))) :
    Ranks.Step
      (stackRanks
        (⟨depth, tasks', [], finish'⟩ :: ⟨depth + 1, more ++ tasks, outs, finish⟩ :: rest))
      (stackRanks (⟨depth + 1, task :: tasks, outs, finish⟩ :: rest)) := by
  refine ⟨depth + 2, (Frame.mk depth tasks' [] finish').ranks,
    (stackRanks (⟨depth + 1, more ++ tasks, outs, finish⟩ :: rest)).toList, ?_, ?_, ?_⟩
  · simp [stackRanks, ranks, h]
  · simp [stackRanks]
  · intro r hr
    have := le_of_mem_ranks hr
    simp only at this
    omega

/-- A run of no statements is left out. -/
theorem step_skip {depth first : Nat} {tasks : List Task} {outs : List α}
    {finish : List α → List α} {rest : List (Frame α)} :
    Ranks.Step (stackRanks (⟨depth, tasks, outs, finish⟩ :: rest))
      (stackRanks (⟨depth, .stmts first 0 :: tasks, outs, finish⟩ :: rest)) :=
  ⟨1, [], (stackRanks (⟨depth, tasks, outs, finish⟩ :: rest)).toList,
    by simp [stackRanks, ranks, Task.ranks], rfl, by simp⟩

end Frame

namespace Pass

variable {σ α : Type}

/-- Goes on with the frame `top` over the frames `rest`, until all frames are done or one faults. -/
def resume (p : Pass σ α) (s : σ) (top : Frame α) (rest : List (Frame α)) :
    Outcome (List α) × σ :=
  match top, rest with
  | ⟨_, [], outs, finish⟩, [] => (.ok (finish outs.reverse), s)
  | ⟨_, [], outs, finish⟩, ⟨depth, tasks, before, finish'⟩ :: rest =>
    p.resume s ⟨depth, tasks, (finish outs.reverse).reverse ++ before, finish'⟩ rest
  | ⟨_, .fail f :: _, _, _⟩, _ => (.fault f, s)
  | ⟨depth, .stmts _ 0 :: tasks, outs, finish⟩, rest => p.resume s ⟨depth, tasks, outs, finish⟩ rest
  | ⟨0, .stmts _ (_ + 1) :: _, _, _⟩, _ => (.tooDeep, s)
  | ⟨depth + 1, .stmts first (count + 1) :: tasks, outs, finish⟩, rest =>
    let (m, s) := p.hook (.stmt (Id.ofIndex first)) s
    p.resume s ⟨depth, m.tasks, [], m.finish⟩
      (⟨depth + 1, .stmts (first + 1) count :: tasks, outs, finish⟩ :: rest)
  | ⟨0, .visit _ :: _, _, _⟩, _ => (.tooDeep, s)
  | ⟨depth + 1, .visit v :: tasks, outs, finish⟩, rest =>
    let (m, s) := p.hook v s
    p.resume s ⟨depth, m.tasks, [], m.finish⟩ (⟨depth + 1, tasks, outs, finish⟩ :: rest)
termination_by Frame.stackRanks (top :: rest)
decreasing_by
  · exact Frame.step_done
  · exact Frame.step_skip
  · exact Frame.step_push [.stmts (first + 1) count] (by simp [Task.ranks, List.replicate_succ])
  · exact Frame.step_push [] (by simp [Task.ranks])

/-- Carries out `tasks` in order, with visits nested at most `depth` deep. -/
def traverse (p : Pass σ α) (depth : Nat) (tasks : List Task) (s : σ) : Outcome (List α) × σ :=
  p.resume s ⟨depth, tasks, [], id⟩ []

/-! ### What the loop computes -/

/-- What the loop does with the outputs of the tasks of its top frame. -/
def deliver (p : Pass σ α) (depth : Nat) (tasks : List Task) (outs : List α)
    (finish : List α → List α) (rest : List (Frame α))
    (run : Outcome (List α) × σ) : Outcome (List α) × σ :=
  Outcome.andThen run fun new s => p.resume s ⟨depth, tasks, new.reverse ++ outs, finish⟩ rest

/-- The loop carries out the tasks of its top frame before anything else. -/
def Exhausts (p : Pass σ α) (depth : Nat) : Prop :=
  ∀ tasks s outs finish rest, p.resume s ⟨depth, tasks, outs, finish⟩ rest =
    p.deliver depth [] outs finish rest (perform (p.visit depth) (tasks.flatMap Task.steps) s)

/-- A frame that is put on top is carried out as the visit that it stands for. -/
theorem Exhausts.push {p : Pass σ α} {depth : Nat} (h : p.Exhausts depth) (v : Visit) (s : σ)
    (tasks : List Task) (outs : List α) (finish : List α → List α) (rest : List (Frame α)) :
    p.resume (p.hook v s).2 ⟨depth, (p.hook v s).1.tasks, [], (p.hook v s).1.finish⟩
        (⟨depth + 1, tasks, outs, finish⟩ :: rest) =
      p.deliver (depth + 1) tasks outs finish rest (p.visit (depth + 1) v s) := by
  rw [h]
  simp only [visit_eq, Move.steps]
  rcases perform (p.visit depth) ((p.hook v s).1.tasks.flatMap Task.steps) (p.hook v s).2 with
    ⟨_ | _ | _, t⟩
  · simp only [deliver, Outcome.andThen_ok]
    rw [resume]
    simp
  · rfl
  · rfl

/-- One visit and what comes after it. -/
theorem deliver_visit {p : Pass σ α} {depth : Nat} (v : Visit) (steps : List (Except Fault Visit))
    (s : σ) (outs : List α) (finish : List α → List α) (rest : List (Frame α)) (tasks : List Task)
    (h : ∀ s outs, p.resume s ⟨depth, tasks, outs, finish⟩ rest =
      p.deliver depth [] outs finish rest (perform (p.visit depth) steps s)) :
    p.deliver depth tasks outs finish rest (p.visit depth v s) =
      p.deliver depth [] outs finish rest (perform (p.visit depth) (.ok v :: steps) s) := by
  simp only [perform]
  rcases p.visit depth v s with ⟨_ | _ | _, t⟩
  · simp only [deliver, Outcome.andThen_ok, h]
    rcases perform (p.visit depth) steps t with ⟨_ | _ | _, u⟩ <;> simp
  · rfl
  · rfl

theorem exhausts (p : Pass σ α) (depth : Nat) : p.Exhausts depth := by
  induction depth with
  | zero =>
    intro tasks
    induction tasks with
    | nil => intro s outs finish rest; simp [perform, deliver]
    | cons t tasks ih =>
      intro s outs finish rest
      cases t with
      | visit v => rw [resume]; simp [Task.steps, perform, visit, deliver]
      | fail f => rw [resume]; simp [Task.steps, perform, deliver]
      | stmts first count =>
        cases count with
        | zero => rw [resume, ih]; simp [Task.steps]
        | succ n => rw [resume]; simp [Task.steps, List.range'_succ, perform, visit, deliver]
  | succ depth hd =>
    intro tasks
    induction tasks with
    | nil => intro s outs finish rest; simp [perform, deliver]
    | cons t tasks ih =>
      intro s outs finish rest
      cases t with
      | visit v =>
        rw [resume]
        exact (hd.push v s tasks outs finish rest).trans
          (deliver_visit v _ s outs finish rest tasks fun s outs => ih s outs finish rest)
      | fail f => rw [resume]; simp [Task.steps, perform, deliver]
      | stmts first count =>
        induction count generalizing first s outs with
        | zero => rw [resume, ih]; simp [Task.steps]
        | succ n ihn =>
          rw [resume]
          refine (hd.push _ s _ outs finish rest).trans
            ((deliver_visit _ _ s outs finish rest _ fun s outs => ihn s outs _).trans ?_)
          simp [Task.steps, List.range'_succ]

/-- The loop computes the meaning of the pass. -/
theorem traverse_eq (p : Pass σ α) (depth : Nat) (tasks : List Task) (s : σ) :
    p.traverse depth tasks s = perform (p.visit depth) (tasks.flatMap Task.steps) s := by
  rw [traverse, exhausts]
  rcases perform (p.visit depth) (tasks.flatMap Task.steps) s with ⟨_ | _ | _, s'⟩
  · simp only [deliver, Outcome.andThen_ok]
    rw [resume]
    simp
  · rfl
  · rfl

theorem traverse_visit (p : Pass σ α) (depth : Nat) (v : Visit) (s : σ) :
    p.traverse depth [.visit v] s = p.visit depth v s := by
  rw [traverse_eq]
  simp only [List.flatMap_cons, List.flatMap_nil, Task.steps, List.append_nil, perform]
  rcases p.visit depth v s with ⟨_ | _ | _, s'⟩ <;> simp

end Pass

/-- Carries out `tasks` over the arena in order. -/
def Arena.traverse {σ α : Type} (a : Arena) (p : Pass σ α) (tasks : List Task) (s : σ) :
    Outcome (List α) × σ :=
  p.traverse a.depth tasks s

end MergeForm
