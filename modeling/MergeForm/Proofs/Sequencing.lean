import MergeForm.Proofs.MergeMaps
import MergeForm.Proofs.Observation
import MergeForm.Proofs.VarNames

/-! Bodies in sequence.  What an analysis knows of the statements before has no influence on what it
finds in those after, but for what it has found already: the result for a body is put together from
the results for its two parts, wherever it is cut in two. -/

namespace MergeForm

/-! ### Runs one after the other -/

namespace Outcome

variable {σ α β γ : Type}

/-- The state that a run comes to, or why it does not get through. -/
def last (run : Outcome α × σ) : Outcome σ := run.1.map fun _ => run.2

/-- The results of two runs put together.  The second is not made if the first does not get
through. -/
def followedBy (join : α → β → γ) : Outcome α → Outcome β → Outcome γ
  | .ok x, second => second.map (join x)
  | .fault f, _ => .fault f
  | .tooDeep, _ => .tooDeep

theorem map_id (out : Outcome α) : out.map id = out := by
  cases out <;> rfl

theorem last_eq_tooDeep_iff {run : Outcome α × σ} : last run = .tooDeep ↔ run.1 = .tooDeep := by
  rcases run with ⟨_ | _ | _, s⟩ <;> simp [last, map]

@[simp] theorem last_andThen_finish (run : Outcome α × σ) (finish : α → β) :
    last (andThen run fun x s => (.ok (finish x), s)) = last run := by
  rcases run with ⟨_ | _ | _, s⟩ <;> rfl

end Outcome

namespace Pass

variable {σ α β : Type}

theorem last_perform_append (go : Visit → σ → Outcome (List α) × σ)
    (steps steps' : List (Except Fault Visit)) (s : σ) :
    Outcome.last (perform go (steps ++ steps') s) =
      Outcome.last (Outcome.andThen (perform go steps s) fun _ mid => perform go steps' mid) := by
  induction steps generalizing s with
  | nil => rfl
  | cons step rest ih =>
    cases step with
    | error f => rfl
    | ok v =>
      simp only [List.cons_append, perform]
      rcases go v s with ⟨out | f | _, mid⟩
      · rw [Outcome.andThen_ok, Outcome.last_andThen_finish, ih, Outcome.andThen_ok]
        rcases perform go rest mid with ⟨_ | _ | _, t⟩ <;> rfl
      · rfl
      · rfl

/-- What is told of the state after some steps is what was told of it before them, joined with what
is told where the same steps are made from the state `start`. -/
structure Additive (p : Pass σ α) (start : σ) (tell : σ → β) (join : β → β → β) : Prop where
  start : ∀ s, tell s = join (tell s) (tell start)
  alike : ∀ earlier, MovesAlike p p fun s t => tell s = join (tell earlier) (tell t)

theorem Additive.last_append {p : Pass σ α} {start : σ} {tell : σ → β} {join : β → β → β}
    (h : p.Additive start tell join) (depth : Nat) (steps steps' : List (Except Fault Visit))
    (s : σ) :
    (Outcome.last (perform (p.visit depth) (steps ++ steps') s)).map tell =
      ((Outcome.last (perform (p.visit depth) steps s)).map tell).followedBy join
        ((Outcome.last (perform (p.visit depth) steps' start)).map tell) := by
  rw [last_perform_append]
  rcases perform (p.visit depth) steps s with ⟨_ | _ | _, mid⟩
  -- What has been found by now is `mid`; from there on the pass does as it does from `start`.
  · have hrest := EndAlike.perform ((h.alike mid).toMatches.visit depth) steps' mid start
      (h.start mid)
    rw [MovesAlike.map_id_steps] at hrest
    obtain ⟨hout, hstate⟩ := hrest
    simp only [Outcome.andThen_ok, Outcome.last, Outcome.map, Outcome.followedBy, hout]
    cases (perform (p.visit depth) steps' start).1 <;> simp [hstate]
  · rfl
  · rfl

end Pass

/-! ### Bodies -/

/-- Runs that lie side by side have their numbers one after the other. -/
theorem Slots.ids_append {f : Family} {s n m : UInt32}
    (h : s.toNat + n.toNat + m.toNat < UInt32.size) :
    (⟨s, n + m⟩ : Slots f).ids = (⟨s, n⟩ : Slots f).ids ++ (⟨s + n, m⟩ : Slots f).ids := by
  have hnm : (n + m).toNat = n.toNat + m.toNat := by
    rw [UInt32.toNat_add, Nat.mod_eq_of_lt (by simp only [UInt32.size] at h; omega)]
  have hsn : (s + n).toNat = s.toNat + n.toNat := by
    rw [UInt32.toNat_add, Nat.mod_eq_of_lt (by simp only [UInt32.size] at h; omega)]
  have hboth : (⟨s, n + m⟩ : Slots f).idCount = n.toNat + m.toNat :=
    (idCount_eq_size (by simp only [stop, first, size, hnm]; omega)).trans hnm
  have hfirst : (⟨s, n⟩ : Slots f).idCount = n.toNat :=
    idCount_eq_size (by simp only [stop, first, size]; omega)
  have hsecond : (⟨s + n, m⟩ : Slots f).idCount = m.toNat :=
    idCount_eq_size (by simp only [stop, first, size, hsn]; omega)
  simp only [ids, hboth, hfirst, hsecond, first, hsn]
  rw [← List.map_append, ← List.range'_append_1]

def Slots.stmtSteps (r : StmtRange) : List (Except Fault Visit) :=
  r.ids.map fun id => .ok (.stmt id)

/-- The visit of a function is that of the statements in its body. -/
theorem Pass.Follows.last_function {σ α : Type} {p : Pass σ α}
    {next : Visit → List (Except Fault Visit)} {note : σ → Visit → σ} (h : p.Follows next note)
    {f : Function} (hf : next (.function f) = [.ok (.block f.body)])
    (hbody : next (.block f.body) = f.body.stmtSteps) (hnote : ∀ s, note s (.block f.body) = s)
    (depth : Nat) (s : σ) :
    Outcome.last (p.traverse (depth + 2) [.visit (.function f)] s) =
      Outcome.last (perform (p.visit depth) f.body.stmtSteps (note s (.function f))) := by
  rw [traverse_visit, visit_eq, Outcome.last_andThen_finish, h.steps, hf]
  simp only [perform, Outcome.andThen_ok, Outcome.last_andThen_finish]
  rw [visit_eq, Outcome.last_andThen_finish, h.steps, h.state, h.state, hbody, hnote]

/-- What ends within any bound ends within that of the arena. -/
theorem Pass.Follows.last_ends {σ α : Type} {p : Pass σ α} {a : Arena}
    {next : Visit → List (Except Fault Visit)} {note : σ → Visit → σ} (h : p.Follows next note)
    (hg : Graded a next) {tasks : List Task} {s : σ}
    (hend : ∃ depth, Outcome.last (p.traverse depth tasks s) ≠ .tooDeep) :
    Outcome.last (p.traverse a.depth tasks s) ≠ .tooDeep := by
  obtain ⟨depth, hd⟩ := hend
  have hsame := h.traverse_eq_of_ends hg (fun ht => hd (Outcome.last_eq_tooDeep_iff.mpr ht))
    (Nat.le_refl a.depth)
  rwa [hsame]

theorem Arena.two_le_depth (a : Arena) : 2 ≤ a.depth :=
  le_trans (by decide) (Nat.mul_le_mul (Nat.le_add_left 2 _)
    (Nat.mul_le_mul_left 16 (Nat.le_add_left 2 _)))

/-! ### The analyses -/

namespace MergeCheck

theorem additive (a : Arena) : (pass a).Additive #[] id (· ++ ·) where
  start found := by simp
  alike earlier :=
    { move := fun v _ _ _ => by cases v <;> rfl
      state := fun v s t hst => by
        simp only [id] at hst ⊢
        rw [(follows a).state, (follows a).state, hst]
        cases v with
        | merge r =>
          cases hr : a.merge? r with
          | none => simp [note, hr]
          | some phis => simp [note, hr, check_eq]
        | _ => rfl }

end MergeCheck

namespace Names

/-- Where the names `earlier` were known before, the same names get known beside them. -/
theorem toList_insert_beside {earlier : List Name} {s t : Names} (n : Name)
    (h : s.toList = earlier ++ t.toList.filter (· ∉ earlier)) :
    (s.insert n).toList = earlier ++ (t.insert n).toList.filter (· ∉ earlier) := by
  have hmem : n ∈ s ↔ n ∈ earlier ∨ n ∈ t := by
    rw [← mem_toList, h]
    by_cases hn : n ∈ earlier <;> simp [hn]
  rw [toList_insert, toList_insert, h]
  by_cases hearlier : n ∈ earlier <;> by_cases ht : n ∈ t <;> simp [hmem, hearlier, ht]

end Names

namespace VarSummary

/-- The names defined and the names used, in order. -/
def lists (s : VarSummary) : List Name × List Name := (s.defs.toList, s.uses.toList)

/-- The names of one summary, and behind them those of another that are not among them. -/
def joinLists (first second : List Name × List Name) : List Name × List Name :=
  (first.1 ++ second.1.filter (· ∉ first.1), first.2 ++ second.2.filter (· ∉ first.2))

section

variable {earlier : List Name × List Name} {s t : VarSummary}

theorem lists_define (n : Name) (h : s.lists = joinLists earlier t.lists) :
    (s.define n).lists = joinLists earlier (t.define n).lists := by
  obtain ⟨hdefs, huses⟩ := Prod.mk.inj h
  exact Prod.ext (Names.toList_insert_beside n hdefs) huses

theorem lists_use (n : Name) (h : s.lists = joinLists earlier t.lists) :
    (s.use n).lists = joinLists earlier (t.use n).lists := by
  obtain ⟨hdefs, huses⟩ := Prod.mk.inj h
  exact Prod.ext hdefs (Names.toList_insert_beside n huses)

theorem lists_foldl_define (ns : List Name) (h : s.lists = joinLists earlier t.lists) :
    (ns.foldl define s).lists = joinLists earlier (ns.foldl define t).lists := by
  induction ns generalizing s t with
  | nil => exact h
  | cons n ns ih => exact ih (lists_define n h)

theorem lists_enterLoop (a : Arena) (r : PhiRange) (h : s.lists = joinLists earlier t.lists) :
    (enterLoop a r s).2.lists = joinLists earlier (enterLoop a r t).2.lists := by
  simp only [enterLoop]
  cases a.merge? r with
  | none => exact h
  | some phis => simpa [List.foldl_map] using lists_foldl_define (phis.map Phi.name) h

end

theorem additive (a : Arena) : (pass a).Additive empty lists joinLists where
  start s := by simp [lists, joinLists, empty]
  alike earlier :=
    { move := fun v s t _ => by
        cases v with
        | exprForm f => cases f <;> rfl
        | targetForm t => cases t <;> rfl
        | loopEntry r =>
          simp only [pass, enterLoop]
          cases a.merge? r <;> rfl
        | _ => rfl
      state := fun v s t hst => by
        cases v with
        | function f => exact lists_foldl_define f.params hst
        | exprForm f =>
          cases f with
          | var n => exact lists_use n hst
          | _ => exact hst
        | targetForm t =>
          cases t with
          | var n => exact lists_define n hst
          | _ => exact hst
        | phi p => exact lists_define p.name hst
        | loopEntry r => exact lists_enterLoop a r hst
        | _ => exact hst }

end VarSummary

/-- The result for a body cut in two is that for the first part, where that is a fault, and else
that for the second part put behind it: of the check the duplicates, and of the names those that are
not among the names before.  And an analysis that comes to an end within any bound does within that
of the arena. -/
theorem Arena.analyses_in_sequence (a : Arena) (s n m : UInt32)
    (h : s.toNat + n.toNat + m.toNat < UInt32.size) (first second both : Function)
    (hfirst : first.body = ⟨s, n⟩) (hsecond : second.body = ⟨s + n, m⟩)
    (hboth : both.body = ⟨s, n + m⟩) (hparams : both.params = first.params)
    (hnone : second.params = []) :
    a.checkMerges both = (a.checkMerges first).followedBy (· ++ ·) (a.checkMerges second) ∧
      (a.collectVars both).map VarSummary.lists =
        ((a.collectVars first).map VarSummary.lists).followedBy VarSummary.joinLists
          ((a.collectVars second).map VarSummary.lists) ∧
      ∀ f : Function,
        ((∃ depth, MergeCheck.run a depth f ≠ .tooDeep) → a.checkMerges f ≠ .tooDeep) ∧
          ((∃ depth, VarSummary.run a depth f ≠ .tooDeep) → a.collectVars f ≠ .tooDeep) := by
  obtain ⟨depth, hdepth⟩ := Nat.exists_eq_add_of_le' a.two_le_depth
  have hsteps : both.body.stmtSteps = first.body.stmtSteps ++ second.body.stmtSteps := by
    rw [hboth, hfirst, hsecond]
    simp only [Slots.stmtSteps, Slots.ids_append h, List.map_append]
  refine ⟨?_, ?_, fun f => ⟨?_, ?_⟩⟩
  · have hbody (f : Function) : a.checkMerges f = Outcome.last
        (Pass.perform ((MergeCheck.pass a).visit depth) f.body.stmtSteps #[]) := by
      rw [checkMerges_eq, hdepth]
      exact (MergeCheck.follows a).last_function rfl (a.steps_block f.body) (fun _ => rfl) depth #[]
    have happend := (MergeCheck.additive a).last_append depth first.body.stmtSteps
      second.body.stmtSteps #[]
    rw [hbody, hbody, hbody, hsteps]
    simpa only [Outcome.map_id] using happend
  · have hbody (f : Function) : a.collectVars f = Outcome.last
        (Pass.perform ((VarSummary.pass a).visit depth) f.body.stmtSteps
          (f.params.foldl VarSummary.define .empty)) := by
      rw [collectVars_eq, hdepth]
      exact (VarSummary.follows a).last_function rfl (a.steps_block f.body) (fun _ => rfl) depth _
    rw [hbody, hbody, hbody, hsteps, hparams, hnone]
    exact (VarSummary.additive a).last_append depth first.body.stmtSteps second.body.stmtSteps _
  · exact (MergeCheck.follows a).last_ends a.graded
  · exact (VarSummary.follows a).last_ends (VarSummary.graded a)

/-- An assignment, a branch and a loop.  The branch merges one name twice, and so does the loop, with
another name between. -/
def branchThenLoop : Arena :=
  { Arena.empty with
    exprs := #[⟨.form (.var ⟨5⟩), .dummy⟩, ⟨.form (.var ⟨6⟩), .dummy⟩]
    stmts := #[⟨.form (.assign ⟨0⟩ ⟨1⟩), .dummy⟩,
      ⟨.form (.ifElse ⟨0⟩ .empty .empty ⟨0, 2⟩), .dummy⟩,
      ⟨.form (.whileLoop ⟨1⟩ .empty ⟨2, 3⟩), .dummy⟩]
    phis := #[⟨⟨7⟩, ⟨1⟩, ⟨0⟩⟩, ⟨⟨7⟩, ⟨0⟩, ⟨1⟩⟩, ⟨⟨5⟩, ⟨0⟩, ⟨1⟩⟩, ⟨⟨8⟩, ⟨1⟩, ⟨1⟩⟩, ⟨⟨5⟩, ⟨1⟩, ⟨0⟩⟩] }

/-- Cut in front of the loop.  The places of a repeated name are counted in its map and not in the
body, and a name that both parts define or use is listed where the first one has it. -/
theorem branchThenLoop_in_sequence :
    (0 : UInt32).toNat + (2 : UInt32).toNat + (1 : UInt32).toNat < UInt32.size ∧
      branchThenLoop.checkMerges ⟨⟨3⟩, .untyped, [⟨2⟩], ⟨0, 2 + 1⟩, .dummy⟩ =
        .ok #[⟨⟨7⟩, 0, 1, ⟨0, 2⟩⟩, ⟨⟨5⟩, 0, 2, ⟨2, 3⟩⟩] ∧
      (branchThenLoop.collectVars ⟨⟨3⟩, .untyped, [⟨2⟩], ⟨0, 2 + 1⟩, .dummy⟩).map
        VarSummary.lists = .ok ([⟨2⟩, ⟨5⟩, ⟨7⟩, ⟨8⟩], [⟨6⟩, ⟨5⟩]) := by
  have hfits : (0 : UInt32).toNat + (2 : UInt32).toNat + (1 : UInt32).toNat < UInt32.size := by
    decide
  obtain ⟨hmerges, hvars, -⟩ := Arena.analyses_in_sequence branchThenLoop 0 2 1 hfits
    ⟨⟨3⟩, .untyped, [⟨2⟩], ⟨0, 2⟩, .dummy⟩ ⟨⟨4⟩, .untyped, [], ⟨0 + 2, 1⟩, .dummy⟩
    ⟨⟨3⟩, .untyped, [⟨2⟩], ⟨0, 2 + 1⟩, .dummy⟩ rfl rfl rfl rfl rfl
  refine ⟨hfits, hmerges.trans ?_, hvars.trans ?_⟩
  · have hfirst : branchThenLoop.checkMerges ⟨⟨3⟩, .untyped, [⟨2⟩], ⟨0, 2⟩, .dummy⟩ =
        .ok (MergeCheck.check ⟨0, 2⟩ (branchThenLoop.entries ⟨0, 2⟩) #[]) := by
      simp only [Arena.checkMerges, MergeCheck.run, Pass.traverse_eq]
      rfl
    have hsecond : branchThenLoop.checkMerges ⟨⟨4⟩, .untyped, [], ⟨0 + 2, 1⟩, .dummy⟩ =
        .ok (MergeCheck.check ⟨2, 3⟩ (branchThenLoop.entries ⟨2, 3⟩) #[]) := by
      simp only [Arena.checkMerges, MergeCheck.run, Pass.traverse_eq]
      rfl
    simp only [hfirst, hsecond, MergeCheck.check_eq]
    rfl
  · have hfirst : branchThenLoop.collectVars ⟨⟨3⟩, .untyped, [⟨2⟩], ⟨0, 2⟩, .dummy⟩ =
        .ok (VarSummary.summarize [.define ⟨2⟩, .define ⟨5⟩, .use ⟨6⟩, .use ⟨5⟩, .define ⟨7⟩,
          .use ⟨6⟩, .use ⟨5⟩, .define ⟨7⟩, .use ⟨5⟩, .use ⟨6⟩]) := by
      simp only [Arena.collectVars, VarSummary.run, Pass.traverse_eq]
      rfl
    have hsecond : branchThenLoop.collectVars ⟨⟨4⟩, .untyped, [], ⟨0 + 2, 1⟩, .dummy⟩ =
        .ok (VarSummary.summarize [.define ⟨5⟩, .define ⟨8⟩, .define ⟨5⟩, .use ⟨5⟩, .use ⟨6⟩,
          .use ⟨6⟩, .use ⟨6⟩, .define ⟨5⟩, .use ⟨5⟩, .use ⟨6⟩, .define ⟨8⟩, .use ⟨6⟩, .use ⟨6⟩,
          .define ⟨5⟩, .use ⟨6⟩, .use ⟨5⟩]) := by
      simp only [Arena.collectVars, VarSummary.run, Pass.traverse_eq]
      rfl
    simp only [hfirst, hsecond, Outcome.map, VarSummary.lists, VarSummary.toList_defs_summarize,
      VarSummary.toList_uses_summarize]
    rfl

end MergeForm
