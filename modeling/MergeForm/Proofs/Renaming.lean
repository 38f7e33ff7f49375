import MergeForm.Proofs.MergeMaps
import MergeForm.Proofs.Observation
import MergeForm.Proofs.VarNames

/-! Renaming.  The analyses compare names and do nothing else with them, so a renaming that keeps
different names apart comes through both of them: the traversal of the renamed program makes the
renamed visits, and what is found on the way has the new names in the places of the old ones.  What
the analyses find thus does not depend on the numbers that an interner happens to give out. -/

namespace MergeForm

/-! ### Programs with other names -/

namespace Expr

variable (ρ : Name → Name)

def Form.rename : Form → Form
  | .var n => .var (ρ n)
  | .attribute v n => .attribute v (ρ n)
  | f => f

def Kind.rename : Kind → Kind
  | .form f => .form (f.rename ρ)
  | .error => .error

def Target.rename : Target → Target
  | .var n => .var (ρ n)
  | .attribute v n => .attribute v (ρ n)
  | t => t

def rename (e : Expr) : Expr := { e with kind := e.kind.rename ρ }

@[simp] theorem Form.heads_rename (f : Form) : (f.rename ρ).heads = f.heads := by
  cases f <;> rfl

@[simp] theorem Form.list?_rename (f : Form) : (f.rename ρ).list? = f.list? := by
  cases f <;> rfl

@[simp] theorem Form.tag_rename (f : Form) : (f.rename ρ).tag = f.tag := by
  cases f <;> rfl

@[simp] theorem Form.target?_rename (f : Form) :
    (f.rename ρ).target? = f.target?.map (Target.rename ρ) := by
  cases f <;> rfl

@[simp] theorem Target.form_rename (t : Target) : (t.rename ρ).form = t.form.rename ρ := by
  cases t <;> rfl

end Expr

namespace Stmt

variable (ρ : Name → Name)

def Form.rename : Form → Form
  | .comment n => .comment (ρ n)
  | f => f

def Kind.rename : Kind → Kind
  | .form f => .form (f.rename ρ)
  | .error => .error

def rename (s : Stmt) : Stmt := { s with kind := s.kind.rename ρ }

end Stmt

def Phi.rename (ρ : Name → Name) (p : Phi) : Phi := { p with name := ρ p.name }

def Function.rename (ρ : Name → Name) (f : Function) : Function :=
  { f with name := ρ f.name, params := f.params.map ρ }

/-- The arena with every name replaced; all numbers and runs stay what they are. -/
def Arena.rename (ρ : Name → Name) (a : Arena) : Arena :=
  { a with
    exprs := a.exprs.map (Expr.rename ρ)
    stmts := a.stmts.map (Stmt.rename ρ)
    phis := a.phis.map (Phi.rename ρ)
    functions := a.functions.map (Function.rename ρ) }

def Visit.rename (ρ : Name → Name) : Visit → Visit
  | .function f => .function (f.rename ρ)
  | .stmtForm f => .stmtForm (f.rename ρ)
  | .exprForm f => .exprForm (f.rename ρ)
  | .targetForm t => .targetForm (t.rename ρ)
  | .phi p => .phi (p.rename ρ)
  | v => v

/-- A run has the mapped entries of a mapped table. -/
theorem Slots.entries?_map {f : Family} {α β : Type} (g : α → β) (r : Slots f) (table : Array α) :
    r.entries? (table.map g) = (r.entries? table).map (List.map g) := by
  simp only [entries?, Array.size_map]
  split <;> simp

namespace Arena

variable (ρ : Name → Name) (a : Arena)

theorem expr?_rename (id : ExprId) : (a.rename ρ).expr? id = (a.expr? id).map (Expr.rename ρ) :=
  Array.getElem?_map

theorem stmt?_rename (id : StmtId) : (a.rename ρ).stmt? id = (a.stmt? id).map (Stmt.rename ρ) :=
  Array.getElem?_map

theorem merge?_rename (r : PhiRange) :
    (a.rename ρ).merge? r = (a.merge? r).map (List.map (Phi.rename ρ)) :=
  r.entries?_map _ _

theorem entries_rename (r : PhiRange) :
    (a.rename ρ).entries r = (a.entries r).map (Phi.rename ρ) := by
  rw [entries, entries, merge?_rename]
  cases a.merge? r <;> rfl

theorem depth_rename : (a.rename ρ).depth = a.depth := by
  simp [depth, rename]

/-! ### The visits of a renamed program -/

theorem map_rename_exprSteps (ids : List ExprId) :
    (exprSteps ids).map (Except.map (Visit.rename ρ)) = exprSteps ids :=
  List.map_map

/-- Operand lists hold no names. -/
theorem steps_listTasks_rename (r : ExprRange) :
    ((a.rename ρ).listTasks r).flatMap Task.steps =
      ((a.listTasks r).flatMap Task.steps).map (Except.map (Visit.rename ρ)) := by
  have hlist : (a.rename ρ).listTasks r = a.listTasks r := rfl
  rw [hlist]
  cases hr : a.list? r with
  | none =>
    rw [a.steps_listTasks_none hr]
    rfl
  | some ids => rw [a.steps_listTasks_some hr, map_rename_exprSteps]

theorem steps_exprForm_rename (f : Expr.Form) :
    (a.rename ρ).steps (.exprForm (f.rename ρ)) =
      (a.steps (.exprForm f)).map (Except.map (Visit.rename ρ)) := by
  rw [steps_exprForm, steps_exprForm, Expr.Form.heads_rename, Expr.Form.list?_rename,
    List.map_append, map_rename_exprSteps]
  cases f.list? with
  | none => rfl
  | some r => exact congrArg _ (a.steps_listTasks_rename ρ r)

/-- Below a renamed visit there are the renamed visits, and the same fault if there is one. -/
theorem steps_rename (v : Visit) :
    (a.rename ρ).steps (v.rename ρ) = (a.steps v).map (Except.map (Visit.rename ρ)) := by
  cases v with
  | block r =>
    have hblock : Visit.rename ρ (.block r) = .block r := rfl
    rw [hblock, steps_block, steps_block, List.map_map]
    rfl
  | stmt id =>
    have hstmt : Visit.rename ρ (.stmt id) = .stmt id := rfl
    rw [hstmt, steps_stmt, steps_stmt, stmt?_rename]
    rcases a.stmt? id with _ | ⟨_ | _, span⟩ <;> rfl
  | stmtForm f => cases f <;> rfl
  | expr id =>
    have hexpr : Visit.rename ρ (.expr id) = .expr id := rfl
    rw [hexpr, steps_expr, steps_expr, expr?_rename]
    rcases a.expr? id with _ | ⟨_ | _, span⟩ <;> rfl
  | exprForm f => exact a.steps_exprForm_rename ρ f
  | exprList r => exact a.steps_listTasks_rename ρ r
  | target id =>
    have htarget : Visit.rename ρ (.target id) = .target id := rfl
    rw [htarget, steps_target, steps_target, expr?_rename]
    rcases a.expr? id with _ | ⟨f | _, span⟩
    · rfl
    · simp only [Option.map_some, Expr.rename, Expr.Kind.rename, Expr.Form.target?_rename,
        Expr.Form.tag_rename]
      cases f.target? <;> rfl
    · rfl
  | targetForm t => cases t <;> rfl
  | merge r =>
    have hmerge : Visit.rename ρ (.merge r) = .merge r := rfl
    rw [hmerge, steps_merge, steps_merge, merge?_rename]
    cases a.merge? r with
    | none => rfl
    | some phis =>
      simp only [Option.map_some, List.map_map]
      rfl
  | _ => rfl

end Arena

theorem VarSummary.steps_rename (ρ : Name → Name) (a : Arena) (v : Visit) :
    steps (a.rename ρ) (v.rename ρ) = (steps a v).map (Except.map (Visit.rename ρ)) := by
  have hdefault := a.steps_rename ρ v
  cases v with
  | exprForm f =>
    cases f with
    | var n => rfl
    | _ => exact hdefault
  | targetForm t =>
    cases t with
    | var n => rfl
    | tuple r =>
      have htuple : Visit.rename ρ (.targetForm (.tuple r)) = .targetForm (.tuple r) := rfl
      have hlist : (a.rename ρ).list? r = a.list? r := rfl
      rw [htuple, steps_tuple, steps_tuple, hlist]
      cases a.list? r with
      | none => rfl
      | some ids =>
        simp only [List.map_map]
        rfl
    | _ => exact hdefault
  | loopEntry r =>
    have hentry : Visit.rename ρ (.loopEntry r) = .loopEntry r := rfl
    rw [hentry, steps_loopEntry, steps_loopEntry, Arena.merge?_rename]
    cases a.merge? r with
    | none => rfl
    | some phis =>
      simp only [Option.map_some, Arena.map_rename_exprSteps, List.map_map]
      rfl
  | _ => exact hdefault

/-! ### Repeated names -/

def Duplicate.rename (ρ : Name → Name) (d : Duplicate) : Duplicate := { d with name := ρ d.name }

/-- A renaming that keeps different names apart leaves each name in its first place. -/
theorem idxOf_map_of_injective {ρ : Name → Name} (hρ : Function.Injective ρ) (n : Name)
    (ns : List Name) : (ns.map ρ).idxOf (ρ n) = ns.idxOf n := by
  induction ns with
  | nil => rfl
  | cons m ns ih =>
    rw [List.map_cons, List.idxOf_cons, List.idxOf_cons, ih, hρ.beq_eq]

namespace MergeCheck

variable {ρ : Name → Name} (hρ : Function.Injective ρ)

include hρ

theorem duplicate?_rename (r : PhiRange) (phis : List Phi) (p : Phi) (second : Nat) :
    duplicate? r (phis.map (Phi.rename ρ)) (p.rename ρ) second =
      (duplicate? r phis p second).map (Duplicate.rename ρ) := by
  have hnames : (phis.map (Phi.rename ρ)).map Phi.name = (phis.map Phi.name).map ρ := by
    rw [List.map_map, List.map_map]
    rfl
  have hfirst : ((phis.map (Phi.rename ρ)).map Phi.name).idxOf (p.rename ρ).name =
      (phis.map Phi.name).idxOf p.name := by
    rw [hnames]
    exact idxOf_map_of_injective hρ p.name (phis.map Phi.name)
  simp only [duplicate?, hfirst]
  split <;> rfl

theorem duplicates_rename (r : PhiRange) (phis : List Phi) :
    duplicates r (phis.map (Phi.rename ρ)) =
      (duplicates r phis).map (Duplicate.rename ρ) := by
  simp only [duplicates, List.zipIdx_map, List.filterMap_map, List.map_filterMap]
  apply List.filterMap_congr
  rintro ⟨p, second⟩ -
  exact duplicate?_rename hρ r phis p second

/-- The check of a renamed map finds what the check of the map does, under the new names. -/
theorem check_rename (r : PhiRange) (phis : List Phi) (found : Array Duplicate) :
    check r (phis.map (Phi.rename ρ)) (found.map (Duplicate.rename ρ)) =
      (check r phis found).map (Duplicate.rename ρ) := by
  rw [check_eq, check_eq, Array.map_append, duplicates_rename hρ, ← List.map_toArray]

theorem matches_rename (a : Arena) :
    Pass.Matches (pass a) (pass (a.rename ρ)) (Visit.rename ρ)
      fun found found' => found' = found.map (Duplicate.rename ρ) where
  steps v found found' _ := by
    rw [(follows a).steps, (follows (a.rename ρ)).steps, a.steps_rename]
  finish v found found' _ := by
    cases v with
    | exprForm f => cases f <;> rfl
    | _ => rfl
  state v found found' hfound := by
    subst hfound
    cases v with
    | merge r =>
      simp only [Visit.rename, pass, a.merge?_rename]
      cases a.merge? r with
      | none => rfl
      | some phis => exact check_rename hρ r phis found
    | _ => rfl

end MergeCheck

/-! ### Names defined and used -/

def Access.rename (ρ : Name → Name) : Access → Access
  | .use n => .use (ρ n)
  | .define n => .define (ρ n)

theorem Visit.accesses_rename (ρ : Name → Name) (a : Arena) (v : Visit) :
    (v.rename ρ).accesses (a.rename ρ) = (v.accesses a).map (Access.rename ρ) := by
  cases v with
  | function f =>
    simp only [rename, accesses, Function.rename, List.map_map]
    rfl
  | exprForm f => cases f <;> rfl
  | targetForm t => cases t <;> rfl
  | loopEntry r =>
    simp only [rename, accesses, a.entries_rename, List.map_map]
    rfl
  | _ => rfl

/-- The second collection holds the renamed names of the first, in the same order. -/
def Names.Renamed (ρ : Name → Name) (s t : Names) : Prop := t.toList = s.toList.map ρ

theorem Names.Renamed.insert {ρ : Name → Name} (hρ : Function.Injective ρ) {s t : Names}
    (h : Renamed ρ s t) (n : Name) : Renamed ρ (s.insert n) (t.insert (ρ n)) := by
  have hmem : ρ n ∈ t ↔ n ∈ s := by
    rw [← mem_toList, ← mem_toList, h]
    exact List.mem_map_of_injective hρ
  rw [Renamed, toList_insert, toList_insert, h]
  by_cases hn : n ∈ s
  · rw [if_pos (hmem.mpr hn), if_pos hn]
  · rw [if_neg (mt hmem.mp hn), if_neg hn, List.map_append, List.map_singleton]

namespace VarSummary

structure Renamed (ρ : Name → Name) (s t : VarSummary) : Prop where
  defs : s.defs.Renamed ρ t.defs
  uses : s.uses.Renamed ρ t.uses

namespace Renamed

theorem empty (ρ : Name → Name) : Renamed ρ .empty .empty := ⟨rfl, rfl⟩

variable {ρ : Name → Name} (hρ : Function.Injective ρ) {s t : VarSummary} (h : Renamed ρ s t)

include hρ h

theorem access (x : Access) : Renamed ρ (s.access x) (t.access (x.rename ρ)) := by
  cases x with
  | use n => exact ⟨h.defs, h.uses.insert hρ n⟩
  | define n => exact ⟨h.defs.insert hρ n, h.uses⟩

theorem foldl_access (xs : List Access) :
    Renamed ρ (xs.foldl VarSummary.access s)
      ((xs.map (Access.rename ρ)).foldl VarSummary.access t) := by
  induction xs generalizing s t with
  | nil => exact h
  | cons x xs ih => exact ih (h.access hρ x)

/-- A name is free just where the new name is, since no other name has the same new one. -/
theorem free : t.free = s.free.map ρ := by
  rw [free_eq, free_eq, h.defs, h.uses, List.filter_map]
  congr 1
  refine List.filter_congr fun n _ => decide_eq_decide.mpr (not_congr ?_)
  exact List.mem_map_of_injective hρ

end Renamed

theorem matches_rename {ρ : Name → Name} (hρ : Function.Injective ρ) (a : Arena) :
    Pass.Matches (pass a) (pass (a.rename ρ)) (Visit.rename ρ) (Renamed ρ) where
  steps v s t _ := by
    rw [(follows a).steps, (follows (a.rename ρ)).steps, steps_rename]
  finish v s t _ := by
    cases v with
    | exprForm f => cases f <;> rfl
    | targetForm t => cases t <;> rfl
    | loopEntry r =>
      simp only [Visit.rename, pass, enterLoop, a.merge?_rename]
      cases a.merge? r <;> rfl
    | _ => rfl
  state v s t h := by
    -- What a visit does to a summary is told by its accesses, and these are the renamed ones.
    have hnote := h.foldl_access hρ (v.accesses a)
    rwa [← note_eq, ← v.accesses_rename, ← note_eq] at hnote

end VarSummary

/-! ### The analyses of a renamed function -/

section

variable {ρ : Name → Name} {σ τ α β γ : Type} {R : σ → τ → Prop}

/-- Passes that match in a renamed arena end alike at a renamed function, and give the same result
if it is read off related states alike. -/
theorem Pass.Matches.function_rename {a : Arena} {p : Pass σ α} {q : Pass τ α}
    (h : p.Matches q (Visit.rename ρ) R) (f : Function) (view : σ → γ) (view' : τ → γ)
    (hview : ∀ s t, R s t → view' t = view s) {s : σ} {t : τ} (hst : R s t) :
    ((q.traverse (a.rename ρ).depth [.visit (.function (f.rename ρ))] t).1.map fun _ =>
        view' (q.traverse (a.rename ρ).depth [.visit (.function (f.rename ρ))] t).2) =
      (p.traverse a.depth [.visit (.function f)] s).1.map fun _ =>
        view (p.traverse a.depth [.visit (.function f)] s).2 := by
  have htasks : [Task.visit (.function (f.rename ρ))].flatMap Task.steps =
      ([Task.visit (.function f)].flatMap Task.steps).map (Except.map (Visit.rename ρ)) := rfl
  have hrun := h.traverse a.depth htasks hst
  rw [a.depth_rename, ← hrun.outcome, hview _ _ hrun.state]

end

open Arena in
/-- A renaming that keeps different names apart comes through both analyses.  The names defined,
used and free are the new names of those of the program as it was, in the same order, and the
repeated names are found in the same places of the same maps; a fault stays what it is. -/
theorem analyses_rename (ρ : Name → Name) (hρ : Function.Injective ρ) (a : Arena) (f : Function) :
    ((a.rename ρ).collectVars (f.rename ρ)).map
          (fun s => (s.defs.toList, s.uses.toList, s.free)) =
        (a.collectVars f).map
          (fun s => (s.defs.toList.map ρ, s.uses.toList.map ρ, s.free.map ρ)) ∧
      (a.rename ρ).checkMerges (f.rename ρ) =
        (a.checkMerges f).map fun found => found.map (Duplicate.rename ρ) := by
  constructor
  · rw [collectVars_eq, collectVars_eq, Outcome.map_map, Outcome.map_map]
    refine (VarSummary.matches_rename hρ a).function_rename f
      (fun s => (s.defs.toList.map ρ, s.uses.toList.map ρ, s.free.map ρ))
      (fun s => (s.defs.toList, s.uses.toList, s.free)) (fun s t hst => ?_) (.empty ρ)
    rw [hst.defs, hst.uses, hst.free hρ]
  · rw [checkMerges_eq, checkMerges_eq, Outcome.map_map]
    exact (MergeCheck.matches_rename hρ a).function_rename f
      (fun found => found.map (Duplicate.rename ρ)) id (fun _ _ hst => hst) Array.map_empty.symm

/-- The name at the other end of the numbers. -/
def Name.mirror (n : Name) : Name := ⟨~~~n.val⟩

theorem Name.mirror_injective : Function.Injective mirror := by
  intro m n h
  rw [mirror, mirror, Name.mk.injEq, UInt32.not_inj] at h
  exact congrArg Name.mk h

/-- A branch on a variable that is nowhere defined.  Its merge map has one name twice. -/
def twiceMerged : Arena × Function :=
  ({ Arena.empty with
      exprs := #[⟨.form (.var ⟨5⟩), .dummy⟩]
      stmts := #[⟨.form (.ifElse ⟨0⟩ ⟨0, 0⟩ ⟨0, 0⟩ ⟨0, 2⟩), .dummy⟩]
      phis := #[⟨⟨1⟩, ⟨0⟩, ⟨0⟩⟩, ⟨⟨1⟩, ⟨0⟩, ⟨0⟩⟩] },
    { name := ⟨3⟩, typing := .untyped, params := [⟨2⟩], body := ⟨0, 1⟩, span := .dummy })

/-- The order of the numbers of all names is turned around, and that of the names found is not. -/
theorem twiceMerged_mirrored :
    Function.Injective Name.mirror ∧
      ((twiceMerged.1.rename Name.mirror).collectVars (twiceMerged.2.rename Name.mirror)).map
          (fun s => (s.defs.toList, s.uses.toList, s.free)) =
        .ok ([Name.mirror ⟨2⟩, Name.mirror ⟨1⟩], [Name.mirror ⟨5⟩], [Name.mirror ⟨5⟩]) ∧
      (twiceMerged.1.rename Name.mirror).checkMerges (twiceMerged.2.rename Name.mirror) =
        .ok #[⟨Name.mirror ⟨1⟩, 0, 1, ⟨0, 2⟩⟩] := by
  obtain ⟨hvars, hmerges⟩ :=
    analyses_rename Name.mirror Name.mirror_injective twiceMerged.1 twiceMerged.2
  have hsummary : twiceMerged.1.collectVars twiceMerged.2 =
      .ok (VarSummary.summarize [.define ⟨2⟩, .use ⟨5⟩, .define ⟨1⟩, .use ⟨5⟩, .use ⟨5⟩,
        .define ⟨1⟩, .use ⟨5⟩, .use ⟨5⟩]) := by
    simp only [Arena.collectVars, VarSummary.run, Pass.traverse_eq]
    rfl
  have hfound : twiceMerged.1.checkMerges twiceMerged.2 =
      .ok (MergeCheck.check ⟨0, 2⟩ [⟨⟨1⟩, ⟨0⟩, ⟨0⟩⟩, ⟨⟨1⟩, ⟨0⟩, ⟨0⟩⟩] #[]) := by
    simp only [Arena.checkMerges, MergeCheck.run, Pass.traverse_eq]
    rfl
  refine ⟨Name.mirror_injective, hvars.trans ?_, hmerges.trans ?_⟩
  · simp only [hsummary, Outcome.map, VarSummary.free_eq, VarSummary.toList_defs_summarize,
      VarSummary.toList_uses_summarize]
    rfl
  · have hlist : MergeCheck.check ⟨0, 2⟩ [⟨⟨1⟩, ⟨0⟩, ⟨0⟩⟩, ⟨⟨1⟩, ⟨0⟩, ⟨0⟩⟩] #[] =
        #[⟨⟨1⟩, 0, 1, ⟨0, 2⟩⟩] := by
      rw [MergeCheck.check_eq]
      rfl
    simp [hfound, hlist, Outcome.map, Duplicate.rename]

end MergeForm
