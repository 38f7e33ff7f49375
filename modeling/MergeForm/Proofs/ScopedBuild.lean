import MergeForm.Proofs.Closed
import MergeForm.Proofs.MergeMaps

/-! Building within scope.  A builder that mentions only numbers and runs that it has been given, or
empty runs, ends up with an arena in which everything that it has been given can be traversed: the
traversal ends, and nothing is missing. -/

namespace MergeForm

/-- An operation of a builder. -/
inductive Op
  | expr (e : Expr)
  | list (ids : List ExprId)
  /-- A block with its statements; the blocks nested in it are stored before. -/
  | block (stmts : List Stmt)
  | merge (phis : List Phi)
  | function (f : Function)
  | tuple (elts : List ExprId)
  | array (elts : List ExprId)
  | prim (p : Prim) (args : List ExprId)

/-- An arena under construction, with the numbers and runs that have been given out. -/
structure Scope where
  arena : Arena
  exprs : List ExprId
  lists : List ExprRange
  blocks : List StmtRange
  merges : List PhiRange
  functions : List FnId

namespace Scope

def start : Scope := ⟨.empty, [], [], [], [], []⟩

/-- Carries out one operation and gives out what it returns. -/
def apply (s : Scope) : Op → Scope
  | .expr e => { s with arena := (s.arena.addExpr e).2, exprs := (s.arena.addExpr e).1 :: s.exprs }
  | .list ids =>
    { s with arena := (s.arena.addList ids).2, lists := (s.arena.addList ids).1 :: s.lists }
  | .block stmts =>
    { s with arena := (s.arena.addBlock stmts).2, blocks := (s.arena.addBlock stmts).1 :: s.blocks }
  | .merge phis =>
    { s with arena := (s.arena.addMerge phis).2, merges := (s.arena.addMerge phis).1 :: s.merges }
  | .function f =>
    { s with
      arena := (s.arena.addFunction f).2
      functions := (s.arena.addFunction f).1 :: s.functions }
  | .tuple elts =>
    { s with arena := (s.arena.addTuple elts).2, exprs := (s.arena.addTuple elts).1 :: s.exprs }
  | .array elts =>
    { s with arena := (s.arena.addArray elts).2, exprs := (s.arena.addArray elts).1 :: s.exprs }
  | .prim p args =>
    { s with arena := (s.arena.addPrim p args).2, exprs := (s.arena.addPrim p args).1 :: s.exprs }

def run (s : Scope) (ops : List Op) : Scope := ops.foldl apply s

end Scope

/-! ### What an operation may mention -/

/-- The run has been given out, or is empty. -/
def Slots.In {f : Family} (r : Slots f) (given : List (Slots f)) : Prop := r ∈ given ∨ r = .empty

instance {f : Family} (r : Slots f) (given : List (Slots f)) : Decidable (r.In given) :=
  inferInstanceAs (Decidable (_ ∨ _))

def Expr.Form.InScope (s : Scope) (f : Expr.Form) : Prop :=
  (∀ x ∈ f.heads, x ∈ s.exprs) ∧ ∀ r ∈ f.list?, r.In s.lists

instance (s : Scope) (f : Expr.Form) : Decidable (f.InScope s) :=
  inferInstanceAs (Decidable (_ ∧ _))

def Stmt.Form.InScope (s : Scope) (f : Stmt.Form) : Prop :=
  (∀ x ∈ f.operands, x ∈ s.exprs) ∧ (∀ r ∈ f.blocks, r.In s.blocks) ∧ ∀ m ∈ f.merge?, m.In s.merges

instance (s : Scope) (f : Stmt.Form) : Decidable (f.InScope s) :=
  inferInstanceAs (Decidable (_ ∧ _))

/-- The operation mentions only what has been given out.  The numbers of functions and types and
the names are free. -/
def Op.InScope (s : Scope) : Op → Prop
  | .expr e => ∀ f ∈ e.kind.form?, f.InScope s
  | .list ids | .tuple ids | .array ids | .prim _ ids => ∀ x ∈ ids, x ∈ s.exprs
  | .block stmts => ∀ st ∈ stmts, ∀ f ∈ st.kind.form?, f.InScope s
  | .merge phis => ∀ p ∈ phis, p.left ∈ s.exprs ∧ p.right ∈ s.exprs
  | .function f => f.body.In s.blocks

instance (s : Scope) : (op : Op) → Decidable (op.InScope s)
  | .expr e => inferInstanceAs (Decidable (∀ f ∈ e.kind.form?, f.InScope s))
  | .list ids | .tuple ids | .array ids | .prim _ ids =>
    inferInstanceAs (Decidable (∀ x ∈ ids, x ∈ s.exprs))
  | .block stmts => inferInstanceAs (Decidable (∀ st ∈ stmts, ∀ f ∈ st.kind.form?, f.InScope s))
  | .merge phis => inferInstanceAs (Decidable (∀ p ∈ phis, p.left ∈ s.exprs ∧ p.right ∈ s.exprs))
  | .function f => inferInstanceAs (Decidable (f.body.In s.blocks))

namespace Scope

/-- Every operation mentions only what has been given out before it. -/
def Allows (s : Scope) : List Op → Prop
  | [] => True
  | op :: ops => op.InScope s ∧ (s.apply op).Allows ops

instance decidableAllows : (s : Scope) → (ops : List Op) → Decidable (s.Allows ops)
  | _, [] => .isTrue trivial
  | s, op :: ops =>
    have := decidableAllows (s.apply op) ops
    inferInstanceAs (Decidable (_ ∧ _))

/-- Whether a visit starts at something that has been given out. -/
def Offers (s : Scope) : Visit → Prop
  | .expr x | .target x => x ∈ s.exprs
  | .exprList r => r.In s.lists
  | .block r => r.In s.blocks
  | .stmt x => ∃ r ∈ s.blocks, x ∈ r.ids
  | .merge r | .mergeIf r | .loopEntry r | .loopRepeat r => r.In s.merges
  | .function f => f.body.In s.blocks ∨ ∃ id ∈ s.functions, s.arena.function? id = some f
  | .stmtForm _ | .exprForm _ | .targetForm _ | .phi _ => False

/-! ### The invariant -/

/-- The arena is closed, and all that has been given out resolves in it. -/
structure Sound (s : Scope) : Prop where
  closed : s.arena.Closed
  exprs : ∀ x ∈ s.exprs, x.index < s.arena.exprs.size
  lists : ∀ r ∈ s.lists, r.stop ≤ s.arena.operands.size
  blocks : ∀ r ∈ s.blocks, r.stop ≤ s.arena.stmts.size
  merges : ∀ r ∈ s.merges, r.stop ≤ s.arena.phis.size
  functions : ∀ id ∈ s.functions, id.index < s.arena.functions.size

theorem sound_start : start.Sound := by
  refine ⟨Arena.closed_empty, ?_, ?_, ?_, ?_, ?_⟩ <;> simp [start]

end Scope

theorem Slots.In.stop_le {f : Family} {r : Slots f} {given : List (Slots f)} {size : Nat}
    (h : r.In given) (hgiven : ∀ r ∈ given, r.stop ≤ size) : r.stop ≤ size := by
  rcases h with h | rfl
  · exact hgiven r h
  · exact Nat.zero_le _

namespace Scope.Sound

variable {s : Scope}

theorem exprForm (h : s.Sound) {f : Expr.Form} (hf : f.InScope s) :
    f.Below s.arena s.arena.exprs.size :=
  h.closed.below (fun x hx => h.exprs x (hf.1 x hx)) fun r hr => (hf.2 r hr).stop_le h.lists

theorem stmtForm (h : s.Sound) {f : Stmt.Form} (hf : f.InScope s) :
    f.Below s.arena s.arena.stmts.size where
  operands x hx := h.exprs x (hf.1 x hx)
  blocks r hr := (hf.2.1 r hr).stop_le h.blocks
  merge m hm := (hf.2.2 m hm).stop_le h.merges

/-- What has been given out stays good in a larger arena. -/
theorem grow (h : s.Sound) {a : Arena} (hg : s.arena.Grows a) (hc : a.Closed) :
    { s with arena := a }.Sound where
  closed := hc
  exprs x hx := (h.exprs x hx).trans_le hg.exprs
  lists r hr := (h.lists r hr).trans hg.operands_size
  blocks r hr := (h.blocks r hr).trans hg.stmts
  merges r hr := (h.merges r hr).trans hg.phis
  functions id hid := (h.functions id hid).trans_le hg.functions

theorem addExpr (h : s.Sound) {e : Expr}
    (he : ∀ f ∈ e.kind.form?, f.Below s.arena s.arena.exprs.size) : (s.apply (.expr e)).Sound := by
  have hgrown := h.grow (s.arena.grows_addExpr e) (h.closed.addExpr he)
  have hnew : (s.arena.addExpr e).1.index < (s.arena.addExpr e).2.exprs.size :=
    Id.index_ofIndex_lt (by simp [Arena.addExpr])
  exact { hgrown with exprs := List.forall_mem_cons.mpr ⟨hnew, hgrown.exprs⟩ }

theorem addList (h : s.Sound) {ids : List ExprId} (hids : ∀ x ∈ ids, x ∈ s.exprs) :
    (s.apply (.list ids)).Sound := by
  have hclosed := h.closed.addList fun y hy => h.exprs y (hids y hy)
  have hgrown := h.grow (s.arena.grows_addList ids) hclosed
  have hnew : (s.arena.addList ids).1.stop ≤ (s.arena.addList ids).2.operands.size :=
    (Arena.stop_slotsAfter_le _ _ _).trans (size_appendList _ _).ge
  exact { hgrown with lists := List.forall_mem_cons.mpr ⟨hnew, hgrown.lists⟩ }

/-- A form over a list just stored. -/
theorem addListForm (h : s.Sound) {ids : List ExprId} (hids : ∀ x ∈ ids, x ∈ s.exprs)
    {f : Expr.Form} (hheads : f.heads = []) (hlist : f.list? = some (s.arena.addList ids).1) :
    ((s.apply (.list ids)).apply (.expr ⟨.form f, .dummy⟩)).Sound := by
  have hsound := h.addList hids
  refine hsound.addExpr fun g hg => ?_
  obtain rfl : f = g := by simpa [Expr.Kind.form?] using hg
  refine hsound.closed.below (by simp [hheads]) fun r hr => hsound.lists r ?_
  obtain rfl : (s.arena.addList ids).1 = r := by simpa [hlist] using hr
  exact List.mem_cons_self ..

/-- One operation within scope. -/
theorem apply (h : s.Sound) {op : Op} (hop : op.InScope s) : (s.apply op).Sound := by
  -- An operation that gives out only the form gives out less than storing list and form does.
  have listForm {ids : List ExprId} (hids : ∀ x ∈ ids, x ∈ s.exprs) {f : Expr.Form}
      (hheads : f.heads = []) (hlist : f.list? = some (s.arena.addList ids).1) :
      { (s.apply (.list ids)).apply (.expr ⟨.form f, .dummy⟩) with lists := s.lists }.Sound := by
    have hsound := h.addListForm hids hheads hlist
    exact { hsound with lists := fun r hr => hsound.lists r (List.mem_cons_of_mem _ hr) }
  cases op with
  | expr e => exact h.addExpr fun f hf => h.exprForm (hop f hf)
  | list ids => exact h.addList hop
  | block stmts =>
    have hclosed := h.closed.addBlock fun st hst f hf => h.stmtForm (hop st hst f hf)
    have hgrown := h.grow (s.arena.grows_addBlock stmts) hclosed
    have hnew : (s.arena.addBlock stmts).1.stop ≤ (s.arena.addBlock stmts).2.stmts.size :=
      (Arena.stop_slotsAfter_le _ _ _).trans (size_appendList _ _).ge
    exact { hgrown with blocks := List.forall_mem_cons.mpr ⟨hnew, hgrown.blocks⟩ }
  | merge phis =>
    have hclosed := h.closed.addMerge fun p hp =>
      ⟨h.exprs p.left (hop p hp).1, h.exprs p.right (hop p hp).2⟩
    have hgrown := h.grow (s.arena.grows_addMerge phis) hclosed
    have hnew : (s.arena.addMerge phis).1.stop ≤ (s.arena.addMerge phis).2.phis.size :=
      (Arena.stop_slotsAfter_le _ _ _).trans (size_appendList _ _).ge
    exact { hgrown with merges := List.forall_mem_cons.mpr ⟨hnew, hgrown.merges⟩ }
  | function f =>
    have hgrown := h.grow (s.arena.grows_addFunction f) (h.closed.addFunction (hop.stop_le h.blocks))
    have hnew : (s.arena.addFunction f).1.index < (s.arena.addFunction f).2.functions.size :=
      Id.index_ofIndex_lt (by simp [Arena.addFunction])
    exact { hgrown with functions := List.forall_mem_cons.mpr ⟨hnew, hgrown.functions⟩ }
  | tuple elts => exact listForm hop (f := .tuple _) rfl rfl
  | array elts => exact listForm hop (f := .array _) rfl rfl
  | prim p args => exact listForm hop (f := .primCall p _) rfl rfl

theorem run {ops : List Op} (h : s.Sound) (hops : s.Allows ops) : (s.run ops).Sound := by
  induction ops generalizing s with
  | nil => exact h
  | cons op ops ih => exact ih (h.apply hops.1) hops.2

/-- What is offered resolves. -/
theorem resolves (h : s.Sound) {v : Visit} (hv : s.Offers v) : v.Resolves s.arena := by
  cases v with
  | expr x => exact h.exprs x hv
  | target x => exact h.exprs x hv
  | exprList r => exact hv.stop_le h.lists
  | block r => exact hv.stop_le h.blocks
  | stmt x =>
    obtain ⟨r, hr, hx⟩ := hv
    exact (Slots.index_lt_of_mem_ids hx).trans_le (h.blocks r hr)
  | merge r => exact hv.stop_le h.merges
  | mergeIf r => exact hv.stop_le h.merges
  | loopEntry r => exact hv.stop_le h.merges
  | loopRepeat r => exact hv.stop_le h.merges
  | function f =>
    rcases hv with hv | ⟨id, -, hf⟩
    · exact hv.stop_le h.blocks
    · exact h.closed.functions f (Array.mem_of_getElem? hf)
  | stmtForm f => exact hv.elim
  | exprForm f => exact hv.elim
  | targetForm t => exact hv.elim
  | phi p => exact hv.elim

end Scope.Sound

/-! ### Traversals -/

/-- The traversal got through, or came to a placeholder or to something that cannot be assigned to:
it neither went on without end nor missed anything. -/
def Outcome.Resolved {α : Type} : Outcome α → Prop
  | .ok _ => True
  | .fault (.unrecognized _ _) => True
  | .fault (.notTarget _ _ _) => True
  | .fault (.dangling _) => False
  | .tooDeep => False

namespace Outcome

variable {α β : Type}

theorem resolved_iff {out : Outcome α} :
    out.Resolved ↔ out ≠ .tooDeep ∧ ∀ node, out.fault? ≠ some (.dangling node) := by
  rcases out with _ | ⟨_ | _ | _⟩ | _ <;> simp [Resolved, fault?]

theorem resolved_map {out : Outcome α} {g : α → β} : (out.map g).Resolved ↔ out.Resolved := by
  rcases out with _ | ⟨_ | _ | _⟩ | _ <;> rfl

end Outcome

/-- In a closed arena, a pass that goes nowhere but under a visit and finds nothing missing there
gets a resolved outcome. -/
theorem Pass.Follows.resolved {σ α : Type} {p : Pass σ α} {a : Arena}
    {next : Visit → List (Except Fault Visit)} {note : σ → Visit → σ} (h : p.Follows next note)
    (hg : Graded a next) (hunder : ∀ v w, .ok w ∈ next v → Visit.Under a w v)
    (hmissing : ∀ v node, v.Resolves a → .error (.dangling node) ∉ next v) (hc : a.Closed)
    {v : Visit} (hv : v.Resolves a) (s : σ) :
    (p.traverse a.depth [.visit v] s).1.Resolved := by
  obtain ⟨n, visits, stop, ht⟩ := hc.falls.wellNested.exists_trail hunder [.ok v]
  have hsteps : Trail next n ([Task.visit v].flatMap Task.steps) visits stop := ht
  obtain ⟨hend, hstop, -⟩ := h.trail_traverse_of_graded hg hsteps (Nat.le_refl _) s
  refine Outcome.resolved_iff.mpr ⟨hend, fun node hf => ?_⟩
  have hkeeps (u w : Visit) (hu : u.Resolves a) (hw : .ok w ∈ next u) : w.Resolves a :=
    hu.under hc (hunder u w hw)
  rcases ht.fault_origin hkeeps (by simpa using hv) (hstop.symm.trans hf) with hmem | ⟨u, hu, hmem⟩
  · simp at hmem
  · exact hmissing u node hu hmem

/-- Whatever is built within scope, the default traversal of anything that has been given out ends,
and so do the check of merge maps and the collection of names; none of them misses anything. -/
theorem scoped_build_resolved (ops : List Op) (h : Scope.start.Allows ops) :
    (∀ v, (Scope.start.run ops).Offers v →
      ((Scope.start.run ops).arena.traverse (Pass.bare (Scope.start.run ops).arena)
        [.visit v] ()).1.Resolved) ∧
    (∀ f, (Scope.start.run ops).Offers (.function f) →
      ((Scope.start.run ops).arena.checkMerges f).Resolved ∧
        ((Scope.start.run ops).arena.collectVars f).Resolved) ∧
    ∀ id ∈ (Scope.start.run ops).functions,
      ∃ f, (Scope.start.run ops).arena.function? id = some f := by
  have hsound := Scope.sound_start.run h
  generalize Scope.start.run ops = s at hsound ⊢
  have hstep (v w : Visit) (hw : .ok w ∈ s.arena.steps v) : Visit.Under s.arena w v := .step hw
  have hmissing (v : Visit) (node : NodeRef) (hv : v.Resolves s.arena) :
      .error (.dangling node) ∉ s.arena.steps v := hv.dangling_notMem node
  refine ⟨fun v hv => ?_, fun f hf => ⟨?_, ?_⟩, fun id hid => ?_⟩
  · exact (Pass.follows_bare s.arena).resolved s.arena.graded hstep hmissing hsound.closed
      (hsound.resolves hv) ()
  · refine Outcome.resolved_map.mpr ?_
    exact (MergeCheck.follows s.arena).resolved s.arena.graded hstep hmissing hsound.closed
      (hsound.resolves hf) #[]
  · refine Outcome.resolved_map.mpr ?_
    exact (VarSummary.follows s.arena).resolved (VarSummary.graded s.arena)
      (fun v w hw => .of_varSummary hw) (fun v node hv => hv.dangling_notMem_varSummary node)
      hsound.closed (hsound.resolves hf) .empty
  · exact ⟨_, Array.getElem?_eq_getElem (hsound.functions id hid)⟩

/-- A function with a loop over a block that ends in a placeholder; the loop's merge map has a call
of a function that is never built. -/
def loopBuild : List Op :=
  [.expr ⟨.form (.var ⟨0⟩), .dummy⟩, .expr ⟨.form (.untypedFn ⟨9⟩), .dummy⟩, .tuple [⟨0⟩, ⟨1⟩],
    .list [⟨2⟩, ⟨0⟩], .expr ⟨.form (.call ⟨1⟩ ⟨2, 2⟩), .dummy⟩, .merge [⟨⟨1⟩, ⟨0⟩, ⟨3⟩⟩],
    .block [⟨.form (.assign ⟨2⟩ ⟨3⟩), .dummy⟩, ⟨.error, .dummy⟩],
    .block [⟨.form (.whileLoop ⟨0⟩ ⟨0, 2⟩ ⟨0, 1⟩), .dummy⟩],
    .function ⟨⟨2⟩, .untyped, [⟨3⟩], ⟨2, 1⟩, .dummy⟩]

theorem loopBuild_resolved :
    Scope.start.Allows loopBuild ∧
      ((Scope.start.run loopBuild).arena.collectVars
        ⟨⟨2⟩, .untyped, [⟨3⟩], ⟨2, 1⟩, .dummy⟩).Resolved := by
  have hallows : Scope.start.Allows loopBuild := by decide
  obtain ⟨-, hanalyses, -⟩ := scoped_build_resolved loopBuild hallows
  exact ⟨hallows, (hanalyses _ (.inl (by decide))).2⟩

end MergeForm
