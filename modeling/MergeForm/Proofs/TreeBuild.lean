import MergeForm.Proofs.BuildRules

/-! Trees in an arena.  A tree that has been built is visited without a fault: what was stored for
it is visited once, nothing else is, and what a reader meets is what stands in the tree.  The names
and numbers that were given out, and what was there before, do not come into it. -/

namespace MergeForm

/-! ### Expressions -/

namespace Arena

variable (a : Arena) (g : ExprId) (i : Option ExprId)

theorem steps_reduce (r : ExprRange) : a.steps (.exprForm (.reduce g i r)) =
    [.ok (.expr g)] ++ exprSteps i.toList ++ a.steps (.exprList r) := by
  cases i <;> rfl

theorem steps_scan (r : ExprRange) : a.steps (.exprForm (.scan g i r)) =
    [.ok (.expr g)] ++ exprSteps i.toList ++ a.steps (.exprList r) := by
  cases i <;> rfl

theorem steps_indexScan (s : ExprId) : a.steps (.exprForm (.indexScan g i s)) =
    [.ok (.expr g)] ++ exprSteps i.toList ++ [.ok (.expr s)] := by
  cases i <;> rfl

end Arena

open Draft

/-- Wherever `m` starts, things are stored for the steps `todo` of its result, and `log` is read
there. -/
def Makes {α : Type} (m : StateM Draft α) (todo : α → Arena → List (Except Fault Visit))
    (log : List String) : Prop :=
  ∀ d, Built d (m d).2 (todo (m d).1) log

theorem Makes.list {m : StateM Draft (List ExprId)} {log : List String}
    (h : Makes m (fun ids _ => exprSteps ids) log) :
    Makes (m >>= Draft.list) (fun r a => a.steps (.exprList r)) log :=
  fun d => (h d).list

theorem makes_var (s : String) :
    Makes (FormTree.build (.var s)) (fun f _ => [.ok (.exprForm f)]) ["var:" ++ s] := fun d =>
  ((Built.nil d).intern s).marked (fun _ => rfl) rfl rfl rfl fun _ hlater hfits =>
    congrArg ("var:" ++ ·) (lookup_later hlater hfits)

theorem makes_const (c : Const) :
    Makes (FormTree.build (.const c)) (fun f _ => [.ok (.exprForm f)])
      ["const:" ++ Mark.constText c] := fun d =>
  (Built.nil d).marked (fun _ => rfl) rfl rfl rfl fun _ _ _ => rfl

mutual

theorem ExprTree.makes : ∀ t : ExprTree, Makes t.build (fun id _ => [.ok (.expr id)]) t.log
  | .node form span => fun d => (form.makes d).expr span

/-- In each form the operands are stored in the order in which they are visited, a list behind the
operands in front of it. -/
theorem FormTree.makes : ∀ f : FormTree, Makes f.build (fun f _ => [.ok (.exprForm f)]) f.log
  | .var s => makes_var s
  | .const c => makes_const c
  | .untypedFn _ | .typedFn _ | .typeValue _ => fun d => (Built.nil d).form (fun _ => rfl) rfl
  | .attribute x s => fun d => ((x.makes d).intern s).form (fun _ => rfl) rfl
  | .cast x _ | .closureElt x _ | .tupleProj x _ | .alloc x _ | .allocArray x _ | .shape x
  | .strides x | .ravel x => fun d => (x.makes d).form (fun _ => rfl) rfl
  | .tuple xs | .struct xs | .array xs | .primCall _ xs => fun d =>
    ((ExprTree.makes_all xs).list d).form (fun _ => rfl) rfl
  | .index x y | .reshape x y | .indexMap x y => fun d =>
    ((x.makes d).append (y.makes _)).form (fun _ => rfl) rfl
  | .slice x y z | .range x y z => fun d =>
    (((x.makes d).append (y.makes _)).append (z.makes _)).form (fun _ => rfl) rfl
  | .indexReduce x y z w => fun d =>
    ((((x.makes d).append (y.makes _)).append (z.makes _)).append (w.makes _)).form
      (fun _ => rfl) rfl
  | .arrayView x y z w v => fun d =>
    (((((x.makes d).append (y.makes _)).append (z.makes _)).append (w.makes _)).append
      (v.makes _)).form (fun _ => rfl) rfl
  | .call g xs | .closure g xs | .map g xs | .outerMap g xs => fun d =>
    ((g.makes d).append ((ExprTree.makes_all xs).list _)).form (fun _ => rfl) rfl
  -- Whether there is a starting value is open, so the steps below these forms do not compute.
  | .reduce g i xs => fun d =>
    (((g.makes d).append (ExprTree.makes_init i _)).append ((ExprTree.makes_all xs).list _)).form
      (fun a => a.steps_reduce ..) rfl
  | .scan g i xs => fun d =>
    (((g.makes d).append (ExprTree.makes_init i _)).append ((ExprTree.makes_all xs).list _)).form
      (fun a => a.steps_scan ..) rfl
  | .indexScan g i x => fun d =>
    (((g.makes d).append (ExprTree.makes_init i _)).append (x.makes _)).form
      (fun a => a.steps_indexScan ..) rfl

theorem ExprTree.makes_all : ∀ ts : List ExprTree,
    Makes (ExprTree.buildAll ts) (fun ids _ => exprSteps ids) (ExprTree.logAll ts)
  | [] => fun d => .nil d
  | t :: ts => fun d => (t.makes d).append (ExprTree.makes_all ts _)

theorem ExprTree.makes_init : ∀ i : Option ExprTree,
    Makes (ExprTree.buildInit i) (fun i _ => exprSteps i.toList) (ExprTree.logInit i)
  | none => fun d => .nil d
  | some t => fun d => t.makes d

end

theorem TargetNode.makes : ∀ t : TargetNode,
    Makes t.build (fun id _ => [.ok (.target id)]) t.target.form.log
  | ⟨.var s, span⟩ => fun d => Built.target (t := .var _) (FormTree.makes (.var s) d) span
  | ⟨.tuple xs, span⟩ => fun d => Built.target (t := .tuple _) (FormTree.makes (.tuple xs) d) span
  | ⟨.index x y, span⟩ => fun d =>
    Built.target (t := .index _ _) (FormTree.makes (.index x y) d) span
  | ⟨.attribute x s, span⟩ => fun d =>
    Built.target (t := .attribute _ _) (FormTree.makes (.attribute x s) d) span

/-! ### Merge maps -/

theorem EntryTree.makes (e : EntryTree) : Makes e.build (fun p _ => [.ok (.phi p)]) e.log := by
  intro d
  have hname := (Built.nil d).intern e.name
  have hleft := e.left.makes (Draft.intern e.name d).2
  have hright := e.right.makes (e.left.build (Draft.intern e.name d).2).2
  refine ((hname.append hleft).append hright).marked (fun _ => rfl) rfl rfl rfl ?_
  intro later hlater hfits
  exact congrArg ("phi:" ++ ·)
    (lookup_later ((hleft.grows.trans hright.grows).trans hlater) hfits)

theorem EntryTree.makes_all : ∀ es : List EntryTree,
    Makes (EntryTree.buildAll es) (fun phis _ => phis.map fun p => .ok (.phi p))
      (es.flatMap EntryTree.log)
  | [] => fun d => .nil d
  | e :: es => fun d => (e.makes d).append (EntryTree.makes_all es _)

theorem EntryTree.makes_merge (es : List EntryTree) :
    Makes (EntryTree.buildAll es >>= Draft.merge) (fun r _ => [.ok (.merge r)])
      (es.flatMap EntryTree.log) :=
  fun d => (EntryTree.makes_all es d).merge.silent (fun _ => rfl) ⟨rfl, rfl, rfl⟩

theorem makes_mergeIf (es : List EntryTree) :
    Makes (EntryTree.buildAll es >>= Draft.merge) (fun r _ => [.ok (.mergeIf r)])
      ("merge_if" :: es.flatMap EntryTree.log) :=
  fun d => (EntryTree.makes_merge es d).marked (fun _ => rfl) rfl rfl rfl fun _ _ _ => rfl

theorem makes_loopRepeat (es : List EntryTree) :
    Makes (EntryTree.buildAll es >>= Draft.merge) (fun r _ => [.ok (.loopRepeat r)])
      ("merge_repeat" :: es.flatMap EntryTree.log) :=
  fun d => (EntryTree.makes_merge es d).marked (fun _ => rfl) rfl rfl rfl fun _ _ _ => rfl

/-! ### Statements -/

theorem Makes.block {m : StateM Draft (List (Stmt.Form × Span))} {log : List String}
    (h : Makes m (fun parts _ => parts.map fun p => .ok (.stmtForm p.1)) log) :
    Makes (m >>= Draft.block) (fun r _ => [.ok (.block r)]) log :=
  fun d => (h d).block

/-- The entry of a loop is read, whatever its merge map is, and nothing is visited there. -/
theorem built_loopEntry (d : Draft) (r : PhiRange) :
    Built d d (fun _ => [.ok (.loopEntry r)]) ["merge_start"] :=
  (Built.nil d).marked (fun _ => rfl) rfl rfl rfl fun _ _ _ => rfl

mutual

theorem StmtTree.makes : ∀ t : StmtTree, Makes t.build (fun p _ => [.ok (.stmtForm p.1)]) t.log
  | .node form _ => fun d => form.makes d

theorem StmtFormTree.makes : ∀ f : StmtFormTree,
    Makes f.build (fun f _ => [.ok (.stmtForm f)]) f.log
  | .assign l r => fun d =>
    ((l.makes d).append (r.makes _)).silent (fun _ => rfl) ⟨rfl, rfl, rfl⟩
  | .eval e | .ret e => fun d => (e.makes d).silent (fun _ => rfl) ⟨rfl, rfl, rfl⟩
  | .comment s => fun d =>
    ((Built.nil d).intern s).marked (fun _ => rfl) rfl rfl rfl fun _ hlater hfits =>
      congrArg ("comment:" ++ ·) (lookup_later hlater hfits)
  | .ifElse c t f m => fun d =>
    ((((c.makes d).append ((StmtTree.makes_all t).block _)).append
      ((StmtTree.makes_all f).block _)).append (makes_mergeIf m _)).silent
        (fun _ => rfl) ⟨rfl, rfl, rfl⟩
  | .whileLoop c b m => fun d =>
    ((((built_loopEntry d _).append (c.makes d)).append ((StmtTree.makes_all b).block _)).append
      (makes_loopRepeat m _)).silent (fun _ => rfl) ⟨rfl, rfl, rfl⟩
  | .forLoop v i o s b m => fun d =>
    -- The step is stored with the other expressions and visited behind the body.
    ((((v.makes d).append (i.makes _)).append ((built_loopEntry _ _).append (o.makes _))).append
      ((s.makes _).swap ((StmtTree.makes_all b).block _)) |>.append
        (makes_loopRepeat m _)).silent (fun _ => rfl) ⟨rfl, rfl, rfl⟩
  | .parFor g b => fun d =>
    ((g.makes d).append (b.makes _)).silent (fun _ => rfl) ⟨rfl, rfl, rfl⟩

theorem StmtTree.makes_all : ∀ ts : List StmtTree,
    Makes (StmtTree.buildAll ts) (fun parts _ => parts.map fun p => .ok (.stmtForm p.1))
      (StmtTree.logAll ts)
  | [] => fun d => .nil d
  | t :: ts => fun d => (t.makes d).append (StmtTree.makes_all ts _)

end

/-! ### Functions -/

theorem Draft.Built.interns {d d' : Draft} {todo : Arena → List (Except Fault Visit)}
    {log : List String} (h : Built d d' todo log) (names : List String) :
    Built d (names.mapM Draft.intern d').2 todo log := by
  induction names generalizing d' with
  | nil =>
    rw [List.mapM_nil]
    exact h
  | cons s names ih =>
    rw [List.mapM_cons]
    exact ih (h.intern s)

theorem FunctionTree.makes (t : FunctionTree) :
    Makes t.build (fun f _ => [.ok (.function f)]) t.log := fun d =>
  ((((StmtTree.makes_all t.body).block d).intern t.name).interns t.params).silent
    (fun _ => rfl) ⟨rfl, rfl, rfl⟩

/-- A program that is put into a draft is visited as it stands in the tree.  The traversal of the
function gets through, each expression and each statement stored for it is visited once and none of
those from before is, and what a reader meets is read off the tree, whatever the draft held and
whichever numbers were given out. -/
theorem FunctionTree.build_visited (t : FunctionTree) {d d' : Draft} {f : Function}
    (hbuild : t.build d = (f, d')) (hfits : d'.Fits) :
    (∃ outs log, d'.arena.traverse (.counter d'.arena) [.visit (.function f)] #[] =
        (.ok outs, log) ∧
      (∀ id : ExprId, log.toList.count (.expr id) + log.toList.count (.target id) =
        if d.arena.exprs.size ≤ id.index ∧ id.index < d'.arena.exprs.size then 1 else 0) ∧
      ∀ id : StmtId, log.toList.count (.stmt id) =
        if d.arena.stmts.size ≤ id.index ∧ id.index < d'.arena.stmts.size then 1 else 0) ∧
    ∃ outs log, d'.arena.traverse (.trace d'.arena) [.visit (.function f)] #[] =
        (.ok outs, log) ∧
      log.toList.map (Mark.text d'.names) = t.log := by
  have hbuilt := t.makes d
  rw [hbuild] at hbuilt
  obtain ⟨n, visits, ht, hexprs, hstmts, hlog⟩ := hbuilt.reads d' (.refl d') hfits
  refine ⟨?_, ?_⟩
  · obtain ⟨outs, log, hrun, hnotes⟩ :=
      Pass.observe_trail Numbered.ofVisit? [.visit (.function f)] ht
    refine ⟨outs, log, hrun, fun id => ?_, fun id => ?_⟩
    · have hsame : (visits.filterMap Numbered.ofVisit?).filterMap Numbered.exprId? =
          visits.filterMap Visit.exprId? := List.filterMap_filterMap
      rw [hnotes, Numbered.count_expr, hsame, hexprs.count_eq,
        (Id.nodup_between hfits.exprs).count]
      simp only [Id.mem_between hfits.exprs]
    · have hsame : (visits.filterMap Numbered.ofVisit?).filterMap Numbered.stmtId? =
          visits.filterMap Visit.stmtId? := List.filterMap_filterMap
      rw [hnotes, Numbered.count_stmt, hsame, hstmts.count_eq,
        (Id.nodup_between hfits.stmts.le).count]
      simp only [Id.mem_between hfits.stmts.le]
  · obtain ⟨outs, log, hrun, hnotes⟩ :=
      Pass.observe_trail Mark.ofVisit? [.visit (.function f)] ht
    exact ⟨outs, log, hrun, by rw [hnotes, hlog]⟩

/-- A loop in which a variable becomes a pair of itself and a constant, with its merge map. -/
def pairingLoop : FunctionTree :=
  let x : ExprTree := .node (.var "x") .dummy
  let pair : ExprTree := .node (.tuple [x, .node (.const (.bool true)) .dummy]) .dummy
  let assign : StmtTree := .node (.assign ⟨.var "x", .dummy⟩ pair) .dummy
  let loop : StmtFormTree := .whileLoop (.node (.const .none) .dummy) [assign] [⟨"x", x, x⟩]
  ⟨"f", .untyped, [], [.node loop .dummy], .dummy⟩

/-- A draft that holds one expression already. -/
def oneExpr : Draft :=
  ⟨.fresh, { Arena.empty with exprs := #[⟨.form (.const .none), .dummy⟩] }⟩

-- How many names there are is counted without a look into the map of the interner.
attribute [local irreducible] Interner.intern in
theorem pairingLoop_fits : (pairingLoop.build oneExpr).2.Fits where
  names := by
    have hle : (pairingLoop.build oneExpr).2.names.texts.size ≤ 7 :=
      Interner.size_intern_le (Interner.size_intern_le (Interner.size_intern_le
        (Interner.size_intern_le (Interner.size_intern_le (Interner.size_intern_le
          (Nat.le_refl 1) _) _) _) _) _) _
    exact hle.trans (by decide)
  exprs := by decide +kernel
  operands := by decide +kernel
  stmts := by decide +kernel
  phis := by decide +kernel

theorem pairingLoop_visited : ∃ f d', pairingLoop.build oneExpr = (f, d') ∧ d'.Fits ∧
    ∃ outs log, d'.arena.traverse (.trace d'.arena) [.visit (.function f)] #[] = (.ok outs, log) ∧
      log.toList.map (Mark.text d'.names) = ["merge_start", "const:none", "var:x", "var:x",
        "const:true", "merge_repeat", "phi:x", "var:x", "var:x"] := by
  have hlog : pairingLoop.log = ["merge_start", "const:none", "var:x", "var:x", "const:true",
      "merge_repeat", "phi:x", "var:x", "var:x"] := by decide +kernel
  obtain ⟨-, htrace⟩ := pairingLoop.build_visited Prod.mk.eta.symm pairingLoop_fits
  rw [hlog] at htrace
  exact ⟨_, _, Prod.mk.eta.symm, pairingLoop_fits, htrace⟩

end MergeForm
