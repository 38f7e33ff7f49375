import MergeForm.Proofs.Depth

/-! The order of visits.  A function is flattened part by part: a statement into its operands,
blocks and merge map, an expression into its children.  The visits that the recorder writes down for
a function are exactly its flattening, which is there wherever the recorder meets no fault. -/

namespace MergeForm

/-- A part of a function: an entry of the record by itself, or a node or run with all that belongs
to it. -/
inductive Part
  | entry (v : Visit)
  | function (f : Function)
  | block (r : StmtRange)
  | stmt (id : StmtId)
  | merge (r : PhiRange)
  | expr (id : ExprId)
  | form (f : Expr.Form)
  | list (r : ExprRange)
  | target (id : ExprId)
  deriving DecidableEq

/-- The parts of a statement, without the statement's own entries. -/
def Stmt.Form.parts : Stmt.Form → List Part
  | .assign l r => [.target l, .expr r]
  | .eval e => [.expr e]
  | .ret e => [.expr e]
  | .comment _ => []
  | .ifElse c t f m => [.expr c, .block t, .block f, .entry (.mergeIf m), .merge m]
  | .whileLoop c b m =>
    [.entry (.loopEntry m), .expr c, .block b, .entry (.loopRepeat m), .merge m]
  | .forLoop v i o s b m =>
    [.target v, .expr i, .entry (.loopEntry m), .expr o, .block b, .expr s,
      .entry (.loopRepeat m), .merge m]
  | .parFor g b => [.expr g, .expr b]

/-- What a part is made of, in order.  There is nothing where a number or a run does not resolve,
where a placeholder stands, or where a target cannot be assigned to. -/
def Arena.parts (a : Arena) : Part → Option (List Part)
  | .entry _ => none
  | .function f => some [.entry (.function f), .block f.body]
  | .block r => some (.entry (.block r) :: r.ids.map .stmt)
  | .stmt id =>
    match a.stmt? id with
    | some ⟨.form f, _⟩ => some (.entry (.stmt id) :: .entry (.stmtForm f) :: f.parts)
    | _ => none
  | .merge r =>
    (a.merge? r).map fun phis =>
      .entry (.merge r) :: phis.flatMap fun p => [.entry (.phi p), .expr p.left, .expr p.right]
  | .expr id =>
    match a.expr? id with
    | some ⟨.form f, _⟩ => some [.entry (.expr id), .form f]
    | _ => none
  | .form f =>
    match a.children (.form f) with
    | .ok ids => some (.entry (.exprForm f) :: ids.map .expr)
    | .error _ => none
  | .list r => (a.list? r).map fun ids => .entry (.exprList r) :: ids.map .expr
  | .target id =>
    match a.expr? id with
    | some ⟨.form f, _⟩ =>
      f.target?.map fun t => [.entry (.target id), .entry (.targetForm t), .form f]
    | _ => none

/-- The parts, taken to pieces until only entries are left, make the record `visits`. -/
inductive Flattening (a : Arena) : List Part → List Visit → Prop
  | nil : Flattening a [] []
  | entry (v : Visit) {rest : List Part} {visits : List Visit} :
    Flattening a rest visits → Flattening a (.entry v :: rest) (v :: visits)
  | parts {p : Part} {pieces rest : List Part} {visits after : List Visit} :
    a.parts p = some pieces → Flattening a pieces visits → Flattening a rest after →
    Flattening a (p :: rest) (visits ++ after)

namespace Flattening

variable {a : Arena}

theorem unique {ps : List Part} {visits visits' : List Visit} (h : Flattening a ps visits)
    (h' : Flattening a ps visits') : visits = visits' := by
  induction h generalizing visits' with
  | nil =>
    cases h'
    rfl
  | entry v _ ih =>
    cases h' with
    | entry _ h' => rw [ih h']
    | parts hp => simp [Arena.parts] at hp
  | parts hp _ _ ih ihr =>
    cases h' with
    | entry => simp [Arena.parts] at hp
    | parts hp' h' hr' =>
      obtain rfl := Option.some.inj (hp.symm.trans hp')
      rw [ih h', ihr hr']

theorem entry_iff {v : Visit} {ps : List Part} {visits : List Visit} :
    Flattening a (.entry v :: ps) visits ↔ ∃ rest, visits = v :: rest ∧ Flattening a ps rest := by
  constructor
  · intro h
    cases h with
    | entry _ h => exact ⟨_, rfl, h⟩
    | parts hp => simp [Arena.parts] at hp
  · rintro ⟨rest, rfl, h⟩
    exact .entry v h

theorem append_iff {ps qs : List Part} {visits : List Visit} :
    Flattening a (ps ++ qs) visits ↔
      ∃ before after, visits = before ++ after ∧ Flattening a ps before ∧
        Flattening a qs after := by
  constructor
  · intro h
    induction ps generalizing visits with
    | nil => exact ⟨[], visits, rfl, .nil, h⟩
    | cons p ps ih =>
      cases h with
      | entry v h =>
        obtain ⟨before, after, rfl, hb, ha⟩ := ih h
        exact ⟨v :: before, after, rfl, .entry v hb, ha⟩
      | parts hp h hr =>
        obtain ⟨before, after, rfl, hb, ha⟩ := ih hr
        exact ⟨_ ++ before, after, by simp, .parts hp h hb, ha⟩
  · rintro ⟨before, after, rfl, hb, ha⟩
    induction hb with
    | nil => exact ha
    | entry v _ ih => exact .entry v ih
    | parts hp h _ _ ihr =>
      rw [List.append_assoc]
      exact .parts hp h ihr

theorem parts_iff {p : Part} {visits : List Visit} (hp : ∀ v, p ≠ .entry v) :
    Flattening a [p] visits ↔ ∃ pieces, a.parts p = some pieces ∧ Flattening a pieces visits := by
  constructor
  · intro h
    cases h with
    | entry v => exact absurd rfl (hp v)
    | parts hp h hr =>
      cases hr
      exact ⟨_, hp, by simpa using h⟩
  · rintro ⟨pieces, hp, h⟩
    simpa using parts hp h .nil

end Flattening

/-! ### Parts and visits -/

/-- A visit with all that is visited below it, as parts. -/
def Visit.whole : Visit → List Part
  | .function f => [.function f]
  | .block r => [.block r]
  | .stmt id => [.stmt id]
  | .stmtForm f => .entry (.stmtForm f) :: f.parts
  | .expr id => [.expr id]
  | .exprForm f => [.form f]
  | .exprList r => [.list r]
  | .target id => [.target id]
  | .targetForm t => [.entry (.targetForm t), .form t.form]
  | .merge r => [.merge r]
  | .mergeIf r => [.entry (.mergeIf r), .merge r]
  | .loopEntry r => [.entry (.loopEntry r)]
  | .loopRepeat r => [.entry (.loopRepeat r), .merge r]
  | .phi p => [.entry (.phi p), .expr p.left, .expr p.right]

/-- The visits that the steps are, if none of them is a fault. -/
def okVisits? : List (Except Fault Visit) → Option (List Visit)
  | [] => some []
  | .ok v :: rest => (okVisits? rest).map (v :: ·)
  | .error _ :: _ => none

theorem okVisits?_map_ok (vs : List Visit) : okVisits? (vs.map .ok) = some vs := by
  induction vs with
  | nil => rfl
  | cons v vs ih => simp [okVisits?, ih]

theorem okVisits?_eq_some_iff {steps : List (Except Fault Visit)} {vs : List Visit} :
    okVisits? steps = some vs ↔ steps = vs.map .ok := by
  refine ⟨fun h => ?_, fun h => h ▸ okVisits?_map_ok vs⟩
  induction steps generalizing vs with
  | nil =>
    obtain rfl : [] = vs := by simpa [okVisits?] using h
    rfl
  | cons step rest ih =>
    cases step with
    | error f => simp [okVisits?] at h
    | ok v =>
      obtain ⟨vs, hvs, rfl⟩ : ∃ ws, okVisits? rest = some ws ∧ v :: ws = vs := by
        simpa [okVisits?] using h
      rw [ih hvs, List.map_cons]

theorem okVisits?_exprSteps (ids : List ExprId) :
    okVisits? (exprSteps ids) = some (ids.map .expr) := by
  rw [okVisits?_eq_some_iff, exprSteps, List.map_map]
  rfl

theorem okVisits?_eq_none {steps : List (Except Fault Visit)} {f : Fault}
    (h : .error f ∈ steps) : okVisits? steps = none := by
  cases ho : okVisits? steps with
  | none => rfl
  | some vs =>
    rw [okVisits?_eq_some_iff.mp ho] at h
    simp at h

theorem flatMap_whole_map {α : Type} (visit : α → Visit) (part : α → Part)
    (h : ∀ x, (visit x).whole = [part x]) (xs : List α) :
    (xs.map visit).flatMap Visit.whole = xs.map part := by
  rw [List.flatMap_map, List.map_eq_flatMap]
  simp only [h]

namespace Visit

variable (a : Arena)

/-- What a visit is as parts: its entry and what is below it, or one part that is made of these. -/
def Unfolds (v : Visit) : Prop :=
  (∃ below, okVisits? (a.steps v) = some below ∧ v.whole = .entry v :: below.flatMap whole) ∨
    ∃ p, v.whole = [p] ∧ (∀ u, p ≠ .entry u) ∧
      a.parts p = (okVisits? (a.steps v)).map fun below => .entry v :: below.flatMap whole

theorem unfolds_stmtForm (f : Stmt.Form) : Unfolds a (.stmtForm f) := by
  cases f <;> exact .inl ⟨_, rfl, rfl⟩

theorem unfolds_block (r : StmtRange) : Unfolds a (.block r) := by
  refine .inr ⟨_, rfl, by simp, ?_⟩
  have hok : okVisits? (a.steps (.block r)) = some (r.ids.map .stmt) := by
    rw [okVisits?_eq_some_iff, a.steps_block, List.map_map]
    rfl
  rw [hok, Option.map_some, flatMap_whole_map .stmt .stmt fun _ => rfl]
  rfl

theorem unfolds_stmt (id : StmtId) : Unfolds a (.stmt id) := by
  refine .inr ⟨_, rfl, by simp, ?_⟩
  rcases h : a.stmt? id with _ | ⟨_ | _, span⟩ <;>
    simp [Arena.parts, a.steps_stmt, h, okVisits?, whole]

theorem unfolds_merge (r : PhiRange) : Unfolds a (.merge r) := by
  refine .inr ⟨_, rfl, by simp, ?_⟩
  cases h : a.merge? r with
  | none => simp [Arena.parts, a.steps_merge, h, okVisits?]
  | some phis =>
    have hok : okVisits? (a.steps (.merge r)) = some (phis.map .phi) := by
      rw [okVisits?_eq_some_iff, a.steps_merge, h, List.map_map]
      rfl
    rw [hok]
    simp [Arena.parts, h, List.flatMap_map, whole]

theorem unfolds_expr (id : ExprId) : Unfolds a (.expr id) := by
  refine .inr ⟨_, rfl, by simp, ?_⟩
  rcases h : a.expr? id with _ | ⟨_ | _, span⟩ <;>
    simp [Arena.parts, a.steps_expr, h, okVisits?, whole]

theorem unfolds_exprForm (f : Expr.Form) : Unfolds a (.exprForm f) := by
  refine .inr ⟨_, rfl, by simp, ?_⟩
  cases h : a.children (.form f) with
  | ok ids =>
    rw [(a.children_eq_ok_iff f ids).mp h, okVisits?_exprSteps, Option.map_some,
      flatMap_whole_map .expr .expr fun _ => rfl]
    simp [Arena.parts, h]
  | error g =>
    rw [okVisits?_eq_none (a.error_mem_of_children h)]
    simp [Arena.parts, h]

theorem unfolds_exprList (r : ExprRange) : Unfolds a (.exprList r) := by
  refine .inr ⟨_, rfl, by simp, ?_⟩
  change _ = (okVisits? ((a.listTasks r).flatMap Task.steps)).map _
  cases h : a.list? r with
  | none => simp [Arena.parts, h, a.steps_listTasks_none h, okVisits?]
  | some ids =>
    rw [a.steps_listTasks_some h, okVisits?_exprSteps, Option.map_some,
      flatMap_whole_map .expr .expr fun _ => rfl]
    simp [Arena.parts, h]

theorem unfolds_target (id : ExprId) : Unfolds a (.target id) := by
  refine .inr ⟨_, rfl, by simp, ?_⟩
  rcases h : a.expr? id with _ | ⟨f | _, span⟩
  · simp [Arena.parts, a.steps_target, h, okVisits?]
  · cases ht : f.target? with
    | none => simp [Arena.parts, a.steps_target, h, ht, okVisits?]
    | some t =>
      obtain rfl := Expr.Form.target?_eq_some_iff.mp ht
      simp [Arena.parts, a.steps_target, h, ht, okVisits?, whole]
  · simp [Arena.parts, a.steps_target, h, okVisits?]

theorem unfolds (v : Visit) : Unfolds a v := by
  cases v with
  | function f => exact .inr ⟨_, rfl, by simp, rfl⟩
  | block r => exact unfolds_block a r
  | stmt id => exact unfolds_stmt a id
  | stmtForm f => exact unfolds_stmtForm a f
  | expr id => exact unfolds_expr a id
  | exprForm f => exact unfolds_exprForm a f
  | exprList r => exact unfolds_exprList a r
  | target id => exact unfolds_target a id
  | targetForm t => exact .inl ⟨_, rfl, rfl⟩
  | merge r => exact unfolds_merge a r
  | mergeIf r => exact .inl ⟨_, rfl, rfl⟩
  | loopEntry r => exact .inl ⟨_, rfl, rfl⟩
  | loopRepeat r => exact .inl ⟨_, rfl, rfl⟩
  | phi p => exact .inl ⟨_, rfl, rfl⟩

variable {a}

theorem flattening_whole_iff {v : Visit} {visits : List Visit} :
    Flattening a v.whole visits ↔
      ∃ below rest : List Visit, a.steps v = below.map .ok ∧ visits = v :: rest ∧
        Flattening a (below.flatMap whole) rest := by
  simp only [← okVisits?_eq_some_iff]
  rcases unfolds a v with ⟨below, hok, hw⟩ | ⟨p, hw, hp, hparts⟩
  · rw [hw, Flattening.entry_iff]
    constructor
    · rintro ⟨rest, rfl, h⟩
      exact ⟨below, rest, hok, rfl, h⟩
    · rintro ⟨below', rest, hok', rfl, h⟩
      obtain rfl := Option.some.inj (hok.symm.trans hok')
      exact ⟨rest, rfl, h⟩
  · rw [hw, Flattening.parts_iff hp, hparts]
    constructor
    · rintro ⟨pieces, hpieces, h⟩
      obtain ⟨below, hok, rfl⟩ := Option.map_eq_some_iff.mp hpieces
      obtain ⟨rest, rfl, hrest⟩ := Flattening.entry_iff.mp h
      exact ⟨below, rest, hok, rfl, hrest⟩
    · rintro ⟨below, rest, hok, rfl, h⟩
      exact ⟨_, Option.map_eq_some_iff.mpr ⟨below, hok, rfl⟩, Flattening.entry v h⟩

end Visit

/-! ### Flattenings and trails -/

theorem Trail.flattening {a : Arena} {depth : Nat} {steps : List (Except Fault Visit)}
    {visits : List Visit} {stop : Option Fault} (h : Trail a.steps depth steps visits stop)
    (hs : stop = none) : ∀ vs : List Visit, steps = vs.map .ok →
      Flattening a (vs.flatMap Visit.whole) visits := by
  induction h with
  | done =>
    intro vs hvs
    obtain rfl : vs = [] := by simpa using hvs.symm
    exact .nil
  | fault => simp at hs
  | broken => simp at hs
  | @visit depth v rest below after stop hb _ ihb iha =>
    intro vs hvs
    cases vs with
    | nil => simp at hvs
    | cons w ws =>
      obtain ⟨rfl, rfl⟩ : v = w ∧ rest = ws.map .ok := by simpa using hvs
      obtain ⟨us, -, hus⟩ := hb.eq_map_ok
      have hv : Flattening a v.whole (v :: below) :=
        Visit.flattening_whole_iff.mpr ⟨us, below, hus, rfl, ihb rfl us hus⟩
      exact Flattening.append_iff.mpr ⟨v :: below, after, rfl, hv, iha hs ws rfl⟩

/-- The visits of a flattening nest less deep than there are visits. -/
theorem Flattening.trail {a : Arena} (n : Nat) : ∀ (vs visits : List Visit), visits.length ≤ n →
    Flattening a (vs.flatMap Visit.whole) visits → Trail a.steps n (vs.map .ok) visits none := by
  induction n with
  | zero =>
    intro vs visits hlen h
    obtain rfl := List.length_eq_zero_iff.mp (Nat.le_zero.mp hlen)
    cases vs with
    | nil => exact .done
    | cons v vs =>
      obtain ⟨before, after, hnil, hv, -⟩ := append_iff.mp h
      obtain ⟨below, rest, -, hbefore, -⟩ := Visit.flattening_whole_iff.mp hv
      simp [hbefore] at hnil
  | succ n ih =>
    -- What is below the first visit is shorter by its entry, so it nests less deep.
    intro vs
    induction vs with
    | nil =>
      intro visits _ h
      cases h
      exact .done
    | cons v vs ihv =>
      intro visits hlen h
      obtain ⟨before, after, rfl, hv, hvs⟩ := append_iff.mp h
      obtain ⟨below, rest, hsteps, rfl, hbelow⟩ := Visit.flattening_whole_iff.mp hv
      simp only [List.cons_append, List.length_cons, List.length_append] at hlen
      refine .visit ?_ (ihv after (by omega) hvs)
      rw [hsteps]
      exact ih below rest (by omega) hbelow

/-- The recorder gets through a function just where the function has a flattening, and writes down
the visits of the flattening, in its order, and nothing else. -/
theorem record_iff_flattening (a : Arena) (f : Function) (log : Array Visit) :
    (∃ outs, Recorder.full.run a [.visit (.function f)] = (.ok outs, log)) ↔
      ∀ visits, Flattening a [.function f] visits ↔ visits = log.toList := by
  constructor
  · rintro ⟨outs, hrun⟩
    obtain ⟨hend, hstop⟩ := Outcome.exists_ok_iff.mp ⟨outs, congrArg Prod.fst hrun⟩
    have ht := Recorder.run_trail hend
    rw [hstop, hrun] at ht
    have hflat : Flattening a [.function f] log.toList := ht.flattening rfl [.function f] rfl
    exact fun visits => ⟨fun h => h.unique hflat, fun h => h ▸ hflat⟩
  · intro h
    have hflat : Flattening a [.function f] log.toList := (h log.toList).mpr rfl
    have ht : Trail a.steps log.size ([.visit (.function f)].flatMap Task.steps) log.toList none :=
      Flattening.trail log.size [.function f] log.toList (Nat.le_refl _) hflat
    obtain ⟨hend, hstop, hlog⟩ := Recorder.trail_run ht
    obtain ⟨outs, houts⟩ := Outcome.exists_ok_iff.mpr ⟨hend, hstop⟩
    exact ⟨outs, Prod.ext houts (hlog.trans Array.toArray_toList)⟩

end MergeForm
