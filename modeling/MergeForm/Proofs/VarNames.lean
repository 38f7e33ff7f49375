import MergeForm.Proofs.DefUse
import MergeForm.Proofs.VarSteps

/-! The names that a function defines and uses.  The summary of a function holds the names of its
accesses, each once and in the order of the first access. -/

namespace MergeForm

/-! ### Names in the order of their first mention -/

namespace Names

/-- Names put in one after the other come after those there already, each where it comes first. -/
theorem toList_foldl_insert {s : Names} (ms ns : List Name)
    (h : s.toList = ms.eraseDups) : (ns.foldl insert s).toList = (ms ++ ns).eraseDups := by
  induction ns generalizing s ms with
  | nil => simpa using h
  | cons n ns ih =>
    have hmem : n ∈ s ↔ n ∈ ms := by rw [← mem_toList, h, List.mem_eraseDups]
    have hn : (s.insert n).toList = (ms ++ [n]).eraseDups := by
      rw [toList_insert, List.eraseDups_append, h]
      by_cases hn : n ∈ ms
      · simp [hmem, hn, List.removeAll]
      · simp [hmem, hn, List.removeAll, List.eraseDups_cons]
    rw [List.foldl_cons, ih _ hn, List.append_assoc, List.singleton_append]

end Names

/-- The accesses have the same names defined and the same names used, each in the same order. -/
structure Access.Alike (xs ys : List Access) : Prop where
  defined : defined xs = defined ys
  used : used xs = used ys

namespace VarSummary

def access (s : VarSummary) : Access → VarSummary
  | .define n => s.define n
  | .use n => s.use n

/-- The summary of the accesses `xs`. -/
def summarize (xs : List Access) : VarSummary := xs.foldl access empty

theorem foldl_access (s : VarSummary) (xs : List Access) :
    xs.foldl access s =
      ⟨(Access.defined xs).foldl Names.insert s.defs, (Access.used xs).foldl Names.insert s.uses⟩ := by
  induction xs generalizing s with
  | nil => rfl
  | cons x xs ih =>
    rw [List.foldl_cons, ih]
    cases x <;> rfl

theorem summarize_eq_of_alike {xs ys : List Access} (h : Access.Alike xs ys) :
    summarize xs = summarize ys := by
  rw [summarize, summarize, foldl_access, foldl_access, h.defined, h.used]

theorem toList_defs_summarize (xs : List Access) :
    (summarize xs).defs.toList = (Access.defined xs).eraseDups := by
  rw [summarize, foldl_access]
  exact Names.toList_foldl_insert [] _ rfl

theorem toList_uses_summarize (xs : List Access) :
    (summarize xs).uses.toList = (Access.used xs).eraseDups := by
  rw [summarize, foldl_access]
  exact Names.toList_foldl_insert [] _ rfl

theorem free_eq (s : VarSummary) : s.free = s.uses.toList.filter fun n => n ∉ s.defs.toList := by
  rw [free]
  refine List.filter_congr fun n _ => ?_
  simp [isDefined]

end VarSummary

/-- The accesses at a visit itself. -/
def Visit.accesses (a : Arena) : Visit → List Access
  | .function f => f.params.map .define
  | .exprForm (.var n) => [.use n]
  | .targetForm (.var n) => [.define n]
  | .phi p => [.define p.name]
  | .loopEntry r => (a.entries r).map fun p => .define p.name
  | _ => []

namespace VarSummary

theorem note_eq (a : Arena) (s : VarSummary) (v : Visit) :
    note a s v = (v.accesses a).foldl access s := by
  cases v with
  | function f =>
    simp only [Visit.accesses, List.foldl_map]
    rfl
  | exprForm f => cases f <;> rfl
  | targetForm t => cases t <;> rfl
  | loopEntry r =>
    simp only [note, pass, enterLoop, Visit.accesses, Arena.entries, List.foldl_map]
    cases a.merge? r <;> rfl
  | _ => rfl

theorem foldl_note (a : Arena) (s : VarSummary) (visits : List Visit) :
    visits.foldl (note a) s = (visits.flatMap (Visit.accesses a)).foldl access s := by
  rw [List.foldl_flatMap]
  congr 1
  funext s v
  exact note_eq a s v

end VarSummary

/-! ### Visits and phrases -/

/-- What a visit consists of, if what it looks up resolves. -/
def Arena.visitPhrases (a : Arena) : Visit → Option (List Phrase)
  | .function f => some [.function f]
  | .block r => some [.block r]
  | .stmt id => some [.stmt id]
  | .stmtForm f => some f.phrases
  | .expr id => some [.value id]
  | .exprForm f => a.reads f
  | .exprList r => (a.list? r).map fun ids => ids.map .value
  | .target id => some [.target id]
  | .targetForm t => a.writes t
  | .merge r | .mergeIf r | .loopRepeat r => some [.join r]
  | .loopEntry r => some [.enter r]
  | .phi p => some p.joined

/-- The accesses `xs` are those of a visit, with all that is visited below it. -/
def Visit.Accesses (a : Arena) (v : Visit) (xs : List Access) : Prop :=
  ∃ pieces stream, a.visitPhrases v = some pieces ∧ Stream a pieces stream ∧
    Access.Alike stream xs

namespace Visit

variable {a : Arena}

theorem stream_below {below : List Visit} {parts : List (List Access)}
    (h : List.Forall₂ (Accesses a) below parts) :
    ∃ stream, Stream a (below.flatMap fun v => (a.visitPhrases v).getD []) stream ∧
      Access.Alike stream parts.flatten := by
  induction h with
  | nil => exact ⟨[], .nil, rfl, rfl⟩
  | cons hv _ ih =>
    obtain ⟨pieces, inner, hpieces, hinner, halike⟩ := hv
    obtain ⟨stream, hstream, hbelow⟩ := ih
    refine ⟨inner ++ stream, ?_, ?_, ?_⟩
    · simpa [hpieces] using hinner.append hstream
    · simp [halike.defined, hbelow.defined]
    · simp [halike.used, hbelow.used]

/-- One visit below another is what the other consists of. -/
theorem accesses_only {w : Visit} {parts : List (List Access)} {p : Phrase}
    (h : List.Forall₂ (Accesses a) [w] parts) (hp : a.phrases p = a.visitPhrases w) :
    ∃ stream, Stream a [p] stream ∧ Access.Alike stream parts.flatten := by
  obtain ⟨xs, ⟨pieces, stream, hpieces, hstream, halike⟩, rfl⟩ :=
    Trail.exists_of_forall₂_singleton h
  refine ⟨stream, .single (hp.trans hpieces) hstream, ?_⟩
  simpa using halike

/-- What is evaluated below a visit. -/
theorem stream_values {ids : List ExprId} {parts : List (List Access)}
    (h : List.Forall₂ (Accesses a) (ids.map .expr) parts) :
    ∃ stream, Stream a (ids.map .value) stream ∧ Access.Alike stream parts.flatten := by
  obtain ⟨stream, hstream, halike⟩ := stream_below h
  refine ⟨stream, ?_, halike⟩
  rw [List.flatMap_map] at hstream
  rwa [List.map_eq_flatMap]

theorem accesses_exprForm {f : Expr.Form} {below : List Visit} {parts : List (List Access)}
    (hsteps : VarSummary.steps a (.exprForm f) = below.map .ok)
    (h : List.Forall₂ (Accesses a) below parts) :
    Accesses a (.exprForm f) ((exprForm f).accesses a ++ parts.flatten) := by
  by_cases hf : ∃ n, f = .var n
  · obtain ⟨n, rfl⟩ := hf
    obtain rfl : [] = below := Trail.map_ok_inj hsteps
    cases h
    exact ⟨[.access (.use n)], [.use n], rfl, .access _ .nil, rfl, rfl⟩
  · have hvar : ∀ n, f ≠ .var n := fun n hn => hf ⟨n, hn⟩
    rw [VarSummary.steps_exprForm hvar] at hsteps
    obtain ⟨ids, hids, rfl⟩ := a.exprForm_of_steps hsteps
    obtain ⟨stream, hstream, halike⟩ := stream_values h
    have hreads : a.reads f = some (ids.map .value) :=
      Arena.reads_eq_some_iff.mpr (.inr ⟨hvar, ids, hids, rfl⟩)
    have hnone : (exprForm f).accesses a = [] := by
      cases f with
      | var n => exact absurd rfl (hvar n)
      | _ => rfl
    exact ⟨ids.map .value, stream, hreads, hstream, hnone ▸ halike⟩

theorem accesses_targetForm {t : Expr.Target} {below : List Visit} {parts : List (List Access)}
    (hsteps : VarSummary.steps a (.targetForm t) = below.map .ok)
    (h : List.Forall₂ (Accesses a) below parts) :
    Accesses a (.targetForm t) ((targetForm t).accesses a ++ parts.flatten) := by
  have isBelow (vs : List Visit) (hvs : VarSummary.steps a (.targetForm t) = vs.map .ok) :
      vs = below := Trail.map_ok_inj (hvs.symm.trans hsteps)
  cases t with
  | var n =>
    obtain rfl := isBelow [] rfl
    cases h
    exact ⟨[.access (.define n)], [.define n], rfl, .access _ .nil, rfl, rfl⟩
  | tuple r =>
    rw [VarSummary.steps_tuple] at hsteps
    cases hr : a.list? r with
    | none => cases below <;> simp [hr] at hsteps
    | some ids =>
      simp only [hr] at hsteps
      obtain rfl := Trail.map_ok_inj hsteps
      obtain ⟨stream, hstream, halike⟩ := stream_below h
      rw [List.flatMap_map] at hstream
      refine ⟨ids.map .target, stream, by simp [Arena.visitPhrases, Arena.writes, hr], ?_, halike⟩
      rwa [List.map_eq_flatMap]
  | index v i =>
    obtain rfl := isBelow [.exprForm (.index v i)] rfl
    obtain ⟨stream, hstream, halike⟩ := stream_below h
    exact ⟨[.value v, .value i], stream, rfl, hstream, halike⟩
  | «attribute» v n =>
    obtain rfl := isBelow [.exprForm (.attribute v n)] rfl
    obtain ⟨stream, hstream, halike⟩ := stream_below h
    exact ⟨[.value v], stream, rfl, hstream, halike⟩

/-- What a visit consists of is what is below it, after the accesses at the visit itself. -/
theorem accesses_step (v : Visit) (below : List Visit) (parts : List (List Access))
    (hsteps : VarSummary.steps a v = below.map .ok) (h : List.Forall₂ (Accesses a) below parts) :
    Accesses a v (v.accesses a ++ parts.flatten) := by
  obtain ⟨stream, hstream, halike⟩ := stream_below h
  have isBelow (vs : List Visit) (hvs : VarSummary.steps a v = vs.map .ok) : vs = below :=
    Trail.map_ok_inj (hvs.symm.trans hsteps)
  cases v with
  | function f =>
    obtain rfl := isBelow [.block f.body] rfl
    refine ⟨[.function f], f.params.map .define ++ stream, rfl, .single rfl ?_, ?_, ?_⟩
    · have hparams := Stream.accesses (a := a) (f.params.map .define)
      rw [List.map_map] at hparams
      exact hparams.append hstream
    · simp [accesses, halike.defined]
    · simp [accesses, halike.used]
  | block r =>
    have hids : a.steps (.block r) = (r.ids.map Visit.stmt).map .ok := by
      rw [a.steps_block, List.map_map]
      rfl
    obtain rfl := isBelow _ hids
    rw [List.flatMap_map] at hstream
    refine ⟨[.block r], stream, rfl, .single rfl ?_, halike⟩
    rwa [List.map_eq_flatMap]
  | stmt id =>
    obtain ⟨f, span, hs, rfl⟩ := a.stmt_of_steps hsteps
    obtain ⟨stream, hstream, halike⟩ :=
      accesses_only (p := .stmt id) h (by simp [Arena.phrases, Arena.visitPhrases, hs])
    exact ⟨[.stmt id], stream, rfl, hstream, halike⟩
  | stmtForm f =>
    refine ⟨f.phrases, stream, rfl, ?_, halike⟩
    obtain rfl := isBelow _ (a.steps_stmtForm f)
    cases f <;> exact hstream
  | expr id =>
    obtain ⟨f, span, hs, rfl⟩ := a.expr_of_steps hsteps
    obtain ⟨stream, hstream, halike⟩ :=
      accesses_only (p := .value id) h (by simp [Arena.phrases, Arena.visitPhrases, hs])
    exact ⟨[.value id], stream, rfl, hstream, halike⟩
  | exprForm f => exact accesses_exprForm hsteps h
  | exprList r =>
    obtain ⟨ids, hr, rfl⟩ := a.list_of_steps hsteps
    obtain ⟨stream, hstream, halike⟩ := stream_values h
    exact ⟨ids.map .value, stream, by simp [Arena.visitPhrases, hr], hstream, halike⟩
  | target id =>
    obtain ⟨t, span, hs, rfl⟩ := a.target_of_steps hsteps
    obtain ⟨stream, hstream, halike⟩ := accesses_only (p := .target id) h (by
      simp [Arena.phrases, Arena.visitPhrases, hs, Expr.Form.target?_form])
    exact ⟨[.target id], stream, rfl, hstream, halike⟩
  | targetForm t => exact accesses_targetForm hsteps h
  | merge r =>
    obtain ⟨phis, hr, rfl⟩ := a.merge_of_steps hsteps
    rw [List.flatMap_map] at hstream
    have hjoin : a.phrases (.join r) = some (phis.flatMap Phi.joined) := by
      simp [Arena.phrases, hr]
    exact ⟨[.join r], stream, rfl, .single hjoin hstream, halike⟩
  | mergeIf r =>
    obtain rfl := isBelow [.merge r] rfl
    exact ⟨[.join r], stream, rfl, hstream, halike⟩
  | loopRepeat r =>
    obtain rfl := isBelow [.merge r] rfl
    exact ⟨[.join r], stream, rfl, hstream, halike⟩
  | loopEntry r =>
    rw [VarSummary.steps_loopEntry] at hsteps
    cases hr : a.merge? r with
    | none => cases below <;> simp [hr] at hsteps
    | some phis =>
      simp only [hr] at hsteps
      have hleft : exprSteps (phis.map Phi.left) =
          ((phis.map Phi.left).map Visit.expr).map .ok := List.map_map.symm
      obtain rfl := Trail.map_ok_inj (hleft.symm.trans hsteps)
      obtain ⟨values, hvalues, halike⟩ := stream_values h
      have hnone : Access.defined values = [] := hvalues.defined_value (by simp)
      rw [List.map_map] at hvalues
      obtain ⟨stream, hstream, hdefined, hused⟩ := hvalues.entered
      have hnames : (loopEntry r).accesses a = (phis.map Phi.name).map .define := by
        simp [accesses, Arena.entries, hr]
      have henter : a.phrases (.enter r) = some (phis.flatMap Phi.entered) := by
        simp [Arena.phrases, hr]
      refine ⟨[.enter r], stream, rfl, .single henter hstream, ?_, ?_⟩
      · rw [hnames, Access.defined_append, Access.defined_map_define, ← halike.defined, hnone,
          hdefined, List.append_nil]
      · rw [hnames, Access.used_append, Access.used_map_define, ← halike.used, hused,
          List.nil_append]
  | phi p =>
    obtain rfl := isBelow [.expr p.left, .expr p.right] rfl
    refine ⟨p.joined, .define p.name :: stream, rfl, .access _ hstream, ?_, ?_⟩
    · simp [accesses, halike.defined]
    · simp [accesses, halike.used]

end Visit

/-! ### From phrases back to visits -/

namespace Phrase

/-- The visit that deals with a phrase. -/
def visit? : Phrase → Option Visit
  | .access _ => none
  | .function f => some (.function f)
  | .block r => some (.block r)
  | .stmt id => some (.stmt id)
  | .value id => some (.expr id)
  | .target id => some (.target id)
  | .enter r => some (.loopEntry r)
  | .join r => some (.merge r)

/-- The phrase can be visited without a fault. -/
def Clears (a : Arena) (p : Phrase) : Prop :=
  ∀ v, p.visit? = some v → Trail.Clears (VarSummary.steps a) v

variable {a : Arena}

theorem clears_values (ids : List ExprId) (h : ∀ q ∈ ids.map Phrase.value, q.Clears a) :
    ∀ w ∈ ids.map Visit.expr, Trail.Clears (VarSummary.steps a) w := by
  intro w hw
  obtain ⟨id, hid, rfl⟩ := List.mem_map.mp hw
  exact h (.value id) (List.mem_map_of_mem hid) (.expr id) rfl

theorem clears_exprForm {f : Expr.Form} {pieces : List Phrase} (hf : a.reads f = some pieces)
    (h : ∀ q ∈ pieces, q.Clears a) : Trail.Clears (VarSummary.steps a) (.exprForm f) := by
  rcases Arena.reads_eq_some_iff.mp hf with ⟨n, rfl, rfl⟩ | ⟨hvar, ids, hids, rfl⟩
  · exact .intro [] rfl (by simp)
  · refine .intro (ids.map .expr) ?_ (clears_values ids h)
    rw [VarSummary.steps_exprForm hvar, (a.children_eq_ok_iff f ids).mp hids]
    exact List.map_map.symm

theorem clears_targetForm {t : Expr.Target} {pieces : List Phrase} (ht : a.writes t = some pieces)
    (h : ∀ q ∈ pieces, q.Clears a) : Trail.Clears (VarSummary.steps a) (.targetForm t) := by
  cases t with
  | var n => exact .intro [] rfl (by simp)
  | tuple r =>
    obtain ⟨ids, hr, rfl⟩ := Option.map_eq_some_iff.mp ht
    refine .intro (ids.map .target) (by rw [VarSummary.steps_tuple, hr]) ?_
    intro w hw
    obtain ⟨id, hid, rfl⟩ := List.mem_map.mp hw
    exact h (.target id) (List.mem_map_of_mem hid) (.target id) rfl
  | index v i =>
    have hform := clears_exprForm (f := .index v i) ht h
    exact .single rfl hform
  | «attribute» v n =>
    have hform := clears_exprForm (f := .attribute v n) ht h
    exact .single rfl hform

theorem clears_merge {r : PhiRange} {phis : List Phi} (hr : a.merge? r = some phis)
    (h : ∀ q ∈ phis.flatMap Phi.joined, q.Clears a) :
    Trail.Clears (VarSummary.steps a) (.merge r) := by
  have hsteps : VarSummary.steps a (.merge r) = (phis.map Visit.phi).map .ok := by
    show a.steps (.merge r) = _
    rw [a.steps_merge, hr, List.map_map]
    rfl
  refine .intro _ hsteps fun w hw => ?_
  obtain ⟨p, hp, rfl⟩ := List.mem_map.mp hw
  have hjoined (q : Phrase) (hq : q ∈ p.joined) : q.Clears a :=
    h q (List.mem_flatMap.mpr ⟨p, hp, hq⟩)
  refine .intro [.expr p.left, .expr p.right] rfl ?_
  refine clears_values [p.left, p.right] fun q hq => hjoined q ?_
  exact List.mem_cons_of_mem _ hq

/-- What is below a statement: its phrases, and merges of which the merge map is one. -/
theorem visit_of_mem_stmtPlan {f : Stmt.Form} {w : Visit}
    (hw : w ∈ (Arena.stmtPlan f).filterMap Task.visit?) :
    (∃ q ∈ f.phrases, q.visit? = some w) ∨
      ∃ m, .join m ∈ f.phrases ∧ (w = .mergeIf m ∨ w = .loopRepeat m) := by
  cases f <;> simp [Arena.stmtPlan, Task.visit?] at hw <;>
    simp [Stmt.Form.phrases, visit?] <;> grind

theorem clears_stmtForm {f : Stmt.Form} (h : ∀ q ∈ f.phrases, q.Clears a) :
    Trail.Clears (VarSummary.steps a) (.stmtForm f) := by
  refine .intro _ (a.steps_stmtForm f) fun w hw => ?_
  rcases visit_of_mem_stmtPlan hw with ⟨q, hq, hv⟩ | ⟨m, hm, rfl | rfl⟩
  · exact h q hq w hv
  · exact .single rfl (h (.join m) hm (.merge m) rfl)
  · exact .single rfl (h (.join m) hm (.merge m) rfl)

/-- A phrase can be visited without a fault if what it consists of can. -/
theorem clears_of_pieces {p : Phrase} {pieces : List Phrase} (hp : a.phrases p = some pieces)
    (h : ∀ q ∈ pieces, q.Clears a) : p.Clears a := by
  intro v hv
  cases p with
  | access x => simp [visit?] at hv
  | function f =>
    obtain rfl : .function f = v := by simpa [visit?] using hv
    obtain rfl := Option.some.inj hp
    have hbody := h (.block f.body) (by simp) (.block f.body) rfl
    exact .single rfl hbody
  | block r =>
    obtain rfl : .block r = v := by simpa [visit?] using hv
    obtain rfl := Option.some.inj hp
    have hsteps : VarSummary.steps a (.block r) = (r.ids.map Visit.stmt).map .ok := by
      rw [List.map_map]
      exact a.steps_block r
    refine .intro _ hsteps fun w hw => ?_
    obtain ⟨id, hid, rfl⟩ := List.mem_map.mp hw
    exact h (.stmt id) (List.mem_map_of_mem hid) (.stmt id) rfl
  | stmt id =>
    obtain rfl : .stmt id = v := by simpa [visit?] using hv
    rcases hs : a.stmt? id with _ | ⟨f | _, span⟩
    · simp [Arena.phrases, hs] at hp
    · obtain rfl : f.phrases = pieces := by simpa [Arena.phrases, hs] using hp
      refine .single ?_ (clears_stmtForm h)
      show a.steps (.stmt id) = _
      simp [a.steps_stmt, hs]
    · simp [Arena.phrases, hs] at hp
  | value id =>
    obtain rfl : .expr id = v := by simpa [visit?] using hv
    rcases hs : a.expr? id with _ | ⟨f | _, span⟩
    · simp [Arena.phrases, hs] at hp
    · have hf : a.reads f = some pieces := by simpa [Arena.phrases, hs] using hp
      refine .single ?_ (clears_exprForm hf h)
      show a.steps (.expr id) = _
      simp [a.steps_expr, hs]
    · simp [Arena.phrases, hs] at hp
  | target id =>
    obtain rfl : .target id = v := by simpa [visit?] using hv
    rcases hs : a.expr? id with _ | ⟨f | _, span⟩
    · simp [Arena.phrases, hs] at hp
    · obtain ⟨t, hf, ht⟩ : ∃ t, f.target? = some t ∧ a.writes t = some pieces := by
        simpa [Arena.phrases, hs, Option.bind_eq_some_iff] using hp
      refine .single ?_ (clears_targetForm ht h)
      show a.steps (.target id) = _
      simp [a.steps_target, hs, hf]
    · simp [Arena.phrases, hs] at hp
  | enter r =>
    obtain rfl : .loopEntry r = v := by simpa [visit?] using hv
    obtain ⟨phis, hr, rfl⟩ := Option.map_eq_some_iff.mp hp
    refine .intro ((phis.map Phi.left).map .expr) ?_ (clears_values _ fun q hq => h q ?_)
    · rw [VarSummary.steps_loopEntry, hr, List.map_map]
      rfl
    · obtain ⟨id, hid, rfl⟩ := List.mem_map.mp hq
      obtain ⟨p, hp, rfl⟩ := List.mem_map.mp hid
      exact List.mem_flatMap.mpr ⟨p, hp, by simp [Phi.entered]⟩
  | join r =>
    obtain rfl : .merge r = v := by simpa [visit?] using hv
    obtain ⟨phis, hr, rfl⟩ := Option.map_eq_some_iff.mp hp
    exact clears_merge hr h

theorem clears_of_stream {ps : List Phrase} {xs : List Access} (h : Stream a ps xs) :
    ∀ p ∈ ps, p.Clears a := by
  induction h with
  | nil => simp
  | access x _ ih =>
    intro p hp
    rcases List.mem_cons.mp hp with rfl | hp
    · exact fun v hv => by simp [visit?] at hv
    · exact ih p hp
  | unfold hpieces _ _ ihp ih =>
    intro p hp
    rcases List.mem_cons.mp hp with rfl | hp
    · exact clears_of_pieces hpieces ihp
    · exact ih p hp

end Phrase

/-! ### The summary of a function -/

theorem Trail.accesses {a : Arena} {f : Function} {n : Nat} {visits : List Visit}
    (h : Trail (VarSummary.steps a) n [.ok (.function f)] visits none) :
    ∃ stream, Stream a [.function f] stream ∧
      Access.Alike stream (visits.flatMap (Visit.accesses a)) := by
  obtain ⟨parts, hparts, hvisits⟩ := h.compose Visit.accesses_step rfl [.function f] rfl
  obtain ⟨stream, hstream, halike⟩ := Visit.stream_below hparts
  exact ⟨stream, by simpa [Arena.visitPhrases] using hstream, hvisits ▸ halike⟩

namespace VarSummary

theorem collectVars_ok_iff_trail {a : Arena} {f : Function} {s : VarSummary} :
    a.collectVars f = .ok s ↔ ∃ n visits,
      Trail (steps a) n [.ok (.function f)] visits none ∧ visits.foldl (note a) empty = s :=
  (follows a).map_state_eq_ok_iff (graded a) [.visit (.function f)] empty s

/-- A function has a summary just where it can be read through to its accesses, and the summary is
that of these. -/
theorem collectVars_ok_iff_stream {a : Arena} {f : Function} {s : VarSummary} :
    a.collectVars f = .ok s ↔ ∃ stream, Stream a [.function f] stream ∧ summarize stream = s := by
  have hsummary (visits : List Visit) :
      visits.foldl (note a) empty = summarize (visits.flatMap (Visit.accesses a)) :=
    foldl_note a empty visits
  rw [collectVars_ok_iff_trail]
  constructor
  · rintro ⟨n, visits, ht, rfl⟩
    obtain ⟨stream, hstream, halike⟩ := ht.accesses
    exact ⟨stream, hstream, by rw [hsummary, summarize_eq_of_alike halike]⟩
  · rintro ⟨stream, hstream, rfl⟩
    have hclears := Phrase.clears_of_stream hstream (.function f) (by simp) (.function f) rfl
    obtain ⟨n, visits, ht⟩ := Trail.exists_of_clears [.function f] (by simpa using hclears)
    obtain ⟨stream', hstream', halike⟩ := ht.accesses
    obtain rfl := hstream'.unique hstream
    exact ⟨n, visits, ht, by rw [hsummary, summarize_eq_of_alike halike]⟩

end VarSummary

/-- Names are collected just where the function can be read through to its accesses.  The names
defined and the names used are those of the accesses, each once and in the order of the first access
to it, and free are those used that are not defined. -/
theorem collectVars_eq_ok_iff (a : Arena) (f : Function) (defs uses free : List Name) :
    (∃ s, a.collectVars f = .ok s ∧
        s.defs.toList = defs ∧ s.uses.toList = uses ∧ s.free = free) ↔
      ∃ stream, Stream a [.function f] stream ∧
        defs = (Access.defined stream).eraseDups ∧ uses = (Access.used stream).eraseDups ∧
          free = uses.filter fun n => n ∉ defs := by
  constructor
  · rintro ⟨s, hs, rfl, rfl, rfl⟩
    obtain ⟨stream, hstream, rfl⟩ := VarSummary.collectVars_ok_iff_stream.mp hs
    exact ⟨stream, hstream, VarSummary.toList_defs_summarize stream,
      VarSummary.toList_uses_summarize stream, VarSummary.free_eq _⟩
  · rintro ⟨stream, hstream, rfl, rfl, rfl⟩
    refine ⟨VarSummary.summarize stream,
      VarSummary.collectVars_ok_iff_stream.mpr ⟨stream, hstream, rfl⟩,
      VarSummary.toList_defs_summarize stream, VarSummary.toList_uses_summarize stream, ?_⟩
    rw [VarSummary.free_eq, VarSummary.toList_defs_summarize, VarSummary.toList_uses_summarize]

end MergeForm
